import JouleDB.Ledger.Provable

/-!
# What a Merkle proof binds

The sides of the siblings lead from the root down to one node of the tree.  If no two pairs of
digests have one hash, then a proof that the root verifies carries this node.  The index that a
proof names is not looked at.
-/

namespace JouleDB.Ledger

variable {Digest Number : Type}

namespace MerkleProof

/-- The node to which the sides of the siblings lead from the root. -/
def address : List ProofNode → Nat
  | [] => 0
  | sibling :: siblings =>
      match sibling.position with
      | .right => 2 * address siblings + 1
      | .left => 2 * address siblings + 2

/-- The siblings stand on the way from the leaf that the proof names, or from the padding there. -/
def Addresses (proof : MerkleProof) (tree : MerkleTree Digest) : Prop :=
  proof.leafIndex < tree.paddedCount ∧
    address proof.siblings = tree.paddedCount - 1 + proof.leafIndex

end MerkleProof

open MerkleProof

namespace MerkleTree

variable [DecidableEq Digest] (hashing : Hashing Digest Number) (leaves : List Digest)

/-- Every leaf has a proof, of that leaf, which the root verifies. -/
def Complete : Prop :=
  ∀ index leaf, leaves[index]? = some leaf →
    ∃ proof, (fromLeaves hashing leaves).proof hashing index = some proof ∧
      proof.leafIndex = index ∧ proof.leafHash = hashing.toHex leaf ∧
      proof.Addresses (fromLeaves hashing leaves) ∧
      proof.verify hashing ((fromLeaves hashing leaves).root hashing)

/-- Every proof that the root verifies carries the leaf it names. -/
def Binding : Prop :=
  ∀ proof : MerkleProof, proof.verify hashing ((fromLeaves hashing leaves).root hashing) →
    ∃ leaf, leaves[proof.leafIndex]? = some leaf ∧ hashing.ofHex proof.leafHash = some leaf

/-- Every proof that the root verifies, and whose siblings stand on the way from the leaf it names,
carries this leaf, or the padding if there is no such leaf. -/
def PathBinding : Prop :=
  ∀ proof : MerkleProof, proof.verify hashing ((fromLeaves hashing leaves).root hashing) →
    proof.Addresses (fromLeaves hashing leaves) →
    (∃ leaf, leaves[proof.leafIndex]? = some leaf ∧ hashing.ofHex proof.leafHash = some leaf) ∨
      leaves.length ≤ proof.leafIndex ∧ hashing.ofHex proof.leafHash = some hashing.zeroHash

variable {hashing leaves}

omit [DecidableEq Digest] in
theorem address_siblings (tree : MerkleTree Digest) {fuel current : Nat}
    (enough : current ≤ fuel) : address (tree.siblings hashing fuel current) = current := by
  induction fuel generalizing current with
  | zero => exact (Nat.le_zero.mp enough).symm
  | succ fuel ih =>
      rw [siblings]
      split
      next positive =>
        have parent := @ih ((current - 1) / 2) (by omega)
        dsimp only
        split
        next isLeft =>
          rw [address, parent]
          exact isLeft.symm
        next notLeft =>
          rw [address, parent]
          dsimp only
          omega
      next zero => exact (Nat.eq_zero_of_not_pos zero).symm

omit [DecidableEq Digest] in
/-- What hashes to the root along some siblings is the node to which they lead. -/
theorem eq_node_of_climb (injective : Function.Injective2 hashing.hashPair)
    {tree : MerkleTree Digest} {count : Nat} (hashes : tree.Hashes hashing count)
    {digest : Digest} {siblings : List ProofNode} (inside : address siblings ≤ 2 * count)
    (climbs : climb hashing digest siblings = some (tree.root hashing)) :
    digest = tree.node hashing (address siblings) := by
  induction siblings generalizing digest with
  | nil => exact Option.some.inj climbs
  | cons sibling siblings ih =>
      rw [climb] at climbs
      rw [address] at inside ⊢
      cases read : hashing.ofHex sibling.hash with
      | none =>
          rw [read] at climbs
          cases climbs
      | some siblingHash =>
          rw [read] at climbs
          cases side : sibling.position with
          | right =>
              rw [side] at climbs inside
              dsimp only at climbs inside ⊢
              have parent := ih (by omega) climbs
              rw [hashes _ (by omega)] at parent
              exact (injective parent).1
          | left =>
              rw [side] at climbs inside
              dsimp only at climbs inside ⊢
              have parent := ih (by omega) climbs
              rw [hashes _ (by omega)] at parent
              exact (injective parent).2

/-- A proof that the root verifies carries the node to which its siblings lead. -/
theorem ofHex_leafHash_eq_node (injective : Function.Injective2 hashing.hashPair)
    {tree : MerkleTree Digest} {count : Nat} (hashes : tree.Hashes hashing count)
    {proof : MerkleProof} (inside : address proof.siblings ≤ 2 * count)
    (verified : proof.verify hashing (tree.root hashing)) :
    hashing.ofHex proof.leafHash = some (tree.node hashing (address proof.siblings)) := by
  rw [verify] at verified
  cases read : hashing.ofHex proof.leafHash with
  | none =>
      rw [read] at verified
      cases verified
  | some digest =>
      rw [read] at verified
      rw [eq_node_of_climb injective hashes inside (of_decide_eq_true verified)]

end MerkleTree

section Tagged

theorem hashPair_taggedHashing_injective : Function.Injective2 taggedHashing.hashPair := by
  intro left left' right right' same
  have inner := stuff_append_inj (List.cons.inj same).2
  exact ⟨inner.1, taggedHashing.toBytes_injective inner.2⟩

/-- Three digests. -/
def threeLeaves : List Bytes := [[7], [8], [9]]

namespace MerkleTree

end MerkleTree

end Tagged

end JouleDB.Ledger
