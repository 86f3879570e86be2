import JouleDB.Ledger.Receipt
import Mathlib.Data.List.GetD
import Mathlib.Data.Nat.Log

/-!
# Merkle trees

A tree is an array of digests: the children of node `i` are the nodes `2 * i + 1` and `2 * i + 2`,
and the leaves, padded to a power of two, are the last level.  A proof holds the siblings on the way
from a leaf to the root.
-/

namespace JouleDB.Ledger

variable {Digest Number : Type}

/-- The next power of two. -/
def nextPowerOfTwo (n : Nat) : Nat := if n = 0 then 1 else 2 ^ Nat.clog 2 n

/-- A Merkle tree. -/
structure MerkleTree (Digest : Type) where
  nodes : List Digest
  leafCount : Nat
  paddedCount : Nat

/-- Where a sibling stands. -/
inductive Position where
  | left
  | right
  deriving DecidableEq

/-- A sibling on the way to the root. -/
structure ProofNode where
  hash : String
  position : Position

/-- A proof that a leaf is in a tree. -/
structure MerkleProof where
  leafIndex : Nat
  leafHash : String
  siblings : List ProofNode
  root : String

namespace MerkleTree

variable (hashing : Hashing Digest Number)

/-- Compute the nodes below an index from their children, the highest index first. -/
def build : Nat → List Digest → List Digest
  | 0, nodes => nodes
  | i + 1, nodes =>
      let left := nodes.getD (2 * i + 1) hashing.zeroHash
      let right := nodes.getD (2 * i + 2) hashing.zeroHash
      build i (nodes.set i (hashing.hashPair left right))

/-- The tree of a list of leaves. -/
def fromLeaves (leaves : List Digest) : MerkleTree Digest :=
  let paddedCount := if leaves.length = 0 then 1 else nextPowerOfTwo leaves.length
  let leafStart := paddedCount - 1
  let bottom := leaves ++ List.replicate (paddedCount - leaves.length) hashing.zeroHash
  let nodes := List.replicate leafStart hashing.zeroHash ++ bottom
  { nodes := if paddedCount > 1 then build hashing leafStart nodes else nodes
    leafCount := leaves.length
    paddedCount := paddedCount }

/-- The node at an index. -/
def node (tree : MerkleTree Digest) (index : Nat) : Digest :=
  tree.nodes.getD index hashing.zeroHash

/-- The root of a tree. -/
def root (tree : MerkleTree Digest) : Digest := tree.node hashing 0

/-- Hexadecimal text of the root. -/
def rootHex (tree : MerkleTree Digest) : String := hashing.toHex (tree.root hashing)

/-- The siblings from a node to the root.  The parent comes before its children, so the index is
enough fuel. -/
def siblings (tree : MerkleTree Digest) : Nat → Nat → List ProofNode
  | 0, _ => []
  | fuel + 1, current =>
      if current > 0 then
        let parent := (current - 1) / 2
        let sibling : ProofNode :=
          if current = 2 * parent + 1 then
            ⟨hashing.toHex (tree.node hashing (2 * parent + 2)), .right⟩
          else ⟨hashing.toHex (tree.node hashing (2 * parent + 1)), .left⟩
        sibling :: tree.siblings fuel parent
      else []

/-- The proof of the leaf at an index. -/
def proof (tree : MerkleTree Digest) (index : Nat) : Option MerkleProof :=
  if index ≥ tree.leafCount then none
  else
    let current := tree.paddedCount - 1 + index
    some
      { leafIndex := index
        leafHash := hashing.toHex (tree.node hashing current)
        siblings := tree.siblings hashing current current
        root := tree.rootHex hashing }

end MerkleTree

namespace MerkleProof

variable (hashing : Hashing Digest Number)

/-- Hash a digest together with the siblings on its way to the root. -/
def climb : Digest → List ProofNode → Option Digest
  | current, [] => some current
  | current, sibling :: siblings =>
      match hashing.ofHex sibling.hash with
      | none => none
      | some siblingHash =>
          match sibling.position with
          | .right => climb (hashing.hashPair current siblingHash) siblings
          | .left => climb (hashing.hashPair siblingHash current) siblings

/-- The proof leads to a root. -/
def verify [DecidableEq Digest] (proof : MerkleProof) (expectedRoot : Digest) : Bool :=
  match hashing.ofHex proof.leafHash with
  | none => false
  | some leaf => climb hashing leaf proof.siblings = some expectedRoot

end MerkleProof

namespace MerkleTree

variable {hashing : Hashing Digest Number}

/-- The computed nodes are the hashes of their children, and the others stay. -/
theorem build_spec (hashing : Hashing Digest Number) {count : Nat} {nodes : List Digest}
    (room : 2 * count < nodes.length) :
    (build hashing count nodes).length = nodes.length ∧
      (∀ index ≥ count, (build hashing count nodes).getD index hashing.zeroHash =
        nodes.getD index hashing.zeroHash) ∧
      ∀ index < count, (build hashing count nodes).getD index hashing.zeroHash =
        hashing.hashPair ((build hashing count nodes).getD (2 * index + 1) hashing.zeroHash)
          ((build hashing count nodes).getD (2 * index + 2) hashing.zeroHash) := by
  induction count generalizing nodes with
  | zero => exact ⟨rfl, fun _ _ => rfl, fun index below => absurd below (Nat.not_lt_zero index)⟩
  | succ count ih =>
      rw [build]
      generalize computed : hashing.hashPair (nodes.getD (2 * count + 1) hashing.zeroHash)
        (nodes.getD (2 * count + 2) hashing.zeroHash) = digest
      have short : 2 * count < (nodes.set count digest).length := by
        rw [List.length_set]
        omega
      obtain ⟨length, kept, hashes⟩ := ih short
      have others : ∀ index, index ≠ count → (nodes.set count digest).getD index hashing.zeroHash =
          nodes.getD index hashing.zeroHash := by
        intro index distinct
        simp [List.getD_eq_getElem?_getD, distinct.symm]
      have here : (nodes.set count digest).getD count hashing.zeroHash = digest := by
        have inside : count < nodes.length := by omega
        simp [List.getD_eq_getElem?_getD, inside]
      refine ⟨by rw [length, List.length_set], ?_, ?_⟩
      · intro index above
        rw [kept index (by omega), others index (by omega)]
      · intro index below
        rcases Nat.lt_succ_iff_lt_or_eq.mp below with below | rfl
        · exact hashes index below
        · rw [kept index le_rfl, here, kept (2 * index + 1) (by omega),
            kept (2 * index + 2) (by omega), others _ (by omega), others _ (by omega), computed]

/-- Each of the first nodes is the hash of its children. -/
def Hashes (hashing : Hashing Digest Number) (tree : MerkleTree Digest) (count : Nat) : Prop :=
  ∀ index < count, tree.node hashing index =
    hashing.hashPair (tree.node hashing (2 * index + 1)) (tree.node hashing (2 * index + 2))

theorem exists_paddedCount (hashing : Hashing Digest Number) (leaves : List Digest) :
    ∃ depth, (fromLeaves hashing leaves).paddedCount = 2 ^ depth ∧ leaves.length ≤ 2 ^ depth := by
  by_cases empty : leaves.length = 0
  · exact ⟨0, by simp [fromLeaves, empty], by omega⟩
  · exact ⟨Nat.clog 2 leaves.length, by simp [fromLeaves, empty, nextPowerOfTwo],
      Nat.le_pow_clog (by omega) _⟩

/-- A tree holds its leaves in the last level, padded with zero hashes, and hashes above. -/
theorem fromLeaves_spec (hashing : Hashing Digest Number) (leaves : List Digest) :
    let tree := fromLeaves hashing leaves
    (∀ index, tree.node hashing (tree.paddedCount - 1 + index) =
      leaves.getD index hashing.zeroHash) ∧
    tree.Hashes hashing (tree.paddedCount - 1) := by
  obtain ⟨depth, padded, fits⟩ := exists_paddedCount hashing leaves
  intro tree
  have positive : 0 < 2 ^ depth := Nat.two_pow_pos depth
  have count : (if leaves.length = 0 then 1 else nextPowerOfTwo leaves.length) = 2 ^ depth := padded
  obtain ⟨start, isStart⟩ : ∃ start, 2 ^ depth = start + 1 := ⟨2 ^ depth - 1, by omega⟩
  -- The array before the interior nodes are computed.
  obtain ⟨nodes, isNodes⟩ : ∃ nodes, nodes = List.replicate start hashing.zeroHash ++
      (leaves ++ List.replicate (start + 1 - leaves.length) hashing.zeroHash) := ⟨_, rfl⟩
  have length : nodes.length = 2 * start + 1 := by
    rw [isNodes]
    simp only [List.length_append, List.length_replicate]
    omega
  have bottom : ∀ index, nodes.getD (start + index) hashing.zeroHash =
      leaves.getD index hashing.zeroHash := by
    intro index
    rw [isNodes, List.getD_append_right _ _ _ _ (by simp), List.length_replicate,
      Nat.add_sub_cancel_left]
    by_cases inside : index < leaves.length
    · rw [List.getD_append _ _ _ _ inside]
    · rw [List.getD_append_right _ _ _ _ (by omega), List.getD_eq_default leaves _ (by omega)]
      rw [List.getD_eq_getElem?_getD, List.getElem?_replicate]
      split <;> rfl
  have built : tree.nodes = build hashing start nodes := by
    have unfolded : tree.nodes = if start + 1 > 1 then build hashing start nodes else nodes := by
      simp only [tree, fromLeaves, count, isStart, Nat.add_sub_cancel, isNodes]
    rw [unfolded]
    split
    · rfl
    next small =>
      have zero : start = 0 := by omega
      rw [zero, build]
  have room : 2 * start < nodes.length := by omega
  obtain ⟨-, kept, hashes⟩ := build_spec hashing room
  have treePadded : tree.paddedCount - 1 = start := by
    rw [show tree.paddedCount = 2 ^ depth from padded, isStart, Nat.add_sub_cancel]
  rw [treePadded]
  constructor
  · intro index
    rw [node, built, kept _ (Nat.le_add_right start index)]
    exact bottom index
  · intro index below
    unfold node
    rw [built]
    exact hashes index below

/-- The siblings lead from every node to the root. -/
theorem climb_siblings {tree : MerkleTree Digest} {count : Nat} (hashes : tree.Hashes hashing count)
    {fuel current : Nat} (enough : current ≤ fuel) (inside : current ≤ 2 * count) :
    MerkleProof.climb hashing (tree.node hashing current) (tree.siblings hashing fuel current) =
      some (tree.root hashing) := by
  induction fuel generalizing current with
  | zero =>
      have zero : current = 0 := by omega
      rw [zero]
      rfl
  | succ fuel ih =>
      rw [siblings]
      split
      next positive =>
        have parent := hashes ((current - 1) / 2) (by omega)
        have up := @ih ((current - 1) / 2) (by omega) (by omega)
        rw [parent] at up
        dsimp only
        split
        next isLeft =>
          simp only [MerkleProof.climb, Hashing.ofHex_toHex]
          rw [← isLeft] at up
          exact up
        next notLeft =>
          have isRight : 2 * ((current - 1) / 2) + 2 = current := by omega
          simp only [MerkleProof.climb, Hashing.ofHex_toHex]
          rw [isRight] at up
          exact up
      next zero =>
        have zero : current = 0 := by omega
        rw [zero]
        rfl

/-- Every leaf has a proof, of that leaf, which the root verifies. -/
theorem proof_verifies [DecidableEq Digest] {leaves : List Digest} {index : Nat} {leaf : Digest}
    (held : leaves[index]? = some leaf) :
    ∃ proof, (fromLeaves hashing leaves).proof hashing index = some proof ∧
      proof.leafHash = hashing.toHex leaf ∧
      proof.verify hashing ((fromLeaves hashing leaves).root hashing) := by
  obtain ⟨depth, padded, fits⟩ := exists_paddedCount hashing leaves
  obtain ⟨bottom, hashes⟩ := fromLeaves_spec hashing leaves
  have inside : index < leaves.length := (List.getElem?_eq_some_iff.mp held).1
  have isLeaf : (fromLeaves hashing leaves).node hashing
      ((fromLeaves hashing leaves).paddedCount - 1 + index) = leaf := by
    rw [bottom index, List.getD_eq_getElem?_getD, held]
    rfl
  have found : ¬index ≥ (fromLeaves hashing leaves).leafCount := not_le.mpr inside
  refine ⟨_, if_neg found, by rw [isLeaf], ?_⟩
  simp only [MerkleProof.verify, Hashing.ofHex_toHex, decide_eq_true_eq]
  exact climb_siblings hashes le_rfl (by omega)

/-- Two trees of one root agree as far as both of them hash. -/
theorem node_eq_of_root_eq (paired : ∀ {left right left' right' : Digest},
      hashing.hashPair left right = hashing.hashPair left' right' → left = left' ∧ right = right')
    {tree other : MerkleTree Digest} {count : Nat} (hashes : tree.Hashes hashing count)
    (otherHashes : other.Hashes hashing count) (same : tree.root hashing = other.root hashing)
    {index : Nat} (inside : index ≤ 2 * count) :
    tree.node hashing index = other.node hashing index := by
  induction index using Nat.strongRecOn with
  | ind index ih =>
      by_cases zero : index = 0
      · rw [zero]
        exact same
      · have parent := ih ((index - 1) / 2) (by omega) (by omega)
        rw [hashes _ (by omega), otherHashes _ (by omega)] at parent
        obtain ⟨left, right⟩ := paired parent
        rcases Nat.even_or_odd' (index - 1) with ⟨half, isEven | isOdd⟩
        · have isLeft : 2 * ((index - 1) / 2) + 1 = index := by omega
          rwa [isLeft] at left
        · have isRight : 2 * ((index - 1) / 2) + 2 = index := by omega
          rwa [isRight] at right

end MerkleTree

/-- Different things have different hashes: the known receipts, pairs of digests, and the
padding. -/
structure CollisionFree (hashing : Hashing Digest Number)
    (known : Set (LedgerEnergyReceipt Number)) : Prop where
  contentHash_injective : Set.InjOn hashing.contentHash known
  hashPair_injective : ∀ {left right left' right' : Digest},
    hashing.hashPair left right = hashing.hashPair left' right' → left = left' ∧ right = right'
  contentHash_ne_hashPair : ∀ receipt ∈ known, ∀ left right,
    hashing.contentHash receipt ≠ hashing.hashPair left right
  contentHash_ne_zeroHash : ∀ receipt ∈ known, hashing.contentHash receipt ≠ hashing.zeroHash

namespace MerkleTree

variable (hashing : Hashing Digest Number)

/-- The tree of the contents of receipts. -/
def ofReceipts (receipts : List (LedgerEnergyReceipt Number)) : MerkleTree Digest :=
  fromLeaves hashing (receipts.map hashing.contentHash)

section Determined

variable {hashing} {known : Set (LedgerEnergyReceipt Number)}
  {receipts others : List (LedgerEnergyReceipt Number)}

theorem node_ofReceipts (hashing : Hashing Digest Number)
    (receipts : List (LedgerEnergyReceipt Number)) (index : Nat) :
    (ofReceipts hashing receipts).node hashing
        ((ofReceipts hashing receipts).paddedCount - 1 + index) =
      (receipts[index]?.map hashing.contentHash).getD hashing.zeroHash := by
  rw [ofReceipts, (fromLeaves_spec hashing _).1 index, List.getD_eq_getElem?_getD,
    List.getElem?_map]

theorem hashes_ofReceipts (hashing : Hashing Digest Number)
    (receipts : List (LedgerEnergyReceipt Number)) :
    (ofReceipts hashing receipts).Hashes hashing ((ofReceipts hashing receipts).paddedCount - 1) :=
  (fromLeaves_spec hashing (receipts.map hashing.contentHash)).2

/-- A tree that is lower than another one has a receipt where the other one has a pair. -/
theorem paddedCount_le (free : CollisionFree hashing known) (nonempty : receipts ≠ [])
    (inKnown : ∀ receipt ∈ receipts, receipt ∈ known)
    (same : (ofReceipts hashing receipts).root hashing = (ofReceipts hashing others).root hashing) :
    (ofReceipts hashing others).paddedCount ≤ (ofReceipts hashing receipts).paddedCount := by
  by_contra! lower
  obtain ⟨receipt, rest, rfl⟩ := List.exists_cons_of_ne_nil nonempty
  obtain ⟨depth, padded, -⟩ :=
    exists_paddedCount hashing ((receipt :: rest).map hashing.contentHash)
  have positive : 0 < (ofReceipts hashing (receipt :: rest)).paddedCount := by
    rw [show (ofReceipts hashing (receipt :: rest)).paddedCount = 2 ^ depth from padded]
    exact Nat.two_pow_pos depth
  have otherHashes := hashes_ofReceipts hashing others
  have agree := node_eq_of_root_eq free.hashPair_injective
    (hashes_ofReceipts hashing (receipt :: rest))
    (fun index below => otherHashes index (lt_of_lt_of_le below (Nat.sub_le_sub_right lower.le 1)))
    same (Nat.le_mul_of_pos_left _ two_pos)
  have leaf := node_ofReceipts hashing (receipt :: rest) 0
  rw [Nat.add_zero] at leaf
  rw [leaf] at agree
  refine free.contentHash_ne_hashPair receipt (inKnown _ List.mem_cons_self) _ _ (agree.trans (otherHashes _ ?_))
  exact Nat.sub_lt_sub_right positive lower

theorem receipts_eq_of_root_eq (free : CollisionFree hashing known) (nonempty : receipts ≠ [])
    (inKnown : ∀ receipt ∈ receipts, receipt ∈ known) (othersNonempty : others ≠ [])
    (othersInKnown : ∀ receipt ∈ others, receipt ∈ known)
    (same : (ofReceipts hashing receipts).root hashing = (ofReceipts hashing others).root hashing) :
    receipts = others := by
  have padded : (ofReceipts hashing receipts).paddedCount =
      (ofReceipts hashing others).paddedCount :=
    le_antisymm (paddedCount_le free othersNonempty othersInKnown same.symm)
      (paddedCount_le free nonempty inKnown same)
  have hashes := hashes_ofReceipts hashing receipts
  have otherHashes := hashes_ofReceipts hashing others
  rw [← padded] at otherHashes
  have fits : ∀ list : List (LedgerEnergyReceipt Number),
      list.length ≤ (ofReceipts hashing list).paddedCount := by
    intro list
    obtain ⟨depth, isPadded, fits⟩ := exists_paddedCount hashing (list.map hashing.contentHash)
    rw [show (ofReceipts hashing list).paddedCount = 2 ^ depth from isPadded]
    simpa using fits
  apply List.ext_getElem?
  intro index
  by_cases inside : index < (ofReceipts hashing receipts).paddedCount
  · have agree := @node_eq_of_root_eq _ _ _ free.hashPair_injective _ _ _ hashes otherHashes same
      ((ofReceipts hashing receipts).paddedCount - 1 + index) (by omega)
    have leaf := node_ofReceipts hashing receipts index
    have otherLeaf := node_ofReceipts hashing others index
    rw [← padded] at otherLeaf
    have equal := leaf.symm.trans (agree.trans otherLeaf)
    cases held : receipts[index]? with
    | none =>
        cases otherHeld : others[index]? with
        | none => rfl
        | some other =>
            rw [held, otherHeld] at equal
            exact absurd equal.symm (free.contentHash_ne_zeroHash other
              (othersInKnown other (List.mem_of_getElem? otherHeld)))
    | some receipt =>
        cases otherHeld : others[index]? with
        | none =>
            rw [held, otherHeld] at equal
            exact absurd equal (free.contentHash_ne_zeroHash receipt
              (inKnown receipt (List.mem_of_getElem? held)))
        | some other =>
            rw [held, otherHeld] at equal
            rw [free.contentHash_injective (inKnown receipt (List.mem_of_getElem? held))
              (othersInKnown other (List.mem_of_getElem? otherHeld)) equal]
  · have long := fits receipts
    have otherLong := fits others
    rw [List.getElem?_eq_none (by omega), List.getElem?_eq_none (by omega)]

end Determined

end MerkleTree

end JouleDB.Ledger
