import JouleDB.Ledger.Committer

/-!
# Committed receipts stay provable

A batch is stored under its root, and the root determines its receipts.  So a batch that is stored
again brings the tree that is there, and the entry of a receipt keeps pointing into a tree that has
the receipt as its leaf.
-/

namespace JouleDB.Ledger

variable {Digest Number : Type} {hashing : Hashing Digest Number}
  {known : Set (LedgerEnergyReceipt Number)}

/-- A receipt can be proved from the store: the tree of its batch has a proof for its leaf, which
leads to the root that names the batch, and the batch lists the id in its place. -/
def ReceiptStore.Provable [DecidableEq Digest] (hashing : Hashing Digest Number)
    (store : ReceiptStore Digest Number) : Prop :=
  ∀ (receiptId : String) (receipt : LedgerEnergyReceipt Number) (batchId : String) (index : Nat),
    store.receipts[receiptId]? = some (receipt, batchId, index) →
    ∃ tree proof root batch, store.trees[batchId]? = some tree ∧
      tree.proof hashing index = some proof ∧
      proof.leafHash = hashing.toHex (hashing.contentHash receipt) ∧
      hashing.toHex root = batchId ∧ proof.verify hashing root ∧
      store.batches[batchId]? = some batch ∧ batch.receiptIds[index]? = some receiptId

/-- A batch of these receipts is stored under an id. -/
structure ReceiptStore.Committed (hashing : Hashing Digest Number)
    (known : Set (LedgerEnergyReceipt Number)) (store : ReceiptStore Digest Number) (batchId : String)
    (receipts : List (LedgerEnergyReceipt Number)) : Prop where
  nonempty : receipts ≠ []
  inKnown : ∀ receipt ∈ receipts, receipt ∈ known
  root : batchId = (MerkleTree.ofReceipts hashing receipts).rootHex hashing
  tree : store.trees[batchId]? = some (MerkleTree.ofReceipts hashing receipts)
  batch : ∃ batch, store.batches[batchId]? = some batch ∧
    batch.receiptIds = receipts.map (·.receiptId)

/-- Every entry points into a stored batch. -/
def ReceiptStore.Sound (hashing : Hashing Digest Number)
    (known : Set (LedgerEnergyReceipt Number)) (store : ReceiptStore Digest Number) : Prop :=
  ∀ (receiptId : String) (receipt : LedgerEnergyReceipt Number) (batchId : String) (index : Nat),
    store.receipts[receiptId]? = some (receipt, batchId, index) →
    ∃ receipts, store.Committed hashing known batchId receipts ∧ receipts[index]? = some receipt ∧
      receipt.receiptId = receiptId

namespace ReceiptStore

variable {store : ReceiptStore Digest Number}

theorem Sound.provable [DecidableEq Digest] (sound : store.Sound hashing known) :
    store.Provable hashing := by
  intro receiptId receipt batchId index held
  obtain ⟨receipts, committed, member, named⟩ := sound receiptId receipt batchId index held
  obtain ⟨batch, batchHeld, ids⟩ := committed.batch
  have leaf : (receipts.map hashing.contentHash)[index]? = some (hashing.contentHash receipt) := by
    rw [List.getElem?_map, member]
    rfl
  obtain ⟨proof, found, isLeaf, verified⟩ := MerkleTree.proof_verifies leaf
  refine ⟨_, proof, (MerkleTree.ofReceipts hashing receipts).root hashing, batch, committed.tree,
    found, isLeaf, committed.root.symm, verified, batchHeld, ?_⟩
  rw [ids, List.getElem?_map, member, Option.map_some, named]

/-- An entry after a batch was entered is one of the batch or an old one. -/
theorem getElem?_insertReceipts {rootHex : String} {start : Nat}
    {receipts : List (LedgerEnergyReceipt Number)}
    {map : FiniteMap String (LedgerEnergyReceipt Number × String × Nat)}
    {receiptId : String} {entry : LedgerEnergyReceipt Number × String × Nat}
    (held : (insertReceipts rootHex start receipts map)[receiptId]? = some entry) :
    map[receiptId]? = some entry ∨ ∃ index receipt, receipts[index]? = some receipt ∧
      receipt.receiptId = receiptId ∧ entry = (receipt, rootHex, start + index) := by
  induction receipts generalizing start map with
  | nil => exact .inl held
  | cons receipt receipts ih =>
      rcases ih held with old | ⟨index, other, member, named, isEntry⟩
      · rw [Std.ExtTreeMap.getElem?_insert] at old
        split at old
        next same =>
          refine .inr ⟨0, receipt, rfl, compare_eq_iff_eq.mp same, ?_⟩
          rw [← Option.some.inj old, Nat.add_zero]
        · exact .inl old
      · refine .inr ⟨index + 1, other, member, named, ?_⟩
        rw [isEntry, Nat.add_right_comm, Nat.add_assoc]

/-- A batch that is entered under its root leaves every entry with its batch. -/
theorem Sound.insertBatch (free : CollisionFree hashing known) (sound : store.Sound hashing known)
    {receipts : List (LedgerEnergyReceipt Number)} (nonempty : receipts ≠ [])
    (inKnown : ∀ receipt ∈ receipts, receipt ∈ known)
    {batch : ReceiptBatch Number} (ids : batch.receiptIds = receipts.map (·.receiptId))
    (commitment : BatchCommitment Number) :
    (store.insertBatch batch receipts ((MerkleTree.ofReceipts hashing receipts).rootHex hashing)
      (MerkleTree.ofReceipts hashing receipts) commitment).Sound hashing known := by
  intro receiptId receipt batchId index held
  have entered : (store.insertBatch batch receipts
      ((MerkleTree.ofReceipts hashing receipts).rootHex hashing)
      (MerkleTree.ofReceipts hashing receipts) commitment).Committed hashing known
      ((MerkleTree.ofReceipts hashing receipts).rootHex hashing) receipts :=
    { nonempty := nonempty
      inKnown := inKnown
      root := rfl
      tree := by simp [ReceiptStore.insertBatch]
      batch := ⟨batch, by simp [ReceiptStore.insertBatch], ids⟩ }
  rcases getElem?_insertReceipts held with old | ⟨position, other, member, named, isEntry⟩
  · obtain ⟨others, committed, member, named⟩ := sound receiptId receipt batchId index old
    by_cases same : (MerkleTree.ofReceipts hashing receipts).rootHex hashing = batchId
    · -- The batch of the entry was stored once more.
      have roots : (MerkleTree.ofReceipts hashing receipts).root hashing =
          (MerkleTree.ofReceipts hashing others).root hashing :=
        hashing.toHex_injective (same.trans committed.root)
      have equal := MerkleTree.receipts_eq_of_root_eq free nonempty inKnown
        committed.nonempty committed.inKnown roots
      rw [← same]
      exact ⟨receipts, entered, equal ▸ member, named⟩
    · refine ⟨others, ?_, member, named⟩
      exact
        { nonempty := committed.nonempty
          inKnown := committed.inKnown
          root := committed.root
          tree := by
            simpa [ReceiptStore.insertBatch, Std.ExtTreeMap.getElem?_insert, same]
              using committed.tree
          batch := by
            simpa [ReceiptStore.insertBatch, Std.ExtTreeMap.getElem?_insert, same]
              using committed.batch }
  · cases isEntry
    rw [Nat.zero_add]
    exact ⟨receipts, entered, member, named⟩

end ReceiptStore

/-- A queued batch is the batch of its receipts. -/
structure RetryEntry.Sound (hashing : Hashing Digest Number)
    (known : Set (LedgerEnergyReceipt Number)) (entry : RetryEntry Digest Number) : Prop where
  nonempty : entry.receipts ≠ []
  inKnown : ∀ receipt ∈ entry.receipts, receipt ∈ known
  root : entry.batch.merkleRoot = (MerkleTree.ofReceipts hashing entry.receipts).rootHex hashing
  ids : entry.batch.receiptIds = entry.receipts.map (·.receiptId)

/-- The store and the retry queue are in order. -/
structure Core.Sound (hashing : Hashing Digest Number) (known : Set (LedgerEnergyReceipt Number))
    (core : Core Digest Number) : Prop where
  store : core.store.Sound hashing known
  queue : ∀ entry ∈ core.retryQueue.entries, entry.Sound hashing known

namespace RetryQueue

variable {queue : RetryQueue Digest Number} {now : Nat}

/-- A full queue keeps the new entry and some of the old ones. -/
theorem mem_enqueue {batch : ReceiptBatch Number} {receipts : List (LedgerEnergyReceipt Number)}
    {tree : MerkleTree Digest} {entry : RetryEntry Digest Number}
    (member : entry ∈ (queue.enqueue now batch receipts tree).entries) :
    entry ∈ queue.entries ∨
      entry = { batch, receipts, tree, attempts := 0, nextRetry := now } := by
  revert member
  unfold enqueue
  dsimp only
  split
  next oldest rest isQueue =>
    rw [isQueue]
    split
    · simp only [List.mem_append, List.mem_cons, List.not_mem_nil, or_false]
      exact fun member => member.imp_left .inr
    · simp only [List.mem_append, List.mem_singleton]
      exact id
  next isQueue => exact fun member => .inr (List.mem_singleton.mp member)

/-- An entry that is queued again keeps its batch. -/
theorem mem_reEnqueue {again entry : RetryEntry Digest Number}
    (member : entry ∈ (queue.reEnqueue now again).entries) :
    entry ∈ queue.entries ∨ entry.batch = again.batch ∧ entry.receipts = again.receipts := by
  revert member
  unfold reEnqueue
  split
  · exact .inl
  · simp only [List.mem_append, List.mem_singleton]
    rintro (member | rfl)
    · exact .inl member
    · exact .inr ⟨rfl, rfl⟩

end RetryQueue

section Runs

variable [Zero Number] [Add Number] [Div Number] [NatCast Number]
variable {environment : Environment Number} {config : LedgerConfig}

namespace Core.Sound

variable {core : Core Digest Number}

/-- A commit keeps the store and the queue in order. -/
theorem commitBatch (free : CollisionFree hashing known) (sound : core.Sound hashing known)
    {receipts : List (LedgerEnergyReceipt Number)} (nonempty : receipts ≠ [])
    (inKnown : ∀ receipt ∈ receipts, receipt ∈ known) (tenantId : Option String) :
    (core.commitBatch hashing environment config receipts nonempty tenantId).Sound
      hashing known := by
  simp only [Core.commitBatch, Core.storeCommitment]
  split
  next equal =>
    split at equal <;> cases equal
    exact ⟨sound.store.insertBatch free nonempty inKnown rfl _, sound.queue⟩
  next equal =>
    split at equal <;> cases equal
    refine ⟨sound.store, fun entry member => ?_⟩
    rcases RetryQueue.mem_enqueue member with old | rfl
    · exact sound.queue entry old
    · exact ⟨nonempty, inKnown, rfl, rfl⟩

omit [Zero Number] [Add Number] in
/-- A retry keeps the store and the queue in order. -/
theorem retryCommit (free : CollisionFree hashing known) (sound : core.Sound hashing known)
    {entry : RetryEntry Digest Number} (entrySound : entry.Sound hashing known) :
    (core.retryCommit hashing environment entry).Sound hashing known := by
  simp only [Core.retryCommit, Core.storeCommitment]
  split
  next equal =>
    split at equal <;> cases equal
    rw [entrySound.root]
    exact ⟨sound.store.insertBatch free entrySound.nonempty entrySound.inKnown entrySound.ids _,
      sound.queue⟩
  next equal =>
    split at equal <;> cases equal
    refine ⟨sound.store, fun other member => ?_⟩
    rcases RetryQueue.mem_reEnqueue member with old | ⟨sameBatch, sameReceipts⟩
    · exact sound.queue other old
    · exact
        { nonempty := sameReceipts ▸ entrySound.nonempty
          inKnown := sameReceipts ▸ entrySound.inKnown
          root := by rw [sameBatch, sameReceipts, entrySound.root]
          ids := by rw [sameBatch, sameReceipts, entrySound.ids] }

omit [Zero Number] [Add Number] in
/-- The retries keep the store and the queue in order. -/
theorem processRetries (free : CollisionFree hashing known) (sound : core.Sound hashing known) :
    (core.processRetries hashing environment).Sound hashing known := by
  have retries : ∀ (entries : List (RetryEntry Digest Number)) (core : Core Digest Number),
      core.Sound hashing known → (∀ entry ∈ entries, entry.Sound hashing known) →
      (entries.foldl (Core.retryCommit hashing environment) core).Sound hashing known := by
    intro entries
    induction entries with
    | nil => exact fun core sound _ => sound
    | cons entry entries ih =>
        intro core sound all
        exact ih _ (sound.retryCommit free (all entry List.mem_cons_self))
          fun other member => all other (List.mem_cons_of_mem _ member)
  have done := retries
    (core.retryQueue.entries.filter fun entry => entry.nextRetry ≤ environment.now core.readings)
    (core.takeReady environment).2
    ⟨sound.store, fun entry member => sound.queue entry (List.mem_filter.mp member).1⟩
    fun entry member => sound.queue entry (List.mem_filter.mp member).1
  exact ⟨done.store, done.queue⟩

end Core.Sound

namespace Committer

/-- The store and the queue are in order, and the pending receipts are known. -/
structure Sound (hashing : Hashing Digest Number) (known : Set (LedgerEnergyReceipt Number))
    (committer : Committer Digest Number) : Prop where
  core : committer.core.Sound hashing known
  pending : ∀ receipt, committer.pending.Holds receipt → receipt ∈ known

omit [Zero Number] [Add Number] [Div Number] [NatCast Number] in
theorem sound_new : (new config : Committer Digest Number).Sound hashing known :=
  { core :=
      ⟨fun receiptId receipt batchId index held => by simp [new, ReceiptStore.new] at held,
        fun entry member => by simp [new, RetryQueue.new] at member⟩
    pending := by
      intro receipt held
      unfold new at held
      dsimp only at held
      split at held
      · obtain ⟨tenant, receipts, isSome, -⟩ := held
        simp at isSome
      · exact absurd held List.not_mem_nil }

theorem Sound.step (free : CollisionFree hashing known) {committer : Committer Digest Number}
    (sound : committer.Sound hashing known) {event : Event Number}
    (received : ∀ receipt ∈ (step hashing environment config committer event).received,
      receipt ∈ known) :
    (step hashing environment config committer event).Sound hashing known := by
  obtain ⟨committed, turn⟩ := step_turn hashing environment config committer event
  have origin : ∀ receipt, receipt ∈ committed ∨
      (Committer.step hashing environment config committer event).pending.Holds receipt →
      receipt ∈ known := by
    intro receipt either
    rcases turn.origin receipt either with held | isReceived
    · exact sound.pending receipt held
    · exact received receipt isReceived
  refine ⟨turn.works.keeps sound.core ?_ ?_ ?_, fun receipt held => origin receipt (.inr held)⟩
  · intro core receipts nonempty tenantId inside sound
    exact sound.commitBatch free nonempty
      (fun receipt member => origin receipt (.inl (inside receipt member))) tenantId
  · exact fun core sound => sound.processRetries free
  · exact fun core seen sound => ⟨sound.store, sound.queue⟩

variable (hashing environment config) in
/-- Received receipts stay received, and what is received came over the channel. -/
theorem received_foldl (committer : Committer Digest Number) (events : List (Event Number)) :
    ∃ later, (events.foldl (step hashing environment config) committer).received =
      committer.received ++ later ∧ ∀ receipt ∈ later, Event.receive receipt ∈ events := by
  induction events generalizing committer with
  | nil => exact ⟨[], by simp⟩
  | cons event events ih =>
      obtain ⟨later, isLater, came⟩ := ih (Committer.step hashing environment config committer event)
      obtain ⟨committed, turn⟩ := step_turn hashing environment config committer event
      rw [List.foldl_cons, isLater]
      rcases turn.received with same | ⟨receipt, isEvent, more, -⟩
      · exact ⟨later, by rw [same],
          fun other member => List.mem_cons_of_mem _ (came other member)⟩
      · refine ⟨receipt :: later, by simp [more], fun other member => ?_⟩
        rcases List.mem_cons.mp member with rfl | member
        · exact isEvent ▸ List.mem_cons_self
        · exact List.mem_cons_of_mem _ (came other member)

theorem Sound.foldl (free : CollisionFree hashing known) {committer : Committer Digest Number}
    (sound : committer.Sound hashing known) {events : List (Event Number)}
    (received : ∀ receipt ∈ (events.foldl (Committer.step hashing environment config)
      committer).received, receipt ∈ known) :
    (events.foldl (Committer.step hashing environment config) committer).Sound hashing known := by
  induction events generalizing committer with
  | nil => exact sound
  | cons event events ih =>
      refine ih (sound.step free fun receipt member => received receipt ?_) received
      obtain ⟨later, isLater, -⟩ := received_foldl hashing environment config
        (Committer.step hashing environment config committer event) events
      rw [List.foldl_cons, isLater]
      exact List.mem_append_left _ member

end Committer

end Runs

section Tagged

/-- Bytes that show where they end. -/
def stuff (bytes : Bytes) : Bytes := bytes.flatMap (fun byte => [1, byte]) ++ [0]

/-- The bytes before they were stuffed. -/
def unstuff : Bytes → Option Bytes
  | [0] => some []
  | 1 :: byte :: rest => (unstuff rest).map (byte :: ·)
  | _ => none

theorem unstuff_stuff (bytes : Bytes) : unstuff (stuff bytes) = some bytes := by
  induction bytes with
  | nil => rfl
  | cons byte bytes ih =>
      rw [show stuff (byte :: bytes) = 1 :: byte :: stuff bytes from rfl]
      simp only [unstuff, ih, Option.map_some]

/-- Stuffed bytes can be told apart in front of other bytes. -/
theorem stuff_append_inj {left left' rest rest' : Bytes}
    (same : stuff left ++ rest = stuff left' ++ rest') : left = left' ∧ rest = rest' := by
  induction left generalizing left' with
  | nil =>
      cases left' with
      | nil => simpa [stuff] using same
      | cons byte left' => simp [stuff] at same
  | cons byte left ih =>
      cases left' with
      | nil => simp [stuff] at same
      | cons byte' left' =>
          simp only [stuff, List.flatMap_cons, List.cons_append, List.nil_append,
            List.append_assoc, List.cons.injEq, true_and] at same
          obtain ⟨sameByte, sameRest⟩ := same
          have inner := @ih left' (by simpa [stuff] using sameRest)
          exact ⟨by rw [sameByte, inner.1], inner.2⟩

/-- A hash without collisions: the message itself, behind a tag. -/
def taggedHashing : Hashing Bytes Nat :=
  { sha256 := fun message => 1 :: message
    toBytes := stuff
    ofBytes := unstuff
    ofBytes_toBytes := unstuff_stuff
    zeroHash := [0]
    json := fun receipt => utf8 ("\x7b\"receipt_id\":\"" ++ receipt.receiptId ++ "\",\"qid\":\"" ++
      receipt.qid ++ "\",\"tenant_id\":\"" ++ receipt.tenantId ++ "\"\x7d") }

/-- A receipt. -/
def receiptOf (receiptId qid tenantId : String) (timestampStart : Time) :
    LedgerEnergyReceipt Nat :=
  { receiptId, qid, tenantId, workloadTag := none, branchId := none, energyJoulesTotal := 1,
    energyJoulesByStage := ∅, kwh := 1, kgCo2e := 1, gridRegion := "us", gridFactorSource := "test",
    timestampStart, timestampEnd := timestampStart, deviceTarget := "cpu", algorithmType := "scan" }

/-- A backend that records every batch but the first, and a clock that runs in seconds. -/
def failsOnce : Environment Nat :=
  { commitBatch := fun call batch =>
      if call = 0 then none
      else some
        { batchId := batch.batchId, txRef := "1", backendName := "memory", committedAt := 0,
          blockNumber := none, chainOverheadJoules := some 4, amortizedOverheadJoules := none }
    now := fun reading => reading * 10 ^ 9
    order := fun _ keys => keys
    order_perm := fun _ _ => List.Perm.refl _ }

/-- Batches of two receipts. -/
def batchesOfTwo (enableTenantIsolation : Bool) : LedgerConfig :=
  { batchMaxReceipts := 2, issuer := "node-1", enableTenantIsolation, retryMaxAttempts := 5,
    retryMaxQueue := 64 }

/-- Two receipts make a batch, the backend fails, and the next turn retries. -/
def retriedEvents : List (Event Nat) :=
  [.receive (receiptOf "r1" "q1" "t" 1), .receive (receiptOf "r2" "q2" "t" 2), .timer]

namespace Committer

end Committer

end Tagged

end JouleDB.Ledger
