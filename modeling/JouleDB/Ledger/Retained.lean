import JouleDB.Ledger.Provable
import JouleDB.Lib.Run

/-!
# No receipt is lost silently

A receipt that is taken in is pending, then in a batch, and the batch is stored, waits in the retry
queue or is dropped and counted.  Two things can lose a receipt: an id that another query has too,
since the fields are hashed one after the other without a mark between them, and a batch that still
waits for its retry when the loop ends.
-/

namespace JouleDB.Ledger

variable {Digest Number : Type}

/-- The query that a receipt is for. -/
def LedgerEnergyReceipt.identity (receipt : LedgerEnergyReceipt Number) : String × String × Time :=
  (receipt.qid, receipt.tenantId, receipt.timestampStart)

/-- A receipt is stored, queued in a batch, or dropped with its batch. -/
def Core.Keeps (core : Core Digest Number) (receipt : LedgerEnergyReceipt Number) : Prop :=
  receipt.receiptId ∈ core.store.receipts ∨
    ∃ entry, (entry ∈ core.retryQueue.entries ∨ entry ∈ core.retryQueue.dropped) ∧
      receipt ∈ entry.receipts

/-- What is stored and queued is known, stored receipts stand under their ids, and the dropped
batches are counted. -/
structure Core.Within (known : List (LedgerEnergyReceipt Number)) (core : Core Digest Number) :
    Prop where
  stored : ∀ (receiptId : String) (receipt : LedgerEnergyReceipt Number) (batchId : String)
    (index : Nat), core.store.receipts[receiptId]? = some (receipt, batchId, index) →
    receipt ∈ known ∧ receipt.receiptId = receiptId
  queued : ∀ entry ∈ core.retryQueue.entries, ∀ receipt ∈ entry.receipts, receipt ∈ known
  counted : core.retryQueue.droppedCount = core.retryQueue.dropped.length

theorem Core.Within.mono {known more : List (LedgerEnergyReceipt Number)}
    {core : Core Digest Number} (within : core.Within known)
    (grows : ∀ receipt ∈ known, receipt ∈ more) : core.Within more :=
  { stored := fun receiptId receipt batchId index held =>
      (within.stored receiptId receipt batchId index held).imp_left (grows receipt)
    queued := fun entry member receipt held => grows receipt (within.queued entry member receipt held)
    counted := within.counted }

namespace ReceiptStore

/-- Entering receipts keeps the ids that are there and enters theirs. -/
theorem mem_insertReceipts {rootHex : String} {start : Nat}
    {receipts : List (LedgerEnergyReceipt Number)}
    {map : FiniteMap String (LedgerEnergyReceipt Number × String × Nat)} {receiptId : String}
    (known : receiptId ∈ map ∨ ∃ receipt ∈ receipts, receipt.receiptId = receiptId) :
    receiptId ∈ insertReceipts rootHex start receipts map := by
  induction receipts generalizing start map with
  | nil => exact known.resolve_right (by simp)
  | cons receipt receipts ih =>
      apply ih
      rcases known with old | ⟨other, member, named⟩
      · exact .inl (Std.ExtTreeMap.mem_insert.mpr (.inr old))
      · rcases List.mem_cons.mp member with rfl | member
        · exact .inl (Std.ExtTreeMap.mem_insert.mpr (.inl (by simp [named])))
        · exact .inr ⟨other, member, named⟩

end ReceiptStore

namespace RetryQueue

variable {queue : RetryQueue Digest Number} {now : Nat} {entry : RetryEntry Digest Number}

/-- An entry that leaves a full queue is dropped. -/
theorem kept_enqueue {batch : ReceiptBatch Number} {receipts : List (LedgerEnergyReceipt Number)}
    {tree : MerkleTree Digest} (member : entry ∈ queue.entries ∨ entry ∈ queue.dropped) :
    entry ∈ (queue.enqueue now batch receipts tree).entries ∨
      entry ∈ (queue.enqueue now batch receipts tree).dropped := by
  revert member
  unfold enqueue
  dsimp only
  split
  next oldest rest isQueue =>
    rw [isQueue]
    split
    · simp only [List.mem_append, List.mem_cons, List.not_mem_nil, or_false]
      tauto
    · simp only [List.mem_append]
      tauto
  next isQueue =>
    rw [isQueue]
    exact fun member => .inr (member.resolve_left List.not_mem_nil)

theorem mem_enqueue_self {batch : ReceiptBatch Number}
    {receipts : List (LedgerEnergyReceipt Number)} {tree : MerkleTree Digest} :
    { batch, receipts, tree, attempts := 0, nextRetry := now } ∈
      (queue.enqueue now batch receipts tree).entries := by
  unfold enqueue
  dsimp only
  split
  · split <;> simp
  · simp

/-- An enqueued batch counts the batch that it drives out. -/
theorem counted_enqueue {batch : ReceiptBatch Number}
    {receipts : List (LedgerEnergyReceipt Number)} {tree : MerkleTree Digest}
    (counted : queue.droppedCount = queue.dropped.length) :
    (queue.enqueue now batch receipts tree).droppedCount =
      (queue.enqueue now batch receipts tree).dropped.length := by
  unfold enqueue
  dsimp only
  split
  · split
    · simp [counted]
    · exact counted
  · exact counted

/-- A batch that failed again is queued or dropped, and counted then. -/
theorem reEnqueue_spec (again : RetryEntry Digest Number)
    (counted : queue.droppedCount = queue.dropped.length) :
    (∀ entry, entry ∈ queue.entries ∨ entry ∈ queue.dropped →
      entry ∈ (queue.reEnqueue now again).entries ∨ entry ∈ (queue.reEnqueue now again).dropped) ∧
    (∃ entry, entry.receipts = again.receipts ∧
      (entry ∈ (queue.reEnqueue now again).entries ∨
        entry ∈ (queue.reEnqueue now again).dropped)) ∧
    (queue.reEnqueue now again).droppedCount = (queue.reEnqueue now again).dropped.length := by
  unfold reEnqueue
  split
  · refine ⟨fun entry member => member.imp_right fun old => List.mem_append_left _ old,
      ⟨again, rfl, .inr (by simp)⟩, by simp [counted]⟩
  · exact ⟨fun entry member => member.imp_left fun old => List.mem_append_left _ old,
      ⟨{ again with
        attempts := again.attempts + 1
        nextRetry := now + backoffSecs (again.attempts + 1) * 10 ^ 9 }, rfl, .inl (by simp)⟩,
      counted⟩

end RetryQueue

section Runs

variable [Zero Number] [Add Number] [Div Number] [NatCast Number]
variable {hashing : Hashing Digest Number} {environment : Environment Number}
  {config : LedgerConfig}

namespace Core

variable {core core' : Core Digest Number} {known committed : List (LedgerEnergyReceipt Number)}

/-- A commit keeps its receipts and those that were kept. -/
theorem Keeps.commitBatch {receipts : List (LedgerEnergyReceipt Number)} {nonempty : receipts ≠ []}
    {tenantId : Option String} {receipt : LedgerEnergyReceipt Number}
    (kept : core.Keeps receipt ∨ receipt ∈ receipts) :
    (core.commitBatch hashing environment config receipts nonempty tenantId).Keeps receipt := by
  simp only [Core.commitBatch, Core.storeCommitment]
  split
  next equal =>
    split at equal <;> cases equal
    rcases kept with (stored | waits) | member
    · exact .inl (ReceiptStore.mem_insertReceipts (.inl stored))
    · exact .inr waits
    · exact .inl (ReceiptStore.mem_insertReceipts (.inr ⟨receipt, member, rfl⟩))
  next equal =>
    split at equal <;> cases equal
    rcases kept with (stored | waits) | member
    · exact .inl stored
    · obtain ⟨entry, waiting, inside⟩ := waits
      exact .inr ⟨entry, RetryQueue.kept_enqueue waiting, inside⟩
    · exact .inr ⟨_, .inl RetryQueue.mem_enqueue_self, member⟩

/-- A commit of known receipts leaves only known receipts. -/
theorem Within.commitBatch (within : core.Within known)
    {receipts : List (LedgerEnergyReceipt Number)} (nonempty : receipts ≠ [])
    (inKnown : ∀ receipt ∈ receipts, receipt ∈ known) (tenantId : Option String) :
    (core.commitBatch hashing environment config receipts nonempty tenantId).Within known := by
  simp only [Core.commitBatch, Core.storeCommitment]
  split
  next equal =>
    split at equal <;> cases equal
    refine ⟨fun receiptId receipt batchId index held => ?_, within.queued, within.counted⟩
    rcases ReceiptStore.getElem?_insertReceipts held with old | ⟨_, other, member, named, isEntry⟩
    · exact within.stored receiptId receipt batchId index old
    · cases isEntry
      exact ⟨inKnown receipt (List.mem_of_getElem? member), named⟩
  next equal =>
    split at equal <;> cases equal
    refine ⟨within.stored, fun entry member => ?_, RetryQueue.counted_enqueue within.counted⟩
    rcases RetryQueue.mem_enqueue member with old | rfl
    · exact within.queued entry old
    · exact inKnown

omit [Zero Number] [Add Number] in
/-- A retry keeps its receipts and those that were kept. -/
theorem Keeps.retryCommit (counted : core.retryQueue.droppedCount = core.retryQueue.dropped.length)
    {entry : RetryEntry Digest Number} {receipt : LedgerEnergyReceipt Number}
    (kept : core.Keeps receipt ∨ receipt ∈ entry.receipts) :
    (core.retryCommit hashing environment entry).Keeps receipt := by
  simp only [Core.retryCommit, Core.storeCommitment]
  split
  next equal =>
    split at equal <;> cases equal
    rcases kept with (stored | waits) | member
    · exact .inl (ReceiptStore.mem_insertReceipts (.inl stored))
    · exact .inr waits
    · exact .inl (ReceiptStore.mem_insertReceipts (.inr ⟨receipt, member, rfl⟩))
  next equal =>
    split at equal <;> cases equal
    obtain ⟨others, ⟨again, same, isAgain⟩, -⟩ :=
      RetryQueue.reEnqueue_spec entry counted
    rcases kept with (stored | waits) | member
    · exact .inl stored
    · obtain ⟨other, waiting, inside⟩ := waits
      exact .inr ⟨other, others other waiting, inside⟩
    · exact .inr ⟨again, isAgain, same ▸ member⟩

omit [Zero Number] [Add Number] in
/-- A retry of known receipts leaves only known receipts. -/
theorem Within.retryCommit (within : core.Within known) {entry : RetryEntry Digest Number}
    (inKnown : ∀ receipt ∈ entry.receipts, receipt ∈ known) :
    (core.retryCommit hashing environment entry).Within known := by
  simp only [Core.retryCommit, Core.storeCommitment]
  split
  next equal =>
    split at equal <;> cases equal
    refine ⟨fun receiptId receipt batchId index held => ?_, within.queued, within.counted⟩
    rcases ReceiptStore.getElem?_insertReceipts held with old | ⟨_, other, member, named, isEntry⟩
    · exact within.stored receiptId receipt batchId index old
    · cases isEntry
      exact ⟨inKnown receipt (List.mem_of_getElem? member), named⟩
  next equal =>
    split at equal <;> cases equal
    refine ⟨within.stored, fun other member => ?_,
      (RetryQueue.reEnqueue_spec entry within.counted).2.2⟩
    rcases RetryQueue.mem_reEnqueue member with old | ⟨-, sameReceipts⟩
    · exact within.queued other old
    · exact sameReceipts ▸ inKnown

omit [Zero Number] [Add Number] in
/-- The retries leave only known receipts, and keep what is kept. -/
theorem Within.processRetries (within : core.Within known) :
    (core.processRetries hashing environment).Within known ∧
      ∀ receipt, core.Keeps receipt → (core.processRetries hashing environment).Keeps receipt := by
  have retries : ∀ (entries : List (RetryEntry Digest Number)) (core : Core Digest Number),
      core.Within known → (∀ entry ∈ entries, ∀ receipt ∈ entry.receipts, receipt ∈ known) →
      (entries.foldl (Core.retryCommit hashing environment) core).Within known ∧
        ∀ receipt, (core.Keeps receipt ∨ ∃ entry ∈ entries, receipt ∈ entry.receipts) →
          (entries.foldl (Core.retryCommit hashing environment) core).Keeps receipt := by
    intro entries
    induction entries with
    | nil => exact fun core within _ => ⟨within, fun receipt kept => by simpa using kept⟩
    | cons entry entries ih =>
        intro core within all
        obtain ⟨inside, keeps⟩ := ih _ (within.retryCommit (all entry List.mem_cons_self))
          fun other member => all other (List.mem_cons_of_mem _ member)
        refine ⟨inside, fun receipt kept => keeps receipt ?_⟩
        rcases kept with kept | ⟨other, member, held⟩
        · exact .inl (Keeps.retryCommit within.counted (.inl kept))
        · rcases List.mem_cons.mp member with rfl | member
          · exact .inl (Keeps.retryCommit within.counted (.inr held))
          · exact .inr ⟨other, member, held⟩
  obtain ⟨inside, keeps⟩ := retries
    (core.retryQueue.entries.filter fun entry => entry.nextRetry ≤ environment.now core.readings)
    (core.takeReady environment).2
    ⟨within.stored, fun entry member => within.queued entry (List.mem_filter.mp member).1,
      within.counted⟩
    fun entry member => within.queued entry (List.mem_filter.mp member).1
  refine ⟨⟨inside.stored, inside.queued, inside.counted⟩, fun receipt kept => keeps receipt ?_⟩
  rcases kept with stored | ⟨entry, waiting | dropped, held⟩
  · exact .inl (.inl stored)
  · by_cases ready : entry.nextRetry ≤ environment.now core.readings
    · exact .inr ⟨entry, List.mem_filter.mpr ⟨waiting, by simpa using ready⟩, held⟩
    · exact .inl (.inr ⟨entry, .inl (List.mem_filter.mpr ⟨waiting, by simpa using ready⟩), held⟩)
  · exact .inl (.inr ⟨entry, .inr dropped, held⟩)

end Core

namespace Works

variable {core core' : Core Digest Number} {known committed : List (LedgerEnergyReceipt Number)}

/-- The loops keep what is kept and what they commit, and bring in only known receipts. -/
theorem retains (works : Works hashing environment config committed core core')
    (within : core.Within known) (inKnown : ∀ receipt ∈ committed, receipt ∈ known) :
    core'.Within known ∧
      ∀ receipt, core.Keeps receipt ∨ receipt ∈ committed → core'.Keeps receipt := by
  induction works with
  | rest core => exact ⟨within, fun receipt kept => kept.resolve_right List.not_mem_nil⟩
  | commit works receipts nonempty tenantId ih =>
      obtain ⟨inside, keeps⟩ := ih within fun receipt member =>
        inKnown receipt (List.mem_append_left _ member)
      refine ⟨inside.commitBatch nonempty
        (fun receipt member => inKnown receipt (List.mem_append_right _ member)) tenantId, ?_⟩
      intro receipt kept
      rw [List.mem_append, ← or_assoc] at kept
      exact Core.Keeps.commitBatch (kept.imp_left (keeps receipt))
  | retry works ih =>
      obtain ⟨inside, keeps⟩ := ih within inKnown
      exact ⟨inside.processRetries.1,
        fun receipt kept => inside.processRetries.2 receipt (keeps receipt kept)⟩
  | see works seen ih =>
      obtain ⟨inside, keeps⟩ := ih within inKnown
      exact ⟨⟨inside.stored, inside.queued, inside.counted⟩, keeps⟩

end Works

namespace Committer

variable {committer : Committer Digest Number} {event : Event Number}

/-- Every receipt of a new query is stored or in a counted batch when the loop has ended, and the
counter shows how many batches were dropped, those that were left waiting included. -/
def Accounted (committer : Committer Digest Number) : Prop :=
  committer.phase = .finished →
    (∀ earlier receipt later, committer.received = earlier ++ receipt :: later →
      (∀ other ∈ earlier, other.identity ≠ receipt.identity) →
      (∃ stored batchId index, committer.core.store.receipts[receipt.receiptId]? =
        some (stored, batchId, index) ∧ stored.identity = receipt.identity) ∨
      ∃ entry ∈ committer.core.retryQueue.dropped, receipt ∈ entry.receipts) ∧
    committer.core.metrics.permanentlyDropped =
      committer.core.retryQueue.dropped.length + committer.core.retryQueue.entries.length

/-- Every waiting batch is due, and its next attempt succeeds or is its last one. -/
def Settles (environment : Environment Number) (core : Core Digest Number) : Prop :=
  ∀ position < core.retryQueue.entries.length,
    ∀ entry ∈ core.retryQueue.entries[position]?,
      entry.nextRetry ≤ environment.now core.readings ∧
      ((environment.commitBatch (core.calls + position) entry.batch).isSome ∨
        entry.attempts + 1 ≥ core.retryQueue.maxAttempts)

/-- A receipt of another query than those before does not hash the same bytes as one of them, and
the last retries settle what waits. -/
def Safe (environment : Environment Number) (committer : Committer Digest Number) :
    Event Number → Prop
  | .receive receipt => ∀ other ∈ committer.received, other.identity ≠ receipt.identity →
      idMessage other.qid other.tenantId other.timestampStart ≠
        idMessage receipt.qid receipt.tenantId receipt.timestampStart
  | .drain => committer.phase = .closing → Settles environment committer.core
  | _ => True

instance (environment : Environment Number) (core : Core Digest Number) :
    Decidable (Settles environment core) := by
  unfold Settles
  infer_instance

instance (environment : Environment Number) (committer : Committer Digest Number)
    (event : Event Number) : Decidable (Safe environment committer event) := by
  cases event <;> unfold Safe <;> infer_instance

omit [Zero Number] [Add Number] in
/-- The queue is empty after retries that settle it. -/
theorem entries_processRetries {core : Core Digest Number} (settles : Settles environment core) :
    (core.processRetries hashing environment).retryQueue.entries = [] := by
  have retries : ∀ (entries : List (RetryEntry Digest Number)) (core : Core Digest Number),
      (∀ position entry, entries[position]? = some entry →
        (environment.commitBatch (core.calls + position) entry.batch).isSome ∨
          entry.attempts + 1 ≥ core.retryQueue.maxAttempts) →
      core.retryQueue.entries = [] →
      (entries.foldl (Core.retryCommit hashing environment) core).retryQueue.entries = [] := by
    intro entries
    induction entries with
    | nil => exact fun core _ empty => empty
    | cons entry entries ih =>
        intro core all empty
        have first := all 0 entry rfl
        have rest : ∀ position other, entries[position]? = some other →
            (environment.commitBatch (core.calls + 1 + position) other.batch).isSome ∨
              other.attempts + 1 ≥ core.retryQueue.maxAttempts := by
          intro position other held
          have later := all (position + 1) other held
          rwa [Nat.add_right_comm, Nat.add_assoc]
        rw [List.foldl_cons]
        rw [Nat.add_zero] at first
        cases answer : environment.commitBatch core.calls entry.batch with
        | some commitment =>
            apply ih <;> simp only [Core.retryCommit, Core.storeCommitment, answer]
            · exact rest
            · exact empty
        | none =>
            have last := first.resolve_left (by simp [answer])
            apply ih <;> simp only [Core.retryCommit, Core.storeCommitment, answer,
              RetryQueue.reEnqueue, last, ↓reduceIte]
            · exact rest
            · exact empty
  have each : ∀ (position : Nat) (entry : RetryEntry Digest Number),
      core.retryQueue.entries[position]? = some entry →
      entry.nextRetry ≤ environment.now core.readings ∧
        ((environment.commitBatch (core.calls + position) entry.batch).isSome ∨
          entry.attempts + 1 ≥ core.retryQueue.maxAttempts) := fun position entry held =>
    settles position (List.getElem?_eq_some_iff.mp held).1 entry held
  have ready : core.retryQueue.entries.filter (fun entry => entry.nextRetry ≤
      environment.now core.readings) = core.retryQueue.entries := by
    refine List.filter_eq_self.mpr fun entry member => ?_
    obtain ⟨position, held⟩ := List.mem_iff_getElem?.mp member
    simpa using (each position entry held).1
  have waiting : core.retryQueue.entries.filter (fun entry => ¬entry.nextRetry ≤
      environment.now core.readings) = [] := by
    refine List.filter_eq_nil_iff.mpr fun entry member => ?_
    obtain ⟨position, held⟩ := List.mem_iff_getElem?.mp member
    simpa using (each position entry held).1
  refine retries _ _ (fun position entry held => ?_) waiting
  rw [ready] at held
  exact (each position entry held).2

theorem finished_step
    (finished : (step hashing environment config committer event).phase = .finished) :
    step hashing environment config committer event = committer ∨
      committer.phase = .closing ∧ event = .drain ∧
        (step hashing environment config committer event).core =
          committer.core.processRetries hashing environment := by
  revert finished
  unfold step
  dsimp only
  split
  next running =>
    split
    · exact fun finished => absurd (running.symm.trans finished) (by decide)
    · exact fun finished => absurd (running.symm.trans finished) (by decide)
  next running => exact fun finished => absurd (running.symm.trans finished) (by decide)
  next running => exact fun finished => absurd finished (by simp)
  next closing => exact fun _ => .inr ⟨closing, rfl, rfl⟩
  · exact fun _ => .inl rfl

/-- Nothing is taken in after the channel is closed. -/
theorem closed_step (stopped : committer.phase ≠ .running) :
    (step hashing environment config committer event).pending = committer.pending := by
  unfold step
  dsimp only
  split
  next running => exact absurd running stopped
  next running => exact absurd running stopped
  next running => exact absurd running stopped
  · rfl
  · rfl

/-- What a run keeps.  A receipt of a new query is pending or kept, the seen ids belong to received
receipts, and receipts of different queries have different ids. -/
structure Retained (hashing : Hashing Digest Number) (committer : Committer Digest Number) :
    Prop where
  within : committer.core.Within committer.received
  pending : ∀ receipt, committer.pending.Holds receipt → receipt ∈ committer.received
  seen : ∀ id ∈ committer.core.seen, ∃ receipt ∈ committer.received, receipt.receiptId = id
  named : ∀ receipt ∈ committer.received, receipt.receiptId =
    hashing.computeId receipt.qid receipt.tenantId receipt.timestampStart
  identified : ∀ receipt ∈ committer.received, ∀ other ∈ committer.received,
    receipt.receiptId = other.receiptId → receipt.identity = other.identity
  kept : ∀ earlier receipt later, committer.received = earlier ++ receipt :: later →
    (∀ other ∈ earlier, other.identity ≠ receipt.identity) →
    committer.pending.Holds receipt ∨ committer.core.Keeps receipt
  closed : committer.phase ≠ .running → ∀ receipt, ¬committer.pending.Holds receipt
  finished : committer.phase = .finished → committer.core.retryQueue.entries = [] ∧
    committer.core.metrics.permanentlyDropped = committer.core.retryQueue.droppedCount

omit [Zero Number] [Add Number] [Div Number] [NatCast Number] in
theorem Retained.accounted (retained : committer.Retained hashing) : committer.Accounted := by
  intro finished
  obtain ⟨empty, reported⟩ := retained.finished finished
  constructor
  · intro earlier receipt later split fresh
    have noPending := retained.closed (by rw [finished]; decide) receipt
    rcases (retained.kept earlier receipt later split fresh).resolve_left noPending with
      stored | ⟨entry, waiting | dropped, held⟩
    · left
      obtain ⟨⟨other, batchId, index⟩, isEntry⟩ :=
        Option.isSome_iff_exists.mp (Std.ExtTreeMap.isSome_getElem?_iff_mem.mpr stored)
      obtain ⟨isReceived, sameId⟩ := retained.within.stored _ other batchId index isEntry
      refine ⟨other, batchId, index, isEntry, ?_⟩
      exact retained.identified other isReceived receipt (by simp [split]) sameId
    · rw [empty] at waiting
      cases waiting
    · exact .inr ⟨entry, dropped, held⟩
  · rw [reported, retained.within.counted, empty]
    rfl

omit [Zero Number] [Add Number] [Div Number] [NatCast Number] in
theorem retained_new : (new config : Committer Digest Number).Retained hashing := by
  have noPending : ∀ receipt, ¬(new config : Committer Digest Number).pending.Holds receipt := by
    intro receipt held
    exact (@sound_new _ _ hashing ∅ config).pending receipt held
  exact
    { within :=
        ⟨fun receiptId receipt batchId index held => by simp [new, ReceiptStore.new] at held,
          fun entry member => by simp [new, RetryQueue.new] at member, rfl⟩
      pending := fun receipt held => absurd held (noPending receipt)
      seen := fun id member => by simp [new] at member
      named := fun receipt member => absurd member List.not_mem_nil
      identified := fun receipt member => absurd member List.not_mem_nil
      kept := fun earlier receipt later split => by simp [new] at split
      closed := fun _ => noPending
      finished := fun finished => by simp [new] at finished }

omit [Zero Number] [Add Number] [Div Number] [NatCast Number] in
/-- Receipts whose ids are computed from different bytes have different ids. -/
theorem idMessage_eq (injective : Function.Injective hashing.sha256)
    {receipt other : LedgerEnergyReceipt Number}
    (named : receipt.receiptId =
      hashing.computeId receipt.qid receipt.tenantId receipt.timestampStart)
    (otherNamed : other.receiptId =
      hashing.computeId other.qid other.tenantId other.timestampStart)
    (same : receipt.receiptId = other.receiptId) :
    idMessage receipt.qid receipt.tenantId receipt.timestampStart =
      idMessage other.qid other.tenantId other.timestampStart := by
  rw [named, otherNamed] at same
  exact injective (hashing.toHex_injective same)

theorem Retained.step (injective : Function.Injective hashing.sha256)
    (retained : committer.Retained hashing) (safe : committer.Safe environment event)
    (named : ∀ receipt, event = .receive receipt → receipt.receiptId =
      hashing.computeId receipt.qid receipt.tenantId receipt.timestampStart) :
    (step hashing environment config committer event).Retained hashing := by
  obtain ⟨committed, turn⟩ := step_turn hashing environment config committer event
  have ends := @finished_step _ _ _ _ _ _ hashing environment config committer event
  have stillClosed := @closed_step _ _ _ _ _ _ hashing environment config committer event
  generalize Committer.step hashing environment config committer event = next at *
  have grows : ∀ receipt ∈ committer.received, receipt ∈ next.received := by
    intro receipt member
    rcases turn.received with same | ⟨_, -, more, -⟩
    · rwa [same]
    · rw [more]
      exact List.mem_append_left _ member
  have known : ∀ receipt, receipt ∈ committed ∨ next.pending.Holds receipt →
      receipt ∈ next.received := fun receipt either =>
    (turn.origin receipt either).elim (fun held => grows _ (retained.pending _ held)) id
  obtain ⟨within, keeps⟩ := turn.works.retains (retained.within.mono grows)
    fun receipt member => known receipt (.inl member)
  have still : ∀ receipt, committer.pending.Holds receipt ∨ committer.core.Keeps receipt →
      next.pending.Holds receipt ∨ next.core.Keeps receipt := by
    rintro receipt (held | kept)
    · rcases turn.kept receipt held with member | held
      · exact .inr (keeps receipt (.inr member))
      · exact .inl held
    · exact .inr (keeps receipt (.inl kept))
  refine
    { within := within
      pending := fun receipt held => known receipt (.inr held)
      seen := fun receiptId member => (turn.seen receiptId member).elim (fun old => ?_) id
      named := ?_
      identified := ?_
      kept := ?_
      closed := ?_
      finished := ?_ }
  · obtain ⟨receipt, member, isId⟩ := retained.seen receiptId old
    exact ⟨receipt, grows receipt member, isId⟩
  · rcases turn.received with same | ⟨receipt, isEvent, more, -⟩
    · rw [same]
      exact retained.named
    · rw [more]
      intro other member
      rcases List.mem_append.mp member with old | new
      · exact retained.named other old
      · rw [List.mem_singleton.mp new]
        exact named receipt isEvent
  · rcases turn.received with same | ⟨receipt, rfl, more, -⟩
    · rw [same]
      exact retained.identified
    · have apart : ∀ other ∈ committer.received, other.receiptId = receipt.receiptId →
          other.identity = receipt.identity := by
        intro other member sameId
        by_contra distinct
        exact safe other member distinct
          (idMessage_eq injective (retained.named other member) (named receipt rfl) sameId)
      rw [more]
      intro first firstMember second secondMember sameId
      rcases List.mem_append.mp firstMember with firstOld | firstNew <;>
        rcases List.mem_append.mp secondMember with secondOld | secondNew
      · exact retained.identified first firstOld second secondOld sameId
      · rw [List.mem_singleton.mp secondNew] at sameId ⊢
        exact apart first firstOld sameId
      · rw [List.mem_singleton.mp firstNew] at sameId ⊢
        exact (apart second secondOld sameId.symm).symm
      · rw [List.mem_singleton.mp firstNew, List.mem_singleton.mp secondNew]
  · intro earlier receipt later split fresh
    rcases turn.received with same | ⟨last, rfl, more, taken⟩
    · rw [same] at split
      exact still receipt (retained.kept earlier receipt later split fresh)
    · rw [more] at split
      rcases List.eq_nil_or_concat later with rfl | ⟨before, final, rfl⟩
      · -- The receipt is the one that arrived, so its id has not been seen.
        obtain ⟨rfl, isLast⟩ := List.append_inj' split rfl
        obtain rfl : last = receipt := by simpa using isLast
        rcases taken with known | member | held
        · obtain ⟨other, member, sameId⟩ := retained.seen _ known
          have distinct := fresh other member
          exact absurd (idMessage_eq injective (retained.named other member) (named last rfl)
            sameId) (safe other member distinct)
        · exact .inr (keeps last (.inr member))
        · exact .inl held
      · rw [List.concat_eq_append, ← List.cons_append, ← List.append_assoc] at split
        exact still receipt
          (retained.kept earlier receipt before (List.append_inj' split rfl).1 fresh)
  · intro stopped
    by_cases running : committer.phase = .running
    · exact turn.closed stopped running
    · intro receipt held
      rw [stillClosed running] at held
      exact retained.closed running receipt held
  · intro finished
    rcases ends finished with same | ⟨closing, rfl, isCore⟩
    · rw [same] at finished ⊢
      exact retained.finished finished
    · rw [isCore]
      exact ⟨entries_processRetries (safe closing), rfl⟩

/-- **No receipt is lost silently** in a run in which different queries have different bytes to
hash and the last retries settle what waits. -/
theorem accounted_of_safe (injective : Function.Injective hashing.sha256)
    {events : List (Event Number)}
    (named : ∀ receipt, Event.receive receipt ∈ events → receipt.receiptId =
      hashing.computeId receipt.qid receipt.tenantId receipt.timestampStart)
    (safe : AllMeet (step hashing environment config) (Safe environment) (new config) events) :
    (run hashing environment config events).Accounted := by
  have start : (new config : Committer Digest Number).Retained hashing := retained_new
  unfold run
  generalize new config = committer at start safe
  induction events generalizing committer with
  | nil => exact start.accounted
  | cons event events ih =>
      refine ih (fun receipt member => named receipt (List.mem_cons_of_mem _ member)) _ ?_ safe.2
      exact start.step injective safe.1
        fun receipt isEvent => named receipt (isEvent ▸ List.mem_cons_self)

end Committer

end Runs

section Examples

/-- The receipt of a query, with its computed id. -/
def issued (qid tenantId : String) (timestampStart : Time) : LedgerEnergyReceipt Nat :=
  receiptOf (taggedHashing.computeId qid tenantId timestampStart) qid tenantId timestampStart

/-- A batch that fails and is recorded by a retry, then a receipt that is flushed at the end. -/
def settledEvents : List (Event Nat) :=
  [.receive (issued "q1" "t" 1), .receive (issued "q2" "t" 2), .timer,
    .receive (issued "q3" "t" 3), .close, .drain]

/-- The same bytes are hashed for two queries. -/
def collidingEvents : List (Event Nat) :=
  [.receive (issued "ab" "c" 5), .receive (issued "a" "bc" 5), .timer, .close, .drain]

/-- A backend that never records a batch, and a clock that runs in seconds. -/
def failsAlways : Environment Nat :=
  { failsOnce with commitBatch := fun _ _ => none }

/-- The only batch still waits when the loop ends. -/
def waitingEvents : List (Event Nat) :=
  [.receive (issued "q1" "t" 1), .close, .drain]

namespace Committer

theorem accounted_of_safe_settledEvents :
    (run taggedHashing failsOnce (batchesOfTwo true) settledEvents).phase = .finished ∧
      (run taggedHashing failsOnce (batchesOfTwo true) settledEvents).Accounted := by
  refine ⟨by decide +kernel, accounted_of_safe (fun _ _ same => (List.cons.inj same).2) ?_ ?_⟩
  · intro receipt member
    simp only [settledEvents, List.mem_cons, Event.receive.injEq, reduceCtorEq, false_or,
      List.not_mem_nil, or_false] at member
    rcases member with rfl | rfl | rfl <;> rfl
  · decide +kernel

/-- Two ways to lose a receipt: its id was seen for another query, or its batch waits for a retry
when the loop ends. -/
theorem not_accounted_collidingEvents :
    (∀ events ∈ [collidingEvents, waitingEvents], ∀ receipt, Event.receive receipt ∈ events →
      receipt.receiptId =
        taggedHashing.computeId receipt.qid receipt.tenantId receipt.timestampStart) ∧
    Function.Injective taggedHashing.sha256 ∧
    ¬(run taggedHashing failsOnce (batchesOfTwo false) collidingEvents).Accounted ∧
    ¬(run taggedHashing failsAlways (batchesOfTwo false) waitingEvents).Accounted := by
  refine ⟨?_, fun _ _ same => (List.cons.inj same).2, ?_, ?_⟩
  · intro events member receipt received
    simp only [List.mem_cons, List.not_mem_nil, or_false] at member
    rcases member with rfl | rfl
    · simp only [collidingEvents, List.mem_cons, Event.receive.injEq, reduceCtorEq, or_false,
        List.not_mem_nil] at received
      rcases received with rfl | rfl <;> rfl
    · simp only [waitingEvents, List.mem_cons, Event.receive.injEq, reduceCtorEq, or_false,
        List.not_mem_nil] at received
      rw [received]
      rfl
  · intro accounted
    have received : (run taggedHashing failsOnce (batchesOfTwo false) collidingEvents).received =
        [issued "ab" "c" 5] ++ [issued "a" "bc" 5] := by
      simp [run, collidingEvents, received_step, phase_step, new]
    have stored : ((run taggedHashing failsOnce (batchesOfTwo false)
        collidingEvents).core.store.receipts[(issued "a" "bc" 5).receiptId]?).map
          (fun entry => entry.1.identity) = some ("ab", "c", 5) := by decide +kernel
    have noneDropped : (run taggedHashing failsOnce (batchesOfTwo false)
        collidingEvents).core.retryQueue.dropped.length = 0 := by decide +kernel
    rcases (accounted (by decide +kernel)).1 _ _ [] received (by decide +kernel) with
      ⟨other, batchId, index, held, same⟩ | ⟨entry, member, -⟩
    · rw [held, Option.map_some, same] at stored
      exact absurd stored (by decide +kernel)
    · rw [List.eq_nil_of_length_eq_zero noneDropped] at member
      cases member
  · intro accounted
    have counted := (accounted (by decide +kernel)).2
    exact absurd counted (by decide +kernel)

end Committer

end Examples

end JouleDB.Ledger
