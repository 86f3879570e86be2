import JouleDB.Ledger.Merkle
import Mathlib.Data.Finset.Card

/-!
# The batch committer

Receipts arrive over a channel, wait in a pending list (one for all tenants, or one per tenant), and
are committed in batches: by count, when the timer fires, and when the channel is closed.  A batch
that the backend refuses waits in a retry queue, which is worked off before the loop waits for its
next event and once more after the channel is closed.

The backend, the clock and the order in which a hash map is iterated are an environment, which
answers by the number of the question.
-/

namespace JouleDB.Ledger

variable {Digest Number : Type}

/-- A batch of receipts. -/
structure ReceiptBatch (Number : Type) where
  batchId : String
  merkleRoot : String
  receiptCount : Nat
  timeStart : Time
  timeEnd : Time
  aggregateKwh : Number
  aggregateKgCo2e : Number
  issuer : String
  receiptIds : List String
  tenantId : Option String

/-- What the backend answers when it has recorded a batch. -/
structure BatchCommitment (Number : Type) where
  batchId : String
  txRef : String
  backendName : String
  committedAt : Time
  blockNumber : Option Nat
  chainOverheadJoules : Option Number
  amortizedOverheadJoules : Option Number

/-- The part of the configuration that the committer reads, its intervals apart. -/
structure LedgerConfig where
  batchMaxReceipts : Nat
  issuer : String
  enableTenantIsolation : Bool
  retryMaxAttempts : Nat
  retryMaxQueue : Nat

/-- Receipts, trees and commitments, as the verification endpoint looks them up. -/
structure ReceiptStore (Digest Number : Type) where
  /-- Receipt id to receipt, batch id and leaf index. -/
  receipts : FiniteMap String (LedgerEnergyReceipt Number × String × Nat)
  trees : FiniteMap String (MerkleTree Digest)
  commitments : FiniteMap String (BatchCommitment Number)
  batches : FiniteMap String (ReceiptBatch Number)

/-- Operational metrics. -/
structure CommitterMetrics where
  commitsFailed : Nat
  commitsRetried : Nat
  retryQueueDepth : Nat
  permanentlyDropped : Nat

/-- A failed batch that waits to be retried. -/
structure RetryEntry (Digest Number : Type) where
  batch : ReceiptBatch Number
  receipts : List (LedgerEnergyReceipt Number)
  tree : MerkleTree Digest
  attempts : Nat
  nextRetry : Nat

/-- The retry queue. -/
structure RetryQueue (Digest Number : Type) where
  entries : List (RetryEntry Digest Number)
  maxEntries : Nat
  maxAttempts : Nat
  droppedCount : Nat
  /-- The entries that were dropped.  The code does not keep them: statements speak of them. -/
  dropped : List (RetryEntry Digest Number)

namespace RetryQueue

/-- An empty queue. -/
def new (maxEntries maxAttempts : Nat) : RetryQueue Digest Number :=
  { entries := [], maxEntries, maxAttempts, droppedCount := 0, dropped := [] }

/-- Queue a failed batch.  A full queue drops its oldest entry. -/
def enqueue (queue : RetryQueue Digest Number) (now : Nat) (batch : ReceiptBatch Number)
    (receipts : List (LedgerEnergyReceipt Number)) (tree : MerkleTree Digest) :
    RetryQueue Digest Number :=
  let entry : RetryEntry Digest Number :=
    { batch, receipts, tree, attempts := 0, nextRetry := now }
  match queue.entries with
  | oldest :: rest =>
      if queue.entries.length ≥ queue.maxEntries then
        { queue with
          entries := rest ++ [entry]
          droppedCount := queue.droppedCount + 1
          dropped := queue.dropped ++ [oldest] }
      else { queue with entries := queue.entries ++ [entry] }
  | [] => { queue with entries := [entry] }

/-- Take out the entries whose time has come. -/
def drainReady (queue : RetryQueue Digest Number) (now : Nat) :
    List (RetryEntry Digest Number) × RetryQueue Digest Number :=
  (queue.entries.filter fun entry => entry.nextRetry ≤ now,
    { queue with entries := queue.entries.filter fun entry => ¬entry.nextRetry ≤ now })

/-- Seconds to wait before the next attempt.  A shift of 64 bits counts modulo 64. -/
def backoffSecs (attempts : Nat) : Nat := min (2 ^ (attempts % 64)) 60

/-- Queue an entry whose retry failed, unless it was its last attempt. -/
def reEnqueue (queue : RetryQueue Digest Number) (now : Nat) (entry : RetryEntry Digest Number) :
    RetryQueue Digest Number :=
  if entry.attempts + 1 ≥ queue.maxAttempts then
    { queue with droppedCount := queue.droppedCount + 1, dropped := queue.dropped ++ [entry] }
  else
    { queue with
      entries := queue.entries ++ [{ entry with
        attempts := entry.attempts + 1
        nextRetry := now + backoffSecs (entry.attempts + 1) * 10 ^ 9 }] }

end RetryQueue

/-- What the committer does not decide. -/
structure Environment (Number : Type) where
  /-- The answer of the backend to its calls: a commitment, or a failure. -/
  commitBatch : Nat → ReceiptBatch Number → Option (BatchCommitment Number)
  /-- The readings of the clock, in nanoseconds. -/
  now : Nat → Nat
  /-- The order in which the keys of the pending map are visited. -/
  order : Nat → List String → List String
  order_perm : ∀ turn keys, (order turn keys).Perm keys

/-- The state that both loops have. -/
structure Core (Digest Number : Type) where
  store : ReceiptStore Digest Number
  metrics : CommitterMetrics
  retryQueue : RetryQueue Digest Number
  seen : Finset String
  /-- The number of calls of the backend so far. -/
  calls : Nat
  /-- The number of readings of the clock so far. -/
  readings : Nat

/-- The largest size of the set of seen ids that is kept after a commit. -/
def maxSeenSetSize : Nat := 100000

namespace ReceiptStore

/-- An empty store. -/
def new : ReceiptStore Digest Number :=
  { receipts := ∅, trees := ∅, commitments := ∅, batches := ∅ }

/-- Enter the receipts of a batch from a leaf index on. -/
def insertReceipts (rootHex : String) : Nat → List (LedgerEnergyReceipt Number) →
    FiniteMap String (LedgerEnergyReceipt Number × String × Nat) →
    FiniteMap String (LedgerEnergyReceipt Number × String × Nat)
  | _, [], map => map
  | i, receipt :: receipts, map =>
      insertReceipts rootHex (i + 1) receipts (map.insert receipt.receiptId (receipt, rootHex, i))

/-- Enter a batch that was committed. -/
def insertBatch (store : ReceiptStore Digest Number) (batch : ReceiptBatch Number)
    (receipts : List (LedgerEnergyReceipt Number)) (rootHex : String) (tree : MerkleTree Digest)
    (commitment : BatchCommitment Number) : ReceiptStore Digest Number :=
  { receipts := insertReceipts rootHex 0 receipts store.receipts
    trees := store.trees.insert rootHex tree
    commitments := store.commitments.insert rootHex commitment
    batches := store.batches.insert rootHex batch }

end ReceiptStore

namespace Core

variable [Zero Number] [Add Number] [Div Number] [NatCast Number]
variable (hashing : Hashing Digest Number) (environment : Environment Number)

/-- Share the overhead of a commitment among the receipts of its batch. -/
def amortize (commitment : BatchCommitment Number) (receiptCount : Nat) : BatchCommitment Number :=
  match commitment.chainOverheadJoules with
  | some overhead =>
      if receiptCount > 0 then
        { commitment with amortizedOverheadJoules := some (overhead / (receiptCount : Number)) }
      else commitment
  | none => commitment

/-- Commit a batch to the backend, and store it when the backend has recorded it. -/
def storeCommitment (core : Core Digest Number) (batch : ReceiptBatch Number)
    (receipts : List (LedgerEnergyReceipt Number)) (rootHex : String) (tree : MerkleTree Digest) :
    Core Digest Number × Bool :=
  match environment.commitBatch core.calls batch with
  | some commitment =>
      ({ core with
        calls := core.calls + 1
        store := core.store.insertBatch batch receipts rootHex tree
          (amortize commitment batch.receiptCount) }, true)
  | none => ({ core with calls := core.calls + 1 }, false)

/-- The batch of a nonempty list of receipts. -/
def batchOf (config : LedgerConfig) (receipts : List (LedgerEnergyReceipt Number))
    (nonempty : receipts ≠ []) (tenantId : Option String) : ReceiptBatch Number :=
  let rootHex := (MerkleTree.ofReceipts hashing receipts).rootHex hashing
  { batchId := rootHex
    merkleRoot := rootHex
    receiptCount := receipts.length
    timeStart := (receipts.map (·.timestampStart)).min (by simpa using nonempty)
    timeEnd := (receipts.map (·.timestampEnd)).max (by simpa using nonempty)
    aggregateKwh := (receipts.map (·.kwh)).sum
    aggregateKgCo2e := (receipts.map (·.kgCo2e)).sum
    issuer := config.issuer
    receiptIds := receipts.map (·.receiptId)
    tenantId }

/-- Commit the pending receipts, and queue them for a retry when the backend fails. -/
def commitBatch (config : LedgerConfig) (core : Core Digest Number)
    (receipts : List (LedgerEnergyReceipt Number)) (nonempty : receipts ≠ [])
    (tenantId : Option String) : Core Digest Number :=
  let tree := MerkleTree.ofReceipts hashing receipts
  let batch := batchOf hashing config receipts nonempty tenantId
  match core.storeCommitment environment batch receipts (tree.rootHex hashing) tree with
  | (core, true) => core
  | (core, false) =>
      { core with
        metrics := { core.metrics with commitsFailed := core.metrics.commitsFailed + 1 }
        retryQueue := core.retryQueue.enqueue (environment.now core.readings) batch receipts tree
        readings := core.readings + 1 }

/-- Commit a queued batch once more, with a tree that is built again. -/
def retryCommit (core : Core Digest Number) (entry : RetryEntry Digest Number) :
    Core Digest Number :=
  let core := { core with
    metrics := { core.metrics with commitsRetried := core.metrics.commitsRetried + 1 } }
  let tree := MerkleTree.ofReceipts hashing entry.receipts
  match core.storeCommitment environment entry.batch entry.receipts entry.batch.merkleRoot tree with
  | (core, true) => core
  | (core, false) =>
      { core with
        metrics := { core.metrics with commitsFailed := core.metrics.commitsFailed + 1 }
        retryQueue := core.retryQueue.reEnqueue (environment.now core.readings) entry
        readings := core.readings + 1 }

/-- Show the state of the queue in the metrics. -/
def reportQueue (core : Core Digest Number) : Core Digest Number :=
  { core with
    metrics := { core.metrics with
      retryQueueDepth := core.retryQueue.entries.length
      permanentlyDropped := core.retryQueue.droppedCount } }

/-- Take the ready entries out of the queue. -/
def takeReady (core : Core Digest Number) : List (RetryEntry Digest Number) × Core Digest Number :=
  let (ready, retryQueue) := core.retryQueue.drainReady (environment.now core.readings)
  (ready, { core with retryQueue, readings := core.readings + 1 })

/-- Retry the entries whose time has come. -/
def processRetries (core : Core Digest Number) : Core Digest Number :=
  let (ready, core) := core.takeReady environment
  reportQueue (ready.foldl (retryCommit hashing environment) core)

/-- Forget the seen ids when there are too many. -/
def clearSeen (core : Core Digest Number) : Core Digest Number :=
  if core.seen.card > maxSeenSetSize then { core with seen := ∅ } else core

end Core

/-- The receipts that wait for their batch: in one list, or in one list per tenant. -/
inductive Pending (Number : Type) where
  | singleStream (receipts : List (LedgerEnergyReceipt Number))
  | tenantIsolated (tenants : FiniteMap String (List (LedgerEnergyReceipt Number)))

/-- Where the loop is. -/
inductive Phase where
  | running
  /-- The channel is closed and the pending receipts are flushed; the last retries are to come. -/
  | closing
  | finished
  deriving DecidableEq

/-- What the loop waits for. -/
inductive Event (Number : Type) where
  | receive (receipt : LedgerEnergyReceipt Number)
  | timer
  | close
  /-- The last retries, after the channel is closed. -/
  | drain

/-- The state of a committer. -/
structure Committer (Digest Number : Type) where
  core : Core Digest Number
  pending : Pending Number
  phase : Phase
  /-- The receipts that came over the channel, the latest last. -/
  received : List (LedgerEnergyReceipt Number)

namespace Committer

variable [Zero Number] [Add Number] [Div Number] [NatCast Number]
variable (hashing : Hashing Digest Number) (environment : Environment Number)
  (config : LedgerConfig)

/-- A committer that starts. -/
def new : Committer Digest Number :=
  { core :=
      { store := ReceiptStore.new
        metrics :=
          { commitsFailed := 0, commitsRetried := 0, retryQueueDepth := 0, permanentlyDropped := 0 }
        retryQueue := RetryQueue.new config.retryMaxQueue config.retryMaxAttempts
        seen := ∅
        calls := 0
        readings := 0 }
    pending := if config.enableTenantIsolation then .tenantIsolated ∅ else .singleStream []
    phase := .running
    received := [] }

/-- Commit the receipts of some tenants. -/
def flushTenants : List String → Core Digest Number →
    FiniteMap String (List (LedgerEnergyReceipt Number)) →
    Core Digest Number × FiniteMap String (List (LedgerEnergyReceipt Number))
  | [], core, pending => (core, pending)
  | tenant :: tenants, core, pending =>
      match pending[tenant]? with
      | none => flushTenants tenants core pending
      | some receipts =>
          if nonempty : receipts ≠ [] then
            flushTenants tenants
              (core.commitBatch hashing environment config receipts nonempty (some tenant))
              (pending.erase tenant)
          else flushTenants tenants core (pending.erase tenant)

/-- Take in a receipt whose id has not been seen. -/
def accept (core : Core Digest Number) (pending : Pending Number)
    (receipt : LedgerEnergyReceipt Number) : Core Digest Number × Pending Number :=
  let core := { core with seen := insert receipt.receiptId core.seen }
  match pending with
  | .singleStream receipts =>
      let receipts := receipts ++ [receipt]
      if receipts.length ≥ config.batchMaxReceipts then
        ((core.commitBatch hashing environment config receipts (by simp [receipts])
          none).clearSeen, .singleStream [])
      else (core, .singleStream receipts)
  | .tenantIsolated tenants =>
      let tenant := receipt.tenantId
      let receipts := tenants[tenant]?.getD [] ++ [receipt]
      if receipts.length ≥ config.batchMaxReceipts then
        ((core.commitBatch hashing environment config receipts (by simp [receipts])
          (some tenant)).clearSeen, .tenantIsolated (tenants.erase tenant))
      else (core, .tenantIsolated (tenants.insert tenant receipts))

/-- Commit every pending receipt. -/
def flush (core : Core Digest Number) (pending : Pending Number) :
    Core Digest Number × Pending Number :=
  match pending with
  | .singleStream receipts =>
      if nonempty : receipts ≠ [] then
        (core.commitBatch hashing environment config receipts nonempty none, .singleStream [])
      else (core, .singleStream receipts)
  | .tenantIsolated tenants =>
      let (core, tenants) :=
        flushTenants hashing environment config (environment.order core.readings tenants.keys)
          core tenants
      (core, .tenantIsolated tenants)

/-- The timer fires: flush, and forget the seen ids when there are too many.  A single stream does
so only if a receipt is pending. -/
def fire (core : Core Digest Number) (pending : Pending Number) :
    Core Digest Number × Pending Number :=
  match pending with
  | .singleStream [] => (core, pending)
  | _ =>
      let (core, pending) := flush hashing environment config core pending
      (core.clearSeen, pending)

/-- One turn of the loop: the ready retries, then an event. -/
def step (committer : Committer Digest Number) (event : Event Number) : Committer Digest Number :=
  let core := committer.core.processRetries hashing environment
  match committer.phase, event with
  | .running, .receive receipt =>
      if receipt.receiptId ∈ core.seen then
        { committer with core, received := committer.received ++ [receipt] }
      else
        let (core, pending) := accept hashing environment config core committer.pending receipt
        { committer with core, pending, received := committer.received ++ [receipt] }
  | .running, .timer =>
      let (core, pending) := fire hashing environment config core committer.pending
      { committer with core, pending }
  | .running, .close =>
      let (core, pending) := flush hashing environment config core committer.pending
      { committer with core, pending, phase := .closing }
  | .closing, .drain => { committer with core, phase := .finished }
  | _, _ => committer

/-- The state after some events. -/
def run (events : List (Event Number)) : Committer Digest Number :=
  events.foldl (step hashing environment config) (new config)

end Committer

/-- A receipt is pending. -/
def Pending.Holds (pending : Pending Number) (receipt : LedgerEnergyReceipt Number) : Prop :=
  match pending with
  | .singleStream receipts => receipt ∈ receipts
  | .tenantIsolated tenants =>
      ∃ (tenant : String) (receipts : List (LedgerEnergyReceipt Number)),
        tenants[tenant]? = some receipts ∧ receipt ∈ receipts

namespace Pending

variable {tenants : FiniteMap String (List (LedgerEnergyReceipt Number))} {tenant : String}
  {receipts : List (LedgerEnergyReceipt Number)}

/-- The receipts under a tenant, and those of the other tenants. -/
theorem holds_erase (tenant : String) (receipt : LedgerEnergyReceipt Number) :
    (Pending.tenantIsolated tenants).Holds receipt ↔
      receipt ∈ tenants[tenant]?.getD [] ∨
        (Pending.tenantIsolated (tenants.erase tenant)).Holds receipt := by
  constructor
  · rintro ⟨other, others, held, member⟩
    by_cases same : tenant = other
    · rw [same, held]
      exact .inl member
    · refine .inr ⟨other, others, ?_, member⟩
      simpa [Std.ExtTreeMap.getElem?_erase, same] using held
  · rintro (member | ⟨other, others, held, member⟩)
    · cases here : tenants[tenant]? with
      | none => simp [here] at member
      | some receipts => exact ⟨tenant, receipts, here, by simpa [here] using member⟩
    · rw [Std.ExtTreeMap.getElem?_erase] at held
      split at held
      · cases held
      · exact ⟨other, others, held, member⟩

theorem holds_insert (receipt : LedgerEnergyReceipt Number) :
    (Pending.tenantIsolated (tenants.insert tenant receipts)).Holds receipt ↔
      receipt ∈ receipts ∨ (Pending.tenantIsolated (tenants.erase tenant)).Holds receipt := by
  have same : (tenants.insert tenant receipts).erase tenant = tenants.erase tenant := by
    apply Std.ExtTreeMap.ext_getElem?
    intro other
    simp only [Std.ExtTreeMap.getElem?_erase, Std.ExtTreeMap.getElem?_insert]
    split <;> rfl
  rw [holds_erase tenant, same]
  simp

end Pending

section Turns

variable [Zero Number] [Add Number] [Div Number] [NatCast Number]
variable (hashing : Hashing Digest Number) (environment : Environment Number)
  (config : LedgerConfig)

/-- What the loops do with the state they share, and which receipts they commit meanwhile. -/
inductive Works : List (LedgerEnergyReceipt Number) → Core Digest Number → Core Digest Number → Prop
  | rest (core : Core Digest Number) : Works [] core core
  | commit {committed core core'} (works : Works committed core core')
      (receipts : List (LedgerEnergyReceipt Number)) (nonempty : receipts ≠ [])
      (tenantId : Option String) :
      Works (committed ++ receipts) core
        (core'.commitBatch hashing environment config receipts nonempty tenantId)
  | retry {committed core core'} (works : Works committed core core') :
      Works committed core (core'.processRetries hashing environment)
  | see {committed core core'} (works : Works committed core core') (seen : Finset String) :
      Works committed core { core' with seen }

variable {hashing environment config}

namespace Works

variable {core core' core'' : Core Digest Number}
  {committed further : List (LedgerEnergyReceipt Number)}

theorem clearSeen (works : Works hashing environment config committed core core') :
    Works hashing environment config committed core core'.clearSeen := by
  unfold Core.clearSeen
  split
  · exact works.see ∅
  · exact works

/-- What is kept by the commits, by the retries and by a change of the seen ids is kept. -/
theorem keeps {Kept : Core Digest Number → Prop}
    (works : Works hashing environment config committed core core') (start : Kept core)
    (commits : ∀ core receipts nonempty tenantId,
      (∀ receipt ∈ receipts, receipt ∈ committed) → Kept core →
      Kept (core.commitBatch hashing environment config receipts nonempty tenantId))
    (retries : ∀ core, Kept core → Kept (core.processRetries hashing environment))
    (sees : ∀ core seen, Kept core → Kept { core with seen }) : Kept core' := by
  induction works with
  | rest core => exact start
  | commit works receipts nonempty tenantId ih =>
      have earlier := ih start fun core receipts nonempty tenantId inside =>
        commits core receipts nonempty tenantId fun receipt member =>
          List.mem_append_left _ (inside receipt member)
      exact commits _ receipts nonempty tenantId
        (fun receipt member => List.mem_append_right _ member) earlier
  | retry works ih => exact retries _ (ih start commits)
  | see works seen ih => exact sees _ _ (ih start commits)

end Works

namespace Committer

omit [Zero Number] [Add Number] [Div Number] [NatCast Number] in
theorem clearSeen_subset (core : Core Digest Number) : core.clearSeen.seen ⊆ core.seen := by
  unfold Core.clearSeen
  split
  · exact Finset.empty_subset _
  · exact subset_rfl

@[simp] theorem seen_commitBatch (core : Core Digest Number) (receipts nonempty tenantId) :
    (core.commitBatch hashing environment config receipts nonempty tenantId).seen = core.seen := by
  simp only [Core.commitBatch, Core.storeCommitment]
  split
  next equal => split at equal <;> cases equal; rfl
  next equal => split at equal <;> cases equal; rfl

/-- Flushing tenants commits what it takes out of the map. -/
theorem flushTenants_spec (tenants : List String) {core start : Core Digest Number}
    (pending : FiniteMap String (List (LedgerEnergyReceipt Number)))
    {before : List (LedgerEnergyReceipt Number)}
    (works : Works hashing environment config before start core) :
    let result := flushTenants hashing environment config tenants core pending
    (∃ committed, Works hashing environment config (before ++ committed) start result.1 ∧
      ∀ receipt, (Pending.tenantIsolated pending).Holds receipt ↔
        receipt ∈ committed ∨ (Pending.tenantIsolated result.2).Holds receipt) ∧
    result.1.seen = core.seen ∧
    ∀ tenant : String, tenant ∈ tenants ∨ pending[tenant]? = none → result.2[tenant]? = none := by
  induction tenants generalizing core pending before with
  | nil =>
      exact ⟨⟨[], by simpa [flushTenants] using works, by simp [flushTenants]⟩, rfl,
        by simp [flushTenants]⟩
  | cons tenant tenants ih =>
      cases held : pending[tenant]? with
      | none =>
          simp only [flushTenants, held]
          obtain ⟨committed, seen, absent⟩ := ih pending works
          refine ⟨committed, seen, ?_⟩
          rintro other (member | isNone)
          · rcases List.mem_cons.mp member with rfl | member
            · exact absent other (.inr held)
            · exact absent other (.inl member)
          · exact absent other (.inr isNone)
      | some receipts =>
          -- The tenant is out of the map, whether it had receipts or not.
          have gone : ∀ other : String, other ∈ tenant :: tenants ∨ pending[other]? = none →
              other ∈ tenants ∨ (pending.erase tenant)[other]? = none := by
            rintro other (member | isNone)
            · rcases List.mem_cons.mp member with rfl | member
              · exact .inr (by simp)
              · exact .inl member
            · refine .inr ?_
              rw [Std.ExtTreeMap.getElem?_erase]
              split
              · rfl
              · exact isNone
          by_cases nonempty : receipts ≠ []
          · simp only [flushTenants, held, nonempty, ↓reduceDIte, ne_eq, not_false_eq_true]
            obtain ⟨⟨committed, further, holds⟩, seen, absent⟩ :=
              ih (pending.erase tenant) (works.commit receipts nonempty (some tenant))
            refine ⟨⟨receipts ++ committed, ?_, ?_⟩, ?_,
              fun other left => absent other (gone other left)⟩
            · simpa using further
            · intro receipt
              rw [Pending.holds_erase tenant, held, holds receipt, List.mem_append, or_assoc]
              rfl
            · rw [seen, seen_commitBatch]
          · simp only [flushTenants, held, nonempty, ↓reduceDIte]
            obtain ⟨⟨committed, further, holds⟩, seen, absent⟩ := ih (pending.erase tenant) works
            refine ⟨⟨committed, further, ?_⟩, seen,
              fun other left => absent other (gone other left)⟩
            intro receipt
            rw [Pending.holds_erase tenant, held, holds receipt]
            simp [not_not.mp nonempty]

section Specs

variable {core start : Core Digest Number} {before : List (LedgerEnergyReceipt Number)}

theorem flush_spec (pending : Pending Number)
    (works : Works hashing environment config before start core) :
    let result := flush hashing environment config core pending
    (∃ committed, Works hashing environment config (before ++ committed) start result.1 ∧
      ∀ receipt, pending.Holds receipt ↔ receipt ∈ committed) ∧
    result.1.seen = core.seen ∧ ∀ receipt, ¬result.2.Holds receipt := by
  cases pending with
  | singleStream receipts =>
      by_cases nonempty : receipts ≠ []
      · simp only [flush, nonempty, ↓reduceDIte, ne_eq, not_false_eq_true]
        exact ⟨⟨receipts, works.commit receipts nonempty none, fun receipt => Iff.rfl⟩,
          seen_commitBatch .., fun receipt => List.not_mem_nil⟩
      · rw [not_not.mp nonempty]
        exact ⟨⟨[], by simpa [flush] using works, fun receipt => Iff.rfl⟩, rfl,
          fun receipt => List.not_mem_nil⟩
  | tenantIsolated tenants =>
      have order := environment.order_perm core.readings tenants.keys
      obtain ⟨⟨committed, further, holds⟩, seen, absent⟩ :=
        flushTenants_spec (environment.order core.readings tenants.keys) tenants works
      have empty : ∀ receipt, ¬(flush hashing environment config core
          (.tenantIsolated tenants)).2.Holds receipt := by
        rintro receipt ⟨tenant, receipts, held, member⟩
        have gone := absent tenant (by
          by_cases known : tenant ∈ tenants
          · exact .inl (order.mem_iff.mpr (Std.ExtTreeMap.mem_keys.mpr known))
          · exact .inr (Std.ExtTreeMap.getElem?_eq_none known))
        rw [show _ = none from gone] at held
        cases held
      refine ⟨⟨committed, further, fun receipt => ?_⟩, seen, empty⟩
      rw [holds receipt]
      exact ⟨fun either => either.resolve_right (empty receipt), .inl⟩

theorem fire_spec (pending : Pending Number)
    (works : Works hashing environment config before start core) :
    let result := fire hashing environment config core pending
    (∃ committed, Works hashing environment config (before ++ committed) start result.1 ∧
      ∀ receipt, pending.Holds receipt ↔ receipt ∈ committed) ∧
    result.1.seen ⊆ core.seen ∧ ∀ receipt, ¬result.2.Holds receipt := by
  unfold fire
  split
  · exact ⟨⟨[], by simpa using works, fun receipt => Iff.rfl⟩, subset_rfl,
      fun receipt => List.not_mem_nil⟩
  · obtain ⟨⟨committed, further, holds⟩, seen, empty⟩ := flush_spec pending works
    exact ⟨⟨committed, further.clearSeen, holds⟩, (clearSeen_subset _).trans seen.subset, empty⟩

/-- A receipt that is taken in is committed or pending. -/
theorem accept_spec (pending : Pending Number) (receipt : LedgerEnergyReceipt Number)
    (works : Works hashing environment config before start core) :
    let result := accept hashing environment config core pending receipt
    (∃ committed, Works hashing environment config (before ++ committed) start result.1 ∧
      ∀ other, pending.Holds other ∨ other = receipt ↔
        other ∈ committed ∨ result.2.Holds other) ∧
    result.1.seen ⊆ insert receipt.receiptId core.seen := by
  have sees := works.see (insert receipt.receiptId core.seen)
  cases pending with
  | singleStream receipts =>
      simp only [accept]
      split
      · refine ⟨⟨receipts ++ [receipt], (sees.commit _ _ _).clearSeen, fun other => ?_⟩, ?_⟩
        · simp [Pending.Holds]
        · exact (clearSeen_subset _).trans (seen_commitBatch ..).subset
      · exact ⟨⟨[], by simpa using sees, fun other => by simp [Pending.Holds]⟩, subset_rfl⟩
  | tenantIsolated tenants =>
      simp only [accept]
      split
      · refine ⟨⟨_, (sees.commit _ _ _).clearSeen, fun other => ?_⟩, ?_⟩
        · rw [Pending.holds_erase receipt.tenantId, List.mem_append, List.mem_singleton]
          exact or_right_comm
        · exact (clearSeen_subset _).trans (seen_commitBatch ..).subset
      · refine ⟨⟨[], by simpa using sees, fun other => ?_⟩, subset_rfl⟩
        rw [Pending.holds_erase receipt.tenantId, Pending.holds_insert, List.mem_append,
          List.mem_singleton]
        simp [or_right_comm]

omit [Zero Number] [Add Number] in
@[simp] theorem seen_processRetries (core : Core Digest Number) :
    (core.processRetries hashing environment).seen = core.seen := by
  have retry : ∀ (core : Core Digest Number) entry,
      (core.retryCommit hashing environment entry).seen = core.seen := by
    intro core entry
    simp only [Core.retryCommit, Core.storeCommitment]
    split
    next equal => split at equal <;> cases equal; rfl
    next equal => split at equal <;> cases equal; rfl
  have retries : ∀ (entries : List (RetryEntry Digest Number)) (core : Core Digest Number),
      (entries.foldl (Core.retryCommit hashing environment) core).seen = core.seen := by
    intro entries
    induction entries with
    | nil => exact fun core => rfl
    | cons entry entries ih => exact fun core => (ih _).trans (retry core entry)
  exact retries _ _

end Specs

theorem received_step (committer : Committer Digest Number) (event : Event Number) :
    (step hashing environment config committer event).received =
      match committer.phase, event with
      | .running, .receive receipt => committer.received ++ [receipt]
      | _, _ => committer.received := by
  unfold step
  dsimp only
  cases running : committer.phase <;> cases event <;> dsimp only
  split <;> rfl

theorem phase_step (committer : Committer Digest Number) (event : Event Number) :
    (step hashing environment config committer event).phase =
      match committer.phase, event with
      | .running, .close => .closing
      | .closing, .drain => .finished
      | phase, _ => phase := by
  unfold step
  dsimp only
  cases running : committer.phase <;> cases event <;> dsimp only <;> try exact running
  split <;> rfl

/-- What one turn of the loop does: which receipts it commits, and what happens to the others. -/
structure Turn (hashing : Hashing Digest Number) (environment : Environment Number)
    (config : LedgerConfig) (committer : Committer Digest Number) (event : Event Number)
    (committed : List (LedgerEnergyReceipt Number)) (next : Committer Digest Number) : Prop where
  works : Works hashing environment config committed committer.core next.core
  kept : ∀ receipt, committer.pending.Holds receipt →
    receipt ∈ committed ∨ next.pending.Holds receipt
  origin : ∀ receipt, receipt ∈ committed ∨ next.pending.Holds receipt →
    committer.pending.Holds receipt ∨ receipt ∈ next.received
  received : next.received = committer.received ∨
    ∃ receipt, event = .receive receipt ∧ next.received = committer.received ++ [receipt] ∧
      (receipt.receiptId ∈ committer.core.seen ∨ receipt ∈ committed ∨ next.pending.Holds receipt)
  seen : ∀ id ∈ next.core.seen, id ∈ committer.core.seen ∨
    ∃ receipt ∈ next.received, receipt.receiptId = id
  closed : next.phase ≠ .running → committer.phase = .running →
    ∀ receipt, ¬next.pending.Holds receipt

variable (hashing environment config) in
theorem step_turn (committer : Committer Digest Number) (event : Event Number) :
    ∃ committed, Turn hashing environment config committer event committed
      (step hashing environment config committer event) := by
  have works : Works hashing environment config [] committer.core
      (committer.core.processRetries hashing environment) := (Works.rest _).retry
  have still : Turn hashing environment config committer event [] committer :=
    { works := Works.rest _
      kept := fun receipt held => .inr held
      origin := fun receipt held => .inl (held.resolve_left List.not_mem_nil)
      received := .inl rfl
      seen := fun id member => .inl member
      closed := fun stopped running => absurd running stopped }
  unfold step
  dsimp only
  split
  next receipt running =>
    split
    next known =>
      rw [seen_processRetries] at known
      exact ⟨[],
        { works := works
          kept := fun receipt held => .inr held
          origin := fun receipt held => .inl (held.resolve_left List.not_mem_nil)
          received := .inr ⟨receipt, rfl, rfl, .inl known⟩
          seen := fun id member => .inl (by simpa using member)
          closed := fun stopped running => absurd running stopped }⟩
    next unknown =>
      obtain ⟨⟨committed, further, holds⟩, seen⟩ := accept_spec committer.pending receipt works
      refine ⟨committed,
        { works := further
          kept := fun other held => (holds other).mp (.inl held)
          origin := fun other either => ((holds other).mpr either).imp_right fun same => ?_
          received := .inr ⟨receipt, rfl, rfl, .inr ((holds receipt).mp (.inr rfl))⟩
          seen := fun id member => ?_
          closed := fun stopped running => absurd running stopped }⟩
      · simp [same]
      · rcases Finset.mem_insert.mp (seen member) with rfl | old
        · exact .inr ⟨receipt, by simp, rfl⟩
        · exact .inl (by simpa using old)
  next running =>
    obtain ⟨⟨committed, further, holds⟩, seen, empty⟩ := fire_spec committer.pending works
    exact ⟨committed,
      { works := further
        kept := fun other held => .inl ((holds other).mp held)
        origin := fun other either =>
          .inl ((holds other).mpr (either.resolve_right (empty other)))
        received := .inl rfl
        seen := fun id member => .inl (by simpa using seen member)
        closed := fun _ _ => empty }⟩
  next running =>
    obtain ⟨⟨committed, further, holds⟩, seen, empty⟩ := flush_spec committer.pending works
    exact ⟨committed,
      { works := further
        kept := fun other held => .inl ((holds other).mp held)
        origin := fun other either =>
          .inl ((holds other).mpr (either.resolve_right (empty other)))
        received := .inl rfl
        seen := fun id member => .inl (by simpa using seen.subset member)
        closed := fun _ _ => empty }⟩
  next closing =>
    exact ⟨[],
      { works := works
        kept := fun receipt held => .inr held
        origin := fun receipt held => .inl (held.resolve_left List.not_mem_nil)
        received := .inl rfl
        seen := fun id member => .inl (by simpa using member)
        closed := fun _ running => absurd (running.symm.trans closing) (by decide) }⟩
  · exact ⟨[], still⟩

end Committer

end Turns

end JouleDB.Ledger
