import JouleDB.Mvcc.Transaction

/-!
# Interleaved sections

The same calls at a finer grain: each draw from the oracle, each load of the bound for garbage
collection and each section under one lock is a step of its own, and the steps of different
transactions may come in any order.  Two reads of a key by one transaction agree as long as no
commit that the reader should see is still to be marked, and as long as garbage is collected
only below the readers.
-/

namespace JouleDB.Mvcc

/-- How far a transaction is in its current call. -/
inductive Phase where
  /-- Begin: the timestamp is drawn, the transaction is not registered yet. -/
  | drawn
  /-- Between calls. -/
  | idle
  /-- Put or delete: no conflict was found, the version is not written yet. -/
  | checked (key : Bytes) (value : Option Bytes)
  /-- Put or delete: garbage collection is due. -/
  | due
  /-- Put or delete: the bound for garbage collection is loaded. -/
  | loaded (bound : Nat)
  /-- Commit: some keys are still to be validated. -/
  | validating (keys : List Bytes)
  /-- Commit: the commit timestamp is drawn, the versions are not marked yet. -/
  | marking (commitTs : Nat)
  /-- Commit: the versions are marked. -/
  | marked
  /-- Commit: the validation failed. -/
  | rejected
  /-- The versions are still to be removed; after a failed validation the transaction has already
  left the registry. -/
  | discarding (registered : Bool)
  /-- Rollback: the versions are removed. -/
  | discarded
  | ended
  deriving DecidableEq, Repr

/-- A transaction and how far it is. -/
structure Thread where
  txn : MvccTransaction
  phase : Phase

/-- The oracle, the store, the transactions, and the bounds that runs of garbage collection have
loaded and not used yet. -/
structure Machine where
  oracle : Nat
  store : MvccStore
  threads : List (TxId × Thread)
  sweeps : List Nat

/-- The steps. -/
inductive Section where
  | draw
  | register (txId : TxId)
  | read (txId : TxId) (key : Bytes)
  | check (txId : TxId) (key : Bytes) (value : Option Bytes)
  | write (txId : TxId) (key : Bytes) (value : Option Bytes)
  /-- The garbage collection that a write has started. -/
  | load (txId : TxId)
  | sweep (txId : TxId) (bound : Nat)
  /-- A run of garbage collection on its own. -/
  | loadGc
  | sweepGc (bound : Nat)
  | commit (txId : TxId)
  | validate (txId : TxId)
  | drawCommit (txId : TxId)
  | mark (txId : TxId) (commitTs : Nat)
  | unregister (txId : TxId)
  | rollback (txId : TxId)
  | discard (txId : TxId)
  /-- A timestamp is drawn for another purpose. -/
  | tick

namespace Machine

/-- A new store; the oracle is shared by all stores. -/
def new (gcThreshold drawn : Nat) : Machine :=
  ⟨drawn + 1, MvccStore.withGcThreshold gcThreshold, [], []⟩

/-- A transaction and how far it is. -/
def thread (machine : Machine) (txId : TxId) : Option Thread := machine.threads.lookup txId

/-- Replace a transaction. -/
def set (machine : Machine) (txId : TxId) (thread : Thread) : Machine :=
  { machine with threads := upsert machine.threads txId thread }

/-- Replace a transaction and the store. -/
def setBoth (machine : Machine) (txId : TxId) (thread : Thread) (store : MvccStore) : Machine :=
  { machine.set txId thread with store := store }

/-- Garbage collection with a loaded bound. -/
def collect (store : MvccStore) (bound : Nat) : MvccStore :=
  if bound = 0 then store else store.sweep bound

/-- The key was not committed after the timestamp. -/
def isCurrent (store : MvccStore) (key : Bytes) (readTs : Nat) : Bool :=
  match store.getLatestCommittedTs key with
  | some latestTs => latestTs ≤ readTs
  | none => true

/-- The step of a transaction. -/
def stepOf (machine : Machine) (txId : TxId) (thread : Thread) : Section → Option Machine
  | .register _ =>
      if thread.phase = .drawn then
        some (machine.setBoth txId { thread with phase := .idle }
          (machine.store.registerActive txId))
      else none
  | .read _ key =>
      if thread.phase = .idle then
        some (machine.set txId { thread with txn := (thread.txn.get machine.store key).2 })
      else none
  | .check _ key value =>
      if thread.phase = .idle ∧ thread.txn.state = .active then
        match machine.store.checkWriteConflictDetailed key txId with
        | some _ => some (machine.set txId { thread with txn := { thread.txn with state := .aborted } })
        | none => some (machine.set txId { thread with phase := .checked key value })
      else none
  | .write _ key value =>
      if thread.phase = .checked key value then
        let written := machine.store.writeIntent key value thread.txn.readTs txId
        let txn := { thread.txn with writeSet := upsert thread.txn.writeSet key value }
        some (machine.setBoth txId ⟨txn, if written.2 then .due else .idle⟩ written.1)
      else none
  | .load _ =>
      if thread.phase = .due then
        some (machine.set txId { thread with phase := .loaded machine.store.oldestActiveTs })
      else none
  | .sweep _ bound =>
      if thread.phase = .loaded bound then
        some (machine.setBoth txId { thread with phase := .idle } (collect machine.store bound))
      else none
  | .commit _ =>
      if thread.phase = .idle ∧ thread.txn.state = .active then
        some (machine.set txId { thread with phase := .validating thread.txn.keys })
      else none
  | .validate _ =>
      match thread.phase with
      | .validating (key :: keys) =>
          some (machine.set txId { thread with
            phase := if isCurrent machine.store key thread.txn.readTs then .validating keys
              else .rejected })
      | _ => none
  | .drawCommit _ =>
      if thread.phase = .validating [] then
        some { machine.set txId
            ⟨{ thread.txn with commitTs := some machine.oracle }, .marking machine.oracle⟩ with
          oracle := machine.oracle + 1 }
      else none
  | .mark _ commitTs =>
      if thread.phase = .marking commitTs then
        some (machine.setBoth txId { thread with phase := .marked }
          (machine.store.commitTransactionWithTsKeys txId commitTs thread.txn.keys))
      else none
  | .unregister _ =>
      match thread.phase with
      | .marked =>
          some (machine.setBoth txId ⟨{ thread.txn with state := .committed }, .ended⟩
            (machine.store.unregisterActive txId))
      | .rejected =>
          some (machine.setBoth txId ⟨{ thread.txn with state := .aborted }, .discarding false⟩
            (machine.store.unregisterActive txId))
      | .discarded =>
          some (machine.setBoth txId ⟨{ thread.txn with state := .aborted }, .ended⟩
            (machine.store.unregisterActive txId))
      | _ => none
  | .rollback _ =>
      if thread.phase = .idle ∧ thread.txn.state = .active then
        some (machine.set txId { thread with phase := .discarding true })
      else none
  | .discard _ =>
      match thread.phase with
      | .discarding registered =>
          some (machine.setBoth txId
            { thread with phase := if registered then .discarded else .ended }
            (machine.store.abortTransactionKeys txId thread.txn.keys))
      | _ => none
  | _ => none

/-- The transaction that takes a step. -/
def actor : Section → Option TxId
  | .register txId | .read txId _ | .check txId _ _ | .write txId _ _ | .load txId | .sweep txId _
  | .commit txId | .validate txId | .drawCommit txId | .mark txId _ | .unregister txId
  | .rollback txId | .discard txId => some txId
  | .draw | .loadGc | .sweepGc _ | .tick => none

/-- Take a step, if it can be taken. -/
def step (machine : Machine) (step : Section) : Option Machine :=
  match step with
  | .draw =>
      some { machine.set machine.oracle ⟨.new machine.oracle, .drawn⟩ with
        oracle := machine.oracle + 1 }
  | .loadGc => some { machine with sweeps := machine.sweeps ++ [machine.store.oldestActiveTs] }
  | .sweepGc bound =>
      if bound ∈ machine.sweeps then
        some { machine with
          store := collect machine.store bound, sweeps := machine.sweeps.erase bound }
      else none
  | .tick => some { machine with oracle := machine.oracle + 1 }
  | step => (actor step).bind fun txId =>
      (machine.thread txId).bind fun thread => machine.stepOf txId thread step

/-- Take steps one after the other. -/
def run (machine : Machine) : List Section → Option Machine
  | [] => some machine
  | step :: steps => (machine.step step).bind fun machine => machine.run steps

/-- What a read of a transaction returns, when it returns a value. -/
def reads (machine : Machine) (txId : TxId) (key : Bytes) : Option (Option Bytes) :=
  (machine.thread txId).bind fun thread =>
    if thread.phase = .idle then (thread.txn.get machine.store key).1.toOption else none

end Machine

/-- The phases in which the transaction may still read. -/
def Phase.isOpen : Phase → Bool
  | .drawn | .idle | .checked _ _ | .due | .loaded _ => true
  | _ => false

/-- The phases after the versions were marked. -/
def Phase.isPast : Phase → Bool
  | .marked | .ended => true
  | _ => false

/-- The transaction may still read. -/
def Thread.Reading (thread : Thread) : Prop :=
  thread.txn.state = .active ∧ thread.phase.isOpen = true

namespace Machine

/-- A read comes after the marking of every commit of its key that it should see, and garbage is
collected only below the transactions that may still read. -/
def Safe (machine : Machine) : Section → Prop
  | .read txId key => ∀ other committer commitTs, machine.thread other = some committer →
      committer.phase = .marking commitTs → key ∈ committer.txn.keys →
      ∀ reader, machine.thread txId = some reader → reader.txn.readTs < commitTs
  | .sweep _ bound | .sweepGc bound => ∀ id reader, machine.thread id = some reader →
      reader.Reading → bound ≤ reader.txn.readTs
  | _ => True

/-- Every step of a run is safe in the state before it. -/
def SafeRun (machine : Machine) : List Section → Prop
  | [] => True
  | step :: steps => machine.Safe step ∧ ∀ next, machine.step step = some next → next.SafeRun steps

/-! ## What a step of a transaction does -/

/-- What a step of a transaction does to the chains and to its writes. -/
inductive Effect (store : MvccStore) (txId : TxId) (thread after : Thread) :
    Section → MvccStore → Prop where
  | same {step : Section} {store' : MvccStore} (writes : after.txn.writeSet = thread.txn.writeSet)
      (chains : store'.chains = store.chains) : Effect store txId thread after step store'
  | write {key : Bytes} {value : Option Bytes} (checked : thread.phase = .checked key value)
      (writes : after.txn.writeSet = upsert thread.txn.writeSet key value) :
      Effect store txId thread after (.write txId key value)
        (store.writeIntent key value thread.txn.readTs txId).1
  | sweep {bound : Nat} (writes : after.txn.writeSet = thread.txn.writeSet) :
      Effect store txId thread after (.sweep txId bound) (collect store bound)
  | mark {commitTs : Nat} (writes : after.txn.writeSet = thread.txn.writeSet)
      (marking : thread.phase = .marking commitTs) (marked : after.phase = .marked) :
      Effect store txId thread after (.mark txId commitTs)
        (store.commitTransactionWithTsKeys txId commitTs thread.txn.keys)
  | discard (writes : after.txn.writeSet = thread.txn.writeSet) :
      Effect store txId thread after (.discard txId)
        (store.abortTransactionKeys txId thread.txn.keys)

/-- What a step of a transaction does. -/
structure Acts (machine : Machine) (txId : TxId) (step : Section) (thread after : Thread)
    (next : Machine) : Prop where
  found : machine.thread txId = some thread
  threads : next.threads = upsert machine.threads txId after
  oracle : machine.oracle ≤ next.oracle
  id : after.txn.id = thread.txn.id
  readTs : after.txn.readTs = thread.txn.readTs
  reading : after.Reading → thread.Reading
  past : thread.phase.isPast = true → after.phase.isPast = true
  drawn : ∀ commitTs, after.phase = .marking commitTs →
    machine.oracle ≤ commitTs ∧ commitTs < next.oracle
  effect : Effect machine.store txId thread after step next.store

theorem get_keeps (txn : MvccTransaction) (store : MvccStore) (key : Bytes) :
    (txn.get store key).2.id = txn.id ∧ (txn.get store key).2.readTs = txn.readTs ∧
      (txn.get store key).2.state = txn.state ∧ (txn.get store key).2.writeSet = txn.writeSet := by
  rw [MvccTransaction.get]
  split
  next => exact ⟨rfl, rfl, rfl, rfl⟩
  next =>
    split
    next => exact ⟨rfl, rfl, rfl, rfl⟩
    next => split <;> exact ⟨rfl, rfl, rfl, rfl⟩

/-- A step to a phase that is not the marking phase. -/
theorem Acts.of_phases {machine next : Machine} {txId : TxId} {thread after : Thread}
    {step : Section} (found : machine.thread txId = some thread)
    (threads : next.threads = upsert machine.threads txId after)
    (oracle : next.oracle = machine.oracle) (id : after.txn.id = thread.txn.id)
    (readTs : after.txn.readTs = thread.txn.readTs)
    (state : after.txn.state = .active → thread.txn.state = .active)
    (phases : (after.phase.isOpen = true → thread.phase.isOpen = true) ∧
      (thread.phase.isPast = true → after.phase.isPast = true) ∧
      ∀ commitTs, after.phase ≠ .marking commitTs)
    (effect : Effect machine.store txId thread after step next.store) :
    Acts machine txId step thread after next where
  found := found
  threads := threads
  oracle := Nat.le_of_eq oracle.symm
  id := id
  readTs := readTs
  reading := fun reading => ⟨state reading.1, phases.1 reading.2⟩
  past := phases.2.1
  drawn := fun commitTs marking => absurd marking (phases.2.2 commitTs)
  effect := effect

theorem acts_of_stepOf {machine next : Machine} {txId : TxId} {thread : Thread} {step : Section}
    (found : machine.thread txId = some thread) (isActor : actor step = some txId)
    (taken : machine.stepOf txId thread step = some next) :
    ∃ after, Acts machine txId step thread after next := by
  cases step with
  | register id =>
      cases isActor
      rw [stepOf] at taken
      split at taken
      next phase =>
        cases taken
        exact ⟨_, .of_phases found rfl rfl rfl rfl (fun active => active)
          (by simp [phase, Phase.isOpen, Phase.isPast]) (.same rfl rfl)⟩
      next => cases taken
  | read id key =>
      cases isActor
      rw [stepOf] at taken
      split at taken
      next phase =>
        cases taken
        obtain ⟨sameId, sameTs, sameState, sameSet⟩ := get_keeps thread.txn machine.store key
        exact ⟨_, .of_phases found rfl rfl sameId sameTs (fun active => sameState ▸ active)
          (by simp [phase, Phase.isOpen, Phase.isPast]) (.same sameSet rfl)⟩
      next => cases taken
  | check id key value =>
      cases isActor
      rw [stepOf] at taken
      split at taken
      next guard =>
        split at taken
        next =>
          cases taken
          exact ⟨_, .of_phases found rfl rfl rfl rfl (fun _ => guard.2)
            (by simp [guard.1, Phase.isOpen, Phase.isPast]) (.same rfl rfl)⟩
        next =>
          cases taken
          exact ⟨_, .of_phases found rfl rfl rfl rfl (fun _ => guard.2)
            (by simp [guard.1, Phase.isOpen, Phase.isPast]) (.same rfl rfl)⟩
      next => cases taken
  | write id key value =>
      cases isActor
      rw [stepOf] at taken
      split at taken
      next phase =>
        rw [Option.some.injEq] at taken
        subst taken
        refine ⟨_, .of_phases found rfl rfl rfl rfl (fun active => active) ?_ (.write phase rfl)⟩
        cases (machine.store.writeIntent key value thread.txn.readTs txId).2 <;>
          simp [phase, Phase.isOpen, Phase.isPast]
      next => cases taken
  | load id =>
      cases isActor
      rw [stepOf] at taken
      split at taken
      next phase =>
        cases taken
        exact ⟨_, .of_phases found rfl rfl rfl rfl (fun active => active)
          (by simp [phase, Phase.isOpen, Phase.isPast]) (.same rfl rfl)⟩
      next => cases taken
  | sweep id bound =>
      cases isActor
      rw [stepOf] at taken
      split at taken
      next phase =>
        cases taken
        exact ⟨_, .of_phases found rfl rfl rfl rfl (fun active => active)
          (by simp [phase, Phase.isOpen, Phase.isPast]) (.sweep rfl)⟩
      next => cases taken
  | commit id =>
      cases isActor
      rw [stepOf] at taken
      split at taken
      next guard =>
        cases taken
        exact ⟨_, .of_phases found rfl rfl rfl rfl (fun _ => guard.2)
          (by simp [guard.1, Phase.isOpen, Phase.isPast]) (.same rfl rfl)⟩
      next => cases taken
  | validate id =>
      cases isActor
      rw [stepOf] at taken
      split at taken
      next key keys phase =>
        cases taken
        refine ⟨_, .of_phases found rfl rfl rfl rfl (fun active => active) ?_ (.same rfl rfl)⟩
        cases isCurrent machine.store key thread.txn.readTs <;>
          simp [phase, Phase.isOpen, Phase.isPast]
      next => cases taken
  | drawCommit id =>
      cases isActor
      rw [stepOf] at taken
      split at taken
      next phase =>
        cases taken
        refine ⟨_, found, rfl, Nat.le_succ _, rfl, rfl, ?_, ?_, ?_, .same rfl rfl⟩
        · exact fun reading => nomatch reading.2
        · rw [phase]
          exact fun past => nomatch past
        · intro commitTs marking
          cases marking
          exact ⟨Nat.le_refl _, Nat.lt_succ_self _⟩
      next => cases taken
  | mark id commitTs =>
      cases isActor
      rw [stepOf] at taken
      split at taken
      next phase =>
        cases taken
        exact ⟨_, .of_phases found rfl rfl rfl rfl (fun active => active)
          (by simp [phase, Phase.isOpen, Phase.isPast]) (.mark rfl phase rfl)⟩
      next => cases taken
  | unregister id =>
      cases isActor
      rw [stepOf] at taken
      split at taken
      next phase =>
        cases taken
        exact ⟨_, .of_phases found rfl rfl rfl rfl (fun active => nomatch active)
          (by simp [phase, Phase.isOpen, Phase.isPast]) (.same rfl rfl)⟩
      next phase =>
        cases taken
        exact ⟨_, .of_phases found rfl rfl rfl rfl (fun active => nomatch active)
          (by simp [phase, Phase.isOpen, Phase.isPast]) (.same rfl rfl)⟩
      next phase =>
        cases taken
        exact ⟨_, .of_phases found rfl rfl rfl rfl (fun active => nomatch active)
          (by simp [phase, Phase.isOpen, Phase.isPast]) (.same rfl rfl)⟩
      next => cases taken
  | rollback id =>
      cases isActor
      rw [stepOf] at taken
      split at taken
      next guard =>
        cases taken
        exact ⟨_, .of_phases found rfl rfl rfl rfl (fun _ => guard.2)
          (by simp [guard.1, Phase.isOpen, Phase.isPast]) (.same rfl rfl)⟩
      next => cases taken
  | discard id =>
      cases isActor
      rw [stepOf] at taken
      split at taken
      next registered phase =>
        cases taken
        refine ⟨_, .of_phases found rfl rfl rfl rfl (fun active => active) ?_ (.discard rfl)⟩
        dsimp only
        split <;> simp [phase, Phase.isOpen, Phase.isPast]
      next => cases taken
  | draw => cases isActor
  | loadGc => cases isActor
  | sweepGc bound => cases isActor
  | tick => cases isActor

/-! ## The invariant -/

/-- Every version is by a transaction whose write set has the key, and it is committed only after
the transaction has marked its versions. -/
structure Sane (machine : Machine) : Prop where
  known : ∀ id thread, machine.thread id = some thread →
    thread.txn.id = id ∧ thread.txn.readTs = id ∧ id < machine.oracle
  nodup : (machine.store.chains.map Prod.fst).Nodup
  authored : ∀ key, ∀ version ∈ machine.store.versions key,
    ∃ thread, machine.thread version.createdBy = some thread ∧ key ∈ thread.txn.keys ∧
      (version.committed = true → thread.phase.isPast = true)

section Invariant

variable {machine next : Machine} {txId : TxId} {move : Section} {thread after : Thread}
  {key : Bytes} {version : Version}

theorem Acts.thread_eq (acts : Acts machine txId move thread after next) (id : TxId) :
    next.thread id = if id = txId then some after else machine.thread id := by
  rw [Machine.thread, acts.threads, lookup_upsert]
  rfl

theorem versions_of_chains {store other : MvccStore} (same : other.chains = store.chains)
    (key : Bytes) : other.versions key = store.versions key := by
  rw [MvccStore.versions, MvccStore.versions, MvccStore.chain, MvccStore.chain, same]

theorem versions_collect (nodup : (machine.store.chains.map Prod.fst).Nodup) (bound : Nat)
    (key : Bytes) :
    (collect machine.store bound).versions key = machine.store.versions key ∨
      (collect machine.store bound).versions key =
        keepLast (VersionChain.isOld bound) (machine.store.versions key) := by
  rw [collect]
  split
  next => exact Or.inl rfl
  next => exact Or.inr (MvccStore.versions_sweep nodup bound)

theorem nodup_collect (nodup : (machine.store.chains.map Prod.fst).Nodup) (bound : Nat) :
    ((collect machine.store bound).chains.map Prod.fst).Nodup := by
  rw [collect]
  split
  next => exact nodup
  next => exact MvccStore.nodup_sweep nodup bound

theorem mem_collect (nodup : (machine.store.chains.map Prod.fst).Nodup) {bound : Nat}
    (member : version ∈ (collect machine.store bound).versions key) :
    version ∈ machine.store.versions key := by
  rcases versions_collect nodup bound key with same | kept
  · exact same ▸ member
  · exact (keepLast_sublist _).subset (kept ▸ member)

theorem mem_keys {txn : MvccTransaction} : key ∈ txn.keys ↔ (txn.writeSet.lookup key).isSome :=
  (isSome_lookup_iff _ _).symm

/-- The transaction has no committed version before it marks its versions. -/
theorem Sane.not_committed (sane : machine.Sane) (found : machine.thread txId = some thread)
    (notPast : thread.phase.isPast = false) (member : version ∈ machine.store.versions key)
    (created : VersionChain.isBy txId version = true) : version.committed = false := by
  obtain ⟨author, isAuthor, -, past⟩ := sane.authored key version member
  rw [of_decide_eq_true created, found, Option.some.injEq] at isAuthor
  cases committed : version.committed with
  | false => rfl
  | true =>
      have isPast := past committed
      rw [← isAuthor, notPast] at isPast
      cases isPast

theorem mem_keys_upsert {txn : MvccTransaction} {other : Bytes} {value : Option Bytes}
    (writes : after.txn.writeSet = upsert txn.writeSet key value) (here : other = key) :
    other ∈ after.txn.keys := by
  rw [mem_keys, writes, lookup_upsert, if_pos here]
  rfl

theorem Effect.mem_versions {store : MvccStore}
    (effect : Effect machine.store txId thread after move store) (sane : machine.Sane)
    (found : machine.thread txId = some thread) (member : version ∈ store.versions key) :
    version ∈ machine.store.versions key ∨
      (version.createdBy = txId ∧ key ∈ after.txn.keys ∧
        (version.committed = true → after.phase.isPast = true)) := by
  cases effect with
  | same writes chains =>
      rw [versions_of_chains chains] at member
      exact Or.inl member
  | @write written value checked writes =>
      have notPast : thread.phase.isPast = false := by rw [checked]; rfl
      rw [MvccStore.versions_writeIntent] at member
      split at member
      next here =>
        rw [← here] at member
        split at member
        next =>
          rcases List.mem_append.mp member with old | new
          · exact Or.inl old
          · rw [List.mem_singleton] at new
            subst new
            exact Or.inr ⟨rfl, mem_keys_upsert writes here, fun committed => nomatch committed⟩
        next =>
          rcases mem_modifyLast member with old | ⟨own, isOld, created, rfl⟩
          · exact Or.inl old
          · have pending := sane.not_committed found notPast isOld created
            refine Or.inr ⟨of_decide_eq_true created, mem_keys_upsert writes here, ?_⟩
            intro committed
            rw [pending] at committed
            cases committed
      next => exact Or.inl member
  | sweep writes => exact Or.inl (mem_collect sane.nodup member)
  | mark writes marking marked =>
      rw [MvccStore.versions_commitTransactionWithTsKeys] at member
      split at member
      next inKeys =>
        rcases mem_modifyLast member with old | ⟨own, isOld, created, rfl⟩
        · exact Or.inl old
        · refine Or.inr ⟨of_decide_eq_true created, ?_, fun _ => by rw [marked]; rfl⟩
          rw [MvccTransaction.keys, writes]
          exact inKeys
      next => exact Or.inl member
  | discard writes =>
      rw [MvccStore.versions_abortTransactionKeys] at member
      split at member
      next => exact Or.inl (List.mem_filter.mp member).1
      next => exact Or.inl member

theorem Effect.nodup {store : MvccStore}
    (effect : Effect machine.store txId thread after move store)
    (nodup : (machine.store.chains.map Prod.fst).Nodup) : (store.chains.map Prod.fst).Nodup := by
  cases effect with
  | same writes chains => exact chains ▸ nodup
  | write checked writes => exact (MvccStore.writeIntent_keeps nodup _ _).1
  | sweep writes => exact nodup_collect nodup _
  | mark writes marking marked => exact (MvccStore.commitTransactionWithTsKeys_keeps nodup _ _).1
  | discard writes => exact (MvccStore.abortTransactionKeys_keeps nodup _).1

theorem Effect.keys {store : MvccStore}
    (effect : Effect machine.store txId thread after move store) (member : key ∈ thread.txn.keys) :
    key ∈ after.txn.keys := by
  rw [mem_keys] at member ⊢
  cases effect with
  | write checked writes =>
      rw [writes, lookup_upsert]
      split
      next => rfl
      next => exact member
  | same writes chains => exact writes ▸ member
  | sweep writes => exact writes ▸ member
  | mark writes marking marked => exact writes ▸ member
  | discard writes => exact writes ▸ member

/-- Only a write of the key changes it in the write set. -/
theorem Effect.lookup_eq {store : MvccStore}
    (effect : Effect machine.store txId thread after move store)
    (unwritten : ∀ value, move ≠ .write txId key value) :
    after.txn.writeSet.lookup key = thread.txn.writeSet.lookup key := by
  cases effect with
  | @write written value checked writes =>
      rw [writes, lookup_upsert, if_neg]
      rintro rfl
      exact unwritten value rfl
  | same writes chains => rw [writes]
  | sweep writes => rw [writes]
  | mark writes marking marked => rw [writes]
  | discard writes => rw [writes]

theorem Sane.acts (sane : machine.Sane) (acts : Acts machine txId move thread after next) :
    next.Sane where
  known id found isFound := by
    rw [acts.thread_eq] at isFound
    split at isFound
    next here =>
      cases isFound
      obtain ⟨isId, isTs, below⟩ := sane.known txId thread acts.found
      rw [here, acts.id, acts.readTs]
      exact ⟨isId, isTs, Nat.lt_of_lt_of_le below acts.oracle⟩
    next =>
      obtain ⟨isId, isTs, below⟩ := sane.known id found isFound
      exact ⟨isId, isTs, Nat.lt_of_lt_of_le below acts.oracle⟩
  nodup := acts.effect.nodup sane.nodup
  authored key version member := by
    rcases acts.effect.mem_versions sane acts.found member with old | ⟨created, inKeys, past⟩
    · obtain ⟨author, isAuthor, inKeys, past⟩ := sane.authored key version old
      rw [acts.thread_eq]
      split
      next here =>
        rw [here, acts.found, Option.some.injEq] at isAuthor
        subst isAuthor
        exact ⟨after, rfl, acts.effect.keys inKeys, fun committed => acts.past (past committed)⟩
      next => exact ⟨author, isAuthor, inKeys, past⟩
    · rw [acts.thread_eq, if_pos created]
      exact ⟨after, rfl, inKeys, past⟩

theorem step_cases (taken : machine.step move = some next) :
    (move = .draw ∧ next = { machine.set machine.oracle ⟨.new machine.oracle, .drawn⟩ with
      oracle := machine.oracle + 1 }) ∨
    (move = .loadGc ∧
      next = { machine with sweeps := machine.sweeps ++ [machine.store.oldestActiveTs] }) ∨
    (∃ bound, move = .sweepGc bound ∧ next = { machine with
      store := collect machine.store bound, sweeps := machine.sweeps.erase bound }) ∨
    (move = .tick ∧ next = { machine with oracle := machine.oracle + 1 }) ∨
    ∃ txId thread after, actor move = some txId ∧ Acts machine txId move thread after next := by
  have acts : ∀ {move : Section}, ((actor move).bind fun txId =>
      (machine.thread txId).bind fun thread => machine.stepOf txId thread move) = some next →
      ∃ txId thread after, actor move = some txId ∧ Acts machine txId move thread after next := by
    intro move taken
    obtain ⟨txId, isActor, taken⟩ := Option.bind_eq_some_iff.mp taken
    obtain ⟨thread, found, taken⟩ := Option.bind_eq_some_iff.mp taken
    obtain ⟨after, acts⟩ := acts_of_stepOf found isActor taken
    exact ⟨txId, thread, after, isActor, acts⟩
  cases move with
  | draw => exact Or.inl ⟨rfl, (Option.some.inj taken).symm⟩
  | loadGc => exact Or.inr (Or.inl ⟨rfl, (Option.some.inj taken).symm⟩)
  | sweepGc bound =>
      rw [Machine.step] at taken
      split at taken
      next => exact Or.inr (Or.inr (Or.inl ⟨bound, rfl, (Option.some.inj taken).symm⟩))
      next => cases taken
  | tick => exact Or.inr (Or.inr (Or.inr (Or.inl ⟨rfl, (Option.some.inj taken).symm⟩)))
  | _ => exact Or.inr (Or.inr (Or.inr (Or.inr (acts taken))))

theorem thread_draw (machine : Machine) (id : TxId) :
    ({ machine.set machine.oracle ⟨.new machine.oracle, .drawn⟩ with
        oracle := machine.oracle + 1 } : Machine).thread id =
      if id = machine.oracle then some ⟨.new machine.oracle, .drawn⟩ else machine.thread id := by
  rw [Machine.thread, set, lookup_upsert]
  rfl

theorem Sane.step (sane : machine.Sane) (taken : machine.step move = some next) : next.Sane := by
  rcases step_cases taken with ⟨-, rfl⟩ | ⟨-, rfl⟩ | ⟨bound, -, rfl⟩ | ⟨-, rfl⟩ |
    ⟨txId, thread, after, -, acts⟩
  · constructor
    · intro id found isFound
      rw [thread_draw] at isFound
      split at isFound
      next here =>
        cases isFound
        exact ⟨here.symm, here.symm, here ▸ Nat.lt_succ_self _⟩
      next =>
        obtain ⟨isId, isTs, below⟩ := sane.known id found isFound
        exact ⟨isId, isTs, Nat.lt_succ_of_lt below⟩
    · exact sane.nodup
    · intro key version member
      obtain ⟨author, isAuthor, rest⟩ := sane.authored key version member
      refine ⟨author, ?_, rest⟩
      rw [thread_draw, if_neg, isAuthor]
      intro here
      exact absurd (sane.known _ author isAuthor).2.2 (here ▸ Nat.lt_irrefl _)
  · exact ⟨sane.known, sane.nodup, sane.authored⟩
  · exact ⟨sane.known, nodup_collect sane.nodup bound,
      fun key version member => sane.authored key version (mem_collect sane.nodup member)⟩
  · refine ⟨fun id found isFound => ?_, sane.nodup, sane.authored⟩
    obtain ⟨isId, isTs, below⟩ := sane.known id found isFound
    exact ⟨isId, isTs, Nat.lt_succ_of_lt below⟩
  · exact sane.acts acts

theorem Sane.new (gcThreshold drawn : Nat) : (Machine.new gcThreshold drawn).Sane where
  known := fun _ _ found => nomatch found
  nodup := List.nodup_nil
  authored := fun _ _ member => nomatch member

theorem Sane.run (sane : machine.Sane) {steps : List Section} (taken : machine.run steps = some next) :
    next.Sane := by
  induction steps generalizing machine with
  | nil => exact Option.some.inj taken ▸ sane
  | cons move steps ih =>
      obtain ⟨middle, first, rest⟩ := Option.bind_eq_some_iff.mp taken
      exact ih (sane.step first) rest

/-! ## Repeatable reads -/

/-- What a reader sees of a key is settled: no commit of the key that it should see is still to be
marked. -/
structure Settled (machine : Machine) (txId : TxId) (key : Bytes) (seen : Option Version) : Prop where
  pending : ∀ id committer commitTs, machine.thread id = some committer →
    committer.phase = .marking commitTs → key ∈ committer.txn.keys → txId < commitTs
  visible : lastWith (VersionChain.isVisible txId) (machine.store.versions key) = seen

theorem lastWith_collect (nodup : (machine.store.chains.map Prod.fst).Nodup) {bound readTs : Nat}
    (low : bound ≤ readTs) :
    lastWith (VersionChain.isVisible readTs) ((collect machine.store bound).versions key) =
      lastWith (VersionChain.isVisible readTs) (machine.store.versions key) := by
  rcases versions_collect nodup bound key with same | kept
  · rw [same]
  · rw [kept]
    apply lastWith_keepLast
    intro version _ old
    simp only [VersionChain.isOld, Bool.and_eq_true, decide_eq_true_eq] at old
    simp only [VersionChain.isVisible, old.1, Bool.true_and, decide_eq_true_eq]
    exact (Nat.le_of_lt old.2).trans low

theorem not_visible {readTs : Nat} (pending : version.committed = false) :
    VersionChain.isVisible readTs version = false := by
  rw [VersionChain.isVisible, pending, Bool.false_and]

theorem Effect.lastWith_visible {store : MvccStore}
    (effect : Effect machine.store txId thread after move store) (sane : machine.Sane)
    (found : machine.thread txId = some thread) {readTs : Nat}
    (low : ∀ bound, move = .sweep txId bound → bound ≤ readTs)
    (late : ∀ commitTs, thread.phase = .marking commitTs → key ∈ thread.txn.keys →
      readTs < commitTs) :
    lastWith (VersionChain.isVisible readTs) (store.versions key) =
      lastWith (VersionChain.isVisible readTs) (machine.store.versions key) := by
  cases effect with
  | same writes chains => rw [versions_of_chains chains]
  | @write written value checked writes =>
      have notPast : thread.phase.isPast = false := by rw [checked]; rfl
      rw [MvccStore.versions_writeIntent]
      split
      next here =>
        rw [← here]
        split
        next => rw [lastWith_concat]; rfl
        next =>
          apply lastWith_modifyLast
          · exact fun own isOld created => not_visible (sane.not_committed found notPast isOld created)
          · intro own isOld created
            have pending := sane.not_committed found notPast isOld created
            exact not_visible pending
      next => rfl
  | sweep writes => exact lastWith_collect sane.nodup (low _ rfl)
  | mark writes marking marked =>
      have notPast : thread.phase.isPast = false := by rw [marking]; rfl
      rw [MvccStore.versions_commitTransactionWithTsKeys]
      split
      next inKeys =>
        apply lastWith_modifyLast
        · exact fun own isOld created => not_visible (sane.not_committed found notPast isOld created)
        · intro own _ _
          exact decide_eq_false (Nat.not_le.mpr (late _ marking inKeys))
      next => rfl
  | discard writes =>
      rw [MvccStore.versions_abortTransactionKeys]
      split
      next =>
        apply lastWith_filter
        intro version _ visible
        simp only [VersionChain.isVisible, Bool.and_eq_true] at visible
        simp [visible.1]
      next => rfl

/-- What a step does to a transaction: it may read after the step only if it could before, and
its write of a key stays as it is unless the step writes the key. -/
theorem thread_of_step {reader : Thread} (sane : machine.Sane)
    (taken : machine.step move = some next) (before : machine.thread txId = some reader) :
    ∃ later, next.thread txId = some later ∧ (later.Reading → reader.Reading) ∧
      ∀ key, (∀ value, move ≠ .write txId key value) →
        later.txn.writeSet.lookup key = reader.txn.writeSet.lookup key := by
  rcases step_cases taken with ⟨-, rfl⟩ | ⟨-, rfl⟩ | ⟨bound, -, rfl⟩ | ⟨-, rfl⟩ |
    ⟨actor, thread, moved, -, acts⟩
  · rw [thread_draw, if_neg (Nat.ne_of_lt (sane.known txId reader before).2.2)]
    exact ⟨reader, before, fun reading => reading, fun _ _ => rfl⟩
  · exact ⟨reader, before, fun reading => reading, fun _ _ => rfl⟩
  · exact ⟨reader, before, fun reading => reading, fun _ _ => rfl⟩
  · exact ⟨reader, before, fun reading => reading, fun _ _ => rfl⟩
  · rw [acts.thread_eq]
    split
    next here =>
      subst here
      rw [acts.found, Option.some.injEq] at before
      subst before
      exact ⟨moved, rfl, acts.reading, fun key => acts.effect.lookup_eq⟩
    next => exact ⟨reader, before, fun reading => reading, fun _ _ => rfl⟩

theorem thread_of_run {reader later : Thread} {steps : List Section} (sane : machine.Sane)
    (taken : machine.run steps = some next) (before : machine.thread txId = some reader)
    (after : next.thread txId = some later) :
    (later.Reading → reader.Reading) ∧
      ∀ key, (∀ value, Section.write txId key value ∉ steps) →
        later.txn.writeSet.lookup key = reader.txn.writeSet.lookup key := by
  induction steps generalizing machine reader with
  | nil =>
      rw [← Option.some.inj taken, before, Option.some.injEq] at after
      subst after
      exact ⟨fun reading => reading, fun _ _ => rfl⟩
  | cons move steps ih =>
      obtain ⟨middle, first, rest⟩ := Option.bind_eq_some_iff.mp taken
      obtain ⟨between, isBetween, stepReading, stepLookup⟩ := thread_of_step sane first before
      obtain ⟨runReading, runLookup⟩ := ih (sane.step first) rest isBetween
      refine ⟨fun reading => stepReading (runReading reading), fun key unwritten => ?_⟩
      rw [runLookup key fun value member => unwritten value (List.mem_cons_of_mem _ member)]
      apply stepLookup
      rintro value rfl
      exact unwritten value List.mem_cons_self

/-- What a reader sees stays settled while it may read. -/
theorem Settled.step {seen : Option Version} {reader : Thread}
    (settled : machine.Settled txId key seen) (sane : machine.Sane)
    (taken : machine.step move = some next) (safe : machine.Safe move)
    (isReader : machine.thread txId = some reader) (reading : reader.Reading) :
    next.Settled txId key seen := by
  obtain ⟨-, isTs, below⟩ := sane.known txId reader isReader
  rcases step_cases taken with ⟨-, rfl⟩ | ⟨-, rfl⟩ | ⟨bound, rfl, rfl⟩ | ⟨-, rfl⟩ |
    ⟨actor, thread, after, isActor, acts⟩
  · refine ⟨fun id committer commitTs found marking inKeys => ?_, settled.visible⟩
    rw [thread_draw] at found
    split at found
    next =>
      cases found
      cases marking
    next => exact settled.pending id committer commitTs found marking inKeys
  · exact ⟨settled.pending, settled.visible⟩
  · refine ⟨settled.pending, ?_⟩
    have low := safe txId reader isReader reading
    rw [isTs] at low
    exact (lastWith_collect sane.nodup low).trans settled.visible
  · exact ⟨settled.pending, settled.visible⟩
  · refine ⟨fun id committer commitTs found marking inKeys => ?_, ?_⟩
    · rw [acts.thread_eq] at found
      split at found
      next =>
        cases found
        exact Nat.lt_of_lt_of_le below (acts.drawn commitTs marking).1
      next => exact settled.pending id committer commitTs found marking inKeys
    · rw [acts.effect.lastWith_visible sane acts.found, settled.visible]
      · rintro bound rfl
        exact isTs ▸ safe txId reader isReader reading
      · exact fun commitTs => settled.pending actor thread commitTs acts.found

theorem Settled.run {seen : Option Version} {steps : List Section} {reader later : Thread}
    (settled : machine.Settled txId key seen) (sane : machine.Sane)
    (taken : machine.run steps = some next) (safe : machine.SafeRun steps)
    (before : machine.thread txId = some reader) (after : next.thread txId = some later)
    (reading : later.Reading) : next.Settled txId key seen := by
  induction steps generalizing machine reader with
  | nil => exact Option.some.inj taken ▸ settled
  | cons move steps ih =>
      have stillReading := (thread_of_run sane taken before after).1 reading
      obtain ⟨middle, first, rest⟩ := Option.bind_eq_some_iff.mp taken
      obtain ⟨between, isBetween, -⟩ := thread_of_step sane first before
      exact ih (settled.step sane first safe.1 before stillReading) (sane.step first) rest
        (safe.2 middle first) isBetween

end Invariant

/-- A read returns the own write of a key, else the last visible version. -/
theorem reads_eq {machine : Machine} {txId : TxId} {key : Bytes} {value : Option Bytes}
    (sane : machine.Sane) (read : machine.reads txId key = some value) :
    ∃ reader, machine.thread txId = some reader ∧ reader.Reading ∧
      match reader.txn.writeSet.lookup key with
      | some own => value = own
      | none => value = (lastWith (VersionChain.isVisible txId)
          (machine.store.versions key)).bind Version.data := by
  obtain ⟨reader, found, read⟩ := Option.bind_eq_some_iff.mp read
  split at read
  next idle =>
    rw [MvccTransaction.get] at read
    split at read
    next => cases read
    next active =>
      rw [not_not] at active
      refine ⟨reader, found, ⟨active, by rw [idle]; rfl⟩, ?_⟩
      cases unwritten : reader.txn.writeSet.lookup key with
      | some own =>
          rw [unwritten] at read
          exact (Option.some.inj read).symm
      | none =>
          obtain ⟨isId, isTs, -⟩ := sane.known txId reader found
          have noOwn : lastWith (VersionChain.isBy txId) (machine.store.versions key) = none := by
            rw [lastWith_eq_none]
            intro version member
            refine decide_eq_false fun created => ?_
            obtain ⟨author, isAuthor, inKeys, -⟩ := sane.authored key version member
            rw [created, found, Option.some.injEq] at isAuthor
            rw [mem_keys, ← isAuthor, unwritten] at inKeys
            cases inKeys
          rw [unwritten] at read
          dsimp only at read
          have isRead : (machine.store.read key reader.txn.readTs reader.txn.id).1 = value := by
            split at read
            next isValue =>
              rw [isValue]
              exact Option.some.inj read
            next isValue =>
              rw [isValue]
              exact Option.some.inj read
          rw [MvccStore.read_eq_sight, MvccStore.sight, isId, isTs, noOwn, Option.none_or] at isRead
          rw [← isRead]
          cases lastWith (VersionChain.isVisible txId) (machine.store.versions key) <;> rfl
  next => cases read

theorem safeRun_append {machine next : Machine} {front back : List Section}
    (safe : machine.SafeRun (front ++ back)) (taken : machine.run front = some next) :
    next.SafeRun back := by
  induction front generalizing machine with
  | nil => exact Option.some.inj taken ▸ safe
  | cons move front ih =>
      obtain ⟨middle, first, rest⟩ := Option.bind_eq_some_iff.mp taken
      exact ih (safe.2 middle first) rest

/-- Repeatable reads: in every run whose steps are safe, two reads of a key by one transaction
that does not write the key in between return the same value. -/
theorem repeatable_reads (gcThreshold drawn : Nat) (front between : List Section) (txId : TxId)
    (key : Bytes) (first last : Machine) (value later : Option Bytes)
    (before : (Machine.new gcThreshold drawn).run front = some first)
    (after : first.run (.read txId key :: between) = some last)
    (safe : (Machine.new gcThreshold drawn).SafeRun (front ++ .read txId key :: between))
    (unwritten : ∀ value, Section.write txId key value ∉ between)
    (read : first.reads txId key = some value) (again : last.reads txId key = some later) :
    value = later := by
  have sane := (Sane.new gcThreshold drawn).run before
  have safe' := safeRun_append safe before
  obtain ⟨reader, isReader, -, isValue⟩ := reads_eq sane read
  obtain ⟨reader', isReader', reading, isLater⟩ := reads_eq (sane.run after) again
  have sameWrite := (thread_of_run sane after isReader isReader').2 key (by
    intro value member
    rcases List.mem_cons.mp member with same | inBetween
    · cases same
    · exact unwritten value inBetween)
  rw [sameWrite] at isLater
  cases own : reader.txn.writeSet.lookup key with
  | some written =>
      rw [own] at isValue isLater
      exact isValue.trans isLater.symm
  | none =>
      rw [own] at isValue isLater
      have settled : first.Settled txId key (lastWith (VersionChain.isVisible txId)
          (first.store.versions key)) := by
        refine ⟨fun id committer commitTs found marking inKeys => ?_, rfl⟩
        have late := safe'.1 id committer commitTs found marking inKeys reader isReader
        rw [(sane.known txId reader isReader).2.1] at late
        exact late
      have stays := settled.run sane after safe' isReader isReader' reading
      dsimp only at isValue isLater
      rw [isValue, isLater, stays.visible]

/-- Steps that neither read nor collect garbage are always safe. -/
theorem safeRun_of_plain {steps : List Section} (machine : Machine)
    (plain : ∀ step ∈ steps, ∀ machine : Machine, machine.Safe step) : machine.SafeRun steps := by
  induction steps generalizing machine with
  | nil => trivial
  | cons step steps ih =>
      refine ⟨plain step List.mem_cons_self machine, fun next _ => ih next ?_⟩
      exact fun other member => plain other (List.mem_cons_of_mem _ member)

/-- A transaction reads a key before and after another one commits it, and finds nothing. -/
theorem repeatable_reads_around_commit :
    ∃ first last later, (Machine.new 0 0).run [.draw, .register 1] = some first ∧
      first.run [.read 1 [7], .draw, .register 2, .check 2 [7] (some [1]), .write 2 [7] (some [1]),
        .commit 2, .validate 2, .drawCommit 2, .mark 2 3] = some last ∧
      last.reads 1 [7] = some later ∧ later = none := by
  refine ⟨_, _, _, rfl, rfl, rfl, ?_⟩
  refine (repeatable_reads 0 0 [.draw, .register 1] [.draw, .register 2, .check 2 [7] (some [1]),
    .write 2 [7] (some [1]), .commit 2, .validate 2, .drawCommit 2, .mark 2 3] 1 [7] _ _ none _ rfl
    rfl ?_ ?_ rfl rfl).symm
  · refine ⟨trivial, fun _ taken => ?_⟩
    cases taken
    refine ⟨trivial, fun _ taken => ?_⟩
    cases taken
    refine ⟨?_, fun next _ => safeRun_of_plain next (by simp [Safe])⟩
    intro other committer commitTs found marking
    by_cases here : other = 1
    · subst here
      cases found
      cases marking
    · have absent : (other == 1) = false := beq_false_of_ne here
      simp [Machine.thread, setBoth, set, Machine.new, upsert, List.lookup_cons, absent] at found
  · intro value member
    simp at member

-- a transaction that registers after the bound was loaded loses the version that it has read
example :
    ∃ first last, (Machine.new 10000 0).run [.draw, .register 1, .check 1 [7] (some [1]),
        .write 1 [7] (some [1]), .commit 1, .validate 1, .drawCommit 1, .mark 1 2, .unregister 1,
        .draw, .draw, .register 4, .check 4 [7] (some [2]), .write 4 [7] (some [2]), .commit 4,
        .validate 4, .drawCommit 4, .mark 4 5, .unregister 4, .draw, .register 6, .loadGc,
        .register 3] = some first ∧
      first.run [.read 3 [7], .sweepGc 6] = some last ∧
      first.reads 3 [7] = some (some [1]) ∧ last.reads 3 [7] = some none :=
  ⟨_, _, rfl, rfl, rfl, rfl⟩

/-- A reader begins between the draw of a commit timestamp and the marking of the versions.  It
does not find the write at first, and it finds it later. -/
theorem commit_appears_between_reads :
    ∃ first last, (Machine.new 10000 0).run [.draw, .register 1, .check 1 [7] (some [1]),
        .write 1 [7] (some [1]), .commit 1, .validate 1, .drawCommit 1, .draw, .register 3] =
          some first ∧
      first.run [.read 3 [7], .mark 1 2] = some last ∧
      first.reads 3 [7] = some none ∧ last.reads 3 [7] = some (some [1]) :=
  ⟨_, _, rfl, rfl, rfl, rfl⟩

end Machine

end JouleDB.Mvcc
