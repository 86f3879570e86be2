import JouleDB.Amorphic.Snapshots
import JouleDB.Lib.Bytes

/-!
# What ended transactions leave behind

Write locks, predicate locks and active entries belong to transactions whose handles are in use,
unless a commit fails: it takes the handle and releases nothing.
-/

namespace JouleDB.Amorphic

variable {Data Bound : Type}

/-- Closing a version keeps what was written when. -/
theorem RecordVersion.mem_closeLast {versions : List (RecordVersion Data)} {deleteTs : Timestamp}
    {version : RecordVersion Data} (member : version ∈ closeLast deleteTs versions) :
    ∃ old ∈ versions, old.writeTs = version.writeTs ∧ old.data = version.data := by
  rcases List.eq_nil_or_concat' versions with rfl | ⟨front, last, rfl⟩
  · cases member
  · rw [closeLast_concat] at member
    rcases List.mem_append.mp member with old | isLast
    · exact ⟨version, List.mem_append_left _ old, rfl, rfl⟩
    · refine ⟨last, List.mem_append_right _ (List.mem_singleton_self _), ?_⟩
      rw [List.mem_singleton.mp isLast]
      split
      · exact ⟨rfl, rfl⟩
      · exact ⟨rfl, rfl⟩

/-! ## Owners -/

namespace VersionStore

/-- All locks and active entries belong to running transactions. -/
structure OwnedBy (store : VersionStore Data Bound) (running : TxId → Prop) : Prop where
  writeLocks : ∀ (record : RecordId) holder, store.writeLocks[record]? = some holder →
    running holder
  predicateLocks : ∀ lock ∈ store.predicateLocks, running lock.txId
  active : ∀ txId, store.activeTransactions[txId]? ≠ none → running txId

/-- Nothing in the store belongs to the transaction. -/
structure Released (store : VersionStore Data Bound) (txId : TxId) : Prop where
  writeLocks : ∀ record : RecordId, store.writeLocks[record]? ≠ some txId
  predicateLocks : ∀ lock ∈ store.predicateLocks, lock.txId ≠ txId
  inactive : store.activeTransactions[txId]? = none

namespace OwnedBy

variable {store next : VersionStore Data Bound} {running : TxId → Prop}

theorem released (owned : store.OwnedBy running) {txId : TxId} (ended : ¬ running txId) :
    store.Released txId where
  writeLocks := fun record held => ended (owned.writeLocks record txId held)
  predicateLocks := fun lock member same => ended (same ▸ owned.predicateLocks lock member)
  inactive := by_contra fun active => ended (owned.active txId active)

theorem mono (owned : store.OwnedBy running) {more : TxId → Prop}
    (wider : ∀ txId, running txId → more txId) : store.OwnedBy more where
  writeLocks := fun record holder held => wider _ (owned.writeLocks record holder held)
  predicateLocks := fun lock member => wider _ (owned.predicateLocks lock member)
  active := fun txId active => wider _ (owned.active txId active)

/-- A store with the same locks and active entries. -/
theorem congr (owned : store.OwnedBy running) (writeLocks : next.writeLocks = store.writeLocks)
    (predicateLocks : next.predicateLocks = store.predicateLocks)
    (active : next.activeTransactions = store.activeTransactions) : next.OwnedBy running where
  writeLocks := by rw [writeLocks]; exact owned.writeLocks
  predicateLocks := by rw [predicateLocks]; exact owned.predicateLocks
  active := by rw [active]; exact owned.active

theorem beginTransaction (owned : store.OwnedBy running) {txId : TxId} (runs : running txId) :
    (store.beginTransaction txId).2.OwnedBy running where
  writeLocks := owned.writeLocks
  predicateLocks := owned.predicateLocks
  active := by
    intro other active
    rw [VersionStore.beginTransaction, Std.ExtTreeMap.getElem?_insert] at active
    split at active
    next same => exact Std.LawfulEqCmp.compare_eq_iff_eq.mp same ▸ runs
    next => exact owned.active other active

theorem recordLock (owned : store.OwnedBy running) {lock : PredicateLock Bound}
    (runs : running lock.txId) : (store.recordLock lock).OwnedBy running where
  writeLocks := owned.writeLocks
  predicateLocks := by
    intro other member
    rcases List.mem_append.mp member with old | new
    · exact owned.predicateLocks other old
    · rw [List.mem_singleton.mp new]
      exact runs
  active := owned.active

theorem tryLock (owned : store.OwnedBy running) {record : RecordId} {txId : TxId}
    (runs : running txId) (locked : store.tryLock record txId = .ok next) :
    next.OwnedBy running := by
  have taken : next = { store with writeLocks := store.writeLocks.insert record txId } := by
    unfold VersionStore.tryLock at locked
    split at locked
    · split at locked <;> cases locked
      rfl
    · cases locked
      rfl
  subst taken
  constructor
  case writeLocks =>
    intro other holder held
    rw [Std.ExtTreeMap.getElem?_insert] at held
    split at held
    next =>
      cases held
      exact runs
    next => exact owned.writeLocks other holder held
  case predicateLocks => exact owned.predicateLocks
  case active => exact owned.active

theorem putRecord (owned : store.OwnedBy running) {transaction after : AmorphicTransaction Data Bound}
    {record : RecordId} {data : Data} (runs : running transaction.id)
    (done : transaction.putRecord store record data = .ok (after, next)) :
    next.OwnedBy running := by
  unfold AmorphicTransaction.putRecord at done
  split at done
  · cases done
  · cases locked : store.tryLock record transaction.id with
    | error failure =>
        rw [locked] at done
        cases done
    | ok taken =>
        rw [locked] at done
        cases done
        exact owned.tryLock runs locked

theorem deleteRecord (owned : store.OwnedBy running)
    {transaction after : AmorphicTransaction Data Bound} {record : RecordId} {existed : Bool}
    (runs : running transaction.id)
    (done : transaction.deleteRecord store record = .ok (existed, after, next)) :
    next.OwnedBy running := by
  unfold AmorphicTransaction.deleteRecord at done
  split at done
  · cases done
  · cases read : transaction.getRecord store record with
    | error failure =>
        rw [read] at done
        cases done
    | ok found =>
        rw [read] at done
        cases found with
        | none =>
            cases done
            exact owned
        | some data =>
            cases locked : store.tryLock record transaction.id with
            | error failure =>
                simp only [bind, Except.bind, Option.isSome_some, if_true, locked] at done
                cases done
            | ok taken =>
                simp only [bind, Except.bind, Option.isSome_some, if_true, locked] at done
                cases done
                exact owned.tryLock runs locked

/-- Ending a transaction releases what it holds. -/
theorem endTransaction (owned : store.OwnedBy running) (txId : TxId) :
    (store.endTransaction txId).OwnedBy fun other => running other ∧ other ≠ txId where
  writeLocks := by
    intro record holder held
    rw [VersionStore.endTransaction, Std.ExtTreeMap.getElem?_filter'] at held
    obtain ⟨held, kept⟩ := Option.filter_eq_some_iff.mp held
    exact ⟨owned.writeLocks record holder held, of_decide_eq_true kept⟩
  predicateLocks := by
    intro lock member
    obtain ⟨member, kept⟩ := List.mem_filter.mp member
    exact ⟨owned.predicateLocks lock member, of_decide_eq_true kept⟩
  active := by
    intro other active
    rw [VersionStore.endTransaction, Std.ExtTreeMap.getElem?_erase] at active
    split at active
    next => exact absurd rfl active
    next apart =>
      exact ⟨owned.active other active, fun same =>
        apart (Std.LawfulEqCmp.compare_eq_iff_eq.mpr same.symm)⟩

end OwnedBy

end VersionStore

/-! ## The transaction trait -/

/-- A step of a run, with the methods that take byte keys. -/
inductive Request (Data Bound : Type) where
  | plain (action : Action Data Bound)
  | get (txId : TxId) (key : Bytes)
  | put (txId : TxId) (key value : Bytes)
  | delete (txId : TxId) (key : Bytes)

/-- The record of a key of eight bytes. -/
def recordOfKey (key : Bytes) : Option RecordId :=
  if key.length ≠ 8 then none else some (ofLe key)

/-- What a request passes on to the transaction: nothing for a key of another length or for a value
that is no JSON object. -/
def Request.action (fromSlice : Bytes → Option Data) : Request Data Bound → Option (Action Data Bound)
  | .plain action => some action
  | .get txId key => (recordOfKey key).map fun record => .call txId (.getRecord record)
  | .put txId key value =>
      (recordOfKey key).bind fun record =>
        (fromSlice value).map fun data => .call txId (.putRecord record data)
  | .delete txId key => (recordOfKey key).map fun record => .call txId (.deleteRecord record)

/-- The error of a call. -/
def errorOf {ε α : Type} : Except ε α → Option ε
  | .error failure => some failure
  | .ok _ => none

variable [LE Bound] [DecidableLE Bound]

/-- The error that a call of a transaction returns. -/
def Session.failure (session : Session Data Bound) (store : VersionStore Data Bound) :
    Call Data Bound → Option (TransactionError Bound)
  | .getRecord record => errorOf (session.transaction.getRecord store record)
  | .putRecord record data => errorOf (session.transaction.putRecord store record data)
  | .deleteRecord record => errorOf (session.transaction.deleteRecord store record)
  | .recordRangeRead .. | .recordRangeWrite .. => none
  | .commit => errorOf (session.transaction.doCommit store)
  | .rollback => errorOf (session.transaction.doRollback store)

section

variable {session : Session Data Bound} {store : VersionStore Data Bound}
  {failure : TransactionError Bound}

omit [LE Bound] [DecidableLE Bound] in
theorem tryLock_error {record : RecordId} {txId : TxId}
    (failed : store.tryLock record txId = .error failure) :
    ∃ holder, failure = .writeConflict record holder ∧ store.writeLocks[record]? = some holder := by
  unfold VersionStore.tryLock at failed
  split at failed
  next holder held =>
    split at failed
    · cases failed
      exact ⟨holder, rfl, held⟩
    · cases failed
  next => cases failed

omit [LE Bound] [DecidableLE Bound] in
theorem getRecord_ok {transaction : AmorphicTransaction Data Bound}
    (active : transaction.state = .active) (record : RecordId) :
    ∃ found, transaction.getRecord store record = .ok found := by
  unfold AmorphicTransaction.getRecord
  rw [if_neg (not_not.mpr active)]
  split
  next data _ => exact ⟨some data, rfl⟩
  next => exact ⟨none, rfl⟩
  next => exact ⟨_, rfl⟩

/-- A conflict is with a predicate lock of another transaction. -/
theorem mem_checkConflicts {txId : TxId} {mine other : PredicateLock Bound}
    (conflict : (mine, other) ∈ store.checkConflicts txId) :
    mine ∈ store.predicateLocks ∧ mine.txId = txId ∧ other ∈ store.predicateLocks := by
  obtain ⟨lock, isMine, paired⟩ := List.mem_flatMap.mp conflict
  obtain ⟨lock', isOther, same⟩ := List.mem_map.mp paired
  cases same
  obtain ⟨inLocks, isOwn⟩ := List.mem_filter.mp isMine
  exact ⟨inLocks, of_decide_eq_true isOwn, (List.mem_filter.mp (List.mem_filter.mp isOther).1).1⟩

/-- Without records that it has read, a transaction fails validation for a conflict only. -/
theorem validateSerializable_eq {transaction : AmorphicTransaction Data Bound}
    (nothingRead : transaction.readSet = []) :
    transaction.validateSerializable store =
      match store.checkConflicts transaction.id with
      | (mine, other) :: _ => .error (.predicateLockConflict other.txId mine other)
      | [] => .ok () := by
  rw [AmorphicTransaction.validateSerializable, nothingRead]
  rfl

/-- A call of an active transaction fails for a lock only. -/
theorem Session.failure_cases (active : session.transaction.state = .active)
    (nothingRead : session.transaction.readSet = []) {call : Call Data Bound}
    (failed : failure ∈ session.failure store call) :
    (∃ (record : RecordId) (holder : TxId), failure = .writeConflict record holder ∧
      store.writeLocks[record]? = some holder) ∨
    ∃ mine other, failure = .predicateLockConflict other.txId mine other ∧
      other ∈ store.predicateLocks := by
  obtain ⟨transaction, trace⟩ := session
  dsimp only at active nothingRead
  have isActive : ¬ transaction.state ≠ .active := not_not.mpr active
  have lockFails : ∀ {record : RecordId} {α : Type}
      {next : VersionStore Data Bound → Except (TransactionError Bound) α},
      failure ∈ errorOf (store.tryLock record transaction.id >>= next) →
      (∀ locked, errorOf (next locked) = none) →
      ∃ holder, failure = .writeConflict record holder ∧
        store.writeLocks[record]? = some holder := by
    intro record α next failed succeeds
    cases locked : store.tryLock record transaction.id with
    | error failure' =>
        rw [locked] at failed
        cases failed
        exact tryLock_error locked
    | ok taken =>
        rw [locked] at failed
        change errorOf (next taken) = some failure at failed
        rw [succeeds taken] at failed
        cases failed
  cases call with
  | getRecord record =>
      obtain ⟨found, isFound⟩ := getRecord_ok active record
      rw [Session.failure, isFound] at failed
      cases failed
  | putRecord record data =>
      simp only [Session.failure, AmorphicTransaction.putRecord, if_neg isActive] at failed
      obtain ⟨holder, isConflict, held⟩ := lockFails failed fun _ => rfl
      exact .inl ⟨record, holder, isConflict, held⟩
  | deleteRecord record =>
      obtain ⟨found, isFound⟩ := getRecord_ok active record
      rw [Session.failure, AmorphicTransaction.deleteRecord, if_neg isActive] at failed
      dsimp only at failed
      rw [isFound] at failed
      cases found with
      | none => cases failed
      | some data =>
          obtain ⟨holder, isConflict, held⟩ := lockFails failed fun _ => rfl
          exact .inl ⟨record, holder, isConflict, held⟩
  | recordRangeRead table field min max => cases failed
  | recordRangeWrite table field min max => cases failed
  | commit =>
      simp only [Session.failure, AmorphicTransaction.doCommit, if_neg isActive] at failed
      split at failed
      next failure' invalid =>
        cases failed
        split at invalid
        next =>
          rw [validateSerializable_eq nothingRead] at invalid
          split at invalid
          next mine other _ conflicts =>
            cases invalid
            have conflict : (mine, other) ∈ store.checkConflicts transaction.id := by
              rw [conflicts]
              exact List.mem_cons_self
            exact .inr ⟨mine, other, rfl, (mem_checkConflicts conflict).2.2⟩
          next => cases invalid
        next => cases invalid
      next => cases failed
  | rollback =>
      simp only [Session.failure, AmorphicTransaction.doRollback, if_neg isActive] at failed
      cases failed

end

omit [LE Bound] [DecidableLE Bound] in
/-- The error is due to a transaction.  One that a record was modified does not say by whom. -/
def TransactionError.Blames : TransactionError Bound → TxId → Prop
  | .writeConflict _ holder, txId => holder = txId
  | .predicateLockConflict other _ _, txId => other = txId
  | .recordModified _, _ => True
  | .alreadyCommitted _, _ | .alreadyAborted _, _ => False

namespace World

variable {world : World Data Bound}

def serve (fromSlice : Bytes → Option Data) (world : World Data Bound)
    (request : Request Data Bound) : World Data Bound :=
  match request.action fromSlice with
  | some action => world.step action
  | none => world

omit [LE Bound] [DecidableLE Bound] in
/-- The transaction has begun and its handle has been taken. -/
def Ended (world : World Data Bound) (txId : TxId) : Prop :=
  txId < world.nextTxId ∧ world.sessions[txId]? = none

/-- Transactions that ended left nothing behind.  Every version is one that a commit has written which
succeeded, and no running transaction can fail because of an ended one. -/
structure Clean (world : World Data Bound) : Prop where
  released : ∀ txId, world.Ended txId → world.store.Released txId
  written : ∀ record, ∀ version ∈ world.store.versionsOf record, ∃ commit ∈ world.history,
    commit.commitTs = version.writeTs ∧ commit.writeSet[record]? = some (.put version.data)
  blameless : ∀ txId, world.Ended txId → ∀ (other : TxId) session,
    world.sessions[other]? = some session →
    ∀ call, ∀ failure ∈ session.failure world.store call, ¬ failure.Blames txId

/-- A commit of a serializable transaction finds no conflicting predicate lock. -/
def Unhindered (world : World Data Bound) : Action Data Bound → Prop
  | .call txId .commit => ∀ session ∈ world.sessions[txId]?,
      session.transaction.isolation = .serializable →
        world.store.checkConflicts session.transaction.id = []
  | _ => True

/-- Locks belong to transactions that run, and versions to commits. -/
structure Orderly (world : World Data Bound) : Prop where
  handles : ∀ (txId : TxId) session, world.sessions[txId]? = some session →
    session.transaction.id = txId ∧ session.transaction.state = .active ∧
      session.transaction.readSet = [] ∧ txId < world.nextTxId
  owned : world.store.OwnedBy fun txId => ∃ session, world.sessions[txId]? = some session
  written : ∀ record, ∀ version ∈ world.store.versionsOf record, ∃ commit ∈ world.history,
    commit.commitTs = version.writeTs ∧ commit.writeSet[record]? = some (.put version.data)

/-- An error of a running transaction blames a running one. -/
theorem Orderly.blames (orderly : world.Orderly) {txId : TxId} {session : Session Data Bound}
    (running : world.sessions[txId]? = some session) {call : Call Data Bound}
    {failure : TransactionError Bound} (failed : failure ∈ session.failure world.store call)
    {culprit : TxId} (blames : failure.Blames culprit) :
    ∃ other, world.sessions[culprit]? = some other := by
  obtain ⟨-, active, nothingRead, -⟩ := orderly.handles txId session running
  rcases session.failure_cases active nothingRead failed with
    ⟨record, holder, rfl, held⟩ | ⟨mine, other, rfl, member⟩
  · have same : holder = culprit := blames
    exact same ▸ orderly.owned.writeLocks record holder held
  · have same : other.txId = culprit := blames
    exact same ▸ orderly.owned.predicateLocks other member

theorem Orderly.clean (orderly : world.Orderly) : world.Clean where
  released := fun txId ⟨_, ended⟩ => orderly.owned.released fun ⟨session, running⟩ => by
    rw [ended] at running
    cases running
  written := orderly.written
  blameless := by
    intro txId ⟨_, ended⟩ other session running call failure failed blames
    obtain ⟨culprit, found⟩ := orderly.blames running failed blames
    rw [ended] at found
    cases found

omit [LE Bound] [DecidableLE Bound] in
theorem orderly_new : (new : World Data Bound).Orderly where
  handles := by simp [new]
  owned := ⟨by simp [new, VersionStore.new], by simp [new, VersionStore.new],
    by simp [new, VersionStore.new]⟩
  written := by simp [new, VersionStore.new, VersionStore.versionsOf]

omit [LE Bound] [DecidableLE Bound] in
theorem Orderly.advances (orderly : world.Orderly) {txId : TxId} {session after : Session Data Bound}
    (running : world.sessions[txId]? = some session)
    (kept : after.transaction.id = session.transaction.id ∧
      after.transaction.state = session.transaction.state ∧
      after.transaction.readSet = session.transaction.readSet)
    {store : VersionStore Data Bound}
    (owned : store.OwnedBy fun other => ∃ session, world.sessions[other]? = some session)
    (versions : store.versions = world.store.versions) :
    Orderly { world with store := store, sessions := world.sessions.insert txId after } where
  handles := by
    intro other found runs
    rw [Std.ExtTreeMap.getElem?_insert] at runs
    split at runs
    next same =>
      cases runs
      obtain ⟨isId, active, nothingRead, below⟩ := orderly.handles txId session running
      rw [← Std.LawfulEqCmp.compare_eq_iff_eq.mp same]
      obtain ⟨id, state, readSet⟩ := kept
      exact ⟨id.trans isId, state.trans active, readSet.trans nothingRead, below⟩
    next => exact orderly.handles other found runs
  owned := by
    refine owned.mono fun other ⟨found, runs⟩ => ?_
    dsimp only
    rw [Std.ExtTreeMap.getElem?_insert]
    split
    · exact ⟨after, rfl⟩
    · exact ⟨found, runs⟩
  written := by
    intro record version member
    unfold VersionStore.versionsOf at member
    rw [versions] at member
    exact orderly.written record version member

omit [LE Bound] [DecidableLE Bound] in
/-- A transaction ends and leaves nothing behind. -/
theorem Orderly.ends (orderly : world.Orderly) (txId : TxId) {store : VersionStore Data Bound}
    (owned : store.OwnedBy fun other =>
      (∃ session, world.sessions[other]? = some session) ∧ other ≠ txId)
    {history : List (Commit Data)}
    (written : ∀ record, ∀ version ∈ store.versionsOf record, ∃ commit ∈ history,
      commit.commitTs = version.writeTs ∧ commit.writeSet[record]? = some (.put version.data)) :
    Orderly { world with
      store := store, sessions := world.sessions.erase txId, history := history } where
  handles := by
    intro other found runs
    rw [Std.ExtTreeMap.getElem?_erase] at runs
    split at runs
    · cases runs
    · exact orderly.handles other found runs
  owned := by
    refine owned.mono fun other ⟨⟨found, runs⟩, apart⟩ => ⟨found, ?_⟩
    dsimp only
    rw [Std.ExtTreeMap.getElem?_erase, if_neg]
    · exact runs
    · exact fun same => apart (Std.LawfulEqCmp.compare_eq_iff_eq.mp same).symm
  written := written

omit [LE Bound] [DecidableLE Bound] in
theorem Orderly.stores (orderly : world.Orderly) {store : VersionStore Data Bound}
    (owned : store.OwnedBy fun other => ∃ session, world.sessions[other]? = some session)
    (versions : store.versions = world.store.versions) :
    Orderly { world with store := store } where
  handles := orderly.handles
  owned := owned
  written := by
    intro record version member
    unfold VersionStore.versionsOf at member
    rw [versions] at member
    exact orderly.written record version member

omit [LE Bound] [DecidableLE Bound] in
theorem Orderly.collects (orderly : world.Orderly) :
    Orderly { world with store := world.store.gc } where
  handles := orderly.handles
  owned := orderly.owned.congr rfl rfl rfl
  written := by
    intro record version member
    rw [VersionStore.versionsOf_gc] at member
    exact orderly.written record version ((RecordVersion.sweep_sublist _).subset member)

theorem Orderly.begins (orderly : world.Orderly) (isolation : IsolationLevel) :
    (world.step (.begin isolation)).Orderly where
  handles := by
    intro other found runs
    simp only [step, AmorphicTransaction.new, VersionStore.beginTransaction] at runs ⊢
    rw [Std.ExtTreeMap.getElem?_insert] at runs
    split at runs
    next same =>
      cases runs
      exact ⟨Std.LawfulEqCmp.compare_eq_iff_eq.mp same, rfl, rfl,
        (Std.LawfulEqCmp.compare_eq_iff_eq.mp same) ▸ Nat.lt_succ_self _⟩
    next =>
      obtain ⟨isId, active, nothingRead, below⟩ := orderly.handles other found runs
      exact ⟨isId, active, nothingRead, below.trans (Nat.lt_succ_self _)⟩
  owned := by
    have wider : world.store.OwnedBy fun other =>
        ∃ found, (world.step (.begin isolation)).sessions[other]? = some found := by
      apply orderly.owned.mono
      rintro other ⟨found, runs⟩
      simp only [step, AmorphicTransaction.new]
      rw [Std.ExtTreeMap.getElem?_insert]
      split
      · exact ⟨_, rfl⟩
      · exact ⟨found, runs⟩
    have runs : ∃ found, (world.step (.begin isolation)).sessions[world.nextTxId]? = some found := by
      simp only [step, AmorphicTransaction.new, Std.ExtTreeMap.getElem?_insert_self]
      exact ⟨_, rfl⟩
    exact wider.beginTransaction runs
  written := orderly.written

omit [LE Bound] [DecidableLE Bound] in
/-- A commit that succeeds writes versions at its timestamp and releases the transaction. -/
theorem Orderly.commits (orderly : world.Orderly) {txId : TxId} {session : Session Data Bound}
    (running : world.sessions[txId]? = some session) : (world.committed txId session).Orderly := by
  obtain ⟨isId, -⟩ := orderly.handles txId session running
  refine orderly.ends txId ?_ ?_
  · rw [isId, VersionStore.foldl_applyWrite]
    refine VersionStore.OwnedBy.endTransaction ?_ txId
    exact orderly.owned.congr rfl rfl rfl
  · intro record version member
    have before : ∀ old ∈ world.store.versionsOf record, old.writeTs = version.writeTs →
        old.data = version.data → ∃ commit ∈ (world.committed txId session).history,
          commit.commitTs = version.writeTs ∧
            commit.writeSet[record]? = some (.put version.data) := by
      intro old isOld sameTs sameData
      obtain ⟨commit, inHistory, isWritten⟩ := orderly.written record old isOld
      rw [sameTs, sameData] at isWritten
      exact ⟨commit, List.mem_append_left _ inHistory, isWritten⟩
    change version ∈ VersionStore.versionsOf (session.transaction.writeSet.foldl _ _) record
      at member
    rw [VersionStore.versionsOf_foldl_applyWrite] at member
    split at member
    next data isPut =>
      rcases List.mem_append.mp member with old | isNew
      · exact before version old rfl rfl
      · rw [List.mem_singleton.mp isNew]
        exact ⟨_, List.mem_append_right _ (List.mem_singleton_self _), rfl, isPut⟩
    next =>
      obtain ⟨old, isOld, sameTs, sameData⟩ := RecordVersion.mem_closeLast member
      exact before old isOld sameTs sameData
    next => exact before version member rfl rfl

theorem Orderly.doCommit_eq (orderly : world.Orderly) {txId : TxId} {session : Session Data Bound}
    (running : world.sessions[txId]? = some session)
    (unhindered : world.Unhindered (.call txId .commit)) :
    ∃ store, session.transaction.doCommit world.store = .ok store := by
  obtain ⟨-, active, nothingRead, -⟩ := orderly.handles txId session running
  unfold AmorphicTransaction.doCommit
  rw [if_neg (not_not.mpr active)]
  by_cases serializable : session.transaction.isolation = .serializable
  · rw [if_pos serializable, validateSerializable_eq nothingRead,
      unhindered session running serializable]
    exact ⟨_, rfl⟩
  · rw [if_neg serializable]
    exact ⟨_, rfl⟩

/-- Every step keeps the locks with the running transactions, when commits find no conflict. -/
theorem orderly_step (orderly : world.Orderly) (action : Action Data Bound)
    (unhindered : world.Unhindered action) : (world.step action).Orderly := by
  cases action with
  | begin isolation => exact orderly.begins isolation
  | gc => exact orderly.collects
  | call txId call =>
      cases running : world.sessions[txId]? with
      | none =>
          rw [show world.step (.call txId call) = world by simp [step, running]]
          exact orderly
      | some session =>
          rw [show world.step (.call txId call) = world.call txId session call by
            simp [step, running]]
          obtain ⟨isId, active, nothingRead, -⟩ := orderly.handles txId session running
          have runs : ∃ found, world.sessions[session.transaction.id]? = some found :=
            ⟨session, isId ▸ running⟩
          cases call with
          | getRecord record =>
              simp only [World.call]
              split
              next =>
                refine orderly.advances running ?_ orderly.owned rfl
                exact ⟨rfl, rfl, rfl⟩
              next => exact orderly
          | putRecord record data =>
              simp only [World.call]
              split
              next after store done =>
                obtain ⟨same, rfl⟩ := putRecord_ok done
                refine orderly.advances running ?_ (orderly.owned.putRecord runs done)
                  same.versions
                exact ⟨rfl, rfl, rfl⟩
              next => exact orderly
          | deleteRecord record =>
              simp only [World.call]
              split
              next existed after store done =>
                obtain ⟨same, found, -, -, isAfter⟩ := deleteRecord_ok done
                refine orderly.advances running ?_ (orderly.owned.deleteRecord runs done)
                  same.versions
                rw [isAfter]
                exact ⟨rfl, rfl, rfl⟩
              next => exact orderly
          | recordRangeRead table field min max =>
              simp only [World.call, AmorphicTransaction.recordRangeRead]
              split
              next =>
                refine orderly.advances running ?_ (orderly.owned.recordLock ?_) rfl
                · exact ⟨rfl, rfl, rfl⟩
                · exact runs
              next =>
                refine orderly.advances running ?_ orderly.owned rfl
                exact ⟨rfl, rfl, rfl⟩
          | recordRangeWrite table field min max =>
              simp only [World.call, AmorphicTransaction.recordRangeWrite]
              split
              next =>
                refine orderly.stores (orderly.owned.recordLock ?_) rfl
                exact runs
              next => exact orderly
          | commit =>
              obtain ⟨store, done⟩ := orderly.doCommit_eq running unhindered
              have result := (doCommit_ok done).2
              have commits := orderly.commits running
              rw [committed, ← result] at commits
              have current : store.currentTs = world.store.currentTs + 1 := by
                rw [result, VersionStore.foldl_applyWrite]
                rfl
              simp only [World.call, done, current]
              exact commits
          | rollback =>
              simp only [World.call, AmorphicTransaction.doRollback, if_neg (not_not.mpr active),
                isId]
              exact orderly.ends txId (orderly.owned.endTransaction txId) orderly.written

/-- A commit that finds a conflict leaves the lock behind with which it conflicts. -/
theorem Orderly.unhindered_of_clean (orderly : world.Orderly) {action : Action Data Bound}
    (clean : (world.step action).Clean) : world.Unhindered action := by
  unfold Unhindered
  split
  next txId =>
    intro session running serializable
    have running : world.sessions[txId]? = some session := running
    obtain ⟨isId, active, nothingRead, below⟩ := orderly.handles txId session running
    cases conflicts : world.store.checkConflicts session.transaction.id with
    | nil => rfl
    | cons conflict further =>
        obtain ⟨mine, other⟩ := conflict
        have failed : session.transaction.doCommit world.store =
            .error (.predicateLockConflict other.txId mine other) := by
          unfold AmorphicTransaction.doCommit
          rw [if_neg (not_not.mpr active), if_pos serializable, validateSerializable_eq nothingRead,
            conflicts]
        have after : world.step (.call txId .commit) =
            { world with sessions := world.sessions.erase txId } := by
          simp only [step, running, World.call, failed]
        have ended : (world.step (.call txId .commit)).Ended txId := by
          rw [after]
          exact ⟨below, Std.ExtTreeMap.getElem?_erase_self⟩
        have released := clean.released txId ended
        rw [after] at released
        have conflict : (mine, other) ∈ world.store.checkConflicts session.transaction.id := by
          rw [conflicts]
          exact List.mem_cons_self
        obtain ⟨held, isOwn, -⟩ := mem_checkConflicts conflict
        exact absurd (isOwn.trans isId) (released.predicateLocks mine held)
  next => trivial

/-- The request passes on no commit that finds a conflict. -/
def UnhinderedRequest (fromSlice : Bytes → Option Data) (world : World Data Bound)
    (request : Request Data Bound) : Prop :=
  ∀ action ∈ request.action fromSlice, world.Unhindered action

theorem orderly_serve (fromSlice : Bytes → Option Data) (orderly : world.Orderly)
    (request : Request Data Bound) (unhindered : world.UnhinderedRequest fromSlice request) :
    (world.serve fromSlice request).Orderly := by
  unfold serve
  split
  next action isAction => exact orderly_step orderly action (unhindered action isAction)
  next => exact orderly

/-- Ended transactions leave nothing behind in a run exactly when no commit of the run finds a
conflict. -/
theorem clean_iff_unhindered (fromSlice : Bytes → Option Data)
    (requests : List (Request Data Bound)) :
    AllMeet (serve fromSlice) (fun world request => (world.serve fromSlice request).Clean) new
      requests ↔
    AllMeet (serve fromSlice) (UnhinderedRequest fromSlice) (new : World Data Bound) requests := by
  refine (AllMeet.congr (motive := Orderly) ?_ ?_ orderly_new requests).symm
  · intro world request orderly
    constructor
    · exact fun unhindered => (orderly_serve fromSlice orderly request unhindered).clean
    · intro clean action isAction
      have isAction : request.action fromSlice = some action := isAction
      rw [serve, isAction] at clean
      exact orderly.unhindered_of_clean clean
  · exact fun world request orderly unhindered =>
      orderly_serve fromSlice orderly request unhindered

/-- A transaction writes in a range that another one reads, and its commit fails. -/
def failedRun : List (Request Nat Nat) :=
  [.plain (.begin .serializable), .plain (.begin .serializable),
    .plain (.call 1 (.recordRangeRead "people" "age" 0 10)),
    .plain (.call 2 (.recordRangeWrite "people" "age" 5 6)), .plain (.call 2 .commit)]

/-- The transaction whose commit failed keeps its predicate lock, for which the other one fails. -/
theorem not_clean_failedRun :
    ¬ AllMeet (serve fun _ => none) (fun world request => (world.serve (fun _ => none) request).Clean)
      new failedRun := by
  intro meets
  obtain ⟨-, -, -, -, clean, -⟩ := meets
  have released := clean.released 2 ⟨by decide, by decide⟩
  exact released.predicateLocks ⟨"people", "age", 5, 6, 2, .write, 1⟩ (.tail _ (.head _)) rfl

end World

end JouleDB.Amorphic
