import JouleDB.TwoPhase.Types

/-!
# A transaction participant

The handlers of a participant run in sections as those of the coordinator do.  The storage below is
a parameter; beside it the participant keeps the calls that it has made on it.
-/

namespace JouleDB.TwoPhase

/-- Errors of a storage. -/
abbrev StorageError := String

/-- The storage of a participant. -/
structure ParticipantStorage (σ : Type) where
  prepare : σ → List TransactionOperation → Except StorageError LogSequenceNumber × σ
  commit : σ → LogSequenceNumber → Except StorageError Unit × σ
  rollback : σ → LogSequenceNumber → Except StorageError Unit × σ

/-- A call that was made on the storage for a transaction, with the storage as it was before. -/
inductive StorageCall (σ : Type) where
  | prepare (id : TransactionId) (before : σ)
  | commit (id : TransactionId) (lsn : LogSequenceNumber) (before : σ)
  | rollback (id : TransactionId) (lsn : LogSequenceNumber) (before : σ)

namespace StorageCall

variable {σ : Type} {id : TransactionId} {call : StorageCall σ}

/-- The call commits a transaction. -/
def isCommit (id : TransactionId) : StorageCall σ → Bool
  | .commit other _ _ => other = id
  | _ => false

/-- The call rolls a transaction back. -/
def isRollback (id : TransactionId) : StorageCall σ → Bool
  | .rollback other _ _ => other = id
  | _ => false

theorem isCommit_iff : call.isCommit id ↔ ∃ lsn before, call = .commit id lsn before := by
  cases call with
  | commit other lsn before => simp [isCommit]
  | _ => simp [isCommit]

theorem isRollback_iff : call.isRollback id ↔ ∃ lsn before, call = .rollback id lsn before := by
  cases call with
  | rollback other lsn before => simp [isRollback]
  | _ => simp [isRollback]

end StorageCall

/-- What a participant knows of a transaction. -/
structure ParticipantTransaction where
  state : TransactionState
  coordinatorId : ParticipantId
  operations : List TransactionOperation
  preparedLsn : Option LogSequenceNumber
  vote : Option Vote

namespace ParticipantTransaction

def new (coordinatorId : ParticipantId) (operations : List TransactionOperation) :
    ParticipantTransaction :=
  ⟨.started, coordinatorId, operations, none, none⟩

end ParticipantTransaction

/-- A participant. -/
structure Participant (σ : Type) where
  nodeId : ParticipantId
  transactions : FiniteMap TransactionId ParticipantTransaction
  recoveryLog : RecoveryLog
  storage : σ
  calls : List (StorageCall σ)

/-- A handler of a participant, by the section that it runs next. -/
inductive ParticipantTask where
  /-- `handle_prepare`: log. -/
  | prepareLog (id : TransactionId) (coordinator : ParticipantId)
      (operations : List TransactionOperation)
  /-- `handle_prepare`: enter the transaction into the table and prepare the storage. -/
  | prepareInsert (id : TransactionId) (coordinator : ParticipantId)
      (operations : List TransactionOperation)
  /-- `handle_prepare`: note the vote. -/
  | prepareUpdate (id : TransactionId) (coordinator : ParticipantId) (vote : Vote)
      (lsn : Option LogSequenceNumber)
  /-- `handle_prepare`: log the vote. -/
  | voteLog (id : TransactionId) (coordinator : ParticipantId) (vote : Vote)
      (lsn : Option LogSequenceNumber)
  /-- `handle_prepare`: send the vote. -/
  | voteSend (id : TransactionId) (coordinator : ParticipantId) (vote : Vote)
      (lsn : Option LogSequenceNumber)
  /-- `handle_commit`: log. -/
  | commitLog (id : TransactionId) (coordinator : ParticipantId)
  /-- `handle_commit`: change the state and commit in the storage. -/
  | commitApply (id : TransactionId) (coordinator : ParticipantId)
  /-- `handle_commit`: log that the operations were applied. -/
  | appliedLog (id : TransactionId) (coordinator : ParticipantId)
  /-- `handle_commit`: change the state. -/
  | commitUpdate (id : TransactionId) (coordinator : ParticipantId) (success : Bool)
  /-- `handle_abort`: log. -/
  | abortLog (id : TransactionId) (coordinator : ParticipantId)
  /-- `handle_abort`: change the state and roll back in the storage. -/
  | abortApply (id : TransactionId) (coordinator : ParticipantId)
  /-- `handle_abort`: change the state. -/
  | abortUpdate (id : TransactionId) (coordinator : ParticipantId) (success : Bool)
  /-- `handle_commit`, `handle_abort`: acknowledge. -/
  | ackSend (id : TransactionId) (coordinator : ParticipantId) (success : Bool)
      (error : Option String)
  /-- `check_timeouts`: look for transactions that have waited too long for a decision. -/
  | timeoutScan
  /-- `check_timeouts`, `recover`: ask the coordinators. -/
  | querySend (queries : List (TransactionId × ParticipantId))
  deriving DecidableEq

namespace Participant

variable {σ : Type} (storage : ParticipantStorage σ) (participant : Participant σ)

/-- A participant without transactions. -/
def new (nodeId : ParticipantId) (data : σ) : Participant σ := ⟨nodeId, ∅, [], data, []⟩

/-- Append to the recovery log. -/
def log (id : TransactionId) (record : RecoveryLogRecordType) : Participant σ :=
  { participant with recoveryLog := participant.recoveryLog.append id record }

/-- Put a transaction into the table. -/
def put (id : TransactionId) (transaction : ParticipantTransaction) : Participant σ :=
  { participant with transactions := participant.transactions.insert id transaction }

/-- Change the state of a transaction that is in the table. -/
def setState (id : TransactionId) (state : TransactionState) : Participant σ :=
  match participant.transactions[id]? with
  | some transaction => participant.put id { transaction with state := state }
  | none => participant

/-- Prepare operations; a failure is a vote to abort. -/
def storagePrepare (id : TransactionId) (operations : List TransactionOperation) :
    Vote × Option LogSequenceNumber × Participant σ :=
  let (result, data) := storage.prepare participant.storage operations
  let participant := { participant with
    storage := data, calls := participant.calls ++ [.prepare id participant.storage] }
  match result with
  | .ok lsn => (.commit, some lsn, participant)
  | .error _ => (.abort, none, participant)

/-- Commit what was prepared; nothing happens without a prepared log sequence number. -/
def storageCommit (id : TransactionId) (lsn : Option LogSequenceNumber) : Bool × Participant σ :=
  match lsn with
  | none => (false, participant)
  | some lsn =>
      let (result, data) := storage.commit participant.storage lsn
      (result.isOk, { participant with
        storage := data, calls := participant.calls ++ [.commit id lsn participant.storage] })

/-- Roll back what was prepared, if anything was. -/
def storageRollback (id : TransactionId) (lsn : Option LogSequenceNumber) :
    Bool × Participant σ :=
  match lsn with
  | none => (true, participant)
  | some lsn =>
      let (result, data) := storage.rollback participant.storage lsn
      (result.isOk, { participant with
        storage := data, calls := participant.calls ++ [.rollback id lsn participant.storage] })

/-- The transactions that have waited too long for a decision, with their coordinators. -/
def uncertain (expired : List TransactionId) : List (TransactionId × ParticipantId) :=
  expired.filterMap fun id =>
    match participant.transactions[id]? with
    | some transaction =>
        if transaction.state = .prepared then some (id, transaction.coordinatorId) else none
    | none => none

/-- Run one section of a task: the participant after it, the messages sent, and the task that is
left. -/
def runSection (expired : List TransactionId) :
    ParticipantTask → Participant σ × List Envelope × Option ParticipantTask
  | .prepareLog id coordinator operations =>
      (participant.log id (.prepareReceived coordinator), [],
        some (.prepareInsert id coordinator operations))
  | .prepareInsert id coordinator operations =>
      let inserted := participant.put id (.new coordinator operations)
      let (vote, lsn, prepared) := inserted.storagePrepare storage id operations
      (prepared, [], some (.prepareUpdate id coordinator vote lsn))
  | .prepareUpdate id coordinator vote lsn =>
      (match participant.transactions[id]? with
        | some transaction =>
            participant.put id
              { transaction with state := .prepared, vote := some vote, preparedLsn := lsn }
        | none => participant, [],
        some (.voteLog id coordinator vote lsn))
  | .voteLog id coordinator vote lsn =>
      (participant.log id (.voteSent vote), [], some (.voteSend id coordinator vote lsn))
  | .voteSend id coordinator vote lsn =>
      (participant, [(coordinator, .vote id participant.nodeId vote lsn)], none)
  | .commitLog id coordinator =>
      (participant.log id (.decisionReceived true), [], some (.commitApply id coordinator))
  | .commitApply id coordinator =>
      match participant.transactions[id]? with
      | none => (participant, [], none)
      | some transaction =>
          let changed := participant.put id { transaction with state := .committing }
          let (success, committed) := changed.storageCommit storage id transaction.preparedLsn
          (committed, [],
            some (if success then .appliedLog id coordinator
              else .commitUpdate id coordinator false))
  | .appliedLog id coordinator =>
      (participant.log id .applied, [], some (.commitUpdate id coordinator true))
  | .commitUpdate id coordinator success =>
      (participant.setState id .committed, [],
        some (.ackSend id coordinator success (if success then none else some "Commit failed")))
  | .abortLog id coordinator =>
      (participant.log id (.decisionReceived false), [], some (.abortApply id coordinator))
  | .abortApply id coordinator =>
      match participant.transactions[id]? with
      | none => (participant, [], some (.abortUpdate id coordinator true))
      | some transaction =>
          let changed := participant.put id { transaction with state := .aborting }
          let (success, rolledBack) := changed.storageRollback storage id transaction.preparedLsn
          (rolledBack, [], some (.abortUpdate id coordinator success))
  | .abortUpdate id coordinator success =>
      (participant.setState id .aborted, [],
        some (.ackSend id coordinator success (if success then none else some "Rollback failed")))
  | .ackSend id coordinator success error =>
      (participant, [(coordinator, .ack id participant.nodeId success error)], none)
  | .timeoutScan => (participant, [], some (.querySend (participant.uncertain expired)))
  | .querySend [] => (participant, [], none)
  | .querySend ((id, coordinator) :: queries) =>
      (participant, [(coordinator, .queryStatus id participant.nodeId)],
        some (.querySend queries))

/-- The task that a message starts. -/
def handle : TwoPhaseMessage → Option ParticipantTask
  | .prepare id coordinator _ operations _ => some (.prepareLog id coordinator operations)
  | .commit id coordinator _ => some (.commitLog id coordinator)
  | .abort id coordinator _ => some (.abortLog id coordinator)
  | .statusResponse id state responder =>
      match state with
      | .committed => some (.commitLog id responder)
      | .aborted | .unknown => some (.abortLog id responder)
      | _ => none
  | _ => none

end Participant

/-- The storage for tests: prepared operations are kept in memory and applied by a commit. -/
structure InMemoryStorage where
  data : FiniteMap Bytes Bytes
  prepared : FiniteMap LogSequenceNumber (List TransactionOperation)
  nextLsn : LogSequenceNumber

namespace InMemoryStorage

def new : InMemoryStorage := ⟨∅, ∅, 1⟩

/-- Apply an operation; the expected value of a conditional put is not looked at. -/
def apply (data : FiniteMap Bytes Bytes) : TransactionOperation → FiniteMap Bytes Bytes
  | .put key value => data.insert key value
  | .delete key => data.erase key
  | .conditionalPut key _ newValue => data.insert key newValue

def prepare (storage : InMemoryStorage) (operations : List TransactionOperation) :
    Except StorageError LogSequenceNumber × InMemoryStorage :=
  (.ok storage.nextLsn,
    { storage with
      nextLsn := storage.nextLsn + 1
      prepared := storage.prepared.insert storage.nextLsn operations })

def commit (storage : InMemoryStorage) (lsn : LogSequenceNumber) :
    Except StorageError Unit × InMemoryStorage :=
  match storage.prepared[lsn]? with
  | some operations =>
      (.ok (), { storage with
        prepared := storage.prepared.erase lsn
        data := operations.foldl apply storage.data })
  | none => (.ok (), storage)

def rollback (storage : InMemoryStorage) (lsn : LogSequenceNumber) :
    Except StorageError Unit × InMemoryStorage :=
  (.ok (), { storage with prepared := storage.prepared.erase lsn })

/-- The storage as participants use it. -/
def storage : ParticipantStorage InMemoryStorage := ⟨prepare, commit, rollback⟩

end InMemoryStorage

end JouleDB.TwoPhase
