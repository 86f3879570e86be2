import JouleDB.Amorphic.VersionStore

/-!
# Amorphic transactions

A transaction reads at the timestamp of its begin and buffers its writes.  A world is the version
store with the transactions whose handles are in use; its runs are made of whole calls.  Beside the
state of the program a world keeps what happened: the reads and writes of each transaction, and the
commits in their order.
-/

namespace JouleDB.Amorphic

variable {Data Bound : Type}

/-- Isolation level. -/
inductive IsolationLevel where
  | readUncommitted
  | readCommitted
  | repeatableRead
  | serializable
  | snapshot
  deriving DecidableEq

/-- Transaction state. -/
inductive TxState where
  | active
  | committed
  | aborted
  deriving DecidableEq

/-- A transaction. -/
structure AmorphicTransaction (Data Bound : Type) where
  id : TxId
  isolation : IsolationLevel
  readTs : Timestamp
  state : TxState
  writeSet : FiniteMap RecordId (WriteOp Data)
  readSet : List RecordId
  rangeReads : List (String × String × Bound × Bound)

namespace AmorphicTransaction

/-- A new transaction. -/
def new (store : VersionStore Data Bound) (id : TxId) (isolation : IsolationLevel) :
    AmorphicTransaction Data Bound × VersionStore Data Bound :=
  let (readTs, store) := store.beginTransaction id
  (⟨id, isolation, readTs, .active, ∅, [], []⟩, store)

/-- Declare that a range is read. -/
def recordRangeRead (transaction : AmorphicTransaction Data Bound) (store : VersionStore Data Bound)
    (table field : String) (min max : Bound) :
    AmorphicTransaction Data Bound × VersionStore Data Bound :=
  if transaction.isolation = .serializable then
    ({ transaction with rangeReads := transaction.rangeReads ++ [(table, field, min, max)] },
      store.recordLock ⟨table, field, min, max, transaction.id, .read, transaction.readTs⟩)
  else (transaction, store)

/-- Declare that a range is written. -/
def recordRangeWrite (transaction : AmorphicTransaction Data Bound)
    (store : VersionStore Data Bound) (table field : String) (min max : Bound) :
    VersionStore Data Bound :=
  if transaction.isolation = .serializable then
    store.recordLock ⟨table, field, min, max, transaction.id, .write, store.currentTs⟩
  else store

/-- Read a record: from the own writes first.  The read is not remembered. -/
def getRecord (transaction : AmorphicTransaction Data Bound) (store : VersionStore Data Bound)
    (record : RecordId) : Except (TransactionError Bound) (Option Data) :=
  if transaction.state ≠ .active then .error (.alreadyAborted transaction.id)
  else
    match transaction.writeSet[record]? with
    | some (.put data) => .ok (some data)
    | some .delete => .ok none
    | none =>
        .ok ((store.getVersionAt record transaction.readTs (some transaction.id)).map
          RecordVersion.data)

/-- Buffer a write of a record. -/
def putRecord (transaction : AmorphicTransaction Data Bound) (store : VersionStore Data Bound)
    (record : RecordId) (data : Data) :
    Except (TransactionError Bound) (AmorphicTransaction Data Bound × VersionStore Data Bound) := do
  if transaction.state ≠ .active then throw (.alreadyAborted transaction.id)
  let store ← store.tryLock record transaction.id
  return ({ transaction with writeSet := transaction.writeSet.insert record (.put data) }, store)

/-- Buffer the deletion of a record that exists. -/
def deleteRecord (transaction : AmorphicTransaction Data Bound) (store : VersionStore Data Bound)
    (record : RecordId) :
    Except (TransactionError Bound)
      (Bool × AmorphicTransaction Data Bound × VersionStore Data Bound) := do
  if transaction.state ≠ .active then throw (.alreadyAborted transaction.id)
  let found ← transaction.getRecord store record
  if found.isSome then
    let store ← store.tryLock record transaction.id
    let writeSet := transaction.writeSet.insert record .delete
    return (true, { transaction with writeSet := writeSet }, store)
  else return (false, transaction, store)

variable [LE Bound] [DecidableLE Bound]

/-- A record of the read set was written after the transaction began. -/
def modified (transaction : AmorphicTransaction Data Bound) (store : VersionStore Data Bound)
    (record : RecordId) : Bool :=
  (store.getVersionAt record store.currentTs none).any fun version =>
    transaction.readTs < version.writeTs && version.createdBy = none

/-- Validate a serializable transaction. -/
def validateSerializable (transaction : AmorphicTransaction Data Bound)
    (store : VersionStore Data Bound) : Except (TransactionError Bound) Unit :=
  match transaction.readSet.find? (transaction.modified store) with
  | some record => .error (.recordModified record)
  | none =>
      match store.checkConflicts transaction.id with
      | (mine, other) :: _ => .error (.predicateLockConflict other.txId mine other)
      | [] => .ok ()

/-- Commit: validate, take a timestamp, apply the writes, release the locks. -/
def doCommit (transaction : AmorphicTransaction Data Bound) (store : VersionStore Data Bound) :
    Except (TransactionError Bound) (VersionStore Data Bound) :=
  if transaction.state ≠ .active then .error (.alreadyCommitted transaction.id)
  else
    let validated :=
      if transaction.isolation = .serializable then transaction.validateSerializable store
      else .ok ()
    match validated with
    | .error failure => .error failure
    | .ok () =>
        let commitTs := store.currentTs + 1
        let written := transaction.writeSet.foldl (VersionStore.applyWrite commitTs)
          { store with currentTs := commitTs }
        .ok (written.endTransaction transaction.id)

/-- Roll back: release the locks. -/
def doRollback (transaction : AmorphicTransaction Data Bound) (store : VersionStore Data Bound) :
    Except (TransactionError Bound) (VersionStore Data Bound) :=
  if transaction.state ≠ .active then .error (.alreadyAborted transaction.id)
  else .ok (store.endTransaction transaction.id)

end AmorphicTransaction

/-- A read or write that a transaction made, with its result. -/
inductive Event (Data : Type) where
  | get (record : RecordId) (result : Option Data)
  | put (record : RecordId) (data : Data)
  | delete (record : RecordId) (existed : Bool)

/-- The record that was read or written. -/
def Event.record : Event Data → RecordId
  | .get record _ => record
  | .put record _ => record
  | .delete record _ => record

/-- A transaction whose handle is in use, with what it has done. -/
structure Session (Data Bound : Type) where
  transaction : AmorphicTransaction Data Bound
  trace : List (Event Data)

/-- A transaction that has committed. -/
structure Commit (Data : Type) where
  id : TxId
  isolation : IsolationLevel
  readTs : Timestamp
  commitTs : Timestamp
  writeSet : FiniteMap RecordId (WriteOp Data)
  trace : List (Event Data)

/-- The version store, its transactions, and the commits in their order. -/
structure World (Data Bound : Type) where
  store : VersionStore Data Bound
  nextTxId : TxId
  sessions : FiniteMap TxId (Session Data Bound)
  history : List (Commit Data)

/-- A call of a transaction. -/
inductive Call (Data Bound : Type) where
  | getRecord (record : RecordId)
  | putRecord (record : RecordId) (data : Data)
  | deleteRecord (record : RecordId)
  | recordRangeRead (table field : String) (min max : Bound)
  | recordRangeWrite (table field : String) (min max : Bound)
  | commit
  | rollback

/-- A step of a run. -/
inductive Action (Data Bound : Type) where
  | begin (isolation : IsolationLevel)
  | call (txId : TxId) (call : Call Data Bound)
  | gc

namespace World

/-- A world without transactions. -/
def new : World Data Bound := ⟨.new, 1, ∅, []⟩

variable [LE Bound] [DecidableLE Bound]

/-- The effect of a call of a transaction. -/
def call (world : World Data Bound) (txId : TxId) (session : Session Data Bound) :
    Call Data Bound → World Data Bound
  | .getRecord record =>
      match session.transaction.getRecord world.store record with
      | .ok result =>
          let trace := session.trace ++ [.get record result]
          { world with sessions := world.sessions.insert txId ⟨session.transaction, trace⟩ }
      | .error _ => world
  | .putRecord record data =>
      match session.transaction.putRecord world.store record data with
      | .ok (transaction, store) =>
          let trace := session.trace ++ [.put record data]
          { world with
            store := store
            sessions := world.sessions.insert txId ⟨transaction, trace⟩ }
      | .error _ => world
  | .deleteRecord record =>
      match session.transaction.deleteRecord world.store record with
      | .ok (existed, transaction, store) =>
          let trace := session.trace ++ [.delete record existed]
          { world with
            store := store
            sessions := world.sessions.insert txId ⟨transaction, trace⟩ }
      | .error _ => world
  | .recordRangeRead table field min max =>
      let (transaction, store) :=
        session.transaction.recordRangeRead world.store table field min max
      { world with
        store := store
        sessions := world.sessions.insert txId ⟨transaction, session.trace⟩ }
  | .recordRangeWrite table field min max =>
      { world with store := session.transaction.recordRangeWrite world.store table field min max }
  | .commit =>
      -- The call takes the handle, whether it succeeds or not; a commit that fails releases nothing.
      match session.transaction.doCommit world.store with
      | .ok store =>
          { world with
            store := store
            sessions := world.sessions.erase txId
            history := world.history ++
              [⟨session.transaction.id, session.transaction.isolation, session.transaction.readTs,
                store.currentTs, session.transaction.writeSet, session.trace⟩] }
      | .error _ => { world with sessions := world.sessions.erase txId }
  | .rollback =>
      match session.transaction.doRollback world.store with
      | .ok store => { world with store := store, sessions := world.sessions.erase txId }
      | .error _ => { world with sessions := world.sessions.erase txId }

/-- The world after a step.  A call needs the handle of a transaction that is in use. -/
def step (world : World Data Bound) : Action Data Bound → World Data Bound
  | .begin isolation =>
      let (transaction, store) := AmorphicTransaction.new world.store world.nextTxId isolation
      { world with
        store := store
        nextTxId := world.nextTxId + 1
        sessions := world.sessions.insert world.nextTxId ⟨transaction, []⟩ }
  | .call txId call =>
      match world.sessions[txId]? with
      | some session => world.call txId session call
      | none => world
  | .gc => { world with store := world.store.gc }

end World

end JouleDB.Amorphic
