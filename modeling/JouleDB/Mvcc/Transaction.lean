import JouleDB.Mvcc.Store

/-!
# Transactions

A transaction reads at the timestamp of its begin, keeps its writes and leaves uncommitted
versions of them in the store.  A world is the store with its transactions; its runs are
made of whole calls.
-/

namespace JouleDB.Mvcc

/-- Transaction state. -/
inductive TxState where
  | active
  | committed
  | aborted
  deriving DecidableEq, Repr

/-- Errors of transactions. -/
inductive TransactionError where
  | alreadyCommitted (txId : TxId)
  | alreadyAborted (txId : TxId)
  | writeConflict (key : Bytes) (holderTxId : TxId)
  | serializationFailure (reason : String)
  deriving DecidableEq, Repr

/-- A transaction. -/
structure MvccTransaction where
  id : TxId
  readTs : Nat
  commitTs : Option Nat
  state : TxState
  readSet : List (Bytes × Nat)
  writeSet : List (Bytes × Option Bytes)

namespace MvccTransaction

/-- A new transaction. -/
def new (ts : Nat) : MvccTransaction := ⟨ts, ts, none, .active, [], []⟩

/-- Read a value: from the own writes first. -/
def get (txn : MvccTransaction) (store : MvccStore) (key : Bytes) :
    Except TransactionError (Option Bytes) × MvccTransaction :=
  if txn.state ≠ .active then
    (.error (.alreadyAborted txn.id), txn)
  else
    match txn.writeSet.lookup key with
    | some value => (.ok value, txn)
    | none =>
        match store.read key txn.readTs txn.id with
        | (value, some versionTs) =>
            (.ok value, { txn with readSet := upsert txn.readSet key versionTs })
        | (value, none) => (.ok value, txn)

/-- Write an uncommitted version and remember it, unless another transaction holds the key. -/
def write (txn : MvccTransaction) (store : MvccStore) (key : Bytes) (value : Option Bytes) :
    Except TransactionError Unit × MvccTransaction × MvccStore :=
  match store.checkWriteConflictDetailed key txn.id with
  | some holder => (.error (.writeConflict key holder), { txn with state := .aborted }, store)
  | none =>
      let (store, gcIsDue) := store.writeIntent key value txn.readTs txn.id
      (.ok (), { txn with writeSet := upsert txn.writeSet key value },
        if gcIsDue then store.runGc else store)

/-- Write a value. -/
def put (txn : MvccTransaction) (store : MvccStore) (key value : Bytes) :
    Except TransactionError Unit × MvccTransaction × MvccStore :=
  if txn.state ≠ .active then
    (.error (.alreadyAborted txn.id), txn, store)
  else
    txn.write store key (some value)

/-- Delete a key; returns whether it was there. -/
def delete (txn : MvccTransaction) (store : MvccStore) (key : Bytes) :
    Except TransactionError Bool × MvccTransaction × MvccStore :=
  if txn.state ≠ .active then
    (.error (.alreadyAborted txn.id), txn, store)
  else
    match txn.get store key with
    | (.error error, txn) => (.error error, txn, store)
    | (.ok found, txn) =>
        match txn.write store key none with
        | (.error error, txn, store) => (.error error, txn, store)
        | (.ok _, txn, store) => (.ok found.isSome, txn, store)

/-- Scan all keys that start with some bytes; own writes are laid over the store. -/
def scanPrefix (txn : MvccTransaction) (store : MvccStore) (stem : Bytes) :
    Except TransactionError (List (Bytes × Bytes)) :=
  if txn.state ≠ .active then
    .error (.alreadyAborted txn.id)
  else
    let visible := store.scanPrefix stem txn.readTs txn.id
    let own := txn.writeSet.filter fun entry => stem.isPrefixOf entry.1
    .ok ((upsertAll visible own).filterMap fun entry => entry.2.map fun data => (entry.1, data))

/-- No key that is written was committed by another transaction after the read timestamp. -/
def validate (txn : MvccTransaction) (store : MvccStore) : Bool :=
  txn.writeSet.all fun entry =>
    match store.getLatestCommittedTs entry.1 with
    | some latestTs => latestTs ≤ txn.readTs
    | none => true

/-- The keys that were written. -/
def keys (txn : MvccTransaction) : List Bytes := txn.writeSet.map Prod.fst

/-- Commit the transaction.  The commit timestamp is the next one of the oracle. -/
def commit (txn : MvccTransaction) (store : MvccStore) (oracle : Nat) :
    Except TransactionError Unit × MvccTransaction × MvccStore × Nat :=
  if txn.state ≠ .active then
    (.error (.alreadyCommitted txn.id), txn, store, oracle)
  else if !txn.validate store then
    (.error (.serializationFailure "write-write conflict detected"),
      { txn with state := .aborted },
      (store.unregisterActive txn.id).abortTransactionKeys txn.id txn.keys, oracle)
  else
    (.ok (), { txn with commitTs := some oracle, state := .committed },
      (store.commitTransactionWithTsKeys txn.id oracle txn.keys).unregisterActive txn.id,
      oracle + 1)

/-- Roll the transaction back. -/
def rollback (txn : MvccTransaction) (store : MvccStore) :
    Except TransactionError Unit × MvccTransaction × MvccStore :=
  if txn.state ≠ .active then
    (.error (.alreadyAborted txn.id), txn, store)
  else
    (.ok (), { txn with state := .aborted },
      (store.abortTransactionKeys txn.id txn.keys).unregisterActive txn.id)

end MvccTransaction

/-! ## Runs of whole calls -/

/-- The timestamp oracle, the store, and every transaction that was begun. -/
structure World where
  oracle : Nat
  store : MvccStore
  txns : List (TxId × MvccTransaction)

/-- A call of a transaction, or something else that happens to the store. -/
inductive Call where
  | begin
  | get (txId : TxId) (key : Bytes)
  | put (txId : TxId) (key value : Bytes)
  | delete (txId : TxId) (key : Bytes)
  | scanPrefix (txId : TxId) (stem : Bytes)
  | commit (txId : TxId)
  | rollback (txId : TxId)
  | gc
  /-- A timestamp is drawn for another purpose. -/
  | tick

/-- What a call returns. -/
inductive Reply where
  | began (txId : TxId)
  | value (result : Except TransactionError (Option Bytes))
  | done (result : Except TransactionError Unit)
  | existed (result : Except TransactionError Bool)
  | pairs (result : Except TransactionError (List (Bytes × Bytes)))
  | nothing

/-- The call reports a write conflict with the transaction. -/
def Reply.NamesHolder (txId : TxId) : Reply → Prop
  | .done (.error (.writeConflict _ holder)) | .existed (.error (.writeConflict _ holder)) =>
      holder = txId
  | _ => False

namespace World

/-- A new store; the oracle is shared by all stores and starts at 1. -/
def new (gcThreshold drawn : Nat) : World := ⟨drawn + 1, MvccStore.withGcThreshold gcThreshold, []⟩

/-- A begun transaction. -/
def txn (world : World) (txId : TxId) : Option MvccTransaction := world.txns.lookup txId

/-- Replace a transaction and the store. -/
def record (world : World) (txn : MvccTransaction) (store : MvccStore) : World :=
  { world with store := store, txns := upsert world.txns txn.id txn }

/-- Make a call on a transaction; a transaction that was not begun has no calls. -/
def onTxn (world : World) (txId : TxId) (call : MvccTransaction → Reply × World) : Reply × World :=
  match world.txn txId with
  | some txn => call txn
  | none => (.nothing, world)

/-- Make a call. -/
def step (world : World) : Call → Reply × World
  | .begin =>
      (.began world.oracle,
        { oracle := world.oracle + 1
          store := world.store.registerActive world.oracle
          txns := upsert world.txns world.oracle (.new world.oracle) })
  | .get txId key => world.onTxn txId fun txn =>
      let (result, txn) := txn.get world.store key
      (.value result, world.record txn world.store)
  | .put txId key value => world.onTxn txId fun txn =>
      let (result, txn, store) := txn.put world.store key value
      (.done result, world.record txn store)
  | .delete txId key => world.onTxn txId fun txn =>
      let (result, txn, store) := txn.delete world.store key
      (.existed result, world.record txn store)
  | .scanPrefix txId stem => world.onTxn txId fun txn =>
      (.pairs (txn.scanPrefix world.store stem), world)
  | .commit txId => world.onTxn txId fun txn =>
      let (result, txn, store, oracle) := txn.commit world.store world.oracle
      (.done result, { world.record txn store with oracle := oracle })
  | .rollback txId => world.onTxn txId fun txn =>
      let (result, txn, store) := txn.rollback world.store
      (.done result, world.record txn store)
  | .gc => (.nothing, { world with store := world.store.runGc })
  | .tick => (.nothing, { world with oracle := world.oracle + 1 })

/-- The world after some calls, made one after the other. -/
def after (world : World) (calls : List Call) : World :=
  calls.foldl (fun world call => (world.step call).2) world

end World

end JouleDB.Mvcc
