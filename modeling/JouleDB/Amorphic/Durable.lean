import JouleDB.Amorphic.ColumnBatch

/-!
# The durable amorphic store

A store in memory with a log that it is rebuilt from.  Writes are logged before they are applied; a
transaction that is not committed is ignored when the log is read back.  Columnar batches are
committed to the log and wait in a queue until their rows are entered.

The log holds operations instead of their bytes.  Transaction ids and page ids are numbers; page ids
of writes that are not ingests count down from the largest 64-bit number.
-/

namespace JouleDB.Amorphic

variable {Number Nested : Type}

/-! ## Generations -/

/-- What decides the generation of a store: the ids that the hologram holds, the ids whose hologram
is still to be built, and three counters. -/
structure Holograms where
  members : List RecordId
  generation : U64
  deferred : List RecordId
  dataGeneration : U64
  catchupGeneration : U64

namespace Holograms

def new : Holograms := ⟨[], 0, [], 0, 0⟩

def add (holograms : Holograms) (id : RecordId) : Holograms :=
  { holograms with
    generation := holograms.generation + 1
    members := holograms.members.insert id }

def remove (holograms : Holograms) (id : RecordId) : Holograms :=
  { holograms with
    generation := holograms.generation + 1
    members := holograms.members.erase id }

def removeBatch (holograms : Holograms) (ids : List RecordId) : Holograms :=
  if ids = [] then holograms
  else
    { holograms with
      generation := holograms.generation + 1
      members := holograms.members.filter fun id => id ∉ ids }

def replace (holograms : Holograms) (id : RecordId) : Holograms :=
  let replaced := { holograms with generation := holograms.generation + 1 }
  if id ∈ holograms.members then replaced else replaced.add id

/-- Build deferred holograms of records that still exist. -/
def catchUp (holograms : Holograms) (exists? : RecordId → Bool) (count : Nat) : Holograms :=
  let ids := (holograms.deferred.take count).filter exists?
  let built := ids.foldl add { holograms with deferred := holograms.deferred.drop count }
  { built with
    catchupGeneration := holograms.catchupGeneration + (built.generation - holograms.generation) }

/-- Build all deferred holograms. -/
def catchUpAll (holograms : Holograms) (exists? : RecordId → Bool) : Holograms :=
  holograms.catchUp exists? holograms.deferred.length

/-- A number that changes with the records. -/
def current (holograms : Holograms) : U64 :=
  holograms.generation + holograms.dataGeneration - holograms.catchupGeneration

end Holograms

/-- A store in memory. -/
structure MemoryStore (Number Nested : Type) [Ord Number] where
  primary : Primary Number Nested
  holograms : Holograms

namespace MemoryStore

variable [LinearOrder Number] (reading : Reading Number Nested)

def new : MemoryStore Number Nested := ⟨.new, .new⟩

def len (store : MemoryStore Number Nested) : Nat := store.primary.records.size

def generation (store : MemoryStore Number Nested) : U64 := store.holograms.current

def caughtUp (store : MemoryStore Number Nested) : Holograms :=
  store.holograms.catchUpAll fun id => id ∈ store.primary.records

def catchUpHolograms (store : MemoryStore Number Nested) (count : Nat) :
    MemoryStore Number Nested :=
  { store with holograms := store.holograms.catchUp (fun id => id ∈ store.primary.records) count }

def applyPreparedIngest (store : MemoryStore Number Nested) (id : RecordId)
    (fields : Fields Number Nested) : MemoryStore Number Nested :=
  ⟨store.primary.applyPreparedIngest reading id fields, store.caughtUp.add id⟩

/-- Enter rows, whose holograms are built later. -/
def applyPreparedIngestBatch (store : MemoryStore Number Nested)
    (rows : List (RecordId × Fields Number Nested)) : MemoryStore Number Nested :=
  ⟨store.primary.applyPreparedIngestBatch reading rows,
    { store.holograms with
      deferred := store.holograms.deferred ++ rows.map Prod.fst
      dataGeneration := store.holograms.dataGeneration + 1 }⟩

def applyRecoveredRecord (store : MemoryStore Number Nested) (id : RecordId)
    (fields : Fields Number Nested) : MemoryStore Number Nested :=
  ⟨store.primary.applyRecoveredRecord reading id fields [] none, store.caughtUp.add id⟩

/-- Ingest an edge.  The records it creates are those from the next id on. -/
def ingestEdge (store : MemoryStore Number Nested) (source relation target : String) :
    MemoryStore Number Nested × RecordId :=
  let (primary, id) := store.primary.ingestEdge reading source relation target
  let created := List.range' store.primary.nextId (primary.nextId - store.primary.nextId)
  (⟨primary, created.foldl Holograms.add store.caughtUp⟩, id)

def delete (store : MemoryStore Number Nested) (id : RecordId) :
    MemoryStore Number Nested × Except AmorphicError Unit :=
  match store.primary.delete reading id with
  | (primary, .ok ()) => (⟨primary, store.caughtUp.remove id⟩, .ok ())
  | (primary, .error error) => (⟨primary, store.caughtUp⟩, .error error)

/-- Delete many records.  Those whose hologram is not built yet are only taken out of the queue. -/
def deleteBatch (store : MemoryStore Number Nested) (ids : List RecordId) :
    MemoryStore Number Nested × Nat :=
  let gone := ids.filter fun id => id ∈ store.primary.records
  let built := gone.filter fun id => id ∉ store.holograms.deferred
  let (primary, count) := store.primary.deleteBatch reading ids
  if gone = [] then (store, 0)
  else
    let swept := { store.holograms with
      deferred := store.holograms.deferred.filter fun id => id ∉ gone }
    let removed := swept.removeBatch built
    (⟨primary, { removed with dataGeneration := removed.dataGeneration + 1 }⟩, count)

def updateFields (store : MemoryStore Number Nested) (id : RecordId)
    (updates : Updates Number Nested) : MemoryStore Number Nested × Except AmorphicError Unit :=
  match store.primary.updateFields reading id updates with
  | (primary, .ok ()) => (⟨primary, store.caughtUp.replace id⟩, .ok ())
  | (primary, .error error) => (⟨primary, store.caughtUp⟩, .error error)

end MemoryStore

/-! ## The log -/

/-- What a page write holds. -/
inductive WalOperation (Number Nested : Type) where
  | ingest (id : RecordId) (fields : Fields Number Nested)
  | ingestChunk (rows : List (RecordId × Fields Number Nested))
  | ingestEdge (source relation target : String)
  | delete (id : RecordId)
  | deleteBatch (ids : List RecordId)
  | updateFields (id : RecordId) (updates : Updates Number Nested)

/-- Kinds of log entries. -/
inductive LogKind (Number Nested : Type) where
  | pageWrite (txId pageId : Nat) (operation : WalOperation Number Nested)
  | commit (txId : Nat)
  | rollback (txId : Nat)
  | checkpoint

structure LogEntry (Number Nested : Type) where
  lsn : Nat
  kind : LogKind Number Nested

/-- A log, oldest entry first. -/
abbrev Log (Number Nested : Type) := List (LogEntry Number Nested)

namespace Log

/-- Append an entry with the next LSN. -/
def append (log : Log Number Nested) (kind : LogKind Number Nested) : Log Number Nested :=
  log ++ [⟨(log.getLast?.map (·.lsn)).getD 0 + 1, kind⟩]

/-- Append several page writes of a transaction. -/
def appendWrites (log : Log Number Nested) (txId : Nat)
    (writes : List (Nat × WalOperation Number Nested)) : Log Number Nested :=
  writes.foldl (fun log write => log.append (.pageWrite txId write.1 write.2)) log

def checkpointLsn (log : Log Number Nested) : Nat :=
  log.foldl (fun highest entry =>
    match entry.kind with
    | .checkpoint => max highest entry.lsn
    | _ => highest) 0

/-- The entries that recovery looks at. -/
def relevantEntries (log : Log Number Nested) : Log Number Nested :=
  log.filter fun entry => entry.lsn > log.checkpointLsn

/-- The transactions with a commit record. -/
def committed (log : Log Number Nested) : List Nat :=
  (log.filterMap fun entry =>
    match entry.kind with
    | .commit txId => some txId
    | _ => none).dedup

/-- The page writes of a transaction. -/
def writesOf (log : Log Number Nested) (txId : Nat) : List (Nat × WalOperation Number Nested) :=
  log.filterMap fun entry =>
    match entry.kind with
    | .pageWrite other pageId operation => if other = txId then some (pageId, operation) else none
    | _ => none

/-- The last write of every page, transaction by transaction in the order of their ids. -/
def pagesToApply (log : Log Number Nested) : FiniteMap Nat (WalOperation Number Nested) :=
  (log.committed.mergeSort (· ≤ ·)).foldl (fun pages txId =>
    (log.writesOf txId).foldl (fun pages write => pages.insert write.1 write.2) pages) ∅

end Log

/-- What recovery finds in a log. -/
structure RecoveryResult (Number Nested : Type) where
  pagesToApply : FiniteMap Nat (WalOperation Number Nested)
  committedTransactions : List Nat

/-- Read a log back. -/
def recover (log : Log Number Nested) : RecoveryResult Number Nested :=
  ⟨log.relevantEntries.pagesToApply, log.relevantEntries.committed⟩

/-! ## The store -/

/-- A batch of operations that are committed together, with the ids it was given. -/
structure BatchTransaction where
  txId : Nat
  records : List Nat

/-- A durable store. -/
structure DurableStore (Number Nested : Type) [Ord Number] where
  store : MemoryStore Number Nested
  log : Log Number Nested
  txCounter : Nat
  activeBatch : Option BatchTransaction
  pending : List (ColumnBatch Number)
  /-- How many rows of the first batch in the queue have been entered. -/
  pendingOff : Nat
  pendingRows : Nat
  colGen : U64
  matGen : U64

/-- What calls return. -/
inductive Reply where
  | done
  | id (id : RecordId)
  | ids (ids : List RecordId)
  | count (count : Nat)
  deriving DecidableEq

/-- The largest 64-bit number. -/
def u64Max : Nat := 2 ^ 64 - 1

namespace DurableStore

variable [LinearOrder Number] (reading : Reading Number Nested)

/-- Redo one operation; operations that fail are passed over. -/
def applyOperation (store : MemoryStore Number Nested) :
    WalOperation Number Nested → MemoryStore Number Nested
  | .ingest id fields => store.applyRecoveredRecord reading id fields
  | .ingestChunk rows =>
      rows.foldl (fun store row => store.applyRecoveredRecord reading row.1 row.2) store
  | .ingestEdge source relation target => (store.ingestEdge reading source relation target).1
  | .delete id => (store.delete reading id).1
  | .deleteBatch ids => (store.deleteBatch reading ids).1
  | .updateFields id updates => (store.updateFields reading id updates).1

/-- Redo the recovered page writes in the order of their page ids. -/
def applyRecovery (result : RecoveryResult Number Nested) : MemoryStore Number Nested :=
  (result.pagesToApply.toList.map Prod.snd).foldl (applyOperation reading) .new

/-- Open a store from its log. -/
def openLog (log : Log Number Nested) : DurableStore Number Nested :=
  let result := recover log
  { store := applyRecovery reading result
    log := log
    txCounter := result.committedTransactions.foldl max 0 + 1
    activeBatch := none
    pending := []
    pendingOff := 0
    pendingRows := 0
    colGen := 0
    matGen := 0 }

/-! ### Columnar rows -/

/-- Enter queued rows, at most so many.  A batch that is not used up ends the loop, because the limit
is then reached. -/
def materialize (maxRows : Nat) (store : DurableStore Number Nested) (done : Nat) :
    List (ColumnBatch Number) → DurableStore Number Nested × Nat
  | [] => ({ store with pending := [] }, done)
  | batch :: rest =>
      if done < maxRows then
        let start := store.pendingOff
        let stop := min batch.len (start + (maxRows - done))
        let (entered, done) :=
          if stop > start then
            let after := store.store.applyPreparedIngestBatch reading (batch.rows start stop)
            ({ store with
              store := after
              matGen := store.matGen + (after.generation - store.store.generation)
              pendingRows := store.pendingRows - (stop - start) }, done + (stop - start))
          else (store, done)
        if stop = batch.len then materialize maxRows { entered with pendingOff := 0 } done rest
        else ({ entered with pending := batch :: rest, pendingOff := stop }, done)
      else ({ store with pending := batch :: rest }, done)

def materializePending (store : DurableStore Number Nested) (maxRows : Nat) :
    DurableStore Number Nested × Nat :=
  store.materialize reading maxRows 0 store.pending

/-- Enter all queued rows.  The limit is above their number. -/
def settlePending (store : DurableStore Number Nested) : DurableStore Number Nested :=
  if store.pendingRows > 0 then (store.materializePending reading (store.pendingRows + 1)).1
  else store

def generation (store : DurableStore Number Nested) : U64 × Nat :=
  (store.store.generation + store.colGen - store.matGen, store.store.len + store.pendingRows)

/-! ### Steps of the calls -/

def nextTxId (store : DurableStore Number Nested) : DurableStore Number Nested × Nat :=
  ({ store with txCounter := store.txCounter + 1 }, store.txCounter)

def logPageWrite (store : DurableStore Number Nested) (txId pageId : Nat)
    (operation : WalOperation Number Nested) : DurableStore Number Nested :=
  { store with log := store.log.append (.pageWrite txId pageId operation) }

def logCommit (store : DurableStore Number Nested) (txId : Nat) : DurableStore Number Nested :=
  { store with log := store.log.append (.commit txId) }

/-- Parse JSON text and give the record its id. -/
def prepareJsonIngest (primary : Primary Number Nested) (json : String) :
    Except AmorphicError (Primary Number Nested × RecordId × Fields Number Nested) :=
  match reading.parseJson json with
  | none => .error .jsonError
  | some .other => .error (.ingestionError "Top-level JSON must be an object")
  | some (.object fields) => do
      let (primary, id) ← primary.prepareFieldsIngest fields
      return (primary, id, fields)

/-- Give a row its id.  Its values stay text. -/
def prepareRowIngest (primary : Primary Number Nested) (columns values : List String) :
    Except AmorphicError (Primary Number Nested × RecordId × Fields Number Nested) :=
  if columns.length ≠ values.length then
    .error (.ingestionError "Column count must match value count")
  else do
    let fields := Primary.rowFields .string columns values
    let (primary, id) ← primary.prepareFieldsIngest fields
    return (primary, id, fields)

/-- Log a record and enter it. -/
def enterRecord (store : DurableStore Number Nested) (txId : Nat) (primary : Primary Number Nested)
    (id : RecordId) (fields : Fields Number Nested) : DurableStore Number Nested :=
  let store := { store with store := { store.store with primary } }
  let store := store.logPageWrite txId id (.ingest id fields)
  { store with store := store.store.applyPreparedIngest reading id fields }

/-- How many rows one page write holds. -/
def chunkRows : Nat := 4096

/-- Page writes for rows; the page id of each is the id of its first row. -/
def walChunks (rows : List (RecordId × Fields Number Nested)) :
    List (Nat × WalOperation Number Nested) :=
  (rows.toChunks chunkRows).map fun chunk => ((chunk.head?.map Prod.fst).getD 0, .ingestChunk chunk)

/-! ### Calls -/

/-- Ingest a prepared record in a transaction of its own. -/
def ingestPrepared (store : DurableStore Number Nested)
    (prepare : Primary Number Nested →
      Except AmorphicError (Primary Number Nested × RecordId × Fields Number Nested)) :
    DurableStore Number Nested × Except AmorphicError Reply :=
  let (store, txId) := (store.settlePending reading).nextTxId
  match prepare store.store.primary with
  | .error error => (store, .error error)
  | .ok (primary, id, fields) =>
      ((store.enterRecord reading txId primary id fields).logCommit txId, .ok (.id id))

def ingestJson (store : DurableStore Number Nested) (json : String) :
    DurableStore Number Nested × Except AmorphicError Reply :=
  store.ingestPrepared reading fun primary => prepareJsonIngest reading primary json

def ingestRow (store : DurableStore Number Nested) (columns values : List String) :
    DurableStore Number Nested × Except AmorphicError Reply :=
  store.ingestPrepared reading fun primary => prepareRowIngest primary columns values

def ingestFieldsBatch (store : DurableStore Number Nested) (rows : List (Fields Number Nested)) :
    DurableStore Number Nested × Except AmorphicError Reply :=
  let (store, txId) := (store.settlePending reading).nextTxId
  match store.store.primary.prepareRows rows with
  | (primary, .error error) =>
      ({ store with store := { store.store with primary } }, .error error)
  | (primary, .ok prepared) =>
      let memory := { store.store with primary }
      let store := { store with
        store := memory.applyPreparedIngestBatch reading prepared
        log := store.log.appendWrites txId (walChunks prepared) }
      (store.logCommit txId, .ok (.ids (prepared.map Prod.fst)))

/-- Commit a columnar batch; its rows are queued. -/
def ingestColumnBatch (finite : Number → Bool) (store : DurableStore Number Nested)
    (batch : ColumnBatch Number) : DurableStore Number Nested × Except AmorphicError Reply :=
  match batch.validate finite with
  | .error message => (store, .error (.ingestionError message))
  | .ok () =>
      if batch.cols.length + 1 > maxFieldsError then
        (store, .error (.fieldCountExceeded (batch.cols.length + 1) maxFieldsError))
      else
        let (primary, first) := store.store.primary.reserveIds batch.len
        let batch := { batch with firstId := first }
        let store := { store with store := { store.store with primary } }
        let (store, txId) := store.nextTxId
        let store := { store with
          log := store.log.appendWrites txId (walChunks (batch.rows 0 batch.len)) }
        let store := store.logCommit txId
        ({ store with
          pendingRows := store.pendingRows + batch.len
          pending := store.pending ++ [batch]
          colGen := store.colGen + 1 }, .ok (.id first))

/-- Log an operation under a page id of its own, apply it, and commit it if it succeeds. -/
def commitOperation (store : DurableStore Number Nested) (operation : WalOperation Number Nested)
    (apply : MemoryStore Number Nested → MemoryStore Number Nested × Except AmorphicError Reply) :
    DurableStore Number Nested × Except AmorphicError Reply :=
  let (store, txId) := store.nextTxId
  let store := store.logPageWrite txId (u64Max - txId) operation
  match apply store.store with
  | (memory, .error error) => ({ store with store := memory }, .error error)
  | (memory, .ok reply) => ({ store with store := memory }.logCommit txId, .ok reply)

def ingestEdge (store : DurableStore Number Nested) (source relation target : String) :
    DurableStore Number Nested × Except AmorphicError Reply :=
  (store.settlePending reading).commitOperation (.ingestEdge source relation target) fun memory =>
    let (memory, id) := memory.ingestEdge reading source relation target
    (memory, .ok (.id id))

def delete (store : DurableStore Number Nested) (id : RecordId) :
    DurableStore Number Nested × Except AmorphicError Reply :=
  (store.settlePending reading).commitOperation (.delete id) fun memory =>
    let (memory, result) := memory.delete reading id
    (memory, result.map fun _ => .done)

def deleteBatch (store : DurableStore Number Nested) (ids : List RecordId) :
    DurableStore Number Nested × Except AmorphicError Reply :=
  let store := store.settlePending reading
  if ids = [] then (store, .ok (.count 0))
  else
    store.commitOperation (.deleteBatch ids) fun memory =>
      let (memory, count) := memory.deleteBatch reading ids
      (memory, .ok (.count count))

def updateFields (store : DurableStore Number Nested) (id : RecordId)
    (updates : Updates Number Nested) : DurableStore Number Nested × Except AmorphicError Reply :=
  (store.settlePending reading).commitOperation (.updateFields id updates) fun memory =>
    let (memory, result) := memory.updateFields reading id updates
    (memory, result.map fun _ => .done)

/-! ### Batches -/

def noBatch : AmorphicError := .ingestionError "No active batch"

def beginBatch (store : DurableStore Number Nested) :
    DurableStore Number Nested × Except AmorphicError Reply :=
  let store := store.settlePending reading
  match store.activeBatch with
  | some _ => (store, .error (.ingestionError "Batch already active"))
  | none =>
      let (store, txId) := store.nextTxId
      ({ store with activeBatch := some ⟨txId, []⟩ }, .ok .done)

/-- Ingest JSON text in the active batch.  Queued rows stay where they are. -/
def batchIngestJson (store : DurableStore Number Nested) (json : String) :
    DurableStore Number Nested × Except AmorphicError Reply :=
  match store.activeBatch with
  | none => (store, .error noBatch)
  | some batch =>
      match prepareJsonIngest reading store.store.primary json with
      | .error error => (store, .error error)
      | .ok (primary, id, fields) =>
          ({ store.enterRecord reading batch.txId primary id fields with
            activeBatch := some { batch with records := batch.records ++ [id] } }, .ok (.id id))

/-- Log an operation of the active batch and apply it. -/
def batchOperation (store : DurableStore Number Nested) (operation : WalOperation Number Nested)
    (apply : MemoryStore Number Nested → MemoryStore Number Nested × Except AmorphicError Unit) :
    DurableStore Number Nested × Except AmorphicError Reply :=
  match store.activeBatch with
  | none => (store, .error noBatch)
  | some batch =>
      let pageId := u64Max - batch.txId - batch.records.length - 1
      let store := store.logPageWrite batch.txId pageId operation
      match apply store.store with
      | (memory, .error error) => ({ store with store := memory }, .error error)
      | (memory, .ok ()) =>
          ({ store with
            store := memory
            activeBatch := some { batch with records := batch.records ++ [pageId] } }, .ok .done)

def batchDelete (store : DurableStore Number Nested) (id : RecordId) :
    DurableStore Number Nested × Except AmorphicError Reply :=
  store.batchOperation (.delete id) fun memory => memory.delete reading id

def batchUpdateFields (store : DurableStore Number Nested) (id : RecordId)
    (updates : Updates Number Nested) : DurableStore Number Nested × Except AmorphicError Reply :=
  store.batchOperation (.updateFields id updates) fun memory =>
    memory.updateFields reading id updates

def commitBatch (store : DurableStore Number Nested) :
    DurableStore Number Nested × Except AmorphicError Reply :=
  match store.activeBatch with
  | none => (store, .error noBatch)
  | some batch =>
      ({ store with activeBatch := none }.logCommit batch.txId, .ok (.count batch.records.length))

/-- Give up the active batch; the ids it was given are deleted. -/
def rollbackBatch (store : DurableStore Number Nested) :
    DurableStore Number Nested × Except AmorphicError Reply :=
  match store.activeBatch with
  | none => (store, .error noBatch)
  | some batch =>
      ({ store with
        activeBatch := none
        log := store.log.append (.rollback batch.txId)
        store := batch.records.foldl (fun memory id => (memory.delete reading id).1) store.store },
        .ok .done)

/-- Log a checkpoint. -/
def checkpoint (store : DurableStore Number Nested) :
    DurableStore Number Nested × Except AmorphicError Reply :=
  let log := store.log.append .checkpoint
  ({ store with log }, .ok (.count ((log.getLast?.map (·.lsn)).getD 0)))

end DurableStore

/-- Calls of a durable store. -/
inductive DurableCall (Number Nested : Type) where
  | ingestJson (json : String)
  | ingestRow (columns values : List String)
  | ingestFieldsBatch (rows : List (Fields Number Nested))
  | ingestColumnBatch (batch : ColumnBatch Number)
  | ingestEdge (source relation target : String)
  | delete (id : RecordId)
  | deleteBatch (ids : List RecordId)
  | updateFields (id : RecordId) (updates : Updates Number Nested)
  | beginBatch
  | batchIngestJson (json : String)
  | batchDelete (id : RecordId)
  | batchUpdateFields (id : RecordId) (updates : Updates Number Nested)
  | commitBatch
  | rollbackBatch
  | checkpoint
  | settlePending
  | materializePending (maxRows : Nat)
  | catchUpHolograms (count : Nat)

namespace DurableStore

variable [LinearOrder Number] (reading : Reading Number Nested) (finite : Number → Bool)

/-- Answer a call. -/
def answer (store : DurableStore Number Nested) :
    DurableCall Number Nested → DurableStore Number Nested × Except AmorphicError Reply
  | .ingestJson json => store.ingestJson reading json
  | .ingestRow columns values => store.ingestRow reading columns values
  | .ingestFieldsBatch rows => store.ingestFieldsBatch reading rows
  | .ingestColumnBatch batch => store.ingestColumnBatch finite batch
  | .ingestEdge source relation target => store.ingestEdge reading source relation target
  | .delete id => store.delete reading id
  | .deleteBatch ids => store.deleteBatch reading ids
  | .updateFields id updates => store.updateFields reading id updates
  | .beginBatch => store.beginBatch reading
  | .batchIngestJson json => store.batchIngestJson reading json
  | .batchDelete id => store.batchDelete reading id
  | .batchUpdateFields id updates => store.batchUpdateFields reading id updates
  | .commitBatch => store.commitBatch
  | .rollbackBatch => store.rollbackBatch reading
  | .checkpoint => store.checkpoint
  | .settlePending => (store.settlePending reading, .ok .done)
  | .materializePending maxRows =>
      let (store, count) := store.materializePending reading maxRows
      (store, .ok (.count count))
  | .catchUpHolograms count =>
      ({ store with store := store.store.catchUpHolograms count }, .ok .done)

/-- The store after a call. -/
def step (store : DurableStore Number Nested) (call : DurableCall Number Nested) :
    DurableStore Number Nested :=
  (store.answer reading finite call).1

end DurableStore

end JouleDB.Amorphic
