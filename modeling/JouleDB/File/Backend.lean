import JouleDB.Storage.Page
import JouleDB.Wal.Log

/-!
# The file backend

A directory with a data file and a write-ahead log.  `write_page` logs the page image and
keeps the page in memory; `commit_transaction` writes the pages of the transaction to the
data file and then logs the commit; `recover` redoes what the log says was committed.

The data file is seen as a map from page ids to page images, since every write to it is one
whole page.  Saving the metadata file is a request that can fail; its content is not part
of this model.
-/

namespace JouleDB.File

open Storage Wal

/-- The file backend with the files it writes. -/
structure FileBackend where
  /-- The page images in the data file. -/
  dataFile : U64 → Option Bytes
  wal : WalManager
  cache : U64 → Option Page
  /-- Id of the active transaction; 0 when there is none. -/
  currentTxId : U64
  nextTxId : U64
  /-- Pages written by the active transaction. -/
  dirtyPages : List (U64 × Page)
  /-- Requests made to the data and metadata files so far. -/
  requests : Nat

/-- What the surroundings decide: the answers of the two files and the order in which a
hash map is drained. -/
structure Environment where
  log : LogDevice
  data : Nat → Io
  drain : Nat → List (U64 × Page) → List (U64 × Page)
  drain_perm : ∀ time pages, (drain time pages).Perm pages

/-- Calls of the file backend. -/
abbrev FileM := Exec FileBackend Event StorageError

namespace FileBackend

/-- A call on the log of the backend. -/
def onLog {α : Type} (call : WalM α) : FileM α :=
  Exec.zoom FileBackend.wal (fun wal backend => { backend with wal := wal }) call

/-- One request to the data or metadata file. -/
def request (environment : Environment) (message : String)
    (effect : FileBackend → FileBackend) : FileM Unit := do
  let before ← Exec.get
  Exec.modify fun backend => { backend with requests := backend.requests + 1 }
  Exec.answer (environment.data before.requests) (.backend message) effect

/-- The offset of a page in the data file.  The ids below 1 and those whose offset
overflows are arithmetic panics. -/
def pageOffset (pageId : U64) : Option Nat :=
  if pageId = 0 then none
  else
    let offset := (pageId.val - 1) * defaultPageSize
    if offset < 2 ^ 64 then some offset else none

/-- Write one page image into the data file. -/
def writeImage (environment : Environment) (pageId : U64) (image : Bytes) : FileM Unit := do
  let _offset ← Exec.expect (pageOffset pageId)
  request environment "Write error" fun backend =>
    { backend with dataFile := Function.update backend.dataFile pageId (some image) }

/-- Sync the data file. -/
def syncData (environment : Environment) : FileM Unit :=
  request environment "Sync error" id

/-- Save the allocator state and the committed root to the metadata file. -/
def saveMetadata (environment : Environment) : FileM Unit :=
  request environment "Failed to write metadata" id

/-! ## Transactions -/

/-- Begin a transaction.  An id is used up even when another transaction is active. -/
def beginTransaction : FileM U64 := do
  let backend ← Exec.get
  let txId := backend.nextTxId
  Exec.modify fun backend => { backend with nextTxId := backend.nextTxId + 1 }
  if backend.currentTxId = 0 then
    Exec.modify fun backend => { backend with currentTxId := txId }
    pure txId
  else
    Exec.fail (.backend s!"Transaction {backend.currentTxId.val} already active — commit or rollback before starting a new one")

/-- Write the drained pages of a transaction of `count` pages to the data file. -/
def writeDirtyPages (environment : Environment) (count : Nat) : List (U64 × Page) → FileM Unit
  | [] => pure ()
  | (pageId, page) :: rest => do
      let encoded ← Exec.lift (page.encode defaultPageSize)
      writeImage environment pageId encoded
      Exec.note (.pageWritten count)
      writeDirtyPages environment count rest

/-- Commit the active transaction: its pages go to the data file, then the commit record
goes to the log. -/
def commitTransaction (environment : Environment) : FileM Unit := do
  let backend ← Exec.get
  let txId := backend.currentTxId
  if txId = 0 then
    Exec.fail (.backend "No active transaction")
  else
    let dirtyPages := environment.drain backend.requests backend.dirtyPages
    Exec.modify fun backend => { backend with dirtyPages := [] }
    writeDirtyPages environment dirtyPages.length dirtyPages
    let _lsn ← onLog (WalManager.logCommit environment.log txId)
    Exec.modify fun backend =>
      { backend with
        cache := dirtyPages.foldl (fun cache entry =>
          Function.update cache entry.1 (some entry.2)) backend.cache }
    Exec.modify fun backend => { backend with currentTxId := 0 }

/-- Roll back the active transaction. -/
def rollbackTransaction (environment : Environment) : FileM Unit := do
  let backend ← Exec.get
  let txId := backend.currentTxId
  if txId = 0 then
    Exec.fail (.backend "No active transaction")
  else
    Exec.modify fun backend => { backend with dirtyPages := [] }
    let _lsn ← onLog (WalManager.logRollback environment.log txId)
    Exec.modify fun backend => { backend with currentTxId := 0 }

/-- Mark the log as checkpointed and empty it. -/
def resetLog (environment : Environment) : FileM Unit := do
  let _lsn ← onLog (WalManager.logCheckpoint environment.log)
  onLog (WalManager.truncate environment.log)

/-- Create a checkpoint. -/
def checkpoint (environment : Environment) : FileM Unit := do
  syncData environment
  saveMetadata environment
  resetLog environment

/-- The transaction of a write: the active one, or a new one that is committed with the
write. -/
def transactionForWrite : FileM (U64 × Bool) := do
  let backend ← Exec.get
  if backend.currentTxId = 0 then
    let txId ← beginTransaction
    pure (txId, true)
  else
    pure (backend.currentTxId, false)

/-- Log a page of the active transaction and keep it in memory. -/
def logAndKeep (environment : Environment) (txId : U64) (page : Page) (encoded : Bytes) :
    FileM Unit := do
  let _lsn ← onLog (WalManager.logPageWrite environment.log txId page.id encoded)
  Exec.modify fun backend =>
    { backend with dirtyPages := upsert backend.dirtyPages page.id page }

/-- Write a page, in the active transaction or in one of its own. -/
def writePage (environment : Environment) (page : Page) : FileM Unit := do
  let encoded ← Exec.lift (page.encode defaultPageSize)
  let (txId, autoCommit) ← transactionForWrite
  logAndKeep environment txId page encoded
  if autoCommit then
    commitTransaction environment

/-- Commit the active transaction, if there is one. -/
def commitPending (environment : Environment) : FileM Unit := do
  let backend ← Exec.get
  if backend.currentTxId ≠ 0 then
    commitTransaction environment

/-- Commit a pending transaction, make everything durable and empty a log that has grown
too long. -/
def sync (environment : Environment) : FileM Unit := do
  commitPending environment
  onLog (WalManager.sync environment.log)
  syncData environment
  saveMetadata environment
  let backend ← Exec.get
  if backend.wal.needsCheckpoint then
    resetLog environment

/-! ## Recovery -/

/-- Write the recovered pages to the data file. -/
def applyPages (environment : Environment) : List (U64 × Bytes) → FileM Unit
  | [] => pure ()
  | (pageId, data) :: rest => do
      writeImage environment pageId data
      Exec.modify fun backend => { backend with cache := Function.update backend.cache pageId none }
      applyPages environment rest

/-- Log a rollback for every transaction that was cut short. -/
def rollBackAll (environment : Environment) : List U64 → FileM Unit
  | [] => pure ()
  | txId :: rest => do
      let _lsn ← onLog (WalManager.logRollback environment.log txId)
      rollBackAll environment rest

/-- Run crash recovery.  When there is nothing to apply and nothing to roll back the log is
left as it is. -/
def recover (environment : Environment) : FileM Unit := do
  let backend ← Exec.get
  let result ← Exec.lift (RecoveryManager.recover backend.wal)
  if result.pagesToApply = [] ∧ result.uncommittedTransactions = [] then
    pure ()
  else
    applyPages environment result.pagesToApply
    syncData environment
    rollBackAll environment result.uncommittedTransactions
    checkpoint environment

/-- The backend over the files of a directory, before recovery. -/
def load (dataFile : U64 → Option Bytes) (log : Bytes) : FileBackend where
  dataFile := dataFile
  wal := WalManager.openFile log
  cache := fun _ => none
  currentTxId := 0
  nextTxId := 1
  dirtyPages := []
  requests := 0

end FileBackend

/-! ## Runs -/

/-- Calls that a user of the backend makes. -/
inductive Call where
  | beginTransaction
  | writePage (page : Page)
  | commitTransaction
  | rollbackTransaction
  | checkpoint
  | sync

/-- What a user sees of one call, and what happened during it. -/
structure Reply where
  call : Call
  outcome : Outcome StorageError Unit
  events : List Event

/-- Perform one call. -/
def Call.perform (environment : Environment) : Call → FileM Unit
  | .beginTransaction => do
      let _txId ← FileBackend.beginTransaction
      pure ()
  | .writePage page => FileBackend.writePage environment page
  | .commitTransaction => FileBackend.commitTransaction environment
  | .rollbackTransaction => FileBackend.rollbackTransaction environment
  | .checkpoint => FileBackend.checkpoint environment
  | .sync => FileBackend.sync environment

/-- Perform calls one after the other until the process stops. -/
def runCalls (environment : Environment) : List Call → FileBackend → List Reply × FileBackend
  | [], backend => ([], backend)
  | call :: calls, backend =>
      match call.perform environment backend with
      | ⟨.halt cause, final, events⟩ => ([⟨call, .halt cause, events⟩], final)
      | ⟨outcome, next, events⟩ =>
          let (replies, final) := runCalls environment calls next
          (⟨call, outcome, events⟩ :: replies, final)

end JouleDB.File
