import Mathlib.Data.List.Sort
import JouleDB.Lib.AssocList
import JouleDB.Wal.Entry

/-!
# The log manager and recovery

The log file is written through a buffered writer: what has been handed to the file
survives a crash of the process, what is still buffered does not.  Recovery reads the
file from the start, keeps the records after the last checkpoint and returns the page
writes of the committed transactions among them.
-/

namespace JouleDB.Wal

/-- A log that grows past this size is truncated at the next sync. -/
def maxWalSize : Nat := 64 * 1024 * 1024

/-- Capacity of the buffered writer. -/
def bufferCapacity : Nat := 8 * 1024

/-- The log manager: the file, the writer in front of it and the counters. -/
structure WalManager where
  /-- Bytes that have reached the file. -/
  file : Bytes
  /-- Bytes held by the buffered writer. -/
  buffered : Bytes
  currentLsn : U64
  lastCheckpointLsn : U64
  filePosition : Nat
  /-- LSN of the last commit record handed to the operating system. -/
  committedLsn : U64
  /-- Requests made to the file so far. -/
  requests : Nat

/-- What a run over the log and the data file shows. -/
inductive Event where
  /-- A commit record has reached the file. -/
  | commitLogged
  /-- The log has been marked as checkpointed. -/
  | checkpointed
  /-- A page of a commit of `count` pages has reached the data file. -/
  | pageWritten (count : Nat)

/-- The log file as the operating system keeps it: the answer to each request, and how many
bytes of a write are in the file after a crash in the middle of it. -/
structure LogDevice where
  answer : Nat → Io
  torn : Nat → Nat

/-- Calls of the log manager. -/
abbrev WalM := Exec WalManager Event StorageError

namespace WalManager

/-! ## Scanning the file -/

/-- The last value that a scan over the record headers collects.  Payloads are skipped
unread, and the scan stops at the first header that is short, has another magic number
or an impossible length. -/
def scanHeaders (collect : U64 → Byte → U64 → U64) : Nat → Bytes → U64 → U64
  | 0, _, last => last
  | fuel + 1, bytes, last =>
      if bytes.length < walHeaderSize then last
      else if bytes.take 4 ≠ walMagic then last
      else
        let lsn := WalEntry.readU64 (bytes.drop 8)
        let payloadLen := ofLe ((bytes.drop 17).take 4)
        if payloadLen > maxWalPayload then last
        else
          scanHeaders collect fuel (bytes.drop (walHeaderSize + payloadLen))
            (collect lsn (bytes[16]?.getD 0) last)

/-- The last LSN in the file. -/
def findLastLsn (bytes : Bytes) : U64 :=
  scanHeaders (fun lsn _ _ => lsn) bytes.length bytes 0

/-- The LSN of the last checkpoint in the file. -/
def findLastCheckpoint (bytes : Bytes) : U64 :=
  scanHeaders (fun lsn entryType last =>
    if entryType = WalEntryType.checkpoint.code then lsn else last) bytes.length bytes 0

/-- Open the log over an existing file; new records go to its physical end. -/
def openFile (bytes : Bytes) : WalManager where
  file := bytes
  buffered := []
  currentLsn := (if bytes.length > 0 then findLastLsn bytes else 0) + 1
  lastCheckpointLsn := if bytes.length > 0 then findLastCheckpoint bytes else 0
  filePosition := bytes.length
  committedLsn := 0
  requests := 0

/-! ## Appending -/

/-- Hand bytes to the file in one request. -/
def writeOut (device : LogDevice) (message : String) (bytes : Bytes) : WalM Unit := do
  let before ← Exec.get
  Exec.modify fun wal => { wal with requests := wal.requests + 1 }
  match device.answer before.requests with
  | .ok => Exec.modify fun wal => { wal with file := wal.file ++ bytes }
  | .fail => Exec.fail (.backend message)
  | .crash =>
      Exec.modify fun wal =>
        { wal with file := wal.file ++ bytes.take (device.torn before.requests) }
      Exec.stop .crash

/-- Empty the buffered writer into the file. -/
def flushBuf (device : LogDevice) (message : String) : WalM Unit := do
  let wal ← Exec.get
  if wal.buffered = [] then
    pure ()
  else
    writeOut device message wal.buffered
    Exec.modify fun wal => { wal with buffered := [] }

/-- Empty the buffer if the bytes do not fit. -/
def makeRoom (device : LogDevice) (bytes : Bytes) : WalM Unit := do
  let wal ← Exec.get
  if bytes.length > bufferCapacity - wal.buffered.length then
    flushBuf device "WAL write error"

/-- Write through the buffer: bytes that do not fit flush it first, and bytes that would
fill it alone go straight to the file. -/
def writeAll (device : LogDevice) (bytes : Bytes) : WalM Unit := do
  let wal ← Exec.get
  if bytes.length < bufferCapacity - wal.buffered.length then
    Exec.modify fun wal => { wal with buffered := wal.buffered ++ bytes }
  else
    makeRoom device bytes
    if bytes.length ≥ bufferCapacity then
      writeOut device "WAL write error" bytes
    else
      Exec.modify fun wal => { wal with buffered := wal.buffered ++ bytes }

/-- Take the next LSN; the counter wraps. -/
def nextLsn : WalM U64 := do
  let wal ← Exec.get
  Exec.modify fun wal => { wal with currentLsn := wal.currentLsn + 1 }
  pure wal.currentLsn

/-- Append one record. -/
def appendEntry (device : LogDevice) (entry : WalEntry) : WalM Unit := do
  let encoded ← Exec.lift entry.encode
  writeAll device encoded
  Exec.modify fun wal => { wal with filePosition := wal.filePosition + encoded.length }

/-- Append a page write. -/
def logPageWrite (device : LogDevice) (txId pageId : U64) (data : Bytes) : WalM U64 := do
  let lsn ← nextLsn
  appendEntry device (.pageWrite lsn txId pageId data)
  pure lsn

/-- Append a commit record and hand everything buffered to the operating system. -/
def logCommit (device : LogDevice) (txId : U64) : WalM U64 := do
  let lsn ← nextLsn
  appendEntry device (.commit lsn txId)
  flushBuf device "WAL flush error"
  Exec.note .commitLogged
  Exec.modify fun wal => { wal with committedLsn := max wal.committedLsn lsn }
  pure lsn

/-- Append a rollback record. -/
def logRollback (device : LogDevice) (txId : U64) : WalM U64 := do
  let lsn ← nextLsn
  appendEntry device (.rollback lsn txId)
  pure lsn

/-- Flush the buffered writer and sync the file. -/
def sync (device : LogDevice) : WalM Unit := do
  flushBuf device "WAL flush error"
  let wal ← Exec.get
  Exec.modify fun wal => { wal with requests := wal.requests + 1 }
  Exec.answer (device.answer wal.requests) (.backend "WAL sync error") id

/-- Append a checkpoint record and sync. -/
def logCheckpoint (device : LogDevice) : WalM U64 := do
  let lsn ← nextLsn
  Exec.note .checkpointed
  appendEntry device (.checkpoint lsn)
  sync device
  Exec.modify fun wal => { wal with lastCheckpointLsn := lsn }
  pure lsn

/-- The log has outgrown its size limit. -/
def needsCheckpoint (wal : WalManager) : Bool := wal.filePosition > maxWalSize

/-- Empty the log file. -/
def truncate (device : LogDevice) : WalM Unit := do
  sync device
  let wal ← Exec.get
  Exec.modify fun wal => { wal with requests := wal.requests + 1 }
  Exec.answer (device.answer wal.requests) (.backend "Failed to truncate WAL") fun wal =>
    { wal with file := [], buffered := [], filePosition := 0 }

/-! ## Reading -/

/-- Read records until the end of the file, a foreign magic number or an impossible
length.  A record whose checksum or type is wrong is skipped; a payload that ends before
its length is an error. -/
def readEntries : Nat → Bytes → Outcome StorageError (List WalEntry)
  | 0, _ => .ok []
  | fuel + 1, bytes =>
      if bytes.length < walHeaderSize then .ok []
      else if bytes.take 4 ≠ walMagic then .ok []
      else
        let payloadLen := ofLe ((bytes.drop 17).take 4)
        if payloadLen > maxWalPayload then .ok []
        else if bytes.length - walHeaderSize < payloadLen then
          .err (.backend "WAL read error: failed to fill whole buffer")
        else
          match WalEntry.decode (bytes.take (walHeaderSize + payloadLen)) with
          | .ok entry => do
              let rest ← readEntries fuel (bytes.drop (walHeaderSize + payloadLen))
              .ok (entry :: rest)
          | .err _ => readEntries fuel (bytes.drop (walHeaderSize + payloadLen))
          | .halt cause => .halt cause

/-- All records of the file.  Every round consumes at least a header, so the length of the
file bounds the rounds. -/
def readAllEntries (wal : WalManager) : Outcome StorageError (List WalEntry) :=
  readEntries wal.file.length wal.file

/-- The records after an LSN. -/
def readEntriesAfter (wal : WalManager) (lsn : U64) : Outcome StorageError (List WalEntry) := do
  let entries ← wal.readAllEntries
  pure (entries.filter fun entry => lsn < entry.lsn)

end WalManager

/-! ## Recovery -/

/-- What recovery returns. -/
structure RecoveryResult where
  pagesToApply : List (U64 × Bytes)
  committedTransactions : List U64
  rolledBackTransactions : List U64
  uncommittedTransactions : List U64
  lastLsn : U64
  deriving DecidableEq, Repr

namespace RecoveryManager

/-- Transactions and page writes seen so far. -/
structure Tracked where
  committed : List U64
  rolledBack : List U64
  pageWrites : List (U64 × List (U64 × Bytes))

/-- Extend the write list of a transaction, creating it if needed. -/
def pushWrites (pageWrites : List (U64 × List (U64 × Bytes))) (txId : U64)
    (writes : List (U64 × Bytes)) : List (U64 × List (U64 × Bytes)) :=
  upsert pageWrites txId ((pageWrites.lookup txId).getD [] ++ writes)

/-- Account for one record. -/
def track (tracked : Tracked) (entry : WalEntry) : Tracked :=
  match entry.entryType with
  | .pageWrite =>
      match entry.pageId with
      | some pageId =>
          { tracked with
            pageWrites := pushWrites tracked.pageWrites entry.txId [(pageId, entry.data)] }
      | none => tracked
  | .commit => { tracked with committed := tracked.committed.insert entry.txId }
  | .rollback => { tracked with rolledBack := tracked.rolledBack.insert entry.txId }
  | .checkpoint => tracked
  | .extentWrite => { tracked with pageWrites := pushWrites tracked.pageWrites entry.txId [] }

/-- The highest LSN of a checkpoint record, or 0. -/
def checkpointLsn (entries : List WalEntry) : U64 :=
  ((entries.filter fun entry => entry.entryType = .checkpoint).map WalEntry.lsn).foldl max 0

/-- The records that recovery looks at. -/
def relevantEntries (entries : List WalEntry) : List WalEntry :=
  entries.filter fun entry => checkpointLsn entries < entry.lsn

/-- Recovery from a list of records: the writes of the committed transactions, in the
order of their ids. -/
def replay (entries : List WalEntry) : RecoveryResult :=
  if entries = [] then
    ⟨[], [], [], [], 0⟩
  else
    let relevant := relevantEntries entries
    let tracked := relevant.foldl track ⟨[], [], []⟩
    let sortedTxs := tracked.committed.insertionSort (· ≤ ·)
    let pages := sortedTxs.foldl (fun pages txId =>
      match tracked.pageWrites.lookup txId with
      | some writes => upsertAll pages writes
      | none => pages) []
    { pagesToApply := pages
      committedTransactions := tracked.committed
      rolledBackTransactions := tracked.rolledBack
      uncommittedTransactions := (tracked.pageWrites.map Prod.fst).filter fun txId =>
        txId ∉ tracked.committed ∧ txId ∉ tracked.rolledBack
      lastLsn := (relevant.getLast?.map WalEntry.lsn).getD (checkpointLsn entries) }

/-- Recover the database state from the log. -/
def recover (wal : WalManager) : Outcome StorageError RecoveryResult := do
  let entries ← wal.readAllEntries
  pure (replay entries)

end RecoveryManager

end JouleDB.Wal
