import JouleDB.Raft.Types

/-!
# Where a node keeps its persistent state

A node without a data directory keeps its state in memory.  With a directory it appends records
to a write-ahead log and now and then writes the whole state to a snapshot file and truncates
the log.  Every operation on the disk may fail; what becomes of the operations to come is part
of the directory.
-/

namespace JouleDB.Raft

/-- What becomes of an operation on the disk.  A failed one may have written some bytes. -/
inductive Fate where
  | ok
  | failed (written : Nat) (error : String)
  deriving DecidableEq, Repr

/-- What the operation returns. -/
def Fate.report : Fate → Except String Unit
  | .ok => .ok ()
  | .failed _ error => .error error

/-- Record of the write-ahead log. -/
inductive WalRecord where
  | metadata (term : Nat) (votedFor : Option NodeId)
  | entry (entry : LogEntry)
  deriving DecidableEq

/-- The data directory: the snapshot file, and the fates of the disk operations by number. -/
structure Directory where
  snapshot : Option PersistentState
  operations : Nat
  fate : Nat → Fate

namespace Directory

/-- The next operation on the disk and its fate. -/
def next (directory : Directory) : Fate × Directory :=
  (directory.fate directory.operations,
    { directory with operations := directory.operations + 1 })

/-- Write the whole state to the snapshot file, by way of a temporary file. -/
def saveToDir (directory : Directory) (state : PersistentState) :
    Except String Unit × Directory :=
  match directory.next with
  | (.ok, directory) => (.ok (), { directory with snapshot := some state })
  | (.failed _ error, directory) => (.error error, directory)

end Directory

/-- The append-only log.  `attempts` are the appends since the log was opened, the failed ones
included; the file was last truncated when there were `start` of them. -/
structure RaftWal where
  attempts : List (WalRecord × Fate)
  start : Nat
  entriesSinceCheckpoint : Nat
  checkpointThreshold : Nat

namespace RaftWal

/-- The log of an empty directory. -/
def fresh : RaftWal := ⟨[], 0, 0, 10000⟩

/-- The records that were appended successfully. -/
def appended (wal : RaftWal) : List WalRecord :=
  wal.attempts.filterMap fun attempt => if attempt.2 = .ok then some attempt.1 else none

/-- Append a record and sync the file. -/
def append (wal : RaftWal) (directory : Directory) (record : WalRecord) :
    Except String Unit × Directory × RaftWal :=
  let (fate, directory) := directory.next
  (fate.report, directory, { wal with attempts := wal.attempts ++ [(record, fate)] })

/-- Append a log entry. -/
def appendEntry (wal : RaftWal) (directory : Directory) (entry : LogEntry) :
    Except String Unit × Directory × RaftWal :=
  match wal.append directory (.entry entry) with
  | (.ok _, directory, wal) =>
      (.ok (), directory, { wal with entriesSinceCheckpoint := wal.entriesSinceCheckpoint + 1 })
  | (.error error, directory, wal) => (.error error, directory, wal)

/-- Append log entries, up to the first that fails. -/
def appendEntries (wal : RaftWal) (directory : Directory) :
    List LogEntry → Except String Unit × Directory × RaftWal
  | [] => (.ok (), directory, wal)
  | entry :: entries =>
      match wal.appendEntry directory entry with
      | (.ok _, directory, wal) => wal.appendEntries directory entries
      | (.error error, directory, wal) => (.error error, directory, wal)

/-- Append a metadata record. -/
def appendMeta (wal : RaftWal) (directory : Directory) (term : Nat) (votedFor : Option NodeId) :
    Except String Unit × Directory × RaftWal :=
  wal.append directory (.metadata term votedFor)

/-- A checkpoint is due. -/
def needsCheckpoint (wal : RaftWal) : Bool := wal.checkpointThreshold ≤ wal.entriesSinceCheckpoint

/-- Write the snapshot file and truncate the log. -/
def checkpoint (wal : RaftWal) (directory : Directory) (state : PersistentState) :
    Except String Unit × Directory × RaftWal :=
  match directory.saveToDir state with
  | (.error error, directory) => (.error error, directory, wal)
  | (.ok _, directory) =>
      match directory.next with
      | (.failed _ error, directory) => (.error error, directory, wal)
      | (.ok, directory) =>
          let wal := { wal with start := wal.attempts.length }
          match directory.next with
          | (.failed _ error, directory) => (.error error, directory, wal)
          | (.ok, directory) => (.ok (), directory, { wal with entriesSinceCheckpoint := 0 })

end RaftWal

/-- Where the persistent state of a node is kept. -/
inductive Storage where
  /-- No data directory is configured. -/
  | memory
  /-- The log could not be opened. -/
  | json (directory : Directory)
  | logged (directory : Directory) (wal : RaftWal)

namespace Storage

/-- Persist the state, the last `newEntries` entries of whose log are new. -/
def persistStateSync (storage : Storage) (state : PersistentState) (newEntries : Nat) :
    Except RaftError Unit × Storage :=
  match storage with
  | .memory => (.ok (), .memory)
  | .json directory =>
      match directory.saveToDir state with
      | (.ok _, directory) => (.ok (), .json directory)
      | (.error error, directory) =>
          (.error (.internal ("Failed to persist state: " ++ error)), .json directory)
  | .logged directory wal =>
      match wal.appendEntries directory (state.log.drop (state.log.length - newEntries)) with
      | (.error error, directory, wal) =>
          (.error (.internal ("WAL append failed: " ++ error)), .logged directory wal)
      | (.ok _, directory, wal) =>
          if wal.needsCheckpoint then
            -- a failed checkpoint is only reported, the entries are in the log
            let (_, directory, wal) := wal.checkpoint directory state
            (.ok (), .logged directory wal)
          else
            (.ok (), .logged directory wal)

/-- Persist term and vote. -/
def persistMetaSync (storage : Storage) (term : Nat) (votedFor : Option NodeId) :
    Except RaftError Unit × Storage :=
  match storage with
  | .logged directory wal =>
      match wal.appendMeta directory term votedFor with
      | (.ok _, directory, wal) => (.ok (), .logged directory wal)
      | (.error error, directory, wal) =>
          (.error (.internal ("WAL meta persist failed: " ++ error)), .logged directory wal)
  | storage => (.ok (), storage)

end Storage

end JouleDB.Raft
