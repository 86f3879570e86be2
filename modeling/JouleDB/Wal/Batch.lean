import JouleDB.Wal.Log

/-!
# Batches of page writes

Page writes are logged one at a time or in batches.  A batch takes its LSNs at once, encodes its
records in parallel, as single records or in chunks, and writes them one behind the other.
-/

namespace JouleDB.Wal

/-- Cut a list into chunks of a positive length. -/
def chunksOf {α : Type} (size : Nat) : Nat → List α → List (List α)
  | 0, _ => []
  | fuel + 1, items =>
      if items.isEmpty then [] else items.take size :: chunksOf size fuel (items.drop size)

theorem flatten_chunksOf {α : Type} {size : Nat} (positive : 0 < size) {fuel : Nat} {items : List α}
    (enough : items.length ≤ fuel) : (chunksOf size fuel items).flatten = items := by
  induction fuel generalizing items with
  | zero =>
      rw [List.length_eq_zero_iff.mp (Nat.le_zero.mp enough)]
      rfl
  | succ fuel ih =>
      rw [chunksOf]
      split
      next empty =>
        rw [List.isEmpty_iff.mp empty]
        rfl
      next nonempty =>
        have shorter : (items.drop size).length ≤ fuel := by
          have : 0 < items.length := List.length_pos_iff.mpr fun none => nonempty (by rw [none]; rfl)
          rw [List.length_drop]
          omega
        rw [List.flatten_cons, ih shorter, List.take_append_drop]

/-- The log manager with the transactions that have written to it: the LSN of the first write of
each. -/
structure TrackedLog where
  wal : WalManager
  activeTransactions : List (U64 × U64)

/-- How a program is built and run: whether arithmetic overflow is a panic, and the number of
threads. -/
structure Build where
  overflowChecks : Bool
  threads : Nat

/-- Calls that track transactions. -/
abbrev TrackedM := Exec TrackedLog Event StorageError

namespace TrackedLog

/-- A call on the log. -/
def onLog {α : Type} (call : WalM α) : TrackedM α :=
  Exec.zoom TrackedLog.wal (fun wal log => { log with wal := wal }) call

/-- Track a transaction that is not tracked yet. -/
def trackActive (txId lsn : U64) : TrackedM Unit :=
  Exec.modify fun log =>
    { log with
      activeTransactions :=
        if (log.activeTransactions.lookup txId).isSome then log.activeTransactions
        else upsert log.activeTransactions txId lsn }

/-- Append one page write. -/
def logPageWrite (device : LogDevice) (txId pageId : U64) (data : Bytes) : TrackedM U64 := do
  let lsn ← onLog (WalManager.logPageWrite device txId pageId data)
  trackActive txId lsn
  pure lsn

/-- Append page writes one at a time. -/
def logEach (device : LogDevice) (txId : U64) : List (U64 × Bytes) → TrackedM Unit
  | [] => pure ()
  | (pageId, data) :: rest => do
      let _lsn ← logPageWrite device txId pageId data
      logEach device txId rest

/-- Take several LSNs at once and return the first; the counter wraps. -/
def takeLsns (count : Nat) : WalM U64 := do
  let wal ← Exec.get
  Exec.modify fun wal => { wal with currentLsn := wal.currentLsn + Fin.ofNat (2 ^ 64) count }
  pure wal.currentLsn

/-- The LSN at an index of a batch. -/
def lsnAt (build : Build) (first : U64) (index : Nat) : Outcome StorageError U64 :=
  if build.overflowChecks ∧ 2 ^ 64 ≤ first.val + index then .halt .panic
  else .ok (first + Fin.ofNat (2 ^ 64) index)

/-- Encode the page write at an index of a batch. -/
def encodeAt (build : Build) (first txId : U64) (write : (U64 × Bytes) × Nat) :
    Outcome StorageError Bytes := do
  let lsn ← lsnAt build first write.2
  (WalEntry.pageWrite lsn txId write.1.1 write.1.2).encode

/-- Encode several page writes of a batch.  In the source threads encode them; one that fails
fails the call. -/
def encodeAll (build : Build) (first txId : U64) :
    List ((U64 × Bytes) × Nat) → Outcome StorageError (List Bytes)
  | [] => .ok []
  | write :: rest => do
      let bytes ← encodeAt build first txId write
      let more ← encodeAll build first txId rest
      .ok (bytes :: more)

/-- Encode chunks of a batch, each into one buffer. -/
def encodeChunks (build : Build) (first txId : U64) :
    List (List ((U64 × Bytes) × Nat)) → Outcome StorageError (List Bytes)
  | [] => .ok []
  | chunk :: rest => do
      let records ← encodeAll build first txId chunk
      let more ← encodeChunks build first txId rest
      .ok (records.flatten :: more)

/-- Count the bytes that were appended. -/
def advancePosition (total : Nat) : WalM Unit :=
  Exec.modify fun wal => { wal with filePosition := wal.filePosition + total }

/-- Append page writes in one buffer. -/
def logPageWrites (device : LogDevice) (build : Build) (txId : U64) (writes : List (U64 × Bytes)) :
    TrackedM Unit := do
  if writes.isEmpty then
    pure ()
  else
    let first ← onLog (takeLsns writes.length)
    let encoded ← Exec.lift (encodeAll build first txId writes.zipIdx)
    onLog (WalManager.writeAll device encoded.flatten)
    onLog (advancePosition encoded.flatten.length)
    trackActive txId first

/-- Write buffers one after the other. -/
def writeBuffers (device : LogDevice) : List Bytes → WalM Unit
  | [] => pure ()
  | buffer :: rest => do
      WalManager.writeAll device buffer
      writeBuffers device rest

/-- The number of page writes that one task encodes. -/
def chunkLen (build : Build) (count : Nat) : Nat := max 1 (min (count / (build.threads * 2)) 2048)

/-- Append page writes in a few large buffers. -/
def logPageWritesOwned (device : LogDevice) (build : Build) (txId : U64)
    (writes : List (U64 × Bytes)) : TrackedM Unit := do
  if writes.isEmpty then
    pure ()
  else
    let first ← onLog (takeLsns writes.length)
    let chunks ← Exec.lift (encodeChunks build first txId
      (chunksOf (chunkLen build writes.length) writes.length writes.zipIdx))
    onLog (writeBuffers device chunks)
    onLog (advancePosition (chunks.map List.length).sum)
    trackActive txId first

end TrackedLog

end JouleDB.Wal
