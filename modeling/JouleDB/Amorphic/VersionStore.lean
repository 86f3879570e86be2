import JouleDB.Amorphic.Store

/-!
# The version store of amorphic transactions

A record has a list of versions in the order of their commits.  A delete closes the last version of
the list; a read takes the newest of the versions that it sees.  Timestamps are natural numbers, and
no deletion timestamp stands for the largest one, which marks a version that is not deleted.
-/

namespace JouleDB.Amorphic

abbrev TxId := Nat
abbrev Timestamp := Nat

variable {Data Bound : Type}

/-- A version of a record. -/
structure RecordVersion (Data : Type) where
  data : Data
  writeTs : Timestamp
  deleteTs : Option Timestamp
  createdBy : Option TxId
  deriving DecidableEq

namespace RecordVersion

/-- The version is visible at a timestamp. -/
def isVisibleAt (version : RecordVersion Data) (ts : Timestamp) : Bool :=
  version.writeTs ≤ ts && version.deleteTs.all (ts < ·)

/-- The last of the versions with the largest write timestamp. -/
def latest (versions : List (RecordVersion Data)) : Option (RecordVersion Data) :=
  versions.foldl
    (fun best version =>
      match best with
      | none => some version
      | some other => if other.writeTs ≤ version.writeTs then some version else some other)
    none

/-- The version of a record that a transaction sees at a timestamp. -/
def select (versions : List (RecordVersion Data)) (ts : Timestamp) (txId : Option TxId) :
    Option (RecordVersion Data) :=
  latest (versions.filter fun version =>
    version.isVisibleAt ts || (txId.isSome && version.createdBy = txId))

/-- Close the last version unless it is closed. -/
def closeLast (deleteTs : Timestamp) : List (RecordVersion Data) → List (RecordVersion Data)
  | [] => []
  | [version] =>
      if version.deleteTs = none then [{ version with deleteTs := some deleteTs }] else [version]
  | version :: next :: rest => version :: closeLast deleteTs (next :: rest)

/-- Remove each version whose successor was written before a timestamp. -/
def sweep (minTs : Timestamp) : List (RecordVersion Data) → List (RecordVersion Data)
  | [] => []
  | [version] => [version]
  | version :: next :: rest =>
      if next.writeTs < minTs then sweep minTs (next :: rest)
      else version :: sweep minTs (next :: rest)

end RecordVersion

/-- A range was read or written. -/
inductive PredicateLockType where
  | read
  | write
  deriving DecidableEq

/-- A lock on a range of a field. -/
structure PredicateLock (Bound : Type) where
  table : String
  field : String
  min : Bound
  max : Bound
  txId : TxId
  lockType : PredicateLockType
  timestamp : Timestamp

namespace PredicateLock

variable [LE Bound] [DecidableLE Bound]

/-- The locked range has a value in common with a range of a field. -/
def overlaps (lock : PredicateLock Bound) (field : String) (min max : Bound) : Bool :=
  lock.field = field && !(max ≤ lock.min || lock.max ≤ min)

/-- Two locks conflict unless both are for reading. -/
def conflictsWith (lock other : PredicateLock Bound) : Bool :=
  if lock.lockType = .read ∧ other.lockType = .read then false
  else lock.table = other.table && lock.overlaps other.field other.min other.max

end PredicateLock

/-- Why a call of a transaction fails.  A predicate lock conflict names the other transaction and
the two locks, which the message spells out. -/
inductive TransactionError (Bound : Type) where
  | alreadyCommitted (txId : TxId)
  | alreadyAborted (txId : TxId)
  | writeConflict (record : RecordId) (holder : TxId)
  | recordModified (record : RecordId)
  | predicateLockConflict (other : TxId) (mine others : PredicateLock Bound)

/-- A buffered write. -/
inductive WriteOp (Data : Type) where
  | put (data : Data)
  | delete
  deriving DecidableEq

/-- All versions of all records, and what is known of the running transactions. -/
structure VersionStore (Data Bound : Type) where
  versions : FiniteMap RecordId (List (RecordVersion Data))
  currentTs : Timestamp
  activeTransactions : FiniteMap TxId Timestamp
  writeLocks : FiniteMap RecordId TxId
  predicateLocks : List (PredicateLock Bound)

namespace VersionStore

/-- An empty version store. -/
def new : VersionStore Data Bound := ⟨∅, 1, ∅, ∅, []⟩

/-- The versions of a record. -/
def versionsOf (store : VersionStore Data Bound) (record : RecordId) : List (RecordVersion Data) :=
  store.versions[record]?.getD []

/-- Register a transaction; it reads at the current timestamp. -/
def beginTransaction (store : VersionStore Data Bound) (txId : TxId) :
    Timestamp × VersionStore Data Bound :=
  (store.currentTs,
    { store with activeTransactions := store.activeTransactions.insert txId store.currentTs })

/-- The version of a record that is visible at a timestamp. -/
def getVersionAt (store : VersionStore Data Bound) (record : RecordId) (ts : Timestamp)
    (txId : Option TxId) : Option (RecordVersion Data) :=
  match store.versions[record]? with
  | some versions => RecordVersion.select versions ts txId
  | none => none

/-- Take the write lock on a record unless another transaction holds it. -/
def tryLock (store : VersionStore Data Bound) (record : RecordId) (txId : TxId) :
    Except (TransactionError Bound) (VersionStore Data Bound) :=
  match store.writeLocks[record]? with
  | some holder =>
      if holder ≠ txId then .error (.writeConflict record holder)
      else .ok { store with writeLocks := store.writeLocks.insert record txId }
  | none => .ok { store with writeLocks := store.writeLocks.insert record txId }

/-- Release the write locks and the predicate locks of a transaction, which is over. -/
def endTransaction (store : VersionStore Data Bound) (txId : TxId) : VersionStore Data Bound :=
  { store with
    writeLocks := store.writeLocks.filter fun _ holder => holder ≠ txId
    predicateLocks := store.predicateLocks.filter fun lock => lock.txId ≠ txId
    activeTransactions := store.activeTransactions.erase txId }

/-- Add a version. -/
def addVersion (store : VersionStore Data Bound) (record : RecordId)
    (version : RecordVersion Data) : VersionStore Data Bound :=
  { store with versions := store.versions.insert record (store.versionsOf record ++ [version]) }

/-- Mark a record as deleted. -/
def markDeleted (store : VersionStore Data Bound) (record : RecordId) (deleteTs : Timestamp) :
    VersionStore Data Bound :=
  match store.versions[record]? with
  | some versions =>
      { store with versions :=
          store.versions.insert record (RecordVersion.closeLast deleteTs versions) }
  | none => store

/-- Apply a buffered write. -/
def applyWrite (commitTs : Timestamp) (store : VersionStore Data Bound) (record : RecordId) :
    WriteOp Data → VersionStore Data Bound
  | .put data => store.addVersion record ⟨data, commitTs, none, none⟩
  | .delete => store.markDeleted record commitTs

/-- The smallest timestamp at which a running transaction reads. -/
def minActiveReadTs (store : VersionStore Data Bound) : Option Timestamp :=
  (store.activeTransactions.toList.map Prod.snd).min?

/-- Remove versions that are no longer visible. -/
def gc (store : VersionStore Data Bound) : VersionStore Data Bound :=
  let minTs := store.minActiveReadTs.getD store.currentTs
  { store with versions := store.versions.map fun _ versions => RecordVersion.sweep minTs versions }

/-- Remember a lock on a range. -/
def recordLock (store : VersionStore Data Bound) (lock : PredicateLock Bound) :
    VersionStore Data Bound :=
  { store with predicateLocks := store.predicateLocks ++ [lock] }

/-- The conflicts between the locks of a transaction and those of others. -/
def checkConflicts [LE Bound] [DecidableLE Bound] (store : VersionStore Data Bound) (txId : TxId) :
    List (PredicateLock Bound × PredicateLock Bound) :=
  let mine := store.predicateLocks.filter fun lock => lock.txId = txId
  let others := store.predicateLocks.filter fun lock => lock.txId ≠ txId
  mine.flatMap fun lock =>
    (others.filter fun other => lock.conflictsWith other).map fun other => (lock, other)

end VersionStore

end JouleDB.Amorphic
