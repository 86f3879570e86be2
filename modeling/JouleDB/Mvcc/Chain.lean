import JouleDB.Lib.Bytes
import JouleDB.Lib.LastMatch

/-!
# Version chains

Each key has a chain of versions, the newest one last.  A write puts an uncommitted version
at the end, which its transaction marks as committed later; a read takes the last committed
version that is not newer than its timestamp.  Garbage collection drops the committed
versions below a bound, except for the last of them.
-/

namespace JouleDB.Mvcc

/-- A transaction id. -/
abbrev TxId := Nat

/-- A single version in the version chain; no data means that the key was deleted. -/
structure Version where
  data : Option Bytes
  writeTs : Nat
  createdBy : TxId
  committed : Bool
  deriving DecidableEq, Repr

/-- The version, committed at a timestamp. -/
def Version.mark (commitTs : Nat) (version : Version) : Version :=
  { version with writeTs := commitTs, committed := true }

@[simp] theorem Version.mark_mark (commitTs : Nat) (version : Version) :
    (version.mark commitTs).mark commitTs = version.mark commitTs := rfl

/-- Version chain for a single key. -/
structure VersionChain where
  versions : List Version
  minRetainTs : Nat
  cachedLatestCommittedTs : Option Nat
  deriving DecidableEq, Repr

namespace VersionChain

/-- An empty version chain. -/
def new : VersionChain := ⟨[], 0, none⟩

/-- Add a new version to the chain. -/
def addVersion (chain : VersionChain) (version : Version) : VersionChain :=
  { chain with versions := chain.versions ++ [version] }

/-- The first visible version of versions in the order of the search. -/
def scanVisible (readTs : Nat) (activeTxns : List TxId) : List Version → Option Version
  | [] => none
  | version :: older =>
      -- an uncommitted version of another transaction is skipped
      if !version.committed && activeTxns.contains version.createdBy then
        scanVisible readTs activeTxns older
      else if version.committed && version.writeTs ≤ readTs then
        some version
      else
        scanVisible readTs activeTxns older

/-- Find the visible version for a read timestamp, newest first. -/
def findVisible (chain : VersionChain) (readTs : Nat) (activeTxns : List TxId) : Option Version :=
  scanVisible readTs activeTxns chain.versions.reverse

/-- The version was created by the transaction. -/
def isBy (txId : TxId) (version : Version) : Bool := version.createdBy = txId

/-- Find the last version created by a transaction. -/
def findByTxn (chain : VersionChain) (txId : TxId) : Option Version :=
  lastWith (isBy txId) chain.versions

/-- Change the last version created by a transaction. -/
def changeByTxn (chain : VersionChain) (txId : TxId) (change : Version → Version) : VersionChain :=
  { chain with versions := modifyLast (isBy txId) change chain.versions }

/-- Mark a version as committed with a timestamp. -/
def commitVersionWithTs (chain : VersionChain) (txId : TxId) (commitTs : Nat) : VersionChain :=
  let chain := chain.changeByTxn txId (Version.mark commitTs)
  match chain.cachedLatestCommittedTs with
  | some cached =>
      if cached ≥ commitTs then chain else { chain with cachedLatestCommittedTs := some commitTs }
  | none => { chain with cachedLatestCommittedTs := some commitTs }

/-- Remove the uncommitted versions of an aborted transaction. -/
def abortVersion (chain : VersionChain) (txId : TxId) : VersionChain :=
  { chain with
    versions := chain.versions.filter fun version => version.createdBy ≠ txId || version.committed }

/-- A committed version below the bound. -/
def isOld (oldestActiveTs : Nat) (version : Version) : Bool :=
  version.committed && version.writeTs < oldestActiveTs

/-- Garbage collect old versions: of the committed versions below the bound only the last one
is kept. -/
def gc (chain : VersionChain) (oldestActiveTs : Nat) : VersionChain :=
  let keeperIdx := lastIndex (isOld oldestActiveTs) chain.versions
  let versions := (chain.versions.zipIdx.filter fun indexed =>
    !indexed.1.committed || oldestActiveTs ≤ indexed.1.writeTs || some indexed.2 = keeperIdx).map
      Prod.fst
  { versions := versions
    minRetainTs := oldestActiveTs
    cachedLatestCommittedTs := ((versions.filter Version.committed).map Version.writeTs).max? }

/-- Timestamp of the latest committed version. -/
def latestCommittedTs (chain : VersionChain) : Option Nat := chain.cachedLatestCommittedTs

/-- The chain has no versions. -/
def isEmpty (chain : VersionChain) : Bool := chain.versions.isEmpty

/-- Number of versions in the chain. -/
def len (chain : VersionChain) : Nat := chain.versions.length

/-! ## Visibility -/

/-- A version that a reader at a timestamp may see. -/
def isVisible (readTs : Nat) (version : Version) : Bool :=
  version.committed && version.writeTs ≤ readTs

/-- The visible version is the last committed one that is not too new; the active transactions
do not matter. -/
theorem findVisible_eq (chain : VersionChain) (readTs : Nat) (activeTxns : List TxId) :
    chain.findVisible readTs activeTxns = lastWith (isVisible readTs) chain.versions := by
  rw [findVisible, lastWith]
  induction chain.versions.reverse with
  | nil => rfl
  | cons version older ih =>
      rw [scanVisible, List.find?_cons, isVisible]
      cases committed : version.committed with
      | true =>
          by_cases early : version.writeTs ≤ readTs
          · simp [early]
          · simp [early, ih]
      | false => simp [ih]

/-! ## Commits -/

theorem isBy_mark (txId : TxId) (commitTs : Nat) (version : Version) :
    isBy txId (version.mark commitTs) = isBy txId version := rfl

theorem commitVersionWithTs_versions (txId : TxId) (commitTs : Nat) (chain : VersionChain) :
    (chain.commitVersionWithTs txId commitTs).versions =
      modifyLast (isBy txId) (Version.mark commitTs) chain.versions := by
  rw [commitVersionWithTs]
  split
  · split <;> rfl
  · rfl

/-- A commit raises the latest committed timestamp to its own. -/
theorem commitVersionWithTs_latest (txId : TxId) (commitTs : Nat) (chain : VersionChain) :
    (chain.commitVersionWithTs txId commitTs).latestCommittedTs =
      some (max (chain.latestCommittedTs.getD 0) commitTs) := by
  rw [commitVersionWithTs, latestCommittedTs, latestCommittedTs]
  dsimp only [changeByTxn]
  split
  next cached known =>
    rw [known]
    split
    next later => simpa [known] using later
    next earlier => simp [Nat.le_of_lt (Nat.lt_of_not_le earlier)]
  next unknown => simp [unknown]

/-! ## Garbage collection -/

theorem gc_versions (chain : VersionChain) (oldestActiveTs : Nat) :
    (chain.gc oldestActiveTs).versions = keepLast (isOld oldestActiveTs) chain.versions := by
  rw [← filter_zipIdx_eq_keepLast, gc]
  dsimp only
  congr 1
  refine List.filter_congr fun indexed _ => ?_
  rw [isOld]
  cases indexed.1.committed with
  | true =>
      by_cases old : indexed.1.writeTs < oldestActiveTs
      · simp [old]
      · simp [old, Nat.le_of_not_lt old]
  | false => simp

end VersionChain

end JouleDB.Mvcc
