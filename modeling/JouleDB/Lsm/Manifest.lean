import JouleDB.Lib.FiniteMap
import JouleDB.Lib.Levels
import JouleDB.Lib.Exec
import JouleDB.Lsm.Table

/-!
# The manifest and the directory

The manifest lists the table files by level.  A directory holds table files, named by their ids,
and the saved manifest, which is written to a temporary file and renamed.
-/

namespace JouleDB.Lsm

/-- Errors of the file system. -/
inductive IoError where
  | notFound (id : Nat)
  deriving DecidableEq, Repr

/-- The manifest. -/
structure Manifest where
  levels : List (List SSTableMeta)
  nextSstId : Nat
  deriving DecidableEq

/-- The manifest as it is saved. -/
structure ManifestData where
  nextSstId : Nat
  entries : List SSTableMeta
  deriving DecidableEq

namespace Manifest

def new (maxLevels : Nat) : Manifest := ⟨.replicate maxLevels [], 1⟩

/-- The tables of a level. -/
def level (manifest : Manifest) (level : Nat) : List SSTableMeta := manifest.levels[level]?.getD []

/-- Append a table to its level, which is made if it is missing. -/
def push (levels : List (List SSTableMeta)) (info : SSTableMeta) : List (List SSTableMeta) :=
  (levels ++ .replicate (info.level + 1 - levels.length) []).modify info.level (· ++ [info])

/-- Add a table. -/
def addSstable (manifest : Manifest) (info : SSTableMeta) : Manifest :=
  { manifest with levels := push manifest.levels info }

/-- Remove tables. -/
def removeSstables (manifest : Manifest) (ids : List Nat) : Manifest :=
  { manifest with levels := manifest.levels.map (·.filter fun info => info.id ∉ ids) }

/-- A new id for a table. -/
def allocateSst (manifest : Manifest) : Nat × Manifest :=
  (manifest.nextSstId, { manifest with nextSstId := manifest.nextSstId + 1 })

def levelCount (manifest : Manifest) (level : Nat) : Nat := (manifest.level level).length

def levelSize (manifest : Manifest) (level : Nat) : Nat :=
  ((manifest.level level).map (·.sizeBytes)).sum

/-- What is saved of a manifest. -/
def data (manifest : Manifest) : ManifestData := ⟨manifest.nextSstId, manifest.levels.flatten⟩

/-- The manifest that was saved. -/
def load (maxLevels : Nat) (saved : ManifestData) : Manifest :=
  ⟨saved.entries.foldl push (.replicate maxLevels []), saved.nextSstId⟩

/-- The saved manifest, or a new one. -/
def loadOrCreate (maxLevels : Nat) : Option ManifestData → Manifest
  | some saved => load maxLevels saved
  | none => new maxLevels

section Levels

variable {manifest : Manifest} {info : SSTableMeta} {ids : List Nat}

theorem getD_push (levels : List (List SSTableMeta)) (number : Nat) :
    (push levels info)[number]?.getD [] =
      levels[number]?.getD [] ++ if number = info.level then [info] else [] := by
  have padded : ∀ count, (levels ++ List.replicate count [])[number]?.getD [] =
      levels[number]?.getD [] := by
    intro count
    rw [List.getElem?_append, List.getElem?_replicate]
    split
    · rfl
    next outside =>
      rw [List.getElem?_eq_none (Nat.le_of_not_lt outside)]
      split
      · rfl
      · rfl
  rw [← padded (info.level + 1 - levels.length), push, List.getElem?_modify]
  split
  next same =>
    have inside : number < (levels ++ List.replicate (info.level + 1 - levels.length) []).length := by
      rw [List.length_append, List.length_replicate]
      omega
    rw [if_pos same.symm, List.getElem?_eq_getElem inside]
    rfl
  next apart =>
    rw [if_neg (Ne.symm apart), List.append_nil]
    simp

@[simp] theorem level_addSstable (number : Nat) :
    (manifest.addSstable info).level number =
      manifest.level number ++ if number = info.level then [info] else [] :=
  getD_push manifest.levels number

@[simp] theorem level_removeSstables (number : Nat) :
    (manifest.removeSstables ids).level number =
      (manifest.level number).filter fun info => info.id ∉ ids := by
  rw [level, removeSstables, level, List.getElem?_map]
  cases manifest.levels[number]? with
  | none => rfl
  | some tables => rfl

theorem level_new (maxLevels number : Nat) : (new maxLevels).level number = [] := by
  rw [level, new, List.getElem?_replicate]
  split
  · rfl
  · rfl

end Levels

end Manifest

/-- A directory. -/
structure Directory where
  tables : FiniteMap Nat SSTable
  temp : Option ManifestData
  manifest : Option ManifestData

/-- What is done to the files of a directory. -/
inductive FileOperation where
  | create (id : Nat) (table : SSTable)
  | remove (id : Nat)
  | writeTemp (data : ManifestData)
  | renameTemp
  deriving DecidableEq

namespace Directory

def empty : Directory := ⟨∅, none, none⟩

/-- One file operation. -/
def perform (directory : Directory) : FileOperation → Directory
  | .create id table => { directory with tables := directory.tables.insert id table }
  | .remove id => { directory with tables := directory.tables.erase id }
  | .writeTemp data => { directory with temp := some data }
  | .renameTemp => { directory with temp := none, manifest := directory.temp.or directory.manifest }

/-- File operations one after the other. -/
def performAll (directory : Directory) (operations : List FileOperation) : Directory :=
  operations.foldl perform directory

/-- Open a table file. -/
def openTable (directory : Directory) (id : Nat) : Outcome IoError SSTable :=
  match directory.tables[id]? with
  | some table => .ok table
  | none => .err (.notFound id)

end Directory

/-- Save a manifest: write a temporary file, then rename it. -/
def Manifest.save (manifest : Manifest) : List FileOperation :=
  [.writeTemp manifest.data, .renameTemp]

end JouleDB.Lsm
