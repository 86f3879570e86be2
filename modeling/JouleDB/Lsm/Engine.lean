import JouleDB.Lsm.Manifest
import Mathlib.Data.List.MinMax

/-!
# The engine of the log-structured merge tree

Writes go to a table in memory, which is written to a table file of level 0 when it is large
enough.  Compaction merges table files of a level with those of the next one that overlap them; the
entry of the table with the highest id wins.
-/

namespace JouleDB.Lsm

/-- The table in memory. -/
structure MemTable where
  data : FiniteMap Bytes (Option Bytes)
  sizeBytes : Nat

namespace MemTable

def new : MemTable := ⟨∅, 0⟩

def get (memory : MemTable) (key : Bytes) : Option (Option Bytes) := memory.data[key]?

/-- Set the entry of a key, and count its size in place of that of the old entry. -/
def set (memory : MemTable) (key : Bytes) (entry : Option Bytes) (entrySize : Nat) : MemTable where
  data := memory.data.insert key entry
  sizeBytes :=
    (match memory.data[key]? with
      | some old => memory.sizeBytes - (old.map fun value => value.length + 8).getD 8
      | none => memory.sizeBytes) + entrySize

def put (memory : MemTable) (key value : Bytes) : MemTable :=
  memory.set key (some value) (key.length + value.length + 16)

def delete (memory : MemTable) (key : Bytes) : MemTable := memory.set key none (key.length + 8)

end MemTable

structure LsmConfig where
  memtableSizeThreshold : Nat
  l0CompactionTrigger : Nat
  levelSizeMultiplier : Nat
  maxLevels : Nat
  targetSstSize : Nat
  l1TargetSize : Nat

/-- The first of some levels that is larger than its target size. -/
def needsCompactionFrom (manifest : Manifest) (multiplier : Nat) : Nat → Nat → Nat → Option Nat
  | 0, _, _ => none
  | remaining + 1, level, targetSize =>
      if targetSize < manifest.levelSize level then
        some level
      else
        needsCompactionFrom manifest multiplier remaining (level + 1)
          (targetSize * multiplier % 2 ^ 64)

/-- The level that is to be compacted. -/
def needsCompaction (manifest : Manifest) (config : LsmConfig) : Option Nat :=
  if config.l0CompactionTrigger ≤ manifest.levelCount 0 then
    some 0
  else
    needsCompactionFrom manifest config.levelSizeMultiplier (config.maxLevels - 2) 1
      config.l1TargetSize

/-- The tables of a level that are compacted, with their key range. -/
def selectSources (manifest : Manifest) (level : Nat) : Option (List Nat × Bytes × Bytes) :=
  let tables := manifest.level level
  if level = 0 then
    if tables = [] then
      none
    else
      some (tables.map (·.id), (tables.map (·.firstKey)).min?.getD [],
        (tables.map (·.lastKey)).max?.getD [])
  else
    (tables.argmin (·.firstKey)).map fun pick => ([pick.id], pick.firstKey, pick.lastKey)

def rangesOverlap (aFirst aLast bFirst bLast : Bytes) : Bool := aFirst ≤ bLast && bFirst ≤ aLast

/-- The tables of a level that overlap a key range. -/
def selectTargets (manifest : Manifest) (level : Nat) (first last : Bytes) : List Nat :=
  ((manifest.level level).filter fun info =>
    rangesOverlap info.firstKey info.lastKey first last).map (·.id)

/-- Find a table of any level. -/
def findMeta (manifest : Manifest) (id : Nat) : Option SSTableMeta :=
  manifest.levels.flatten.find? (·.id = id)

/-- The tables to be merged, the one with the highest id first. -/
def inputMetas (manifest : Manifest) (ids : List Nat) : List SSTableMeta :=
  newestFirst (·.id) (ids.filterMap (findMeta manifest))

/-- The entries of tables, the newer tables first, with the position of their table. -/
def taggedEntries (tables : List SSTable) : List (Entry × Nat) :=
  tables.zipIdx.flatMap fun (table, index) => table.iter.map fun entry => (entry, index)

/-- The entries by key, and those of one key by the position of their table. -/
def sortEntries (entries : List (Entry × Nat)) : List (Entry × Nat) :=
  entries.insertionSort fun first second =>
    first.1.1 < second.1.1 ∨ first.1.1 = second.1.1 ∧ first.2 ≤ second.2

/-- Merge tables: the first entry of every key is kept. -/
def mergeTables (tables : List SSTable) (dropTombstones : Bool) : List Entry :=
  let merged := (sortEntries (taggedEntries tables)).foldl
    (fun merged entry => merged.insertIfNew entry.1.1 entry.1.2)
    (∅ : FiniteMap Bytes (Option Bytes))
  merged.toList.filter fun entry => !dropTombstones || entry.2.isSome

/-- Open table files. -/
def openAll (directory : Directory) : List SSTableMeta → Outcome IoError (List SSTable)
  | [] => .ok []
  | info :: infos => do
      let table ← directory.openTable info.id
      let tables ← openAll directory infos
      return table :: tables

/-- Merge table files. -/
def mergeSstables (directory : Directory) (infos : List SSTableMeta) (dropTombstones : Bool) :
    Outcome IoError (List Entry) := do
  let tables ← openAll directory infos
  return mergeTables tables dropTombstones

/-- How many entries are written to one table. -/
def estimateEntriesPerSst (entries : List Entry) (targetSize : Nat) : Nat :=
  if entries = [] then
    1
  else
    let totalSize := ((entries.take 100).map fun entry =>
      entry.1.length + (entry.2.map fun value => value.length + 5).getD 1 + 5).sum
    let avgEntrySize := totalSize / max (min entries.length 100) 1
    max (targetSize / max avgEntrySize 1) 1

/-- Cut a list into pieces of a positive size. -/
def chunks {α : Type} (size : Nat) : Nat → List α → List (List α)
  | 0, _ => []
  | fuel + 1, list =>
      match list with
      | [] => []
      | first :: rest => (first :: rest).take size :: chunks size fuel ((first :: rest).drop size)

/-- Write pieces to new tables of a level. -/
def writeChunks (hashing : Hashing) (level : Nat) (manifest : Manifest) :
    List (List Entry) → Manifest × List (SSTableMeta × SSTable)
  | [] => (manifest, [])
  | chunk :: rest =>
      let (id, manifest) := manifest.allocateSst
      let (manifest, written) := writeChunks hashing level manifest rest
      (manifest, writeTable hashing chunk id level :: written)

/-- Write merged entries to tables of a level. -/
def writeMergedEntries (hashing : Hashing) (config : LsmConfig) (level : Nat)
    (manifest : Manifest) (entries : List Entry) : Manifest × List (SSTableMeta × SSTable) :=
  writeChunks hashing level manifest
    (chunks (max (estimateEntriesPerSst entries config.targetSstSize) 1) entries.length entries)

/-- What a compaction has done. -/
structure CompactionResult where
  removedIds : List Nat
  newSstables : List SSTableMeta

/-- Compact a level: the manifest afterwards, and what is done to the files on the way. -/
def compactLevel (hashing : Hashing) (config : LsmConfig) (directory : Directory)
    (manifest : Manifest) (level : Nat) :
    Outcome IoError (Manifest × List FileOperation × CompactionResult) :=
  if config.maxLevels - 1 ≤ level then
    .ok (manifest, [], ⟨[], []⟩)
  else
    match selectSources manifest level with
    | none => .ok (manifest, [], ⟨[], []⟩)
    | some (sourceIds, first, last) => do
        let targetIds := selectTargets manifest (level + 1) first last
        let inputs := inputMetas manifest (sourceIds ++ targetIds)
        if inputs = [] then
          return (manifest, [], ⟨[], []⟩)
        else
          let merged ← mergeSstables directory inputs (config.maxLevels - 1 ≤ level + 1)
          let (allocated, written) :=
            writeMergedEntries hashing config (level + 1) manifest merged
          let removedIds := sourceIds ++ targetIds
          let final := (written.map Prod.fst).foldl Manifest.addSstable
            (allocated.removeSstables removedIds)
          return (final,
            written.map (fun table => .create table.1.id table.2) ++
              (removedIds.filterMap (findMeta allocated)).map (fun info => .remove info.id) ++
              final.save,
            ⟨removedIds, written.map Prod.fst⟩)

/-- The engine, with its directory. -/
structure LsmEngine where
  config : LsmConfig
  active : MemTable
  immutable : List MemTable
  manifest : Manifest
  directory : Directory

/-- A compaction that was begun: the files and the manifest before it, and the level. -/
structure Compaction where
  directory : Directory
  manifest : Manifest
  level : Nat

namespace LsmEngine

/-- Open a directory. -/
def openDirectory (config : LsmConfig) (directory : Directory) : LsmEngine where
  config := config
  active := .new
  immutable := []
  manifest := .loadOrCreate config.maxLevels directory.manifest
  directory := directory

/-- Look for a key in tables, in the order given. -/
def searchTables (hashing : Hashing) (directory : Directory) (key : Bytes) :
    List SSTableMeta → Outcome IoError (Option (Option Bytes))
  | [] => .ok none
  | info :: infos =>
      if key < info.firstKey ∨ info.lastKey < key then
        searchTables hashing directory key infos
      else do
        let table ← directory.openTable info.id
        match table.get hashing key with
        | some entry => return some entry
        | none => searchTables hashing directory key infos

/-- Look for a key in the levels. -/
def searchLevels (hashing : Hashing) (directory : Directory) (key : Bytes) :
    List (List SSTableMeta) → Outcome IoError (Option Bytes)
  | [] => .ok none
  | tables :: levels => do
      match ← searchTables hashing directory key (newestFirst (·.id) tables) with
      | some entry => return entry
      | none => searchLevels hashing directory key levels

/-- The value of a key. -/
def get (hashing : Hashing) (engine : LsmEngine) (key : Bytes) : Outcome IoError (Option Bytes) :=
  match (engine.active :: engine.immutable.reverse).findSome? (·.get key) with
  | some entry => .ok entry
  | none => searchLevels hashing engine.directory key engine.manifest.levels

/-- The calls of the engine: states, compactions and errors. -/
abbrev Engine := Exec LsmEngine Compaction IoError

/-- Write the entries of a memory table to a table file of level 0. -/
def writeMemtableToSst (hashing : Hashing) (entries : List Entry) (manifest : Manifest) :
    Manifest × List FileOperation :=
  if entries = [] then
    (manifest, [])
  else
    let (id, manifest) := manifest.allocateSst
    let (info, table) := writeTable hashing entries id 0
    let manifest := manifest.addSstable info
    (manifest, .create id table :: manifest.save)

/-- Write a memory table to the directory. -/
def writeMemtable (hashing : Hashing) (memory : MemTable) (engine : LsmEngine) : LsmEngine :=
  let (manifest, operations) := writeMemtableToSst hashing memory.data.toList engine.manifest
  { engine with
    manifest := manifest
    directory := engine.directory.performAll operations }

/-- Write the memory table to the directory. -/
def flush (hashing : Hashing) : Engine Unit :=
  Exec.modify fun engine =>
    if engine.active.data.isEmpty then
      engine
    else
      writeMemtable hashing engine.active { engine with active := .new }

/-- Write the frozen memory tables to the directory, the last one first. -/
def flushImmutables (hashing : Hashing) : Engine Unit :=
  Exec.modify fun engine =>
    engine.immutable.reverse.foldl (fun engine memory => writeMemtable hashing memory engine)
      { engine with immutable := [] }

/-- Compact a level of the engine. -/
def compactAt (hashing : Hashing) (level : Nat) : Engine Unit := do
  let engine ← Exec.get
  Exec.note ⟨engine.directory, engine.manifest, level⟩
  let (manifest, operations, _) ←
    Exec.lift (compactLevel hashing engine.config engine.directory engine.manifest level)
  Exec.modify fun engine =>
    { engine with manifest := manifest, directory := engine.directory.performAll operations }

/-- Compact a level if one needs it. -/
def compact (hashing : Hashing) : Engine Bool := do
  let engine ← Exec.get
  match needsCompaction engine.manifest engine.config with
  | some level =>
      compactAt hashing level
      return true
  | none => return false

/-- Compact until no level needs it.  The loop need not end; the fuel bounds it. -/
def compactAll (hashing : Hashing) : Nat → Engine Unit
  | 0 => Exec.stop .panic
  | fuel + 1 => do
      if ← compact hashing then compactAll hashing fuel else pure ()

/-- Freeze and write the memory table when it is large, and compact a level if one needs it. -/
def maybeFlush (hashing : Hashing) : Engine Unit := do
  let engine ← Exec.get
  if engine.config.memtableSizeThreshold ≤ engine.active.sizeBytes then
    Exec.modify fun engine =>
      { engine with active := .new, immutable := engine.immutable ++ [engine.active] }
    flushImmutables hashing
    let _ ← compact hashing
  else
    pure ()

def put (hashing : Hashing) (key value : Bytes) : Engine Unit := do
  Exec.modify fun engine => { engine with active := engine.active.put key value }
  maybeFlush hashing

def delete (hashing : Hashing) (key : Bytes) : Engine Unit := do
  Exec.modify fun engine => { engine with active := engine.active.delete key }
  maybeFlush hashing

/-- Write the memory tables and compact. -/
def sync (hashing : Hashing) (fuel : Nat) : Engine Unit := do
  flush hashing
  flushImmutables hashing
  compactAll hashing fuel

end LsmEngine

/-- The calls of the engine that write. -/
inductive Call where
  | put (key value : Bytes)
  | delete (key : Bytes)
  | flush
  | compact
  | sync (fuel : Nat)

/-- One call. -/
def Call.run (hashing : Hashing) : Call → LsmEngine.Engine Unit
  | .put key value => LsmEngine.put hashing key value
  | .delete key => LsmEngine.delete hashing key
  | .flush => LsmEngine.flush hashing
  | .compact => do
      let _ ← LsmEngine.compact hashing
  | .sync fuel => LsmEngine.sync hashing fuel

/-- Calls one after the other, as long as they return. -/
def runCalls (hashing : Hashing) : List Call → LsmEngine.Engine Unit
  | [] => pure ()
  | call :: calls => do
      call.run hashing
      runCalls hashing calls

/-- What a call does to the contents of the store. -/
def Call.effect (contents : Bytes → Option Bytes) : Call → Bytes → Option Bytes
  | .put key value => Function.update contents key (some value)
  | .delete key => Function.update contents key none
  | .flush | .compact | .sync _ => contents

/-- The value of the last put of a key that is not followed by a delete. -/
def contentsAfter (calls : List Call) : Bytes → Option Bytes :=
  calls.foldl Call.effect fun _ => none

end JouleDB.Lsm
