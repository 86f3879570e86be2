import JouleDB.Lsm.Crash

/-!
# File operations that fail

The calls of the engine once more, one file operation at a time, where one file operation fails and
the call returns its error.  A failure in a compaction before the old tables are deleted loses
nothing; a failure while a table in memory is written loses the table.
-/

namespace JouleDB.Lsm

/-- The file operations that can fail: a table file is written for a table in memory, or read or
written by a compaction, and a manifest is written and renamed. -/
inductive Site where
  | memoryTable
  | memoryTemp
  | memoryRename
  | input
  | output
  | mergedTemp
  | mergedRename
  deriving DecidableEq

/-- The file operation that will fail: its kind, and how many of this kind succeed before it. -/
abbrev Fault := Option (Site × Nat)

/-- Why a call fails. -/
inductive CallError where
  | io (error : IoError)
  | failed (site : Site)
  deriving DecidableEq

/-- An engine and the file operation that will fail. -/
structure Faulty where
  fault : Fault
  engine : LsmEngine

abbrev FaultyCall := Exec Faulty Compaction CallError

namespace Faulty

/-- One file operation, with its effect if it succeeds. -/
def request (site : Site) (effect : LsmEngine → LsmEngine) : FaultyCall Unit := fun state =>
  match state.fault with
  | none => ⟨.ok (), ⟨none, effect state.engine⟩, []⟩
  | some (failing, count) =>
      if failing = site then
        match count with
        | 0 => ⟨.err (.failed site), ⟨none, state.engine⟩, []⟩
        | count + 1 => ⟨.ok (), ⟨some (failing, count), effect state.engine⟩, []⟩
      else
        ⟨.ok (), ⟨some (failing, count), effect state.engine⟩, []⟩

/-- Change what is in memory. -/
def modify (change : LsmEngine → LsmEngine) : FaultyCall Unit :=
  Exec.modify fun state => { state with engine := change state.engine }

/-- Read the engine. -/
def get : FaultyCall LsmEngine := fun state => ⟨.ok state.engine, state, []⟩

/-- The effect of a file operation on the directory. -/
def perform (operation : FileOperation) (engine : LsmEngine) : LsmEngine :=
  { engine with directory := engine.directory.perform operation }

/-- Save the manifest. -/
def save (temp rename : Site) : FaultyCall Unit := do
  let engine ← get
  request temp (perform (.writeTemp engine.manifest.data))
  request rename (perform .renameTemp)

/-- Change the manifest in memory. -/
def setManifest (change : Manifest → Manifest) : FaultyCall Unit :=
  modify fun engine => { engine with manifest := change engine.manifest }

/-- Write entries to a table file of level 0. -/
def writeMemtableToSst (hashing : Hashing) (entries : List Entry) : FaultyCall Unit :=
  if entries = [] then
    pure ()
  else do
    let engine ← get
    let id := engine.manifest.nextSstId
    setManifest fun manifest => manifest.allocateSst.2
    request .memoryTable (perform (.create id (writeTable hashing entries id 0).2))
    setManifest (·.addSstable (writeTable hashing entries id 0).1)
    save .memoryTemp .memoryRename

/-- Write the memory table to the directory. -/
def flush (hashing : Hashing) : FaultyCall Unit := do
  let engine ← get
  if engine.active.data.isEmpty then
    pure ()
  else
    modify fun engine => { engine with active := .new }
    writeMemtableToSst hashing engine.active.data.toList

/-- Write frozen memory tables to the directory, the last one first. -/
def flushFrozen (hashing : Hashing) : List MemTable → FaultyCall Unit
  | [] => pure ()
  | memory :: earlier => do
      modify fun engine => { engine with immutable := earlier.reverse }
      writeMemtableToSst hashing memory.data.toList
      flushFrozen hashing earlier

def flushImmutables (hashing : Hashing) : FaultyCall Unit := do
  let engine ← get
  flushFrozen hashing engine.immutable.reverse

/-- Read table files. -/
def readInputs : List SSTableMeta → FaultyCall (List SSTable)
  | [] => pure []
  | info :: infos => do
      request .input id
      let engine ← get
      let table ← match engine.directory.tables[info.id]? with
        | some table => pure table
        | none => Exec.fail (.io (.notFound info.id))
      let tables ← readInputs infos
      return table :: tables

/-- Write table files. -/
def writeOutputs : List (SSTableMeta × SSTable) → FaultyCall Unit
  | [] => pure ()
  | output :: outputs => do
      setManifest fun manifest => manifest.allocateSst.2
      request .output (perform (.create output.1.id output.2))
      writeOutputs outputs

/-- Delete the old tables of a compaction, and list the new ones.  A failed deletion is ignored. -/
def replace (removedIds : List Nat) (written : List (SSTableMeta × SSTable)) (engine : LsmEngine) :
    LsmEngine :=
  { engine with
    manifest := (written.map Prod.fst).foldl Manifest.addSstable
      (engine.manifest.removeSstables removedIds)
    directory := engine.directory.performAll
      ((removedIds.filterMap (findMeta engine.manifest)).map fun info => .remove info.id) }

/-- Compact a level. -/
def compactLevel (hashing : Hashing) (level : Nat) : FaultyCall Unit := do
  let engine ← get
  if engine.config.maxLevels - 1 ≤ level then
    pure ()
  else
    match selectSources engine.manifest level with
    | none => pure ()
    | some (sourceIds, first, last) => do
        let removedIds := sourceIds ++ selectTargets engine.manifest (level + 1) first last
        let inputs := inputMetas engine.manifest removedIds
        if inputs = [] then
          pure ()
        else do
          let tables ← readInputs inputs
          let merged := mergeTables tables (engine.config.maxLevels - 1 ≤ level + 1)
          let written :=
            (writeMergedEntries hashing engine.config (level + 1) engine.manifest merged).2
          writeOutputs written
          modify (replace removedIds written)
          save .mergedTemp .mergedRename

def compactAt (hashing : Hashing) (level : Nat) : FaultyCall Unit := do
  let engine ← get
  Exec.note ⟨engine.directory, engine.manifest, level⟩
  compactLevel hashing level

/-- Compact a level if one needs it. -/
def compact (hashing : Hashing) : FaultyCall Bool := do
  let engine ← get
  match needsCompaction engine.manifest engine.config with
  | some level =>
      compactAt hashing level
      return true
  | none => return false

/-- Compact until no level needs it, as long as there is fuel. -/
def compactAll (hashing : Hashing) : Nat → FaultyCall Unit
  | 0 => Exec.stop .panic
  | fuel + 1 => do
      if ← compact hashing then compactAll hashing fuel else pure ()

/-- Freeze and write the memory table when it is large, and compact a level if one needs it. -/
def maybeFlush (hashing : Hashing) : FaultyCall Unit := do
  let engine ← get
  if engine.config.memtableSizeThreshold ≤ engine.active.sizeBytes then
    modify fun engine =>
      { engine with active := .new, immutable := engine.immutable ++ [engine.active] }
    flushImmutables hashing
    let _ ← compact hashing
  else
    pure ()

/-- Write the memory tables and compact. -/
def sync (hashing : Hashing) (fuel : Nat) : FaultyCall Unit := do
  flush hashing
  flushImmutables hashing
  compactAll hashing fuel

end Faulty

/-- The parts of the calls of the engine: a put or a delete writes to the table in memory and then
flushes if the table is large. -/
inductive Action where
  | put (key value : Bytes)
  | delete (key : Bytes)
  | maybeFlush
  | flush
  | compact
  | sync (fuel : Nat)

/-- One part of a call. -/
def Action.run (hashing : Hashing) : Action → FaultyCall Unit
  | .put key value => Faulty.modify fun engine =>
      { engine with active := engine.active.put key value }
  | .delete key => Faulty.modify fun engine => { engine with active := engine.active.delete key }
  | .maybeFlush => Faulty.maybeFlush hashing
  | .flush => Faulty.flush hashing
  | .compact => do
      let _ ← Faulty.compact hashing
  | .sync fuel => Faulty.sync hashing fuel

/-- What an action does to the contents of the store. -/
def Action.effect (contents : Bytes → Option Bytes) : Action → Bytes → Option Bytes
  | .put key value => Function.update contents key (some value)
  | .delete key => Function.update contents key none
  | .maybeFlush | .flush | .compact | .sync _ => contents

/-- The engine after an action in which a file operation may fail. -/
def Action.after (hashing : Hashing) (engine : LsmEngine) (action : Action) (fault : Fault) :
    LsmEngine :=
  (action.run hashing ⟨fault, engine⟩).state.engine

/-- A failure that comes before a compaction deletes its old tables, when no table in memory is on
its way to a file. -/
def Fault.Harmless (fault : Fault) : Prop :=
  ∃ count, fault = some (.input, count) ∨ fault = some (.output, count)

/-- The newest entries win in the compactions, the action returns, and if it fails, the failure is
harmless. -/
def Action.Safe (hashing : Hashing) (engine : LsmEngine) (action : Action) (fault : Fault) : Prop :=
  (∀ compaction ∈ (action.run hashing ⟨fault, engine⟩).log, compaction.NewestWins) ∧
    match (action.run hashing ⟨fault, engine⟩).outcome with
    | .ok _ => True
    | .err _ => fault.Harmless
    | .halt _ => False

theorem Action.Safe.of_ok {hashing : Hashing} {engine : LsmEngine} {action : Action}
    {fault : Fault}
    (wins : ∀ compaction ∈ (action.run hashing ⟨fault, engine⟩).log, compaction.NewestWins)
    (returned : (action.run hashing ⟨fault, engine⟩).outcome = .ok ()) :
    action.Safe hashing engine fault := by
  refine ⟨wins, ?_⟩
  rw [returned]
  trivial

/-- What is done with a directory: an action, or opening it again with any configuration. -/
inductive Work where
  | act (action : Action) (fault : Fault)
  | reopen (config : LsmConfig)

def Work.after (hashing : Hashing) (engine : LsmEngine) : Work → LsmEngine
  | .act action fault => action.after hashing engine fault
  | .reopen config => .openDirectory config engine.directory

/-- An action is safe, or the directory is opened with as many levels as hold tables. -/
def Work.Safe (hashing : Hashing) (engine : LsmEngine) : Work → Prop
  | .act action fault => action.Safe hashing engine fault
  | .reopen config =>
      ∀ level, 1 ≤ level → config.maxLevels ≤ level → engine.manifest.level level = []

section Rules

variable {α β : Type} {fault : Fault} {call : FaultyCall α} {next : α → FaultyCall β}
  {engine : LsmEngine}

/-- The file operation that will fail is of the kind of the given one, or none will fail. -/
def Fault.Pending (fault current : Fault) : Prop :=
  ∀ site count, current = some (site, count) → ∃ count, fault = some (site, count)

/-- What holds of the engine after a call in which the newest entries win, and after a harmless
failure. -/
def Meets (fault : Fault) (call : FaultyCall α) (onOk : α → LsmEngine → Prop)
    (onErr : LsmEngine → Prop) (engine : LsmEngine) : Prop :=
  ∀ current, fault.Pending current →
    Exec.Runs Compaction.NewestWins call
      (fun value state => fault.Pending state.fault ∧ onOk value state.engine)
      (fun _ state => fault.Harmless → onErr state.engine) (fun _ => True) ⟨current, engine⟩

variable {onOk : α → LsmEngine → Prop} {onErr : LsmEngine → Prop}

theorem Meets.bind {onOk' : β → LsmEngine → Prop} (first : Meets fault call onOk onErr engine)
    (second : ∀ value engine, onOk value engine → Meets fault (next value) onOk' onErr engine) :
    Meets fault (call >>= next) onOk' onErr engine := by
  intro current pending
  refine (first current pending).bind ?_
  rintro value ⟨current, engine⟩ ⟨pending, holds⟩
  exact second value engine holds current pending

theorem Meets.pure {value : α} (holds : onOk value engine) :
    Meets fault (Pure.pure value) onOk onErr engine := by
  intro current pending
  exact Exec.Runs.pure ⟨pending, holds⟩

theorem Meets.get_bind {next : LsmEngine → FaultyCall β} {onOk : β → LsmEngine → Prop}
    (rest : Meets fault (next engine) onOk onErr engine) :
    Meets fault (Faulty.get >>= next) onOk onErr engine := by
  intro current pending
  exact rest current pending

theorem Meets.modify {change : LsmEngine → LsmEngine} {onOk : Unit → LsmEngine → Prop}
    (holds : onOk () (change engine)) : Meets fault (Faulty.modify change) onOk onErr engine := by
  intro current pending
  exact Exec.Runs.modify ⟨pending, holds⟩

theorem Meets.modify_bind {change : LsmEngine → LsmEngine} {next : Unit → FaultyCall β}
    {onOk : β → LsmEngine → Prop} (rest : Meets fault (next ()) onOk onErr (change engine)) :
    Meets fault (Faulty.modify change >>= next) onOk onErr engine := by
  intro current pending
  exact rest current pending

/-- A file operation succeeds, or it is the one that fails. -/
theorem Meets.request {site : Site} {effect : LsmEngine → LsmEngine}
    {onOk : Unit → LsmEngine → Prop} (succeeds : onOk () (effect engine))
    (fails : fault.Harmless → site = .input ∨ site = .output → onErr engine) :
    Meets fault (Faulty.request site effect) onOk onErr engine := by
  intro current pending _
  cases current with
  | none => exact ⟨nofun, succeeds⟩
  | some planned =>
      obtain ⟨failing, count⟩ := planned
      by_cases same : failing = site
      · subst same
        cases count with
        | zero =>
            have ran : Faulty.request failing effect ⟨some (failing, 0), engine⟩ =
                ⟨.err (.failed failing), ⟨none, engine⟩, []⟩ := by simp [Faulty.request]
            rw [ran]
            intro harmless
            obtain ⟨total, isFault⟩ := pending failing 0 rfl
            obtain ⟨other, isHarmless⟩ := id harmless
            rw [isFault] at isHarmless
            refine fails harmless ?_
            simpa using isHarmless.imp (fun same => congrArg Prod.fst (Option.some.inj same))
              fun same => congrArg Prod.fst (Option.some.inj same)
        | succ count =>
            have ran : Faulty.request failing effect ⟨some (failing, count + 1), engine⟩ =
                ⟨.ok (), ⟨some (failing, count), effect engine⟩, []⟩ := by simp [Faulty.request]
            rw [ran]
            refine ⟨fun site other equal => ?_, succeeds⟩
            cases equal
            exact pending failing (count + 1) rfl
      · have ran : Faulty.request site effect ⟨some (failing, count), engine⟩ =
            ⟨.ok (), ⟨some (failing, count), effect engine⟩, []⟩ := by
          simp [Faulty.request, same]
        rw [ran]
        exact ⟨pending, succeeds⟩

/-- A file operation of a table in memory or of a manifest. -/
theorem Meets.request_bind {site : Site} {effect : LsmEngine → LsmEngine}
    {next : Unit → FaultyCall β} {onOk : β → LsmEngine → Prop}
    (rest : Meets fault (next ()) onOk onErr (effect engine))
    (apart : site ≠ .input ∧ site ≠ .output) :
    Meets fault (Faulty.request site effect >>= next) onOk onErr engine := by
  have succeeds : Meets fault (Faulty.request site effect)
      (fun _ reached => reached = effect engine) onErr engine :=
    Meets.request rfl fun _ same => absurd same (not_or.mpr apart)
  refine succeeds.bind ?_
  rintro _ _ rfl
  exact rest

theorem Meets.mono {onOk' : α → LsmEngine → Prop} (meets : Meets fault call onOk onErr engine)
    (weaker : ∀ value engine, onOk value engine → onOk' value engine) :
    Meets fault call onOk' onErr engine := by
  intro current pending
  exact (meets current pending).mono (fun value state holds => ⟨holds.1, weaker _ _ holds.2⟩)
    (fun _ _ holds => holds) (fun _ holds => holds)

theorem Meets.weaken {onErr' : LsmEngine → Prop} (meets : Meets fault call onOk onErr engine)
    (weaker : ∀ engine, onErr engine → onErr' engine) : Meets fault call onOk onErr' engine := by
  intro current pending
  exact (meets current pending).mono (fun _ _ holds => holds)
    (fun _ state holds harmless => weaker _ (holds harmless)) (fun _ holds => holds)

theorem Meets.note_bind {compaction : Compaction} {next : Unit → FaultyCall β}
    {onOk : β → LsmEngine → Prop}
    (rest : compaction.NewestWins → Meets fault (next ()) onOk onErr engine) :
    Meets fault (Exec.note compaction >>= next) onOk onErr engine := by
  intro current pending
  have noted : Exec.Runs Compaction.NewestWins (Exec.note compaction : FaultyCall Unit)
      (fun _ state => compaction.NewestWins ∧ state = ⟨current, engine⟩)
      (fun _ state => fault.Harmless → onErr state.engine) (fun _ => True) ⟨current, engine⟩ :=
    Exec.Runs.note fun wins => ⟨wins, rfl⟩
  refine noted.bind ?_
  rintro _ _ ⟨wins, rfl⟩
  exact rest wins current pending

/-- No compaction runs in the call. -/
def Quiet (call : FaultyCall α) : Prop := ∀ state, (call state).log = []

theorem Quiet.bind (first : Quiet call) (second : ∀ value, Quiet (next value)) :
    Quiet (call >>= next) := by
  intro state
  have quiet := first state
  cases ran : call state with
  | mk outcome middle log =>
      rw [ran] at quiet
      obtain rfl : log = [] := quiet
      cases outcome with
      | ok value =>
          rw [Exec.bind_of_ok ran]
          exact second value middle
      | err error => rw [Exec.bind_of_err ran]
      | halt cause => rw [Exec.bind_of_halt ran]

theorem quiet_request {site : Site} {effect : LsmEngine → LsmEngine} :
    Quiet (Faulty.request site effect) := by
  rintro ⟨current, engine⟩
  rw [Faulty.request]
  repeat' split
  all_goals rfl

theorem quiet_flush {hashing : Hashing} : Quiet (Faulty.flush hashing) := by
  refine Quiet.bind (fun _ => rfl) fun engine => ?_
  split
  next => exact fun _ => rfl
  next =>
    refine Quiet.bind (fun _ => rfl) fun _ => ?_
    rw [Faulty.writeMemtableToSst]
    split
    next => exact fun _ => rfl
    next =>
      refine Quiet.bind (fun _ => rfl) fun _ => ?_
      refine Quiet.bind (fun _ => rfl) fun _ => ?_
      refine Quiet.bind quiet_request fun _ => ?_
      refine Quiet.bind (fun _ => rfl) fun _ => ?_
      refine Quiet.bind (fun _ => rfl) fun _ => ?_
      exact Quiet.bind quiet_request fun _ => quiet_request

end Rules

section Flush

variable {hashing : Hashing} {fault : Fault} {engine : LsmEngine} {onErr : LsmEngine → Prop}

theorem meets_save {temp rename : Site} (tempApart : temp ≠ .input ∧ temp ≠ .output)
    (renameApart : rename ≠ .input ∧ rename ≠ .output) :
    Meets fault (Faulty.save temp rename)
      (fun _ reached => reached =
        { engine with directory := engine.directory.performAll engine.manifest.save })
      onErr engine := by
  refine Meets.get_bind ?_
  refine Meets.request_bind ?_ tempApart
  refine Meets.request ?_ fun _ same => absurd same (not_or.mpr renameApart)
  rfl

/-- A table in memory is written, unless the failure is harmful. -/
theorem meets_writeMemtable (memory : MemTable) :
    Meets fault (Faulty.writeMemtableToSst hashing memory.data.toList)
      (fun _ reached => reached = LsmEngine.writeMemtable hashing memory engine) onErr engine := by
  rw [Faulty.writeMemtableToSst]
  by_cases empty : memory.data.toList = []
  · rw [if_pos empty]
    refine Meets.pure ?_
    rw [LsmEngine.writeMemtable, LsmEngine.writeMemtableToSst, if_pos empty]
    rfl
  · rw [if_neg empty]
    refine Meets.get_bind ?_
    refine Meets.modify_bind ?_
    refine Meets.request_bind ?_ (by decide)
    refine Meets.modify_bind ?_
    refine (meets_save (by decide) (by decide)).mono ?_
    rintro _ _ rfl
    rw [LsmEngine.writeMemtable, LsmEngine.writeMemtableToSst, if_neg empty]
    rfl

end Flush

/-- The saved manifest lists the same tables, under ids that it will not give again. -/
structure Listed (maxLevels : Nat) (directory : Directory) (manifest : Manifest) : Prop where
  level : ∀ number, (Manifest.loadOrCreate maxLevels directory.manifest).level number =
    manifest.level number
  bound : ∀ number, ∀ info ∈ manifest.level number,
    info.id < (Manifest.loadOrCreate maxLevels directory.manifest).nextSstId

/-- Reads find the contents, and what is in tables is found again when the directory is opened. -/
structure Lasting (hashing : Hashing) (engine : LsmEngine) (contents : Bytes → Option Bytes) :
    Prop where
  immutable : engine.immutable = []
  carries : Carries hashing engine contents
  listed : Listed engine.config.maxLevels engine.directory engine.manifest

section Lasting

variable {hashing : Hashing} {engine : LsmEngine} {contents : Bytes → Option Bytes}

theorem Listed.of_data {maxLevels : Nat} {directory : Directory} {manifest : Manifest}
    (sound : Sound hashing maxLevels directory manifest)
    (isSaved : directory.manifest = some manifest.data) : Listed maxLevels directory manifest := by
  obtain ⟨level, nextSstId⟩ := @saved_of_data maxLevels directory manifest sound.placed isSaved
  refine ⟨level, fun number info member => ?_⟩
  rw [nextSstId]
  exact sound.bound number info member

theorem Lasting.get (lasting : Lasting hashing engine contents) (key : Bytes) :
    engine.get hashing key = .ok (contents key) :=
  lasting.carries.get lasting.immutable key

/-- An engine that has given away ids and written files that it does not list. -/
structure Grown (before after : LsmEngine) : Prop where
  config : after.config = before.config
  active : after.active = before.active
  immutable : after.immutable = before.immutable
  levels : after.manifest.levels = before.manifest.levels
  nextSstId : before.manifest.nextSstId ≤ after.manifest.nextSstId
  saved : after.directory.manifest = before.directory.manifest
  tables : ∀ id < before.manifest.nextSstId,
    after.directory.tables[id]? = before.directory.tables[id]?

theorem Grown.refl (engine : LsmEngine) : Grown engine engine :=
  ⟨rfl, rfl, rfl, rfl, le_refl _, rfl, fun _ _ => rfl⟩

theorem Grown.trans {first second third : LsmEngine} (one : Grown first second)
    (two : Grown second third) : Grown first third where
  config := two.config.trans one.config
  active := two.active.trans one.active
  immutable := two.immutable.trans one.immutable
  levels := two.levels.trans one.levels
  nextSstId := one.nextSstId.trans two.nextSstId
  saved := two.saved.trans one.saved
  tables id below := (two.tables id (below.trans_le one.nextSstId)).trans (one.tables id below)

theorem Lasting.grown (lasting : Lasting hashing engine contents) {after : LsmEngine}
    (grown : Grown engine after) : Lasting hashing after contents := by
  have level : ∀ number, after.manifest.level number = engine.manifest.level number := by
    intro number
    rw [Manifest.level, Manifest.level, grown.levels]
  have tables : ∀ number, ∀ info ∈ engine.manifest.level number,
      after.directory.tables[info.id]? = engine.directory.tables[info.id]? :=
    fun number info member => grown.tables _ (lasting.carries.sound.bound number info member)
  have sound := lasting.carries.sound
  refine ⟨grown.immutable.trans lasting.immutable, ⟨?_, ?_, ?_⟩, ?_⟩
  · rw [grown.config]
    exact sound.congr level
      (fun number info member => (sound.bound number info member).trans_le grown.nextSstId) tables
  · rw [grown.active]
    exact lasting.carries.inMemory
  · rw [grown.active]
    intro key absent
    rw [readLevel_congr key level tables]
    exact lasting.carries.inTables key absent
  · rw [grown.config]
    constructor
    · intro number
      rw [grown.saved, level]
      exact lasting.listed.level number
    · intro number info member
      rw [grown.saved]
      exact lasting.listed.bound number info (level number ▸ member)

/-- A table in memory was written, and the manifest saved. -/
theorem Lasting.writeMemtable {memory : MemTable} (immutable : engine.immutable = [])
    (listed : Listed engine.config.maxLevels engine.directory engine.manifest)
    (carries : Carries hashing (LsmEngine.writeMemtable hashing memory engine) contents) :
    Lasting hashing (LsmEngine.writeMemtable hashing memory engine) contents := by
  refine ⟨immutable, carries, ?_⟩
  rcases @writeMemtable_saves hashing engine memory with same | isSaved
  · rw [same]
    exact listed
  · exact Listed.of_data carries.sound isSaved

/-- The number of levels a directory is opened with does not change the tables it lists. -/
theorem level_loadOrCreate {first second : Nat} {saved : Option ManifestData} (number : Nat) :
    (Manifest.loadOrCreate first saved).level number =
      (Manifest.loadOrCreate second saved).level number := by
  have empty := (Manifest.level_new first number).trans (Manifest.level_new second number).symm
  cases saved with
  | none => exact empty
  | some data =>
      rw [Manifest.loadOrCreate, Manifest.loadOrCreate, Manifest.level, Manifest.level,
        Manifest.load, Manifest.load, getD_foldl_push, getD_foldl_push]
      exact congrArg (· ++ data.entries.filter fun info => info.level = number) empty

theorem nextSstId_loadOrCreate {first second : Nat} {saved : Option ManifestData} :
    (Manifest.loadOrCreate first saved).nextSstId =
      (Manifest.loadOrCreate second saved).nextSstId := by
  cases saved with
  | none => rfl
  | some data => rfl

/-- The directory of an engine is opened again: what was in tables is still there. -/
theorem Lasting.reopen (lasting : Lasting hashing engine contents) {config : LsmConfig}
    (deep : ∀ level, 1 ≤ level → config.maxLevels ≤ level → engine.manifest.level level = []) :
    ∃ kept, Lasting hashing (.openDirectory config engine.directory) kept ∧
      ∀ key, engine.active.get key = none → kept key = contents key := by
  have level : ∀ number, (Manifest.loadOrCreate config.maxLevels engine.directory.manifest).level
      number = engine.manifest.level number := by
    intro number
    rw [← lasting.listed.level number]
    exact level_loadOrCreate number
  have nextSstId := @nextSstId_loadOrCreate config.maxLevels engine.config.maxLevels
    engine.directory.manifest
  have bound : ∀ number, ∀ info ∈ engine.manifest.level number,
      info.id < (Manifest.loadOrCreate config.maxLevels engine.directory.manifest).nextSstId := by
    intro number info member
    rw [nextSstId]
    exact lasting.listed.bound number info member
  have opened := lasting.carries.sound.congr level bound fun _ _ _ => rfl
  have sound : Sound hashing config.maxLevels engine.directory
      (.loadOrCreate config.maxLevels engine.directory.manifest) :=
    { opened with
      depth := fun number below isDeep => (level number).trans (deep number below isDeep) }
  choose kept searched resolves using fun key => sound.searchLevels key
  refine ⟨kept, ⟨rfl, ⟨sound, ?_, fun key _ => resolves key⟩, ⟨fun _ => rfl, sound.bound⟩⟩, ?_⟩
  · intro key entry found
    simp [LsmEngine.openDirectory, MemTable.new, MemTable.get] at found
  · intro key absent
    have resolved := resolves key
    rw [readLevel_congr key level fun _ _ _ => rfl] at resolved
    exact resolved.unique (lasting.carries.inTables key absent)

end Lasting

section Compaction

variable {hashing : Hashing} {fault : Fault} {engine : LsmEngine} {contents : Bytes → Option Bytes}

theorem meets_readInputs {infos : List SSTableMeta}
    (files : ∀ info ∈ infos, ∃ table, engine.directory.tables[info.id]? = some table) :
    Meets fault (Faulty.readInputs infos)
      (fun tables reached => engine = reached ∧ openAll engine.directory infos = .ok tables)
      (Grown engine) engine := by
  induction infos with
  | nil => exact Meets.pure ⟨rfl, rfl⟩
  | cons info infos ih =>
      obtain ⟨⟨table, found⟩, files⟩ := List.forall_mem_cons.mp files
      rw [Faulty.readInputs]
      have read : Meets fault (Faulty.request .input id) (fun _ reached => engine = reached)
          (Grown engine) engine := Meets.request rfl fun _ _ => Grown.refl engine
      refine read.bind ?_
      rintro _ _ rfl
      refine Meets.get_bind ?_
      rw [found]
      have here : Meets fault (pure table) (fun value reached => table = value ∧ engine = reached)
          (Grown engine) engine := Meets.pure ⟨rfl, rfl⟩
      refine here.bind ?_
      rintro _ _ ⟨rfl, rfl⟩
      refine (ih files).bind ?_
      rintro tables _ ⟨rfl, opened⟩
      refine Meets.pure ⟨rfl, ?_⟩
      rw [openAll, Directory.openTable, found, Outcome.ok_bind, opened]
      rfl

/-- The outputs of a compaction are written, under new ids. -/
theorem meets_writeOutputs {written : List (SSTableMeta × SSTable)} {start : LsmEngine}
    (grown : Grown start engine)
    (fresh : ∀ output ∈ written, start.manifest.nextSstId ≤ output.1.id) :
    Meets fault (Faulty.writeOutputs written)
      (fun _ reached => reached =
        { engine with
          manifest :=
            { engine.manifest with nextSstId := engine.manifest.nextSstId + written.length }
          directory := engine.directory.performAll
            (written.map fun output => .create output.1.id output.2) })
      (Grown start) engine := by
  induction written generalizing engine with
  | nil => exact Meets.pure rfl
  | cons output written ih =>
      obtain ⟨isFresh, fresh⟩ := List.forall_mem_cons.mp fresh
      rw [Faulty.writeOutputs]
      refine Meets.modify_bind ?_
      have allocated : Grown start
          { engine with manifest := engine.manifest.allocateSst.2 } :=
        grown.trans ⟨rfl, rfl, rfl, rfl, Nat.le_succ _, rfl, fun _ _ => rfl⟩
      have create : Meets fault
          (Faulty.request .output (Faulty.perform (.create output.1.id output.2)))
          (fun _ reached => reached = Faulty.perform (.create output.1.id output.2)
            { engine with manifest := engine.manifest.allocateSst.2 })
          (Grown start) { engine with manifest := engine.manifest.allocateSst.2 } :=
        Meets.request rfl fun _ _ => allocated
      have created : Grown start (Faulty.perform (.create output.1.id output.2)
          { engine with manifest := engine.manifest.allocateSst.2 }) := by
        refine ⟨allocated.config, allocated.active, allocated.immutable, allocated.levels,
          allocated.nextSstId, allocated.saved, fun id below => ?_⟩
        refine Eq.trans ?_ (grown.tables id below)
        change (engine.directory.tables.insert output.1.id output.2)[id]? = _
        rw [Std.ExtTreeMap.getElem?_insert, if_neg]
        simp only [Std.LawfulEqCmp.compare_eq_iff_eq]
        omega
      refine create.bind ?_
      rintro _ _ rfl
      refine (ih created fresh).mono ?_
      rintro _ _ rfl
      simp [Faulty.perform, Manifest.allocateSst, Directory.performAll, Nat.add_assoc,
        Nat.add_comm 1]

/-- A compaction that succeeds does what it does where no file operation fails. -/
theorem meets_compactLevel (level : Nat)
    (sound : Sound hashing engine.config.maxLevels engine.directory engine.manifest) :
    Meets fault (Faulty.compactLevel hashing level)
      (fun _ reached => ∃ final operations result,
        compactLevel hashing engine.config engine.directory engine.manifest level =
          .ok (final, operations, result) ∧
        reached = { engine with
          manifest := final, directory := engine.directory.performAll operations } ∧
        (final = engine.manifest ∧ operations = [] ∨
          (engine.directory.performAll operations).manifest = some final.data))
      (Grown engine) engine := by
  rw [Faulty.compactLevel]
  refine Meets.get_bind ?_
  rw [compactLevel]
  by_cases shallow : engine.config.maxLevels - 1 ≤ level
  · rw [if_pos shallow, if_pos shallow]
    exact Meets.pure ⟨_, _, _, rfl, rfl, Or.inl ⟨rfl, rfl⟩⟩
  rw [if_neg shallow, if_neg shallow]
  cases selected : selectSources engine.manifest level with
  | none => exact Meets.pure ⟨_, _, _, rfl, rfl, Or.inl ⟨rfl, rfl⟩⟩
  | some selection =>
      obtain ⟨sources, first, last⟩ := selection
      dsimp only
      generalize sources ++ selectTargets engine.manifest (level + 1) first last = removed
      by_cases empty : inputMetas engine.manifest removed = []
      · rw [if_pos empty, if_pos empty]
        exact Meets.pure ⟨_, _, _, rfl, rfl, Or.inl ⟨rfl, rfl⟩⟩
      rw [if_neg empty, if_neg empty]
      have files : ∀ info ∈ inputMetas engine.manifest removed,
          ∃ table, engine.directory.tables[info.id]? = some table := by
        intro info member
        rw [inputMetas, newestFirst_perm.mem_iff] at member
        obtain ⟨id, -, found⟩ := List.mem_filterMap.mp member
        obtain ⟨number, listed⟩ := mem_flatten_levels.mp (List.mem_of_find?_eq_some found)
        obtain ⟨table, isTable, -⟩ := sound.files number info listed
        exact ⟨table, isTable⟩
      refine (meets_readInputs files).bind ?_
      rintro tables _ ⟨rfl, opened⟩
      simp only [mergeSstables, opened, Outcome.ok_bind, Outcome.pure_eq]
      generalize mergeTables tables (decide (engine.config.maxLevels - 1 ≤ level + 1)) = merged
      rw [writeMergedEntries, writeChunks_eq]
      generalize chunks _ merged.length merged = pieces
      dsimp only
      have fresh : ∀ output ∈ (pieces.zipIdx engine.manifest.nextSstId).map
          (fun piece => writeTable hashing piece.1 piece.2 (level + 1)),
          engine.manifest.nextSstId ≤ output.1.id := by
        intro output member
        obtain ⟨⟨piece, id⟩, inside, rfl⟩ := List.mem_map.mp member
        exact (List.mem_zipIdx inside).1
      refine (meets_writeOutputs (Grown.refl engine) fresh).bind ?_
      rintro _ _ rfl
      refine Meets.modify_bind ?_
      refine (meets_save (by decide) (by decide)).mono ?_
      rintro _ _ rfl
      refine ⟨_, _, _, rfl, ?_, Or.inr (by rw [performAll_append]; rfl)⟩
      rw [performAll_append, performAll_append]
      simp only [Faulty.replace, List.length_map, List.length_zipIdx]

theorem meets_compactAt (lasting : Lasting hashing engine contents) (level : Nat) :
    Meets fault (Faulty.compactAt hashing level) (fun _ reached => Lasting hashing reached contents)
      (fun reached => Lasting hashing reached contents) engine := by
  rw [Faulty.compactAt]
  refine Meets.get_bind ?_
  refine Meets.note_bind fun wins => ?_
  refine ((meets_compactLevel level lasting.carries.sound).mono ?_).weaken
    fun reached grown => lasting.grown grown
  rintro _ _ ⟨final, operations, result, returned, rfl, saves⟩
  obtain ⟨final', operations', result', returned', sound, -, resolves⟩ :=
    compactLevel_sound hashing lasting.carries.sound wins
  rw [returned] at returned'
  cases returned'
  refine ⟨lasting.immutable, ⟨sound, lasting.carries.inMemory,
    fun key absent => resolves key _ (lasting.carries.inTables key absent)⟩, ?_⟩
  rcases saves with ⟨rfl, rfl⟩ | isSaved
  · exact lasting.listed
  · exact Listed.of_data sound isSaved

theorem meets_compact (lasting : Lasting hashing engine contents) :
    Meets fault (Faulty.compact hashing) (fun _ reached => Lasting hashing reached contents)
      (fun reached => Lasting hashing reached contents) engine := by
  rw [Faulty.compact]
  refine Meets.get_bind ?_
  split
  next level _ =>
    exact (meets_compactAt lasting level).bind fun _ reached lasting => Meets.pure lasting
  next => exact Meets.pure lasting

theorem meets_compactAll (fuel : Nat) (lasting : Lasting hashing engine contents) :
    Meets fault (Faulty.compactAll hashing fuel)
      (fun _ reached => Lasting hashing reached contents)
      (fun reached => Lasting hashing reached contents) engine := by
  induction fuel generalizing engine with
  | zero =>
      intro current pending
      exact Exec.Runs.stop trivial
  | succ fuel ih =>
      rw [Faulty.compactAll]
      refine (meets_compact lasting).bind ?_
      intro again reached lasting
      cases again with
      | true => exact ih lasting
      | false => exact Meets.pure lasting

end Compaction

section Actions

variable {hashing : Hashing} {fault : Fault} {engine : LsmEngine} {contents : Bytes → Option Bytes}

theorem meets_flush (lasting : Lasting hashing engine contents) :
    Meets fault (Faulty.flush hashing)
      (fun _ reached => Lasting hashing reached contents ∧ ∀ key, reached.active.get key = none)
      (fun reached => Lasting hashing reached contents) engine := by
  rw [Faulty.flush]
  refine Meets.get_bind ?_
  split
  next empty =>
    refine Meets.pure ⟨lasting, fun key => ?_⟩
    rw [MemTable.get, Std.ExtTreeMap.isEmpty_iff.mp empty]
    simp
  next =>
    refine Meets.modify_bind ?_
    refine (meets_writeMemtable engine.active).mono ?_
    rintro _ _ rfl
    have carries := lasting.carries
    refine ⟨Lasting.writeMemtable lasting.immutable lasting.listed
      (writeMemtable_carries rfl carries.sound carries.inMemory carries.inTables), fun key => ?_⟩
    simp [LsmEngine.writeMemtable, MemTable.get, MemTable.new]

theorem meets_maybeFlush (lasting : Lasting hashing engine contents) :
    Meets fault (Faulty.maybeFlush hashing) (fun _ reached => Lasting hashing reached contents)
      (fun reached => Lasting hashing reached contents) engine := by
  rw [Faulty.maybeFlush]
  refine Meets.get_bind ?_
  split
  next =>
    refine Meets.modify_bind ?_
    have frozen : Meets fault (Faulty.flushImmutables hashing)
        (fun _ reached => Lasting hashing reached contents)
        (fun reached => Lasting hashing reached contents)
        { engine with active := .new, immutable := engine.immutable ++ [engine.active] } := by
      rw [Faulty.flushImmutables]
      refine Meets.get_bind ?_
      dsimp only
      rw [lasting.immutable, List.nil_append, List.reverse_singleton, Faulty.flushFrozen]
      refine Meets.modify_bind ?_
      refine (meets_writeMemtable engine.active).bind ?_
      rintro _ _ rfl
      have carries := lasting.carries
      exact Meets.pure (Lasting.writeMemtable rfl lasting.listed
        (writeMemtable_carries rfl carries.sound carries.inMemory carries.inTables))
    refine frozen.bind ?_
    intro _ reached lasting
    exact (meets_compact lasting).bind fun _ reached lasting => Meets.pure lasting
  next => exact Meets.pure lasting

/-- Every action does to the engine what it does to the contents, also if it fails harmlessly. -/
theorem meets_run (lasting : Lasting hashing engine contents) (action : Action) :
    Meets fault (action.run hashing)
      (fun _ reached => Lasting hashing reached (action.effect contents))
      (fun reached => Lasting hashing reached (action.effect contents)) engine := by
  cases action with
  | put key value =>
      rw [Action.run]
      refine Meets.modify ?_
      exact ⟨lasting.immutable, lasting.carries.set key (some value) _, lasting.listed⟩
  | delete key =>
      rw [Action.run]
      refine Meets.modify ?_
      exact ⟨lasting.immutable, lasting.carries.set key none _, lasting.listed⟩
  | maybeFlush => exact meets_maybeFlush lasting
  | flush => exact (meets_flush lasting).mono fun _ _ holds => holds.1
  | compact => exact (meets_compact lasting).bind fun _ reached lasting => Meets.pure lasting
  | sync fuel =>
      refine (meets_flush lasting).bind ?_
      rintro _ reached ⟨lasting, -⟩
      have nothing : Meets fault (Faulty.flushImmutables hashing)
          (fun _ reached => Lasting hashing reached contents)
          (fun reached => Lasting hashing reached contents) reached := by
        rw [Faulty.flushImmutables]
        refine Meets.get_bind ?_
        rw [lasting.immutable]
        exact Meets.pure lasting
      exact nothing.bind fun _ reached lasting => meets_compactAll fuel lasting

theorem Lasting.after (lasting : Lasting hashing engine contents) {action : Action}
    (safe : action.Safe hashing engine fault) :
    Lasting hashing (action.after hashing engine fault) (action.effect contents) := by
  obtain ⟨wins, ends⟩ := safe
  have reached := meets_run lasting action fault (fun site count same => ⟨count, same⟩) wins
  rw [Action.after]
  revert reached ends
  cases (action.run hashing ⟨fault, engine⟩).outcome with
  | ok value => exact fun _ reached => reached.2
  | err error => exact fun harmless reached => reached harmless
  | halt cause => exact fun impossible => impossible.elim

/-- The engine lasts with some contents. -/
def Sturdy (hashing : Hashing) (engine : LsmEngine) : Prop :=
  ∃ contents, Lasting hashing engine contents

theorem Sturdy.after (sturdy : Sturdy hashing engine) {work : Work}
    (safe : work.Safe hashing engine) : Sturdy hashing (work.after hashing engine) := by
  obtain ⟨contents, lasting⟩ := sturdy
  cases work with
  | act action fault => exact ⟨_, lasting.after safe⟩
  | reopen config =>
      obtain ⟨kept, lasts, _⟩ := lasting.reopen safe
      exact ⟨kept, lasts⟩

theorem start_sturdy (hashing : Hashing) (config : LsmConfig) :
    Sturdy hashing (.openDirectory config .empty) := by
  have holds := @start_holds hashing config
  refine ⟨_, holds.immutable, holds.carries, holds.saved.level, fun number info member => ?_⟩
  rw [holds.saved.nextSstId]
  exact holds.sound.bound number info member

/-- The works on a directory are safe, one after the other. -/
abbrev SafeWorks (hashing : Hashing) (engine : LsmEngine) (works : List Work) : Prop :=
  AllMeet (fun engine work => work.after hashing engine)
    (fun engine work => work.Safe hashing engine) engine works

/-- An engine after works on its directory. -/
def worked (hashing : Hashing) (engine : LsmEngine) (works : List Work) : LsmEngine :=
  works.foldl (fun engine work => work.after hashing engine) engine

theorem Sturdy.run {works : List Work} (sturdy : Sturdy hashing engine)
    (safe : SafeWorks hashing engine works) : Sturdy hashing (worked hashing engine works) :=
  AllMeet.invariant (motive := Sturdy hashing) (fun _ _ sturdy safe => sturdy.after safe) sturdy
    safe

/-- Two engines answer every read with the same value. -/
def SameReads (hashing : Hashing) (before after : LsmEngine) : Prop :=
  ∀ key, ∃ value, before.get hashing key = .ok value ∧ after.get hashing key = .ok value

/-- **A failed flush loses nothing**, if the failure is harmless: reads return what they returned
before, and what any later safe works leave is in the directory after the next flush that
succeeds. -/
theorem failed_flush_loses_nothing (hashing : Hashing) (config : LsmConfig) (works : List Work)
    (safe : SafeWorks hashing (.openDirectory config .empty) works) (action : Action)
    (fault : Fault) (error : CallError) :
    let engine := worked hashing (.openDirectory config .empty) works
    let failed := action.after hashing engine fault
    action.Safe hashing engine fault →
    (action.run hashing ⟨fault, engine⟩).outcome = .err error →
    SameReads hashing engine failed ∧
      ∀ later, SafeWorks hashing failed later →
        let reached := worked hashing failed later
        ∀ fault, (Faulty.flush hashing ⟨fault, reached⟩).outcome = .ok () →
          let flushed := (Faulty.flush hashing ⟨fault, reached⟩).state.engine
          SameReads hashing reached (.openDirectory flushed.config flushed.directory) := by
  intro engine failed safeAction outcome
  obtain ⟨contents, lasting⟩ := (start_sturdy hashing config).run safe
  have after := lasting.after safeAction
  have unchanged : action.effect contents = contents := by
    cases action with
    | put key value => cases outcome
    | delete key => cases outcome
    | maybeFlush | flush | compact | sync fuel => rfl
  rw [unchanged] at after
  refine ⟨fun key => ⟨contents key, lasting.get key, after.get key⟩, ?_⟩
  intro later safeLater reached fault succeeded flushed key
  obtain ⟨final, lasts⟩ := Sturdy.run ⟨contents, after⟩ safeLater
  have quiet : ∀ compaction ∈ (Faulty.flush hashing ⟨fault, reached⟩).log,
      compaction.NewestWins := by simp [quiet_flush ⟨fault, reached⟩]
  have ends := @meets_flush hashing fault _ _ lasts fault (fun site count same => ⟨count, same⟩)
    quiet
  rw [succeeded] at ends
  obtain ⟨kept, reopened, same⟩ := ends.2.1.reopen ends.2.1.carries.sound.depth
  exact ⟨final key, lasts.get key, same key (ends.2.2 key) ▸ reopened.get key⟩

end Actions

/-- An engine after a put. -/
def unflushed : LsmEngine :=
  worked byteHashing (.openDirectory smallConfig .empty) [.act (.put [1] [2]) none]

theorem failed_flush_loses_nothing_input :
    let engine := worked byteHashing (.openDirectory smallConfig .empty)
      [.act (.put [1] [2]) none, .act .flush none]
    let failed := Action.after byteHashing engine (.sync 3) (some (.input, 0))
    SameReads byteHashing engine failed ∧
      ∀ later, SafeWorks byteHashing failed later →
        let reached := worked byteHashing failed later
        ∀ fault, (Faulty.flush byteHashing ⟨fault, reached⟩).outcome = .ok () →
          let flushed := (Faulty.flush byteHashing ⟨fault, reached⟩).state.engine
          SameReads byteHashing reached (.openDirectory flushed.config flushed.directory) := by
  have quiet : ∀ {engine : LsmEngine} {action : Action} {fault : Fault},
      (∀ compaction ∈ (action.run byteHashing ⟨fault, engine⟩).log, compaction.level = 0) →
      ∀ compaction ∈ (action.run byteHashing ⟨fault, engine⟩).log, compaction.NewestWins :=
    fun top compaction member apart => absurd (top compaction member) apart
  have fails : (Action.run byteHashing (.sync 3) ⟨some (.input, 0),
      worked byteHashing (.openDirectory smallConfig .empty)
        [.act (.put [1] [2]) none, .act .flush none]⟩).outcome = .err (.failed .input) := by
    decide +kernel
  refine failed_flush_loses_nothing byteHashing smallConfig
    [.act (.put [1] [2]) none, .act .flush none] ?_ (.sync 3) (some (.input, 0)) (.failed .input) ?_
    fails
  · exact ⟨.of_ok (quiet (by decide +kernel)) (by decide +kernel),
      .of_ok (quiet (by decide +kernel)) (by decide +kernel), trivial⟩
  · refine ⟨quiet (by decide +kernel), ?_⟩
    rw [fails]
    exact ⟨0, .inl rfl⟩

/-- If the table file cannot be written, a read no longer finds the value.  If the manifest cannot
be renamed, it is found until the directory is opened again, also after another flush. -/
theorem not_failed_flush_loses_nothing :
    unflushed.get byteHashing [1] = .ok (some [2]) ∧
      (Action.run byteHashing .flush ⟨some (.memoryTable, 0), unflushed⟩).outcome =
        .err (.failed .memoryTable) ∧
      (Action.after byteHashing unflushed .flush (some (.memoryTable, 0))).get byteHashing [1] =
        .ok none ∧
      (Action.run byteHashing .flush ⟨some (.memoryRename, 0), unflushed⟩).outcome =
        .err (.failed .memoryRename) ∧
      (let failed := Action.after byteHashing unflushed .flush (some (.memoryRename, 0))
      (Faulty.flush byteHashing ⟨none, failed⟩).outcome = .ok () ∧
        (worked byteHashing failed [.act .flush none, .reopen smallConfig]).get byteHashing [1] =
          .ok none) := by
  refine ⟨?_, ?_, ?_, ?_, ?_, ?_⟩ <;> decide +kernel

end JouleDB.Lsm
