import JouleDB.Lsm.Compact

/-!
# The engine refines a finite map
-/

namespace JouleDB.Lsm

section Flush

variable {hashing : Hashing} {maxLevels : Nat} {directory : Directory} {manifest : Manifest}
  {entries : List Entry}

/-- The manifest after entries were written to a new table of level 0. -/
def flushed (hashing : Hashing) (entries : List Entry) (manifest : Manifest) : Manifest :=
  { manifest with nextSstId := manifest.nextSstId + 1 }.addSstable
    (writeTable hashing entries manifest.nextSstId 0).1

theorem writeMemtableToSst_eq (hashing : Hashing) (manifest : Manifest) (filled : entries ≠ []) :
    LsmEngine.writeMemtableToSst hashing entries manifest =
      (flushed hashing entries manifest,
        .create manifest.nextSstId (writeTable hashing entries manifest.nextSstId 0).2 ::
          (flushed hashing entries manifest).save) := by
  rw [LsmEngine.writeMemtableToSst, if_neg filled]
  rfl

theorem level_flushed (number : Nat) :
    (flushed hashing entries manifest).level number = manifest.level number ++
      if number = 0 then [(writeTable hashing entries manifest.nextSstId 0).1] else [] :=
  Manifest.level_addSstable number

theorem tables_flushed (table : SSTable) (id : Nat) :
    (directory.performAll (.create manifest.nextSstId table ::
      (flushed hashing entries manifest).save)).tables[id]? =
      if manifest.nextSstId = id then some table else directory.tables[id]? := by
  change (directory.tables.insert manifest.nextSstId table)[id]? = _
  rw [Std.ExtTreeMap.getElem?_insert]
  simp only [Std.LawfulEqCmp.compare_eq_iff_eq]

variable (sound : Sound hashing maxLevels directory manifest) (sorted : Sorted entries)
  (filled : entries ≠ [])

include sound

theorem Sound.tables_flushed_of_mem {level : Nat} {info : SSTableMeta} (table : SSTable)
    (member : info ∈ manifest.level level) :
    (directory.performAll (.create manifest.nextSstId table ::
      (flushed hashing entries manifest).save)).tables[info.id]? = directory.tables[info.id]? := by
  have bound := sound.bound level info member
  rw [tables_flushed, if_neg (by omega)]

include sorted filled

theorem Sound.flush :
    Sound hashing maxLevels
      (directory.performAll
        (.create manifest.nextSstId (writeTable hashing entries manifest.nextSstId 0).2 ::
          (flushed hashing entries manifest).save))
      (flushed hashing entries manifest) := by
  have written := writeTable_describes hashing sorted filled manifest.nextSstId 0
  have cases : ∀ {level : Nat} {info : SSTableMeta},
      info ∈ (flushed hashing entries manifest).level level → info ∈ manifest.level level ∨
        level = 0 ∧ info = (writeTable hashing entries manifest.nextSstId 0).1 := by
    intro level info member
    rw [level_flushed] at member
    rcases List.mem_append.mp member with old | new
    · exact .inl old
    · split at new
      next isZero => exact .inr ⟨isZero, List.mem_singleton.mp new⟩
      next => cases new
  have unchanged : ∀ {level : Nat}, level ≠ 0 →
      (flushed hashing entries manifest).level level = manifest.level level := by
    intro level apart
    rw [level_flushed, if_neg apart, List.append_nil]
  constructor
  · intro level info member
    rcases cases member with old | ⟨_, rfl⟩
    · rw [sound.tables_flushed_of_mem _ old]
      exact sound.files level info old
    · refine ⟨_, ?_, written.1⟩
      rw [tables_flushed]
      exact if_pos rfl
  · intro level info member
    rcases cases member with old | ⟨rfl, rfl⟩
    · exact sound.placed level info old
    · rfl
  · intro level info member level' info' member' same
    rcases cases member with old | ⟨_, rfl⟩
    · rcases cases member' with old' | ⟨_, rfl⟩
      · exact sound.ids level info old level' info' old' same
      · exact absurd same (Nat.ne_of_lt (sound.bound level info old))
    · rcases cases member' with old' | ⟨_, rfl⟩
      · exact absurd same.symm (Nat.ne_of_lt (sound.bound level' info' old'))
      · rfl
  · intro level info member
    rcases cases member with old | ⟨_, rfl⟩
    · exact (sound.bound level info old).trans (Nat.lt_succ_self _)
    · exact Nat.lt_succ_self _
  · intro level below
    rw [unchanged (by omega)]
    exact sound.apart level below
  · intro info member older isOlder
    rw [unchanged (by omega)] at isOlder
    rcases cases member with old | ⟨_, rfl⟩
    · exact sound.order info old older isOlder
    · exact sound.bound 1 older isOlder
  · intro level below deep
    rw [unchanged (by omega)]
    exact sound.depth level below deep

/-- Level 0 answers with the new table first, and the other levels answer as before. -/
theorem Sound.readLevel_flush (key : Bytes) (level : Nat) :
    readLevel (directory.performAll
        (.create manifest.nextSstId (writeTable hashing entries manifest.nextSstId 0).2 ::
          (flushed hashing entries manifest).save))
      (flushed hashing entries manifest) key level =
      if level = 0 then (entries.lookup key).or (readLevel directory manifest key 0)
      else readLevel directory manifest key level := by
  have read : ∀ {level : Nat}, ∀ info ∈ manifest.level level,
      readTable (directory.performAll
        (.create manifest.nextSstId (writeTable hashing entries manifest.nextSstId 0).2 ::
          (flushed hashing entries manifest).save)) key info = readTable directory key info := by
    intro level info member
    rw [readTable, readTable, sound.tables_flushed_of_mem _ member]
  rw [readLevel, level_flushed]
  split
  next isZero =>
    subst isZero
    have new : newest (·.id) (readTable (directory.performAll
        (.create manifest.nextSstId (writeTable hashing entries manifest.nextSstId 0).2 ::
          (flushed hashing entries manifest).save)) key)
        [(writeTable hashing entries manifest.nextSstId 0).1] = entries.lookup key := by
      have written := writeTable_describes hashing sorted filled manifest.nextSstId 0
      have isNew : manifest.nextSstId =
          (writeTable hashing entries manifest.nextSstId 0).1.id := rfl
      rw [newest_singleton, readTable, tables_flushed, if_pos isNew, Option.bind_some, written.2]
    rw [← new, readLevel, ← newest_congr read]
    apply newest_eq_or
    · intro info
      rw [List.mem_append]
      exact or_comm
    · intro one isOne two isTwo
      have isOne' : one ∈ (flushed hashing entries manifest).level 0 := by
        rwa [level_flushed, if_pos rfl]
      have isTwo' : two ∈ (flushed hashing entries manifest).level 0 := by
        rwa [level_flushed, if_pos rfl]
      exact (sound.flush sorted filled).ids 0 one isOne' 0 two isTwo'
    · intro info isNew older isOlder _ _
      rw [List.mem_singleton.mp isNew]
      exact sound.bound 0 older isOlder
  next apart =>
    rw [List.append_nil]
    exact newest_congr read

end Flush

/-- Reads of the engine find the contents: in memory, or in the levels of a sound directory. -/
structure Carries (hashing : Hashing) (engine : LsmEngine) (contents : Bytes → Option Bytes) :
    Prop where
  sound : Sound hashing engine.config.maxLevels engine.directory engine.manifest
  inMemory : ∀ key entry, engine.active.get key = some entry → contents key = entry
  inTables : ∀ key, engine.active.get key = none →
    Resolves (readLevel engine.directory engine.manifest key) (contents key)

/-- The engine holds the contents: in memory, or in the levels of a sound directory. -/
structure Holds (hashing : Hashing) (engine : LsmEngine) (contents : Bytes → Option Bytes) :
    Prop where
  immutable : engine.immutable = []
  sound : Sound hashing engine.config.maxLevels engine.directory engine.manifest
  saved : Saved engine.config.maxLevels engine.directory engine.manifest
  inMemory : ∀ key entry, engine.active.get key = some entry → contents key = entry
  inTables : ∀ key, engine.active.get key = none →
    Resolves (readLevel engine.directory engine.manifest key) (contents key)

section Engine

variable {hashing : Hashing} {engine : LsmEngine} {contents : Bytes → Option Bytes}

theorem Holds.carries (holds : Holds hashing engine contents) : Carries hashing engine contents :=
  ⟨holds.sound, holds.inMemory, holds.inTables⟩

theorem Carries.get (carries : Carries hashing engine contents) (immutable : engine.immutable = [])
    (key : Bytes) : engine.get hashing key = .ok (contents key) := by
  rw [LsmEngine.get, immutable, List.reverse_nil, List.findSome?_singleton]
  split
  next entry found => rw [carries.inMemory key entry found]
  next absent =>
    obtain ⟨value, searched, resolves⟩ := carries.sound.searchLevels key
    rw [searched, resolves.unique (carries.inTables key absent)]

theorem Holds.get (holds : Holds hashing engine contents) (key : Bytes) :
    engine.get hashing key = .ok (contents key) :=
  holds.carries.get holds.immutable key

theorem empty_sound (maxLevels : Nat) :
    Sound hashing maxLevels .empty (.new maxLevels) := by
  have nothing : ∀ {level : Nat} {info : SSTableMeta}, info ∉ (Manifest.new maxLevels).level level := by
    intro level info
    rw [Manifest.level_new]
    exact List.not_mem_nil
  constructor
  · intro level info member
    exact absurd member nothing
  · intro level info member
    exact absurd member nothing
  · intro level info member
    exact absurd member nothing
  · intro level info member
    exact absurd member nothing
  · intro level _
    rw [Manifest.level_new]
    exact List.Pairwise.nil
  · intro info member
    exact absurd member nothing
  · intro level _ _
    exact Manifest.level_new maxLevels level

theorem start_holds (config : LsmConfig) :
    Holds hashing (.openDirectory config .empty) fun _ => none where
  immutable := rfl
  sound := empty_sound config.maxLevels
  saved := ⟨fun _ => rfl, rfl⟩
  inMemory key entry found := by
    simp [LsmEngine.openDirectory, MemTable.new, MemTable.get] at found
  inTables key _ := by
    refine .inr ⟨rfl, ?_⟩
    intro level
    apply newest_eq_none_iff.mpr
    intro info member
    change info ∈ (Manifest.new config.maxLevels).level level at member
    rw [Manifest.level_new] at member
    cases member

theorem Carries.set (carries : Carries hashing engine contents) (key : Bytes)
    (entry : Option Bytes) (size : Nat) :
    Carries hashing { engine with active := engine.active.set key entry size }
      (Function.update contents key entry) := by
  have read : ∀ other, (engine.active.set key entry size).get other =
      if key = other then some entry else engine.active.get other := by
    intro other
    rw [MemTable.get, MemTable.set, Std.ExtTreeMap.getElem?_insert]
    simp only [Std.LawfulEqCmp.compare_eq_iff_eq]
    rfl
  constructor
  · exact carries.sound
  · intro other found isFound
    rw [read] at isFound
    split at isFound
    next same =>
      cases isFound
      rw [← same, Function.update_self]
    next apart =>
      rw [Function.update_of_ne (Ne.symm apart)]
      exact carries.inMemory other found isFound
  · intro other absent
    rw [read] at absent
    split at absent
    next => cases absent
    next apart =>
      rw [Function.update_of_ne (Ne.symm apart)]
      exact carries.inTables other absent

theorem Holds.set (holds : Holds hashing engine contents) (key : Bytes) (entry : Option Bytes)
    (size : Nat) :
    Holds hashing { engine with active := engine.active.set key entry size }
      (Function.update contents key entry) :=
  have carries := holds.carries.set key entry size
  ⟨holds.immutable, carries.sound, holds.saved, carries.inMemory, carries.inTables⟩

theorem lookup_toList (memory : MemTable) (key : Bytes) :
    memory.data.toList.lookup key = memory.get key := by
  apply Option.ext
  intro entry
  rw [lookup_eq_some_iff (sorted_toList memory.data).nodup,
    Std.ExtTreeMap.mem_toList_iff_getElem?_eq_some]
  rfl

/-- An empty memory table is not written; else the manifest is saved. -/
theorem writeMemtable_saves (memory : MemTable) :
    LsmEngine.writeMemtable hashing memory engine = engine ∨
      (LsmEngine.writeMemtable hashing memory engine).directory.manifest =
        some (LsmEngine.writeMemtable hashing memory engine).manifest.data := by
  rw [LsmEngine.writeMemtable]
  by_cases filled : memory.data.toList = []
  · left
    rw [LsmEngine.writeMemtableToSst, if_pos filled]
    rfl
  · right
    rw [writeMemtableToSst_eq hashing engine.manifest filled]
    rfl

/-- A memory table is written to the directory. -/
theorem writeMemtable_carries {memory : MemTable} (fresh : engine.active = .new)
    (sound : Sound hashing engine.config.maxLevels engine.directory engine.manifest)
    (inMemory : ∀ key entry, memory.get key = some entry → contents key = entry)
    (inTables : ∀ key, memory.get key = none →
      Resolves (readLevel engine.directory engine.manifest key) (contents key)) :
    Carries hashing (LsmEngine.writeMemtable hashing memory engine) contents := by
  have unwritten : ∀ key entry, engine.active.get key ≠ some entry := by
    intro key entry found
    rw [fresh] at found
    simp [MemTable.new, MemTable.get] at found
  by_cases filled : memory.data.toList = []
  · have same : LsmEngine.writeMemtable hashing memory engine = engine := by
      rw [LsmEngine.writeMemtable, LsmEngine.writeMemtableToSst, if_pos filled]
      rfl
    rw [same]
    refine ⟨sound, fun key entry found => absurd found (unwritten key entry), ?_⟩
    intro key _
    apply inTables
    rw [← lookup_toList, filled]
    rfl
  · have written := writeMemtableToSst_eq hashing engine.manifest filled
    have sorted := sorted_toList memory.data
    rw [LsmEngine.writeMemtable, written]
    refine ⟨sound.flush sorted filled,
      fun key entry found => absurd found (unwritten key entry), ?_⟩
    intro key _
    have reads := sound.readLevel_flush sorted filled key
    cases found : memory.get key with
    | some entry =>
        refine .inl ⟨0, ?_, fun above less => absurd less (Nat.not_lt_zero above)⟩
        refine (reads 0).trans ?_
        rw [if_pos rfl, lookup_toList, found, inMemory key entry found, Option.some_or]
    | none =>
        have same : readLevel engine.directory engine.manifest key =
            fun level => if level = 0 then (memory.data.toList.lookup key).or
              (readLevel engine.directory engine.manifest key 0)
              else readLevel engine.directory engine.manifest key level := by
          funext level
          rw [lookup_toList, found, Option.none_or]
          split
          next isZero => rw [isZero]
          next => rfl
        have resolves := inTables key found
        rw [same] at resolves
        have equal : (fun level => readLevel _ _ key level) = _ := funext reads
        rw [← equal] at resolves
        exact resolves

theorem writeMemtable_holds {memory : MemTable} (immutable : engine.immutable = [])
    (fresh : engine.active = .new)
    (sound : Sound hashing engine.config.maxLevels engine.directory engine.manifest)
    (saved : Saved engine.config.maxLevels engine.directory engine.manifest)
    (inMemory : ∀ key entry, memory.get key = some entry → contents key = entry)
    (inTables : ∀ key, memory.get key = none →
      Resolves (readLevel engine.directory engine.manifest key) (contents key)) :
    Holds hashing (LsmEngine.writeMemtable hashing memory engine) contents := by
  have carries := writeMemtable_carries fresh sound inMemory inTables
  refine ⟨immutable, carries.sound, ?_, carries.inMemory, carries.inTables⟩
  rcases @writeMemtable_saves hashing engine memory with same | isSaved
  · rw [same]
    exact saved
  · exact saved_of_data carries.sound.placed isSaved

theorem Holds.flush (holds : Holds hashing engine contents) :
    Holds hashing (LsmEngine.flush hashing engine).state contents := by
  change Holds hashing (if engine.active.data.isEmpty then engine else
    LsmEngine.writeMemtable hashing engine.active { engine with active := .new }) contents
  split
  · exact holds
  · exact writeMemtable_holds holds.immutable rfl holds.sound holds.saved holds.inMemory holds.inTables

/-- The memory table is frozen and written at once. -/
theorem Holds.freeze (holds : Holds hashing engine contents) :
    Holds hashing (LsmEngine.flushImmutables hashing { engine with
      active := .new, immutable := engine.immutable ++ [engine.active] }).state contents := by
  change Holds hashing ((engine.immutable ++ [engine.active]).reverse.foldl
    (fun engine memory => LsmEngine.writeMemtable hashing memory engine)
    { engine with active := .new, immutable := [] }) contents
  rw [holds.immutable]
  exact writeMemtable_holds rfl rfl holds.sound holds.saved holds.inMemory holds.inTables

end Engine

section Calls

variable {hashing : Hashing} {engine : LsmEngine} {contents : Bytes → Option Bytes}

/-- A call that keeps what the engine holds, as long as the newest entries win. -/
def Keeps (hashing : Hashing) {α : Type} (call : LsmEngine.Engine α)
    (before after : Bytes → Option Bytes) : Prop :=
  ∀ engine, Holds hashing engine before →
    Exec.Meets Compaction.NewestWins True call (fun _ final => Holds hashing final after) engine

theorem Keeps.bind {α β : Type} {call : LsmEngine.Engine α} {next : α → LsmEngine.Engine β}
    {before middle after : Bytes → Option Bytes} (first : Keeps hashing call before middle)
    (second : ∀ value, Keeps hashing (next value) middle after) :
    Keeps hashing (call >>= next) before after := by
  intro engine holds
  refine (first engine holds).bind ?_
  intro value reached holds
  exact second value reached holds

theorem Keeps.modify {change : LsmEngine → LsmEngine} {before after : Bytes → Option Bytes}
    (keeps : ∀ engine, Holds hashing engine before → Holds hashing (change engine) after) :
    Keeps hashing (Exec.modify change) before after := by
  intro engine holds
  exact Exec.Runs.modify (keeps engine holds)

theorem keeps_pure {α : Type} (value : α) :
    Keeps hashing (pure value : LsmEngine.Engine α) contents contents := by
  intro engine holds
  exact Exec.Meets.pure holds

theorem keeps_flush : Keeps hashing (LsmEngine.flush hashing) contents contents := by
  intro engine holds _
  exact holds.flush

theorem keeps_compactAt (level : Nat) :
    Keeps hashing (LsmEngine.compactAt hashing level) contents contents := by
  intro engine holds
  refine Exec.Meets.get_bind ?_
  have noted : Exec.Meets Compaction.NewestWins True
      (Exec.note ⟨engine.directory, engine.manifest, level⟩ : LsmEngine.Engine Unit)
      (fun _ reached => reached = engine ∧
        Compaction.NewestWins ⟨engine.directory, engine.manifest, level⟩) engine :=
    Exec.Runs.note fun wins => ⟨rfl, wins⟩
  refine noted.bind ?_
  rintro _ _ ⟨rfl, wins⟩
  obtain ⟨final, operations, result, returned, sound, saved, resolves⟩ :=
    compactLevel_sound hashing holds.sound wins
  refine Exec.Meets.lift_bind returned ?_
  apply Exec.Runs.modify
  exact ⟨holds.immutable, sound, saved holds.saved, holds.inMemory,
    fun key absent => resolves key _ (holds.inTables key absent)⟩

theorem keeps_compact : Keeps hashing (LsmEngine.compact hashing) contents contents := by
  intro engine holds
  refine Exec.Meets.get_bind ?_
  split
  next level _ =>
    exact (keeps_compactAt level).bind (fun _ => keeps_pure true) engine holds
  next => exact keeps_pure false engine holds

theorem keeps_compactAll (fuel : Nat) :
    Keeps hashing (LsmEngine.compactAll hashing fuel) contents contents := by
  induction fuel with
  | zero =>
      intro engine holds
      exact Exec.Runs.stop trivial
  | succ fuel ih =>
      apply keeps_compact.bind
      intro again
      cases again with
      | true => exact ih
      | false => exact keeps_pure ()

theorem keeps_maybeFlush : Keeps hashing (LsmEngine.maybeFlush hashing) contents contents := by
  intro engine holds
  refine Exec.Meets.get_bind ?_
  split
  · refine Exec.Meets.modify_bind ?_
    have flushes : Exec.Meets Compaction.NewestWins True (LsmEngine.flushImmutables hashing)
        (fun _ final => Holds hashing final contents)
        { engine with active := .new, immutable := engine.immutable ++ [engine.active] } :=
      fun _ => holds.freeze
    refine flushes.bind ?_
    intro _ reached holds
    exact keeps_compact.bind (fun _ => keeps_pure ()) reached holds
  · exact keeps_pure () engine holds

/-- Every call does to the engine what it does to the contents. -/
theorem keeps_run (call : Call) : Keeps hashing (call.run hashing) contents (call.effect contents) := by
  cases call with
  | put key value =>
      apply Keeps.bind _ fun _ => keeps_maybeFlush
      exact Keeps.modify fun engine holds => holds.set key (some value) _
  | delete key =>
      apply Keeps.bind _ fun _ => keeps_maybeFlush
      exact Keeps.modify fun engine holds => holds.set key none _
  | flush => exact keeps_flush
  | compact => exact keeps_compact.bind fun _ => keeps_pure ()
  | sync fuel =>
      apply keeps_flush.bind
      intro _
      apply Keeps.bind _ fun _ => keeps_compactAll fuel
      apply Keeps.modify
      intro engine holds
      rw [holds.immutable]
      exact ⟨rfl, holds.sound, holds.saved, holds.inMemory, holds.inTables⟩

theorem keeps_runCalls (calls : List Call) :
    Keeps hashing (runCalls hashing calls) contents (calls.foldl Call.effect contents) := by
  induction calls generalizing contents with
  | nil => exact keeps_pure ()
  | cons call calls ih => exact (keeps_run call).bind fun _ => ih

/-- After calls that all return, a read of any key returns the value of its last put that is not
followed by a delete, as long as the newest entries win in every compaction. -/
theorem get_runCalls (hashing : Hashing) (config : LsmConfig) (calls : List Call)
    (returned : (runCalls hashing calls (.openDirectory config .empty)).outcome = .ok ())
    (wins : ∀ compaction ∈ (runCalls hashing calls (.openDirectory config .empty)).log,
      compaction.NewestWins) (key : Bytes) :
    (runCalls hashing calls (.openDirectory config .empty)).state.get hashing key =
      .ok (contentsAfter calls key) := by
  have reached := keeps_runCalls calls (.openDirectory config .empty) (start_holds config) wins
  rw [returned] at reached
  exact reached.get key

/-- A filter of 64 bits that sets the bit of every byte of a key. -/
def byteHashing : Hashing := ⟨fun _ key => key.map fun byte => byte.val % 64, fun _ => 24⟩

/-- Three levels; a table of level 0 is compacted at once, and every table of level 1 is too large
for it. -/
def smallConfig : LsmConfig where
  memtableSizeThreshold := 1000
  l0CompactionTrigger := 1
  levelSizeMultiplier := 10
  maxLevels := 3
  targetSstSize := 24
  l1TargetSize := 0

/-- A value is overwritten after it went to level 1, and compacted again. -/
def overwriteCalls : List Call :=
  [.put [110] [1], .put [98] [1], .flush, .compact, .put [110] [2], .delete [98], .flush, .compact]

theorem get_runCalls_overwrite :
    (runCalls byteHashing overwriteCalls (.openDirectory { smallConfig with l1TargetSize := 1000 }
        .empty)).log.length = 2 ∧
      (runCalls byteHashing overwriteCalls (.openDirectory { smallConfig with l1TargetSize := 1000 }
        .empty)).state.get byteHashing [110] = .ok (contentsAfter overwriteCalls [110]) := by
  refine ⟨by decide +kernel, get_runCalls byteHashing _ overwriteCalls (by decide +kernel) ?_ [110]⟩
  have top : ∀ compaction ∈ (runCalls byteHashing overwriteCalls
      (.openDirectory { smallConfig with l1TargetSize := 1000 } .empty)).log,
      compaction.level = 0 := by decide +kernel
  intro compaction member apart
  exact absurd (top compaction member) apart

/-- The old value of a key comes to level 2, and its table there is rewritten before the new value
comes down. -/
def staleCalls : List Call :=
  [.put [98] [1], .put [110] [1], .flush, .compact, .compact, .put [97] [2], .put [99] [2],
    .put [110] [2], .put [122] [2], .flush, .compact, .compact, .compact]

theorem get_runCalls_stale :
    (runCalls byteHashing staleCalls (.openDirectory smallConfig .empty)).outcome = .ok () ∧
      (runCalls byteHashing staleCalls (.openDirectory smallConfig .empty)).state.get byteHashing
          [110] = .ok (some [1]) ∧
      contentsAfter staleCalls [110] = some [2] := by
  refine ⟨by decide +kernel, by decide +kernel, by decide +kernel⟩

end Calls

end JouleDB.Lsm
