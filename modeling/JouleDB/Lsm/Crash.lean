import JouleDB.Lib.Run
import JouleDB.Lsm.Refinement

/-!
# Crashes of the engine

A crash between two file operations leaves the directory as the operations before it made it; the
tables in memory are lost.  Nothing is lost if no table file was deleted before the manifest that
does not list it was in place.
-/

namespace JouleDB.Lsm

/-- A crash in the middle of a flush or of a compaction, after some of its file operations. -/
inductive Crash where
  | flush (done : Nat)
  | compaction (level done : Nat)

/-- The file operations that were done before the crash. -/
def Crash.operations (hashing : Hashing) (engine : LsmEngine) : Crash → List FileOperation
  | .flush done =>
      (LsmEngine.writeMemtableToSst hashing engine.active.data.toList engine.manifest).2.take done
  | .compaction level done =>
      match compactLevel hashing engine.config engine.directory engine.manifest level with
      | .ok (_, operations, _) => operations.take done
      | _ => []

/-- Open the directory again. -/
def LsmEngine.reopen (engine : LsmEngine) (operations : List FileOperation) : LsmEngine :=
  .openDirectory engine.config (engine.directory.performAll operations)

/-- The operation deletes a table file. -/
def FileOperation.isRemove : FileOperation → Bool
  | .remove _ => true
  | _ => false

/-- No table file was deleted, or the new manifest is in place. -/
def Crash.Safe (hashing : Hashing) (engine : LsmEngine) : Crash → Prop
  | .flush _ => True
  | .compaction level done =>
      (∀ operation ∈ Crash.operations hashing engine (.compaction level done),
          operation.isRemove = false) ∨
        .renameTemp ∈ Crash.operations hashing engine (.compaction level done) ∧
          Compaction.NewestWins ⟨engine.directory, engine.manifest, level⟩

/-- The last write of a key is in a table file. -/
def LsmEngine.InTables (engine : LsmEngine) (key : Bytes) : Prop :=
  (engine.active :: engine.immutable.reverse).findSome? (·.get key) = none

instance (engine : LsmEngine) (key : Bytes) : Decidable (engine.InTables key) :=
  inferInstanceAs (Decidable (_ = none))

/-- What happens to the engine: a call, or a crash after which the directory is opened again. -/
inductive Event where
  | call (call : Call)
  | crash (crash : Crash)

def LsmEngine.step (hashing : Hashing) (engine : LsmEngine) : Event → LsmEngine
  | .call call => (call.run hashing engine).state
  | .crash crash => engine.reopen (crash.operations hashing engine)

/-- A call returns, and the newest entries win in its compactions; a crash is safe. -/
def Event.Safe (hashing : Hashing) (engine : LsmEngine) : Event → Prop
  | .call made => (made.run hashing engine).outcome = .ok () ∧
      ∀ compaction ∈ (made.run hashing engine).log, compaction.NewestWins
  | .crash point => point.Safe hashing engine

section Reopen

variable {hashing : Hashing} {engine : LsmEngine} {contents : Bytes → Option Bytes}

theorem Sound.congr {maxLevels : Nat} {directory other : Directory} {manifest same : Manifest}
    (sound : Sound hashing maxLevels directory manifest)
    (level : ∀ level, same.level level = manifest.level level)
    (bound : ∀ level, ∀ info ∈ manifest.level level, info.id < same.nextSstId)
    (tables : ∀ level, ∀ info ∈ manifest.level level,
      other.tables[info.id]? = directory.tables[info.id]?) :
    Sound hashing maxLevels other same where
  files number info member := by
    rw [level] at member
    rw [tables number info member]
    exact sound.files number info member
  placed number info member := sound.placed number info (level number ▸ member)
  ids number info member number' info' member' :=
    sound.ids number info (level number ▸ member) number' info' (level number' ▸ member')
  bound number info member := bound number info (level number ▸ member)
  apart number below := by
    rw [level]
    exact sound.apart number below
  order info member older isOlder := sound.order info (level 0 ▸ member) older (level 1 ▸ isOlder)
  depth number below deep := (level number).trans (sound.depth number below deep)

theorem readLevel_congr {directory other : Directory} {manifest same : Manifest} (key : Bytes)
    (level : ∀ level, same.level level = manifest.level level)
    (tables : ∀ level, ∀ info ∈ manifest.level level,
      other.tables[info.id]? = directory.tables[info.id]?) :
    readLevel other same key = readLevel directory manifest key := by
  funext number
  rw [readLevel, readLevel, level]
  apply newest_congr
  intro info member
  rw [readTable, readTable, tables number info member]

/-- After files were added, the engine holds what it held. -/
theorem Holds.add (holds : Holds hashing engine contents) {directory : Directory}
    (manifest : directory.manifest = engine.directory.manifest)
    (tables : ∀ level, ∀ info ∈ engine.manifest.level level,
      directory.tables[info.id]? = engine.directory.tables[info.id]?) :
    Holds hashing { engine with directory := directory } contents where
  immutable := holds.immutable
  sound := holds.sound.congr (fun _ => rfl) holds.sound.bound tables
  saved := ⟨fun level => manifest ▸ holds.saved.level level, manifest ▸ holds.saved.nextSstId⟩
  inMemory := holds.inMemory
  inTables key absent := by
    change Resolves (readLevel directory engine.manifest key) (contents key)
    rw [readLevel_congr key (fun _ => rfl) tables]
    exact holds.inTables key absent

/-- The directory of an engine is opened again: what was in tables is still there. -/
theorem Holds.reopen (holds : Holds hashing engine contents) :
    ∃ kept, Holds hashing (.openDirectory engine.config engine.directory) kept ∧
      ∀ key, engine.active.get key = none → kept key = contents key := by
  have sound : Sound hashing engine.config.maxLevels engine.directory
      (.loadOrCreate engine.config.maxLevels engine.directory.manifest) :=
    holds.sound.congr holds.saved.level
      (fun level info member => holds.saved.nextSstId ▸ holds.sound.bound level info member)
      fun _ _ _ => rfl
  choose kept searched resolves using fun key => sound.searchLevels key
  refine ⟨kept, ⟨rfl, sound, ⟨fun _ => rfl, rfl⟩, ?_, fun key _ => resolves key⟩, ?_⟩
  · intro key entry found
    simp [LsmEngine.openDirectory, MemTable.new, MemTable.get] at found
  · intro key absent
    have resolved := resolves key
    rw [readLevel_congr key holds.saved.level fun _ _ _ => rfl] at resolved
    exact resolved.unique (holds.inTables key absent)

end Reopen

section Points

variable {hashing : Hashing} {engine : LsmEngine} {contents : Bytes → Option Bytes}

/-- A crash leaves an engine that holds what was in tables. -/
def Survives (hashing : Hashing) (engine : LsmEngine) (contents : Bytes → Option Bytes)
    (operations : List FileOperation) : Prop :=
  ∃ kept, Holds hashing (engine.reopen operations) kept ∧
    ∀ key, engine.active.get key = none → kept key = contents key

/-- Only files that no table of the manifest stands for were written. -/
theorem Holds.survives_added (holds : Holds hashing engine contents)
    {operations : List FileOperation}
    (manifest : (engine.directory.performAll operations).manifest = engine.directory.manifest)
    (tables : ∀ level, ∀ info ∈ engine.manifest.level level,
      (engine.directory.performAll operations).tables[info.id]? =
        engine.directory.tables[info.id]?) :
    Survives hashing engine contents operations :=
  (holds.add manifest tables).reopen

theorem Holds.survives_flush (holds : Holds hashing engine contents) (done : Nat) :
    Survives hashing engine contents (Crash.operations hashing engine (.flush done)) := by
  dsimp only [Crash.operations]
  by_cases filled : engine.active.data.toList = []
  · rw [LsmEngine.writeMemtableToSst, if_pos filled, List.take_nil]
    exact holds.survives_added rfl fun _ _ _ => rfl
  · rw [writeMemtableToSst_eq hashing engine.manifest filled]
    have tables : ∀ level, ∀ info ∈ engine.manifest.level level,
        (engine.directory.tables.insert engine.manifest.nextSstId
          (writeTable hashing engine.active.data.toList engine.manifest.nextSstId 0).2)[info.id]? =
          engine.directory.tables[info.id]? := by
      intro level info member
      have bound := holds.sound.bound level info member
      rw [Std.ExtTreeMap.getElem?_insert, if_neg]
      simp only [Std.LawfulEqCmp.compare_eq_iff_eq]
      omega
    obtain _ | _ | _ | done := done
    · exact holds.survives_added rfl fun _ _ _ => rfl
    · exact holds.survives_added rfl tables
    · exact holds.survives_added rfl tables
    · have written : Holds hashing
          (LsmEngine.writeMemtable hashing engine.active { engine with active := .new })
          contents :=
        writeMemtable_holds holds.immutable rfl holds.sound holds.saved holds.inMemory
          holds.inTables
      rw [LsmEngine.writeMemtable, writeMemtableToSst_eq hashing engine.manifest filled] at written
      obtain ⟨kept, isKept, same⟩ := written.reopen
      rw [List.take_of_length_le (by simp [Manifest.save])]
      refine ⟨kept, isKept, ?_⟩
      intro key _
      apply same
      simp [MemTable.new, MemTable.get]

/-- Before the first deletion only new files were written. -/
theorem take_of_no_remove {creates removes saves : List FileOperation} {id done : Nat}
    (starts : removes.head? = some (.remove id))
    (none : ∀ operation ∈ (creates ++ removes ++ saves).take done, operation.isRemove = false) :
    (creates ++ removes ++ saves).take done = creates.take done := by
  have short : done ≤ creates.length := by
    by_contra long
    cases removes with
    | nil => cases starts
    | cons first removes =>
        cases starts
        have inside : (creates ++ .remove id :: removes ++ saves)[creates.length]? =
            some (.remove id) := by simp
        have early : .remove id ∈ (creates ++ .remove id :: removes ++ saves).take done := by
          apply List.mem_of_getElem?
          exact (List.getElem?_take_of_lt (by omega)).trans inside
        exact absurd (none _ early) (by simp [FileOperation.isRemove])
  rw [List.append_assoc, List.take_append_of_le_length short]

theorem take_of_last {last : FileOperation} {front : List FileOperation} {done : Nat}
    (before : last ∉ front) (reached : last ∈ (front ++ [last]).take done) :
    (front ++ [last]).take done = front ++ [last] := by
  apply List.take_of_length_le
  by_contra short
  rw [List.length_append, List.length_singleton] at short
  rw [List.take_append_of_le_length (by omega)] at reached
  exact before (List.mem_of_mem_take reached)

theorem manifest_create (directory : Directory) (written : List (SSTableMeta × SSTable)) :
    (directory.performAll
      (written.map fun output => .create output.1.id output.2)).manifest = directory.manifest := by
  induction written generalizing directory with
  | nil => rfl
  | cons output written ih => exact (ih _).trans rfl

theorem Holds.survives_compaction (holds : Holds hashing engine contents) {level done : Nat}
    (safe : Crash.Safe hashing engine (.compaction level done)) :
    Survives hashing engine contents
      (Crash.operations hashing engine (.compaction level done)) := by
  rcases compactLevel_cases holds.sound with
    nothing | ⟨sources, first, last, entries, written, merges, merged⟩
  · dsimp only [Crash.operations]
    rw [nothing]
    dsimp only
    rw [List.take_nil]
    exact holds.survives_added rfl fun _ _ _ => rfl
  · dsimp only [Crash.Safe, Crash.operations] at safe ⊢
    rw [merged] at safe ⊢
    dsimp only at safe ⊢
    rcases safe with none | ⟨renamed, wins⟩
    · obtain ⟨source, others, isSources⟩ :=
        List.exists_cons_of_ne_nil merges.merging.picked.filled
      have starts : ((sources ++ overlapping engine.manifest (level + 1) first last).map
          fun info => FileOperation.remove info.id).head? = some (.remove source.id) := by
        rw [isSources]
        rfl
      rw [mergeOperations] at none ⊢
      rw [take_of_no_remove starts none, ← List.map_take]
      refine holds.survives_added (manifest_create _ _) ?_
      intro number info member
      apply tables_create_of_ne
      intro output isOutput
      have lower := (merges.isWritten.bound output (List.mem_of_mem_take isOutput)).1
      have upper := holds.sound.bound number info member
      omega
    · obtain ⟨final, operations, result, returned, sound, saved, resolves⟩ :=
        compactLevel_sound hashing holds.sound wins
      rw [merged] at returned
      cases returned
      have whole : (mergeOperations engine.manifest level sources first last written).take done =
          mergeOperations engine.manifest level sources first last written := by
        rw [mergeOperations, Manifest.save, List.append_cons] at renamed ⊢
        apply take_of_last _ renamed
        simp
      rw [whole]
      have compacted : Holds hashing { engine with
          manifest := Merging.after engine.manifest level sources first last written
          directory := engine.directory.performAll
            (mergeOperations engine.manifest level sources first last written) } contents :=
        ⟨holds.immutable, sound, saved holds.saved, holds.inMemory,
          fun key absent => resolves key _ (holds.inTables key absent)⟩
      exact compacted.reopen

theorem Holds.survives (holds : Holds hashing engine contents) {crash : Crash}
    (safe : crash.Safe hashing engine) :
    Survives hashing engine contents (crash.operations hashing engine) := by
  cases crash with
  | flush done => exact holds.survives_flush done
  | compaction level done => exact holds.survives_compaction safe

/-- The engine holds some contents. -/
def Intact (hashing : Hashing) (engine : LsmEngine) : Prop :=
  ∃ contents, Holds hashing engine contents

theorem Intact.step (intact : Intact hashing engine) {event : Event}
    (safe : event.Safe hashing engine) : Intact hashing (engine.step hashing event) := by
  obtain ⟨contents, holds⟩ := intact
  cases event with
  | call made =>
      obtain ⟨returned, wins⟩ := safe
      have reached := keeps_run made engine holds wins
      rw [returned] at reached
      exact ⟨_, reached⟩
  | crash point =>
      obtain ⟨kept, isKept, _⟩ := holds.survives safe
      exact ⟨kept, isKept⟩

end Points

/-- In every run of safe events, a safe crash of a flush or of a compaction leaves a directory that
can be opened, and in which every key whose last write was in a table has the value it had. -/
theorem get_reopen (hashing : Hashing) (config : LsmConfig) (events : List Event)
    (safe : AllMeet (LsmEngine.step hashing) (fun engine event => event.Safe hashing engine)
      (.openDirectory config .empty) events)
    (crash : Crash)
    (safeCrash : crash.Safe hashing
      (events.foldl (LsmEngine.step hashing) (.openDirectory config .empty)))
    (key : Bytes)
    (inTables : (events.foldl (LsmEngine.step hashing)
      (.openDirectory config .empty)).InTables key) :
    let engine := events.foldl (LsmEngine.step hashing) (.openDirectory config .empty)
    ∃ value, engine.get hashing key = .ok value ∧
      (engine.reopen (crash.operations hashing engine)).get hashing key = .ok value := by
  intro engine
  have start : Intact hashing (.openDirectory config .empty) := ⟨_, start_holds config⟩
  have intact : Intact hashing engine :=
    AllMeet.invariant (motive := Intact hashing)
      (fun engine event intact safe => Intact.step intact safe) start safe
  obtain ⟨contents, holds⟩ := intact
  obtain ⟨kept, isKept, same⟩ := holds.survives safeCrash
  have absent : engine.active.get key = none := (List.findSome?_eq_none_iff.mp inTables) _
    List.mem_cons_self
  exact ⟨contents key, holds.get key, same key absent ▸ isKept.get key⟩

/-- An engine that has written one table. -/
def oneTable : LsmEngine :=
  [Event.call (.put [1] [2]), .call .flush].foldl (LsmEngine.step byteHashing)
    (.openDirectory smallConfig .empty)

theorem get_reopen_oneTable :
    oneTable.InTables [1] ∧ ∃ value, oneTable.get byteHashing [1] = .ok value ∧
      (oneTable.reopen (Crash.operations byteHashing oneTable (.compaction 0 1))).get byteHashing
        [1] = .ok value := by
  have quiet : ∀ {engine : LsmEngine} {call : Call}, (call.run byteHashing engine).log.length = 0 →
      ∀ compaction ∈ (call.run byteHashing engine).log, compaction.NewestWins := by
    intro engine call none compaction member
    rw [List.eq_nil_of_length_eq_zero none] at member
    cases member
  refine ⟨by decide +kernel, ?_⟩
  apply get_reopen byteHashing smallConfig [.call (.put [1] [2]), .call .flush]
  · exact ⟨⟨by decide +kernel, quiet (by decide +kernel)⟩,
      ⟨by decide +kernel, quiet (by decide +kernel)⟩, trivial⟩
  · exact .inl (by decide +kernel)
  · decide +kernel

/-- A crash comes when the table has been merged and deleted, and the manifest still lists it. -/
theorem get_reopen_deleted :
    oneTable.InTables [1] ∧ oneTable.get byteHashing [1] = .ok (some [2]) ∧
      (oneTable.reopen (Crash.operations byteHashing oneTable (.compaction 0 2))).get byteHashing
        [1] = .err (.notFound 1) := by
  refine ⟨by decide +kernel, by decide +kernel, by decide +kernel⟩

end JouleDB.Lsm
