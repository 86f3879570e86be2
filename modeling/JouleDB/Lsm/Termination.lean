import JouleDB.Lsm.Rewrite
import Mathlib.Data.DFinsupp.WellFounded

/-!
# When sync ends

The loop of sync compacts as long as a level is reported.  Each compaction removes a table of the
reported level and touches no level above it, so the loop ends, unless level 0 is reported and
there is nothing to do: because the trigger is zero, or because there is no level below.
-/

namespace JouleDB.Lsm

/-- Less at a position, and not more before it. -/
theorem toLex_lt_of_le {size : Nat} {first second : Fin size → Nat} {position : Fin size}
    (before : ∀ index < position, first index ≤ second index)
    (here : first position < second position) : toLex first < toLex second := by
  obtain ⟨index, ⟨early, less⟩, least⟩ := wellFounded_lt.has_min
    {index | index ≤ position ∧ first index < second index} ⟨position, le_refl _, here⟩
  refine ⟨index, fun other smaller => ?_, less⟩
  have early' := lt_of_lt_of_le smaller early
  by_contra apart
  exact least other ⟨early'.le, lt_of_le_of_ne (before other early') apart⟩ smaller

section Measure

variable {hashing : Hashing} {manifest : Manifest} {level : Nat} {removed : List Nat}
  {pieces : List (List Entry)}

theorem levelCount_rewritten {number : Nat} (apart : number ≠ level + 1) :
    (rewritten manifest removed (outputs hashing (level + 1) manifest.nextSstId pieces)).levelCount
        number =
      ((manifest.level number).filter fun info => info.id ∉ removed).length := by
  rw [Manifest.levelCount, level_rewritten, if_neg apart, List.append_nil]

/-- A compaction makes its level shorter, and no level above it longer. -/
theorem Removes.levelCount_lt (removes : Removes manifest level removed) :
    (∀ number < level, (rewritten manifest removed
        (outputs hashing (level + 1) manifest.nextSstId pieces)).levelCount number ≤
      manifest.levelCount number) ∧
    (rewritten manifest removed
        (outputs hashing (level + 1) manifest.nextSstId pieces)).levelCount level <
      manifest.levelCount level := by
  constructor
  · intro number above
    rw [levelCount_rewritten (by omega)]
    exact List.length_filter_le _ _
  · rw [levelCount_rewritten (by omega), Manifest.levelCount, List.length_filter_lt_length_iff_exists]
    obtain ⟨info, member, isRemoved⟩ := removes.some
    exact ⟨info, member, by simpa using isRemoved⟩

theorem Removes.levelCount_zero (removes : Removes manifest 0 removed) :
    (rewritten manifest removed
      (outputs hashing (0 + 1) manifest.nextSstId pieces)).levelCount 0 = 0 := by
  rw [levelCount_rewritten (by omega), List.length_eq_zero_iff, List.filter_eq_nil_iff]
  intro info member
  simpa using removes.whole rfl info member

end Measure

section Reported

variable {manifest : Manifest} {config : LsmConfig}

/-- A level that is reported for its size holds a table, and has one below it. -/
theorem filled_of_needsCompactionFrom {multiplier remaining first targetSize level : Nat}
    (needs : needsCompactionFrom manifest multiplier remaining first targetSize = some level) :
    manifest.level level ≠ [] ∧ level < first + remaining := by
  induction remaining generalizing first targetSize with
  | zero => cases needs
  | succ remaining ih =>
      rw [needsCompactionFrom] at needs
      split at needs
      next large =>
        cases needs
        refine ⟨fun empty => ?_, by omega⟩
        rw [Manifest.levelSize, empty] at large
        exact absurd large (Nat.not_lt_zero _)
      next =>
        obtain ⟨filled, bound⟩ := ih needs
        exact ⟨filled, by omega⟩

/-- A level that is reported can be compacted, unless the trigger of level 0 is zero or there is
one level only. -/
theorem filled_of_needsCompaction {level : Nat} (trigger : 1 ≤ config.l0CompactionTrigger)
    (levels : 2 ≤ config.maxLevels) (needs : needsCompaction manifest config = some level) :
    manifest.level level ≠ [] ∧ level + 1 < config.maxLevels := by
  rw [needsCompaction] at needs
  split at needs
  next reached =>
    cases needs
    refine ⟨fun empty => ?_, by omega⟩
    rw [Manifest.levelCount, empty] at reached
    exact absurd (trigger.trans reached) (by simp)
  next =>
    obtain ⟨filled, bound⟩ := filled_of_needsCompactionFrom needs
    exact ⟨filled, by omega⟩

end Reported

namespace LsmEngine

variable {hashing : Hashing} {engine : LsmEngine}

/-- The loop of sync ends. -/
def Settles (hashing : Hashing) (engine : LsmEngine) : Prop :=
  ∃ fuel, ∀ cause, (sync hashing fuel engine).outcome ≠ .halt cause

/-- The tables in memory that sync writes to level 0. -/
def queued (engine : LsmEngine) : Nat :=
  (engine.active :: engine.immutable).countP fun memory => !memory.data.isEmpty

/-- A full level 0 can be compacted, and is not full when it is empty; or it is not full. -/
def Settling (engine : LsmEngine) : Prop :=
  1 ≤ engine.config.l0CompactionTrigger ∧
    (2 ≤ engine.config.maxLevels ∨
      engine.manifest.levelCount 0 + engine.queued < engine.config.l0CompactionTrigger)

section Loop

/-- The engine after a compaction. -/
def compacted (engine : LsmEngine) (manifest : Manifest) (operations : List FileOperation) :
    LsmEngine :=
  { engine with manifest := manifest, directory := engine.directory.performAll operations }

theorem compactAt_eq (level : Nat) :
    compactAt hashing level engine =
      match compactLevel hashing engine.config engine.directory engine.manifest level with
      | .ok (manifest, operations, _) => ⟨.ok (), engine.compacted manifest operations,
          [⟨engine.directory, engine.manifest, level⟩]⟩
      | .err error => ⟨.err error, engine, [⟨engine.directory, engine.manifest, level⟩]⟩
      | .halt cause => ⟨.halt cause, engine, [⟨engine.directory, engine.manifest, level⟩]⟩ := by
  rw [compactAt, Exec.get_bind, Exec.note_bind]
  cases compactLevel hashing engine.config engine.directory engine.manifest level with
  | ok value => rfl
  | err error => rfl
  | halt cause => rfl

theorem compactAll_succ (fuel : Nat) :
    (compactAll hashing (fuel + 1) engine).outcome =
      match needsCompaction engine.manifest engine.config with
      | none => .ok ()
      | some level =>
          match compactLevel hashing engine.config engine.directory engine.manifest level with
          | .ok (manifest, operations, _) =>
              (compactAll hashing fuel (engine.compacted manifest operations)).outcome
          | .err error => .err error
          | .halt cause => .halt cause := by
  have first : compact hashing engine =
      match needsCompaction engine.manifest engine.config with
      | none => ⟨.ok false, engine, []⟩
      | some level => (compactAt hashing level >>= fun _ => pure true) engine := by
    rw [compact, Exec.get_bind]
    cases needsCompaction engine.manifest engine.config with
    | none => rfl
    | some level => rfl
  rw [compactAll]
  cases needs : needsCompaction engine.manifest engine.config with
  | none =>
      rw [needs] at first
      rw [Exec.bind_of_ok first]
      rfl
  | some level =>
      have once := @compactAt_eq hashing engine level
      rw [needs] at first
      dsimp only at first
      cases result : compactLevel hashing engine.config engine.directory engine.manifest level with
      | ok value =>
          rw [result] at once
          dsimp only at once
          rw [Exec.bind_of_ok once] at first
          rw [Exec.bind_of_ok first]
          dsimp only
          rw [result]
          rfl
      | err error =>
          rw [result] at once
          dsimp only at once
          rw [Exec.bind_of_err once] at first
          rw [Exec.bind_of_err first]
          dsimp only
          rw [result]
      | halt cause =>
          rw [result] at once
          dsimp only at once
          rw [Exec.bind_of_halt once] at first
          rw [Exec.bind_of_halt first]
          dsimp only
          rw [result]

/-- The loop ends if every level that is reported can be compacted. -/
theorem compactAll_ends (trigger : 1 ≤ engine.config.l0CompactionTrigger)
    (levels : 2 ≤ engine.config.maxLevels) :
    ∃ fuel, ∀ cause, (compactAll hashing fuel engine).outcome ≠ .halt cause := by
  -- By induction on the lengths of the levels, the upper ones first.
  obtain ⟨config, isConfig⟩ : ∃ config, engine.config = config := ⟨_, rfl⟩
  obtain ⟨size, isSize⟩ : ∃ size : Lex (Fin config.maxLevels → Nat),
      size = toLex fun level : Fin config.maxLevels => engine.manifest.levelCount level := ⟨_, rfl⟩
  induction size using WellFoundedLT.induction generalizing engine with
  | ind size ih =>
      subst isConfig
      cases needs : needsCompaction engine.manifest engine.config with
      | none =>
          refine ⟨1, fun cause => ?_⟩
          rw [compactAll_succ, needs]
          exact nofun
      | some level =>
          obtain ⟨filled, deeper⟩ := filled_of_needsCompaction trigger levels needs
          cases compactLevel_compacts hashing engine.config engine.directory engine.manifest
            level with
          | nothing idle result =>
              rcases idle with shallow | empty
              · omega
              · exact absurd empty filled
          | fails removed removes error opened result =>
              refine ⟨1, fun cause => ?_⟩
              rw [compactAll_succ, needs]
              dsimp only
              rw [result]
              exact nofun
          | writes deeper removed removes pieces sorted filled result =>
              obtain ⟨above, here⟩ := @Removes.levelCount_lt hashing _ _ _ pieces removes
              have less : toLex (fun number : Fin engine.config.maxLevels =>
                  (rewritten engine.manifest removed
                    (outputs hashing (level + 1) engine.manifest.nextSstId pieces)).levelCount
                    number) < size := by
                rw [isSize]
                exact @toLex_lt_of_le _ _ _ ⟨level, by omega⟩
                  (fun number early => above number early) here
              obtain ⟨fuel, ends⟩ := @ih _ less (engine.compacted _ (rewriting engine.manifest removed
                (outputs hashing (level + 1) engine.manifest.nextSstId pieces))) trigger levels rfl rfl
              refine ⟨fuel + 1, fun cause => ?_⟩
              rw [compactAll_succ, needs]
              dsimp only
              rw [result]
              exact ends cause

/-- The loop does not end if level 0 is reported and a compaction of it does nothing. -/
theorem compactAll_stuck (reported : needsCompaction engine.manifest engine.config = some 0)
    (idle : engine.config.maxLevels ≤ 1 ∨ engine.manifest.level 0 = []) (fuel : Nat) :
    (compactAll hashing fuel engine).outcome = .halt .panic := by
  induction fuel with
  | zero => rfl
  | succ fuel ih =>
      have nothing : compactLevel hashing engine.config engine.directory engine.manifest 0 =
          .ok (engine.manifest, [], ⟨[], []⟩) := by
        rw [compactLevel]
        rcases idle with shallow | empty
        · rw [if_pos (by omega)]
        · split
          · rfl
          · simp [selectSources, empty]
      rw [compactAll_succ, reported]
      dsimp only
      rw [nothing]
      exact ih

/-- The loop ends exactly if level 0 is not full, or a compaction can empty it. -/
theorem compactAll_ends_iff (kept : Kept hashing engine.directory engine.manifest) :
    (∃ fuel, ∀ cause, (compactAll hashing fuel engine).outcome ≠ .halt cause) ↔
      1 ≤ engine.config.l0CompactionTrigger ∧ (2 ≤ engine.config.maxLevels ∨
        engine.manifest.levelCount 0 < engine.config.l0CompactionTrigger) := by
  constructor
  · rintro ⟨fuel, ends⟩
    by_contra stuck
    have full : engine.config.l0CompactionTrigger ≤ engine.manifest.levelCount 0 := by omega
    have reported : needsCompaction engine.manifest engine.config = some 0 := by
      rw [needsCompaction, if_pos full]
    cases fuel with
    | zero => exact ends .panic rfl
    | succ fuel =>
        cases compactLevel_compacts hashing engine.config engine.directory engine.manifest 0 with
        | nothing idle result =>
            exact ends .panic (compactAll_stuck reported (idle.imp_left fun few => few) _)
        | fails removed removes error opened result => exact kept.openAll_ne_err error opened
        | writes deeper removed removes pieces sorted filled result =>
            have zero : engine.config.l0CompactionTrigger = 0 := by omega
            have empty := @Removes.levelCount_zero hashing _ _ pieces removes
            refine ends .panic ?_
            rw [compactAll_succ, reported]
            dsimp only
            rw [result]
            refine @compactAll_stuck hashing (engine.compacted _ _) ?_
              (Or.inr (List.eq_nil_of_length_eq_zero empty)) fuel
            rw [needsCompaction, if_pos (by simp [compacted, zero])]
  · rintro ⟨trigger, levels | short⟩
    · exact compactAll_ends trigger levels
    · by_cases levels : 2 ≤ engine.config.maxLevels
      · exact compactAll_ends trigger levels
      · refine ⟨1, fun cause => ?_⟩
        have none : needsCompaction engine.manifest engine.config = none := by
          rw [needsCompaction, if_neg (by omega), show engine.config.maxLevels - 2 = 0 by omega]
          rfl
        rw [compactAll_succ, none]
        exact nofun

end Loop

section Before

theorem kept_writeMemtable (memory : MemTable) (kept : Kept hashing engine.directory engine.manifest) :
    Kept hashing (writeMemtable hashing memory engine).directory
      (writeMemtable hashing memory engine).manifest :=
  kept.flush (sorted_toList memory.data)

/-- A table in memory becomes one of level 0, unless it is empty. -/
theorem levelCount_writeMemtable (memory : MemTable) :
    (writeMemtable hashing memory engine).manifest.levelCount 0 =
      engine.manifest.levelCount 0 + [memory].countP fun memory => !memory.data.isEmpty := by
  have isEmpty : memory.data.isEmpty = true ↔ memory.data.toList = [] := by
    rw [Std.ExtTreeMap.isEmpty_iff, Std.ExtTreeMap.toList_eq_nil_iff]
  rw [writeMemtable]
  by_cases filled : memory.data.toList = []
  · rw [writeMemtableToSst, if_pos filled]
    simp [isEmpty.mpr filled]
  · rw [writeMemtableToSst_eq hashing engine.manifest filled]
    have some : memory.data.isEmpty = false := by
      rw [Bool.eq_false_iff]
      exact fun empty => filled (isEmpty.mp empty)
    simp [Manifest.levelCount, level_flushed, some]

theorem config_writeMemtable (memory : MemTable) :
    (writeMemtable hashing memory engine).config = engine.config := rfl

theorem levelCount_foldl_writeMemtable (memories : List MemTable) (engine : LsmEngine) :
    let final := memories.foldl (fun engine memory => writeMemtable hashing memory engine) engine
    final.config = engine.config ∧
      final.manifest.levelCount 0 = engine.manifest.levelCount 0 +
        memories.countP fun memory => !memory.data.isEmpty := by
  induction memories generalizing engine with
  | nil => exact ⟨rfl, rfl⟩
  | cons memory memories ih =>
      obtain ⟨config, count⟩ := ih (writeMemtable hashing memory engine)
      refine ⟨config, count.trans ?_⟩
      rw [levelCount_writeMemtable, Nat.add_assoc, ← List.countP_append]
      rfl

theorem kept_foldl_writeMemtable (memories : List MemTable)
    (kept : Kept hashing engine.directory engine.manifest) :
    let final := memories.foldl (fun engine memory => writeMemtable hashing memory engine) engine
    Kept hashing final.directory final.manifest := by
  induction memories generalizing engine with
  | nil => exact kept
  | cons memory memories ih => exact ih (kept_writeMemtable memory kept)

/-- The engine when the loop of sync starts. -/
def flushedAll (hashing : Hashing) (engine : LsmEngine) : LsmEngine :=
  (flushImmutables hashing (flush hashing engine).state).state

theorem outcome_sync (fuel : Nat) :
    (sync hashing fuel engine).outcome =
      (compactAll hashing fuel (engine.flushedAll hashing)).outcome := rfl

theorem flushedAll_spec (kept : Kept hashing engine.directory engine.manifest) :
    Kept hashing (engine.flushedAll hashing).directory (engine.flushedAll hashing).manifest ∧
      (engine.flushedAll hashing).config = engine.config ∧
      (engine.flushedAll hashing).manifest.levelCount 0 =
        engine.manifest.levelCount 0 + engine.queued := by
  have first : ∀ start : LsmEngine, Kept hashing start.directory start.manifest →
      start.config = engine.config → start.immutable = engine.immutable →
      start.manifest.levelCount 0 = engine.manifest.levelCount 0 +
        [engine.active].countP (fun memory => !memory.data.isEmpty) →
      Kept hashing (flushImmutables hashing start).state.directory
          (flushImmutables hashing start).state.manifest ∧
        (flushImmutables hashing start).state.config = engine.config ∧
        (flushImmutables hashing start).state.manifest.levelCount 0 =
          engine.manifest.levelCount 0 + engine.queued := by
    intro start kept config immutable count
    obtain ⟨sameConfig, isCount⟩ := @levelCount_foldl_writeMemtable hashing
      start.immutable.reverse { start with immutable := [] }
    refine ⟨@kept_foldl_writeMemtable hashing { start with immutable := [] } _ kept,
      sameConfig.trans config, isCount.trans ?_⟩
    rw [List.countP_reverse, immutable, queued, List.countP_cons]
    dsimp only
    rw [count, List.countP_singleton]
    omega
  apply first
  · rw [flush, Exec.modify]
    dsimp only
    split
    · exact kept
    · exact @kept_writeMemtable hashing { engine with active := .new } _ kept
  · rw [flush, Exec.modify]
    dsimp only
    split <;> rfl
  · rw [flush, Exec.modify]
    dsimp only
    split <;> rfl
  · rw [flush, Exec.modify]
    dsimp only
    split
    next empty => simp [empty]
    next => exact @levelCount_writeMemtable hashing { engine with active := .new } _

/-- Sync ends exactly if level 0 will not be full, or a compaction can empty it. -/
theorem settles_iff_settling (kept : Kept hashing engine.directory engine.manifest) :
    engine.Settles hashing ↔ engine.Settling := by
  obtain ⟨keptAll, config, count⟩ := @flushedAll_spec hashing engine kept
  rw [Settles, Settling, ← config, ← count, ← compactAll_ends_iff keptAll]
  rfl

end Before

section Calls

/-- A call leaves every listed table in the directory. -/
abbrev Keeping (hashing : Hashing) (before after : LsmEngine) : Prop :=
  Kept hashing before.directory before.manifest → Kept hashing after.directory after.manifest

abbrev RespectsKept (hashing : Hashing) {α : Type} (call : Engine α) : Prop :=
  Exec.Respects (fun _ => True) (Keeping hashing) call

theorem RespectsKept.bind {α β : Type} {call : Engine α} {next : α → Engine β}
    (first : RespectsKept hashing call) (second : ∀ value, RespectsKept hashing (next value)) :
    RespectsKept hashing (call >>= next) :=
  Exec.Respects.bind (fun one two kept => two (one kept)) first second

theorem respects_of_unchanged {α : Type} {call : Engine α}
    (unchanged : ∀ engine, (call engine).state = engine) : RespectsKept hashing call :=
  Exec.Respects.of_unchanged (fun _ kept => kept) unchanged

theorem respects_compactAt (level : Nat) : RespectsKept hashing (compactAt hashing level) := by
  intro engine _ kept
  rw [compactAt_eq]
  cases compactLevel_compacts hashing engine.config engine.directory engine.manifest level with
  | nothing idle result =>
      rw [result]
      exact kept
  | fails removed removes error opened result =>
      rw [result]
      exact kept
  | writes deeper removed removes pieces sorted filled result =>
      rw [result]
      exact kept.rewrite removes sorted filled

theorem respects_compact : RespectsKept hashing (compact hashing) := by
  refine RespectsKept.bind (respects_of_unchanged fun _ => rfl) fun engine => ?_
  split
  · exact RespectsKept.bind (respects_compactAt _) fun _ => respects_of_unchanged fun _ => rfl
  · exact respects_of_unchanged fun _ => rfl

theorem respects_compactAll (fuel : Nat) : RespectsKept hashing (compactAll hashing fuel) := by
  induction fuel with
  | zero => exact respects_of_unchanged fun _ => rfl
  | succ fuel ih =>
      refine RespectsKept.bind respects_compact fun again => ?_
      cases again with
      | true => exact ih
      | false => exact respects_of_unchanged fun _ => rfl

theorem respects_flushImmutables : RespectsKept hashing (flushImmutables hashing) := by
  intro engine _ kept
  exact @kept_foldl_writeMemtable hashing { engine with immutable := [] } _ kept

theorem respects_maybeFlush : RespectsKept hashing (maybeFlush hashing) := by
  refine RespectsKept.bind (respects_of_unchanged fun _ => rfl) fun engine => ?_
  split
  · refine RespectsKept.bind (fun _ _ kept => kept) fun _ => ?_
    refine RespectsKept.bind respects_flushImmutables fun _ => ?_
    exact RespectsKept.bind respects_compact fun _ => respects_of_unchanged fun _ => rfl
  · exact respects_of_unchanged fun _ => rfl

theorem respects_flush : RespectsKept hashing (flush hashing) := by
  intro engine _ kept
  rw [flush, Exec.modify]
  dsimp only
  split
  · exact kept
  · exact @kept_writeMemtable hashing { engine with active := .new } _ kept

theorem respects_run (call : Call) : RespectsKept hashing (call.run hashing) := by
  cases call with
  | put key value => exact RespectsKept.bind (fun _ _ kept => kept) fun _ => respects_maybeFlush
  | delete key => exact RespectsKept.bind (fun _ _ kept => kept) fun _ => respects_maybeFlush
  | flush => exact respects_flush
  | compact => exact RespectsKept.bind respects_compact fun _ => respects_of_unchanged fun _ => rfl
  | sync fuel =>
      refine RespectsKept.bind respects_flush fun _ => ?_
      exact RespectsKept.bind respects_flushImmutables fun _ => respects_compactAll fuel

end Calls

end LsmEngine

/-- What is done with a directory: a call, or opening it again with any configuration. -/
inductive Use where
  | call (call : Call)
  | reopen (config : LsmConfig)

namespace LsmEngine

variable (hashing : Hashing)

def use (engine : LsmEngine) : Use → LsmEngine
  | .call call => (call.run hashing engine).state
  | .reopen config => .openDirectory config engine.directory

/-- An engine after some uses of an empty directory. -/
def used (config : LsmConfig) (uses : List Use) : LsmEngine :=
  uses.foldl (use hashing) (.openDirectory config .empty)

theorem kept_use {engine : LsmEngine} (kept : Kept hashing engine.directory engine.manifest) (action : Use) :
    Kept hashing (engine.use hashing action).directory (engine.use hashing action).manifest := by
  cases action with
  | call call => exact respects_run call engine (fun _ _ => trivial) kept
  | reopen config =>
      obtain ⟨level, nextSstId⟩ := kept.saved config.maxLevels
      change Kept hashing engine.directory (.loadOrCreate config.maxLevels engine.directory.manifest)
      constructor
      · intro number info member
        exact kept.files number info (level number ▸ member)
      · intro number info member
        exact kept.placed number info (level number ▸ member)
      · intro number info member
        rw [nextSstId]
        exact kept.bound number info (level number ▸ member)
      · intro maxLevels
        have same := kept.saved maxLevels
        exact ⟨fun number => (same.level number).trans (level number).symm,
          same.nextSstId.trans nextSstId.symm⟩

theorem kept_used (config : LsmConfig) (uses : List Use) :
    Kept hashing (used hashing config uses).directory (used hashing config uses).manifest := by
  induction uses using List.reverseRecOn with
  | nil =>
      have nothing : ∀ {level : Nat} {info : SSTableMeta},
          info ∉ (Manifest.new config.maxLevels).level level := by
        intro level info
        rw [Manifest.level_new]
        exact List.not_mem_nil
      refine ⟨fun _ _ member => absurd member nothing, fun _ _ member => absurd member nothing,
        fun _ _ member => absurd member nothing, fun maxLevels => ⟨fun number => ?_, rfl⟩⟩
      exact (Manifest.level_new maxLevels number).trans (Manifest.level_new _ number).symm
  | append_singleton uses last ih =>
      rw [used, List.foldl_concat]
      exact kept_use hashing ih last

/-- **When sync ends.**  In every state that is reached from an empty directory, the loop of sync
ends exactly if the trigger of level 0 is positive, and there are two levels or the trigger is not
reached. -/
theorem settles_iff (config : LsmConfig) (uses : List Use) :
    (used hashing config uses).Settles hashing ↔ (used hashing config uses).Settling :=
  settles_iff_settling (kept_used hashing config uses)

/-- Sync does not end in an empty directory if the trigger of level 0 is zero, and not after one put
if there is one level. -/
theorem not_settles :
    ¬(used byteHashing { smallConfig with l0CompactionTrigger := 0 } []).Settles byteHashing ∧
      ¬(used byteHashing { smallConfig with maxLevels := 1 } [.call (.put [1] [2])]).Settles
        byteHashing := by
  constructor
  · rintro ⟨fuel, ends⟩
    exact ends .panic (compactAll_stuck rfl (Or.inr rfl) fuel)
  · rintro ⟨fuel, ends⟩
    refine ends .panic ?_
    rw [outcome_sync]
    exact compactAll_stuck (by decide +kernel) (Or.inl (by decide)) fuel

end LsmEngine

end JouleDB.Lsm
