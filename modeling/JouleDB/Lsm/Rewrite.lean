import JouleDB.Lsm.Refinement

/-!
# What a compaction does to the levels

A compaction removes tables of a level, writes new ones to the next level, and leaves every listed
table in the directory.  This holds of any manifest, whatever its tables contain.
-/

namespace JouleDB.Lsm

/-- The manifest lists tables of the directory, at their levels, and the saved one lists the same. -/
structure Kept (hashing : Hashing) (directory : Directory) (manifest : Manifest) : Prop where
  files : ∀ level, ∀ info ∈ manifest.level level,
    ∃ table, directory.tables[info.id]? = some table ∧ info.Describes hashing table
  placed : ∀ level, ∀ info ∈ manifest.level level, info.level = level
  bound : ∀ level, ∀ info ∈ manifest.level level, info.id < manifest.nextSstId
  saved : ∀ maxLevels, Saved maxLevels directory manifest

/-- The ids of the tables that a compaction of a level removes. -/
structure Removes (manifest : Manifest) (level : Nat) (removed : List Nat) : Prop where
  listed : ∀ id ∈ removed, ∃ number, ∃ info ∈ manifest.level number, info.id = id
  some : ∃ info ∈ manifest.level level, info.id ∈ removed
  whole : level = 0 → ∀ info ∈ manifest.level 0, info.id ∈ removed

section Shape

variable {hashing : Hashing} {config : LsmConfig} {directory : Directory} {manifest : Manifest}
  {level : Nat}

theorem findMeta_isSome {number : Nat} {info : SSTableMeta} (member : info ∈ manifest.level number) :
    ∃ found, findMeta manifest info.id = some found ∧ found.id = info.id := by
  cases found : findMeta manifest info.id with
  | none =>
      rw [findMeta, List.find?_eq_none] at found
      exact absurd (decide_eq_true rfl) (found info (mem_flatten_levels.mpr ⟨number, member⟩))
  | some other => exact ⟨other, rfl, by simpa using List.find?_some found⟩

theorem listed_of_findMeta {id : Nat} {info : SSTableMeta} (found : findMeta manifest id = some info) :
    (∃ number, info ∈ manifest.level number) ∧ info.id = id :=
  ⟨mem_flatten_levels.mp (List.mem_of_find?_eq_some found), by simpa using List.find?_some found⟩

theorem removes_of_selectSources {sources : List Nat} {first last : Bytes}
    (selected : selectSources manifest level = some (sources, first, last)) :
    Removes manifest level (sources ++ selectTargets manifest (level + 1) first last) := by
  obtain ⟨infos, rfl, picked⟩ := exists_of_selectSources selected
  constructor
  · intro id member
    rcases List.mem_append.mp member with isSource | isTarget
    · obtain ⟨info, isInfo, rfl⟩ := List.mem_map.mp isSource
      exact ⟨level, info, picked.inside info isInfo, rfl⟩
    · rw [selectTargets_eq] at isTarget
      obtain ⟨info, isInfo, rfl⟩ := List.mem_map.mp isTarget
      exact ⟨level + 1, info, (mem_overlapping.mp isInfo).1, rfl⟩
  · obtain ⟨info, others, isInfos⟩ := List.exists_cons_of_ne_nil picked.filled
    have isInfo : info ∈ infos := isInfos ▸ List.mem_cons_self
    exact ⟨info, picked.inside info isInfo,
      List.mem_append_left _ (List.mem_map_of_mem isInfo)⟩
  · intro isZero info member
    rw [picked.whole isZero]
    exact List.mem_append_left _ (List.mem_map_of_mem member)

/-- The manifest after a compaction. -/
def rewritten (manifest : Manifest) (removed : List Nat) (written : List (SSTableMeta × SSTable)) :
    Manifest :=
  (written.map Prod.fst).foldl Manifest.addSstable
    ({ manifest with nextSstId := manifest.nextSstId + written.length }.removeSstables removed)

/-- The file operations of a compaction. -/
def rewriting (manifest : Manifest) (removed : List Nat) (written : List (SSTableMeta × SSTable)) :
    List FileOperation :=
  written.map (fun output => .create output.1.id output.2) ++
    (removed.filterMap (findMeta manifest)).map (fun info => .remove info.id) ++
    (rewritten manifest removed written).save

/-- A compaction does nothing, or fails when it opens a table, or writes tables to the next
level. -/
inductive Compacts (hashing : Hashing) (config : LsmConfig) (directory : Directory)
    (manifest : Manifest) (level : Nat) : Prop where
  | nothing (idle : config.maxLevels ≤ level + 1 ∨ manifest.level level = [])
      (result : compactLevel hashing config directory manifest level =
        .ok (manifest, [], ⟨[], []⟩))
  | fails (removed : List Nat) (removes : Removes manifest level removed) (error : IoError)
      (opened : openAll directory (inputMetas manifest removed) = .err error)
      (result : compactLevel hashing config directory manifest level = .err error)
  | writes (deeper : level + 1 < config.maxLevels) (removed : List Nat)
      (removes : Removes manifest level removed)
      (pieces : List (List Entry)) (sorted : Sorted pieces.flatten)
      (filled : ∀ piece ∈ pieces, piece ≠ [])
      (result : compactLevel hashing config directory manifest level =
        .ok (rewritten manifest removed (outputs hashing (level + 1) manifest.nextSstId pieces),
          rewriting manifest removed (outputs hashing (level + 1) manifest.nextSstId pieces),
          ⟨removed, (outputs hashing (level + 1) manifest.nextSstId pieces).map Prod.fst⟩))

theorem openAll_ne_halt (infos : List SSTableMeta) (cause : Halt) :
    openAll directory infos ≠ .halt cause := by
  induction infos with
  | nil =>
      intro same
      cases same
  | cons info infos ih =>
      rw [openAll, Directory.openTable]
      intro same
      cases found : directory.tables[info.id]? with
      | none =>
          rw [found] at same
          cases same
      | some table =>
          rw [found] at same
          cases rest : openAll directory infos with
          | ok tables =>
              rw [rest] at same
              cases same
          | err error =>
              rw [rest] at same
              cases same
          | halt other =>
              rw [rest] at same
              cases same
              exact ih rest

theorem compactLevel_compacts (hashing : Hashing) (config : LsmConfig) (directory : Directory)
    (manifest : Manifest) (level : Nat) : Compacts hashing config directory manifest level := by
  by_cases deep : config.maxLevels - 1 ≤ level
  · exact .nothing (.inl (by omega)) (by rw [compactLevel, if_pos deep])
  cases selected : selectSources manifest level with
  | none =>
      refine .nothing (.inr ?_) (by rw [compactLevel, if_neg deep, selected])
      rw [selectSources] at selected
      split at selected
      next isZero =>
        split at selected
        next empty => exact empty
        next => cases selected
      next => exact List.argmin_eq_none.mp (Option.map_eq_none_iff.mp selected)
  | some selection =>
      obtain ⟨sources, first, last⟩ := selection
      have removes := removes_of_selectSources selected
      generalize isRemoved : sources ++ selectTargets manifest (level + 1) first last = removed
        at removes
      have filled : inputMetas manifest removed ≠ [] := by
        obtain ⟨info, member, isId⟩ := removes.some
        obtain ⟨found, isFound, -⟩ := findMeta_isSome member
        have input : found ∈ removed.filterMap (findMeta manifest) :=
          List.mem_filterMap.mpr ⟨info.id, isId, isFound⟩
        intro empty
        have none : found ∈ inputMetas manifest removed := newestFirst_perm.mem_iff.mpr input
        rw [empty] at none
        cases none
      cases opened : openAll directory (inputMetas manifest removed) with
      | halt cause => exact absurd opened (openAll_ne_halt _ cause)
      | err error =>
          refine .fails removed removes error opened ?_
          rw [compactLevel, if_neg deep, selected]
          simp only [isRemoved, if_neg filled, mergeSstables, opened, Outcome.err_bind]
      | ok tables =>
          let entries := mergeTables tables (config.maxLevels - 1 ≤ level + 1)
          let size := max (estimateEntriesPerSst entries config.targetSstSize) 1
          have positive : 0 < size := Nat.lt_of_lt_of_le Nat.zero_lt_one (Nat.le_max_right _ 1)
          have whole : (chunks size entries.length entries).flatten = entries :=
            chunks_flatten positive (Nat.le_refl _)
          refine .writes (by omega) removed removes (chunks size entries.length entries)
            (whole.symm ▸ mergeTables_sorted _) (chunks_filled positive) ?_
          rw [compactLevel, if_neg deep, selected]
          simp only [isRemoved, if_neg filled, mergeSstables, opened, Outcome.ok_bind,
            Outcome.pure_eq, writeMergedEntries, writeChunks_eq, rewriting, rewritten, outputs,
            List.length_map, List.length_zipIdx]
          rfl

end Shape

section Outputs

variable {hashing : Hashing} {level next : Nat} {pieces : List (List Entry)}

/-- The tables that are written are placed at the level, and have new ids, one after the other. -/
theorem outputs_placed {output : SSTableMeta × SSTable}
    (member : output ∈ outputs hashing level next pieces) :
    output.1.level = level ∧ next ≤ output.1.id ∧ output.1.id < next + pieces.length := by
  obtain ⟨index, found⟩ := List.getElem?_of_mem member
  rw [getElem?_outputs, Option.map_eq_some_iff] at found
  obtain ⟨piece, isPiece, rfl⟩ := found
  have bound := (List.getElem?_eq_some_iff.mp isPiece).1
  exact ⟨rfl, Nat.le_add_right next index, Nat.add_lt_add_left bound next⟩

theorem length_outputs : (outputs hashing level next pieces).length = pieces.length := by
  simp [outputs]

theorem outputs_distinct : (outputs hashing level next pieces).Pairwise fun first second =>
    first.1.id ≠ second.1.id := by
  have isId : ∀ index (bound : index < (outputs hashing level next pieces).length),
      (outputs hashing level next pieces)[index].1.id = next + index := by
    intro index bound
    have found := List.getElem?_eq_getElem bound
    rw [getElem?_outputs, Option.map_eq_some_iff] at found
    obtain ⟨piece, -, same⟩ := found
    rw [← same]
    rfl
  apply List.pairwise_iff_getElem.mpr
  intro first second firstBound secondBound less
  rw [isId first firstBound, isId second secondBound]
  omega

end Outputs

section Levels

variable {hashing : Hashing} {directory : Directory} {manifest : Manifest} {level : Nat}
  {removed : List Nat} {pieces : List (List Entry)}

/-- Every level keeps the tables that are not removed, and the next one gets those that are
written. -/
theorem level_rewritten (number : Nat) :
    (rewritten manifest removed (outputs hashing (level + 1) manifest.nextSstId pieces)).level
        number =
      ((manifest.level number).filter fun info => info.id ∉ removed) ++
        if number = level + 1 then
          (outputs hashing (level + 1) manifest.nextSstId pieces).map Prod.fst
        else [] := by
  have placed : ∀ info ∈ (outputs hashing (level + 1) manifest.nextSstId pieces).map Prod.fst,
      info.level = level + 1 := by
    intro info member
    obtain ⟨output, isOutput, rfl⟩ := List.mem_map.mp member
    exact (outputs_placed isOutput).1
  rw [rewritten, Merging.level_foldl_addSstable _ _ placed, Manifest.level_removeSstables]
  rfl

theorem nextSstId_rewritten (written : List (SSTableMeta × SSTable)) :
    (rewritten manifest removed written).nextSstId = manifest.nextSstId + written.length :=
  Merging.nextSstId_foldl_addSstable _ _

/-- A table of a level after a compaction was kept or written. -/
theorem mem_level_rewritten {number : Nat} {info : SSTableMeta}
    (member : info ∈ (rewritten manifest removed
      (outputs hashing (level + 1) manifest.nextSstId pieces)).level number) :
    (info ∈ manifest.level number ∧ info.id ∉ removed) ∨
      number = level + 1 ∧ ∃ table,
        (info, table) ∈ outputs hashing (level + 1) manifest.nextSstId pieces := by
  rw [level_rewritten] at member
  rcases List.mem_append.mp member with old | new
  · obtain ⟨inside, apart⟩ := List.mem_filter.mp old
    exact .inl ⟨inside, of_decide_eq_true apart⟩
  · split at new
    next isNext =>
      obtain ⟨⟨_, table⟩, isOutput, rfl⟩ := List.mem_map.mp new
      exact .inr ⟨isNext, table, isOutput⟩
    next => cases new

/-- A compaction leaves every listed table in the directory. -/
theorem Kept.rewrite (kept : Kept hashing directory manifest)
    (removes : Removes manifest level removed) (sorted : Sorted pieces.flatten)
    (filled : ∀ piece ∈ pieces, piece ≠ []) :
    Kept hashing (directory.performAll (rewriting manifest removed
        (outputs hashing (level + 1) manifest.nextSstId pieces)))
      (rewritten manifest removed (outputs hashing (level + 1) manifest.nextSstId pieces)) := by
  have old : ∀ id ∈ removed, id < manifest.nextSstId := by
    intro id member
    obtain ⟨number, info, inside, rfl⟩ := removes.listed id member
    exact kept.bound number info inside
  have deleted : ∀ info ∈ removed.filterMap (findMeta manifest), info.id ∈ removed := by
    intro info member
    obtain ⟨id, isId, found⟩ := List.mem_filterMap.mp member
    rwa [(listed_of_findMeta found).2]
  have placed : ∀ number, ∀ info ∈ (rewritten manifest removed
      (outputs hashing (level + 1) manifest.nextSstId pieces)).level number,
      info.level = number := by
    intro number info member
    rcases mem_level_rewritten member with ⟨inside, -⟩ | ⟨rfl, table, isOutput⟩
    · exact kept.placed number info inside
    · exact (outputs_placed isOutput).1
  refine ⟨?_, placed, ?_, fun maxLevels => saved_of_data placed ?_⟩
  · intro number info member
    rw [rewriting, performAll_append, tables_save, performAll_append]
    rcases mem_level_rewritten member with ⟨inside, apart⟩ | ⟨rfl, table, isOutput⟩
    · rw [tables_remove_of_ne, tables_create_of_ne]
      · exact kept.files number info inside
      · intro output isOutput
        have lower := (outputs_placed isOutput).2.1
        have upper := kept.bound number info inside
        omega
      · intro other isRemoved same
        exact apart (same ▸ deleted other isRemoved)
    · rw [tables_remove_of_ne, tables_create_of_mem outputs_distinct isOutput]
      · exact ⟨table, rfl, (outputs_written hashing (level + 1) manifest.nextSstId sorted
          filled).describes _ isOutput⟩
      · intro other isRemoved same
        have upper := old _ (deleted other isRemoved)
        have lower := (outputs_placed isOutput).2.1
        dsimp only at lower
        omega
  · intro number info member
    rw [nextSstId_rewritten, length_outputs]
    rcases mem_level_rewritten member with ⟨inside, -⟩ | ⟨-, table, isOutput⟩
    · exact Nat.lt_add_right _ (kept.bound number info inside)
    · exact (outputs_placed isOutput).2.2
  · rw [rewriting, performAll_append]
    rfl

/-- A compaction of tables that are all there does not fail. -/
theorem Kept.openAll (kept : Kept hashing directory manifest) (infos : List SSTableMeta)
    (listed : ∀ info ∈ infos, ∃ number, info ∈ manifest.level number) :
    ∃ tables, openAll directory infos = .ok tables := by
  induction infos with
  | nil => exact ⟨[], rfl⟩
  | cons info infos ih =>
      obtain ⟨⟨number, member⟩, listed⟩ := List.forall_mem_cons.mp listed
      obtain ⟨table, found, -⟩ := kept.files number info member
      obtain ⟨tables, opened⟩ := ih listed
      refine ⟨table :: tables, ?_⟩
      rw [JouleDB.Lsm.openAll, Directory.openTable, found, Outcome.ok_bind, opened]
      rfl

theorem listed_inputMetas {info : SSTableMeta} (member : info ∈ inputMetas manifest removed) :
    ∃ number, info ∈ manifest.level number := by
  rw [inputMetas, newestFirst_perm.mem_iff] at member
  obtain ⟨id, -, found⟩ := List.mem_filterMap.mp member
  exact (listed_of_findMeta found).1

theorem Kept.openAll_ne_err (kept : Kept hashing directory manifest) (error : IoError) :
    JouleDB.Lsm.openAll directory (inputMetas manifest removed) ≠ .err error := by
  obtain ⟨tables, opened⟩ := kept.openAll _ fun info => listed_inputMetas
  rw [opened]
  exact nofun

/-- A table in memory is written to a new table file. -/
theorem Kept.flush (kept : Kept hashing directory manifest) {entries : List Entry}
    (sorted : Sorted entries) :
    Kept hashing (directory.performAll (LsmEngine.writeMemtableToSst hashing entries manifest).2)
      (LsmEngine.writeMemtableToSst hashing entries manifest).1 := by
  by_cases filled : entries = []
  · rw [LsmEngine.writeMemtableToSst, if_pos filled]
    exact kept
  rw [writeMemtableToSst_eq hashing manifest filled]
  have cases : ∀ {number : Nat} {info : SSTableMeta},
      info ∈ (flushed hashing entries manifest).level number → info ∈ manifest.level number ∨
        number = 0 ∧ info = (writeTable hashing entries manifest.nextSstId 0).1 := by
    intro number info member
    rw [level_flushed] at member
    rcases List.mem_append.mp member with old | new
    · exact .inl old
    · split at new
      next isZero => exact .inr ⟨isZero, List.mem_singleton.mp new⟩
      next => cases new
  have placed : ∀ number, ∀ info ∈ (flushed hashing entries manifest).level number,
      info.level = number := by
    intro number info member
    rcases cases member with old | ⟨rfl, rfl⟩
    · exact kept.placed number info old
    · rfl
  refine ⟨?_, placed, ?_, fun maxLevels => saved_of_data placed rfl⟩
  · intro number info member
    rw [tables_flushed]
    rcases cases member with old | ⟨_, rfl⟩
    · rw [if_neg (Nat.ne_of_gt (kept.bound number info old))]
      exact kept.files number info old
    · exact ⟨_, if_pos rfl, (writeTable_describes hashing sorted filled manifest.nextSstId 0).1⟩
  · intro number info member
    rcases cases member with old | ⟨_, rfl⟩
    · exact (kept.bound number info old).trans (Nat.lt_succ_self _)
    · exact Nat.lt_succ_self _

end Levels

end JouleDB.Lsm
