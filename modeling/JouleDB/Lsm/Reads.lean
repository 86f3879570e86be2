import JouleDB.Lsm.Engine

/-!
# Reads of the levels

In a sound directory a read finds the newest version of the first level that has one.
-/

namespace JouleDB.Lsm

/-- The version of a key in a table of the directory. -/
def readTable (directory : Directory) (key : Bytes) (info : SSTableMeta) : Option (Option Bytes) :=
  directory.tables[info.id]?.bind fun table => table.iter.lookup key

/-- The version of a key that a level answers with. -/
def readLevel (directory : Directory) (manifest : Manifest) (key : Bytes) (level : Nat) :
    Option (Option Bytes) :=
  newest (·.id) (readTable directory key) (manifest.level level)

/-- The key ranges of two tables do not overlap. -/
def SSTableMeta.Apart (first second : SSTableMeta) : Prop :=
  first.lastKey < second.firstKey ∨ second.lastKey < first.firstKey

instance : Std.Symm SSTableMeta.Apart := ⟨fun _ _ => Or.symm⟩

/-- The tables of the manifest are in the directory, under different ids, and those of a level below
the first have different key ranges. -/
structure Sound (hashing : Hashing) (maxLevels : Nat) (directory : Directory)
    (manifest : Manifest) : Prop where
  files : ∀ level, ∀ info ∈ manifest.level level,
    ∃ table, directory.tables[info.id]? = some table ∧ info.Describes hashing table
  placed : ∀ level, ∀ info ∈ manifest.level level, info.level = level
  ids : ∀ level, ∀ info ∈ manifest.level level, ∀ level', ∀ info' ∈ manifest.level level',
    info.id = info'.id → info = info'
  bound : ∀ level, ∀ info ∈ manifest.level level, info.id < manifest.nextSstId
  apart : ∀ level, 1 ≤ level → (manifest.level level).Pairwise SSTableMeta.Apart
  order : ∀ info ∈ manifest.level 0, ∀ older ∈ manifest.level 1, older.id < info.id
  depth : ∀ level, 1 ≤ level → maxLevels ≤ level → manifest.level level = []

section Reads

variable {hashing : Hashing} {maxLevels : Nat} {directory : Directory} {manifest : Manifest}
  {key : Bytes}

theorem searchTables_eq {infos : List SSTableMeta}
    (files : ∀ info ∈ infos,
      ∃ table, directory.tables[info.id]? = some table ∧ info.Describes hashing table) :
    LsmEngine.searchTables hashing directory key infos =
      .ok (infos.findSome? (readTable directory key)) := by
  induction infos with
  | nil => rfl
  | cons info infos ih =>
      obtain ⟨⟨table, found, describes⟩, files⟩ := List.forall_mem_cons.mp files
      have read : readTable directory key info = table.iter.lookup key := by
        rw [readTable, found, Option.bind_some]
      rw [LsmEngine.searchTables, List.findSome?_cons, read, ih files]
      split
      next outside => rw [describes.lookup_eq_none outside]
      next =>
        rw [Directory.openTable, found]
        simp only [Outcome.ok_bind, describes.valid.get_eq]
        cases table.iter.lookup key with
        | none => rfl
        | some entry => rfl

theorem searchLevels_resolves {levels : List (List SSTableMeta)}
    (files : ∀ tables ∈ levels, ∀ info ∈ tables,
      ∃ table, directory.tables[info.id]? = some table ∧ info.Describes hashing table) :
    ∃ value, LsmEngine.searchLevels hashing directory key levels = .ok value ∧
      Resolves (fun level => newest (·.id) (readTable directory key) (levels[level]?.getD []))
        value := by
  induction levels with
  | nil =>
      refine ⟨none, rfl, .inr ⟨rfl, ?_⟩⟩
      intro level
      exact newest_eq_none_iff.mpr (by simp)
  | cons tables levels ih =>
      obtain ⟨here, below⟩ := List.forall_mem_cons.mp files
      obtain ⟨value, searched, resolves⟩ := ih below
      have sorted : ∀ info ∈ newestFirst (·.id) tables,
          ∃ table, directory.tables[info.id]? = some table ∧ info.Describes hashing table :=
        fun info member => here info (newestFirst_perm.mem_iff.mp member)
      rw [LsmEngine.searchLevels, searchTables_eq sorted, Outcome.ok_bind]
      cases found : (newestFirst (·.id) tables).findSome? (readTable directory key) with
      | none => exact ⟨value, searched, Resolves.shift found resolves⟩
      | some entry =>
          refine ⟨entry, rfl, .inl ⟨0, found, ?_⟩⟩
          intro other less
          exact absurd less (Nat.not_lt_zero other)

/-- A read of a sound directory returns, with the value of the first level that has a version. -/
theorem Sound.searchLevels (sound : Sound hashing maxLevels directory manifest) (key : Bytes) :
    ∃ value, LsmEngine.searchLevels hashing directory key manifest.levels = .ok value ∧
      Resolves (readLevel directory manifest key) value := by
  apply searchLevels_resolves
  intro tables member info inside
  obtain ⟨level, found⟩ := List.getElem?_of_mem member
  apply sound.files level info
  rwa [Manifest.level, found, Option.getD_some]

end Reads

/-- The saved manifest, or a new one if none was saved, lists the same tables. -/
structure Saved (maxLevels : Nat) (directory : Directory) (manifest : Manifest) : Prop where
  level : ∀ level, (Manifest.loadOrCreate maxLevels directory.manifest).level level =
    manifest.level level
  nextSstId : (Manifest.loadOrCreate maxLevels directory.manifest).nextSstId = manifest.nextSstId

section Saved

variable {maxLevels : Nat} {directory : Directory} {manifest : Manifest}

theorem getD_foldl_push (infos : List SSTableMeta) (levels : List (List SSTableMeta))
    (number : Nat) :
    (infos.foldl Manifest.push levels)[number]?.getD [] =
      levels[number]?.getD [] ++ infos.filter fun info => info.level = number := by
  induction infos generalizing levels with
  | nil => simp
  | cons info infos ih =>
      rw [List.foldl_cons, ih, Manifest.getD_push, List.filter_cons]
      by_cases same : info.level = number
      · simp [same]
      · simp [same, Ne.symm same]

/-- The tables of a level are those that say so. -/
theorem filter_flatten {levels : List (List SSTableMeta)} {offset : Nat}
    (placed : ∀ index tables, levels[index]? = some tables →
      ∀ info ∈ tables, info.level = offset + index) (number : Nat) :
    levels.flatten.filter (fun info => info.level = offset + number) =
      levels[number]?.getD [] := by
  induction levels generalizing offset number with
  | nil => simp
  | cons tables levels ih =>
      have here : ∀ info ∈ tables, info.level = offset := placed 0 tables rfl
      have below : ∀ index others, levels[index]? = some others →
          ∀ info ∈ others, info.level = (offset + 1) + index := by
        intro index others found info member
        rw [placed (index + 1) others found info member]
        omega
      rw [List.flatten_cons, List.filter_append]
      cases number with
      | zero =>
          have none : levels.flatten.filter (fun info => info.level = offset + 0) = [] := by
            rw [List.filter_eq_nil_iff]
            intro info member
            obtain ⟨others, isOthers, inside⟩ := List.mem_flatten.mp member
            obtain ⟨index, found⟩ := List.getElem?_of_mem isOthers
            have deeper := below index others found info inside
            simp only [decide_eq_true_eq]
            omega
          have all : tables.filter (fun info => info.level = offset + 0) = tables := by
            rw [List.filter_eq_self]
            intro info member
            exact decide_eq_true (here info member)
          rw [none, all, List.append_nil]
          rfl
      | succ number =>
          have none : tables.filter (fun info => info.level = offset + (number + 1)) = [] := by
            rw [List.filter_eq_nil_iff]
            intro info member
            have shallow := here info member
            simp only [decide_eq_true_eq]
            omega
          have rest := ih below number
          rw [Nat.add_assoc, Nat.add_comm 1 number] at rest
          rw [none, List.nil_append, rest]
          rfl

/-- A manifest that was saved is loaded as it was. -/
theorem saved_of_data (placed : ∀ level, ∀ info ∈ manifest.level level, info.level = level)
    (isSaved : directory.manifest = some manifest.data) : Saved maxLevels directory manifest := by
  have listed : ∀ index tables, manifest.levels[index]? = some tables →
      ∀ info ∈ tables, info.level = 0 + index := by
    intro index tables found info member
    rw [Nat.zero_add]
    apply placed index info
    rwa [Manifest.level, found, Option.getD_some]
  constructor
  · intro number
    have loaded := getD_foldl_push manifest.levels.flatten (List.replicate maxLevels []) number
    have same := filter_flatten listed number
    rw [Nat.zero_add] at same
    rw [same] at loaded
    have empty := Manifest.level_new maxLevels number
    rw [Manifest.level, Manifest.new] at empty
    rw [empty, List.nil_append] at loaded
    rw [isSaved]
    exact loaded
  · rw [isSaved]
    rfl

end Saved

end JouleDB.Lsm
