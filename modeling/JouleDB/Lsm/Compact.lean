import JouleDB.Lsm.Merge

/-!
# Compaction keeps the values

A compaction moves the versions of some tables to the next level.  Values stay the same if, of two
tables that are merged and have the same key, the one of the upper level has the higher id.
-/

namespace JouleDB.Lsm

section Selection

variable {manifest : Manifest} {level : Nat} {ids : List Nat} {first last : Bytes}

/-- The tables that are picked from a level, with a key range that covers theirs. -/
structure Picked (manifest : Manifest) (level : Nat) (sources : List SSTableMeta)
    (first last : Bytes) : Prop where
  filled : sources ≠ []
  inside : ∀ info ∈ sources, info ∈ manifest.level level
  range : ∀ info ∈ sources, first ≤ info.firstKey ∧ info.lastKey ≤ last
  whole : level = 0 → sources = manifest.level 0
  single : level ≠ 0 → ∃ pick, sources = [pick]

theorem exists_of_selectSources (selected : selectSources manifest level = some (ids, first, last)) :
    ∃ sources, ids = sources.map (·.id) ∧ Picked manifest level sources first last := by
  rw [selectSources] at selected
  split at selected
  next isZero =>
    subst isZero
    split at selected
    · cases selected
    next filled =>
      cases selected
      refine ⟨manifest.level 0, rfl, filled, fun _ member => member, ?_, fun _ => rfl,
        fun apart => absurd rfl apart⟩
      intro info member
      constructor
      · cases smallest : ((manifest.level 0).map (·.firstKey)).min? with
        | none => simp [List.min?_eq_none_iff, filled] at smallest
        | some key =>
            exact (List.min?_eq_some_iff.mp smallest).2 _ (List.mem_map_of_mem member)
      · cases largest : ((manifest.level 0).map (·.lastKey)).max? with
        | none => simp [List.max?_eq_none_iff, filled] at largest
        | some key =>
            exact (List.max?_eq_some_iff.mp largest).2 _ (List.mem_map_of_mem member)
  next apart =>
    obtain ⟨pick, isPick, same⟩ := Option.map_eq_some_iff.mp selected
    cases same
    refine ⟨[pick], rfl, by simp, ?_, ?_, fun isZero => absurd isZero apart, fun _ => ⟨pick, rfl⟩⟩
    · intro info member
      rw [List.mem_singleton.mp member]
      exact List.argmin_mem isPick
    · intro info member
      rw [List.mem_singleton.mp member]
      exact ⟨le_refl _, le_refl _⟩

/-- The tables of the next level that overlap the range. -/
def overlapping (manifest : Manifest) (level : Nat) (first last : Bytes) : List SSTableMeta :=
  (manifest.level level).filter fun info => rangesOverlap info.firstKey info.lastKey first last

/-- The tables of the next level that do not overlap the range. -/
def outside (manifest : Manifest) (level : Nat) (first last : Bytes) : List SSTableMeta :=
  (manifest.level level).filter fun info => !rangesOverlap info.firstKey info.lastKey first last

theorem selectTargets_eq :
    selectTargets manifest level first last = (overlapping manifest level first last).map (·.id) :=
  rfl

theorem mem_overlapping {info : SSTableMeta} : info ∈ overlapping manifest level first last ↔
    info ∈ manifest.level level ∧ info.firstKey ≤ last ∧ first ≤ info.lastKey := by
  simp [overlapping, rangesOverlap]

theorem mem_outside {info : SSTableMeta} : info ∈ outside manifest level first last ↔
    info ∈ manifest.level level ∧ (info.lastKey < first ∨ last < info.firstKey) := by
  rw [outside, List.mem_filter]
  apply and_congr_right
  intro _
  simp only [rangesOverlap, Bool.not_eq_true', Bool.and_eq_false_iff, decide_eq_false_iff_not,
    not_le]
  exact or_comm

theorem mem_level_iff {info : SSTableMeta} : info ∈ manifest.level level ↔
    info ∈ overlapping manifest level first last ∨ info ∈ outside manifest level first last := by
  rw [overlapping, outside, List.mem_filter, List.mem_filter]
  cases rangesOverlap info.firstKey info.lastKey first last with
  | true => simp
  | false => simp

end Selection

section Finding

variable {hashing : Hashing} {maxLevels : Nat} {directory : Directory} {manifest : Manifest}

theorem mem_flatten_levels {info : SSTableMeta} :
    info ∈ manifest.levels.flatten ↔ ∃ level, info ∈ manifest.level level := by
  rw [List.mem_flatten]
  constructor
  · rintro ⟨tables, member, inside⟩
    obtain ⟨level, found⟩ := List.getElem?_of_mem member
    exact ⟨level, by rwa [Manifest.level, found, Option.getD_some]⟩
  · rintro ⟨level, inside⟩
    rw [Manifest.level] at inside
    cases found : manifest.levels[level]? with
    | none =>
        rw [found] at inside
        cases inside
    | some tables =>
        rw [found] at inside
        exact ⟨tables, List.mem_of_getElem? found, inside⟩

theorem Sound.findMeta (sound : Sound hashing maxLevels directory manifest) {level : Nat}
    {info : SSTableMeta} (member : info ∈ manifest.level level) :
    findMeta manifest info.id = some info := by
  rw [JouleDB.Lsm.findMeta]
  cases found : manifest.levels.flatten.find? (·.id = info.id) with
  | none =>
      rw [List.find?_eq_none] at found
      exact absurd (decide_eq_true rfl) (found info (mem_flatten_levels.mpr ⟨level, member⟩))
  | some other =>
      obtain ⟨level', member'⟩ := mem_flatten_levels.mp (List.mem_of_find?_eq_some found)
      have same : other.id = info.id := by simpa using List.find?_some found
      rw [sound.ids level' other member' level info member same]

theorem Sound.filterMap_findMeta (sound : Sound hashing maxLevels directory manifest)
    {infos : List SSTableMeta} (listed : ∀ info ∈ infos, ∃ level, info ∈ manifest.level level) :
    (infos.map (·.id)).filterMap (JouleDB.Lsm.findMeta manifest) = infos := by
  induction infos with
  | nil => rfl
  | cons info infos ih =>
      obtain ⟨⟨level, member⟩, listed⟩ := List.forall_mem_cons.mp listed
      rw [List.map_cons, List.filterMap_cons, sound.findMeta member, ih listed]

/-- The tables that are merged can be opened, and read as the directory has them. -/
theorem Sound.openAll (sound : Sound hashing maxLevels directory manifest)
    (infos : List SSTableMeta) (listed : ∀ info ∈ infos, ∃ level, info ∈ manifest.level level) :
    ∃ tables, openAll directory infos = .ok tables ∧
      (∀ table ∈ tables, Sorted table.iter) ∧
      ∀ key, (tables.findSome? fun table => table.iter.lookup key) =
        infos.findSome? (readTable directory key) := by
  induction infos with
  | nil => exact ⟨[], rfl, by simp, fun _ => rfl⟩
  | cons info infos ih =>
      obtain ⟨⟨level, member⟩, listed⟩ := List.forall_mem_cons.mp listed
      obtain ⟨table, found, describes⟩ := sound.files level info member
      obtain ⟨tables, opened, sorted, reads⟩ := ih listed
      refine ⟨table :: tables, ?_, List.forall_mem_cons.mpr ⟨describes.valid.sorted, sorted⟩, ?_⟩
      · rw [JouleDB.Lsm.openAll, Directory.openTable, found, Outcome.ok_bind, opened]
        rfl
      · intro key
        have read : readTable directory key info = table.iter.lookup key := by
          rw [readTable, found, Option.bind_some]
        rw [List.findSome?_cons, List.findSome?_cons, read, reads]

end Finding

section Files

variable {directory : Directory} {id : Nat}

theorem performAll_append (first second : List FileOperation) :
    directory.performAll (first ++ second) = (directory.performAll first).performAll second :=
  List.foldl_append

theorem tables_create_of_ne {written : List (SSTableMeta × SSTable)}
    (absent : ∀ output ∈ written, output.1.id ≠ id) :
    (directory.performAll
      (written.map fun output => .create output.1.id output.2)).tables[id]? =
      directory.tables[id]? := by
  induction written generalizing directory with
  | nil => rfl
  | cons output written ih =>
      obtain ⟨here, later⟩ := List.forall_mem_cons.mp absent
      rw [List.map_cons, Directory.performAll, List.foldl_cons]
      refine (ih later).trans ?_
      rw [Directory.perform, Std.ExtTreeMap.getElem?_insert, if_neg (by simpa using here)]

theorem tables_create_of_mem {written : List (SSTableMeta × SSTable)}
    (distinct : written.Pairwise fun first second => first.1.id ≠ second.1.id)
    {output : SSTableMeta × SSTable} (member : output ∈ written) :
    (directory.performAll
      (written.map fun output => .create output.1.id output.2)).tables[output.1.id]? =
      some output.2 := by
  induction written generalizing directory with
  | nil => cases member
  | cons first written ih =>
      obtain ⟨apart, distinct⟩ := List.pairwise_cons.mp distinct
      rw [List.map_cons, Directory.performAll, List.foldl_cons]
      rcases List.mem_cons.mp member with rfl | later
      · refine (tables_create_of_ne fun other isOther => (apart other isOther).symm).trans ?_
        rw [Directory.perform, Std.ExtTreeMap.getElem?_insert_self]
      · exact ih distinct later

theorem tables_remove_of_ne {removed : List SSTableMeta} (absent : ∀ info ∈ removed, info.id ≠ id) :
    (directory.performAll (removed.map fun info => .remove info.id)).tables[id]? =
      directory.tables[id]? := by
  induction removed generalizing directory with
  | nil => rfl
  | cons info removed ih =>
      obtain ⟨here, later⟩ := List.forall_mem_cons.mp absent
      rw [List.map_cons, Directory.performAll, List.foldl_cons]
      refine (ih later).trans ?_
      rw [Directory.perform, Std.ExtTreeMap.getElem?_erase, if_neg (by simpa using here)]

theorem tables_save (manifest : Manifest) :
    (directory.performAll manifest.save).tables = directory.tables := rfl

end Files

section Outputs

variable {hashing : Hashing} {level next : Nat} {pieces : List (List Entry)}

/-- The tables that are written, with ids one after the other. -/
def outputs (hashing : Hashing) (level next : Nat) (pieces : List (List Entry)) :
    List (SSTableMeta × SSTable) :=
  (pieces.zipIdx next).map fun (piece, id) => writeTable hashing piece id level

theorem getElem?_outputs (index : Nat) :
    (outputs hashing level next pieces)[index]? =
      pieces[index]?.map fun piece => writeTable hashing piece (next + index) level := by
  rw [outputs, List.getElem?_map, List.getElem?_zipIdx, Option.map_map]
  rfl

/-- What was written: pieces that follow each other, each in its own table. -/
structure Written (hashing : Hashing) (level next : Nat) (entries : List Entry)
    (written : List (SSTableMeta × SSTable)) : Prop where
  describes : ∀ output ∈ written, output.1.Describes hashing output.2
  level : ∀ output ∈ written, output.1.level = level
  bound : ∀ output ∈ written, next ≤ output.1.id ∧ output.1.id < next + written.length
  distinct : written.Pairwise fun first second => first.1.id ≠ second.1.id
  within : ∀ output ∈ written, ∀ entry ∈ output.2.iter, entry ∈ entries
  all : ∀ entry ∈ entries, ∃ output ∈ written, entry ∈ output.2.iter
  follow : written.Pairwise fun first second =>
    ∀ entry ∈ first.2.iter, ∀ other ∈ second.2.iter, entry.1 < other.1

theorem outputs_written (hashing : Hashing) (level next : Nat) (sorted : Sorted pieces.flatten)
    (filled : ∀ piece ∈ pieces, piece ≠ []) :
    Written hashing level next pieces.flatten (outputs hashing level next pieces) := by
  obtain ⟨eachSorted, follow⟩ := List.pairwise_flatten.mp sorted
  have isWritten : ∀ {index : Nat} {output : SSTableMeta × SSTable},
      (outputs hashing level next pieces)[index]? = some output →
      ∃ piece, pieces[index]? = some piece ∧ output.1.id = next + index ∧
        output.1.level = level ∧ output.1.Describes hashing output.2 ∧ output.2.iter = piece := by
    intro index output found
    rw [getElem?_outputs, Option.map_eq_some_iff] at found
    obtain ⟨piece, isPiece, rfl⟩ := found
    have member := List.mem_of_getElem? isPiece
    obtain ⟨describes, same⟩ := writeTable_describes hashing
      (eachSorted piece member) (filled piece member) (next + index) level
    exact ⟨piece, isPiece, rfl, rfl, describes, same⟩
  have length : (outputs hashing level next pieces).length = pieces.length := by
    simp [outputs]
  constructor
  · intro output member
    obtain ⟨index, found⟩ := List.getElem?_of_mem member
    obtain ⟨_, _, _, _, describes, _⟩ := isWritten found
    exact describes
  · intro output member
    obtain ⟨index, found⟩ := List.getElem?_of_mem member
    obtain ⟨_, _, _, isLevel, _⟩ := isWritten found
    exact isLevel
  · intro output member
    obtain ⟨index, found⟩ := List.getElem?_of_mem member
    obtain ⟨_, isPiece, isId, _⟩ := isWritten found
    have bound := (List.getElem?_eq_some_iff.mp isPiece).1
    omega
  · apply List.pairwise_iff_getElem.mpr
    intro first second firstBound secondBound less
    obtain ⟨_, _, firstId, _⟩ := isWritten (List.getElem?_eq_getElem firstBound)
    obtain ⟨_, _, secondId, _⟩ := isWritten (List.getElem?_eq_getElem secondBound)
    omega
  · intro output member entry inside
    obtain ⟨index, found⟩ := List.getElem?_of_mem member
    obtain ⟨piece, isPiece, _, _, _, same⟩ := isWritten found
    rw [same] at inside
    exact List.mem_flatten.mpr ⟨piece, List.mem_of_getElem? isPiece, inside⟩
  · intro entry member
    obtain ⟨piece, isPiece, inside⟩ := List.mem_flatten.mp member
    obtain ⟨index, found⟩ := List.getElem?_of_mem isPiece
    have isOutput : (outputs hashing level next pieces)[index]? =
        some (writeTable hashing piece (next + index) level) := by
      rw [getElem?_outputs, found, Option.map_some]
    obtain ⟨other, isOther, _, _, _, same⟩ := isWritten isOutput
    rw [found] at isOther
    cases isOther
    exact ⟨_, List.mem_of_getElem? isOutput, same.symm ▸ inside⟩
  · apply List.pairwise_iff_getElem.mpr
    intro first second firstBound secondBound less
    obtain ⟨one, isOne, _, _, _, firstSame⟩ := isWritten (List.getElem?_eq_getElem firstBound)
    obtain ⟨two, isTwo, _, _, _, secondSame⟩ := isWritten (List.getElem?_eq_getElem secondBound)
    rw [firstSame, secondSame]
    obtain ⟨oneBound, rfl⟩ := List.getElem?_eq_some_iff.mp isOne
    obtain ⟨twoBound, rfl⟩ := List.getElem?_eq_some_iff.mp isTwo
    exact List.pairwise_iff_getElem.mp follow first second oneBound twoBound less

end Outputs

section Ranges

variable {hashing : Hashing} {maxLevels : Nat} {directory : Directory} {manifest : Manifest}
  {level : Nat} {info other : SSTableMeta} {key : Bytes}

/-- A key that a table has a version of is in its range. -/
theorem Sound.range_of_read (sound : Sound hashing maxLevels directory manifest)
    (member : info ∈ manifest.level level) (read : readTable directory key info ≠ none) :
    info.firstKey ≤ key ∧ key ≤ info.lastKey := by
  obtain ⟨table, found, describes⟩ := sound.files level info member
  rw [readTable, found, Option.bind_some] at read
  obtain ⟨value, isValue⟩ := Option.ne_none_iff_exists'.mp read
  exact describes.range ((lookup_eq_some_iff describes.valid.sorted.nodup).mp isValue)

theorem Sound.first_le_last (sound : Sound hashing maxLevels directory manifest)
    (member : info ∈ manifest.level level) : info.firstKey ≤ info.lastKey := by
  obtain ⟨table, _, describes⟩ := sound.files level info member
  obtain ⟨entry, isFirst, same⟩ := Option.map_eq_some_iff.mp describes.first
  have range := describes.range (List.mem_of_head? isFirst)
  exact range.1.trans range.2

/-- Below the first level a key is in one table only. -/
theorem Sound.eq_of_read (sound : Sound hashing maxLevels directory manifest) (below : 1 ≤ level)
    (member : info ∈ manifest.level level) (member' : other ∈ manifest.level level)
    (read : readTable directory key info ≠ none) (read' : readTable directory key other ≠ none) :
    info = other := by
  by_contra apart
  obtain ⟨first, last⟩ := sound.range_of_read member read
  obtain ⟨first', last'⟩ := sound.range_of_read member' read'
  have disjoint := (sound.apart level below).forall member member' apart
  rcases disjoint with less | less
  · exact absurd (first'.trans last) (not_le.mpr less)
  · exact absurd (first.trans last') (not_le.mpr less)

end Ranges

/-- Of two tables that are merged and have the same key, the one of the upper level has the higher
id.  This always holds for level 0. -/
def Compaction.NewestWins (compaction : Compaction) : Prop :=
  compaction.level ≠ 0 → ∀ ids first last,
    selectSources compaction.manifest compaction.level = some (ids, first, last) →
    ∀ source ∈ compaction.manifest.level compaction.level, source.id ∈ ids →
    ∀ target ∈ overlapping compaction.manifest (compaction.level + 1) first last, ∀ key,
      readTable compaction.directory key source ≠ none →
      readTable compaction.directory key target ≠ none → target.id < source.id

/-- A compaction that merges tables of a level with those of the next one. -/
structure Merging (hashing : Hashing) (maxLevels : Nat) (directory : Directory)
    (manifest : Manifest) (level : Nat) (sources : List SSTableMeta) (first last : Bytes) :
    Prop where
  sound : Sound hashing maxLevels directory manifest
  picked : Picked manifest level sources first last
  deeper : level + 1 < maxLevels

namespace Merging

variable {hashing : Hashing} {maxLevels : Nat} {directory : Directory} {manifest : Manifest}
  {level : Nat} {sources : List SSTableMeta} {first last : Bytes} {info : SSTableMeta}

/-- The ids of the tables that are merged. -/
def removed (manifest : Manifest) (level : Nat) (sources : List SSTableMeta)
    (first last : Bytes) : List Nat :=
  sources.map (·.id) ++ (overlapping manifest (level + 1) first last).map (·.id)

/-- The tables that a level keeps. -/
def kept (manifest : Manifest) (level : Nat) (sources : List SSTableMeta) (first last : Bytes)
    (number : Nat) : List SSTableMeta :=
  (manifest.level number).filter fun info => info.id ∉ removed manifest level sources first last

theorem mem_kept (merging : Merging hashing maxLevels directory manifest level sources first last)
    {number : Nat} : info ∈ kept manifest level sources first last number ↔
      info ∈ manifest.level number ∧ info ∉ sources ∧
        info ∉ overlapping manifest (level + 1) first last := by
  rw [kept, List.mem_filter]
  apply and_congr_right
  intro member
  rw [decide_eq_true_eq, removed, List.mem_append, not_or]
  have same : ∀ infos : List SSTableMeta, (∀ info ∈ infos, ∃ level, info ∈ manifest.level level) →
      (info.id ∉ infos.map (·.id) ↔ info ∉ infos) := by
    intro infos listed
    apply not_congr
    constructor
    · intro isId
      obtain ⟨other, isOther, equal⟩ := List.mem_map.mp isId
      obtain ⟨level', member'⟩ := listed other isOther
      rw [← merging.sound.ids level' other member' number info member equal]
      exact isOther
    · exact fun inside => List.mem_map_of_mem inside
  rw [same sources fun info inside => ⟨level, merging.picked.inside info inside⟩,
    same _ fun info inside => ⟨level + 1, (mem_overlapping.mp inside).1⟩]

theorem kept_of_ne (merging : Merging hashing maxLevels directory manifest level sources first last)
    {number : Nat} (notHere : number ≠ level) (notNext : number ≠ level + 1) :
    kept manifest level sources first last number = manifest.level number := by
  rw [kept, List.filter_eq_self]
  intro info member
  have placed := merging.sound.placed number info member
  have notSource : info ∉ sources := by
    intro isSource
    exact notHere (placed.symm.trans
      (merging.sound.placed level info (merging.picked.inside info isSource)))
  have notTarget : info ∉ overlapping manifest (level + 1) first last := by
    intro isTarget
    exact notNext (placed.symm.trans
      (merging.sound.placed (level + 1) info (mem_overlapping.mp isTarget).1))
  exact (List.mem_filter.mp (merging.mem_kept.mpr ⟨member, notSource, notTarget⟩)).2

theorem mem_level (merging : Merging hashing maxLevels directory manifest level sources first last) :
    info ∈ manifest.level level ↔
      info ∈ sources ∨ info ∈ kept manifest level sources first last level := by
  rw [merging.mem_kept]
  constructor
  · intro member
    by_cases isSource : info ∈ sources
    · exact .inl isSource
    · refine .inr ⟨member, isSource, ?_⟩
      intro isTarget
      have placed := merging.sound.placed level info member
      have placed' := merging.sound.placed (level + 1) info (mem_overlapping.mp isTarget).1
      omega
  · rintro (isSource | ⟨member, _⟩)
    · exact merging.picked.inside info isSource
    · exact member

theorem mem_kept_next
    (merging : Merging hashing maxLevels directory manifest level sources first last) :
    info ∈ kept manifest level sources first last (level + 1) ↔
      info ∈ outside manifest (level + 1) first last := by
  rw [merging.mem_kept]
  constructor
  · rintro ⟨member, _, notTarget⟩
    exact (mem_level_iff.mp member).resolve_left notTarget
  · intro isOutside
    obtain ⟨member, range⟩ := mem_outside.mp isOutside
    refine ⟨member, ?_, ?_⟩
    · intro isSource
      have placed := merging.sound.placed (level + 1) info member
      have placed' := merging.sound.placed level info (merging.picked.inside info isSource)
      omega
    · intro isTarget
      obtain ⟨_, upper, lower⟩ := mem_overlapping.mp isTarget
      rcases range with below | above
      · exact absurd lower (not_le.mpr below)
      · exact absurd upper (not_le.mpr above)

theorem kept_next (merging : Merging hashing maxLevels directory manifest level sources first last) :
    kept manifest level sources first last (level + 1) =
      outside manifest (level + 1) first last := by
  apply List.filter_congr
  intro info member
  have same : info ∈ kept manifest level sources first last (level + 1) ↔
      info ∈ outside manifest (level + 1) first last := merging.mem_kept_next
  rw [kept, outside, List.mem_filter, List.mem_filter] at same
  simp only [member, true_and] at same
  exact Bool.eq_iff_iff.mpr same

/-- The upper one of two merged tables with the same key has the higher id. -/
theorem newer (merging : Merging hashing maxLevels directory manifest level sources first last)
    (wins : Compaction.NewestWins ⟨directory, manifest, level⟩)
    (selected : selectSources manifest level = some (sources.map (·.id), first, last)) {key : Bytes} :
    ∀ source ∈ sources, ∀ target ∈ overlapping manifest (level + 1) first last,
      readTable directory key source ≠ none → readTable directory key target ≠ none →
      target.id < source.id := by
  intro source isSource target isTarget read read'
  by_cases isZero : level = 0
  · subst isZero
    exact merging.sound.order source (merging.picked.inside source isSource) target
      (mem_overlapping.mp isTarget).1
  · exact wins isZero _ first last selected source (merging.picked.inside source isSource)
      (List.mem_map_of_mem isSource) target isTarget key read read'

/-- A table of the next level that is not merged has no key of a picked table. -/
theorem read_outside_of_source
    (merging : Merging hashing maxLevels directory manifest level sources first last) {key : Bytes}
    {source : SSTableMeta} (isSource : source ∈ sources)
    (present : readTable directory key source ≠ none) :
    ∀ info ∈ outside manifest (level + 1) first last, readTable directory key info = none := by
  intro info isOutside
  obtain ⟨member, range⟩ := mem_outside.mp isOutside
  by_contra read
  obtain ⟨lower, upper⟩ := merging.sound.range_of_read member read
  obtain ⟨first', last'⟩ :=
    merging.sound.range_of_read (merging.picked.inside source isSource) present
  obtain ⟨least, most⟩ := merging.picked.range source isSource
  rcases range with below | above
  · exact absurd (least.trans (first'.trans upper)) (not_le.mpr below)
  · exact absurd (lower.trans (last'.trans most)) (not_le.mpr above)

/-- A table of the next level that is not merged has no key of one that is. -/
theorem read_outside_of_target
    (merging : Merging hashing maxLevels directory manifest level sources first last) {key : Bytes}
    {target : SSTableMeta} (isTarget : target ∈ overlapping manifest (level + 1) first last)
    (present : readTable directory key target ≠ none) :
    ∀ info ∈ outside manifest (level + 1) first last, readTable directory key info = none := by
  intro info isOutside
  obtain ⟨member, range⟩ := mem_outside.mp isOutside
  by_contra read
  obtain ⟨isNext, upper, lower⟩ := mem_overlapping.mp isTarget
  have same := merging.sound.eq_of_read (Nat.le_add_left 1 level) member isNext read present
  subst same
  rcases range with below | above
  · exact absurd lower (not_le.mpr below)
  · exact absurd upper (not_le.mpr above)

/-- The other tables of the level have no key of a picked one. -/
theorem read_kept (merging : Merging hashing maxLevels directory manifest level sources first last)
    {key : Bytes} {source : SSTableMeta} (isSource : source ∈ sources)
    (present : readTable directory key source ≠ none) :
    ∀ info ∈ kept manifest level sources first last level, readTable directory key info = none := by
  intro info isKept
  obtain ⟨member, notSource, _⟩ := merging.mem_kept.mp isKept
  by_cases isZero : level = 0
  · subst isZero
    rw [merging.picked.whole rfl] at notSource
    exact absurd member notSource
  · by_contra read
    have same := merging.sound.eq_of_read (Nat.one_le_iff_ne_zero.mpr isZero) member
      (merging.picked.inside source isSource) read present
    exact notSource (same ▸ isSource)

section After

variable {entries : List Entry} {written : List (SSTableMeta × SSTable)}

/-- The manifest after the merge. -/
def after (manifest : Manifest) (level : Nat) (sources : List SSTableMeta) (first last : Bytes)
    (written : List (SSTableMeta × SSTable)) : Manifest :=
  (written.map Prod.fst).foldl Manifest.addSstable
    ({ manifest with nextSstId := manifest.nextSstId + written.length }.removeSstables
      (removed manifest level sources first last))

/-- The files after the merge. -/
def filesAfter (directory : Directory) (manifest : Manifest) (level : Nat)
    (sources : List SSTableMeta) (first last : Bytes) (written : List (SSTableMeta × SSTable)) :
    Directory :=
  directory.performAll (written.map (fun output => .create output.1.id output.2) ++
    (sources ++ overlapping manifest (level + 1) first last).map (fun info => .remove info.id) ++
    (after manifest level sources first last written).save)

theorem level_foldl_addSstable (infos : List SSTableMeta) (start : Manifest) {target : Nat}
    (placed : ∀ info ∈ infos, info.level = target) (number : Nat) :
    (infos.foldl Manifest.addSstable start).level number =
      start.level number ++ if number = target then infos else [] := by
  induction infos generalizing start with
  | nil => simp
  | cons info infos ih =>
      obtain ⟨here, later⟩ := List.forall_mem_cons.mp placed
      rw [List.foldl_cons, ih _ later, Manifest.level_addSstable, here]
      split
      · simp
      · simp

theorem nextSstId_foldl_addSstable (infos : List SSTableMeta) (start : Manifest) :
    (infos.foldl Manifest.addSstable start).nextSstId = start.nextSstId := by
  induction infos generalizing start with
  | nil => rfl
  | cons info infos ih => exact (ih _).trans rfl

theorem level_after (isWritten : Written hashing (level + 1) manifest.nextSstId entries written)
    (number : Nat) :
    (after manifest level sources first last written).level number =
      kept manifest level sources first last number ++
        if number = level + 1 then written.map Prod.fst else [] := by
  have placed : ∀ info ∈ written.map Prod.fst, info.level = level + 1 := by
    intro info member
    obtain ⟨output, isOutput, rfl⟩ := List.mem_map.mp member
    exact isWritten.level output isOutput
  rw [after, level_foldl_addSstable _ _ placed, Manifest.level_removeSstables]
  rfl

theorem nextSstId_after :
    (after manifest level sources first last written).nextSstId =
      manifest.nextSstId + written.length :=
  nextSstId_foldl_addSstable _ _

theorem mem_removedInfos
    (merging : Merging hashing maxLevels directory manifest level sources first last)
    (member : info ∈ sources ++ overlapping manifest (level + 1) first last) :
    info.id < manifest.nextSstId ∧ ∃ number, info ∈ manifest.level number := by
  rcases List.mem_append.mp member with isSource | isTarget
  · have inside := merging.picked.inside info isSource
    exact ⟨merging.sound.bound level info inside, level, inside⟩
  · have inside := (mem_overlapping.mp isTarget).1
    exact ⟨merging.sound.bound (level + 1) info inside, level + 1, inside⟩

/-- The files of tables that are kept stay as they are. -/
theorem tables_kept (merging : Merging hashing maxLevels directory manifest level sources first last)
    (isWritten : Written hashing (level + 1) manifest.nextSstId entries written) {number : Nat}
    (isKept : info ∈ kept manifest level sources first last number) :
    (filesAfter directory manifest level sources first last written).tables[info.id]? =
      directory.tables[info.id]? := by
  obtain ⟨member, notSource, notTarget⟩ := merging.mem_kept.mp isKept
  rw [filesAfter, performAll_append, tables_save, performAll_append, tables_remove_of_ne,
    tables_create_of_ne]
  · intro output isOutput
    have lower := (isWritten.bound output isOutput).1
    have upper := merging.sound.bound number info member
    omega
  · intro other isRemoved same
    obtain ⟨_, number', member'⟩ := merging.mem_removedInfos isRemoved
    have equal := merging.sound.ids number' other member' number info member same
    subst equal
    exact (List.mem_append.mp isRemoved).elim notSource notTarget

theorem tables_written
    (merging : Merging hashing maxLevels directory manifest level sources first last)
    (isWritten : Written hashing (level + 1) manifest.nextSstId entries written)
    {output : SSTableMeta × SSTable} (isOutput : output ∈ written) :
    (filesAfter directory manifest level sources first last written).tables[output.1.id]? =
      some output.2 := by
  rw [filesAfter, performAll_append, tables_save, performAll_append, tables_remove_of_ne,
    tables_create_of_mem isWritten.distinct isOutput]
  intro other isRemoved same
  have upper := (merging.mem_removedInfos isRemoved).1
  have lower := (isWritten.bound output isOutput).1
  omega

/-- The tables that are written hold the merged entries. -/
theorem newest_written
    (merging : Merging hashing maxLevels directory manifest level sources first last)
    (isWritten : Written hashing (level + 1) manifest.nextSstId entries written)
    (sorted : Sorted entries) (key : Bytes) :
    newest (·.id)
        (readTable (filesAfter directory manifest level sources first last written) key)
        (written.map Prod.fst) = entries.lookup key := by
  have read : ∀ output ∈ written,
      readTable (filesAfter directory manifest level sources first last written) key output.1 =
        output.2.iter.lookup key := by
    intro output isOutput
    rw [readTable, merging.tables_written isWritten isOutput, Option.bind_some]
  cases found : entries.lookup key with
  | none =>
      apply newest_eq_none_iff.mpr
      intro info member
      obtain ⟨output, isOutput, rfl⟩ := List.mem_map.mp member
      rw [read output isOutput]
      apply lookup_eq_none_of_forall
      rintro entry inside rfl
      have present := isWritten.within output isOutput entry inside
      rw [(lookup_eq_some_iff sorted.nodup).mpr present] at found
      cases found
  | some value =>
      have present := (lookup_eq_some_iff sorted.nodup).mp found
      obtain ⟨output, isOutput, inside⟩ := isWritten.all _ present
      apply newest_eq_some_of_forall (List.mem_map_of_mem isOutput)
      · rw [read output isOutput]
        exact (lookup_eq_some_iff (isWritten.describes output isOutput).valid.sorted.nodup).mpr
          inside
      · intro info member isRead apart
        obtain ⟨other, isOther, rfl⟩ := List.mem_map.mp member
        rw [read other isOther] at isRead
        obtain ⟨value', isValue⟩ := Option.ne_none_iff_exists'.mp isRead
        have inside' := (lookup_eq_some_iff
          (isWritten.describes other isOther).valid.sorted.nodup).mp isValue
        -- Two different tables that were written do not share a key.
        have unequal : other ≠ output := fun equal => apart (by rw [equal])
        have disjoint : ∀ entry ∈ other.2.iter, ∀ entry' ∈ output.2.iter, entry.1 ≠ entry'.1 := by
          have all : written.Pairwise fun first second =>
              ∀ entry ∈ first.2.iter, ∀ entry' ∈ second.2.iter, entry.1 ≠ entry'.1 :=
            isWritten.follow.imp fun less entry one entry' two => ne_of_lt (less entry one entry' two)
          have symmetric : Std.Symm fun first second : SSTableMeta × SSTable =>
              ∀ entry ∈ first.2.iter, ∀ entry' ∈ second.2.iter, entry.1 ≠ entry'.1 :=
            ⟨fun _ _ apart entry one entry' two => (apart entry' two entry one).symm⟩
          exact all.forall isOther isOutput unequal
        exact (disjoint (key, value') inside' (key, value) inside rfl).elim

/-- The tables after the merge have different ids. -/
theorem ids_after (merging : Merging hashing maxLevels directory manifest level sources first last)
    (isWritten : Written hashing (level + 1) manifest.nextSstId entries written)
    {number number' : Nat} :
    ∀ one ∈ kept manifest level sources first last number ++ written.map Prod.fst,
      ∀ two ∈ kept manifest level sources first last number' ++ written.map Prod.fst,
        one.id = two.id → one = two := by
  have lower : ∀ {number : Nat}, ∀ info ∈ kept manifest level sources first last number,
      info.id < manifest.nextSstId := fun info isKept =>
    merging.sound.bound _ info (merging.mem_kept.mp isKept).1
  have upper : ∀ info ∈ written.map Prod.fst, manifest.nextSstId ≤ info.id := by
    intro info member
    obtain ⟨output, isOutput, rfl⟩ := List.mem_map.mp member
    exact (isWritten.bound output isOutput).1
  intro one isOne two isTwo same
  rcases List.mem_append.mp isOne with oneKept | oneNew
  · rcases List.mem_append.mp isTwo with twoKept | twoNew
    · exact merging.sound.ids number one (merging.mem_kept.mp oneKept).1 number' two
        (merging.mem_kept.mp twoKept).1 same
    · have less := lower one oneKept
      have least := upper two twoNew
      omega
  · rcases List.mem_append.mp isTwo with twoKept | twoNew
    · have less := lower two twoKept
      have least := upper one oneNew
      omega
    · obtain ⟨output, isOutput, rfl⟩ := List.mem_map.mp oneNew
      obtain ⟨output', isOutput', rfl⟩ := List.mem_map.mp twoNew
      by_contra apart
      have symmetric : Std.Symm fun first second : SSTableMeta × SSTable =>
          first.1.id ≠ second.1.id := ⟨fun _ _ => Ne.symm⟩
      exact isWritten.distinct.forall isOutput isOutput' (fun equal => apart (by rw [equal])) same

theorem readLevel_after
    (merging : Merging hashing maxLevels directory manifest level sources first last)
    (isWritten : Written hashing (level + 1) manifest.nextSstId entries written)
    (sorted : Sorted entries) (key : Bytes) :
    let files := filesAfter directory manifest level sources first last written
    let final := after manifest level sources first last written
    (∀ number, number ≠ level → number ≠ level + 1 →
      readLevel files final key number = readLevel directory manifest key number) ∧
    readLevel files final key level =
      newest (·.id) (readTable directory key) (kept manifest level sources first last level) ∧
    readLevel files final key (level + 1) = (entries.lookup key).or
      (newest (·.id) (readTable directory key) (outside manifest (level + 1) first last)) := by
  intro files final
  have read : ∀ {number : Nat}, ∀ info ∈ kept manifest level sources first last number,
      readTable files key info = readTable directory key info := by
    intro number info isKept
    rw [readTable, readTable, merging.tables_kept isWritten isKept]
  have keeps : ∀ number, number ≠ level + 1 → readLevel files final key number =
      newest (·.id) (readTable directory key) (kept manifest level sources first last number) := by
    intro number notNext
    rw [readLevel, level_after isWritten, if_neg notNext, List.append_nil]
    exact newest_congr read
  refine ⟨?_, keeps level (by omega), ?_⟩
  · intro number notHere notNext
    rw [keeps number notNext, merging.kept_of_ne notHere notNext]
    rfl
  · have same : newest (·.id) (readTable files key) (outside manifest (level + 1) first last) =
        newest (·.id) (readTable directory key) (outside manifest (level + 1) first last) := by
      apply newest_congr
      rw [← merging.kept_next]
      exact read
    rw [readLevel, level_after isWritten, if_pos rfl, ← merging.newest_written isWritten sorted key,
      merging.kept_next, ← same]
    apply newest_eq_or
    · intro info
      rw [List.mem_append]
      exact or_comm
    · rw [← merging.kept_next]
      exact merging.ids_after isWritten
    · intro info isNew older isOlder _ _
      obtain ⟨output, isOutput, rfl⟩ := List.mem_map.mp isNew
      have lower := (isWritten.bound output isOutput).1
      have upper := merging.sound.bound (level + 1) older (mem_outside.mp isOlder).1
      omega

end After

section Values

variable {key : Bytes}

theorem exists_of_newest_ne_none {tables : List SSTableMeta}
    (present : newest (·.id) (readTable directory key) tables ≠ none) :
    ∃ info ∈ tables, readTable directory key info ≠ none := by
  by_contra absent
  apply present
  apply newest_eq_none_iff.mpr
  intro info member
  by_contra read
  exact absent ⟨info, member, read⟩

theorem readLevel_here
    (merging : Merging hashing maxLevels directory manifest level sources first last) :
    readLevel directory manifest key level =
      (newest (·.id) (readTable directory key) sources).or
        (newest (·.id) (readTable directory key)
          (kept manifest level sources first last level)) := by
  apply newest_eq_or
  · intro info
    exact merging.mem_level
  · intro one isOne two isTwo
    exact merging.sound.ids level one isOne level two isTwo
  · intro source isSource info isKept present read
    exact absurd (merging.read_kept isSource present info isKept) read

/-- What the next level answers before the merge. -/
theorem readLevel_next
    (merging : Merging hashing maxLevels directory manifest level sources first last) :
    readLevel directory manifest key (level + 1) =
      (newest (·.id) (readTable directory key)
          (overlapping manifest (level + 1) first last)).or
        (newest (·.id) (readTable directory key)
          (outside manifest (level + 1) first last)) := by
  apply newest_eq_or
  · intro info
    exact mem_level_iff
  · intro one isOne two isTwo
    exact merging.sound.ids (level + 1) one isOne (level + 1) two isTwo
  · intro target isTarget info isOutside present read
    exact absurd (merging.read_outside_of_target isTarget present info isOutside) read

/-- A merge takes the version of the upper level, if there is one. -/
theorem newest_inputs
    (merging : Merging hashing maxLevels directory manifest level sources first last)
    (newer : ∀ source ∈ sources, ∀ target ∈ overlapping manifest (level + 1) first last,
      readTable directory key source ≠ none → readTable directory key target ≠ none →
      target.id < source.id) :
    newest (·.id) (readTable directory key)
        (sources ++ overlapping manifest (level + 1) first last) =
      (newest (·.id) (readTable directory key) sources).or
        (newest (·.id) (readTable directory key)
          (overlapping manifest (level + 1) first last)) := by
  apply newest_eq_or
  · intro info
    exact List.mem_append
  · intro one isOne two isTwo
    obtain ⟨number, member⟩ := (merging.mem_removedInfos isOne).2
    obtain ⟨number', member'⟩ := (merging.mem_removedInfos isTwo).2
    exact merging.sound.ids number one member number' two member'
  · exact newer

/-- The value of a key is the same after the merge. -/
theorem resolves_after
    (merging : Merging hashing maxLevels directory manifest level sources first last)
    {entries : List Entry} {written : List (SSTableMeta × SSTable)} {dropTombstones : Bool}
    (isWritten : Written hashing (level + 1) manifest.nextSstId entries written)
    (sorted : Sorted entries)
    (merged : entries.lookup key =
      ((newest (·.id) (readTable directory key) sources).or
        (newest (·.id) (readTable directory key)
          (overlapping manifest (level + 1) first last))).filter fun value =>
        !dropTombstones || value.isSome)
    (bottom : dropTombstones = true → maxLevels ≤ level + 2) {value : Option Bytes}
    (resolves : Resolves (readLevel directory manifest key) value) :
    Resolves (readLevel (filesAfter directory manifest level sources first last written)
      (after manifest level sources first last written) key) value := by
  obtain ⟨others, here, next⟩ := merging.readLevel_after isWritten sorted key
  refine resolves.push others merging.readLevel_here here merging.readLevel_next next ?_ ?_ ?_
  · intro present
    obtain ⟨source, isSource, read⟩ := exists_of_newest_ne_none present
    exact newest_eq_none_iff.mpr (merging.read_kept isSource read)
  · intro present
    apply newest_eq_none_iff.mpr
    rcases present with present | present
    · obtain ⟨source, isSource, read⟩ := exists_of_newest_ne_none present
      exact merging.read_outside_of_source isSource read
    · obtain ⟨target, isTarget, read⟩ := exists_of_newest_ne_none present
      exact merging.read_outside_of_target isTarget read
  · rw [merged]
    generalize (newest (·.id) (readTable directory key) sources).or
      (newest (·.id) (readTable directory key)
        (overlapping manifest (level + 1) first last)) = version
    cases version with
    | none => exact .inl rfl
    | some version =>
        cases version with
        | some value =>
            left
            simp
        | none =>
            cases dropTombstones with
            | false => exact .inl rfl
            | true =>
                refine .inr ⟨rfl, rfl, ?_⟩
                intro other deeper
                have deep := bottom rfl
                rw [readLevel, merging.sound.depth other (by omega) (by omega)]
                exact newest_eq_none_iff.mpr (by simp)

/-- The keys that are written do not reach into the range of a table that is not merged. -/
theorem outside_written
    (merging : Merging hashing maxLevels directory manifest level sources first last)
    (isOutside : info ∈ outside manifest (level + 1) first last)
    (held : ∃ input ∈ sources ++ overlapping manifest (level + 1) first last,
      readTable directory key input ≠ none) :
    (info.lastKey < first → info.lastKey < key) ∧ (last < info.firstKey → key < info.firstKey) := by
  obtain ⟨input, isInput, read⟩ := held
  obtain ⟨member, range⟩ := mem_outside.mp isOutside
  have ordered := merging.sound.first_le_last member
  rcases List.mem_append.mp isInput with isSource | isTarget
  · obtain ⟨lower, upper⟩ :=
      merging.sound.range_of_read (merging.picked.inside input isSource) read
    obtain ⟨least, most⟩ := merging.picked.range input isSource
    exact ⟨fun below => below.trans_le (least.trans lower),
      fun above => (upper.trans most).trans_lt above⟩
  · obtain ⟨isNext, upper, lower⟩ := mem_overlapping.mp isTarget
    obtain ⟨least, most⟩ := merging.sound.range_of_read isNext read
    have unequal : input ≠ info := by
      rintro rfl
      rcases range with below | above
      · exact absurd lower (not_le.mpr below)
      · exact absurd upper (not_le.mpr above)
    have disjoint :=
      (merging.sound.apart (level + 1) (Nat.le_add_left 1 level)).forall isNext member unequal
    constructor
    · intro below
      rcases disjoint with less | less
      · exact absurd (lower.trans (less.le.trans ordered)) (not_le.mpr below)
      · exact less.trans_le least
    · intro above
      rcases disjoint with less | less
      · exact most.trans_lt less
      · exact absurd (ordered.trans (less.le.trans upper)) (not_le.mpr above)

end Values

section Sound

variable {entries : List Entry} {written : List (SSTableMeta × SSTable)}

theorem mem_level_after
    (isWritten : Written hashing (level + 1) manifest.nextSstId entries written) {number : Nat}
    (member : info ∈ (after manifest level sources first last written).level number) :
    info ∈ kept manifest level sources first last number ∨
      number = level + 1 ∧ info ∈ written.map Prod.fst := by
  rw [level_after isWritten] at member
  rcases List.mem_append.mp member with isKept | isNew
  · exact .inl isKept
  · split at isNew
    next isNext => exact .inr ⟨isNext, isNew⟩
    next => cases isNew

/-- The first and the last key of a table are keys of entries. -/
theorem exists_entries {table : SSTable} (describes : info.Describes hashing table) :
    (∃ entry ∈ table.iter, entry.1 = info.firstKey) ∧
      ∃ entry ∈ table.iter, entry.1 = info.lastKey := by
  obtain ⟨head, isHead, first⟩ := Option.map_eq_some_iff.mp describes.first
  obtain ⟨final, isFinal, last⟩ := Option.map_eq_some_iff.mp describes.last
  exact ⟨⟨head, List.mem_of_head? isHead, first⟩, ⟨final, List.mem_of_getLast? isFinal, last⟩⟩

/-- The tables that are written have different key ranges. -/
theorem apart_written (isWritten : Written hashing (level + 1) manifest.nextSstId entries written) :
    (written.map Prod.fst).Pairwise SSTableMeta.Apart := by
  apply List.pairwise_map.mpr
  apply isWritten.follow.imp_of_mem
  intro one two isOne isTwo follow
  obtain ⟨entry, inside, isLast⟩ := (exists_entries (isWritten.describes one isOne)).2
  obtain ⟨entry', inside', isFirst⟩ := (exists_entries (isWritten.describes two isTwo)).1
  left
  rw [← isLast, ← isFirst]
  exact follow entry inside entry' inside'

/-- The tables that are written have other key ranges than those that are not merged. -/
theorem apart_outside
    (merging : Merging hashing maxLevels directory manifest level sources first last)
    (isWritten : Written hashing (level + 1) manifest.nextSstId entries written)
    (held : ∀ entry ∈ entries, ∃ input ∈ sources ++ overlapping manifest (level + 1) first last,
      readTable directory entry.1 input ≠ none)
    (isOutside : info ∈ outside manifest (level + 1) first last)
    {output : SSTableMeta × SSTable} (isOutput : output ∈ written) :
    info.Apart output.1 := by
  obtain ⟨⟨head, isHead, first'⟩, final, isFinal, last'⟩ :=
    exists_entries (isWritten.describes output isOutput)
  have above := merging.outside_written isOutside
    (held head (isWritten.within output isOutput head isHead))
  have below := merging.outside_written isOutside
    (held final (isWritten.within output isOutput final isFinal))
  rcases (mem_outside.mp isOutside).2 with less | less
  · left
    rw [← first']
    exact above.1 less
  · right
    rw [← last']
    exact below.2 less

theorem sound_after (merging : Merging hashing maxLevels directory manifest level sources first last)
    (isWritten : Written hashing (level + 1) manifest.nextSstId entries written)
    (held : ∀ entry ∈ entries, ∃ input ∈ sources ++ overlapping manifest (level + 1) first last,
      readTable directory entry.1 input ≠ none) :
    Sound hashing maxLevels (filesAfter directory manifest level sources first last written)
      (after manifest level sources first last written) where
  files number info member := by
    rcases mem_level_after isWritten member with isKept | ⟨_, isNew⟩
    · rw [merging.tables_kept isWritten isKept]
      exact merging.sound.files number info (merging.mem_kept.mp isKept).1
    · obtain ⟨output, isOutput, rfl⟩ := List.mem_map.mp isNew
      exact ⟨output.2, merging.tables_written isWritten isOutput,
        isWritten.describes output isOutput⟩
  placed number info member := by
    rcases mem_level_after isWritten member with isKept | ⟨rfl, isNew⟩
    · exact merging.sound.placed number info (merging.mem_kept.mp isKept).1
    · obtain ⟨output, isOutput, rfl⟩ := List.mem_map.mp isNew
      exact isWritten.level output isOutput
  ids number one isOne number' two isTwo same := by
    have one' := (mem_level_after isWritten isOne).imp_right And.right
    have two' := (mem_level_after isWritten isTwo).imp_right And.right
    exact merging.ids_after isWritten one (List.mem_append.mpr one') two
      (List.mem_append.mpr two') same
  bound number info member := by
    rw [nextSstId_after]
    rcases mem_level_after isWritten member with isKept | ⟨_, isNew⟩
    · exact (merging.sound.bound number info (merging.mem_kept.mp isKept).1).trans_le
        (Nat.le_add_right _ _)
    · obtain ⟨output, isOutput, rfl⟩ := List.mem_map.mp isNew
      exact (isWritten.bound output isOutput).2
  apart number below := by
    have keeps : (kept manifest level sources first last number).Pairwise SSTableMeta.Apart :=
      (merging.sound.apart number below).sublist List.filter_sublist
    rw [level_after isWritten]
    split
    next isNext =>
      subst isNext
      apply List.pairwise_append.mpr
      refine ⟨keeps, apart_written isWritten, ?_⟩
      intro info isKept other isNew
      obtain ⟨output, isOutput, rfl⟩ := List.mem_map.mp isNew
      exact merging.apart_outside isWritten held (merging.mem_kept_next.mp isKept) isOutput
    next => rwa [List.append_nil]
  order info member older isOlder := by
    by_cases isZero : level = 0
    · subst isZero
      rcases mem_level_after isWritten member with isKept | ⟨impossible, _⟩
      · obtain ⟨inside, notSource, _⟩ := merging.mem_kept.mp isKept
        rw [merging.picked.whole rfl] at notSource
        exact absurd inside notSource
      · exact absurd impossible (by omega)
    · have keeps : ∀ {number : Nat} {info : SSTableMeta}, number ≤ 1 →
          info ∈ (after manifest level sources first last written).level number →
          info ∈ manifest.level number := by
        intro number info small member
        rcases mem_level_after isWritten member with isKept | ⟨impossible, _⟩
        · exact (merging.mem_kept.mp isKept).1
        · exact absurd impossible (by omega)
      exact merging.sound.order info (keeps (Nat.zero_le 1) member) older
        (keeps (Nat.le_refl 1) isOlder)
  depth number below deep := by
    have apart : number ≠ level + 1 := by
      have deeper := merging.deeper
      omega
    rw [level_after isWritten, if_neg apart, List.append_nil, kept,
      merging.sound.depth number below deep]
    rfl

end Sound

end Merging

section Level

variable {hashing : Hashing} {config : LsmConfig} {directory : Directory} {manifest : Manifest}
  {level : Nat}

/-- A merge of tables, with what it writes. -/
structure Merges (hashing : Hashing) (maxLevels : Nat) (directory : Directory) (manifest : Manifest)
    (level : Nat) (sources : List SSTableMeta) (first last : Bytes) (entries : List Entry)
    (written : List (SSTableMeta × SSTable)) : Prop where
  merging : Merging hashing maxLevels directory manifest level sources first last
  selected : selectSources manifest level = some (sources.map (·.id), first, last)
  isWritten : Written hashing (level + 1) manifest.nextSstId entries written
  sorted : Sorted entries
  lookup : ∀ key, entries.lookup key =
    (newest (·.id) (readTable directory key)
      (sources ++ overlapping manifest (level + 1) first last)).filter fun value =>
      !decide (maxLevels - 1 ≤ level + 1) || value.isSome

/-- The file operations of a merge. -/
def mergeOperations (manifest : Manifest) (level : Nat) (sources : List SSTableMeta)
    (first last : Bytes) (written : List (SSTableMeta × SSTable)) : List FileOperation :=
  written.map (fun output => .create output.1.id output.2) ++
    (sources ++ overlapping manifest (level + 1) first last).map (fun info => .remove info.id) ++
    (Merging.after manifest level sources first last written).save

/-- A compaction of a sound directory returns: it does nothing, or it merges tables. -/
theorem compactLevel_cases (sound : Sound hashing config.maxLevels directory manifest) :
    compactLevel hashing config directory manifest level = .ok (manifest, [], ⟨[], []⟩) ∨
      ∃ sources first last entries written,
        Merges hashing config.maxLevels directory manifest level sources first last entries
          written ∧
        compactLevel hashing config directory manifest level =
          .ok (Merging.after manifest level sources first last written,
            mergeOperations manifest level sources first last written,
            ⟨Merging.removed manifest level sources first last, written.map Prod.fst⟩) := by
  rw [compactLevel]
  split
  · exact .inl rfl
  next shallow =>
    split
    · exact .inl rfl
    next ids first last selected =>
      obtain ⟨sources, rfl, picked⟩ := exists_of_selectSources selected
      have merging : Merging hashing config.maxLevels directory manifest level sources first last :=
        ⟨sound, picked, by omega⟩
      have listed : ∀ info ∈ sources ++ overlapping manifest (level + 1) first last,
          ∃ number, info ∈ manifest.level number := fun info member =>
        (merging.mem_removedInfos member).2
      have inputs : inputMetas manifest (Merging.removed manifest level sources first last) =
          newestFirst (·.id) (sources ++ overlapping manifest (level + 1) first last) := by
        rw [inputMetas, Merging.removed, ← List.map_append, sound.filterMap_findMeta listed]
      obtain ⟨tables, opened, tablesSorted, reads⟩ := sound.openAll
        (newestFirst (·.id) (sources ++ overlapping manifest (level + 1) first last))
        fun info member => listed info (newestFirst_perm.mem_iff.mp member)
      have filled : newestFirst (·.id) (sources ++ overlapping manifest (level + 1) first last) ≠
          [] := by
        intro empty
        have none : sources ++ overlapping manifest (level + 1) first last = [] :=
          List.Perm.eq_nil (empty ▸ newestFirst_perm.symm)
        exact picked.filled (List.append_eq_nil_iff.mp none).1
      right
      let entries := mergeTables tables (config.maxLevels - 1 ≤ level + 1)
      let size := max (estimateEntriesPerSst entries config.targetSstSize) 1
      have positive : 0 < size := Nat.lt_of_lt_of_le Nat.zero_lt_one (Nat.le_max_right _ 1)
      have whole : (chunks size entries.length entries).flatten = entries :=
        chunks_flatten positive (Nat.le_refl _)
      have entriesSorted : Sorted entries := mergeTables_sorted _
      have isWritten := outputs_written hashing (level + 1) manifest.nextSstId
        (whole.symm ▸ entriesSorted) (chunks_filled positive)
      rw [whole] at isWritten
      refine ⟨sources, first, last, entries, _, ⟨merging, selected, isWritten, entriesSorted, ?_⟩, ?_⟩
      · intro key
        rw [lookup_mergeTables tablesSorted, reads]
        rfl
      · have count : (outputs hashing (level + 1) manifest.nextSstId
            (chunks size entries.length entries)).length =
            (chunks size entries.length entries).length := by simp [outputs]
        have found : (Merging.removed manifest level sources first last).filterMap
            (findMeta manifest) = sources ++ overlapping manifest (level + 1) first last := by
          rw [Merging.removed, ← List.map_append, sound.filterMap_findMeta listed]
        rw [Merging.removed, ← selectTargets_eq] at inputs found
        simp only [inputs, if_neg filled, mergeSstables, opened, Outcome.ok_bind, Outcome.pure_eq,
          writeMergedEntries, writeChunks_eq]
        rw [mergeOperations, Merging.after, count, Merging.removed, ← selectTargets_eq, ← found]
        rfl

/-- Every key that a merge writes is one of a table that it merges. -/
theorem Merges.held {maxLevels : Nat} {sources : List SSTableMeta} {first last : Bytes}
    {entries : List Entry} {written : List (SSTableMeta × SSTable)}
    (merges : Merges hashing maxLevels directory manifest level sources first last entries
      written) :
    ∀ entry ∈ entries, ∃ input ∈ sources ++ overlapping manifest (level + 1) first last,
      readTable directory entry.1 input ≠ none := by
  intro entry member
  apply Merging.exists_of_newest_ne_none
  intro absent
  have found := (lookup_eq_some_iff merges.sorted.nodup).mpr member
  rw [merges.lookup, absent] at found
  cases found

/-- A compaction in which the newest entries win leaves a sound directory with the same values. -/
theorem compactLevel_sound (hashing : Hashing)
    (sound : Sound hashing config.maxLevels directory manifest)
    (wins : Compaction.NewestWins ⟨directory, manifest, level⟩) :
    ∃ final operations result,
      compactLevel hashing config directory manifest level = .ok (final, operations, result) ∧
      Sound hashing config.maxLevels (directory.performAll operations) final ∧
      (Saved config.maxLevels directory manifest →
        Saved config.maxLevels (directory.performAll operations) final) ∧
      ∀ key value, Resolves (readLevel directory manifest key) value →
        Resolves (readLevel (directory.performAll operations) final key) value := by
  rcases compactLevel_cases sound with nothing | ⟨sources, first, last, entries, written, merges, done⟩
  · exact ⟨_, _, _, nothing, sound, fun saved => saved, fun _ _ resolves => resolves⟩
  · have isSound := merges.merging.sound_after merges.isWritten merges.held
    refine ⟨_, _, _, done, isSound, fun _ => saved_of_data isSound.placed ?_, ?_⟩
    · rw [mergeOperations, performAll_append]
      rfl
    intro key value resolves
    have bottom : decide (config.maxLevels - 1 ≤ level + 1) = true →
        config.maxLevels ≤ level + 2 := by
      intro isBottom
      have bound := of_decide_eq_true isBottom
      omega
    apply merges.merging.resolves_after merges.isWritten merges.sorted _ bottom resolves
    rw [merges.lookup, merges.merging.newest_inputs (merges.merging.newer wins merges.selected)]

end Level

end JouleDB.Lsm
