import JouleDB.Lsm.Termination

/-!
# Range scans of the engine

A range scan collects the entries of all tables that may have a key of the range, the newer tables
first, and keeps the first entry of every key.  It agrees with the reads of single keys, unless the
range of a table in memory panics.
-/

namespace JouleDB.Lsm

/-- A key is in a range. -/
def within (start finish key : Bytes) : Bool := start ≤ key && key ≤ finish

namespace SSTable

/-- The entries of a range in blocks: a block is skipped if the next one starts at or before the
range, and the first block that starts behind the range ends the search. -/
def rangeBlocks (start finish : Bytes) : List (List Entry) → List Entry
  | [] => []
  | block :: rest =>
      if rest.head?.any fun next => firstKeyOf next ≤ start then
        rangeBlocks start finish rest
      else if finish < firstKeyOf block then
        []
      else
        block.filter (fun entry => within start finish entry.1) ++ rangeBlocks start finish rest

/-- The entries of a range. -/
def range (table : SSTable) (start finish : Bytes) : List Entry :=
  let startBlock :=
    match binarySearch table.index start with
    | .ok position => position
    | .error 0 => 0
    | .error (position + 1) => position
  rangeBlocks start finish (table.blocks.drop startBlock)

end SSTable

/-- The entries of a range of a table in memory.  A range whose start is greater than its end
panics; whether it does so for an empty table is left open. -/
def MemTable.range (strict : Bool) (memory : MemTable) (start finish : Bytes) :
    Outcome IoError (List Entry) :=
  if finish < start ∧ (strict = true ∨ memory.data.isEmpty = false) then
    .halt .panic
  else
    .ok (memory.data.toList.filter fun entry => within start finish entry.1)

/-- Keep the first entry of every key, and leave out the keys that are deleted. -/
def resolve : Option Bytes → List Entry → List (Bytes × Bytes)
  | _, [] => []
  | lastKey, (key, value) :: entries =>
      if lastKey = some key then
        resolve lastKey entries
      else
        match value with
        | some value => (key, value) :: resolve (some key) entries
        | none => resolve (some key) entries

namespace LsmEngine

/-- The ranges of the tables in memory. -/
def rangeMemories (strict : Bool) (start finish : Bytes) :
    List MemTable → Outcome IoError (List (List Entry))
  | [] => .ok []
  | memory :: memories => do
      let entries ← memory.range strict start finish
      let rest ← rangeMemories strict start finish memories
      return entries :: rest

/-- The ranges of the tables of a level that may have a key of the range. -/
def rangeTables (directory : Directory) (start finish : Bytes) :
    List SSTableMeta → Outcome IoError (List (List Entry))
  | [] => .ok []
  | info :: infos =>
      if info.lastKey < start ∨ finish < info.firstKey then
        rangeTables directory start finish infos
      else do
        let table ← directory.openTable info.id
        let rest ← rangeTables directory start finish infos
        return table.range start finish :: rest

/-- The ranges of the tables of the levels. -/
def rangeLevels (directory : Directory) (start finish : Bytes) :
    List (List SSTableMeta) → Outcome IoError (List (List Entry))
  | [] => .ok []
  | tables :: levels => do
      let here ← rangeTables directory start finish (newestFirst (·.id) tables)
      let below ← rangeLevels directory start finish levels
      return here ++ below

/-- The keys of a range with their values. -/
def range (strict : Bool) (engine : LsmEngine) (start finish : Bytes) :
    Outcome IoError (List (Bytes × Bytes)) := do
  let memories ← rangeMemories strict start finish (engine.active :: engine.immutable.reverse)
  let tables ← rangeLevels engine.directory start finish engine.manifest.levels
  return resolve none ((sortEntries (tagged (memories ++ tables))).map Prod.fst)

/-- The end of the range of a scan. -/
def sentinel : Bytes := List.replicate 32 255

/-- All keys with their values. -/
def scan (strict : Bool) (engine : LsmEngine) : Outcome IoError (List (Bytes × Bytes)) :=
  engine.range strict [] sentinel

end LsmEngine

section Within

variable {start finish key : Bytes} {entries : List Entry}

theorem within_iff : within start finish key = true ↔ start ≤ key ∧ key ≤ finish := by
  rw [within, Bool.and_eq_true, decide_eq_true_eq, decide_eq_true_eq]

theorem lookup_filter_within :
    (entries.filter fun entry => within start finish entry.1).lookup key =
      if within start finish key then entries.lookup key else none := by
  induction entries with
  | nil => simp
  | cons entry entries ih =>
      rw [lookup_cons_ite, List.filter_cons]
      by_cases same : key = entry.1
      · subst same
        split
        next inside => rw [lookup_cons_ite, if_pos rfl, if_pos rfl]
        next outside => rw [ih, if_neg outside]
      · rw [if_neg same]
        split
        next => rw [lookup_cons_ite, if_neg same, ih]
        next => exact ih

theorem filter_within_eq_nil
    (outside : (∀ entry ∈ entries, entry.1 < start) ∨ ∀ entry ∈ entries, finish < entry.1) :
    (entries.filter fun entry => within start finish entry.1) = [] := by
  rw [List.filter_eq_nil_iff]
  intro entry member isWithin
  obtain ⟨lower, upper⟩ := within_iff.mp isWithin
  rcases outside with below | above
  · exact absurd lower (not_le.mpr (below entry member))
  · exact absurd upper (not_le.mpr (above entry member))

end Within

section Tables

variable {hashing : Hashing} {table : SSTable} {start finish : Bytes} {blocks : List (List Entry)}

theorem rangeBlocks_eq (sorted : Sorted blocks.flatten) (filled : ∀ block ∈ blocks, block ≠ []) :
    SSTable.rangeBlocks start finish blocks =
      blocks.flatten.filter fun entry => within start finish entry.1 := by
  induction blocks with
  | nil => rfl
  | cons block rest ih =>
      obtain ⟨here, filled⟩ := List.forall_mem_cons.mp filled
      rw [List.flatten_cons] at sorted ⊢
      obtain ⟨blockSorted, restSorted, follow⟩ := List.pairwise_append.mp sorted
      rw [SSTable.rangeBlocks, List.filter_append, ih restSorted filled]
      split
      next skipped =>
        obtain ⟨next, isNext, early⟩ := (Option.any_eq_true _ _).mp skipped
        have listed := List.mem_of_head? isNext
        obtain ⟨value, first⟩ := firstKeyOf_mem (filled next listed)
        rw [@filter_within_eq_nil _ _ block (Or.inl fun entry member => ?_), List.nil_append]
        exact (follow entry member _ (List.mem_flatten.mpr ⟨next, listed, first⟩)).trans_le
          (of_decide_eq_true early)
      next =>
        split
        next behind =>
          obtain ⟨value, first⟩ := firstKeyOf_mem here
          rw [filter_within_eq_nil (Or.inr fun entry member => ?_),
            filter_within_eq_nil (Or.inr fun entry member => ?_), List.append_nil]
          · exact behind.trans (follow _ first entry member)
          · exact behind.trans_le (firstKeyOf_le blockSorted member)
        next => rfl

/-- A block in front of one that starts at or before a key has smaller keys only. -/
theorem SSTable.Valid.lt_of_mem_take (valid : table.Valid hashing) {position : Nat} {first : Bytes}
    (found : table.index[position]? = some first) {entry : Entry}
    (member : entry ∈ (table.blocks.take position).flatten) : entry.1 < first := by
  rw [SSTable.index, List.getElem?_map, Option.map_eq_some_iff] at found
  obtain ⟨block, isBlock, rfl⟩ := found
  obtain ⟨early, listed, inside⟩ := List.mem_flatten.mp member
  obtain ⟨bound, same⟩ := List.getElem?_eq_some_iff.mp isBlock
  have split : table.blocks = table.blocks.take position ++ table.blocks.drop position :=
    (List.take_append_drop _ _).symm
  have later : block ∈ table.blocks.drop position := by
    rw [List.drop_eq_getElem_cons bound, same]
    exact List.mem_cons_self
  have ordered := valid.blocks_sorted.2
  rw [split] at ordered
  obtain ⟨value, isFirst⟩ := firstKeyOf_mem (valid.filled block (List.mem_of_getElem? isBlock))
  exact (List.pairwise_append.mp ordered).2.2 early listed block later entry inside _ isFirst

/-- The blocks in front of the first one that is read have smaller keys only. -/
theorem SSTable.Valid.range_of_position (valid : table.Valid hashing) {position : Nat}
    (before : ∀ entry ∈ (table.blocks.take position).flatten, entry.1 < start) :
    SSTable.rangeBlocks start finish (table.blocks.drop position) =
      table.iter.filter fun entry => within start finish entry.1 := by
  have split : table.iter =
      (table.blocks.take position).flatten ++ (table.blocks.drop position).flatten := by
    rw [← List.flatten_append, List.take_append_drop]
    rfl
  have sorted := valid.sorted
  rw [split] at sorted ⊢
  rw [rangeBlocks_eq (List.pairwise_append.mp sorted).2.1 fun block member =>
      valid.filled block (List.mem_of_mem_drop member),
    List.filter_append, filter_within_eq_nil (Or.inl before), List.nil_append]

theorem SSTable.Valid.range_eq (valid : table.Valid hashing) :
    table.range start finish = table.iter.filter fun entry => within start finish entry.1 := by
  rw [SSTable.range]
  apply valid.range_of_position
  generalize searched : binarySearch table.index start = result
  rw [binarySearch] at searched
  split at searched
  next found =>
    rw [← searched]
    exact fun entry => valid.lt_of_mem_take found
  next apart =>
    rw [← searched]
    cases position : (table.index.takeWhile (· < start)).length with
    | zero => simp
    | succ previous =>
        have bound : previous < (table.index.takeWhile (· < start)).length := by omega
        have listed : previous < table.index.length :=
          bound.trans_le (List.takeWhile_sublist _).length_le
        have found := List.getElem?_eq_getElem listed
        exact fun entry member =>
          (valid.lt_of_mem_take found member).trans (lt_of_takeWhile bound found)

end Tables

section Resolve

variable {lastKey : Option Bytes} {entries : List Entry}

theorem mem_of_lookup_entry {key : Bytes} {value : Option Bytes}
    (found : entries.lookup key = some value) : (key, value) ∈ entries := by
  obtain ⟨front, back, split, -⟩ := List.lookup_eq_some_iff.mp found
  rw [split]
  exact List.mem_append_right _ List.mem_cons_self

/-- What is kept of entries that are sorted by their keys, after those of the last key. -/
theorem resolve_spec (sorted : entries.Pairwise fun first second => first.1 ≤ second.1)
    (after : ∀ key, lastKey = some key → ∀ entry ∈ entries, key ≤ entry.1) :
    (resolve lastKey entries).Pairwise (fun first second => first.1 < second.1) ∧
      ∀ key value, (key, value) ∈ resolve lastKey entries ↔
        lastKey ≠ some key ∧ entries.lookup key = some (some value) := by
  induction entries generalizing lastKey with
  | nil => simp [resolve]
  | cons entry entries ih =>
      obtain ⟨entryKey, entryValue⟩ := entry
      obtain ⟨least, sorted⟩ := List.pairwise_cons.mp sorted
      by_cases same : lastKey = some entryKey
      · obtain ⟨ordered, member⟩ := ih sorted fun key isLast other inside =>
          after key isLast other (List.mem_cons_of_mem _ inside)
        have unfolded : resolve lastKey ((entryKey, entryValue) :: entries) =
            resolve lastKey entries := by simp [resolve, same]
        rw [unfolded]
        refine ⟨ordered, fun key value => (member key value).trans ?_⟩
        apply and_congr_right
        intro apart
        rw [lookup_cons_ite, if_neg]
        rintro rfl
        exact apart same
      · obtain ⟨ordered, member⟩ := @ih (some entryKey) sorted fun key isLast other inside =>
          Option.some.inj isLast ▸ least other inside
        -- A later entry with another key has a key that is not the last one either.
        have others : ∀ key value, key ≠ entryKey →
            ((key, value) ∈ resolve (some entryKey) entries ↔
              lastKey ≠ some key ∧ entries.lookup key = some (some value)) := by
          intro key value distinct
          rw [member]
          apply and_congr_left
          intro found
          refine iff_of_true (fun equal => distinct (Option.some.inj equal).symm) fun isLast => ?_
          exact distinct (le_antisymm (after key isLast _ List.mem_cons_self)
            (least _ (mem_of_lookup_entry found)))
        have none : ∀ value, (entryKey, value) ∉ resolve (some entryKey) entries :=
          fun value inside => ((member entryKey value).mp inside).1 rfl
        cases entryValue with
        | none =>
            have unfolded : resolve lastKey ((entryKey, Option.none) :: entries) =
                resolve (some entryKey) entries := by simp [resolve, same]
            rw [unfolded]
            refine ⟨ordered, fun key value => ?_⟩
            rw [lookup_cons_ite]
            by_cases isKey : key = entryKey
            · subst isKey
              simp [none]
            · rw [if_neg isKey]
              exact others key value isKey
        | some current =>
            have unfolded : resolve lastKey ((entryKey, some current) :: entries) =
                (entryKey, current) :: resolve (some entryKey) entries := by simp [resolve, same]
            rw [unfolded]
            refine ⟨List.pairwise_cons.mpr ⟨fun pair inside => ?_, ordered⟩, fun key value => ?_⟩
            · obtain ⟨apart, found⟩ := (member pair.1 pair.2).mp inside
              exact lt_of_le_of_ne (least _ (mem_of_lookup_entry found))
                fun equal => apart (congrArg some equal)
            · rw [lookup_cons_ite, List.mem_cons]
              by_cases isKey : key = entryKey
              · subst isKey
                simp [none, same, eq_comm]
              · rw [if_neg isKey, ← others key value isKey]
                simp [isKey]

end Resolve

namespace LsmEngine

variable {hashing : Hashing} {strict : Bool} {engine : LsmEngine} {start finish : Bytes}

/-- The newest version of a key: in memory, else in the first table of the levels that has one. -/
def version (engine : LsmEngine) (key : Bytes) : Option (Option Bytes) :=
  ((engine.active :: engine.immutable.reverse).findSome? (·.get key)).or
    ((engine.manifest.levels.flatMap (newestFirst (·.id))).findSome?
      (readTable engine.directory key))

/-- A table of each level is read as the directory has it. -/
abbrev Readable (hashing : Hashing) (directory : Directory) (infos : List SSTableMeta) : Prop :=
  ∀ info ∈ infos, ∃ table, directory.tables[info.id]? = some table ∧ info.Describes hashing table

section Reads

theorem searchLevels_eq {directory : Directory} {levels : List (List SSTableMeta)}
    (readable : ∀ tables ∈ levels, Readable hashing directory tables) (key : Bytes) :
    searchLevels hashing directory key levels =
      .ok ((levels.flatMap (newestFirst (·.id))).findSome? (readTable directory key)).join := by
  induction levels with
  | nil => rfl
  | cons tables levels ih =>
      obtain ⟨here, below⟩ := List.forall_mem_cons.mp readable
      have sorted : Readable hashing directory (newestFirst (·.id) tables) :=
        fun info member => here info (newestFirst_perm.mem_iff.mp member)
      rw [searchLevels, searchTables_eq sorted, Outcome.ok_bind, List.flatMap_cons,
        List.findSome?_append]
      cases (newestFirst (·.id) tables).findSome? (readTable directory key) with
      | none => exact ih below
      | some entry => rfl

theorem get_eq_version (kept : Kept hashing engine.directory engine.manifest) (key : Bytes) :
    engine.get hashing key = .ok (engine.version key).join := by
  have readable : ∀ tables ∈ engine.manifest.levels,
      Readable hashing engine.directory tables := by
    intro tables member info inside
    obtain ⟨level, found⟩ := List.getElem?_of_mem member
    exact kept.files level info (by rwa [Manifest.level, found, Option.getD_some])
  rw [get, version]
  cases (engine.active :: engine.immutable.reverse).findSome? (·.get key) with
  | some entry => rfl
  | none => exact searchLevels_eq readable key

end Reads

section Sources

/-- Sources that have the newest versions of the keys of a range. -/
structure Covers (start finish : Bytes) (sources : List (List Entry))
    (version : Bytes → Option (Option Bytes)) : Prop where
  sorted : ∀ entries ∈ sources, Sorted entries
  lookup : ∀ key, sources.findSome? (List.lookup key) =
    if within start finish key then version key else none

theorem Covers.append {first second : List (List Entry)}
    {version other : Bytes → Option (Option Bytes)} (one : Covers start finish first version)
    (two : Covers start finish second other) :
    Covers start finish (first ++ second) fun key => (version key).or (other key) where
  sorted entries member := (List.mem_append.mp member).elim (one.sorted entries) (two.sorted entries)
  lookup key := by
    rw [List.findSome?_append, one.lookup, two.lookup]
    split <;> rfl

theorem Covers.congr {sources : List (List Entry)} {version other : Bytes → Option (Option Bytes)}
    (covers : Covers start finish sources version) (same : ∀ key, version key = other key) :
    Covers start finish sources other :=
  (funext same : version = other) ▸ covers

theorem covers_nil : Covers start finish [] fun _ => none where
  sorted entries member := absurd member List.not_mem_nil
  lookup key := by simp

theorem Covers.cons {entries : List Entry} {sources : List (List Entry)}
    {version other : Bytes → Option (Option Bytes)} (sorted : Sorted entries)
    (reads : ∀ key, entries.lookup key = version key) (covers : Covers start finish sources other) :
    Covers start finish ((entries.filter fun entry => within start finish entry.1) :: sources)
      fun key => (version key).or (other key) where
  sorted := List.forall_mem_cons.mpr ⟨sorted.sublist List.filter_sublist, covers.sorted⟩
  lookup key := by
    rw [List.findSome?_cons, lookup_filter_within, reads, covers.lookup]
    split
    next found =>
      split at found
      next => rw [found, Option.some_or, if_pos (by assumption)]
      next => cases found
    next missing =>
      split
      next inside =>
        rw [if_pos inside] at missing
        rw [missing, Option.none_or]
      next => rfl

theorem findSome?_cons_or {α β : Type} (read : α → Option β) (first : α) (rest : List α) :
    (first :: rest).findSome? read = (read first).or (rest.findSome? read) := by
  rw [List.findSome?_cons]
  cases read first with
  | none => rfl
  | some value => rfl

/-- No range of a table in memory panics. -/
def Calm (strict : Bool) (start finish : Bytes) (memories : List MemTable) : Prop :=
  start ≤ finish ∨ strict = false ∧ ∀ memory ∈ memories, memory.data.isEmpty = true

theorem rangeMemories_covers {memories : List MemTable} (calm : Calm strict start finish memories) :
    ∃ sources, rangeMemories strict start finish memories = .ok sources ∧
      Covers start finish sources fun key => memories.findSome? (·.get key) := by
  induction memories with
  | nil => exact ⟨[], rfl, covers_nil⟩
  | cons memory memories ih =>
      obtain ⟨sources, isSources, covers⟩ := ih (calm.imp_right fun quiet =>
        ⟨quiet.1, fun other member => quiet.2 other (List.mem_cons_of_mem _ member)⟩)
      have here : memory.range strict start finish =
          .ok (memory.data.toList.filter fun entry => within start finish entry.1) := by
        rw [MemTable.range, if_neg]
        rintro ⟨reversed, loud⟩
        obtain ⟨lenient, empty⟩ := calm.resolve_left (not_le.mpr reversed)
        rw [lenient, empty memory List.mem_cons_self] at loud
        exact absurd loud (by decide)
      refine ⟨_, ?_, (covers.cons (sorted_toList memory.data) (lookup_toList memory)).congr
        fun key => (findSome?_cons_or (fun memory => memory.get key) memory memories).symm⟩
      rw [rangeMemories, here, isSources]
      rfl

theorem rangeMemories_halt {memories : List MemTable} (loud : ¬Calm strict start finish memories)
    (filled : memories ≠ []) :
    rangeMemories strict start finish memories = .halt .panic := by
  induction memories with
  | nil => exact absurd rfl filled
  | cons memory memories ih =>
      rw [Calm, not_or] at loud
      have reversed := not_le.mp loud.1
      rw [rangeMemories]
      by_cases panics : strict = true ∨ memory.data.isEmpty = false
      · rw [MemTable.range, if_pos ⟨reversed, panics⟩]
        rfl
      · rw [not_or, Bool.not_eq_true, Bool.not_eq_false] at panics
        have later : ¬Calm strict start finish memories := by
          rintro (ordered | ⟨lenient, empty⟩)
          · exact loud.1 ordered
          · exact loud.2 ⟨lenient, List.forall_mem_cons.mpr ⟨panics.2, empty⟩⟩
        have more : memories ≠ [] := by
          rintro rfl
          exact later (Or.inr ⟨panics.1, fun _ member => absurd member List.not_mem_nil⟩)
        rw [MemTable.range, if_neg fun both => by simp [panics] at both, Outcome.ok_bind,
          ih later more]
        rfl

/-- The ranges of tables that the directory holds. -/
theorem rangeTables_covers {directory : Directory} {infos : List SSTableMeta}
    (readable : Readable hashing directory infos) :
    ∃ sources, rangeTables directory start finish infos = .ok sources ∧
      Covers start finish sources fun key => infos.findSome? (readTable directory key) := by
  induction infos with
  | nil => exact ⟨[], rfl, covers_nil⟩
  | cons info infos ih =>
      obtain ⟨⟨table, found, describes⟩, readable⟩ := List.forall_mem_cons.mp readable
      obtain ⟨sources, isSources, covers⟩ := ih readable
      have read : ∀ key, readTable directory key info = table.iter.lookup key := by
        intro key
        rw [readTable, found, Option.bind_some]
      rw [rangeTables]
      split
      next skipped =>
        refine ⟨sources, isSources, covers.sorted, fun key => ?_⟩
        rw [covers.lookup, findSome?_cons_or, read]
        split
        next inside =>
          obtain ⟨lower, upper⟩ := within_iff.mp inside
          rw [describes.lookup_eq_none (skipped.symm.imp (upper.trans_lt ·) (·.trans_le lower)),
            Option.none_or]
        next => rfl
      next =>
        refine ⟨_, ?_, (covers.cons describes.valid.sorted fun key => (read key).symm).congr
          fun key => (findSome?_cons_or _ _ _).symm⟩
        rw [Directory.openTable, found, Outcome.ok_bind, isSources, Outcome.ok_bind,
          describes.valid.range_eq]
        rfl

theorem rangeLevels_covers {directory : Directory} {levels : List (List SSTableMeta)}
    (readable : ∀ tables ∈ levels, Readable hashing directory tables) :
    ∃ sources, rangeLevels directory start finish levels = .ok sources ∧
      Covers start finish sources fun key =>
        (levels.flatMap (newestFirst (·.id))).findSome? (readTable directory key) := by
  induction levels with
  | nil => exact ⟨[], rfl, covers_nil⟩
  | cons tables levels ih =>
      obtain ⟨here, below⟩ := List.forall_mem_cons.mp readable
      have sorted : Readable hashing directory (newestFirst (·.id) tables) :=
        fun info member => here info (newestFirst_perm.mem_iff.mp member)
      obtain ⟨first, isFirst, firstCovers⟩ := @rangeTables_covers _ start finish _ _ sorted
      obtain ⟨sources, isSources, covers⟩ := ih below
      refine ⟨first ++ sources, ?_, (firstCovers.append covers).congr fun key => ?_⟩
      · rw [rangeLevels, isFirst, Outcome.ok_bind, isSources]
        rfl
      · rw [List.flatMap_cons, List.findSome?_append]

end Sources

/-- The pairs of a range are those that reads of single keys return, in order. -/
def RangeExact (hashing : Hashing) (engine : LsmEngine) (start finish : Bytes)
    (result : Outcome IoError (List (Bytes × Bytes))) : Prop :=
  ∃ pairs, result = .ok pairs ∧ pairs.Pairwise (fun first second => first.1 < second.1) ∧
    ∀ key value, (key, value) ∈ pairs ↔
      start ≤ key ∧ key ≤ finish ∧ engine.get hashing key = .ok (some value)

/-- The pairs of a scan are all that reads of single keys return, in order. -/
def ScanExact (hashing : Hashing) (engine : LsmEngine)
    (result : Outcome IoError (List (Bytes × Bytes))) : Prop :=
  ∃ pairs, result = .ok pairs ∧ pairs.Pairwise (fun first second => first.1 < second.1) ∧
    ∀ key value, (key, value) ∈ pairs ↔ engine.get hashing key = .ok (some value)

section Exact

variable (kept : Kept hashing engine.directory engine.manifest)

include kept

theorem range_exact (calm : Calm strict start finish (engine.active :: engine.immutable.reverse)) :
    RangeExact hashing engine start finish (engine.range strict start finish) := by
  have readable : ∀ tables ∈ engine.manifest.levels,
      Readable hashing engine.directory tables := by
    intro tables member info inside
    obtain ⟨level, found⟩ := List.getElem?_of_mem member
    exact kept.files level info (by rwa [Manifest.level, found, Option.getD_some])
  obtain ⟨memories, isMemories, memoriesCover⟩ := rangeMemories_covers calm
  obtain ⟨tables, isTables, tablesCover⟩ := @rangeLevels_covers _ start finish _ _ readable
  have covers := memoriesCover.append tablesCover
  have ordered := (sortEntries_pairwise (tagged (memories ++ tables))).imp fun less =>
    less.elim le_of_lt fun same => le_of_eq same.1
  obtain ⟨increasing, member⟩ := @resolve_spec none
    ((sortEntries (tagged (memories ++ tables))).map Prod.fst) (List.pairwise_map.mpr ordered)
    fun key isKey => absurd isKey (Option.some_ne_none key).symm
  refine ⟨_, by rw [range, isMemories, Outcome.ok_bind, isTables]; rfl, increasing, ?_⟩
  intro key value
  rw [member, lookup_sort_tagged covers.sorted, covers.lookup, get_eq_version kept, version]
  by_cases inside : within start finish key = true
  · obtain ⟨lower, upper⟩ := within_iff.mp inside
    rw [if_pos inside, Outcome.ok.injEq, Option.join_eq_some_iff]
    simp [lower, upper]
  · rw [if_neg inside]
    simp only [ne_eq, reduceCtorEq, not_false_eq_true, and_false, false_iff, not_and]
    exact fun lower upper => absurd (within_iff.mpr ⟨lower, upper⟩) inside

/-- A range is exact exactly if no range of a table in memory panics. -/
theorem rangeExact_iff_calm : RangeExact hashing engine start finish
      (engine.range strict start finish) ↔
    Calm strict start finish (engine.active :: engine.immutable.reverse) := by
  constructor
  · rintro ⟨pairs, result, -⟩
    by_contra loud
    rw [range, rangeMemories_halt loud (List.cons_ne_nil _ _)] at result
    cases result
  · exact range_exact kept

/-- A scan is exact exactly if no key is greater than the end of its range. -/
theorem scanExact_iff_sentinel : ScanExact hashing engine (engine.scan strict) ↔
    ∀ key value, engine.get hashing key = .ok (some value) → key ≤ sentinel := by
  obtain ⟨pairs, result, increasing, member⟩ :=
    @range_exact _ strict _ [] sentinel kept (Or.inl (nil_le _))
  constructor
  · rintro ⟨others, same, -, all⟩ key value found
    obtain rfl : pairs = others := Outcome.ok.inj (result.symm.trans same)
    exact ((member key value).mp ((all key value).mpr found)).2.1
  · intro bounded
    refine ⟨pairs, result, increasing, fun key value => (member key value).trans ?_⟩
    exact ⟨fun held => held.2.2, fun found => ⟨nil_le key, bounded key value found, found⟩⟩

end Exact

/-- **When scans agree with reads.**  In every state that is reached from an empty directory, a range
scan returns what reads of single keys return exactly if its range of no table in memory panics, and
a scan exactly if no key is greater than the end of its range. -/
theorem rangeExact_iff (hashing : Hashing) (strict : Bool) (config : LsmConfig) (uses : List Use) :
    let engine := used hashing config uses
    (∀ start finish, RangeExact hashing engine start finish (engine.range strict start finish) ↔
      Calm strict start finish (engine.active :: engine.immutable.reverse)) ∧
    (ScanExact hashing engine (engine.scan strict) ↔
      ∀ key value, engine.get hashing key = .ok (some value) → key ≤ sentinel) :=
  ⟨fun _ _ => rangeExact_iff_calm (kept_used hashing config uses),
    scanExact_iff_sentinel (kept_used hashing config uses)⟩

/-- An engine with one key, of 33 bytes. -/
def oneLongKey : LsmEngine :=
  used byteHashing smallConfig [.call (.put (List.replicate 33 255) [1])]

/-- A range that ends before it starts panics, and a scan misses a long key. -/
theorem not_rangeExact :
    oneLongKey.range false [2] [1] = .halt .panic ∧
      ¬RangeExact byteHashing oneLongKey [2] [1] (oneLongKey.range false [2] [1]) ∧
      ¬ScanExact byteHashing oneLongKey (oneLongKey.scan false) := by
  have kept := kept_used byteHashing smallConfig [.call (.put (List.replicate 33 255) [1])]
  have panics : oneLongKey.range false [2] [1] = .halt .panic := by decide +kernel
  refine ⟨panics, ?_, fun exact_ => ?_⟩
  · rintro ⟨pairs, result, -⟩
    rw [panics] at result
    cases result
  · have bounded := (scanExact_iff_sentinel kept).mp exact_ (List.replicate 33 255) [1]
      (by decide +kernel)
    exact absurd bounded (by decide +kernel)

end LsmEngine

end JouleDB.Lsm
