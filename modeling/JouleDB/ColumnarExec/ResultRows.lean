import JouleDB.ColumnarExec.TopN
import Mathlib.Data.List.Forall2
import Mathlib.Tactic.IntervalCases

/-!
# The rows of a page

Whichever way the groups are selected, the returned rows are a slice of all groups in order.
-/

namespace JouleDB.ColumnarExec

variable {F : Type} [FloatNumber F]

theorem flatten_parChunks {α : Type} {size : Nat} (positive : 0 < size) (items : List α) :
    (parChunks size items).flatten = items := by
  fun_induction parChunks size items with
  | case1 items rest ih => rw [List.flatten_cons, ih, List.take_append_drop]
  | case2 items none =>
      have empty : items.length = 0 := by omega
      rw [List.eq_nil_of_length_eq_zero empty]
      rfl

/-! ## Cells stored row by row -/

omit [FloatNumber F] in
theorem rowOf_cellsOf (cell : Nat → Nat → Sv F) {groups columns : List Nat} {index group : Nat}
    (isGroup : groups[index]? = some group) :
    rowOf (cellsOf cell groups columns) columns.length index = columns.map (cell group) := by
  induction groups generalizing index with
  | nil => cases isGroup
  | cons first rest ih =>
      rw [rowOf, cellsOf, List.flatMap_cons]
      have width : (columns.map (cell first)).length = columns.length := List.length_map _
      cases index with
      | zero =>
          cases isGroup
          rw [Nat.zero_mul, List.drop_zero, ← width, List.take_left]
      | succ index =>
          rw [Nat.succ_mul, Nat.add_comm, ← List.drop_drop]
          conv_lhs => rw [← width, List.drop_left, width]
          exact ih isGroup

omit [FloatNumber F] in
theorem rowOf_cellsOf_beyond (cell : Nat → Nat → Sv F) {groups columns : List Nat} {index : Nat}
    (beyond : groups.length ≤ index) :
    rowOf (cellsOf cell groups columns) columns.length index = [] := by
  have length : (cellsOf cell groups columns).length = groups.length * columns.length := by
    simp [cellsOf, List.length_flatMap]
  rw [rowOf, List.drop_eq_nil_of_le, List.take_nil]
  rw [length]
  exact Nat.mul_le_mul_right _ beyond

omit [FloatNumber F] in
theorem getD_rowOf (cell : Nat → Nat → Sv F) (groups : Nat) {columns : List Nat} {place column : Nat}
    (isColumn : columns[place]? = some column) (index : Nat) :
    (rowOf (cellsOf cell (List.range groups) columns) columns.length index).getD place .null =
      if index < groups then cell index column else .null := by
  split
  next inside =>
    have isGroup : (List.range groups)[index]? = some index := List.getElem?_range inside
    rw [rowOf_cellsOf cell isGroup, List.getD_eq_getElem?_getD, List.getElem?_map, isColumn]
    rfl
  next outside =>
    rw [rowOf_cellsOf_beyond cell (by rw [List.length_range]; omega)]
    rfl

/-! ## Typed columns -/

/-- The cells of every key are nulls and integers, or nulls and strings. -/
def TypedKeys (cell : Nat → Nat → Sv F) (groups : Nat) (order : List OrderKey) : Prop :=
  ∀ key ∈ order, (∀ group < groups, (cell group key.column).NullOrInt) ∨
    ∀ group < groups, (cell group key.column).NullOrText

omit [FloatNumber F] in
/-- The stored cells of a typed column are of one kind. -/
theorem oneKind_cellsOf {cell : Nat → Nat → Sv F} {groups : Nat} {columns : List Nat}
    {place column : Nat} (isColumn : columns[place]? = some column)
    (typed : (∀ group < groups, (cell group column).NullOrInt) ∨
      ∀ group < groups, (cell group column).NullOrText) :
    OneKind fun index =>
      (rowOf (cellsOf cell (List.range groups) columns) columns.length index).getD place .null := by
  simp only [getD_rowOf cell groups isColumn]
  refine typed.imp (fun isInt index => ?_) fun isText index => ?_
  · dsimp only
    split
    next inside => exact isInt index inside
    next => exact .inl rfl
  · dsimp only
    split
    next inside => exact isText index inside
    next => exact .inl rfl

/-- Keys in the same directions on the same cells. -/
theorem compareRows_congr {order order' : List OrderKey} {first second first' second' : List (Sv F)}
    (same : List.Forall₂ (fun key key' =>
      key'.descending = key.descending ∧ key'.nullsFirst = key.nullsFirst ∧
        first'.getD key'.column .null = first.getD key.column .null ∧
        second'.getD key'.column .null = second.getD key.column .null) order order') :
    compareRows order' first' second' = compareRows order first second := by
  induction same with
  | nil => rfl
  | cons same _ ih =>
      obtain ⟨descending, nullsFirst, cells, cells'⟩ := same
      rw [compareRows, compareRows, ih, cells, cells', compareCells, compareCells, descending,
        nullsFirst]

section

variable {cell : Nat → Nat → Sv F} {groups width : Nat} {order : List OrderKey}

/-- The cells of all groups in all columns. -/
def allCells (cell : Nat → Nat → Sv F) (groups width : Nat) : List (Sv F) :=
  cellsOf cell (List.range groups) (List.range width)

/-- The cells of all groups in the columns of the keys. -/
def keyCells (cell : Nat → Nat → Sv F) (groups : Nat) (order : List OrderKey) : List (Sv F) :=
  cellsOf cell (List.range groups) (order.map OrderKey.column)

/-- The keys, in the order of their own cells. -/
def keyOrder (order : List OrderKey) : List OrderKey :=
  order.mapIdx fun index key => { key with column := index }

omit [FloatNumber F] in
theorem oneKind_allCells (typed : TypedKeys cell groups order)
    (inside : ∀ key ∈ order, key.column < width) :
    ∀ key ∈ order, OneKind fun index =>
      (rowOf (allCells cell groups width) width index).getD key.column .null := by
  intro key isKey
  have isColumn : (List.range width)[key.column]? = some key.column :=
    List.getElem?_range (inside key isKey)
  have oneKind := oneKind_cellsOf isColumn (typed key isKey)
  rwa [List.length_range] at oneKind

omit [FloatNumber F] in
theorem oneKind_keyCells (typed : TypedKeys cell groups order) :
    ∀ key ∈ keyOrder order, OneKind fun index =>
      (rowOf (keyCells cell groups order) order.length index).getD key.column .null := by
  intro key isKey
  obtain ⟨place, within, rfl⟩ := List.mem_mapIdx.mp isKey
  have isColumn : (order.map OrderKey.column)[place]? = some order[place].column := by
    rw [List.getElem?_map, List.getElem?_eq_getElem within]
    rfl
  have oneKind := oneKind_cellsOf isColumn (typed _ (List.getElem_mem within))
  rwa [List.length_map] at oneKind

/-- The cells of the keys compare the groups like all cells. -/
theorem mkCmp_keyCells (inside : ∀ key ∈ order, key.column < width) {first second : Nat}
    (isFirst : first < groups) (isSecond : second < groups) :
    mkCmp (keyCells cell groups order) order.length (keyOrder order) first second =
      mkCmp (allCells cell groups width) width order first second := by
  have same : ∀ index < groups, ∀ place (within : place < order.length),
      (rowOf (keyCells cell groups order) order.length index).getD place .null =
        (rowOf (allCells cell groups width) width index).getD order[place].column .null := by
    intro index isGroup place within
    have isKey : (order.map OrderKey.column)[place]? = some order[place].column := by
      rw [List.getElem?_map, List.getElem?_eq_getElem within]
      rfl
    have isColumn : (List.range width)[order[place].column]? = some order[place].column :=
      List.getElem?_range (inside _ (List.getElem_mem within))
    have ofKey := getD_rowOf cell groups isKey index
    have ofAll := getD_rowOf cell groups isColumn index
    rw [List.length_map] at ofKey
    rw [List.length_range] at ofAll
    exact ofKey.trans ofAll.symm
  rw [mkCmp, mkCmp, compareRows_congr]
  rw [List.forall₂_iff_get]
  refine ⟨(List.length_mapIdx).symm, fun place within within' => ?_⟩
  simp only [keyOrder, List.get_eq_getElem, List.getElem_mapIdx]
  exact ⟨trivial, trivial, same first isFirst place within, same second isSecond place within⟩

end

/-- The rows from the offset on, up to the limit. -/
def slice {α : Type} (limit offset : Option Nat) (items : List α) : List α :=
  match limit with
  | none => items.drop (offset.getD 0)
  | some limit => (items.drop (offset.getD 0)).take limit

theorem slice_subset {α : Type} {limit offset : Option Nat} {items : List α} :
    slice limit offset items ⊆ items := by
  intro item member
  cases limit with
  | none => exact List.mem_of_mem_drop member
  | some limit => exact List.mem_of_mem_drop (List.mem_of_mem_take member)

theorem drop_min_length {α : Type} (count : Nat) (items : List α) :
    items.drop (min count items.length) = items.drop count := by
  rcases Nat.le_total count items.length with within | beyond
  · rw [Nat.min_eq_left within]
  · rw [Nat.min_eq_right beyond, List.drop_length, List.drop_eq_nil_of_le beyond]

/-- What is returned depends on the first rows only. -/
theorem slice_eq {α : Type} {limit offset : Option Nat} {found sorted : List α}
    (bounded : sorted.length ≤ usizeMax)
    (unlimited : takeOf limit offset = none → found = sorted)
    (limited : ∀ count ∈ takeOf limit offset, found.take count = sorted.take count) :
    (found.take (min ((takeOf limit offset).getD usizeMax) found.length)).drop
        (min (offset.getD 0) (min ((takeOf limit offset).getD usizeMax) found.length)) =
      slice limit offset sorted := by
  cases limit with
  | none =>
      rw [unlimited rfl]
      change (sorted.take (min usizeMax sorted.length)).drop
        (min (offset.getD 0) (min usizeMax sorted.length)) = sorted.drop (offset.getD 0)
      rw [Nat.min_eq_right bounded, List.take_length, drop_min_length]
  | some limit =>
      have first : ∀ count, takeOf (some limit) offset = some count →
          found.take (min count found.length) = sorted.take (offset.getD 0 + limit) := by
        intro count isCount
        have capped : min (offset.getD 0 + limit) usizeMax = count := Option.some.inj isCount
        have whole : found.take (min count found.length) = found.take count := by
          rw [List.take_eq_take_iff, Nat.min_assoc, Nat.min_self]
        rw [whole, limited count isCount, List.take_eq_take_iff, ← capped]
        omega
      obtain ⟨count, isCount⟩ : ∃ count, takeOf (some limit) offset = some count := ⟨_, rfl⟩
      have taken := first count isCount
      have length := congrArg List.length taken
      rw [List.length_take_of_le (Nat.min_le_right _ _)] at length
      rw [isCount, Option.getD_some, taken, length, drop_min_length, List.drop_take,
        Nat.add_sub_cancel_left]
      rfl

/-! ## Candidates -/

theorem sortUnstableBy_nil (vals : List (Sv F)) (width groups : Nat) :
    sortUnstableBy (mkCmp vals width []) (List.range groups) = List.range groups := by
  refine List.mergeSort_of_pairwise (List.pairwise_lt_range.imp fun {first second} less => ?_)
  change (compare first second).isLE = true
  rw [Nat.compare_eq_lt.mpr less]
  rfl

section

variable (selection : Selection Nat) {cell : Nat → Nat → Sv F} {groups width count : Nat}
  {order : List OrderKey}

theorem take_candidates (typed : TypedKeys cell groups order) (positive : 0 < count) :
    (candidates selection cell groups order count).take count =
      (sortUnstableBy (mkCmp (keyCells cell groups order) order.length (keyOrder order))
        (List.range groups)).take count := by
  have isTrans := transCmp_mkCmp (oneKind_keyCells typed)
  have lawful := lawfulEqCmp_mkCmp (oneKind_keyCells typed)
  have length : (keyOrder order).length = order.length := List.length_mapIdx
  have made : candidates selection cell groups order count =
      sortUnstableBy (mkCmp (keyCells cell groups order) order.length (keyOrder order))
        (selection.truncate (mkCmp (keyCells cell groups order) order.length (keyOrder order)) count
          ((parChunks 16384 (List.range groups)).flatMap (selection.truncate
            (mkCmp (keyCells cell groups order) order.length (keyOrder order)) count))) := by
    rw [← length]
    rfl
  rw [made]
  generalize mkCmp (keyCells cell groups order) order.length (keyOrder order) = cmp at *
  have parts : (parChunks 16384 (List.range groups)).flatten = List.range groups :=
    flatten_parChunks (by decide) _
  have distinct : (parChunks 16384 (List.range groups)).flatten.Nodup := by
    rw [parts]
    exact List.nodup_range
  have increasing := @sortUnstableBy_pairwise _ cmp _ _ (List.range groups) List.nodup_range
  have sorted := sortUnstableBy_perm cmp (List.range groups)
  have subset := @Selection.flatMap_truncate_subset _ cmp selection count
    (parChunks 16384 (List.range groups))
  have apart := @Selection.flatMap_truncate_nodup _ cmp selection count _ distinct
  rw [parts] at subset
  refine @take_sortUnstableBy _ cmp isTrans lawful _ _ List.nodup_range
    (selection.truncate_nodup count apart) _
    (List.Subset.trans (selection.truncate_subset count _) subset) fun item early => ?_
  have member : item ∈ List.range groups := sorted.subset (List.mem_of_mem_take early)
  refine selection.mem_truncate increasing positive apart
    (List.Subset.trans subset sorted.symm.subset) early ?_
  refine selection.mem_flatMap_truncate increasing positive distinct ?_ early ?_
  · rw [parts]
    exact sorted.symm.subset
  · rw [parts]
    exact member

theorem take_indices (typed : TypedKeys cell groups order)
    (inside : ∀ key ∈ order, key.column < width) :
    (indices selection (allCells cell groups width) width groups order (some count)).take count =
      (sortUnstableBy (mkCmp (allCells cell groups width) width order)
        (List.range groups)).take count := by
  have isTrans := transCmp_mkCmp (oneKind_allCells typed inside)
  have lawful := lawfulEqCmp_mkCmp (oneKind_allCells typed inside)
  unfold indices
  split
  next isEmpty =>
    rw [List.isEmpty_iff.mp isEmpty, sortUnstableBy_nil]
  next =>
    dsimp only
    generalize mkCmp (allCells cell groups width) width order = cmp at *
    split
    next positive =>
      have sorted := sortUnstableBy_perm cmp (List.range groups)
      have increasing := @sortUnstableBy_pairwise _ cmp _ _ (List.range groups) List.nodup_range
      refine take_sortUnstableBy List.nodup_range
        (selection.truncate_nodup count List.nodup_range) (selection.truncate_subset count _)
        fun item early => ?_
      exact selection.mem_truncate increasing positive List.nodup_range sorted.symm.subset early
        (sorted.subset (List.mem_of_mem_take early))
    next => rfl

theorem indices_none :
    indices selection (allCells cell groups width) width groups order none =
      sortUnstableBy (mkCmp (allCells cell groups width) width order) (List.range groups) := by
  unfold indices
  split
  next isEmpty =>
    rw [List.isEmpty_iff.mp isEmpty, sortUnstableBy_nil]
  next => rfl

end

/-- With a small limit some groups are asked for. -/
theorem exists_count {order : List OrderKey} {take : Option Nat} {groups : Nat}
    (small : smallTop order take groups = true) : ∃ count, take = some count ∧ 0 < count := by
  obtain ⟨-, few⟩ := Bool.and_eq_true_iff.mp small
  obtain ⟨count, isCount, few⟩ := (Option.any_eq_true _ _).mp few
  simp only [Bool.and_eq_true, decide_eq_true_eq] at few
  exact ⟨count, isCount, few.1.1⟩

omit [FloatNumber F] in
theorem map_rowOf_range (cell : Nat → Nat → Sv F) (groups : List Nat) (width : Nat) :
    (List.range groups.length).map (rowOf (cellsOf cell groups (List.range width)) width) =
      groups.map fun group => (List.range width).map (cell group) := by
  refine List.ext_getElem? fun index => ?_
  rw [List.getElem?_map, List.getElem?_map]
  cases isGroup : groups[index]? with
  | none =>
      have beyond := List.getElem?_eq_none_iff.mp isGroup
      rw [List.getElem?_eq_none (by rwa [List.length_range])]
      rfl
  | some group =>
      have row := @rowOf_cellsOf _ cell _ (List.range width) _ _ isGroup
      rw [List.length_range] at row
      rw [List.getElem?_range (List.getElem?_eq_some_iff.mp isGroup).1, Option.map_some, row]
      rfl

/-- A comparison that orders different elements one way or the other. -/
structure IsStrictTotal {α : Type} (cmp : α → α → Ordering) : Prop where
  eq_iff : ∀ first second, cmp first second = .eq ↔ first = second
  swap : ∀ first second, cmp second first = (cmp first second).swap
  trans : ∀ first second third, cmp first second = .lt → cmp second third = .lt →
    cmp first third = .lt

/-- The returned rows are a slice of all groups in order, and the order is total. -/
theorem resultRows_eq (selection : Selection Nat) (cell : Nat → Nat → Sv F) (groups width : Nat)
    (order : List OrderKey) (limit offset : Option Nat) (bounded : groups ≤ usizeMax)
    (inside : ∀ key ∈ order, key.column < width) (typed : TypedKeys cell groups order) :
    resultRows selection cell groups width order limit offset =
        (slice limit offset (sortUnstableBy (mkCmp (allCells cell groups width) width order)
          (List.range groups))).map (fun group => (List.range width).map (cell group)) ∧
      IsStrictTotal (mkCmp (allCells cell groups width) width order) := by
  have isTrans := transCmp_mkCmp (oneKind_allCells typed inside)
  have lawful := lawfulEqCmp_mkCmp (oneKind_allCells typed inside)
  refine ⟨?_, fun _ _ => Std.LawfulEqCmp.compare_eq_iff_eq, fun _ _ => isTrans.eq_swap,
    fun _ _ _ => Std.TransCmp.lt_trans⟩
  have sorted := sortUnstableBy_perm (mkCmp (allCells cell groups width) width order)
    (List.range groups)
  have length : (sortUnstableBy (mkCmp (allCells cell groups width) width order)
      (List.range groups)).length ≤ usizeMax := by
    rw [sorted.length_eq, List.length_range]
    exact bounded
  rw [resultRows]
  dsimp only
  cases small : smallTop order (takeOf limit offset) groups with
  | true =>
      obtain ⟨count, isCount, positive⟩ := exists_count small
      have unlimited : takeOf limit offset = none →
          candidates selection cell groups order ((takeOf limit offset).getD 0) =
            sortUnstableBy (mkCmp (allCells cell groups width) width order) (List.range groups) :=
        fun none => by
          rw [isCount] at none
          cases none
      have limited : ∀ count ∈ takeOf limit offset,
          (candidates selection cell groups order ((takeOf limit offset).getD 0)).take count =
            (sortUnstableBy (mkCmp (allCells cell groups width) width order)
              (List.range groups)).take count := by
        intro count' isCount'
        cases isCount.symm.trans isCount'
        rw [isCount, Option.getD_some, take_candidates selection typed positive]
        have isTrans' := transCmp_mkCmp (oneKind_keyCells typed)
        have lawful' := lawfulEqCmp_mkCmp (oneKind_keyCells typed)
        have same : sortUnstableBy (mkCmp (keyCells cell groups order) order.length (keyOrder order))
            (List.range groups) =
            sortUnstableBy (mkCmp (allCells cell groups width) width order) (List.range groups) :=
          sortUnstableBy_congr List.nodup_range fun first isFirst second isSecond =>
            mkCmp_keyCells inside (List.mem_range.mp isFirst) (List.mem_range.mp isSecond)
        rw [same]
      rw [if_pos rfl, ← slice_eq length unlimited limited, List.map_drop, List.map_take,
        List.map_drop, List.map_take]
      dsimp only
      rw [List.length_range, map_rowOf_range]
  | false =>
      have unlimited : takeOf limit offset = none →
          indices selection (allCells cell groups width) width groups order (takeOf limit offset) =
            sortUnstableBy (mkCmp (allCells cell groups width) width order) (List.range groups) :=
        fun none => by rw [none, indices_none]
      have limited : ∀ count ∈ takeOf limit offset,
          (indices selection (allCells cell groups width) width groups order
              (takeOf limit offset)).take count =
            (sortUnstableBy (mkCmp (allCells cell groups width) width order)
              (List.range groups)).take count := by
        intro count isCount
        have isCount : takeOf limit offset = some count := isCount
        rw [isCount, take_indices selection typed inside]
      rw [if_neg Bool.false_ne_true]
      dsimp only
      rw [show cellsOf cell (List.range groups) (List.range width) =
        allCells cell groups width from rfl, slice_eq length unlimited limited]
      refine List.map_congr_left fun group inSlice => ?_
      have inRange := sorted.subset (slice_subset inSlice)
      have row := @rowOf_cellsOf _ cell _ (List.range width) _ _
        (List.getElem?_range (List.mem_range.mp inRange))
      rwa [List.length_range] at row

/-- Counts per town, with one town unknown. -/
def towns : Nat → Nat → Sv Int
  | 0, 0 => .s "oslo"
  | 0, _ => .u 2
  | 1, 0 => .null
  | 1, _ => .u 7
  | _, 0 => .s "bern"
  | _, _ => .u 2

/-- The second page of the towns with the largest counts. -/
theorem resultRows_towns :
    resultRows .sorting towns 3 2 [⟨1, true, none⟩, ⟨0, false, some true⟩] (some 1) (some 1) =
        (slice (some 1) (some 1) (sortUnstableBy
          (mkCmp (allCells towns 3 2) 2 [⟨1, true, none⟩, ⟨0, false, some true⟩])
          (List.range 3))).map (fun group => (List.range 2).map (towns group)) ∧
      IsStrictTotal (mkCmp (allCells towns 3 2) 2 [⟨1, true, none⟩, ⟨0, false, some true⟩]) := by
  refine resultRows_eq .sorting towns 3 2 _ _ _ (by decide) (by decide) ?_
  intro key isKey
  rcases List.mem_pair.mp isKey with rfl | rfl
  · refine .inl fun group inside => ?_
    interval_cases group
    · exact .inr (.inl ⟨2, rfl⟩)
    · exact .inr (.inl ⟨7, rfl⟩)
    · exact .inr (.inl ⟨2, rfl⟩)
  · refine .inr fun group inside => ?_
    interval_cases group
    · exact .inr ⟨"oslo", rfl⟩
    · exact .inl rfl
    · exact .inr ⟨"bern", rfl⟩

end JouleDB.ColumnarExec
