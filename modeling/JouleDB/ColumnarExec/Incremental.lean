import JouleDB.ColumnarExec.Append

/-!
# Incremental snapshots

A snapshot shows the cells of its rows: every column is the one of its cells, and the zones are those
of the columns.  Building a snapshot shows the cells of the records, and appending adds cells.  A
batch shows the cells of its records when its columns are read by name as its records are.
-/

namespace JouleDB.ColumnarExec

open Amorphic (Value Fields BatchColumn ColumnBatch)

variable {F Nested : Type} [FloatNumber F]

/-! ## Zones -/

theorem length_of_mapM {α β : Type} {f : α → Option β} {items : List α} {results : List β}
    (mapped : items.mapM f = some results) : results.length = items.length := by
  induction items generalizing results with
  | nil =>
      cases mapped
      rfl
  | cons item items ih =>
      rw [List.mapM_cons] at mapped
      obtain ⟨first, -, mapped⟩ := Option.bind_eq_some_iff.mp mapped
      obtain ⟨rest, isRest, mapped⟩ := Option.bind_eq_some_iff.mp mapped
      cases mapped
      rw [List.length_cons, List.length_cons, ih isRest]

theorem mapM_congr {α β : Type} {f g : α → Option β} {items : List α}
    (agree : ∀ item ∈ items, f item = g item) : items.mapM f = items.mapM g := by
  induction items with
  | nil => rfl
  | cons item items ih =>
      obtain ⟨here, later⟩ := List.forall_mem_cons.mp agree
      rw [List.mapM_cons, List.mapM_cons, here, ih later]

/-- The zone of a number. -/
def zoneAt (col : Col F) (len zone : Nat) : Option (Zone F) :=
  zoneOf col (zone * zoneRows) (min ((zone + 1) * zoneRows) len)

/-- The zones in front of one and those from it on. -/
theorem zonesFrom_eq (col : Col F) {len first : Nat} (inside : first ≤ zoneCount len) :
    zonesFrom col len 0 = ((List.range' 0 first).mapM (zoneAt col len)).bind fun front =>
      (zonesFrom col len first).map fun back => front ++ back := by
  have split : List.range' 0 (zoneCount len) =
      List.range' 0 first ++ List.range' (0 + first) (zoneCount len - first) := by
    rw [List.range'_append_1, Nat.add_sub_cancel' inside]
  have all : zonesFrom col len 0 = (List.range' 0 (zoneCount len)).mapM (zoneAt col len) := rfl
  rw [all, split, List.mapM_append, Nat.zero_add]
  refine bind_congr fun front => ?_
  exact Option.map_eq_bind.symm

theorem zoneCount_mono {len more : Nat} (le : len ≤ more) : zoneCount len ≤ zoneCount more :=
  Nat.div_le_div_right (by omega)

theorem div_le_zoneCount (len : Nat) : len / zoneRows ≤ zoneCount len :=
  Nat.div_le_div_right (by unfold zoneRows; omega)

/-- The zones of all rows of a column. -/
def colZones (col : Col F) (len : Nat) : Option (List (Zone F)) :=
  if col.isNumeric then zonesFrom col len 0 else none

theorem refreshed_none (col : Col F) (len : Nat) : refreshed none col len 0 = colZones col len := by
  cases col with
  | int values nulls | float values nulls => simp [refreshed, colZones, Col.isNumeric]
  | text codes dict | other => rfl

theorem refreshed_of_numeric {col : Col F} (isNumeric : col.isNumeric = true)
    (zones : Option (List (Zone F))) (len row : Nat) :
    refreshed zones col len row =
      let known := if (zones.getD []).length < row / zoneRows then [] else zones.getD []
      let start := min known.length (row / zoneRows)
      (zonesFrom col len start).map fun made => known.take start ++ made := by
  cases col with
  | int values nulls | float values nulls => rfl
  | text codes dict | other => cases isNumeric

/-- Only the zones from a row on are made again, when those before are as they were. -/
theorem refreshed_eq {col grown : Col F} {len more : Nat} (le : len ≤ more)
    (kind : grown.isNumeric = col.isNumeric)
    (same : ∀ start stop, stop ≤ len → zoneOf grown start stop = zoneOf col start stop) :
    refreshed (colZones col len) grown more len = colZones grown more := by
  cases isNumeric : grown.isNumeric with
  | false =>
      cases grown with
      | int values nulls | float values nulls => cases isNumeric
      | text codes dict | other => rfl
  | true =>
      have front : (List.range' 0 (len / zoneRows)).mapM (zoneAt grown more) =
          (List.range' 0 (len / zoneRows)).mapM (zoneAt col len) := by
        refine mapM_congr fun zone member => ?_
        obtain ⟨-, below⟩ := List.mem_range'_1.mp member
        have inside : (zone + 1) * zoneRows ≤ len :=
          (Nat.le_div_iff_mul_le (by decide)).mp (by omega)
        rw [zoneAt, zoneAt, Nat.min_eq_left inside, Nat.min_eq_left (inside.trans le)]
        exact same _ _ inside
      have whole := zonesFrom_eq grown ((div_le_zoneCount len).trans (zoneCount_mono le))
      have before := zonesFrom_eq col (div_le_zoneCount len)
      rw [refreshed_of_numeric isNumeric, colZones, colZones, kind, ← kind, isNumeric, if_pos rfl,
        if_pos rfl]
      cases known : zonesFrom col len 0 with
      | none =>
          simp
      | some zones =>
          rw [known] at before
          obtain ⟨made, isMade, split⟩ := Option.bind_eq_some_iff.mp before.symm
          obtain ⟨back, -, rfl⟩ := Option.map_eq_some_iff.mp split
          have length : made.length = len / zoneRows := by
            rw [length_of_mapM isMade, List.length_range']
          have enough : ¬ (made ++ back).length < len / zoneRows := by
            rw [List.length_append]
            omega
          have start : min (made ++ back).length (len / zoneRows) = made.length := by
            rw [List.length_append]
            omega
          have taken : (made ++ back).take (len / zoneRows) = made := by
            rw [← length, List.take_left]
          rw [whole, front, isMade]
          simp only [Option.getD_some, if_neg enough, start, length, taken, Option.bind_some]

/-! ## Snapshots -/

/-- A snapshot of some columns shows the cells of its rows. -/
structure Shows (table : TableColumns F) (columns : List String) (len : Nat)
    (cells : String → List (Cell F)) : Prop where
  len_eq : table.len = len
  length_eq : ∀ name ∈ columns, (cells name).length = len
  cols_eq : ∀ name, table.cols[name]? = if name ∈ columns then some (colOf (cells name)) else none
  index_eq : ∀ (name : String) index codes dict, table.textIndex[name]? = some index →
    table.cols[name]? = some (.text codes dict) → index = indexOf dict
  zones_eq : ∀ name : String,
    table.zones[name]? = table.cols[name]?.bind fun col => colZones col table.len

theorem getElem?_foldl_insert {β : Type} (value : String → β) (columns : List String)
    (cols : FiniteMap String β) (name : String) :
    (columns.foldl (fun cols name => cols.insert name (value name)) cols)[name]? =
      if name ∈ columns then some (value name) else cols[name]? := by
  induction columns generalizing cols with
  | nil => rfl
  | cons column columns ih =>
      rw [List.foldl_cons, ih, Std.ExtTreeMap.getElem?_insert]
      by_cases later : name ∈ columns
      · rw [if_pos later, if_pos (List.mem_cons_of_mem _ later)]
      · rw [if_neg later]
        by_cases here : column = name
        · subst here
          rw [if_pos Std.ReflOrd.compare_self, if_pos List.mem_cons_self]
        · rw [if_neg (mt Std.LawfulEqCmp.compare_eq_iff_eq.mp here), if_neg]
          rw [List.mem_cons, not_or]
          exact ⟨fun same => here same.symm, later⟩

/-- A new snapshot shows the cells of its columns. -/
theorem shows_new {columns : List String} {len : Nat} {cells : String → List (Cell F)}
    {value : String → Col F} (length_eq : ∀ name ∈ columns, (cells name).length = len)
    (value_eq : ∀ name ∈ columns, value name = colOf (cells name)) :
    Shows (TableColumns.refreshZones
      ⟨len, columns.foldl (fun cols name => cols.insert name (value name)) ∅, ∅, ∅⟩ 0)
      columns len cells where
  len_eq := rfl
  length_eq := length_eq
  cols_eq := by
    intro name
    rw [TableColumns.refreshZones, getElem?_foldl_insert]
    split
    next member => rw [value_eq name member]
    next => exact Std.ExtTreeMap.getElem?_empty
  index_eq := by
    intro name index codes dict known
    simp [TableColumns.refreshZones] at known
  zones_eq := by
    intro name
    rw [TableColumns.refreshZones, Std.ExtTreeMap.getElem?_filterMap']
    dsimp only
    simp only [Std.ExtTreeMap.getElem?_empty, refreshed_none]

/-- The index of a text column is the one of its dictionary. -/
theorem Shows.indexFor {table : TableColumns F} {columns : List String} {len : Nat}
    {cells : String → List (Cell F)} (shows : Shows table columns len cells) {name : String}
    (member : name ∈ columns) :
    ∀ codes dict, colOf (cells name) = .text codes dict →
      table.indexFor name (colOf (cells name)) = indexOf dict := by
  intro codes dict isText
  rw [isText]
  change table.textIndex[name]?.getD (indexOf dict) = indexOf dict
  cases known : table.textIndex[name]? with
  | none => rfl
  | some index =>
      refine shows.index_eq name index codes dict known ?_
      rw [shows.cols_eq, if_pos member, isText]

theorem Shows.appendCells {table grown : TableColumns F} {columns : List String} {len count : Nat}
    {cells more : String → List (Cell F)} (shows : Shows table columns len cells)
    (length_eq : ∀ name ∈ columns, (more name).length = count)
    (fits : table.appendCells more count = some grown) :
    Shows grown columns (len + count) fun name => cells name ++ more name := by
  unfold TableColumns.appendCells at fits
  dsimp only at fits
  split at fits
  next all =>
    cases fits
    have result : ∀ name : String, (table.cols.map fun name col =>
        appendCol col (table.indexFor name col) table.len (more name))[name]? =
        if name ∈ columns then
          some (appendCol (colOf (cells name)) (table.indexFor name (colOf (cells name))) table.len
            (more name))
        else none := by
      intro name
      rw [Std.ExtTreeMap.getElem?_map, shows.cols_eq]
      split
      · rfl
      · rfl
    revert result all
    generalize (table.cols.map fun name col =>
      appendCol col (table.indexFor name col) table.len (more name)) = work
    intro all result
    -- Every column has been appended to, as the column that it was.
    have each : ∀ name ∈ columns, ∃ col index',
        appendCol (colOf (cells name)) (table.indexFor name (colOf (cells name)))
          (cells name).length (more name) = some (col, index') ∧
        work[name]? = some (some (col, index')) := by
      intro name member
      have here := result name
      rw [if_pos member] at here
      have inList := Std.ExtTreeMap.mem_toList_iff_getElem?_eq_some.mpr here
      obtain ⟨⟨col, index'⟩, isResult⟩ :=
        Option.isSome_iff_exists.mp (List.all_eq_true.mp all _ inList)
      have appended : appendCol (colOf (cells name)) (table.indexFor name (colOf (cells name)))
          table.len (more name) = some (col, index') := isResult
      rw [appended] at here
      refine ⟨col, index', ?_, here⟩
      rw [shows.length_eq name member, ← shows.len_eq]
      exact appended
    constructor
    case len_eq => exact congrArg (fun len => len + count) shows.len_eq
    case length_eq =>
      intro name member
      rw [List.length_append, shows.length_eq name member, length_eq name member]
    case cols_eq =>
      intro name
      rw [TableColumns.refreshZones, Std.ExtTreeMap.getElem?_filterMap']
      split
      next member =>
        obtain ⟨col, index', appended, here⟩ := each name member
        obtain ⟨isCol, -⟩ := appendCol_colOf (shows.indexFor member) appended
        rw [here, ← isCol]
        rfl
      next absent =>
        rw [result, if_neg absent]
        rfl
    case index_eq =>
      intro name index codes dict known isText
      rw [TableColumns.refreshZones, Std.ExtTreeMap.getElem?_filterMap'] at known isText
      by_cases member : name ∈ columns
      · obtain ⟨col, index', appended, here⟩ := each name member
        obtain ⟨-, isIndex⟩ := appendCol_colOf (shows.indexFor member) appended
        rw [here] at known isText
        exact isIndex index known codes dict (Option.some.inj isText)
      · rw [result, if_neg member] at known
        cases known
    case zones_eq =>
      intro name
      rw [TableColumns.refreshZones, Std.ExtTreeMap.getElem?_filterMap']
      dsimp only
      rw [Std.ExtTreeMap.getElem?_filterMap']
      by_cases member : name ∈ columns
      · obtain ⟨col, index', appended, here⟩ := each name member
        have zones := shows.zones_eq name
        rw [shows.cols_eq, if_pos member, Option.bind_some] at zones
        have inside : ∀ start stop, stop ≤ table.len →
            zoneOf col start stop = zoneOf (colOf (cells name)) start stop := by
          intro start stop within
          rw [shows.len_eq, ← shows.length_eq name member] at within
          exact zoneOf_append within (shows.indexFor member) appended
        rw [here, Option.bind_some, Option.map_some, Option.bind_some, Option.bind_some, zones]
        exact refreshed_eq (Nat.le_add_right _ _) (isNumeric_appendCol appended) inside
      · rw [result, if_neg member]
        rfl
  next => cases fits

theorem Shows.agree {table other : TableColumns F} {columns : List String} {len : Nat}
    {cells : String → List (Cell F)} (shows : Shows table columns len cells)
    (shows' : Shows other columns len cells) :
    table.len = other.len ∧ table.cols = other.cols ∧ table.zones = other.zones := by
  have len := shows.len_eq.trans shows'.len_eq.symm
  have cols : table.cols = other.cols := by
    refine Std.ExtTreeMap.ext_getElem? fun name => ?_
    rw [shows.cols_eq, shows'.cols_eq]
  refine ⟨len, cols, Std.ExtTreeMap.ext_getElem? fun name => ?_⟩
  rw [shows.zones_eq, shows'.zones_eq, cols, len]

end JouleDB.ColumnarExec
