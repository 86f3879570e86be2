import JouleDB.ColumnarExec.Incremental

/-!
# Snapshots of batches

A snapshot grows by committed records and by committed batches.  It is the one built from all records
when every batch is read as its records are: the first column of a listed name has the cells of the
records.  The records have the last column of a name, and the table in the field of the table tag.
-/

namespace JouleDB.ColumnarExec

open Amorphic (Value Fields BatchColumn ColumnBatch)

variable {F Nested : Type} [FloatNumber F]

/-! ## Columns of batches -/

/-- The flags of validity of a column, when there are some, are those of the rows. -/
def FlagsFit (len : Nat) (column : BatchColumn F) : Prop :=
  ∀ valid, column.valid = some valid → valid.length = len

theorem cell_some (column : BatchColumn F) (row : Nat) :
    cell (some column) row =
      if column.isNull row then .null
      else
        match column.data with
        | .int values => .i (values.getD row 0)
        | .float values => .f (values.getD row FloatNumber.zero)
        | .bool _ => .b
        | .str offsets bytes => .s (BatchColumn.strAt offsets bytes row) := rfl

theorem cell_isNull (column : BatchColumn F) (row : Nat) :
    (cell (some column) row).isNull = column.isNull row := by
  rw [cell_some]
  cases column.isNull row with
  | true => rfl
  | false =>
      rw [if_neg Bool.false_ne_true]
      cases column.data <;> rfl

omit [FloatNumber F] in
theorem nullsOf_eq {len : Nat} {column : BatchColumn F} (flagsFit : FlagsFit len column) :
    TableColumns.nullsOf column = keepFlags ((List.range len).map column.isNull) := by
  unfold TableColumns.nullsOf
  cases isValid : column.valid with
  | none =>
      have unset : (List.range len).map column.isNull = List.replicate len false := by
        refine List.eq_replicate_iff.mpr ⟨by simp, fun flag member => ?_⟩
        obtain ⟨row, -, rfl⟩ := List.mem_map.mp member
        rw [BatchColumn.isNull, isValid]
        rfl
      rw [unset, keepFlags_of_not_any]
      simp
  | some valid =>
      have flags : (List.range len).map column.isNull = valid.map not := by
        refine List.ext_getElem (by simp [flagsFit valid isValid]) fun row inside inside' => ?_
        have below : row < valid.length := by simpa using inside'
        rw [List.getElem_map, List.getElem_map, List.getElem_range, BatchColumn.isNull, isValid,
          Option.any_some, List.getElem?_eq_getElem below]
        cases valid[row] <;> rfl
      rw [flags]
      unfold keepFlags
      rw [List.any_map]
      rfl

theorem colOf_of_null {len : Nat} {cells : Nat → Cell F} (null : ∀ row < len, cells row = .null) :
    colOf ((List.range len).map cells) = .int (List.replicate len 0) (List.replicate len true) := by
  have same : (List.range len).map cells = List.replicate len .null := by
    refine List.eq_replicate_iff.mpr ⟨by simp, fun entry member => ?_⟩
    obtain ⟨row, isRow, rfl⟩ := List.mem_map.mp member
    exact null row (List.mem_range.mp isRow)
  have fits : ∀ entry ∈ List.replicate len (Cell.null : Cell F), entry.fitsInt = true := by
    intro entry member
    rw [List.eq_of_mem_replicate member]
    rfl
  rw [same, colOf_of_fitsInt fits, List.map_replicate, List.map_replicate]
  cases len with
  | zero => rfl
  | succ len =>
      rw [keepFlags_of_any]
      · rfl
      · simp

/-- The column of a batch is the one of its cells. -/
theorem batchCol_eq {len : Nat} {column : Option (BatchColumn F)}
    (flagsFit : ∀ known ∈ column, FlagsFit len known) :
    TableColumns.batchCol column len = colOf ((List.range len).map (cell column)) := by
  cases column with
  | none => exact (colOf_of_null fun _ _ => rfl).symm
  | some column =>
      unfold TableColumns.batchCol
      dsimp only
      split
      next any =>
        obtain ⟨present, isRow, isPresent⟩ := List.any_eq_true.mp any
        have notNull : column.isNull present = false := by simpa using isPresent
        have flags : ((List.range len).map (cell (some column))).map Cell.isNull =
            (List.range len).map column.isNull := by
          rw [List.map_map]
          exact List.map_congr_left fun row _ => cell_isNull column row
        have shape := cell_some column
        have member : cell (some column) present ∈ (List.range len).map (cell (some column)) :=
          List.mem_map_of_mem isRow
        cases isData : column.data with
        | int values =>
            rw [isData] at shape
            dsimp only
            rw [colOf_of_fitsInt, flags, nullsOf_eq (flagsFit column rfl), List.map_map]
            · refine congrArg (fun values => Col.int values _) (List.map_congr_left fun row _ => ?_)
              rw [Function.comp_apply, shape]
              cases column.isNull row <;> rfl
            · intro entry isEntry
              obtain ⟨row, -, rfl⟩ := List.mem_map.mp isEntry
              rw [shape]
              cases column.isNull row <;> rfl
        | float values =>
            rw [isData] at shape
            dsimp only
            rw [colOf_of_fitsFloat, flags, nullsOf_eq (flagsFit column rfl), List.map_map]
            · refine congrArg (fun values => Col.float values _) (List.map_congr_left fun row _ => ?_)
              rw [Function.comp_apply, shape]
              cases column.isNull row <;> rfl
            · intro entry isEntry
              obtain ⟨row, -, rfl⟩ := List.mem_map.mp isEntry
              rw [shape]
              cases column.isNull row <;> rfl
            · refine ⟨_, member, ?_⟩
              rw [shape, notNull]
              rfl
        | bool values =>
            rw [isData] at shape
            refine (colOf_of_mixed (.inl ⟨_, member, ?_⟩)).symm
            rw [shape, notNull]
            rfl
        | str offsets bytes =>
            rw [isData] at shape
            dsimp only
            have codes : (List.range len).foldl (fun (state : TextState) row =>
                  if column.isNull row then state.pushNull
                  else state.push (BatchColumn.strAt offsets bytes row)) ⟨[], [], ∅⟩ =
                ((List.range len).map (cell (some column))).foldl TextState.encode ⟨[], [], ∅⟩ := by
              rw [List.foldl_map]
              congr 1
              funext state row
              rw [shape]
              cases column.isNull row <;> rfl
            rw [codes, colOf_of_fitsText]
            · intro entry isEntry
              obtain ⟨row, -, rfl⟩ := List.mem_map.mp isEntry
              rw [shape]
              cases column.isNull row <;> rfl
            · refine ⟨_, member, ?_⟩
              rw [shape, notNull]
              rfl
      next none =>
        refine (colOf_of_null fun row below => ?_).symm
        have isNull : column.isNull row = true := by
          by_contra isPresent
          refine none (List.any_eq_true.mpr ⟨row, List.mem_range.mpr below, ?_⟩)
          simpa using isPresent
        unfold cell
        dsimp only
        rw [if_pos isNull]

/-! ## Batches that are read as their records -/

/-- Every listed column has the cells of the records. -/
def Reads (Nested : Type) (columns : List String) (batch : ColumnBatch F) : Prop :=
  ∀ name ∈ columns, ∀ row < batch.len,
    cell (TableColumns.columnOf batch name) row =
      recordCell name (batch.fieldsAt row : Fields F Nested)

omit [FloatNumber F] in
theorem forM_eq_ok {α ε : Type} {check : α → Except ε Unit} {items : List α}
    (passed : items.forM check = .ok ()) : ∀ item ∈ items, check item = .ok () := by
  induction items with
  | nil => exact fun _ none => (List.not_mem_nil none).elim
  | cons item items ih =>
      change (check item >>= fun _ => items.forM check) = .ok () at passed
      cases here : check item with
      | error error =>
          rw [here] at passed
          cases passed
      | ok =>
          rw [here] at passed
          exact List.forall_mem_cons.mpr ⟨here, ih passed⟩

/-- The values of a column are those of the rows. -/
def DataFits (len : Nat) (column : BatchColumn F) : Prop :=
  match column.data with
  | .int values => values.length = len
  | .float values => values.length = len
  | .bool values => values.length = len
  | .str _ _ => True

omit [FloatNumber F] in
theorem dataFits_of_countRows {finite : F → Bool} {len : Nat} {column : BatchColumn F}
    (counted : ColumnBatch.countRows finite len column = .ok len) : DataFits len column := by
  revert counted
  unfold ColumnBatch.countRows DataFits
  cases column.data with
  | int values => exact Except.ok.inj
  | float values =>
      intro counted
      dsimp only at counted
      split at counted
      next => cases counted
      next => exact Except.ok.inj counted
  | bool values => exact Except.ok.inj
  | str offsets bytes => exact fun _ => trivial

omit [FloatNumber F] in
/-- The columns of a batch that passed its check have its rows and not the name of the tag. -/
theorem fit_of_validate {finite : F → Bool} {batch : ColumnBatch F} {column : BatchColumn F}
    (valid : batch.validate finite = .ok ()) (member : column ∈ batch.cols) :
    FlagsFit batch.len column ∧ DataFits batch.len column ∧ column.name ≠ batch.tableField := by
  have passed := forM_eq_ok valid column member
  unfold ColumnBatch.validateColumn at passed
  cases counted : ColumnBatch.countRows finite batch.len column with
  | error error =>
      rw [counted] at passed
      cases passed
  | ok rows =>
      rw [counted] at passed
      simp only [Except.bind, bind, pure] at passed
      split at passed
      next => cases passed
      next fits =>
        split at passed
        next => cases passed
        next other =>
          obtain ⟨sameRows, sameFlags⟩ := not_or.mp fits
          refine ⟨fun flags isFlags => ?_, ?_, other⟩
          · rw [isFlags] at sameFlags
            simpa using sameFlags
          · rw [not_not.mp sameRows] at counted
            exact dataFits_of_countRows counted

omit [FloatNumber F] in
theorem flagsFit_of_validate {finite : F → Bool} {batch : ColumnBatch F}
    (valid : batch.validate finite = .ok ()) (name : String) :
    ∀ column ∈ TableColumns.columnOf batch name, FlagsFit batch.len column := by
  intro column isColumn
  exact (fit_of_validate valid (List.mem_of_find?_eq_some isColumn)).1

/-- A row of a column and of its records is the same cell. -/
theorem cell_eq_recordCell {len row : Nat} {column : BatchColumn F} (fits : DataFits len column)
    (inside : row < len) {fields : Fields F Nested} {name : String}
    (isValue : fields[name]? = some (column.value row)) :
    cell (some column) row = recordCell name fields := by
  rw [recordCell, isValue]
  unfold cell BatchColumn.value
  dsimp only
  cases column.isNull row with
  | true => rfl
  | false =>
      rw [if_neg Bool.false_ne_true, if_neg Bool.false_ne_true]
      unfold DataFits at fits
      cases isData : column.data with
      | int values | float values | bool values =>
          rw [isData] at fits
          subst fits
          simp [inside]
      | str offsets bytes => rfl

omit [FloatNumber F] in
/-- With different names, the first column of a name is the only one. -/
theorem getElem?_foldl_columns {cols : List (BatchColumn F)} (fields : Fields F Nested)
    (distinct : (cols.map BatchColumn.name).Nodup) (row : Nat) (name : String) :
    (cols.foldl (fun fields column => fields.insert column.name (column.value row)) fields)[name]? =
      match cols.find? fun column => column.name = name with
      | some column => some (column.value row)
      | none => fields[name]? := by
  induction cols generalizing fields with
  | nil => rfl
  | cons column cols ih =>
      rw [List.map_cons, List.nodup_cons] at distinct
      rw [List.foldl_cons, ih _ distinct.2, Std.ExtTreeMap.getElem?_insert]
      by_cases here : column.name = name
      · subst here
        have absent : cols.find? (fun other => other.name = column.name) = none := by
          rw [List.find?_eq_none]
          intro other member same
          exact distinct.1 (List.mem_map.mpr ⟨other, member, of_decide_eq_true same⟩)
        have found : (column :: cols).find? (fun other => other.name = column.name) = some column :=
          List.find?_cons_of_pos (decide_eq_true rfl)
        rw [absent, found]
        exact if_pos Std.ReflOrd.compare_self
      · rw [List.find?_cons_of_neg (by simpa using here),
          if_neg (mt Std.LawfulEqCmp.compare_eq_iff_eq.mp here)]

/-- A batch whose columns have different names is read as its records, when the tag is no listed
name. -/
theorem reads_of_nodup {finite : F → Bool} {columns : List String} {batch : ColumnBatch F}
    (valid : batch.validate finite = .ok ()) (distinct : (batch.cols.map BatchColumn.name).Nodup)
    (noTag : batch.tableField ∉ columns) : Reads Nested columns batch := by
  intro name listed row inside
  have noName : batch.tableField ≠ name := fun same => noTag (same ▸ listed)
  have start : ((∅ : Fields F Nested).insert batch.tableField (.string batch.table))[name]? =
      none := by
    rw [Std.ExtTreeMap.getElem?_insert, if_neg (mt Std.LawfulEqCmp.compare_eq_iff_eq.mp noName)]
    exact Std.ExtTreeMap.getElem?_empty
  have known := getElem?_foldl_columns
    ((∅ : Fields F Nested).insert batch.tableField (.string batch.table)) distinct row name
  unfold TableColumns.columnOf
  cases isColumn : batch.cols.find? fun column => column.name = name with
  | none =>
      rw [isColumn, start] at known
      have absent : (batch.fieldsAt row : Fields F Nested)[name]? = none := known
      rw [recordCell, absent]
      rfl
  | some column =>
      rw [isColumn] at known
      obtain ⟨-, fits, -⟩ := fit_of_validate valid (List.mem_of_find?_eq_some isColumn)
      exact cell_eq_recordCell fits inside known

/-! ## Growing snapshots -/

/-- What a snapshot is made of: committed records or a committed batch. -/
inductive Part (F Nested : Type) where
  | records (records : List (Fields F Nested))
  | batch (batch : ColumnBatch F)

namespace Part

/-- The records of a part. -/
def rows : Part F Nested → List (Fields F Nested)
  | .records committed => committed
  | .batch loaded => loaded.rowFields

/-- A batch passes its check and is read as its records. -/
def IsRead (finite : F → Bool) (columns : List String) : Part F Nested → Prop
  | .records _ => True
  | .batch loaded => loaded.validate finite = .ok () ∧ Reads Nested columns loaded

end Part

namespace TableColumns

/-- The snapshot of a first part. -/
def start (columns : List String) : Part F Nested → TableColumns F
  | .records records => build columns records
  | .batch batch => fromBatch columns batch

/-- Append a part. -/
def extend (table : TableColumns F) : Part F Nested → Option (TableColumns F)
  | .records records => table.append records
  | .batch batch => table.appendBatch batch

/-- The snapshot of a first part to which all others could be appended. -/
def grow (columns : List String) (first : Part F Nested) (parts : List (Part F Nested)) :
    Option (TableColumns F) :=
  parts.foldlM extend (start columns first)

end TableColumns

namespace Part

/-- The number of rows of a part. -/
def count : Part F Nested → Nat
  | .records committed => committed.length
  | .batch loaded => loaded.len

/-- The cells of a column that a part adds. -/
def cells (name : String) : Part F Nested → List (Cell F)
  | .records committed => committed.map (recordCell name)
  | .batch loaded => (List.range loaded.len).map (cell (TableColumns.columnOf loaded name))

/-- A batch passes its check. -/
def Valid (finite : F → Bool) : Part F Nested → Prop
  | .records _ => True
  | .batch loaded => loaded.validate finite = .ok ()

theorem length_cells (name : String) (part : Part F Nested) :
    (part.cells name).length = part.count := by
  cases part with
  | records committed => exact List.length_map _
  | batch loaded => exact (List.length_map _).trans List.length_range

omit [FloatNumber F] in
theorem length_rows (part : Part F Nested) : part.rows.length = part.count := by
  cases part with
  | records committed => rfl
  | batch loaded => exact (List.length_map _).trans List.length_range

/-- The cells of a batch that is read as its records are those of the records. -/
theorem cells_eq {finite : F → Bool} {columns : List String} {part : Part F Nested}
    (isRead : part.IsRead finite columns) {name : String} (listed : name ∈ columns) :
    part.cells name = part.rows.map (recordCell name) := by
  cases part with
  | records committed => rfl
  | batch loaded =>
      unfold cells rows
      dsimp only
      rw [ColumnBatch.rowFields, List.map_map]
      exact List.map_congr_left fun row isRow =>
        isRead.2 name listed row (List.mem_range.mp isRow)

end Part

/-- The snapshot of some records shows their cells. -/
theorem shows_build (columns : List String) (records : List (Fields F Nested)) :
    Shows (TableColumns.build columns records) columns records.length
      fun name => records.map (recordCell name) :=
  shows_new (fun _ _ => List.length_map _) fun _ _ => rfl

theorem shows_start {finite : F → Bool} {part : Part F Nested} (valid : part.Valid finite)
    (columns : List String) :
    Shows (TableColumns.start columns part) columns part.count part.cells := by
  cases part with
  | records committed => exact shows_build columns committed
  | batch loaded =>
      refine shows_new (fun name _ => Part.length_cells name _) fun name _ => ?_
      exact batchCol_eq (flagsFit_of_validate valid name)

/-- Appending a part shows its cells behind those that were shown. -/
theorem Shows.extend {columns : List String} {table grown : TableColumns F} {len : Nat}
    {cells : String → List (Cell F)} {part : Part F Nested} (shows : Shows table columns len cells)
    (extended : table.extend part = some grown) :
    Shows grown columns (len + part.count) fun name => cells name ++ part.cells name := by
  cases part with
  | records committed => exact shows.appendCells (fun _ _ => List.length_map _) extended
  | batch loaded =>
      exact shows.appendCells (fun name _ => Part.length_cells name (.batch loaded)) extended

/-- A snapshot that has grown shows the cells of its parts. -/
theorem shows_grow {finite : F → Bool} {columns : List String} {first : Part F Nested}
    {parts : List (Part F Nested)} {table : TableColumns F} (valid : first.Valid finite)
    (grown : TableColumns.grow columns first parts = some table) :
    Shows table columns ((first :: parts).map Part.count).sum
      fun name => (first :: parts).flatMap (Part.cells name) := by
  have shown : ∀ (parts : List (Part F Nested)) (known : TableColumns F) (len : Nat)
      (cells : String → List (Cell F)), Shows known columns len cells →
      parts.foldlM TableColumns.extend known = some table →
      Shows table columns (len + (parts.map Part.count).sum)
        fun name => cells name ++ parts.flatMap (Part.cells name) := by
    intro parts
    induction parts with
    | nil =>
        intro known len cells shows same
        cases same
        simpa using shows
    | cons part parts ih =>
        intro known len cells shows extended
        rw [List.foldlM_cons] at extended
        obtain ⟨next, isNext, others⟩ := Option.bind_eq_some_iff.mp extended
        have later := ih next _ _ (shows.extend isNext) others
        simp only [List.append_assoc, Nat.add_assoc] at later
        simpa only [List.map_cons, List.sum_cons, List.flatMap_cons] using later
  exact shown parts _ _ _ (shows_start valid columns) grown

theorem Shows.congr {table : TableColumns F} {columns : List String} {len : Nat}
    {cells cells' : String → List (Cell F)} (shows : Shows table columns len cells)
    (same : ∀ name ∈ columns, cells name = cells' name) : Shows table columns len cells' where
  len_eq := shows.len_eq
  length_eq name listed := same name listed ▸ shows.length_eq name listed
  cols_eq name := by
    rw [shows.cols_eq]
    split
    next listed => rw [same name listed]
    next => rfl
  index_eq := shows.index_eq
  zones_eq := shows.zones_eq

/-- A snapshot that has grown by parts is the one built from all their records. -/
theorem grow_eq_build (finite : F → Bool) {columns : List String} {first : Part F Nested}
    {parts : List (Part F Nested)} {table : TableColumns F}
    (isRead : ∀ part ∈ first :: parts, part.IsRead finite columns)
    (grown : TableColumns.grow columns first parts = some table) :
    let rebuilt := TableColumns.build columns ((first :: parts).flatMap Part.rows)
    table.len = rebuilt.len ∧ table.cols = rebuilt.cols ∧ table.zones = rebuilt.zones := by
  have valid : first.Valid finite := by
    have firstRead := isRead first List.mem_cons_self
    cases first with
    | records committed => trivial
    | batch loaded => exact firstRead.1
  have length : ((first :: parts).map Part.count).sum =
      ((first :: parts).flatMap Part.rows).length := by
    rw [List.length_flatMap]
    exact congrArg List.sum (List.map_congr_left fun part _ => part.length_rows.symm)
  have cells : ∀ name ∈ columns, (first :: parts).flatMap (Part.cells name) =
      ((first :: parts).flatMap Part.rows).map (recordCell name) := by
    intro name listed
    rw [List.map_flatMap]
    exact List.flatMap_congr fun part member => Part.cells_eq (isRead part member) listed
  have shows := (shows_grow valid grown).congr cells
  rw [length] at shows
  exact shows.agree (shows_build columns _)

/-- A load of towns with their counts. -/
def townsBatch : ColumnBatch Int :=
  ⟨"_table", "towns", 0, 2, [⟨"town", .str [0, 4, 4] [111, 115, 108, 111], some [true, false]⟩,
    ⟨"count", .int [2, 7], none⟩]⟩

/-- A town without a count, which is committed later. -/
def laterTown : Fields Int Unit := (∅ : Fields Int Unit).insert "town" (.string "bern")

theorem grow_townsBatch :
    ∃ table, TableColumns.grow ["town", "count"] (.batch townsBatch) [.records [laterTown]] =
        some table ∧
      let rebuilt := TableColumns.build ["town", "count"]
        ([.batch townsBatch, .records [laterTown]].flatMap Part.rows)
      table.len = rebuilt.len ∧ table.cols = rebuilt.cols ∧ table.zones = rebuilt.zones := by
  have isSome : (TableColumns.grow ["town", "count"] (.batch townsBatch)
      [.records [laterTown]]).isSome = true := by decide +kernel
  obtain ⟨table, grown⟩ := Option.isSome_iff_exists.mp isSome
  refine ⟨table, grown, grow_eq_build (fun _ => true) ?_ grown⟩
  have valid : townsBatch.validate (fun _ => true) = .ok () := by rfl
  intro part member
  rcases List.mem_pair.mp member with rfl | rfl
  · exact ⟨valid, reads_of_nodup valid (by decide) (by decide)⟩
  · trivial

/-- A batch with two columns of one name. -/
def twiceBatch : ColumnBatch Int :=
  ⟨"_table", "towns", 0, 1, [⟨"count", .int [2], none⟩, ⟨"count", .int [7], none⟩]⟩

/-- The first column of a name is read, but the records have the last one. -/
theorem not_grow_twiceBatch :
    ¬ ∀ (columns : List String) (first : Part Int Unit) (parts : List (Part Int Unit))
      (table : TableColumns Int),
      (∀ batch, .batch batch ∈ first :: parts → batch.validate (fun _ => true) = .ok ()) →
      TableColumns.grow columns first parts = some table →
      let rebuilt := TableColumns.build columns ((first :: parts).flatMap Part.rows)
      table.len = rebuilt.len ∧ table.cols = rebuilt.cols ∧ table.zones = rebuilt.zones := by
  intro always
  obtain ⟨-, cols, -⟩ := always ["count"] (.batch twiceBatch) [] _
    (fun batch member => by
      cases List.mem_singleton.mp member
      rfl) rfl
  have here := congrArg (fun cols : FiniteMap String (Col Int) => cols["count"]?) cols
  revert here
  decide +kernel

end JouleDB.ColumnarExec
