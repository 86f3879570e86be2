import JouleDB.Amorphic.ColumnBatch
import JouleDB.ColumnarExec.Number

/-!
# Columnar snapshots of tables

The values of a table are kept as typed columns beside its records.  A column is typed when the
snapshot is built; committed records are appended as long as their values fit.  Numeric columns have
the bounds of their values for every zone of rows.
-/

namespace JouleDB.ColumnarExec

open Amorphic (Value Fields BatchColumn ColumnBatch)

variable {F Nested : Type} [FloatNumber F]

/-- A typed column.  Without flags for nulls there are none; text is given by codes into a
dictionary. -/
inductive Col (F : Type) where
  | int (values : List Int) (nulls : List Bool)
  | float (values : List F) (nulls : List Bool)
  | text (codes : List Nat) (dict : List String)
  | other
  deriving DecidableEq

/-- The code of a null. -/
def nullCode : Nat := 2 ^ 32 - 1

/-- The flag of a row. -/
def nl (nulls : List Bool) (row : Nat) : Bool := nulls.getD row false

/-- Rows per zone. -/
def zoneRows : Nat := 8192

/-- The bounds of the values in a zone; there are none when all rows are null. -/
structure Zone (F : Type) where
  lo : Option (Num F)
  hi : Option (Num F)
  nulls : Nat
  deriving DecidableEq

/-- The values of the rows that are not null. -/
def presentValues {α : Type} (values : List α) (nulls : List Bool) (start stop : Nat) : List α :=
  (List.range' start (stop - start)).filterMap fun row =>
    if nl nulls row then none else values[row]?

/-- The number of nulls. -/
def nullCount (nulls : List Bool) (start stop : Nat) : Nat :=
  ((List.range' start (stop - start)).filter (nl nulls)).length

/-- The zone of some rows.  Numbers that are not ordered leave a column without zones. -/
def zoneOf (col : Col F) (start stop : Nat) : Option (Zone F) :=
  match col with
  | .int values nulls =>
      let present := presentValues values nulls start stop
      let bound := fun value => if present.isEmpty then none else some (Num.i value)
      some ⟨bound (present.foldl min i64Max), bound (present.foldl max i64Min),
        nullCount nulls start stop⟩
  | .float values nulls =>
      let present := presentValues values nulls start stop
      let bound := fun value => if present.isEmpty then none else some (Num.f value)
      if present.any FloatNumber.isNan then none
      else
        some ⟨bound (present.foldl FloatNumber.fmin FloatNumber.infinity),
          bound (present.foldl FloatNumber.fmax FloatNumber.negInfinity),
          nullCount nulls start stop⟩
  | .text _ _ | .other => none

/-- The codes of the texts of a dictionary. -/
abbrev TextIndex := FiniteMap String Nat

structure TableColumns (F : Type) where
  len : Nat
  cols : FiniteMap String (Col F)
  textIndex : FiniteMap String TextIndex
  zones : FiniteMap String (List (Zone F))

/-- The number of zones of some rows. -/
def zoneCount (len : Nat) : Nat := (len + zoneRows - 1) / zoneRows

/-- The zones of a column from a zone on. -/
def zonesFrom (col : Col F) (len start : Nat) : Option (List (Zone F)) :=
  (List.range' start (zoneCount len - start)).mapM fun zone =>
    zoneOf col (zone * zoneRows) (min ((zone + 1) * zoneRows) len)

/-- The zones of a column when those from a row on are made again. -/
def refreshed (zones : Option (List (Zone F))) (col : Col F) (len from' : Nat) :
    Option (List (Zone F)) :=
  match col with
  | .int _ _ | .float _ _ =>
      let first := from' / zoneRows
      let known := zones.getD []
      let known := if known.length < first then [] else known
      let start := min known.length first
      (zonesFrom col len start).map fun made => known.take start ++ made
  | .text _ _ | .other => none

/-- The fields of a record that a snapshot reads. -/
inductive Cell (F : Type) where
  | null
  | i (value : Int)
  | f (value : F)
  | s (value : String)
  | b
  deriving DecidableEq

/-- The cell of a record. -/
def recordCell (name : String) (fields : Fields F Nested) : Cell F :=
  match fields[name]? with
  | none | some .null => .null
  | some (.int value) => .i value
  | some (.float value) => .f value
  | some (.string value) => .s value
  | some _ => .b

/-- The cell of a row of a batch. -/
def cell (column : Option (BatchColumn F)) (row : Nat) : Cell F :=
  match column with
  | none => .null
  | some column =>
      if column.isNull row then .null
      else
        match column.data with
        | .int values => .i (values.getD row 0)
        | .float values => .f (values.getD row FloatNumber.zero)
        | .bool _ => .b
        | .str offsets bytes => .s (BatchColumn.strAt offsets bytes row)

/-- The codes of texts with their dictionary and its index. -/
structure TextState where
  codes : List Nat
  dict : List String
  index : TextIndex

/-- The code of one more text. -/
def TextState.push (state : TextState) (value : String) : TextState :=
  match state.index[value]? with
  | some code => { state with codes := state.codes ++ [code] }
  | none =>
      let code := state.dict.length % 2 ^ 32
      ⟨state.codes ++ [code], state.dict ++ [value], state.index.insert value code⟩

def TextState.pushNull (state : TextState) : TextState :=
  { state with codes := state.codes ++ [nullCode] }

/-- Encode a cell; what is no text is a null. -/
def TextState.encode (state : TextState) : Cell F → TextState
  | .s value => state.push value
  | _ => state.pushNull

/-- Flags are kept when one is set. -/
def keepFlags (nulls : List Bool) : List Bool := if nulls.any id then nulls else []

def intValue : Cell F → Int
  | .i value => value
  | _ => 0

def floatValue : Cell F → F
  | .f value => value
  | .i value => FloatNumber.ofInt value
  | _ => FloatNumber.zero

def Cell.isInt : Cell F → Bool
  | .i _ => true
  | _ => false

def Cell.isFloat : Cell F → Bool
  | .f _ => true
  | _ => false

def Cell.isText : Cell F → Bool
  | .s _ => true
  | _ => false

def Cell.isOther : Cell F → Bool
  | .b => true
  | _ => false

/-- The column of some cells, typed by all of them. -/
def colOf (cells : List (Cell F)) : Col F :=
  let ints := cells.countP Cell.isInt
  let floats := cells.countP Cell.isFloat
  let texts := cells.countP Cell.isText
  let other := cells.any Cell.isOther
  if other || (0 < texts && 0 < ints + floats) then .other
  else if 0 < texts then
    let state := cells.foldl TextState.encode ⟨[], [], ∅⟩
    .text state.codes state.dict
  else if 0 < floats then
    .float (cells.map floatValue) (keepFlags (cells.map fun cell => !(cell.isFloat || cell.isInt)))
  else .int (cells.map intValue) (keepFlags (cells.map fun cell => !cell.isInt))

namespace TableColumns

/-- Make the zones again from the one of a row on. -/
def refreshZones (table : TableColumns F) (from' : Nat) : TableColumns F :=
  { table with zones := table.cols.filterMap fun name col =>
      refreshed table.zones[name]? col table.len from' }

/-- A snapshot of some records. -/
def build (columns : List String) (records : List (Fields F Nested)) : TableColumns F :=
  let cols := columns.foldl
    (fun cols name => cols.insert name (colOf (records.map (recordCell name)))) ∅
  refreshZones ⟨records.length, cols, ∅, ∅⟩ 0

end TableColumns

/-- Append values to a numeric column.  The flags are made when the first null comes. -/
def appendValues {α : Type} (read : Cell F → Option α) (zero : α) :
    List α → List Bool → Nat → List (Cell F) → Option (List α × List Bool)
  | values, nulls, _, [] => some (values, nulls)
  | values, nulls, row, .null :: cells =>
      let nulls := if nulls.isEmpty then List.replicate row false else nulls
      appendValues read zero (values ++ [zero]) (nulls ++ [true]) (row + 1) cells
  | values, nulls, row, cell :: cells =>
      match read cell with
      | some value =>
          let nulls := if nulls.isEmpty then nulls else nulls ++ [false]
          appendValues read zero (values ++ [value]) nulls (row + 1) cells
      | none => none

/-- Append texts to a text column. -/
def appendTexts : TextState → List (Cell F) → Option TextState
  | state, [] => some state
  | state, .s value :: cells => appendTexts (state.push value) cells
  | state, .null :: cells => appendTexts state.pushNull cells
  | _, _ => none

/-- The value of a cell for a column of integers. -/
def readInt : Cell F → Option Int
  | .i value => some value
  | _ => none

/-- The value of a cell for a column of floating-point numbers. -/
def readFloat : Cell F → Option F
  | .f value => some value
  | .i value => some (FloatNumber.ofInt value)
  | _ => none

/-- Append cells to a column, with the index of its dictionary.  A column whose cells do not fit is
dropped with the whole snapshot. -/
def appendCol (col : Col F) (index : TextIndex) (old : Nat) (cells : List (Cell F)) :
    Option (Col F × Option TextIndex) :=
  match col with
  | .int values nulls =>
      (appendValues readInt 0 values nulls old cells).map fun grown => (.int grown.1 grown.2, none)
  | .float values nulls =>
      (appendValues readFloat FloatNumber.zero values nulls old cells).map fun grown =>
        (.float grown.1 grown.2, none)
  | .text codes dict =>
      (appendTexts ⟨codes, dict, index⟩ cells).map fun grown =>
        (.text grown.codes grown.dict, some grown.index)
  | .other => some (.other, none)

/-- The index of a dictionary. -/
def indexOf (dict : List String) : TextIndex :=
  dict.zipIdx.foldl (fun index entry => index.insert entry.1 (entry.2 % 2 ^ 32)) ∅

namespace TableColumns

/-- The index of a column, made anew when it is not known. -/
def indexFor (table : TableColumns F) (name : String) : Col F → TextIndex
  | .text _ dict => table.textIndex[name]?.getD (indexOf dict)
  | _ => ∅

/-- Append the cells of some rows to every column. -/
def appendCells (table : TableColumns F) (cells : String → List (Cell F)) (count : Nat) :
    Option (TableColumns F) :=
  let work := table.cols.map fun name col =>
    appendCol col (table.indexFor name col) table.len (cells name)
  if work.toList.all fun entry => entry.2.isSome then
    let grown : TableColumns F :=
      { len := table.len + count
        cols := work.filterMap fun _ result => result.map Prod.fst
        textIndex := work.filterMap fun _ result => result.bind Prod.snd
        zones := table.zones }
    some (grown.refreshZones table.len)
  else none

/-- Append committed records. -/
def append (table : TableColumns F) (records : List (Fields F Nested)) : Option (TableColumns F) :=
  table.appendCells (fun name => records.map (recordCell name)) records.length

/-- The first column of a name. -/
def columnOf (batch : ColumnBatch F) (name : String) : Option (BatchColumn F) :=
  batch.cols.find? fun column => column.name = name

/-- Append a committed batch. -/
def appendBatch (table : TableColumns F) (batch : ColumnBatch F) : Option (TableColumns F) :=
  table.appendCells (fun name => (List.range batch.len).map (cell (columnOf batch name))) batch.len

/-- The flags of a column of a batch. -/
def nullsOf (column : BatchColumn F) : List Bool :=
  match column.valid with
  | some valid => if valid.any not then valid.map not else []
  | none => []

/-- The typed column of a column of a batch. -/
def batchCol (column : Option (BatchColumn F)) (len : Nat) : Col F :=
  match column with
  | some column =>
      if (List.range len).any fun row => !column.isNull row then
        match column.data with
        | .int values =>
            .int ((List.range len).map fun row => if column.isNull row then 0 else values.getD row 0)
              (nullsOf column)
        | .float values =>
            .float ((List.range len).map fun row =>
              if column.isNull row then FloatNumber.zero else values.getD row FloatNumber.zero)
              (nullsOf column)
        | .bool _ => .other
        | .str offsets bytes =>
            let state := (List.range len).foldl
              (fun (state : TextState) row =>
                if column.isNull row then state.pushNull
                else state.push (BatchColumn.strAt offsets bytes row))
              ⟨[], [], ∅⟩
            .text state.codes state.dict
      else .int (List.replicate len 0) (List.replicate len true)
  | none => .int (List.replicate len 0) (List.replicate len true)

/-- A snapshot of a table whose only rows are those of a batch. -/
def fromBatch (columns : List String) (batch : ColumnBatch F) : TableColumns F :=
  let cols := columns.foldl
    (fun cols name => cols.insert name (batchCol (columnOf batch name) batch.len)) ∅
  refreshZones ⟨batch.len, cols, ∅, ∅⟩ 0

end TableColumns

end JouleDB.ColumnarExec
