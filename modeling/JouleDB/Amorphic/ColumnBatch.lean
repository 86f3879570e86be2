import JouleDB.Amorphic.Store
import JouleDB.Lib.Bytes

/-!
# Columnar batches

A bulk load arrives as typed columns.  A batch knows how many rows it has and, once it is ingested,
the id of its first row.  Its rows are the records that the row path would ingest: every column, with
null where a cell is not valid, and a field that names the table.
-/

namespace JouleDB.Amorphic

variable {Number Nested : Type}

/-- The values of a column.  Text is one byte string, cut at offsets. -/
inductive ColData (Number : Type) where
  | int (values : List Int)
  | float (values : List Number)
  | bool (values : List Bool)
  | str (offsets : List Nat) (bytes : Bytes)

/-- A column; without a list of valid rows no cell is null. -/
structure BatchColumn (Number : Type) where
  name : String
  data : ColData Number
  valid : Option (List Bool)

/-- Bytes as text, if they are valid UTF-8. -/
def fromUtf8 (bytes : Bytes) : Option String :=
  String.fromUTF8? ⟨(bytes.map fun byte => UInt8.ofNat byte.val).toArray⟩

/-- The bytes between two offsets. -/
def slice (bytes : Bytes) (start stop : Nat) : Bytes := (bytes.drop start).take (stop - start)

namespace BatchColumn

def isNull (column : BatchColumn Number) (row : Nat) : Bool :=
  column.valid.any fun valid => valid[row]? = some false

/-- The text of a row. -/
def strAt (offsets : List Nat) (bytes : Bytes) (row : Nat) : String :=
  (fromUtf8 (slice bytes (offsets.getD row 0) (offsets.getD (row + 1) 0))).getD ""

/-- The value of a row.  Rows that the column does not have are never asked for. -/
def value (column : BatchColumn Number) (row : Nat) : Value Number Nested :=
  if column.isNull row then .null
  else
    match column.data with
    | .int values => (values[row]?.map .int).getD .null
    | .float values => (values[row]?.map .float).getD .null
    | .bool values => (values[row]?.map .bool).getD .null
    | .str offsets bytes => .string (strAt offsets bytes row)

end BatchColumn

/-- A batch of rows for one table. -/
structure ColumnBatch (Number : Type) where
  tableField : String
  table : String
  firstId : RecordId
  len : Nat
  cols : List (BatchColumn Number)

namespace ColumnBatch

/-- The number of rows of a column, if it is well formed. -/
def countRows (finite : Number → Bool) (len : Nat) (column : BatchColumn Number) :
    Except String Nat :=
  match column.data with
  | .int values => .ok values.length
  | .float values =>
      if values.zipIdx.any fun entry => !finite entry.1 && !column.isNull entry.2 then
        .error ("column " ++ column.name ++ ": non-finite float")
      else .ok values.length
  | .bool values => .ok values.length
  | .str offsets bytes =>
      if offsets.length ≠ len + 1 ∨ (offsets.zip offsets.tail).any (fun pair => pair.1 > pair.2) ∨
          offsets.getLastD 0 > bytes.length then
        .error ("column " ++ column.name ++ ": bad offsets")
      else if (List.range len).any fun row => (fromUtf8 (slice bytes (offsets.getD row 0)
          (offsets.getD (row + 1) 0))).isNone then
        .error ("column " ++ column.name ++ ": invalid UTF-8")
      else .ok len

/-- Check one column. -/
def validateColumn (finite : Number → Bool) (batch : ColumnBatch Number)
    (column : BatchColumn Number) : Except String Unit := do
  let rows ← countRows finite batch.len column
  if rows ≠ batch.len ∨ column.valid.any fun valid => valid.length ≠ batch.len then
    throw ("column " ++ column.name ++ ": " ++ toString rows ++ " rows, batch has " ++
      toString batch.len)
  if column.name = batch.tableField then
    throw ("column " ++ column.name ++ " collides with the table tag")

/-- Check that every column has the rows of the batch. -/
def validate (finite : Number → Bool) (batch : ColumnBatch Number) : Except String Unit :=
  batch.cols.forM (batch.validateColumn finite)

/-- The fields of a row; the last of several columns of one name counts. -/
def fieldsAt (batch : ColumnBatch Number) (row : Nat) : Fields Number Nested :=
  batch.cols.foldl (fun fields column => fields.insert column.name (column.value row))
    ((∅ : Fields Number Nested).insert batch.tableField (.string batch.table))

/-- Rows as records with their ids. -/
def rows (batch : ColumnBatch Number) (start stop : Nat) : List (RecordId × Fields Number Nested) :=
  (List.range' start (stop - start)).map fun row => (batch.firstId + row, batch.fieldsAt row)

/-- Rows as the row path is given them. -/
def rowFields (batch : ColumnBatch Number) : List (Fields Number Nested) :=
  (List.range batch.len).map batch.fieldsAt

end ColumnBatch

end JouleDB.Amorphic
