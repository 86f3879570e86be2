import JouleDB.Lib.FiniteMap
import Mathlib.Data.List.Dedup
import Mathlib.Order.Compare

/-!
# The amorphic store

Records are maps from field names to values.  Secondary indexes hold the ids of the records with a
field, with a hash of a field and its value, and with a number in a field; another index holds an id
for every name.  This module has the records and these indexes, with the operations that write them
and the queries that read them.  Holograms, similarity indexes and columnar projections are left
out: no function here reads them.

Hashing, the conversion of integers to floating-point numbers and the parsers are a parameter.
-/

namespace JouleDB.Amorphic

abbrev RecordId := Nat

/-- A value.  What arrays and objects contain is only compared and hashed. -/
inductive Value (Number Nested : Type) where
  | null
  | bool (value : Bool)
  | int (value : Int)
  | float (value : Number)
  | string (value : String)
  | array (items : Nested)
  | object (members : Nested)
  deriving DecidableEq

variable {Number Nested : Type}

/-- The fields of a record. -/
abbrev Fields (Number Nested : Type) := FiniteMap String (Value Number Nested)

/-- What JSON text holds. -/
inductive Document (Number Nested : Type) where
  | object (fields : Fields Number Nested)
  | other

/-- What the store takes from elsewhere. -/
structure Reading (Number Nested : Type) where
  /-- The hash of a field and its value. -/
  hashValue : String → Value Number Nested → Nat
  /-- An integer as a floating-point number. -/
  ofInt : Int → Number
  /-- JSON text, unless it is malformed. -/
  parseJson : String → Option (Document Number Nested)
  /-- The value of a cell of a row. -/
  parseCell : String → Value Number Nested

/-- Fields to set, in the order in which the map of updates is visited. -/
structure Updates (Number Nested : Type) where
  entries : List (String × Value Number Nested)
  distinct : (entries.map Prod.fst).Nodup

/-- Errors of the store. -/
inductive AmorphicError where
  | ingestionError (message : String)
  | jsonError
  | fieldCountExceeded (count limit : Nat)
  | recordNotFound (id : RecordId)
  deriving DecidableEq

/-- The largest number of fields that a prepared record may have. -/
def maxFieldsError : Nat := 316

/-- A record. -/
structure AmorphicRecord (Number Nested : Type) where
  id : RecordId
  fields : Fields Number Nested
  edges : List (String × RecordId)
  timestamp : Option Nat

/-- A value as a number. -/
def Value.asF64 (reading : Reading Number Nested) : Value Number Nested → Option Number
  | .float value => some value
  | .int value => some (reading.ofInt value)
  | _ => none

/-- The records and their indexes. -/
structure Primary (Number Nested : Type) [Ord Number] where
  records : FiniteMap RecordId (AmorphicRecord Number Nested)
  fieldIndex : FiniteMap String (List RecordId)
  valueIndex : FiniteMap Nat (List RecordId)
  graphIndex : FiniteMap RecordId (List (String × RecordId))
  reverseGraphIndex : FiniteMap RecordId (List (String × RecordId))
  nameToId : FiniteMap String RecordId
  numericIndex : FiniteMap String (FiniteMap Number (List RecordId))
  nextId : RecordId

instance number_transOrd [LinearOrder Number] : Std.TransOrd Number := inferInstance

section Buckets

variable {κ : Type} [Ord κ] [Std.TransOrd κ] [Std.LawfulEqOrd κ]

/-- Append to the list under a key. -/
def pushUnder {β : Type} (index : FiniteMap κ (List β)) (key : κ) (item : β) :
    FiniteMap κ (List β) :=
  index.insert key (index[key]?.getD [] ++ [item])

/-- Keep some ids of the list under a key. -/
def retainUnder (keep : RecordId → Bool) (index : FiniteMap κ (List RecordId)) (key : κ) :
    FiniteMap κ (List RecordId) :=
  index.alter key (Option.map (List.filter keep))

end Buckets

/-- The fields that hold a name. -/
def IsName (field : String) : Prop := field = "name" ∨ field = "_name"

instance (field : String) : Decidable (IsName field) := inferInstanceAs (Decidable (_ ∨ _))

namespace Primary

variable [LinearOrder Number] (reading : Reading Number Nested)

/-- An empty store. -/
def new : Primary Number Nested :=
  { records := ∅, fieldIndex := ∅, valueIndex := ∅, graphIndex := ∅, reverseGraphIndex := ∅,
    nameToId := ∅, numericIndex := ∅, nextId := 1 }

/-! ## Indexing -/

/-- Enter the name that a field holds. -/
def indexName (nameToId : FiniteMap String RecordId) (id : RecordId) (field : String)
    (value : Value Number Nested) : FiniteMap String RecordId :=
  if IsName field then
    match value with
    | .string name => nameToId.insert name id
    | _ => nameToId
  else nameToId

/-- Enter the number that a field holds. -/
def indexNumber (numericIndex : FiniteMap String (FiniteMap Number (List RecordId)))
    (id : RecordId) (field : String) (value : Value Number Nested) :
    FiniteMap String (FiniteMap Number (List RecordId)) :=
  match value.asF64 reading with
  | some number =>
      numericIndex.insert field (pushUnder (numericIndex[field]?.getD ∅) number id)
  | none => numericIndex

/-- Enter a field and its value into the indexes. -/
def indexField (id : RecordId) (primary : Primary Number Nested)
    (entry : String × Value Number Nested) : Primary Number Nested :=
  { primary with
    fieldIndex := pushUnder primary.fieldIndex entry.1 id
    valueIndex := pushUnder primary.valueIndex (reading.hashValue entry.1 entry.2) id
    nameToId := indexName primary.nameToId id entry.1 entry.2
    numericIndex := indexNumber reading primary.numericIndex id entry.1 entry.2 }

/-- Enter all fields of a record.  Every field enters the same id, so their order does not matter. -/
def indexFields (primary : Primary Number Nested) (id : RecordId) (fields : Fields Number Nested) :
    Primary Number Nested :=
  fields.toList.foldl (indexField reading id) primary

/-! ## Ingest -/

/-- Enter a record under its id. -/
def applyPreparedIngest (primary : Primary Number Nested) (id : RecordId)
    (fields : Fields Number Nested) : Primary Number Nested :=
  let primary := primary.indexFields reading id fields
  { primary with
    records := primary.records.insert id { id, fields, edges := [], timestamp := none } }

/-- Ingest the fields of a record. -/
def ingestFields (primary : Primary Number Nested) (fields : Fields Number Nested) :
    Primary Number Nested × RecordId :=
  let id := primary.nextId
  (applyPreparedIngest reading { primary with nextId := id + 1 } id fields, id)

/-- The fields of a row; the last of several columns of one name counts. -/
def rowFields (value : String → Value Number Nested) (columns values : List String) :
    Fields Number Nested :=
  (columns.zip values).foldl (fun fields cell => fields.insert cell.1 (value cell.2)) ∅

/-- The record of a name, which is created if there is none. -/
def ensureEntity (primary : Primary Number Nested) (name : String) :
    Primary Number Nested × RecordId :=
  match primary.nameToId[name]? with
  | some id => (primary, id)
  | none => primary.ingestFields reading ((∅ : Fields Number Nested).insert "name" (.string name))

/-- The fields of an edge. -/
def edgeFields (source relation target : String) : Fields Number Nested :=
  ((((∅ : Fields Number Nested).insert "_type" (.string "edge")).insert "_source"
    (.string source)).insert "_relation" (.string relation)).insert "_target" (.string target)

/-- Ingest an edge between two names.  Its record enters no index. -/
def ingestEdge (primary : Primary Number Nested) (source relation target : String) :
    Primary Number Nested × RecordId :=
  let (primary, sourceId) := primary.ensureEntity reading source
  let (primary, targetId) := primary.ensureEntity reading target
  let id := primary.nextId
  let records := primary.records.alter sourceId (Option.map fun record =>
    { record with edges := record.edges ++ [(relation, targetId)] })
  ({ primary with
    nextId := id + 1
    graphIndex := pushUnder primary.graphIndex sourceId (relation, targetId)
    reverseGraphIndex := pushUnder primary.reverseGraphIndex targetId (relation, sourceId)
    records := records.insert id
      { id, fields := edgeFields source relation target, edges := [], timestamp := none } }, id)

/-! ## Prepared ingest -/

/-- Give a record its id, unless it has too many fields. -/
def prepareFieldsIngest (primary : Primary Number Nested) (fields : Fields Number Nested) :
    Except AmorphicError (Primary Number Nested × RecordId) :=
  if fields.size > maxFieldsError then
    .error (.fieldCountExceeded fields.size maxFieldsError)
  else .ok ({ primary with nextId := primary.nextId + 1 }, primary.nextId)

/-- Prepare rows one after the other, until one has too many fields. -/
def prepareRows (primary : Primary Number Nested) :
    List (Fields Number Nested) →
    Primary Number Nested × Except AmorphicError (List (RecordId × Fields Number Nested))
  | [] => (primary, .ok [])
  | fields :: rows =>
      match primary.prepareFieldsIngest fields with
      | .error error => (primary, .error error)
      | .ok (primary, id) =>
          match primary.prepareRows rows with
          | (primary, .error error) => (primary, .error error)
          | (primary, .ok prepared) => (primary, .ok ((id, fields) :: prepared))

/-- Take consecutive ids. -/
def reserveIds (primary : Primary Number Nested) (count : Nat) :
    Primary Number Nested × RecordId :=
  ({ primary with nextId := primary.nextId + count }, primary.nextId)

/-- The field names of rows, each once. -/
def columnNames (rows : List (RecordId × Fields Number Nested)) : List String :=
  rows.foldl (fun names row => row.2.keys.foldl (fun names name =>
    if name ∈ names then names else names ++ [name]) names) []

/-- The ids of the rows that have a field. -/
def rowsWith (rows : List (RecordId × Fields Number Nested)) (field : String) : List RecordId :=
  rows.filterMap fun row => if field ∈ row.2 then some row.1 else none

/-- The numbers in a field of the rows, with the ids of the rows. -/
def numbersIn (rows : List (RecordId × Fields Number Nested)) (field : String) :
    List (Number × RecordId) :=
  rows.filterMap fun row => do
    let value ← row.2[field]?
    let number ← value.asF64 reading
    return (number, row.1)

/-- Enter rows one index at a time: the ids and numbers of each field are gathered over all rows and
appended at once, the hashes are appended row by row, and names are looked at only if some row has
such a field. -/
def applyPreparedIngestBatch (primary : Primary Number Nested)
    (rows : List (RecordId × Fields Number Nested)) : Primary Number Nested :=
  let names := columnNames rows
  { primary with
    fieldIndex := names.foldl (fun index field =>
      index.insert field (index[field]?.getD [] ++ rowsWith rows field)) primary.fieldIndex
    numericIndex := names.foldl (fun index field =>
      match numbersIn reading rows field with
      | [] => index
      | numbers => index.insert field (numbers.foldl (fun tree number =>
          pushUnder tree number.1 number.2) (index[field]?.getD ∅))) primary.numericIndex
    valueIndex := rows.foldl (fun index row => row.2.toList.foldl (fun index entry =>
      pushUnder index (reading.hashValue entry.1 entry.2) row.1) index) primary.valueIndex
    nameToId :=
      if "name" ∈ names ∨ "_name" ∈ names then
        rows.foldl (fun nameToId row => row.2.toList.foldl (fun nameToId entry =>
          indexName nameToId row.1 entry.1 entry.2) nameToId) primary.nameToId
      else primary.nameToId
    records := rows.foldl (fun records row => records.insert row.1
      { id := row.1, fields := row.2, edges := [], timestamp := none }) primary.records }

/-- Enter a record that was read back from the log. -/
def applyRecoveredRecord (primary : Primary Number Nested) (id : RecordId)
    (fields : Fields Number Nested) (edges : List (String × RecordId)) (timestamp : Option Nat) :
    Primary Number Nested :=
  let primary := { primary with nextId := if id ≥ primary.nextId then id + 1 else primary.nextId }
  let primary := primary.indexFields reading id fields
  { primary with
    graphIndex := if edges ≠ [] then primary.graphIndex.insert id edges else primary.graphIndex
    reverseGraphIndex := edges.foldl (fun index edge => pushUnder index edge.2 (edge.1, id))
      primary.reverseGraphIndex
    records := primary.records.insert id { id, fields, edges, timestamp } }

/-! ## Delete -/

/-- Keep some ids under the number that a field holds. -/
def retainNumber (keep : RecordId → Bool)
    (numericIndex : FiniteMap String (FiniteMap Number (List RecordId)))
    (entry : String × Value Number Nested) :
    FiniteMap String (FiniteMap Number (List RecordId)) :=
  match entry.2.asF64 reading with
  | some number => numericIndex.alter entry.1 (Option.map fun tree => retainUnder keep tree number)
  | none => numericIndex

/-- Forget the name that a field holds. -/
def forgetName (fields : Fields Number Nested) (nameToId : FiniteMap String RecordId)
    (field : String) : FiniteMap String RecordId :=
  match fields[field]? with
  | some (.string name) => nameToId.erase name
  | _ => nameToId

/-- Take records out of the graph. -/
def forgetEdges (gone : RecordId → Bool) (index : FiniteMap RecordId (List (String × RecordId))) :
    FiniteMap RecordId (List (String × RecordId)) :=
  (index.filter fun id _ => !gone id).map fun _ edges => edges.filter fun edge => !gone edge.2

/-- Delete a record. -/
def delete (primary : Primary Number Nested) (id : RecordId) :
    Primary Number Nested × Except AmorphicError Unit :=
  match primary.records[id]? with
  | none => (primary, .error (.recordNotFound id))
  | some record =>
      let keep : RecordId → Bool := fun other => other ≠ id
      ({ primary with
        records := primary.records.erase id
        fieldIndex := record.fields.keys.foldl (retainUnder keep) primary.fieldIndex
        valueIndex := record.fields.toList.foldl (fun index entry =>
          retainUnder keep index (reading.hashValue entry.1 entry.2)) primary.valueIndex
        numericIndex := record.fields.toList.foldl (retainNumber reading keep) primary.numericIndex
        graphIndex := forgetEdges (fun other => other = id) primary.graphIndex
        reverseGraphIndex := forgetEdges (fun other => other = id) primary.reverseGraphIndex
        nameToId := ["name", "_name"].foldl (forgetName record.fields) primary.nameToId }, .ok ())

/-- Delete many records, with one pass over each index. -/
def deleteBatch (primary : Primary Number Nested) (ids : List RecordId) :
    Primary Number Nested × Nat :=
  let gone := (ids.filter fun id => id ∈ primary.records).dedup
  let keep : RecordId → Bool := fun other => other ∉ gone
  let fields := gone.filterMap fun id => primary.records[id]?.map (·.fields)
  let entries := fields.flatMap fun fields => fields.toList
  if gone = [] then (primary, 0)
  else
    ({ primary with
      records := gone.foldl (fun records id => records.erase id) primary.records
      fieldIndex := (entries.map Prod.fst).dedup.foldl (retainUnder keep) primary.fieldIndex
      valueIndex := (entries.map fun entry => reading.hashValue entry.1 entry.2).dedup.foldl
        (retainUnder keep) primary.valueIndex
      numericIndex := entries.foldl (retainNumber reading keep) primary.numericIndex
      graphIndex := forgetEdges (fun other => other ∈ gone) primary.graphIndex
      reverseGraphIndex := forgetEdges (fun other => other ∈ gone) primary.reverseGraphIndex
      nameToId := fields.foldl (fun nameToId fields =>
        ["name", "_name"].foldl (forgetName fields) nameToId) primary.nameToId }, gone.length)

/-! ## Update -/

/-- Bring the indexes up to date for one field that was set. -/
def reindexField (id : RecordId) (old : Fields Number Nested) (primary : Primary Number Nested)
    (entry : String × Value Number Nested) : Primary Number Nested :=
  let keep : RecordId → Bool := fun other => other ≠ id
  let valueIndex := match old[entry.1]? with
    | some value => retainUnder keep primary.valueIndex (reading.hashValue entry.1 value)
    | none => primary.valueIndex
  let numericIndex := match old[entry.1]? with
    | some value => retainNumber reading keep primary.numericIndex (entry.1, value)
    | none => primary.numericIndex
  let nameToId :=
    if IsName entry.1 then forgetName old primary.nameToId entry.1 else primary.nameToId
  { primary with
    valueIndex := pushUnder valueIndex (reading.hashValue entry.1 entry.2) id
    numericIndex := indexNumber reading numericIndex id entry.1 entry.2
    nameToId := indexName nameToId id entry.1 entry.2 }

/-- Fields after some of them were set. -/
def setFields (fields : Fields Number Nested) (entries : List (String × Value Number Nested)) :
    Fields Number Nested :=
  entries.foldl (fun fields entry => fields.insert entry.1 entry.2) fields

/-- Set fields of a record. -/
def updateFields (primary : Primary Number Nested) (id : RecordId)
    (updates : Updates Number Nested) :
    Primary Number Nested × Except AmorphicError Unit :=
  match primary.records[id]? with
  | none => (primary, .error (.recordNotFound id))
  | some record =>
      let fields := setFields record.fields updates.entries
      let primary := { primary with records := primary.records.insert id { record with fields } }
      (updates.entries.foldl (reindexField reading id record.fields) primary, .ok ())

/-! ## Queries -/

/-- The ids under a hash. -/
def valueIds (primary : Primary Number Nested) (hash : Nat) : List RecordId :=
  primary.valueIndex[hash]?.getD []

/-- The records with a value in a field. -/
def recordsEqual [DecidableEq Nested] (primary : Primary Number Nested) (field : String)
    (value : Value Number Nested) : List (AmorphicRecord Number Nested) :=
  (primary.valueIds (reading.hashValue field value)).filterMap fun id =>
    primary.records[id]?.filter fun record => record.fields[field]? = some value

/-- The records with a value in a field, cloned. -/
def queryEquals [DecidableEq Nested] (primary : Primary Number Nested) (field : String)
    (value : Value Number Nested) : List (AmorphicRecord Number Nested) :=
  primary.recordsEqual reading field value

end Primary

/-! ## A small reading -/

/-- A hash of text. -/
def textHash (text : String) : Nat :=
  text.toList.foldl (fun hash letter => hash * 31 + letter.toNat) 7

/-- A reading of one JSON text, with whole numbers. -/
def smallReading : Reading Int Unit where
  hashValue field value := textHash field * 1009 +
    match value with
    | .int number => number.toNat
    | .string text => textHash text
    | _ => 0
  ofInt number := number
  parseJson text :=
    if text = "\x7b\"name\":\"ada\",\"age\":36\x7d" then
      some (.object (((∅ : Fields Int Unit).insert "name" (.string "ada")).insert "age" (.int 36)))
    else none
  parseCell text := .string text

end JouleDB.Amorphic
