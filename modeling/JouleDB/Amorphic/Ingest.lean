import JouleDB.Amorphic.Store

/-!
# What ingest does to the indexes

The ids that an index holds under a key grow by the ids of the records that have the key.  A batch
gathers the ids of each field first and ends with the same indexes as its rows one after the other.
-/

namespace JouleDB.Amorphic

variable {Number Nested : Type}

section Buckets

variable {κ β : Type} [Ord κ] [Std.TransOrd κ] [Std.LawfulEqOrd κ] [DecidableEq κ]

theorem getElem?_pushUnder (index : FiniteMap κ (List β)) (key other : κ) (item : β) :
    (pushUnder index key item)[other]? =
      if key = other then some (index[key]?.getD [] ++ [item]) else index[other]? := by
  simp only [pushUnder, Std.ExtTreeMap.getElem?_insert,
    Std.LawfulEqOrd.compare_eq_iff_eq]

/-- Pushing several items appends those of a key under it. -/
theorem getElem?_foldl_pushUnder {α : Type} (key : α → κ) (item : α → β) (items : List α)
    (index : FiniteMap κ (List β)) (other : κ) :
    (items.foldl (fun index each => pushUnder index (key each) (item each)) index)[other]? =
      if items.any (fun each => key each = other) then
        some (index[other]?.getD [] ++ (items.filter fun each => key each = other).map item)
      else index[other]? := by
  induction items generalizing index with
  | nil => simp
  | cons each items ih =>
      rw [List.foldl_cons, ih, getElem?_pushUnder]
      by_cases here : key each = other
      · subst here
        by_cases later : items.any (fun other => key other = key each)
        · simp [later]
        · have none : items.filter (fun other => key other = key each) = [] := by
            simpa [List.filter_eq_nil_iff] using later
          simp [none]
      · simp [here]

omit [Std.LawfulEqOrd κ] in
/-- Keys that are visited one after the other, each with an effect on what is under it. -/
theorem getElem?_foldl_visit {keys : List κ} (nodup : keys.Nodup)
    {visit : FiniteMap κ β → κ → FiniteMap κ β} (slot : κ → Option β → Option β)
    (own : ∀ map key other, (visit map key)[other]? =
      if key = other then slot other map[other]? else map[other]?)
    (map : FiniteMap κ β) (other : κ) :
    (keys.foldl visit map)[other]? =
      if other ∈ keys then slot other map[other]? else map[other]? := by
  induction keys generalizing map with
  | nil => simp
  | cons key keys ih =>
      obtain ⟨absent, nodup⟩ := List.nodup_cons.mp nodup
      rw [List.foldl_cons, ih nodup, own]
      by_cases same : key = other
      · subst same
        simp [absent]
      · simp [same, Ne.symm same]

theorem filter_toList (map : FiniteMap κ β) (key : κ) :
    map.toList.filter (fun entry => entry.1 = key) =
      (map[key]?.map fun value => (key, value)).toList := by
  have unique : ∀ (entries : List (κ × β)),
      entries.Pairwise (fun first second => first.1 ≠ second.1) → ∀ value,
      (key, value) ∈ entries → entries.filter (fun entry => entry.1 = key) = [(key, value)] := by
    intro entries distinct value member
    induction entries with
    | nil => exact absurd member List.not_mem_nil
    | cons entry entries ih =>
        obtain ⟨apart, distinct⟩ := List.pairwise_cons.mp distinct
        rcases List.mem_cons.mp member with rfl | member
        · have rest : entries.filter (fun entry => entry.1 = key) = [] := by
            refine List.filter_eq_nil_iff.mpr fun other inside => ?_
            simpa using (apart other inside).symm
          simp [rest]
        · have other : entry.1 ≠ key := apart _ member
          simp [other, ih distinct member]
  have distinct : map.toList.Pairwise fun first second => first.1 ≠ second.1 :=
    Std.ExtTreeMap.distinct_keys_toList.imp fun apart same =>
      apart (Std.LawfulEqOrd.compare_eq_iff_eq.mpr same)
  cases held : map[key]? with
  | none =>
      refine List.filter_eq_nil_iff.mpr fun entry member => ?_
      rintro same
      rw [← of_decide_eq_true same,
        Std.ExtTreeMap.mem_toList_iff_getElem?_eq_some.mp member] at held
      cases held
  | some value =>
      exact unique _ distinct value (Std.ExtTreeMap.mem_toList_iff_getElem?_eq_some.mpr held)

end Buckets

namespace Primary

variable [LinearOrder Number] {reading : Reading Number Nested}

section Batch

variable {rows : List (RecordId × Fields Number Nested)}

omit [LinearOrder Number] in
/-- The names of the columns are the fields of the rows, each once. -/
theorem mem_columnNames {field : String} :
    (columnNames rows).Nodup ∧ (field ∈ columnNames rows ↔ ∃ row ∈ rows, field ∈ row.2) := by
  have extend : ∀ (keys names : List String), names.Nodup →
      (keys.foldl (fun names name => if name ∈ names then names else names ++ [name])
        names).Nodup ∧
      ∀ field, field ∈ keys.foldl (fun names name =>
        if name ∈ names then names else names ++ [name]) names ↔ field ∈ names ∨ field ∈ keys := by
    intro keys
    induction keys with
    | nil => exact fun names nodup => ⟨nodup, fun field => by simp⟩
    | cons key keys ih =>
        intro names nodup
        rw [List.foldl_cons]
        by_cases known : key ∈ names
        · rw [if_pos known]
          refine ⟨(ih names nodup).1, fun field => ?_⟩
          rw [(ih names nodup).2, List.mem_cons]
          constructor
          · tauto
          · rintro (old | rfl | new) <;> tauto
        · rw [if_neg known]
          have grown : (names ++ [key]).Nodup :=
            List.nodup_append.mpr ⟨nodup, List.nodup_singleton key,
              fun name member other isKey => by
                rintro rfl
                exact known (List.mem_singleton.mp isKey ▸ member)⟩
          refine ⟨(ih _ grown).1, fun field => ?_⟩
          rw [(ih _ grown).2, List.mem_append, List.mem_singleton, List.mem_cons, or_assoc]
  have all : ∀ (rows : List (RecordId × Fields Number Nested)) (names : List String),
      names.Nodup →
      (rows.foldl (fun names row => row.2.keys.foldl (fun names name =>
        if name ∈ names then names else names ++ [name]) names) names).Nodup ∧
      ∀ field, field ∈ rows.foldl (fun names row => row.2.keys.foldl (fun names name =>
        if name ∈ names then names else names ++ [name]) names) names ↔
          field ∈ names ∨ ∃ row ∈ rows, field ∈ row.2 := by
    intro rows
    induction rows with
    | nil => exact fun names nodup => ⟨nodup, fun field => by simp⟩
    | cons row rows ih =>
        intro names nodup
        obtain ⟨grown, members⟩ := extend row.2.keys names nodup
        refine ⟨(ih _ grown).1, fun field => ?_⟩
        rw [List.foldl_cons, (ih _ grown).2, members, Std.ExtTreeMap.mem_keys]
        simp only [List.mem_cons, exists_eq_or_imp, or_assoc]
  obtain ⟨nodup, members⟩ := all rows [] List.nodup_nil
  refine ⟨nodup, ?_⟩
  rw [columnNames, members]
  simp

theorem foldl_indexField (id : RecordId) (entries : List (String × Value Number Nested))
    (primary : Primary Number Nested) :
    entries.foldl (indexField reading id) primary =
      { primary with
        fieldIndex := entries.foldl (fun index entry => pushUnder index entry.1 id)
          primary.fieldIndex
        valueIndex := entries.foldl (fun index entry =>
          pushUnder index (reading.hashValue entry.1 entry.2) id) primary.valueIndex
        nameToId := entries.foldl (fun nameToId entry =>
          indexName nameToId id entry.1 entry.2) primary.nameToId
        numericIndex := entries.foldl (fun index entry =>
          indexNumber reading index id entry.1 entry.2) primary.numericIndex } := by
  induction entries generalizing primary with
  | nil => rfl
  | cons entry entries ih =>
      rw [List.foldl_cons, ih]
      rfl

theorem foldl_applyPreparedIngest (rows : List (RecordId × Fields Number Nested))
    (primary : Primary Number Nested) :
    rows.foldl (fun primary row => primary.applyPreparedIngest reading row.1 row.2) primary =
      { primary with
        fieldIndex := rows.foldl (fun index row => row.2.toList.foldl (fun index entry =>
          pushUnder index entry.1 row.1) index) primary.fieldIndex
        valueIndex := rows.foldl (fun index row => row.2.toList.foldl (fun index entry =>
          pushUnder index (reading.hashValue entry.1 entry.2) row.1) index) primary.valueIndex
        nameToId := rows.foldl (fun nameToId row => row.2.toList.foldl (fun nameToId entry =>
          indexName nameToId row.1 entry.1 entry.2) nameToId) primary.nameToId
        numericIndex := rows.foldl (fun index row => row.2.toList.foldl (fun index entry =>
          indexNumber reading index row.1 entry.1 entry.2) index) primary.numericIndex
        records := rows.foldl (fun records row => records.insert row.1
          { id := row.1, fields := row.2, edges := [], timestamp := none }) primary.records } := by
  induction rows generalizing primary with
  | nil => rfl
  | cons row rows ih =>
      rw [List.foldl_cons, ih, applyPreparedIngest, indexFields, foldl_indexField]
      rfl

omit [LinearOrder Number] in
theorem fieldIndex_row (index : FiniteMap String (List RecordId)) (id : RecordId)
    (fields : Fields Number Nested) (field : String) :
    (fields.toList.foldl (fun index entry => pushUnder index entry.1 id) index)[field]? =
      if field ∈ fields then some (index[field]?.getD [] ++ [id]) else index[field]? := by
  rw [getElem?_foldl_pushUnder (fun entry : String × Value Number Nested => entry.1)
    (fun _ => id)]
  have entries := filter_toList fields field
  cases held : fields[field]? with
  | none =>
      have absent : field ∉ fields := by
        rw [Std.ExtTreeMap.mem_iff_isSome_getElem?, held]
        simp
      rw [held] at entries
      have noEntry : fields.toList.any (fun entry => entry.1 = field) = false := by
        rw [List.any_eq_false]
        exact List.filter_eq_nil_iff.mp entries
      rw [if_neg absent, noEntry]
      rfl
  | some value =>
      have present : field ∈ fields := by
        rw [Std.ExtTreeMap.mem_iff_isSome_getElem?, held]
        rfl
      rw [held] at entries
      have anEntry : fields.toList.any (fun entry => entry.1 = field) = true := by
        rw [List.any_eq_true]
        exact ⟨(field, value), Std.ExtTreeMap.mem_toList_iff_getElem?_eq_some.mpr held, by simp⟩
      rw [if_pos present, anEntry, entries]
      rfl

omit [LinearOrder Number] in
/-- The rows push their ids under their fields. -/
theorem fieldIndex_rows (index : FiniteMap String (List RecordId)) (field : String) :
    (rows.foldl (fun index row => row.2.toList.foldl (fun index entry =>
      pushUnder index entry.1 row.1) index) index)[field]? =
      if ∃ row ∈ rows, field ∈ row.2 then some (index[field]?.getD [] ++ rowsWith rows field)
      else index[field]? := by
  induction rows generalizing index with
  | nil => simp
  | cons row rows ih =>
      have gathered : rowsWith (row :: rows) field =
          (if field ∈ row.2 then [row.1] else []) ++ rowsWith rows field := by
        rw [rowsWith, List.filterMap_cons]
        split <;> simp_all [rowsWith]
      have empty : (¬∃ row ∈ rows, field ∈ row.2) → rowsWith rows field = [] := by
        intro none
        refine List.filterMap_eq_nil_iff.mpr fun other member => ?_
        exact if_neg fun has => none ⟨other, member, has⟩
      have either : (∃ other ∈ row :: rows, field ∈ other.2) ↔
          field ∈ row.2 ∨ ∃ other ∈ rows, field ∈ other.2 := by
        simp only [List.mem_cons, exists_eq_or_imp]
      rw [List.foldl_cons, ih, fieldIndex_row, gathered]
      by_cases here : field ∈ row.2
      · rw [if_pos here, if_pos here, if_pos (either.mpr (.inl here))]
        by_cases later : ∃ row ∈ rows, field ∈ row.2
        · rw [if_pos later, Option.getD_some, List.append_assoc]
        · rw [if_neg later, empty later, List.append_nil]
      · rw [if_neg here, if_neg here, List.nil_append]
        by_cases later : ∃ row ∈ rows, field ∈ row.2
        · rw [if_pos later, if_pos (either.mpr (.inr later))]
        · rw [if_neg later, if_neg fun both => (either.mp both).elim here later]

/-- What a value does to the numbers of a field. -/
def pushNumber (reading : Reading Number Nested) (id : RecordId)
    (slot : Option (FiniteMap Number (List RecordId))) (value : Value Number Nested) :
    Option (FiniteMap Number (List RecordId)) :=
  match value.asF64 reading with
  | some number => some (pushUnder (slot.getD ∅) number id)
  | none => slot

theorem getElem?_indexNumber (index : FiniteMap String (FiniteMap Number (List RecordId)))
    (id : RecordId) (field other : String) (value : Value Number Nested) :
    (indexNumber reading index id field value)[other]? =
      if field = other then pushNumber reading id index[other]? value else index[other]? := by
  rw [indexNumber, pushNumber]
  by_cases same : field = other
  · subst same
    cases value.asF64 reading <;> simp
  · cases value.asF64 reading <;> simp [Std.ExtTreeMap.getElem?_insert, same]

/-- A row pushes its id under the numbers in its fields. -/
theorem numericIndex_row (index : FiniteMap String (FiniteMap Number (List RecordId)))
    (id : RecordId) (fields : Fields Number Nested) (field : String) :
    (fields.toList.foldl (fun index entry =>
      indexNumber reading index id entry.1 entry.2) index)[field]? =
      match fields[field]? with
      | some value => pushNumber reading id index[field]? value
      | none => index[field]? := by
  have each : ∀ (entries : List (String × Value Number Nested))
      (index : FiniteMap String (FiniteMap Number (List RecordId))),
      (entries.foldl (fun index entry =>
        indexNumber reading index id entry.1 entry.2) index)[field]? =
      (entries.filter fun entry => entry.1 = field).foldl (fun slot entry =>
        pushNumber reading id slot entry.2) index[field]? := by
    intro entries
    induction entries with
    | nil => exact fun index => rfl
    | cons entry entries ih =>
        intro index
        rw [List.foldl_cons, ih, getElem?_indexNumber]
        by_cases same : entry.1 = field <;> simp [same]
  rw [each, filter_toList]
  cases fields[field]? <;> rfl

/-- What rows do to the numbers of a field. -/
def pushNumbers (reading : Reading Number Nested) (rows : List (RecordId × Fields Number Nested))
    (field : String) (slot : Option (FiniteMap Number (List RecordId))) :
    Option (FiniteMap Number (List RecordId)) :=
  match numbersIn reading rows field with
  | [] => slot
  | numbers => some (numbers.foldl (fun tree number => pushUnder tree number.1 number.2)
      (slot.getD ∅))

/-- The rows push their ids under the numbers in their fields. -/
theorem numericIndex_rows (index : FiniteMap String (FiniteMap Number (List RecordId)))
    (field : String) :
    (rows.foldl (fun index row => row.2.toList.foldl (fun index entry =>
      indexNumber reading index row.1 entry.1 entry.2) index) index)[field]? =
      pushNumbers reading rows field index[field]? := by
  induction rows generalizing index with
  | nil => rfl
  | cons row rows ih =>
      rw [List.foldl_cons, ih, numericIndex_row, pushNumbers, pushNumbers]
      have gathered : numbersIn reading (row :: rows) field =
          ((row.2[field]?.bind (·.asF64 reading)).map fun number => (number, row.1)).toList ++
            numbersIn reading rows field := by
        rw [numbersIn, List.filterMap_cons]
        cases held : row.2[field]? with
        | none => rfl
        | some value =>
            cases isNumber : value.asF64 reading with
            | none => simp [isNumber, numbersIn]
            | some number => simp [isNumber, numbersIn]
      rw [gathered]
      cases held : row.2[field]? with
      | none => rfl
      | some value =>
          simp only [Option.bind_some, pushNumber]
          cases value.asF64 reading with
          | none => rfl
          | some number => cases numbersIn reading rows field <;> rfl

omit [LinearOrder Number] in
theorem foldl_indexName_of_noName
    (noName : ∀ row ∈ rows, ∀ field ∈ row.2, ¬IsName field) (nameToId : FiniteMap String RecordId) :
    rows.foldl (fun nameToId row => row.2.toList.foldl (fun nameToId entry =>
      indexName nameToId row.1 entry.1 entry.2) nameToId) nameToId = nameToId := by
  have one : ∀ (id : RecordId) (entries : List (String × Value Number Nested))
      (nameToId : FiniteMap String RecordId), (∀ entry ∈ entries, ¬IsName entry.1) →
      entries.foldl (fun nameToId entry => indexName nameToId id entry.1 entry.2) nameToId =
        nameToId := by
    intro id entries
    induction entries with
    | nil => exact fun nameToId _ => rfl
    | cons entry entries ih =>
        intro nameToId all
        have still : indexName nameToId id entry.1 entry.2 = nameToId :=
          if_neg (all entry List.mem_cons_self)
        rw [List.foldl_cons, still]
        exact ih nameToId fun other member => all other (List.mem_cons_of_mem _ member)
  induction rows with
  | nil => rfl
  | cons row rows ih =>
      rw [List.foldl_cons, one row.1 row.2.toList nameToId]
      · exact ih fun other member => noName other (List.mem_cons_of_mem _ member)
      · intro entry member
        refine noName row List.mem_cons_self entry.1 ?_
        rw [Std.ExtTreeMap.mem_iff_isSome_getElem?,
          Std.ExtTreeMap.mem_toList_iff_getElem?_eq_some.mp member]
        rfl

/-- A batch ends with the records and the indexes of its rows one after the other. -/
theorem applyPreparedIngestBatch_eq (primary : Primary Number Nested) :
    primary.applyPreparedIngestBatch reading rows =
      rows.foldl (fun primary row => primary.applyPreparedIngest reading row.1 row.2)
        primary := by
  have nodup := (@mem_columnNames _ _ rows "").1
  have members : ∀ field, field ∈ columnNames rows ↔ ∃ row ∈ rows, field ∈ row.2 :=
    fun field => mem_columnNames.2
  rw [foldl_applyPreparedIngest, applyPreparedIngestBatch]
  congr 1
  · -- the field index
    apply Std.ExtTreeMap.ext_getElem?
    intro field
    have own : ∀ (map : FiniteMap String (List RecordId)) (key other : String),
        (map.insert key (map[key]?.getD [] ++ rowsWith rows key))[other]? =
          if key = other then some (map[other]?.getD [] ++ rowsWith rows other)
          else map[other]? := by
      intro map key other
      rw [Std.ExtTreeMap.getElem?_insert]
      by_cases same : key = other
      · subst same
        simp
      · simp [same]
    rw [fieldIndex_rows, getElem?_foldl_visit nodup
      (fun field slot => some (slot.getD [] ++ rowsWith rows field)) own]
    simp only [members]
  · -- the names
    split
    · rfl
    next noNames =>
      rw [foldl_indexName_of_noName]
      intro row member field has isName
      rcases isName with rfl | rfl
      · exact noNames (.inl ((members _).mpr ⟨row, member, has⟩))
      · exact noNames (.inr ((members _).mpr ⟨row, member, has⟩))
  · -- the numeric index
    apply Std.ExtTreeMap.ext_getElem?
    intro field
    have own : ∀ (map : FiniteMap String (FiniteMap Number (List RecordId)))
        (key other : String),
        (match numbersIn reading rows key with
          | [] => map
          | numbers => map.insert key (numbers.foldl (fun tree (number : Number × RecordId) =>
              pushUnder tree number.1 number.2) (map[key]?.getD ∅)))[other]? =
          if key = other then pushNumbers reading rows other map[other]? else map[other]? := by
      intro map key other
      by_cases same : key = other
      · subst same
        rw [pushNumbers]
        cases numbersIn reading rows key <;> simp
      · cases numbersIn reading rows key <;> simp [Std.ExtTreeMap.getElem?_insert, same]
    rw [numericIndex_rows]
    refine (getElem?_foldl_visit nodup (pushNumbers reading rows) own _ _).trans ?_
    split
    · rfl
    next absent =>
      have none : numbersIn reading rows field = [] := by
        refine List.filterMap_eq_nil_iff.mpr fun row member => ?_
        have lacks : row.2[field]? = none :=
          Std.ExtTreeMap.getElem?_eq_none fun has => absent ((members field).mpr ⟨row, member, has⟩)
        rw [lacks]
        rfl
      rw [pushNumbers, none]

end Batch

/-- Rows are prepared with consecutive ids, unless one of them has too many fields. -/
theorem prepareRows_spec (rows : List (Fields Number Nested)) (primary : Primary Number Nested) :
    (∃ error count, primary.prepareRows rows =
        ({ primary with nextId := primary.nextId + count }, .error error) ∧
      ∃ fields ∈ rows, fields.size > maxFieldsError) ∨
    primary.prepareRows rows = ({ primary with nextId := primary.nextId + rows.length },
        .ok ((rows.zipIdx primary.nextId).map Prod.swap)) ∧
      ∀ fields ∈ rows, fields.size ≤ maxFieldsError := by
  induction rows generalizing primary with
  | nil => exact .inr ⟨rfl, by simp⟩
  | cons fields rows ih =>
      by_cases large : fields.size > maxFieldsError
      · refine .inl ⟨.fieldCountExceeded fields.size maxFieldsError, 0, ?_, fields,
          List.mem_cons_self, large⟩
        simp only [prepareRows, prepareFieldsIngest, if_pos large, Nat.add_zero]
      · have prepared : primary.prepareFieldsIngest fields =
            .ok ({ primary with nextId := primary.nextId + 1 }, primary.nextId) := if_neg large
        rcases ih { primary with nextId := primary.nextId + 1 } with
          ⟨error, count, failed, tooLarge, member, isLarge⟩ | ⟨succeeded, small⟩
        · refine .inl ⟨error, count + 1, ?_, tooLarge, List.mem_cons_of_mem _ member, isLarge⟩
          simp only [prepareRows, prepared, failed]
          rw [Nat.add_assoc, Nat.add_comm 1]
        · refine .inr ⟨?_, ?_⟩
          · simp only [prepareRows, prepared, succeeded, List.length_cons, List.zipIdx_cons,
              List.map_cons, Prod.swap_prod_mk]
            rw [Nat.add_assoc, Nat.add_comm 1]
          · intro other member
            rcases List.mem_cons.mp member with rfl | member
            · exact Nat.le_of_not_lt large
            · exact small other member

omit [LinearOrder Number] in
theorem mem_zipIdx_swap {rows : List (Fields Number Nested)} {first : RecordId}
    {row : RecordId × Fields Number Nested} (member : row ∈ (rows.zipIdx first).map Prod.swap) :
    first ≤ row.1 ∧ row.1 < first + rows.length ∧ row.2 ∈ rows := by
  obtain ⟨⟨fields, id⟩, isRow, rfl⟩ := List.mem_map.mp member
  exact ⟨List.le_snd_of_mem_zipIdx isRow, List.snd_lt_add_of_mem_zipIdx isRow,
    List.fst_mem_of_mem_zipIdx isRow⟩

end Primary

end JouleDB.Amorphic
