import JouleDB.Amorphic.Ingest

/-!
# What the operations do to the records

The fields of every record and the next id, after each operation.
-/

namespace JouleDB.Amorphic.Primary

variable {Number Nested : Type} [LinearOrder Number] {reading : Reading Number Nested}
variable {primary : Primary Number Nested} {id : RecordId} {record : AmorphicRecord Number Nested}

/-- The fields of a record. -/
def fieldsOf (primary : Primary Number Nested) (id : RecordId) : Option (Fields Number Nested) :=
  primary.records[id]?.map (·.fields)

/-- No record has the next id or a later one. -/
def Fresh (primary : Primary Number Nested) : Prop :=
  ∀ id, primary.nextId ≤ id → primary.fieldsOf id = none

theorem fieldsOf_eq_none : primary.fieldsOf id = none ↔ primary.records[id]? = none :=
  Option.map_eq_none_iff

theorem fieldsOf_new (id : RecordId) : (new : Primary Number Nested).fieldsOf id = none := by
  simp [fieldsOf, new]

/-! ## Ingest -/

section Ingest

variable (primary) (id : RecordId) (fields : Fields Number Nested)

theorem records_applyPreparedIngest (other : RecordId) :
    (primary.applyPreparedIngest reading id fields).records[other]? =
      if id = other then some { id, fields, edges := [], timestamp := none }
      else primary.records[other]? := by
  rw [applyPreparedIngest, indexFields, foldl_indexField]
  simp only [Std.ExtTreeMap.getElem?_insert, Std.LawfulEqOrd.compare_eq_iff_eq]

theorem nextId_applyPreparedIngest :
    (primary.applyPreparedIngest reading id fields).nextId = primary.nextId := by
  rw [applyPreparedIngest, indexFields, foldl_indexField]

theorem fieldsOf_applyPreparedIngest (other : RecordId) :
    (primary.applyPreparedIngest reading id fields).fieldsOf other =
      if id = other then some fields else primary.fieldsOf other := by
  rw [fieldsOf, records_applyPreparedIngest]
  split <;> rfl

theorem fieldsOf_applyRecoveredRecord (edges : List (String × RecordId)) (timestamp : Option Nat)
    (other : RecordId) :
    (primary.applyRecoveredRecord reading id fields edges timestamp).fieldsOf other =
      if id = other then some fields else primary.fieldsOf other := by
  rw [fieldsOf, applyRecoveredRecord]
  dsimp only [indexFields]
  rw [foldl_indexField]
  simp only [Std.ExtTreeMap.getElem?_insert, Std.LawfulEqOrd.compare_eq_iff_eq]
  split <;> rfl

theorem nextId_applyRecoveredRecord (edges : List (String × RecordId)) (timestamp : Option Nat) :
    (primary.applyRecoveredRecord reading id fields edges timestamp).nextId =
      max primary.nextId (id + 1) := by
  rw [applyRecoveredRecord]
  dsimp only [indexFields]
  rw [foldl_indexField]
  dsimp only
  split
  next above => exact (Nat.max_eq_right (Nat.le_succ_of_le above)).symm
  next below => exact (Nat.max_eq_left (Nat.lt_of_not_ge below)).symm

theorem fieldsOf_ingestFields (other : RecordId) :
    (primary.ingestFields reading fields).1.fieldsOf other =
      if primary.nextId = other then some fields else primary.fieldsOf other :=
  fieldsOf_applyPreparedIngest { primary with nextId := primary.nextId + 1 } primary.nextId fields
    other

theorem nextId_ingestFields :
    (primary.ingestFields reading fields).1.nextId = primary.nextId + 1 :=
  nextId_applyPreparedIngest { primary with nextId := primary.nextId + 1 } primary.nextId fields

end Ingest

/-- Rows that are entered one after the other, with ids of their own. -/
theorem fieldsOf_foldl_applyPreparedIngest (rows : List (RecordId × Fields Number Nested))
    (primary : Primary Number Nested) {other : RecordId} (absent : other ∉ rows.map Prod.fst) :
    (rows.foldl (fun primary row => primary.applyPreparedIngest reading row.1 row.2)
      primary).fieldsOf other = primary.fieldsOf other := by
  induction rows generalizing primary with
  | nil => rfl
  | cons row rows ih =>
      rw [List.map_cons, List.mem_cons, not_or] at absent
      rw [List.foldl_cons, ih _ absent.2, fieldsOf_applyPreparedIngest, if_neg (Ne.symm absent.1)]

theorem nextId_foldl_applyPreparedIngest (rows : List (RecordId × Fields Number Nested))
    (primary : Primary Number Nested) :
    (rows.foldl (fun primary row => primary.applyPreparedIngest reading row.1 row.2)
      primary).nextId = primary.nextId := by
  rw [foldl_applyPreparedIngest]

/-! ## Edges -/

/-- An entity is there already, or is created under the next id. -/
theorem ensureEntity_cases (primary : Primary Number Nested) (name : String) :
    (∃ id, primary.nameToId[name]? = some id ∧ primary.ensureEntity reading name = (primary, id)) ∨
    primary.nameToId[name]? = none ∧ primary.ensureEntity reading name =
      primary.ingestFields reading ((∅ : Fields Number Nested).insert "name" (.string name)) := by
  unfold ensureEntity
  cases held : primary.nameToId[name]? with
  | none => exact .inr ⟨rfl, rfl⟩
  | some id => exact .inl ⟨id, rfl, rfl⟩

theorem ingestEdge_effect (primary : Primary Number Nested) (source relation target : String) :
    let entered := ((primary.ensureEntity reading source).1.ensureEntity reading target).1
    (primary.ingestEdge reading source relation target).2 = entered.nextId ∧
      (primary.ingestEdge reading source relation target).1.nextId = entered.nextId + 1 ∧
      ∀ other, (primary.ingestEdge reading source relation target).1.fieldsOf other =
        if entered.nextId = other then some (edgeFields source relation target)
        else entered.fieldsOf other := by
  intro entered
  refine ⟨rfl, rfl, fun other => ?_⟩
  unfold ingestEdge fieldsOf
  dsimp only
  rw [Std.ExtTreeMap.getElem?_insert]
  simp only [Std.LawfulEqOrd.compare_eq_iff_eq]
  split
  · rfl
  · rw [Std.ExtTreeMap.getElem?_alter]
    simp only [Std.LawfulEqOrd.compare_eq_iff_eq]
    split
    next isSource =>
      rw [← isSource]
      cases (((primary.ensureEntity reading source).1.ensureEntity reading target).1.records[
        (primary.ensureEntity reading source).2]?) <;> rfl
    · rfl

/-! ## Delete -/

omit [LinearOrder Number] in
theorem getElem?_foldl_erase (gone : List RecordId)
    (records : FiniteMap RecordId (AmorphicRecord Number Nested)) (id : RecordId) :
    (gone.foldl (fun records id => records.erase id) records)[id]? =
      if id ∈ gone then none else records[id]? := by
  induction gone generalizing records with
  | nil => simp
  | cons other gone ih =>
      rw [List.foldl_cons, ih]
      simp only [Std.ExtTreeMap.getElem?_erase, Std.LawfulEqOrd.compare_eq_iff_eq]
      by_cases same : other = id
      · subst same
        simp
      · simp [same, Ne.symm same]

/-- The records of a batch that exist. -/
def present (primary : Primary Number Nested) (ids : List RecordId) : List RecordId :=
  (ids.filter fun id => id ∈ primary.records).dedup

theorem mem_present {ids : List RecordId} {id : RecordId} :
    id ∈ primary.present ids ↔ id ∈ ids ∧ ∃ record, primary.records[id]? = some record := by
  rw [present, List.mem_dedup, List.mem_filter, decide_eq_true_eq,
    Std.ExtTreeMap.mem_iff_isSome_getElem?, Option.isSome_iff_exists]

theorem fieldsOf_delete (primary : Primary Number Nested) (id other : RecordId) :
    (primary.delete reading id).1.fieldsOf other =
      if id = other then none else primary.fieldsOf other := by
  unfold delete
  cases held : primary.records[id]? with
  | none =>
      dsimp only
      split
      next same => rw [← same]; exact fieldsOf_eq_none.mpr held
      · rfl
  | some record =>
      simp only [fieldsOf, Std.ExtTreeMap.getElem?_erase, Std.LawfulEqOrd.compare_eq_iff_eq]
      split <;> rfl

theorem nextId_delete (primary : Primary Number Nested) (id : RecordId) :
    (primary.delete reading id).1.nextId = primary.nextId := by
  unfold delete
  split <;> rfl

theorem fieldsOf_deleteBatch (primary : Primary Number Nested) (ids : List RecordId)
    (other : RecordId) :
    (primary.deleteBatch reading ids).1.fieldsOf other =
      if other ∈ ids then none else primary.fieldsOf other := by
  have missing : other ∉ primary.present ids → other ∈ ids → primary.fieldsOf other = none := by
    intro absent isId
    cases held : primary.records[other]? with
    | none => exact fieldsOf_eq_none.mpr held
    | some record => exact absurd (mem_present.mpr ⟨isId, record, held⟩) absent
  have gone : other ∈ primary.present ids → other ∈ ids := fun member => (mem_present.mp member).1
  unfold deleteBatch
  dsimp only
  rw [← present]
  split
  next empty =>
    split
    next isId => exact missing (by rw [empty]; exact List.not_mem_nil) isId
    · rfl
  · dsimp only [fieldsOf]
    rw [getElem?_foldl_erase]
    by_cases isGone : other ∈ primary.present ids
    · rw [if_pos isGone, if_pos (gone isGone)]
      rfl
    · rw [if_neg isGone]
      split
      next isId => exact missing isGone isId
      · rfl

theorem nextId_deleteBatch (primary : Primary Number Nested) (ids : List RecordId) :
    (primary.deleteBatch reading ids).1.nextId = primary.nextId := by
  unfold deleteBatch
  dsimp only
  split <;> rfl

/-! ## Update -/

theorem reindexFields_frame (old : Fields Number Nested)
    (entries : List (String × Value Number Nested)) (primary : Primary Number Nested) :
    (entries.foldl (reindexField reading id old) primary).records = primary.records ∧
      (entries.foldl (reindexField reading id old) primary).nextId = primary.nextId := by
  induction entries generalizing primary with
  | nil => exact ⟨rfl, rfl⟩
  | cons entry entries ih => exact ih _

theorem records_updateFields (held : primary.records[id]? = some record)
    (updates : Updates Number Nested) (other : RecordId) :
    (primary.updateFields reading id updates).1.records[other]? =
      if id = other then some { record with fields := setFields record.fields updates.entries }
      else primary.records[other]? := by
  unfold Primary.updateFields
  rw [held]
  dsimp only
  rw [(reindexFields_frame _ _ _).1]
  simp only [Std.ExtTreeMap.getElem?_insert, Std.LawfulEqOrd.compare_eq_iff_eq]

theorem fieldsOf_updateFields (primary : Primary Number Nested) (id : RecordId)
    (updates : Updates Number Nested) (other : RecordId) :
    (primary.updateFields reading id updates).1.fieldsOf other =
      if id = other then (primary.fieldsOf id).map (setFields · updates.entries)
      else primary.fieldsOf other := by
  cases held : primary.records[id]? with
  | none =>
      unfold updateFields
      rw [held]
      dsimp only
      split
      next same =>
        rw [← same, fieldsOf_eq_none.mpr held]
        rfl
      · rfl
  | some record =>
      rw [fieldsOf, records_updateFields held, fieldsOf, held]
      split <;> rfl

theorem nextId_updateFields (primary : Primary Number Nested) (id : RecordId)
    (updates : Updates Number Nested) :
    (primary.updateFields reading id updates).1.nextId = primary.nextId := by
  unfold updateFields
  split
  · rfl
  · exact (reindexFields_frame _ _ _).2

/-! ## Fresh ids -/

theorem fresh_new : (new : Primary Number Nested).Fresh := fun id _ => fieldsOf_new id

theorem Fresh.applyPreparedIngest (fresh : primary.Fresh) {fields : Fields Number Nested}
    (below : id < primary.nextId) : (primary.applyPreparedIngest reading id fields).Fresh := by
  intro other above
  rw [nextId_applyPreparedIngest] at above
  rw [fieldsOf_applyPreparedIngest, if_neg (Nat.lt_of_lt_of_le below above).ne]
  exact fresh other above

theorem Fresh.applyRecoveredRecord (fresh : primary.Fresh) {fields : Fields Number Nested}
    {edges : List (String × RecordId)} {timestamp : Option Nat} :
    (primary.applyRecoveredRecord reading id fields edges timestamp).Fresh := by
  intro other above
  rw [nextId_applyRecoveredRecord] at above
  have parts := Nat.max_le.mp above
  rw [fieldsOf_applyRecoveredRecord, if_neg (Nat.lt_of_succ_le parts.2).ne]
  exact fresh other parts.1

theorem Fresh.ingestFields (fresh : primary.Fresh) {fields : Fields Number Nested} :
    (primary.ingestFields reading fields).1.Fresh := by
  intro other above
  rw [nextId_ingestFields] at above
  rw [fieldsOf_ingestFields, if_neg (Nat.lt_of_succ_le above).ne]
  exact fresh other (Nat.le_of_succ_le above)

theorem Fresh.ensureEntity (fresh : primary.Fresh) (name : String) :
    (primary.ensureEntity reading name).1.Fresh := by
  rcases @ensureEntity_cases _ _ _ reading primary name with ⟨id, -, same⟩ | ⟨-, created⟩
  · rw [same]
    exact fresh
  · rw [created]
    exact fresh.ingestFields

theorem Fresh.ingestEdge (fresh : primary.Fresh) (source relation target : String) :
    (primary.ingestEdge reading source relation target).1.Fresh := by
  obtain ⟨-, next, effect⟩ := @ingestEdge_effect _ _ _ reading primary source relation target
  intro other above
  rw [next] at above
  rw [effect, if_neg (Nat.lt_of_succ_le above).ne]
  exact (fresh.ensureEntity source).ensureEntity target other (Nat.le_of_succ_le above)

theorem Fresh.delete (fresh : primary.Fresh) (id : RecordId) :
    (primary.delete reading id).1.Fresh := by
  intro other above
  rw [nextId_delete] at above
  rw [fieldsOf_delete, fresh other above, ite_self]

theorem Fresh.deleteBatch (fresh : primary.Fresh) (ids : List RecordId) :
    (primary.deleteBatch reading ids).1.Fresh := by
  intro other above
  rw [nextId_deleteBatch] at above
  rw [fieldsOf_deleteBatch, fresh other above, ite_self]

theorem Fresh.updateFields (fresh : primary.Fresh) (id : RecordId)
    (updates : Updates Number Nested) : (primary.updateFields reading id updates).1.Fresh := by
  intro other above
  rw [nextId_updateFields] at above
  rw [fieldsOf_updateFields]
  split
  next same =>
    rw [same, fresh other above]
    rfl
  · exact fresh other above

end JouleDB.Amorphic.Primary
