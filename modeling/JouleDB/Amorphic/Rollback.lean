import JouleDB.Amorphic.Columnar

/-!
# Giving a batch up

The calls of an open batch change the store at once.  When the batch is given up, the ids it noted
are deleted: those of the records it ingested, and the page ids of its other log entries, which no
record has.  What the batch did to older records stays.
-/

namespace JouleDB.Amorphic

variable {Number Nested : Type}

/-- What a call of an open batch asks for. -/
inductive BatchCall (Number Nested : Type) where
  | ingestJson (json : String)
  | delete (id : RecordId)
  | updateFields (id : RecordId) (updates : Updates Number Nested)

/-- A call of an open batch, with the error of the log if its entry cannot be written. -/
structure BatchAttempt (Number Nested : Type) where
  call : BatchCall Number Nested
  logError : Option String

namespace DurableStore

variable [LinearOrder Number] (reading : Reading Number Nested) (store : DurableStore Number Nested)

/-- A call of an open batch whose log entry cannot be written.  An ingest has taken its id by
then. -/
def batchUnlogged (error : String) :
    BatchCall Number Nested → DurableStore Number Nested × Except AmorphicError Reply
  | .ingestJson json =>
      match store.activeBatch with
      | none => (store, .error noBatch)
      | some _ =>
          match prepareJsonIngest reading store.store.primary json with
          | .error error => (store, .error error)
          | .ok (primary, _, _) =>
              ({ store with store := { store.store with primary } },
                .error (.ingestionError ("WAL write failed: " ++ error)))
  | .delete _ | .updateFields .. =>
      match store.activeBatch with
      | none => (store, .error noBatch)
      | some _ => (store, .error (.ingestionError ("WAL write failed: " ++ error)))

/-- A call of an open batch. -/
def batchAttempt (attempt : BatchAttempt Number Nested) :
    DurableStore Number Nested × Except AmorphicError Reply :=
  match attempt.logError with
  | some error => store.batchUnlogged reading error attempt.call
  | none =>
      match attempt.call with
      | .ingestJson json => store.batchIngestJson reading json
      | .delete id => store.batchDelete reading id
      | .updateFields id updates => store.batchUpdateFields reading id updates

/-- The store after calls of an open batch. -/
def afterAttempts (attempts : List (BatchAttempt Number Nested)) : DurableStore Number Nested :=
  attempts.foldl (fun store attempt => (store.batchAttempt reading attempt).1) store

/-- A batch is begun, filled, and given up. -/
def rolledBack (attempts : List (BatchAttempt Number Nested)) : DurableStore Number Nested :=
  (((store.beginBatch reading).1.afterAttempts reading attempts).rollbackBatch reading).1

/-- The fields of a record, also if its row is still queued. -/
def fieldsOf (id : RecordId) : Option (Fields Number Nested) :=
  (enter reading store.store.primary store.queued).fieldsOf id

/-- After a batch was given up, every id has the fields it had before. -/
def Restored (attempts : List (BatchAttempt Number Nested)) : Prop :=
  ∀ id, (store.rolledBack reading attempts).fieldsOf reading id = store.fieldsOf reading id

end DurableStore

namespace BatchAttempt

/-- The ids that the logged calls delete. -/
def deleted (attempts : List (BatchAttempt Number Nested)) : List RecordId :=
  attempts.filterMap fun attempt =>
    match attempt.logError, attempt.call with
    | none, .delete id => some id
    | _, _ => none

/-- The fields of a record that the logged calls set, in their order. -/
def written (id : RecordId) (attempts : List (BatchAttempt Number Nested)) :
    List (String × Value Number Nested) :=
  attempts.flatMap fun attempt =>
    match attempt.logError, attempt.call with
    | none, .updateFields other updates => if other = id then updates.entries else []
    | _, _ => []

/-- The value that a field is set to last. -/
def lastWritten (entries : List (String × Value Number Nested)) (field : String) :
    Option (Value Number Nested) :=
  (entries.reverse.find? fun entry => entry.1 = field).map Prod.snd

/-- What a call does to the fields of one older record. -/
def effect (id : RecordId) (fields : Option (Fields Number Nested))
    (attempt : BatchAttempt Number Nested) : Option (Fields Number Nested) :=
  match attempt.logError, attempt.call with
  | none, .delete other => if other = id then none else fields
  | none, .updateFields other updates =>
      if other = id then fields.map (Primary.setFields · updates.entries) else fields
  | _, _ => fields

theorem getElem?_setFields_lastWritten (fields : Fields Number Nested)
    (entries : List (String × Value Number Nested)) (field : String) :
    (Primary.setFields fields entries)[field]? = (lastWritten entries field).or fields[field]? := by
  induction entries using List.reverseRecOn with
  | nil => rfl
  | append_singleton entries entry ih =>
      rw [Primary.setFields, List.foldl_concat, ← Primary.setFields, lastWritten,
        List.reverse_concat, List.find?_cons, Std.ExtTreeMap.getElem?_insert]
      by_cases same : entry.1 = field
      · simp [same]
      · simp only [Std.LawfulEqOrd.compare_eq_iff_eq, same, decide_false, if_false]
        exact ih

/-- Fields stay as they are if every field is set last to the value it has. -/
theorem setFields_eq_self {fields : Fields Number Nested}
    {entries : List (String × Value Number Nested)} :
    Primary.setFields fields entries = fields ↔
      ∀ field value, lastWritten entries field = some value → fields[field]? = some value := by
  constructor
  · intro same field value isLast
    rw [← same, getElem?_setFields_lastWritten, isLast, Option.some_or]
  · intro same
    refine Std.ExtTreeMap.ext_getElem? fun field => ?_
    rw [getElem?_setFields_lastWritten]
    cases isLast : lastWritten entries field with
    | none => rfl
    | some value => rw [Option.some_or, same field value isLast]

theorem foldl_effect_none (id : RecordId) (attempts : List (BatchAttempt Number Nested)) :
    attempts.foldl (effect id) none = none := by
  induction attempts with
  | nil => rfl
  | cons attempt attempts ih =>
      have absent : effect id none attempt = none := by
        rw [effect]
        repeat' split
        all_goals rfl
      rw [List.foldl_cons, absent, ih]

theorem foldl_effect_some (id : RecordId) (fields : Fields Number Nested)
    (attempts : List (BatchAttempt Number Nested)) :
    attempts.foldl (effect id) (some fields) =
      if id ∈ deleted attempts then none
      else some (Primary.setFields fields (written id attempts)) := by
  induction attempts generalizing fields with
  | nil => rfl
  | cons attempt attempts ih =>
      obtain ⟨call, logError⟩ := attempt
      rw [List.foldl_cons]
      cases logError with
      | some error => exact ih fields
      | none =>
          cases call with
          | ingestJson json => exact ih fields
          | delete other =>
              by_cases same : other = id
              · simp [effect, deleted, same, foldl_effect_none]
              · have skipped : effect id (some fields) ⟨.delete other, none⟩ = some fields :=
                  if_neg same
                rw [skipped, ih]
                simp [deleted, written, Ne.symm same]
          | updateFields other updates =>
              by_cases same : other = id
              · have set : effect id (some fields) ⟨.updateFields other updates, none⟩ =
                    some (Primary.setFields fields updates.entries) := if_pos same
                rw [set, ih]
                simp [deleted, written, same, Primary.setFields]
              · have skipped : effect id (some fields) ⟨.updateFields other updates, none⟩ =
                    some fields := if_neg same
                rw [skipped, ih]
                simp [deleted, written, same]

end BatchAttempt

namespace DurableStore

variable [LinearOrder Number] {reading : Reading Number Nested} {store : DurableStore Number Nested}

/-! ## Open batches -/

theorem fieldsOf_foldl_delete (ids : List RecordId) (primary : Primary Number Nested)
    (id : RecordId) :
    (ids.foldl (fun primary id => (primary.delete reading id).1) primary).fieldsOf id =
      if id ∈ ids then none else primary.fieldsOf id := by
  induction ids generalizing primary with
  | nil => rfl
  | cons first ids ih =>
      rw [List.foldl_cons, ih, Primary.fieldsOf_delete]
      by_cases same : first = id
      · simp [same]
      · simp [same, Ne.symm same]

/-- A batch was begun in a store, and some calls were made in it.  Records that the store had before
went through these calls; the others are noted in the batch. -/
structure Filling (begun : DurableStore Number Nested) (txId : Nat)
    (attempts : List (BatchAttempt Number Nested)) (store : DurableStore Number Nested)
    (noted : List Nat) : Prop where
  batch : store.activeBatch = some ⟨txId, noted⟩
  queue : store.queue = begun.queue
  nextId : begun.store.primary.nextId ≤ store.store.primary.nextId
  fresh : store.store.primary.Fresh
  older : ∀ id < begun.store.primary.nextId, store.store.primary.fieldsOf id =
    attempts.foldl (BatchAttempt.effect id) (begun.store.primary.fieldsOf id)
  newer : ∀ id, begun.store.primary.nextId ≤ id → store.store.primary.fieldsOf id ≠ none →
    id ∈ noted
  above : ∀ id ∈ noted, begun.store.primary.nextId ≤ id
  few : noted.length ≤ attempts.length

section Filling

variable {begun : DurableStore Number Nested} {txId : Nat} {noted : List Nat}
  {attempts : List (BatchAttempt Number Nested)}

theorem Filling.next (filling : Filling begun txId attempts store noted)
    {attempt : BatchAttempt Number Nested} {result : DurableStore Number Nested} {pages : List Nat}
    (batch : result.activeBatch = some ⟨txId, noted ++ pages⟩) (queue : result.queue = store.queue)
    (nextId : store.store.primary.nextId ≤ result.store.primary.nextId)
    (fresh : result.store.primary.Fresh)
    (older : ∀ id < begun.store.primary.nextId, result.store.primary.fieldsOf id =
      BatchAttempt.effect id (store.store.primary.fieldsOf id) attempt)
    (newer : ∀ id, result.store.primary.fieldsOf id ≠ none →
      store.store.primary.fieldsOf id ≠ none ∨ id ∈ pages)
    (above : ∀ page ∈ pages, begun.store.primary.nextId ≤ page) (few : pages.length ≤ 1) :
    Filling begun txId (attempts ++ [attempt]) result (noted ++ pages) where
  batch := batch
  queue := queue.trans filling.queue
  nextId := filling.nextId.trans nextId
  fresh := fresh
  older id below := by rw [older id below, filling.older id below, List.foldl_concat]
  newer id isNew held := by
    rcases newer id held with before | isPage
    · exact List.mem_append_left _ (filling.newer id isNew before)
    · exact List.mem_append_right _ isPage
  above id member := by
    rcases List.mem_append.mp member with before | isPage
    · exact filling.above id before
    · exact above id isPage
  few := by
    rw [List.length_append, List.length_append]
    exact Nat.add_le_add filling.few few

/-- A call that leaves the records as they are; an ingest may have taken an id. -/
theorem Filling.idle (filling : Filling begun txId attempts store noted)
    {attempt : BatchAttempt Number Nested} {result : DurableStore Number Nested} {count : Nat}
    (batch : result.activeBatch = store.activeBatch) (queue : result.queue = store.queue)
    (primary : result.store.primary =
      { store.store.primary with nextId := store.store.primary.nextId + count })
    (effect : ∀ id fields, BatchAttempt.effect id fields attempt = fields) :
    Filling begun txId (attempts ++ [attempt]) result noted := by
  have same : ∀ id, result.store.primary.fieldsOf id = store.store.primary.fieldsOf id := by
    intro id
    rw [primary]
    rfl
  have next : Filling begun txId (attempts ++ [attempt]) result (noted ++ []) := by
    refine filling.next ?_ queue ?_ ?_ ?_ ?_ ?_ (Nat.zero_le _)
    · rw [batch, filling.batch, List.append_nil]
    · rw [primary]
      exact Nat.le_add_right _ _
    · rw [primary]
      exact RowStore.fresh_skip filling.fresh count
    · intro id _
      rw [same, effect]
    · exact fun id held => .inl (same id ▸ held)
    · exact fun page member => absurd member List.not_mem_nil
  rwa [List.append_nil] at next

/-- While few ids are taken, page ids that count down from the largest number are above them. -/
theorem le_pageId {nextId txId notedCount attemptCount : Nat} (few : notedCount ≤ attemptCount)
    (room : nextId + txId + attemptCount < u64Max) :
    nextId ≤ u64Max - txId - notedCount - 1 := by
  omega

theorem Filling.operation (filling : Filling begun txId attempts store noted)
    {attempt : BatchAttempt Number Nested} (operation : WalOperation Number Nested)
    {apply : MemoryStore Number Nested → MemoryStore Number Nested × Except AmorphicError Unit}
    (nextId : (apply store.store).1.primary.nextId = store.store.primary.nextId)
    (fresh : (apply store.store).1.primary.Fresh)
    (fieldsOf : ∀ id, (apply store.store).1.primary.fieldsOf id =
      BatchAttempt.effect id (store.store.primary.fieldsOf id) attempt)
    (room : begun.store.primary.nextId + txId + attempts.length < u64Max) :
    ∃ pages, Filling begun txId (attempts ++ [attempt]) (store.batchOperation operation apply).1
      (noted ++ pages) := by
  have isAbove : begun.store.primary.nextId ≤ u64Max - txId - noted.length - 1 :=
    le_pageId filling.few room
  have newer : ∀ id, (apply store.store).1.primary.fieldsOf id ≠ none →
      store.store.primary.fieldsOf id ≠ none := by
    intro id held absent
    refine held ?_
    rw [fieldsOf, absent]
    exact BatchAttempt.foldl_effect_none id [attempt]
  rw [batchOperation, filling.batch]
  dsimp only [logPageWrite]
  generalize isAfter : apply store.store = after at *
  obtain ⟨memory, result⟩ := after
  cases result with
  | error error =>
      refine ⟨[], filling.next ?_ rfl nextId.ge fresh (fun id _ => fieldsOf id)
        (fun id held => .inl (newer id held)) (fun page member => absurd member List.not_mem_nil)
        (Nat.zero_le _)⟩
      rw [List.append_nil, ← filling.batch]
  | ok done =>
      refine ⟨[u64Max - txId - noted.length - 1], filling.next rfl rfl nextId.ge fresh
        (fun id _ => fieldsOf id) (fun id held => .inl (newer id held)) ?_ le_rfl⟩
      intro page member
      rw [List.mem_singleton.mp member]
      exact isAbove

theorem Filling.attempt (filling : Filling begun txId attempts store noted)
    (attempt : BatchAttempt Number Nested)
    (room : begun.store.primary.nextId + txId + attempts.length < u64Max) :
    ∃ pages, Filling begun txId (attempts ++ [attempt]) (store.batchAttempt reading attempt).1
      (noted ++ pages) := by
  obtain ⟨call, logError⟩ := attempt
  cases logError with
  | some error =>
      have idle : ∀ {result : DurableStore Number Nested} {count : Nat},
          result.activeBatch = store.activeBatch → result.queue = store.queue →
          result.store.primary =
            { store.store.primary with nextId := store.store.primary.nextId + count } →
          ∃ pages, Filling begun txId (attempts ++ [⟨call, some error⟩]) result
            (noted ++ pages) := by
        intro result count batch queue primary
        refine ⟨[], ?_⟩
        rw [List.append_nil]
        exact filling.idle batch queue primary fun _ _ => rfl
      dsimp only [batchAttempt]
      cases call with
      | ingestJson json =>
          dsimp only [batchUnlogged]
          rw [filling.batch]
          dsimp only
          cases prepared : prepareJsonIngest reading store.store.primary json with
          | error error => exact @idle _ 0 rfl rfl rfl
          | ok record =>
              obtain ⟨primary, id, fields⟩ := record
              obtain ⟨rfl, -⟩ := prepares_json json _ _ _ _ prepared
              exact @idle _ 1 filling.batch.symm rfl rfl
      | delete other =>
          dsimp only [batchUnlogged]
          rw [filling.batch]
          exact @idle _ 0 rfl rfl rfl
      | updateFields other updates =>
          dsimp only [batchUnlogged]
          rw [filling.batch]
          exact @idle _ 0 rfl rfl rfl
  | none =>
      cases call with
      | ingestJson json =>
          dsimp only [batchAttempt, batchIngestJson]
          rw [filling.batch]
          dsimp only
          cases prepared : prepareJsonIngest reading store.store.primary json with
          | error error =>
              refine ⟨[], ?_⟩
              rw [List.append_nil]
              exact @Filling.idle _ _ _ _ _ _ _ _ filling _ _ 0 rfl rfl rfl fun _ _ => rfl
          | ok record =>
              obtain ⟨primary, id, fields⟩ := record
              obtain ⟨rfl, rfl⟩ := prepares_json json _ _ _ _ prepared
              generalize isTaken : { store.store.primary with
                nextId := store.store.primary.nextId + 1 } = taken
              have fresh : taken.Fresh := isTaken ▸ RowStore.fresh_skip filling.fresh 1
              have below : store.store.primary.nextId < taken.nextId :=
                isTaken ▸ Nat.lt_succ_self _
              have before : ∀ other, taken.fieldsOf other = store.store.primary.fieldsOf other :=
                fun _ => isTaken ▸ rfl
              have nextId := @Primary.nextId_applyPreparedIngest _ _ _ reading taken
                store.store.primary.nextId fields
              have fieldsOf := @Primary.fieldsOf_applyPreparedIngest _ _ _ reading taken
                store.store.primary.nextId fields
              refine ⟨[store.store.primary.nextId], filling.next rfl rfl ?_ ?_ ?_ ?_ ?_ le_rfl⟩
              · exact below.le.trans nextId.ge
              · exact fresh.applyPreparedIngest below
              · intro other below
                refine (fieldsOf other).trans ((if_neg ?_).trans (before other))
                exact (below.trans_le filling.nextId).ne'
              · intro other held
                by_cases same : store.store.primary.nextId = other
                · exact .inr (List.mem_singleton.mpr same.symm)
                · have unchanged := (fieldsOf other).trans ((if_neg same).trans (before other))
                  exact .inl (unchanged ▸ held)
              · intro page member
                rw [List.mem_singleton.mp member]
                exact filling.nextId
      | delete other =>
          have primary := (@MemoryStore.primary_delete _ _ _ reading store.store other).1
          refine filling.operation _ ?_ ?_ ?_ room
          · rw [primary, Primary.nextId_delete]
          · rw [primary]
            exact filling.fresh.delete other
          · intro id
            rw [primary, Primary.fieldsOf_delete]
            rfl
      | updateFields other updates =>
          have primary :=
            (@MemoryStore.primary_updateFields _ _ _ reading store.store other updates).1
          refine filling.operation _ ?_ ?_ ?_ room
          · rw [primary, Primary.nextId_updateFields]
          · rw [primary]
            exact filling.fresh.updateFields other updates
          · intro id
            rw [primary, Primary.fieldsOf_updateFields]
            change _ = if other = id then (store.store.primary.fieldsOf id).map
              (Primary.setFields · updates.entries) else store.store.primary.fieldsOf id
            split
            next same => rw [same]
            next => rfl

theorem Filling.run (filling : Filling begun txId attempts store noted)
    (more : List (BatchAttempt Number Nested))
    (room : begun.store.primary.nextId + txId + (attempts ++ more).length ≤ u64Max) :
    ∃ noted, Filling begun txId (attempts ++ more) (store.afterAttempts reading more) noted := by
  induction more generalizing store attempts noted with
  | nil => exact ⟨noted, by rwa [List.append_nil]⟩
  | cons attempt more ih =>
      rw [List.append_cons] at room ⊢
      rw [afterAttempts, List.foldl_cons]
      have fits : begun.store.primary.nextId + txId + attempts.length < u64Max := by
        refine Nat.lt_of_lt_of_le (Nat.add_lt_add_left ?_ _) room
        rw [List.length_append, List.length_append, List.length_singleton]
        exact Nat.lt_of_lt_of_le (Nat.lt_succ_self _) (Nat.le_add_right _ _)
      obtain ⟨pages, next⟩ := filling.attempt attempt fits
      exact ih next room

/-- Giving the batch up leaves the older records as its calls left them, and no other record. -/
theorem Filling.rollback (filling : Filling begun txId attempts store noted) (id : RecordId) :
    (store.rollbackBatch reading).1.store.primary.fieldsOf id =
      if id < begun.store.primary.nextId then
        attempts.foldl (BatchAttempt.effect id) (begun.store.primary.fieldsOf id)
      else none := by
  rw [rollbackBatch, filling.batch]
  dsimp only
  rw [MemoryStore.primary_foldl_delete, fieldsOf_foldl_delete]
  split
  next isNoted => rw [if_neg (Nat.not_lt.mpr (filling.above id isNoted))]
  next unnoted =>
    split
    next below => exact filling.older id below
    next above =>
      by_contra held
      exact unnoted (filling.newer id (Nat.le_of_not_lt above) held)

end Filling

/-! ## Reachable stores -/

theorem Queued.inStep (queue : store.Queued) :
    InStep reading store ⟨enter reading store.store.primary store.queued, store.log,
      store.txCounter, store.activeBatch⟩ :=
  ⟨queue, rfl, rfl, rfl, rfl⟩

/-- Only new ids are given records. -/
structure NoneBack (before after : Primary Number Nested) : Prop where
  nextId : before.nextId ≤ after.nextId
  absent : ∀ id < before.nextId, before.fieldsOf id = none → after.fieldsOf id = none

theorem NoneBack.refl (primary : Primary Number Nested) : NoneBack primary primary :=
  ⟨le_rfl, fun _ _ absent => absent⟩

theorem noneBack_delete (primary : Primary Number Nested) (id : RecordId) :
    NoneBack primary (primary.delete reading id).1 := by
  refine ⟨(Primary.nextId_delete primary id).ge, fun other _ absent => ?_⟩
  rw [Primary.fieldsOf_delete, absent, ite_self]

theorem noneBack_foldl_delete (ids : List RecordId) (primary : Primary Number Nested) :
    NoneBack primary (ids.foldl (fun primary id => (primary.delete reading id).1) primary) := by
  induction ids generalizing primary with
  | nil => exact NoneBack.refl primary
  | cons id ids ih =>
      have first := @noneBack_delete _ _ _ reading primary id
      have rest := ih (primary.delete reading id).1
      refine ⟨first.nextId.trans rest.nextId, fun other below absent => ?_⟩
      exact rest.absent other (below.trans_le first.nextId) (first.absent other below absent)

theorem noneBack_updateFields (primary : Primary Number Nested) (id : RecordId)
    (updates : Updates Number Nested) :
    NoneBack primary (primary.updateFields reading id updates).1 := by
  refine ⟨(Primary.nextId_updateFields primary id updates).ge, fun other _ absent => ?_⟩
  rw [Primary.fieldsOf_updateFields]
  split
  next same => rw [same, absent, Option.map_none]
  next => exact absent

theorem noneBack_ingest {primary taken : Primary Number Nested} {json : String} {id : RecordId}
    {fields : Fields Number Nested}
    (prepared : prepareJsonIngest reading primary json = .ok (taken, id, fields)) :
    NoneBack primary (taken.applyPreparedIngest reading id fields) := by
  obtain ⟨rfl, rfl⟩ := prepares_json json _ _ _ _ prepared
  constructor
  · rw [Primary.nextId_applyPreparedIngest]
    exact Nat.le_succ _
  · intro other below absent
    rw [Primary.fieldsOf_applyPreparedIngest, if_neg below.ne']
    exact absent

/-- Calls of a batch and its end give records only to new ids. -/
theorem noneBack_direct (rows : RowStore Number Nested) {call : DurableCall Number Nested}
    (direct : call.Direct) : NoneBack rows.primary (rows.answer reading call).1.primary := by
  have operation : ∀ {operation : WalOperation Number Nested}
      {apply : Primary Number Nested → Primary Number Nested × Except AmorphicError Unit},
      NoneBack rows.primary (apply rows.primary).1 →
      NoneBack rows.primary (rows.batchOperation operation apply).1.primary := by
    intro operation apply applied
    rw [RowStore.batchOperation]
    cases rows.activeBatch with
    | none => exact NoneBack.refl _
    | some batch =>
        rcases isResult : apply rows.primary with ⟨primary, error | ⟨⟩⟩ <;>
          rw [isResult] at applied <;> exact applied
  cases call with
  | batchIngestJson json =>
      dsimp only [RowStore.answer, RowStore.batchIngestJson]
      cases rows.activeBatch with
      | none => exact NoneBack.refl _
      | some batch =>
          cases prepared : prepareJsonIngest reading rows.primary json with
          | error error => exact NoneBack.refl _
          | ok record => exact noneBack_ingest prepared
  | batchDelete id => exact operation (noneBack_delete _ id)
  | batchUpdateFields id updates => exact operation (noneBack_updateFields _ id updates)
  | commitBatch =>
      dsimp only [RowStore.answer, RowStore.commitBatch]
      cases rows.activeBatch <;> exact NoneBack.refl _
  | rollbackBatch =>
      dsimp only [RowStore.answer, RowStore.rollbackBatch]
      cases rows.activeBatch with
      | none => exact NoneBack.refl _
      | some batch => exact noneBack_foldl_delete _ _
  | checkpoint => exact NoneBack.refl _
  | _ => exact direct.elim

/-- A call that gives records only to new ids leaves a queue as it is. -/
theorem Queued.direct (queue : store.Queued) {result : DurableStore Number Nested}
    (sameQueue : result.queue = store.queue) (fresh : result.store.primary.Fresh)
    (noneBack : NoneBack store.store.primary result.store.primary) : result.Queued := by
  obtain ⟨pending, rest⟩ := Prod.ext_iff.mp sameQueue
  obtain ⟨offset, count⟩ := Prod.ext_iff.mp rest
  dsimp only [DurableStore.queue] at pending offset count
  have same : result.queued = store.queued := by
    rw [queued, pending, offset, ← queued]
  refine ⟨?_, ?_, fresh, same ▸ queue.distinct, fun row member => ?_⟩
  · rw [offset, pending]
    exact queue.offset
  · rw [count, same]
    exact queue.count
  · obtain ⟨below, isAbsent⟩ := queue.taken row (same ▸ member)
    exact ⟨below.trans_le noneBack.nextId, noneBack.absent row.1 below isAbsent⟩

/-- Every call keeps the queue counted, and the ids of its rows taken. -/
theorem Queued.answer {finite : Number → Bool} (queue : store.Queued)
    (call : DurableCall Number Nested) :
    (store.answer reading finite call).1.Queued := by
  by_cases direct : call.Direct
  · obtain ⟨isRows, -, sameQueue⟩ := @does_direct _ _ _ reading finite store call direct
    have primary : (store.answer reading finite call).1.store.primary =
        (store.rowStore.answer reading call).1.primary := congrArg RowStore.primary isRows
    refine queue.direct sameQueue ?_ ?_
    · rw [primary]
      exact RowStore.fresh_answer queue.fresh call
    · rw [primary]
      exact noneBack_direct store.rowStore direct
  · have inOrder : store.InOrder finite call → (store.answer reading finite call).1.Queued :=
      fun inOrder => ((@Queued.inStep _ _ _ reading _ queue).step inOrder).1.queue
    cases call with
    | ingestColumnBatch batch =>
        by_cases accepted :
            batch.validate finite = .ok () ∧ batch.cols.length + 1 ≤ maxFieldsError
        · exact inOrder accepted
        · have unchanged : (store.ingestColumnBatch finite batch).1 = store := by
            rw [ingestColumnBatch]
            cases valid : batch.validate finite with
            | error message => rfl
            | ok =>
                dsimp only
                rw [if_pos (Nat.lt_of_not_le fun narrow => accepted ⟨valid, narrow⟩)]
          change (store.ingestColumnBatch finite batch).1.Queued
          rw [unchanged]
          exact queue
    | batchIngestJson | batchDelete | batchUpdateFields | rollbackBatch =>
        exact absurd trivial direct
    | _ => exact inOrder trivial

/-- A store that some calls reach from an opened log. -/
def reached (reading : Reading Number Nested) (finite : Number → Bool) (log : Log Number Nested)
    (calls : List (DurableCall Number Nested)) : DurableStore Number Nested :=
  calls.foldl (step reading finite) (openLog reading log)

theorem queued_reached {finite : Number → Bool} (log : Log Number Nested)
    (calls : List (DurableCall Number Nested)) :
    (reached reading finite log calls).Queued := by
  induction calls using List.reverseRecOn with
  | nil => exact (inStep_openLog log).queue
  | append_singleton calls call ih =>
      rw [reached, List.foldl_concat]
      exact Queued.answer ih call

/-! ## What a rollback restores -/

/-- A batch deletes no older record, and sets the fields of older records last to what they were. -/
structure Undoable (reading : Reading Number Nested) (store : DurableStore Number Nested)
    (attempts : List (BatchAttempt Number Nested)) : Prop where
  kept : ∀ id ∈ BatchAttempt.deleted attempts, store.fieldsOf reading id = none
  same : ∀ id fields, store.fieldsOf reading id = some fields → ∀ field value,
    BatchAttempt.lastWritten (BatchAttempt.written id attempts) field = some value →
    fields[field]? = some value

/-- A batch is begun after the queued rows were entered. -/
theorem filling_beginBatch (queue : store.Queued) (idle : store.activeBatch = none) :
    let begun := (store.beginBatch reading).1
    Filling begun store.txCounter [] begun [] ∧ begun.queued = [] ∧
      (∀ id, begun.store.primary.fieldsOf id = store.fieldsOf reading id) ∧
      begun.store.primary.nextId = store.store.primary.nextId := by
  obtain ⟨enters, empty⟩ := @Queued.settlePending _ _ _ reading _ queue
  have settled := (queue.enters (by rw [empty, List.append_nil]) enters).1
  have isIdle : (store.settlePending reading).activeBatch = none := enters.activeBatch.trans idle
  have begins : (store.beginBatch reading).1 = { store.settlePending reading with
      txCounter := (store.settlePending reading).txCounter + 1
      activeBatch := some ⟨(store.settlePending reading).txCounter, []⟩ } := by
    rw [beginBatch, isIdle]
    rfl
  intro begun
  refine ⟨⟨?_, rfl, le_rfl, ?_, fun id _ => rfl, ?_, by simp, le_rfl⟩, ?_, ?_, ?_⟩
  · change (store.beginBatch reading).1.activeBatch = _
    rw [begins, enters.txCounter]
  · change (store.beginBatch reading).1.store.primary.Fresh
    rw [begins]
    exact settled.fresh
  · intro id above held
    refine absurd ?_ held
    revert above
    change (store.beginBatch reading).1.store.primary.nextId ≤ id →
      (store.beginBatch reading).1.store.primary.fieldsOf id = none
    rw [begins]
    exact settled.fresh id
  · change (store.beginBatch reading).1.queued = []
    rw [begins]
    exact empty
  · intro id
    change (store.beginBatch reading).1.store.primary.fieldsOf id = _
    rw [begins]
    exact congrArg (·.fieldsOf id) enters.primary
  · change (store.beginBatch reading).1.store.primary.nextId = _
    rw [begins]
    change (store.settlePending reading).store.primary.nextId = _
    rw [enters.primary]
    exact Primary.nextId_foldl_applyPreparedIngest _ _

/-- After a batch was given up, the older records are as its calls left them. -/
theorem fieldsOf_rolledBack (queue : store.Queued) (idle : store.activeBatch = none)
    {attempts : List (BatchAttempt Number Nested)}
    (room : store.store.primary.nextId + store.txCounter + attempts.length ≤ u64Max)
    (id : RecordId) :
    (store.rolledBack reading attempts).fieldsOf reading id =
      attempts.foldl (BatchAttempt.effect id) (store.fieldsOf reading id) := by
  obtain ⟨begins, empty, fieldsOf, nextId⟩ := @filling_beginBatch _ _ _ reading _ queue idle
  obtain ⟨noted, filling⟩ := @Filling.run _ _ _ reading _ _ _ _ _ begins attempts (nextId ▸ room)
  rw [List.nil_append] at filling
  have noRows : (store.rolledBack reading attempts).queued = [] := by
    have unqueued : (store.rolledBack reading attempts).queue =
        (store.beginBatch reading).1.queue := by
      rw [rolledBack, rollbackBatch, filling.batch]
      exact filling.queue
    obtain ⟨pending, rest⟩ := Prod.ext_iff.mp unqueued
    obtain ⟨offset, -⟩ := Prod.ext_iff.mp rest
    dsimp only [DurableStore.queue] at pending offset
    rw [queued, pending, offset]
    exact empty
  rw [DurableStore.fieldsOf, noRows]
  refine (filling.rollback id).trans ?_
  rw [fieldsOf id]
  split
  next => rfl
  next above =>
    have absent : store.fieldsOf reading id = none := by
      rw [← fieldsOf id]
      exact begins.fresh id (Nat.le_of_not_lt above)
    rw [absent, BatchAttempt.foldl_effect_none]

/-- **What a rollback restores.**  In every store that is reached from a log, every id has the
fields it had before a batch exactly if the batch deletes no older record and sets the fields of
older records last to what they were. -/
theorem restored_iff (reading : Reading Number Nested) (finite : Number → Bool)
    (log : Log Number Nested) (calls : List (DurableCall Number Nested))
    (attempts : List (BatchAttempt Number Nested)) :
    let store := reached reading finite log calls
    store.activeBatch = none →
    store.store.primary.nextId + store.txCounter + attempts.length ≤ u64Max →
    (store.Restored reading attempts ↔ store.Undoable reading attempts) := by
  intro store idle room
  have after := @fieldsOf_rolledBack _ _ _ reading _ (queued_reached log calls) idle attempts room
  constructor
  · intro restored
    have kept : ∀ id fields, store.fieldsOf reading id = some fields →
        id ∉ BatchAttempt.deleted attempts ∧
          Primary.setFields fields (BatchAttempt.written id attempts) = fields := by
      intro id fields held
      have same := (after id).symm.trans (restored id)
      rw [held, BatchAttempt.foldl_effect_some] at same
      split at same
      · cases same
      next undeleted => exact ⟨undeleted, Option.some.inj same⟩
    constructor
    · intro id isDeleted
      by_contra held
      obtain ⟨fields, held⟩ := Option.ne_none_iff_exists'.mp held
      exact (kept id fields held).1 isDeleted
    · exact fun id fields held => BatchAttempt.setFields_eq_self.mp (kept id fields held).2
  · intro undoable id
    rw [after id]
    cases held : store.fieldsOf reading id with
    | none => exact BatchAttempt.foldl_effect_none id attempts
    | some fields =>
        have undeleted : id ∉ BatchAttempt.deleted attempts := by
          intro isDeleted
          rw [undoable.kept id isDeleted] at held
          cases held
        rw [BatchAttempt.foldl_effect_some, if_neg undeleted,
          BatchAttempt.setFields_eq_self.mpr (undoable.same id fields held)]

/-- The text of a record that the small reading knows. -/
def adaText : String := "\x7b\"name\":\"ada\",\"age\":36\x7d"

theorem restored_iff_ada :
    let store := reached smallReading (fun _ => true) [] [.ingestJson adaText]
    let attempts : List (BatchAttempt Int Unit) :=
      [⟨.ingestJson adaText, none⟩, ⟨.delete 2, none⟩, ⟨.delete 1, some "disk full"⟩]
    store.Restored smallReading attempts ↔ store.Undoable smallReading attempts := by
  exact restored_iff smallReading (fun _ => true) [] [.ingestJson adaText]
    [⟨.ingestJson adaText, none⟩, ⟨.delete 2, none⟩, ⟨.delete 1, some "disk full"⟩] rfl
    (by decide +kernel)

/-- A deleted record does not come back, and an updated one keeps the new value. -/
theorem not_restored :
    let store := reached smallReading (fun _ => true) [] [.ingestJson adaText]
    ¬store.Restored smallReading [⟨.delete 1, none⟩] ∧
      ¬store.Restored smallReading
        [⟨.updateFields 1 ⟨[("age", .int 37)], by decide⟩, none⟩] := by
  intro store
  have before : ((store.fieldsOf smallReading 1).bind fun fields => fields["age"]?) =
      some (.int 36) := by decide +kernel
  constructor
  · intro restored
    rw [← restored 1] at before
    revert before
    decide +kernel
  · intro restored
    rw [← restored 1] at before
    revert before
    decide +kernel

end DurableStore

end JouleDB.Amorphic
