import JouleDB.Amorphic.RowStore
import JouleDB.Lib.Run

/-!
# Columnar ingest and row ingest

A store whose columnar batches are queued is compared with one that was given their rows.  Entering
the queued rows leads from the first to the second.  Calls that write enter them first, except the
calls of an open batch: these work on the records as they are, and may miss rows or come before them.
-/

namespace JouleDB.Amorphic

variable {Number Nested : Type}

namespace ColumnBatch

variable (batch : ColumnBatch Number)

theorem rows_append {start middle stop : Nat} (first : start ≤ middle) (second : middle ≤ stop) :
    (batch.rows start middle ++ batch.rows middle stop : List (RecordId × Fields Number Nested)) =
      batch.rows start stop := by
  rw [rows, rows, rows, ← List.map_append]
  congr 1
  have split : stop - start = (middle - start) + (stop - middle) := by omega
  rw [split, ← List.range'_append_1]
  congr 2
  omega

theorem length_rows (start stop : Nat) :
    (batch.rows start stop : List (RecordId × Fields Number Nested)).length = stop - start := by
  rw [rows, List.length_map, List.length_range']

/-- The rows of a batch are those that the row path prepares. -/
theorem rows_eq_zipIdx (first : RecordId) :
    ((batch.rowFields.zipIdx first).map Prod.swap : List (RecordId × Fields Number Nested)) =
      { batch with firstId := first }.rows 0 batch.len := by
  rw [rows, rowFields, List.zipIdx_map, List.range_eq_range', Nat.sub_zero]
  rw [List.zipIdx_eq_zip_range', List.length_range', List.map_map]
  apply List.ext_getElem
  · simp
  · intro index low high
    simp [fieldsAt]

/-- A row has at most one field for each column and the one of the table. -/
theorem size_fieldsAt (row : Nat) :
    (batch.fieldsAt row : Fields Number Nested).size ≤ batch.cols.length + 1 := by
  have grow : ∀ (columns : List (BatchColumn Number)) (fields : Fields Number Nested),
      (columns.foldl (fun fields column => fields.insert column.name (column.value row))
        fields).size ≤ columns.length + fields.size := by
    intro columns
    induction columns with
    | nil => exact fun fields => Nat.le_of_eq (Nat.zero_add _).symm
    | cons column columns ih =>
        intro fields
        refine (ih (fields.insert column.name (column.value row))).trans ?_
        have one := @Std.ExtTreeMap.size_insert_le _ _ _ fields _ column.name
          (column.value row : Value Number Nested)
        rw [List.length_cons]
        omega
  refine (grow batch.cols _).trans (Nat.add_le_add_left ?_ _)
  exact Std.ExtTreeMap.size_insert_le

end ColumnBatch

/-- The call of the row path. -/
def DurableCall.asRows : DurableCall Number Nested → DurableCall Number Nested
  | .ingestColumnBatch batch => .ingestFieldsBatch batch.rowFields
  | call => call

namespace DurableStore

variable [LinearOrder Number] {reading : Reading Number Nested} {finite : Number → Bool}
variable {store : DurableStore Number Nested}

/-! ## The queue -/

/-- The rows that are still to be entered. -/
def queuedFrom (offset : Nat) : List (ColumnBatch Number) → List (RecordId × Fields Number Nested)
  | [] => []
  | batch :: rest => batch.rows offset batch.len ++ rest.flatMap fun batch => batch.rows 0 batch.len

def queued (store : DurableStore Number Nested) : List (RecordId × Fields Number Nested) :=
  queuedFrom store.pendingOff store.pending

/-- The offset lies in the first batch. -/
def OffsetIn (offset : Nat) : List (ColumnBatch Number) → Prop
  | [] => offset = 0
  | batch :: _ => offset ≤ batch.len

omit [LinearOrder Number] in
theorem offsetIn_zero (pending : List (ColumnBatch Number)) : OffsetIn 0 pending := by
  cases pending with
  | nil => rfl
  | cons batch rest => exact Nat.zero_le _

omit [LinearOrder Number] in
theorem queuedFrom_zero (pending : List (ColumnBatch Number)) :
    (queuedFrom 0 pending : List (RecordId × Fields Number Nested)) =
      pending.flatMap fun batch => batch.rows 0 batch.len := by
  cases pending <;> rfl

/-- Enter rows one after the other. -/
def enter (reading : Reading Number Nested) (primary : Primary Number Nested)
    (rows : List (RecordId × Fields Number Nested)) : Primary Number Nested :=
  rows.foldl (fun primary row => primary.applyPreparedIngest reading row.1 row.2) primary

/-- Some queued rows have been entered, and nothing else has changed. -/
structure Enters (reading : Reading Number Nested) (store after : DurableStore Number Nested)
    (entered : List (RecordId × Fields Number Nested)) : Prop where
  primary : after.store.primary = enter reading store.store.primary entered
  rows : after.pendingRows = store.pendingRows - entered.length
  log : after.log = store.log
  txCounter : after.txCounter = store.txCounter
  activeBatch : after.activeBatch = store.activeBatch
  colGen : after.colGen = store.colGen
  generation : after.store.generation - after.matGen = store.store.generation - store.matGen
  offset : OffsetIn after.pendingOff after.pending

theorem enter_append (reading : Reading Number Nested) (primary : Primary Number Nested)
    (first second : List (RecordId × Fields Number Nested)) :
    enter reading primary (first ++ second) = enter reading (enter reading primary first) second :=
  List.foldl_append

theorem Enters.trans {middle after : DurableStore Number Nested}
    {first second : List (RecordId × Fields Number Nested)} (one : Enters reading store middle first)
    (two : Enters reading middle after second) : Enters reading store after (first ++ second) where
  primary := by rw [two.primary, one.primary, enter_append]
  rows := by rw [two.rows, one.rows, List.length_append, Nat.sub_sub]
  log := two.log.trans one.log
  txCounter := two.txCounter.trans one.txCounter
  activeBatch := two.activeBatch.trans one.activeBatch
  colGen := two.colGen.trans one.colGen
  generation := two.generation.trans one.generation
  offset := two.offset

/-- What the loop does with the first batch of the queue. -/
def enterFrom (reading : Reading Number Nested) (store : DurableStore Number Nested)
    (batch : ColumnBatch Number) (stop done : Nat) : DurableStore Number Nested × Nat :=
  if stop > store.pendingOff then
    let after := store.store.applyPreparedIngestBatch reading (batch.rows store.pendingOff stop)
    ({ store with
      store := after
      matGen := store.matGen + (after.generation - store.store.generation)
      pendingRows := store.pendingRows - (stop - store.pendingOff) },
      done + (stop - store.pendingOff))
  else (store, done)

theorem materialize_cons (maxRows : Nat) (store : DurableStore Number Nested) (done : Nat)
    (batch : ColumnBatch Number) (rest : List (ColumnBatch Number)) :
    store.materialize reading maxRows done (batch :: rest) =
      if done < maxRows then
        let stop := min batch.len (store.pendingOff + (maxRows - done))
        let entered := enterFrom reading store batch stop done
        if stop = batch.len then
          { entered.1 with pendingOff := 0 }.materialize reading maxRows entered.2 rest
        else ({ entered.1 with pending := batch :: rest, pendingOff := stop }, entered.2)
      else ({ store with pending := batch :: rest }, done) := rfl

theorem enterFrom_enters (batch : ColumnBatch Number) (stop done : Nat)
    (pending : List (ColumnBatch Number)) {offset : Nat} (inFirst : OffsetIn offset pending) :
    Enters reading store
        { (enterFrom reading store batch stop done).1 with pending, pendingOff := offset }
        (batch.rows store.pendingOff stop) ∧
      (enterFrom reading store batch stop done).2 = done + (stop - store.pendingOff) := by
  unfold enterFrom
  split
  next forward =>
    refine ⟨⟨?_, ?_, rfl, rfl, rfl, rfl, ?_, inFirst⟩, rfl⟩
    · exact Primary.applyPreparedIngestBatch_eq _
    · rw [ColumnBatch.length_rows]
    · dsimp only
      grind
  next back =>
    have none : (batch.rows store.pendingOff stop : List (RecordId × Fields Number Nested)) = [] := by
      rw [← List.length_eq_zero_iff, ColumnBatch.length_rows]
      exact Nat.sub_eq_zero_of_le (Nat.le_of_not_lt back)
    rw [none]
    refine ⟨⟨rfl, rfl, rfl, rfl, rfl, rfl, rfl, inFirst⟩, ?_⟩
    rw [Nat.sub_eq_zero_of_le (Nat.le_of_not_lt back), Nat.add_zero]

theorem materialize_enters (maxRows : Nat) (pending : List (ColumnBatch Number))
    (store : DurableStore Number Nested) (done : Nat) (inFirst : OffsetIn store.pendingOff pending) :
    ∃ entered, queuedFrom store.pendingOff pending =
        entered ++ (store.materialize reading maxRows done pending).1.queued ∧
      Enters reading store (store.materialize reading maxRows done pending).1 entered ∧
      (done + (queuedFrom store.pendingOff pending :
          List (RecordId × Fields Number Nested)).length < maxRows →
        (store.materialize reading maxRows done pending).1.pending = []) := by
  induction pending generalizing store done with
  | nil =>
      exact ⟨[], rfl, ⟨rfl, rfl, rfl, rfl, rfl, rfl, rfl, inFirst⟩, fun _ => rfl⟩
  | cons batch rest ih =>
      have inBatch : store.pendingOff ≤ batch.len := inFirst
      rw [materialize_cons]
      split
      next more =>
        generalize isStop : min batch.len (store.pendingOff + (maxRows - done)) = stop
        have bounds : store.pendingOff ≤ stop ∧ stop ≤ batch.len := by omega
        dsimp only
        split
        next whole =>
          obtain ⟨one, count⟩ := @enterFrom_enters _ _ _ reading store batch stop done
            (enterFrom reading store batch stop done).1.pending 0 (offsetIn_zero _)
          obtain ⟨entered, split, two, drained⟩ := ih
            { (enterFrom reading store batch stop done).1 with pendingOff := 0 }
            (enterFrom reading store batch stop done).2 (offsetIn_zero _)
          dsimp only at split drained
          rw [queuedFrom_zero] at split drained
          refine ⟨batch.rows store.pendingOff stop ++ entered, ?_, one.trans two, fun few => ?_⟩
          · rw [queuedFrom, ← whole, split, List.append_assoc]
          · apply drained
            rw [queuedFrom, List.length_append, ColumnBatch.length_rows] at few
            rw [count, whole]
            omega
        next part =>
          obtain ⟨one, -⟩ := @enterFrom_enters _ _ _ reading store batch stop done (batch :: rest)
            stop bounds.2
          refine ⟨batch.rows store.pendingOff stop, ?_, one, fun few => ?_⟩
          · rw [queued, queuedFrom, queuedFrom, ← List.append_assoc,
              ColumnBatch.rows_append batch bounds.1 bounds.2]
          · rw [queuedFrom, List.length_append, ColumnBatch.length_rows] at few
            omega
      next enough =>
        refine ⟨[], rfl, ⟨rfl, rfl, rfl, rfl, rfl, rfl, rfl, inFirst⟩, fun few => ?_⟩
        exact absurd (Nat.lt_of_le_of_lt (Nat.le_add_right _ _) few) enough

/-! ## Stores with a queue -/

/-- A queue is counted, and its rows have ids that were taken for them. -/
structure Queued (store : DurableStore Number Nested) : Prop where
  offset : OffsetIn store.pendingOff store.pending
  count : store.pendingRows = store.queued.length
  fresh : store.store.primary.Fresh
  distinct : (store.queued.map Prod.fst).Nodup
  taken : ∀ row ∈ store.queued, row.1 < store.store.primary.nextId ∧
    store.store.primary.fieldsOf row.1 = none

/-- Rows of ids that no record has are counted. -/
theorem size_enter {rows : List (RecordId × Fields Number Nested)} {primary : Primary Number Nested}
    (distinct : (rows.map Prod.fst).Nodup) (absent : ∀ row ∈ rows, primary.fieldsOf row.1 = none) :
    (enter reading primary rows).records.size = primary.records.size + rows.length := by
  induction rows generalizing primary with
  | nil => rfl
  | cons row rows ih =>
      obtain ⟨apart, distinct⟩ := List.nodup_cons.mp distinct
      have one : (primary.applyPreparedIngest reading row.1 row.2).records.size =
          primary.records.size + 1 := by
        rw [Primary.applyPreparedIngest, Primary.indexFields, Primary.foldl_indexField]
        dsimp only
        rw [Std.ExtTreeMap.size_insert, if_neg]
        rw [Std.ExtTreeMap.contains_eq_isSome_getElem?,
          Primary.fieldsOf_eq_none.mp (absent row List.mem_cons_self)]
        exact Bool.false_ne_true
      refine (ih distinct fun other member => ?_).trans ?_
      · rw [Primary.fieldsOf_applyPreparedIngest, if_neg]
        · exact absent other (List.mem_cons_of_mem _ member)
        · exact fun same => apart (same ▸ List.mem_map_of_mem member)
      · rw [one, List.length_cons, Nat.add_assoc, Nat.add_comm 1]

/-- Entering the first rows of a queue leaves a queue. -/
theorem Queued.enters {after : DurableStore Number Nested}
    {entered : List (RecordId × Fields Number Nested)} (queue : store.Queued)
    (split : store.queued = entered ++ after.queued) (enters : Enters reading store after entered) :
    after.Queued ∧ after.generation = store.generation := by
  have distinct := queue.distinct
  rw [split, List.map_append, List.nodup_append] at distinct
  have taken := queue.taken
  rw [split] at taken
  have count := queue.count
  rw [split, List.length_append] at count
  have next : after.store.primary.nextId = store.store.primary.nextId := by
    rw [enters.primary]
    exact Primary.nextId_foldl_applyPreparedIngest _ _
  constructor
  · refine ⟨enters.offset, by rw [enters.rows]; omega, ?_, distinct.2.1, fun row member => ?_⟩
    · rw [enters.primary]
      exact RowStore.fresh_foldl_applyPreparedIngest queue.fresh fun row member =>
        (taken row (List.mem_append_left _ member)).1
    · obtain ⟨below, absent⟩ := taken row (List.mem_append_right _ member)
      refine ⟨next ▸ below, ?_⟩
      rw [enters.primary]
      refine (Primary.fieldsOf_foldl_applyPreparedIngest _ _ fun early => ?_).trans absent
      exact distinct.2.2 row.1 early row.1 (List.mem_map_of_mem member) rfl
  · have size : after.store.len = store.store.len + entered.length := by
      rw [MemoryStore.len, enters.primary]
      exact size_enter distinct.1 fun row member => (taken row (List.mem_append_left _ member)).2
    have same := enters.generation
    refine Prod.ext ?_ ?_
    · dsimp only [generation]
      rw [enters.colGen]
      grind
    · dsimp only [generation]
      rw [size, enters.rows]
      omega

theorem Queued.materializePending (queue : store.Queued) (maxRows : Nat) :
    ∃ entered, store.queued = entered ++ (store.materializePending reading maxRows).1.queued ∧
      Enters reading store (store.materializePending reading maxRows).1 entered ∧
      (store.queued.length < maxRows → (store.materializePending reading maxRows).1.pending = []) := by
  obtain ⟨entered, split, enters, drained⟩ :=
    @materialize_enters _ _ _ reading maxRows store.pending store 0 queue.offset
  exact ⟨entered, split, enters, fun few => drained (by rw [Nat.zero_add]; exact few)⟩

theorem Queued.settlePending (queue : store.Queued) :
    Enters reading store (store.settlePending reading) store.queued ∧
      (store.settlePending reading).queued = [] := by
  unfold DurableStore.settlePending
  split
  next some =>
    obtain ⟨entered, split, enters, drained⟩ :=
      @Queued.materializePending _ _ _ reading _ queue (store.pendingRows + 1)
    have empty : (store.materializePending reading (store.pendingRows + 1)).1.queued = [] := by
      rw [queued, drained (by rw [← queue.count]; exact Nat.lt_succ_self _)]
      rfl
    rw [empty, List.append_nil] at split
    exact ⟨split ▸ enters, empty⟩
  next none =>
    have empty : store.queued = [] := by
      rw [← List.length_eq_zero_iff, ← queue.count]
      exact Nat.eq_zero_of_not_pos none
    rw [empty]
    exact ⟨⟨rfl, rfl, rfl, rfl, rfl, rfl, rfl, queue.offset⟩, rfl⟩

/-! ## In step with rows -/

/-- A store with a queue, and the rows it stands for. -/
structure InStep (reading : Reading Number Nested) (store : DurableStore Number Nested)
    (rows : RowStore Number Nested) : Prop where
  queue : store.Queued
  primary : rows.primary = enter reading store.store.primary store.queued
  log : rows.log = store.log
  txCounter : rows.txCounter = store.txCounter
  activeBatch : rows.activeBatch = store.activeBatch

variable {rows : RowStore Number Nested}

theorem InStep.settled (inStep : InStep reading store rows) :
    (store.settlePending reading).rowStore = rows := by
  obtain ⟨enters, -⟩ := @Queued.settlePending _ _ _ reading _ inStep.queue
  unfold rowStore
  rw [enters.primary, enters.log, enters.txCounter, enters.activeBatch, ← inStep.primary,
    ← inStep.log, ← inStep.txCounter, ← inStep.activeBatch]

/-- Without queued rows a store stands for its own. -/
theorem inStep_of_empty {result : DurableStore Number Nested} (fresh : result.rowStore.primary.Fresh)
    (queue : result.queue = store.queue) (queued : store.Queued) (empty : store.queued = []) :
    InStep reading result result.rowStore := by
  obtain ⟨pending, rest⟩ := Prod.ext_iff.mp queue
  obtain ⟨offset, count⟩ := Prod.ext_iff.mp rest
  dsimp only [DurableStore.queue] at pending offset count
  have none : result.queued = [] := by
    rw [DurableStore.queued, pending, offset]
    exact empty
  refine ⟨⟨?_, ?_, fresh, by rw [none]; exact List.nodup_nil, by rw [none]; simp⟩, ?_, rfl, rfl, rfl⟩
  · rw [offset, pending]
    exact queued.offset
  · rw [count, queued.count, empty, none]
  · rw [none]
    rfl

/-- Entering queued rows changes nothing that the rows show. -/
theorem InStep.enters {after : DurableStore Number Nested}
    {entered : List (RecordId × Fields Number Nested)} (inStep : InStep reading store rows)
    (split : store.queued = entered ++ after.queued) (enters : Enters reading store after entered) :
    InStep reading after rows where
  queue := (inStep.queue.enters split enters).1
  primary := by rw [inStep.primary, split, enter_append, enters.primary]
  log := inStep.log.trans enters.log.symm
  txCounter := inStep.txCounter.trans enters.txCounter.symm
  activeBatch := inStep.activeBatch.trans enters.activeBatch.symm

theorem InStep.fresh (inStep : InStep reading store rows) : rows.primary.Fresh := by
  rw [inStep.primary]
  exact RowStore.fresh_foldl_applyPreparedIngest inStep.queue.fresh fun row member =>
    (inStep.queue.taken row member).1

/-- Without queued rows the rows are those of the store itself. -/
theorem InStep.rowStore_eq (inStep : InStep reading store rows) (empty : store.queued = []) :
    store.rowStore = rows := by
  have primary := inStep.primary
  rw [empty] at primary
  unfold rowStore
  rw [show store.store.primary = rows.primary from primary.symm, ← inStep.log, ← inStep.txCounter,
    ← inStep.activeBatch]

/-- A call that does what rows do, in a store without queued rows. -/
theorem InStep.does (inStep : InStep reading store rows) (empty : store.queued = [])
    {call : DurableCall Number Nested}
    {result : DurableStore Number Nested × Except AmorphicError Reply}
    (does : store.Does result (store.rowStore.answer reading call)) :
    InStep reading result.1 (rows.answer reading call).1 ∧
      result.2 = (rows.answer reading call).2 := by
  rw [inStep.rowStore_eq empty] at does
  obtain ⟨isRows, isReply, queue⟩ := does
  refine ⟨?_, isReply⟩
  rw [← isRows]
  refine inStep_of_empty ?_ queue inStep.queue empty
  rw [isRows]
  exact RowStore.fresh_answer inStep.fresh call

/-- Calls that leave the records and the queue alone. -/
theorem InStep.relog (inStep : InStep reading store rows) (result : DurableStore Number Nested)
    (primary : result.store.primary = store.store.primary) (queue : result.queue = store.queue) :
    InStep reading result
      ⟨rows.primary, result.log, result.txCounter, result.activeBatch⟩ := by
  obtain ⟨pending, rest⟩ := Prod.ext_iff.mp queue
  obtain ⟨offset, count⟩ := Prod.ext_iff.mp rest
  dsimp only [DurableStore.queue] at pending offset count
  have same : result.queued = store.queued := by
    rw [queued, pending, offset, ← queued]
  have queued := inStep.queue
  refine ⟨⟨?_, ?_, ?_, ?_, ?_⟩, ?_, rfl, rfl, rfl⟩
  · rw [offset, pending]
    exact queued.offset
  · rw [count, same]
    exact queued.count
  · rw [primary]
    exact queued.fresh
  · rw [same]
    exact queued.distinct
  · rw [same, primary]
    exact queued.taken
  · rw [same, primary]
    exact inStep.primary

/-! ## Columnar batches -/

theorem enter_skip (primary : Primary Number Nested) (next : RecordId)
    (rows : List (RecordId × Fields Number Nested)) :
    enter reading { primary with nextId := next } rows =
      { enter reading primary rows with nextId := next } := by
  unfold enter
  rw [Primary.foldl_applyPreparedIngest, Primary.foldl_applyPreparedIngest]

omit [LinearOrder Number] in
theorem queued_append (pending : List (ColumnBatch Number)) {offset : Nat}
    (inFirst : OffsetIn offset pending) (batch : ColumnBatch Number) :
    (queuedFrom offset (pending ++ [batch]) : List (RecordId × Fields Number Nested)) =
      queuedFrom offset pending ++ batch.rows 0 batch.len := by
  cases pending with
  | nil => simp [queuedFrom, show offset = 0 from inFirst]
  | cons first rest => simp [queuedFrom]

omit [LinearOrder Number] in
theorem offsetIn_append {pending : List (ColumnBatch Number)} {offset : Nat}
    (inFirst : OffsetIn offset pending) (batch : ColumnBatch Number) :
    OffsetIn offset (pending ++ [batch]) := by
  cases pending with
  | nil =>
      rw [show offset = 0 from inFirst]
      exact offsetIn_zero _
  | cons first rest => exact inFirst

/-- A batch under the ids that a store takes for it. -/
def place (store : DurableStore Number Nested) (batch : ColumnBatch Number) : ColumnBatch Number :=
  { batch with firstId := store.store.primary.nextId }

/-- What a store does with a columnar batch that it accepts. -/
theorem ingestColumnBatch_accepted {batch : ColumnBatch Number}
    (valid : batch.validate finite = .ok ()) (narrow : batch.cols.length + 1 ≤ maxFieldsError) :
    (store.ingestColumnBatch finite batch).2 = .ok (.id store.store.primary.nextId) ∧
      (store.ingestColumnBatch finite batch).1.rowStore =
        { store.rowStore with
          primary := { store.store.primary with
            nextId := store.store.primary.nextId + batch.len }
          txCounter := store.txCounter + 1
          log := (store.log.appendWrites store.txCounter
            (walChunks ((store.place batch).rows 0 batch.len))).append (.commit store.txCounter) } ∧
      (store.ingestColumnBatch finite batch).1.queue =
        (store.pending ++ [store.place batch], store.pendingOff, store.pendingRows + batch.len) := by
  unfold DurableStore.ingestColumnBatch
  rw [valid]
  dsimp only
  rw [if_neg (Nat.not_lt.mpr narrow)]
  exact ⟨rfl, rfl, rfl⟩

/-- What a store does with the rows of a columnar batch that is accepted. -/
theorem ingestFieldsBatch_accepted {batch : ColumnBatch Number}
    (narrow : batch.cols.length + 1 ≤ maxFieldsError)
    (next : rows.primary.nextId = store.store.primary.nextId) :
    rows.ingestFieldsBatch reading batch.rowFields =
      ({ rows with
        txCounter := rows.txCounter + 1
        primary := enter reading { rows.primary with
          nextId := store.store.primary.nextId + batch.len } ((store.place batch).rows 0 batch.len)
        log := (rows.log.appendWrites rows.txCounter
          (walChunks ((store.place batch).rows 0 batch.len))).append (.commit rows.txCounter) },
        .ok (.ids (List.range' store.store.primary.nextId batch.len))) := by
  have small : ∀ fields ∈ (batch.rowFields : List (Fields Number Nested)),
      fields.size ≤ maxFieldsError := by
    intro fields member
    obtain ⟨row, -, rfl⟩ := List.mem_map.mp member
    exact (batch.size_fieldsAt row).trans narrow
  have length : (batch.rowFields : List (Fields Number Nested)).length = batch.len := by
    rw [ColumnBatch.rowFields, List.length_map, List.length_range]
  have prepared : rows.primary.prepareRows batch.rowFields =
      ({ rows.primary with nextId := store.store.primary.nextId + batch.len },
        .ok ((store.place batch).rows 0 batch.len)) := by
    rcases Primary.prepareRows_spec batch.rowFields rows.primary with
      ⟨error, count, -, fields, member, large⟩ | ⟨prepared, -⟩
    · exact absurd (small fields member) (Nat.not_le.mpr large)
    · rw [prepared, batch.rows_eq_zipIdx, next, length]
      rfl
  have ids : ((store.place batch).rows 0 batch.len : List (RecordId × Fields Number Nested)).map
      Prod.fst = List.range' store.store.primary.nextId batch.len := by
    rw [ColumnBatch.rows, List.map_map, Nat.sub_zero, ← List.range_eq_range',
      List.range'_eq_map_range]
    rfl
  unfold RowStore.ingestFieldsBatch
  rw [prepared]
  dsimp only
  rw [ids, Primary.applyPreparedIngestBatch_eq]
  rfl

/-- A columnar batch that is accepted queues the rows that row ingest enters. -/
theorem InStep.ingestColumnBatch (inStep : InStep reading store rows) {batch : ColumnBatch Number}
    (valid : batch.validate finite = .ok ()) (narrow : batch.cols.length + 1 ≤ maxFieldsError) :
    InStep reading (store.ingestColumnBatch finite batch).1
      (rows.ingestFieldsBatch reading batch.rowFields).1 := by
  have next : rows.primary.nextId = store.store.primary.nextId := by
    rw [inStep.primary]
    exact Primary.nextId_foldl_applyPreparedIngest _ _
  obtain ⟨-, isRows, isQueue⟩ := @ingestColumnBatch_accepted _ _ _ finite store batch valid narrow
  rw [ingestFieldsBatch_accepted narrow next]
  generalize (store.ingestColumnBatch finite batch).1 = result at isRows isQueue
  have primary : result.store.primary = { store.store.primary with
      nextId := store.store.primary.nextId + batch.len } := congrArg RowStore.primary isRows
  obtain ⟨pending, rest⟩ := Prod.ext_iff.mp isQueue
  obtain ⟨offset, count⟩ := Prod.ext_iff.mp rest
  dsimp only [DurableStore.queue] at pending offset count
  have split : result.queued = store.queued ++ (store.place batch).rows 0 batch.len := by
    rw [queued, pending, offset]
    exact queued_append store.pending inStep.queue.offset (store.place batch)
  -- The new ids are those from the next one on.
  have placed : ∀ row ∈ ((store.place batch).rows 0 batch.len :
      List (RecordId × Fields Number Nested)), store.store.primary.nextId ≤ row.1 ∧
        row.1 < store.store.primary.nextId + batch.len := by
    intro row member
    obtain ⟨index, inRange, rfl⟩ := List.mem_map.mp member
    have bound := List.mem_range'_1.mp inRange
    exact ⟨Nat.le_add_right _ _, Nat.add_lt_add_left (by omega) _⟩
  have distinct : (((store.place batch).rows 0 batch.len :
      List (RecordId × Fields Number Nested)).map Prod.fst).Nodup := by
    rw [ColumnBatch.rows, List.map_map]
    refine List.Nodup.map ?_ List.nodup_range'
    exact fun first second same => Nat.add_left_cancel same
  constructor
  case queue =>
    refine ⟨?_, ?_, ?_, ?_, ?_⟩
    · rw [offset, pending]
      exact offsetIn_append inStep.queue.offset _
    · rw [count, split, List.length_append, ColumnBatch.length_rows, inStep.queue.count]
      rfl
    · rw [primary]
      exact RowStore.fresh_skip inStep.queue.fresh batch.len
    · rw [split, List.map_append, List.nodup_append]
      refine ⟨inStep.queue.distinct, distinct, fun first isOld second isNew => ?_⟩
      obtain ⟨old, isRow, rfl⟩ := List.mem_map.mp isOld
      obtain ⟨new, isPlaced, rfl⟩ := List.mem_map.mp isNew
      exact (Nat.lt_of_lt_of_le (inStep.queue.taken old isRow).1 (placed new isPlaced).1).ne
    · intro row member
      rw [primary]
      rcases List.mem_append.mp (split ▸ member) with old | new
      · obtain ⟨below, absent⟩ := inStep.queue.taken row old
        exact ⟨Nat.lt_add_right _ below, absent⟩
      · exact ⟨(placed row new).2, inStep.queue.fresh row.1 (placed row new).1⟩
  case primary =>
    rw [primary, split, enter_append]
    simp only [enter_skip]
    rw [inStep.primary]
  case log =>
    rw [inStep.log, inStep.txCounter]
    exact (congrArg RowStore.log isRows).symm
  case txCounter =>
    rw [inStep.txCounter]
    exact (congrArg RowStore.txCounter isRows).symm
  case activeBatch => exact inStep.activeBatch.trans (congrArg RowStore.activeBatch isRows).symm

/-! ## Runs -/

/-- The calls after which the queued rows are those that row ingest has entered: a columnar batch is
accepted, and an open batch writes only while no rows are queued. -/
def InOrder (finite : Number → Bool) (store : DurableStore Number Nested) :
    DurableCall Number Nested → Prop
  | .ingestColumnBatch batch =>
      batch.validate finite = .ok () ∧ batch.cols.length + 1 ≤ maxFieldsError
  | .batchIngestJson _ | .batchDelete _ | .batchUpdateFields .. | .rollbackBatch =>
      store.activeBatch = none ∨ store.pendingRows = 0
  | _ => True

/-- An answer as the row path gives it: the ids of all rows of a columnar batch, and none for the
number of rows that were entered. -/
def replyOfRows : DurableCall Number Nested → Except AmorphicError Reply →
    Option (Except AmorphicError Reply)
  | .ingestColumnBatch batch, .ok (.id first) => some (.ok (.ids (List.range' first batch.len)))
  | .materializePending _, _ => none
  | _, reply => some reply

theorem InStep.step (inStep : InStep reading store rows) {call : DurableCall Number Nested}
    (inOrder : store.InOrder finite call) :
    InStep reading (store.answer reading finite call).1 (rows.answer reading call).1 ∧
      replyOfRows call (store.answer reading finite call).2 =
        replyOfRows call (rows.answer reading call).2 := by
  obtain ⟨rowsPrimary, log, txCounter, activeBatch⟩ := rows
  obtain rfl : log = store.log := inStep.log
  obtain rfl : txCounter = store.txCounter := inStep.txCounter
  obtain rfl : activeBatch = store.activeBatch := inStep.activeBatch
  let rows : RowStore Number Nested :=
    ⟨rowsPrimary, store.log, store.txCounter, store.activeBatch⟩
  have same : ∀ {first second : Except AmorphicError Reply}, first = second →
      replyOfRows call first = replyOfRows call second := fun equal => equal ▸ rfl
  obtain ⟨enters, empty⟩ := @Queued.settlePending _ _ _ reading _ inStep.queue
  have settled : InStep reading (store.settlePending reading) rows :=
    inStep.enters (by rw [empty, List.append_nil]) enters
  by_cases settles : call.Settles
  · obtain ⟨next, reply⟩ := settled.does empty (store.does_settled settles)
    exact ⟨next, same reply⟩
  · -- A call of an open batch, with no open batch or without queued rows.
    have direct : ∀ (isDirect : call.Direct), store.pendingRows = 0 →
        InStep reading (store.answer reading finite call).1 (rows.answer reading call).1 ∧
          replyOfRows call (store.answer reading finite call).2 =
            replyOfRows call (rows.answer reading call).2 := by
      intro isDirect idle
      have none : store.queued = [] := by
        rw [← List.length_eq_zero_iff, ← inStep.queue.count, idle]
      obtain ⟨next, reply⟩ := inStep.does none (store.does_direct isDirect)
      exact ⟨next, same reply⟩
    cases call with
    | ingestColumnBatch batch =>
        obtain ⟨valid, narrow⟩ := inOrder
        refine ⟨inStep.ingestColumnBatch valid narrow, ?_⟩
        have next : rows.primary.nextId = store.store.primary.nextId := by
          rw [inStep.primary]
          exact Primary.nextId_foldl_applyPreparedIngest _ _
        dsimp only [answer, RowStore.answer]
        rw [(ingestColumnBatch_accepted valid narrow).1, ingestFieldsBatch_accepted narrow next]
        rfl
    | batchIngestJson json =>
        rcases inOrder with none | idle
        · simp only [answer, RowStore.answer, batchIngestJson, RowStore.batchIngestJson, none]
          exact ⟨none ▸ inStep, trivial⟩
        · exact direct trivial idle
    | batchDelete id =>
        rcases inOrder with none | idle
        · simp only [answer, RowStore.answer, batchDelete, batchOperation,
            RowStore.batchOperation, none]
          exact ⟨none ▸ inStep, trivial⟩
        · exact direct trivial idle
    | batchUpdateFields id updates =>
        rcases inOrder with none | idle
        · simp only [answer, RowStore.answer, batchUpdateFields, batchOperation,
            RowStore.batchOperation, none]
          exact ⟨none ▸ inStep, trivial⟩
        · exact direct trivial idle
    | rollbackBatch =>
        rcases inOrder with none | idle
        · simp only [answer, RowStore.answer, rollbackBatch, RowStore.rollbackBatch, none]
          exact ⟨none ▸ inStep, trivial⟩
        · exact direct trivial idle
    | commitBatch =>
        dsimp only [answer, RowStore.answer, commitBatch, RowStore.commitBatch]
        cases isBatch : store.activeBatch with
        | none =>
            rw [isBatch] at inStep
            exact ⟨inStep, rfl⟩
        | some batch => exact ⟨inStep.relog _ rfl rfl, rfl⟩
    | checkpoint => exact ⟨inStep.relog _ rfl rfl, rfl⟩
    | settlePending => exact ⟨settled, rfl⟩
    | materializePending maxRows =>
        obtain ⟨entered, split, enters, -⟩ :=
          @Queued.materializePending _ _ _ reading _ inStep.queue maxRows
        exact ⟨inStep.enters split enters, rfl⟩
    | catchUpHolograms count => exact ⟨inStep.relog _ rfl rfl, rfl⟩
    | _ => exact absurd trivial settles

/-- Without queued rows a call of the row path queues none. -/
theorem queue_asRows (idle : store.queue = ([], 0, 0)) (call : DurableCall Number Nested) :
    (store.answer reading finite call.asRows).1.queue = ([], 0, 0) := by
  obtain ⟨pending, rest⟩ := Prod.ext_iff.mp idle
  obtain ⟨offset, count⟩ := Prod.ext_iff.mp rest
  have settled : store.settlePending reading = store :=
    if_neg (Nat.not_lt.mpr (Nat.le_of_eq count))
  have settles : ∀ call : DurableCall Number Nested, call.Settles →
      (store.answer reading finite call).1.queue = ([], 0, 0) := by
    intro call isSettles
    rw [(store.does_settled isSettles).2.2, settled, idle]
  have direct : ∀ call : DurableCall Number Nested, call.Direct →
      (store.answer reading finite call).1.queue = ([], 0, 0) := by
    intro call isDirect
    rw [(store.does_direct isDirect).2.2, idle]
  cases call with
  | settlePending =>
      dsimp only [DurableCall.asRows, answer]
      rw [settled, idle]
  | materializePending maxRows =>
      dsimp only [DurableCall.asRows, answer, materializePending]
      rw [show store.pending = [] from pending]
      exact Prod.ext rfl (Prod.ext offset count)
  | catchUpHolograms count => exact idle
  | batchIngestJson | batchDelete | batchUpdateFields | commitBatch | rollbackBatch | checkpoint =>
      exact direct _ trivial
  | _ => exact settles _ trivial

/-- A store of the row path is in step with its rows. -/
theorem InStep.asRows (inStep : InStep reading store rows) (idle : store.queue = ([], 0, 0))
    (call : DurableCall Number Nested) :
    InStep reading (store.answer reading finite call.asRows).1 (rows.answer reading call).1 ∧
      replyOfRows call (store.answer reading finite call.asRows).2 =
        replyOfRows call (rows.answer reading call).2 := by
  have noRows : store.pendingRows = 0 := congrArg (fun queue => queue.2.2) idle
  have none : store.queued = [] := by
    rw [← List.length_eq_zero_iff, ← inStep.queue.count, noRows]
  cases call with
  | ingestColumnBatch batch =>
      have settled : store.settlePending reading = store :=
        if_neg (Nat.not_lt.mpr (Nat.le_of_eq noRows))
      have does := @does_settled _ _ _ reading finite store (.ingestFieldsBatch batch.rowFields)
        trivial
      rw [settled] at does
      obtain ⟨next, reply⟩ := inStep.does none does
      exact ⟨next, congrArg (replyOfRows _) reply⟩
  | batchIngestJson | batchDelete | batchUpdateFields | rollbackBatch =>
      exact inStep.step (.inr noRows)
  | _ => exact inStep.step trivial

/-- The answers of a run as the row path gives them. -/
def replies (reading : Reading Number Nested) (finite : Number → Bool)
    (translate : DurableCall Number Nested → DurableCall Number Nested) :
    DurableStore Number Nested → List (DurableCall Number Nested) →
    List (Option (Except AmorphicError Reply))
  | _, [] => []
  | store, call :: calls =>
      replyOfRows call (store.answer reading finite (translate call)).2 ::
        replies reading finite translate (store.step reading finite (translate call)) calls

/-- Two stores, one of columns and one of rows, that stand for the same rows, stay so. -/
theorem InStep.run {rowStore : DurableStore Number Nested} (inStep : InStep reading store rows)
    (rowsInStep : InStep reading rowStore rows) (idle : rowStore.queue = ([], 0, 0))
    {calls : List (DurableCall Number Nested)}
    (inOrder : AllMeet (DurableStore.step reading finite) (InOrder finite) store calls) :
    replies reading finite id store calls =
        replies reading finite DurableCall.asRows rowStore calls ∧
      ∃ rows, InStep reading (calls.foldl (DurableStore.step reading finite) store) rows ∧
        InStep reading ((calls.map DurableCall.asRows).foldl (DurableStore.step reading finite)
          rowStore) rows ∧
        ((calls.map DurableCall.asRows).foldl (DurableStore.step reading finite) rowStore).queue =
          ([], 0, 0) := by
  induction calls generalizing store rowStore rows with
  | nil => exact ⟨rfl, rows, inStep, rowsInStep, idle⟩
  | cons call calls ih =>
      obtain ⟨next, reply⟩ := inStep.step inOrder.1
      obtain ⟨rowsNext, rowsReply⟩ := @InStep.asRows _ _ _ reading finite _ _ rowsInStep idle call
      obtain ⟨same, final⟩ := ih next rowsNext (queue_asRows idle call) inOrder.2
      exact ⟨congrArg₂ List.cons (reply.trans rowsReply.symm) same, final⟩

/-! ## Opened stores -/

theorem fresh_applyOperation {memory : MemoryStore Number Nested} (fresh : memory.primary.Fresh)
    (operation : WalOperation Number Nested) :
    (applyOperation reading memory operation).primary.Fresh := by
  cases operation with
  | ingest id fields => exact fresh.applyRecoveredRecord
  | ingestChunk rows =>
      dsimp only [applyOperation]
      induction rows generalizing memory with
      | nil => exact fresh
      | cons row rows ih =>
          rw [List.foldl_cons]
          exact ih fresh.applyRecoveredRecord
  | ingestEdge source relation target => exact fresh.ingestEdge source relation target
  | delete id =>
      rw [applyOperation, (memory.primary_delete id).1]
      exact fresh.delete id
  | deleteBatch ids =>
      rw [applyOperation, (memory.primary_deleteBatch ids).1]
      exact fresh.deleteBatch ids
  | updateFields id updates =>
      rw [applyOperation, (memory.primary_updateFields id updates).1]
      exact fresh.updateFields id updates

theorem fresh_openLog (log : Log Number Nested) :
    (openLog reading log).store.primary.Fresh := by
  have each : ∀ (operations : List (WalOperation Number Nested)) (memory : MemoryStore Number Nested),
      memory.primary.Fresh →
      (operations.foldl (applyOperation reading) memory).primary.Fresh := by
    intro operations
    induction operations with
    | nil => exact fun memory fresh => fresh
    | cons operation operations ih =>
        exact fun memory fresh => ih _ (fresh_applyOperation fresh operation)
  exact each _ _ Primary.fresh_new

theorem inStep_openLog (log : Log Number Nested) :
    InStep reading (openLog reading log) (openLog reading log).rowStore :=
  ⟨⟨rfl, rfl, fresh_openLog log, List.nodup_nil, by simp [openLog, queued, queuedFrom]⟩,
    rfl, rfl, rfl, rfl⟩

/-- Once its queue is entered, a store has the records, the answers to queries and the number of rows
of a store of the row path; until then entering rows does not change its generation. -/
structure MatchesRows [DecidableEq Nested] (reading : Reading Number Nested)
    (store rowStore : DurableStore Number Nested) : Prop where
  records : ∀ id, (store.settlePending reading).store.primary.fieldsOf id =
    rowStore.store.primary.fieldsOf id
  equals : ∀ field value,
    (store.settlePending reading).store.primary.queryEquals reading field value =
      rowStore.store.primary.queryEquals reading field value
  count : (store.settlePending reading).generation.2 = rowStore.generation.2
  entering : ∀ maxRows, (store.materializePending reading maxRows).1.generation = store.generation
  committed : store.store.len + store.pendingRows = rowStore.store.len

/-- In every run in which open batches write only while no rows are queued, columnar ingest and row
ingest end with the same records and give the same answers. -/
theorem matchesRows_of_inOrder [DecidableEq Nested] (reading : Reading Number Nested)
    (finite : Number → Bool) (log : Log Number Nested) (calls : List (DurableCall Number Nested))
    (inOrder : AllMeet (DurableStore.step reading finite) (InOrder finite) (openLog reading log)
      calls) :
    replies reading finite id (openLog reading log) calls =
        replies reading finite DurableCall.asRows (openLog reading log) calls ∧
      MatchesRows reading (calls.foldl (DurableStore.step reading finite) (openLog reading log))
        ((calls.map DurableCall.asRows).foldl (DurableStore.step reading finite)
          (openLog reading log)) := by
  obtain ⟨same, rows, inStep, rowsInStep, idle⟩ :=
    (inStep_openLog log).run (inStep_openLog log) rfl inOrder
  refine ⟨same, ?_⟩
  generalize calls.foldl (DurableStore.step reading finite) (openLog reading log) = store at inStep ⊢
  generalize (calls.map DurableCall.asRows).foldl (DurableStore.step reading finite)
    (openLog reading log) = rowStore at rowsInStep idle ⊢
  have noRows : rowStore.pendingRows = 0 := congrArg (fun queue => queue.2.2) idle
  have isRows : rowStore.rowStore = rows := by
    refine rowsInStep.rowStore_eq ?_
    rw [← List.length_eq_zero_iff, ← rowsInStep.queue.count, noRows]
  have primary : (store.settlePending reading).store.primary = rowStore.store.primary :=
    congrArg RowStore.primary (inStep.settled.trans isRows.symm)
  obtain ⟨enters, empty⟩ := @Queued.settlePending _ _ _ reading _ inStep.queue
  have kept := inStep.queue.enters (by rw [empty, List.append_nil]) enters
  have settledRows : (store.settlePending reading).pendingRows = 0 := by
    rw [kept.1.count, empty, List.length_nil]
  have count : (store.settlePending reading).generation.2 = rowStore.generation.2 := by
    dsimp only [generation, MemoryStore.len]
    rw [primary, settledRows, noRows]
  refine ⟨fun id => by rw [primary], fun field value => by rw [primary], count, fun maxRows => ?_, ?_⟩
  · obtain ⟨entered, split, enters, -⟩ :=
      @Queued.materializePending _ _ _ reading _ inStep.queue maxRows
    exact (inStep.queue.enters split enters).2
  · have rowCount : store.generation.2 = rowStore.generation.2 := by rw [← kept.2, count]
    dsimp only [generation] at rowCount
    rw [rowCount, noRows, Nat.add_zero]

/-- A table of two people. -/
def people : ColumnBatch Int :=
  { tableField := "_table", table := "people", firstId := 0, len := 2
    cols := [⟨"age", .int [36, 52], none⟩, ⟨"name", .str [0, 3, 5] [97, 100, 97, 98, 111], none⟩] }

/-- Two columnar batches, of which the first is entered row by row. -/
def columnCalls : List (DurableCall Int Unit) :=
  [.ingestColumnBatch people, .materializePending 1, .ingestColumnBatch people,
    .materializePending 2, .delete 1, .beginBatch, .batchDelete 4, .commitBatch]

theorem matchesRows_columnCalls :
    AllMeet (DurableStore.step smallReading fun _ => true) (InOrder fun _ => true)
        (openLog smallReading []) columnCalls ∧
      MatchesRows smallReading
        (columnCalls.foldl (DurableStore.step smallReading fun _ => true) (openLog smallReading []))
        ((columnCalls.map DurableCall.asRows).foldl (DurableStore.step smallReading fun _ => true)
          (openLog smallReading [])) := by
  have inOrder : AllMeet (DurableStore.step smallReading fun _ => true) (InOrder fun _ => true)
      (openLog smallReading []) columnCalls := by
    refine ⟨⟨rfl, by decide⟩, trivial, ⟨rfl, by decide⟩, trivial, trivial, trivial, .inr ?_, trivial,
      trivial⟩
    decide +kernel
  exact ⟨inOrder, (matchesRows_of_inOrder smallReading (fun _ => true) [] columnCalls inOrder).2⟩

/-- A batch that is open when rows are queued. -/
def batchCalls : List (DurableCall Int Unit) :=
  [.beginBatch, .ingestColumnBatch people, .batchDelete 1]

/-- The open batch does not find the first row, which row ingest has entered. -/
theorem not_matchesRows_batchCalls :
    ¬MatchesRows smallReading
      (batchCalls.foldl (DurableStore.step smallReading fun _ => true) (openLog smallReading []))
      ((batchCalls.map DurableCall.asRows).foldl (DurableStore.step smallReading fun _ => true)
        (openLog smallReading [])) := by
  intro same
  have found := congrArg Option.isSome (same.records 1)
  revert found
  decide +kernel

end DurableStore

end JouleDB.Amorphic
