import JouleDB.Amorphic.Durable
import JouleDB.Amorphic.Effects

/-!
# A durable store without a queue

What a durable store does to its records, its log, its transaction ids and its open batch, when the
rows of a columnar batch are entered at once.  Holograms do not matter for this.  Every call of a
durable store that has no queued rows does what the call of this store does.
-/

namespace JouleDB.Amorphic

variable {Number Nested : Type}

/-- The parts of a durable store that decide its answers. -/
structure RowStore (Number Nested : Type) [Ord Number] where
  primary : Primary Number Nested
  log : Log Number Nested
  txCounter : Nat
  activeBatch : Option BatchTransaction

namespace RowStore

variable [LinearOrder Number] (reading : Reading Number Nested)

/-- Ingest a prepared record. -/
def ingestPrepared (store : RowStore Number Nested)
    (prepare : Primary Number Nested →
      Except AmorphicError (Primary Number Nested × RecordId × Fields Number Nested)) :
    RowStore Number Nested × Except AmorphicError Reply :=
  let started := { store with txCounter := store.txCounter + 1 }
  match prepare store.primary with
  | .error error => (started, .error error)
  | .ok (primary, id, fields) =>
      ({ started with
        primary := primary.applyPreparedIngest reading id fields
        log := (store.log.append (.pageWrite store.txCounter id (.ingest id fields))).append
          (.commit store.txCounter) }, .ok (.id id))

def ingestFieldsBatch (store : RowStore Number Nested) (rows : List (Fields Number Nested)) :
    RowStore Number Nested × Except AmorphicError Reply :=
  let started := { store with txCounter := store.txCounter + 1 }
  match store.primary.prepareRows rows with
  | (primary, .error error) => ({ started with primary }, .error error)
  | (primary, .ok prepared) =>
      ({ started with
        primary := primary.applyPreparedIngestBatch reading prepared
        log := (store.log.appendWrites store.txCounter (DurableStore.walChunks prepared)).append
          (.commit store.txCounter) }, .ok (.ids (prepared.map Prod.fst)))

/-- Log an operation and commit it if it succeeds. -/
def commitOperation (store : RowStore Number Nested) (operation : WalOperation Number Nested)
    (apply : Primary Number Nested → Primary Number Nested × Except AmorphicError Reply) :
    RowStore Number Nested × Except AmorphicError Reply :=
  let logged := { store with
    txCounter := store.txCounter + 1
    log := store.log.append (.pageWrite store.txCounter (u64Max - store.txCounter) operation) }
  match apply store.primary with
  | (primary, .error error) => ({ logged with primary }, .error error)
  | (primary, .ok reply) =>
      ({ logged with primary, log := logged.log.append (.commit store.txCounter) }, .ok reply)

def beginBatch (store : RowStore Number Nested) :
    RowStore Number Nested × Except AmorphicError Reply :=
  match store.activeBatch with
  | some _ => (store, .error (.ingestionError "Batch already active"))
  | none =>
      ({ store with
        txCounter := store.txCounter + 1
        activeBatch := some ⟨store.txCounter, []⟩ }, .ok .done)

def batchIngestJson (store : RowStore Number Nested) (json : String) :
    RowStore Number Nested × Except AmorphicError Reply :=
  match store.activeBatch with
  | none => (store, .error DurableStore.noBatch)
  | some batch =>
      match DurableStore.prepareJsonIngest reading store.primary json with
      | .error error => (store, .error error)
      | .ok (primary, id, fields) =>
          ({ store with
            primary := primary.applyPreparedIngest reading id fields
            log := store.log.append (.pageWrite batch.txId id (.ingest id fields))
            activeBatch := some { batch with records := batch.records ++ [id] } }, .ok (.id id))

/-- Log an operation of the open batch. -/
def batchOperation (store : RowStore Number Nested) (operation : WalOperation Number Nested)
    (apply : Primary Number Nested → Primary Number Nested × Except AmorphicError Unit) :
    RowStore Number Nested × Except AmorphicError Reply :=
  match store.activeBatch with
  | none => (store, .error DurableStore.noBatch)
  | some batch =>
      let pageId := u64Max - batch.txId - batch.records.length - 1
      let logged := { store with log := store.log.append (.pageWrite batch.txId pageId operation) }
      match apply store.primary with
      | (primary, .error error) => ({ logged with primary }, .error error)
      | (primary, .ok ()) =>
          ({ logged with
            primary
            activeBatch := some { batch with records := batch.records ++ [pageId] } }, .ok .done)

def commitBatch (store : RowStore Number Nested) :
    RowStore Number Nested × Except AmorphicError Reply :=
  match store.activeBatch with
  | none => (store, .error DurableStore.noBatch)
  | some batch =>
      ({ store with activeBatch := none, log := store.log.append (.commit batch.txId) },
        .ok (.count batch.records.length))

def rollbackBatch (store : RowStore Number Nested) :
    RowStore Number Nested × Except AmorphicError Reply :=
  match store.activeBatch with
  | none => (store, .error DurableStore.noBatch)
  | some batch =>
      ({ store with
        activeBatch := none
        log := store.log.append (.rollback batch.txId)
        primary := batch.records.foldl (fun primary id => (primary.delete reading id).1)
          store.primary }, .ok .done)

def checkpoint (store : RowStore Number Nested) :
    RowStore Number Nested × Except AmorphicError Reply :=
  let log := store.log.append .checkpoint
  ({ store with log }, .ok (.count ((log.getLast?.map (·.lsn)).getD 0)))

/-- Answer a call; the rows of a columnar batch are entered at once. -/
def answer (store : RowStore Number Nested) :
    DurableCall Number Nested → RowStore Number Nested × Except AmorphicError Reply
  | .ingestJson json =>
      store.ingestPrepared reading fun primary =>
        DurableStore.prepareJsonIngest reading primary json
  | .ingestRow columns values =>
      store.ingestPrepared reading fun primary =>
        DurableStore.prepareRowIngest primary columns values
  | .ingestFieldsBatch rows => store.ingestFieldsBatch reading rows
  | .ingestColumnBatch batch => store.ingestFieldsBatch reading batch.rowFields
  | .ingestEdge source relation target =>
      store.commitOperation (.ingestEdge source relation target) fun primary =>
        let (primary, id) := primary.ingestEdge reading source relation target
        (primary, .ok (.id id))
  | .delete id =>
      store.commitOperation (.delete id) fun primary =>
        let (primary, result) := primary.delete reading id
        (primary, result.map fun _ => .done)
  | .deleteBatch ids =>
      if ids = [] then (store, .ok (.count 0))
      else
        store.commitOperation (.deleteBatch ids) fun primary =>
          let (primary, count) := primary.deleteBatch reading ids
          (primary, .ok (.count count))
  | .updateFields id updates =>
      store.commitOperation (.updateFields id updates) fun primary =>
        let (primary, result) := primary.updateFields reading id updates
        (primary, result.map fun _ => .done)
  | .beginBatch => store.beginBatch
  | .batchIngestJson json => store.batchIngestJson reading json
  | .batchDelete id => store.batchOperation (.delete id) fun primary => primary.delete reading id
  | .batchUpdateFields id updates =>
      store.batchOperation (.updateFields id updates) fun primary =>
        primary.updateFields reading id updates
  | .commitBatch => store.commitBatch
  | .rollbackBatch => store.rollbackBatch reading
  | .checkpoint => store.checkpoint
  | .settlePending | .materializePending _ | .catchUpHolograms _ => (store, .ok .done)

end RowStore

namespace DurableCall

/-- Calls that enter the queued rows first. -/
def Settles : DurableCall Number Nested → Prop
  | .ingestJson _ | .ingestRow .. | .ingestFieldsBatch _ | .ingestEdge .. | .delete _
  | .deleteBatch _ | .updateFields .. | .beginBatch => True
  | _ => False

/-- Calls that work on the store as it is. -/
def Direct : DurableCall Number Nested → Prop
  | .batchIngestJson _ | .batchDelete _ | .batchUpdateFields .. | .commitBatch | .rollbackBatch
  | .checkpoint => True
  | _ => False

instance (call : DurableCall Number Nested) : Decidable call.Settles := by
  cases call <;> unfold Settles <;> infer_instance

instance (call : DurableCall Number Nested) : Decidable call.Direct := by
  cases call <;> unfold Direct <;> infer_instance

end DurableCall

namespace MemoryStore

variable [LinearOrder Number] {reading : Reading Number Nested}
variable (store : MemoryStore Number Nested)

theorem primary_delete (id : RecordId) :
    (store.delete reading id).1.primary = (store.primary.delete reading id).1 ∧
      (store.delete reading id).2 = (store.primary.delete reading id).2 := by
  unfold delete
  rcases store.primary.delete reading id with ⟨primary, error | ⟨⟩⟩ <;> exact ⟨rfl, rfl⟩

theorem primary_updateFields (id : RecordId) (updates : Updates Number Nested) :
    (store.updateFields reading id updates).1.primary =
        (store.primary.updateFields reading id updates).1 ∧
      (store.updateFields reading id updates).2 =
        (store.primary.updateFields reading id updates).2 := by
  unfold updateFields
  rcases store.primary.updateFields reading id updates with ⟨primary, error | ⟨⟩⟩ <;>
    exact ⟨rfl, rfl⟩

theorem primary_deleteBatch (ids : List RecordId) :
    (store.deleteBatch reading ids).1.primary = (store.primary.deleteBatch reading ids).1 ∧
      (store.deleteBatch reading ids).2 = (store.primary.deleteBatch reading ids).2 := by
  unfold deleteBatch
  dsimp only
  split
  next none =>
    have nobody : store.primary.deleteBatch reading ids = (store.primary, 0) := by
      unfold Primary.deleteBatch
      dsimp only
      rw [none]
      rfl
    rw [nobody]
    exact ⟨rfl, rfl⟩
  · exact ⟨rfl, rfl⟩

theorem primary_foldl_delete (ids : List RecordId) :
    (ids.foldl (fun memory id => (memory.delete reading id).1) store).primary =
      ids.foldl (fun primary id => (primary.delete reading id).1) store.primary := by
  induction ids generalizing store with
  | nil => rfl
  | cons id ids ih => rw [List.foldl_cons, ih, (primary_delete store id).1, List.foldl_cons]

end MemoryStore

namespace DurableStore

variable [LinearOrder Number] {reading : Reading Number Nested} {finite : Number → Bool}
variable (store : DurableStore Number Nested)

/-- The parts of a store that decide its answers. -/
def rowStore : RowStore Number Nested :=
  ⟨store.store.primary, store.log, store.txCounter, store.activeBatch⟩

/-- The queue of a store. -/
def queue : List (ColumnBatch Number) × Nat × Nat :=
  (store.pending, store.pendingOff, store.pendingRows)

/-- A store does what another store of rows does, and leaves its queue alone. -/
def Does (store : DurableStore Number Nested)
    (result : DurableStore Number Nested × Except AmorphicError Reply)
    (rows : RowStore Number Nested × Except AmorphicError Reply) : Prop :=
  result.1.rowStore = rows.1 ∧ result.2 = rows.2 ∧ result.1.queue = store.queue

theorem does_commitOperation (operation : WalOperation Number Nested)
    {apply : MemoryStore Number Nested → MemoryStore Number Nested × Except AmorphicError Reply}
    {act : Primary Number Nested → Primary Number Nested × Except AmorphicError Reply}
    (same : ∀ memory, (apply memory).1.primary = (act memory.primary).1 ∧
      (apply memory).2 = (act memory.primary).2) :
    store.Does (store.commitOperation operation apply)
      (store.rowStore.commitOperation operation act) := by
  obtain ⟨primary, reply⟩ := same store.store
  have isPrimary : act store.rowStore.primary = ((apply store.store).1.primary,
    (apply store.store).2) := Prod.ext primary.symm reply.symm
  unfold commitOperation RowStore.commitOperation
  rw [isPrimary]
  dsimp only [nextTxId, logPageWrite]
  rcases apply store.store with ⟨memory, error | reply⟩ <;> exact ⟨rfl, rfl, rfl⟩

theorem does_batchOperation (operation : WalOperation Number Nested)
    {apply : MemoryStore Number Nested → MemoryStore Number Nested × Except AmorphicError Unit}
    {act : Primary Number Nested → Primary Number Nested × Except AmorphicError Unit}
    (same : ∀ memory, (apply memory).1.primary = (act memory.primary).1 ∧
      (apply memory).2 = (act memory.primary).2) :
    store.Does (store.batchOperation operation apply)
      (store.rowStore.batchOperation operation act) := by
  obtain ⟨primary, reply⟩ := same store.store
  have isPrimary : act store.rowStore.primary = ((apply store.store).1.primary,
    (apply store.store).2) := Prod.ext primary.symm reply.symm
  unfold batchOperation RowStore.batchOperation
  rw [isPrimary]
  dsimp only [rowStore]
  cases isBatch : store.activeBatch with
  | none => exact ⟨by simp only [rowStore, isBatch], rfl, rfl⟩
  | some batch =>
      dsimp only [logPageWrite]
      rcases apply store.store with ⟨memory, error | ⟨⟩⟩
      · exact ⟨by simp only [rowStore, isBatch], rfl, rfl⟩
      · exact ⟨rfl, rfl, rfl⟩

/-- A call of an open batch, or one that does not write records, does what it does to rows. -/
theorem does_direct {call : DurableCall Number Nested} (direct : call.Direct) :
    store.Does (store.answer reading finite call) (store.rowStore.answer reading call) := by
  cases call with
  | batchIngestJson json =>
      unfold answer batchIngestJson RowStore.answer RowStore.batchIngestJson
      rw [show store.rowStore.activeBatch = store.activeBatch from rfl]
      rcases store.activeBatch with _ | batch
      · exact ⟨rfl, rfl, rfl⟩
      · rw [show store.rowStore.primary = store.store.primary from rfl]
        dsimp only
        rcases prepareJsonIngest reading store.store.primary json with
          error | ⟨primary, id, fields⟩ <;> exact ⟨rfl, rfl, rfl⟩
  | batchDelete id =>
      exact store.does_batchOperation _ fun memory => memory.primary_delete id
  | batchUpdateFields id updates =>
      exact store.does_batchOperation _ fun memory => memory.primary_updateFields id updates
  | commitBatch =>
      unfold answer commitBatch RowStore.answer RowStore.commitBatch
      rw [show store.rowStore.activeBatch = store.activeBatch from rfl]
      rcases store.activeBatch with _ | batch <;> exact ⟨rfl, rfl, rfl⟩
  | rollbackBatch =>
      unfold answer rollbackBatch RowStore.answer RowStore.rollbackBatch
      rw [show store.rowStore.activeBatch = store.activeBatch from rfl]
      rcases store.activeBatch with _ | batch
      · exact ⟨rfl, rfl, rfl⟩
      · refine ⟨?_, rfl, rfl⟩
        dsimp only [rowStore]
        rw [MemoryStore.primary_foldl_delete]
  | checkpoint => exact ⟨rfl, rfl, rfl⟩
  | _ => exact direct.elim

/-- Other calls that write do so after the queued rows are entered. -/
theorem does_settled {call : DurableCall Number Nested} (settles : call.Settles) :
    (store.settlePending reading).Does (store.answer reading finite call)
      ((store.settlePending reading).rowStore.answer reading call) := by
  generalize isSettled : store.settlePending reading = settled
  have prepared : ∀ prepare : Primary Number Nested →
      Except AmorphicError (Primary Number Nested × RecordId × Fields Number Nested),
      settled.Does (store.ingestPrepared reading prepare)
        (settled.rowStore.ingestPrepared reading prepare) := by
    intro prepare
    unfold ingestPrepared RowStore.ingestPrepared
    rw [isSettled, show settled.rowStore.primary = settled.store.primary from rfl]
    dsimp only [nextTxId]
    rcases prepare settled.store.primary with error | ⟨primary, id, fields⟩ <;>
      exact ⟨rfl, rfl, rfl⟩
  cases call with
  | ingestJson json => exact prepared _
  | ingestRow columns values => exact prepared _
  | ingestFieldsBatch rows =>
      unfold answer ingestFieldsBatch RowStore.answer RowStore.ingestFieldsBatch
      rw [isSettled, show settled.rowStore.primary = settled.store.primary from rfl]
      dsimp only [nextTxId]
      rcases settled.store.primary.prepareRows rows with ⟨primary, error | prepared⟩ <;>
        exact ⟨rfl, rfl, rfl⟩
  | ingestEdge source relation target =>
      unfold answer ingestEdge
      rw [isSettled]
      exact settled.does_commitOperation _ fun memory => ⟨rfl, rfl⟩
  | delete id =>
      unfold answer delete
      rw [isSettled]
      refine settled.does_commitOperation _ fun memory => ⟨(memory.primary_delete id).1, ?_⟩
      exact congrArg (Except.map fun _ => Reply.done) (memory.primary_delete id).2
  | deleteBatch ids =>
      unfold answer deleteBatch RowStore.answer
      rw [isSettled]
      dsimp only
      split
      · exact ⟨rfl, rfl, rfl⟩
      · refine settled.does_commitOperation _ fun memory =>
          ⟨(memory.primary_deleteBatch ids).1, ?_⟩
        exact congrArg (fun count => Except.ok (Reply.count count)) (memory.primary_deleteBatch ids).2
  | updateFields id updates =>
      unfold answer updateFields
      rw [isSettled]
      refine settled.does_commitOperation _ fun memory =>
        ⟨(memory.primary_updateFields id updates).1, ?_⟩
      exact congrArg (Except.map fun _ => Reply.done) (memory.primary_updateFields id updates).2
  | beginBatch =>
      unfold answer beginBatch RowStore.answer RowStore.beginBatch
      rw [isSettled, show settled.rowStore.activeBatch = settled.activeBatch from rfl]
      dsimp only [nextTxId]
      rcases settled.activeBatch with _ | batch <;> exact ⟨rfl, rfl, rfl⟩
  | _ => exact settles.elim

end DurableStore

/-! ## Fresh ids -/

namespace DurableStore

variable [LinearOrder Number] {reading : Reading Number Nested}

/-- A record is prepared by taking the next id. -/
def Prepares (prepare : Primary Number Nested →
    Except AmorphicError (Primary Number Nested × RecordId × Fields Number Nested)) : Prop :=
  ∀ primary taken id fields, prepare primary = .ok (taken, id, fields) →
    taken = { primary with nextId := primary.nextId + 1 } ∧ id = primary.nextId

theorem prepareFieldsIngest_ok {primary taken : Primary Number Nested} {id : RecordId}
    {fields : Fields Number Nested} (prepared : primary.prepareFieldsIngest fields = .ok (taken, id)) :
    taken = { primary with nextId := primary.nextId + 1 } ∧ id = primary.nextId := by
  unfold Primary.prepareFieldsIngest at prepared
  split at prepared
  · cases prepared
  · cases prepared
    exact ⟨rfl, rfl⟩

theorem prepares_of_fields {primary taken : Primary Number Nested} {id : RecordId}
    {given fields : Fields Number Nested}
    (prepared : (do
      let (primary, id) ← primary.prepareFieldsIngest given
      return (primary, id, given) : Except AmorphicError _) = .ok (taken, id, fields)) :
    taken = { primary with nextId := primary.nextId + 1 } ∧ id = primary.nextId := by
  cases result : primary.prepareFieldsIngest given with
  | error error =>
      rw [result] at prepared
      cases prepared
  | ok pair =>
      rw [result] at prepared
      cases prepared
      exact prepareFieldsIngest_ok result

theorem prepares_json (json : String) :
    Prepares fun primary => prepareJsonIngest reading primary json := by
  intro primary taken id fields prepared
  unfold prepareJsonIngest at prepared
  split at prepared
  · cases prepared
  · cases prepared
  · exact prepares_of_fields prepared

theorem prepares_row (columns values : List String) :
    Prepares fun primary : Primary Number Nested => prepareRowIngest primary columns values := by
  intro primary taken id fields prepared
  unfold prepareRowIngest at prepared
  split at prepared
  · cases prepared
  · exact prepares_of_fields prepared

end DurableStore

namespace RowStore

variable [LinearOrder Number] {reading : Reading Number Nested} {store : RowStore Number Nested}

theorem fresh_skip {primary : Primary Number Nested} (fresh : primary.Fresh) (count : Nat) :
    ({ primary with nextId := primary.nextId + count } : Primary Number Nested).Fresh :=
  fun id above => fresh id (Nat.le_of_add_right_le above)

theorem fresh_foldl_applyPreparedIngest {primary : Primary Number Nested} (fresh : primary.Fresh)
    {rows : List (RecordId × Fields Number Nested)} (below : ∀ row ∈ rows, row.1 < primary.nextId) :
    (rows.foldl (fun primary row => primary.applyPreparedIngest reading row.1 row.2)
      primary).Fresh := by
  induction rows generalizing primary with
  | nil => exact fresh
  | cons row rows ih =>
      refine ih (fresh.applyPreparedIngest (below row List.mem_cons_self)) fun other member => ?_
      rw [Primary.nextId_applyPreparedIngest]
      exact below other (List.mem_cons_of_mem _ member)

theorem fresh_ingestFieldsBatch (fresh : store.primary.Fresh) (rows : List (Fields Number Nested)) :
    (store.ingestFieldsBatch reading rows).1.primary.Fresh := by
  unfold ingestFieldsBatch
  rcases Primary.prepareRows_spec rows store.primary with ⟨error, count, failed, -⟩ | ⟨prepared, -⟩
  · rw [failed]
    exact fresh_skip fresh count
  · rw [prepared]
    dsimp only
    rw [Primary.applyPreparedIngestBatch_eq]
    refine fresh_foldl_applyPreparedIngest (fresh_skip fresh rows.length) fun row member => ?_
    exact (Primary.mem_zipIdx_swap member).2.1

theorem fresh_foldl_delete {primary : Primary Number Nested} (fresh : primary.Fresh)
    (ids : List RecordId) :
    (ids.foldl (fun primary id => (primary.delete reading id).1) primary).Fresh := by
  induction ids generalizing primary with
  | nil => exact fresh
  | cons id ids ih => exact ih (fresh.delete id)

theorem fresh_answer (fresh : store.primary.Fresh) (call : DurableCall Number Nested) :
    (store.answer reading call).1.primary.Fresh := by
  have taken : ∀ {prepare}, DurableStore.Prepares prepare → ∀ {primary id fields},
      prepare store.primary = .ok (primary, id, fields) →
      (primary.applyPreparedIngest reading id fields).Fresh := by
    intro prepare prepares primary id fields prepared
    obtain ⟨rfl, rfl⟩ := prepares _ _ _ _ prepared
    exact (fresh_skip fresh 1).applyPreparedIngest (Nat.lt_succ_self _)
  have ingested : ∀ {prepare}, DurableStore.Prepares prepare →
      (store.ingestPrepared reading prepare).1.primary.Fresh := by
    intro prepare prepares
    unfold ingestPrepared
    cases prepared : prepare store.primary with
    | error error => exact fresh
    | ok record => exact taken prepares prepared
  have committed : ∀ operation {act : Primary Number Nested →
      Primary Number Nested × Except AmorphicError Reply}, (act store.primary).1.Fresh →
      (store.commitOperation operation act).1.primary.Fresh := by
    intro operation act kept
    unfold commitOperation
    rcases isResult : act store.primary with ⟨primary, error | reply⟩ <;> rw [isResult] at kept <;>
      exact kept
  have batched : ∀ operation {act : Primary Number Nested →
      Primary Number Nested × Except AmorphicError Unit}, (act store.primary).1.Fresh →
      (store.batchOperation operation act).1.primary.Fresh := by
    intro operation act kept
    unfold batchOperation
    cases store.activeBatch with
    | none => exact fresh
    | some batch =>
        rcases isResult : act store.primary with ⟨primary, error | ⟨⟩⟩ <;> rw [isResult] at kept <;>
          exact kept
  cases call with
  | ingestJson json => exact ingested (DurableStore.prepares_json json)
  | ingestRow columns values => exact ingested (DurableStore.prepares_row columns values)
  | ingestFieldsBatch rows => exact fresh_ingestFieldsBatch fresh rows
  | ingestColumnBatch batch => exact fresh_ingestFieldsBatch fresh batch.rowFields
  | ingestEdge source relation target => exact committed _ (fresh.ingestEdge source relation target)
  | delete id => exact committed _ (fresh.delete id)
  | deleteBatch ids =>
      dsimp only [answer]
      split
      · exact fresh
      · exact committed _ (fresh.deleteBatch ids)
  | updateFields id updates => exact committed _ (fresh.updateFields id updates)
  | beginBatch =>
      unfold answer beginBatch
      cases store.activeBatch <;> exact fresh
  | batchIngestJson json =>
      unfold answer batchIngestJson
      cases store.activeBatch with
      | none => exact fresh
      | some batch =>
          cases prepared : DurableStore.prepareJsonIngest reading store.primary json with
          | error error => simp only [prepared]; exact fresh
          | ok record =>
              simp only [prepared]
              exact taken (DurableStore.prepares_json json) prepared
  | batchDelete id => exact batched _ (fresh.delete id)
  | batchUpdateFields id updates => exact batched _ (fresh.updateFields id updates)
  | commitBatch =>
      unfold answer commitBatch
      cases store.activeBatch <;> exact fresh
  | rollbackBatch =>
      unfold answer rollbackBatch
      cases store.activeBatch with
      | none => exact fresh
      | some batch => exact fresh_foldl_delete fresh batch.records
  | checkpoint | settlePending | materializePending maxRows | catchUpHolograms count => exact fresh

end RowStore

end JouleDB.Amorphic
