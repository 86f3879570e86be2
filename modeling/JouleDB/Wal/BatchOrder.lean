import JouleDB.Wal.Batch

/-!
# Batches append what single calls append

On a log file that takes all writes, a batch leaves the same log as its page writes logged one at a
time, whatever the chunks.  In a build with overflow checks this needs the LSNs of the batch to be
below the greatest integer.
-/

namespace JouleDB.Wal

open WalManager

namespace LogDevice

/-- Every request succeeds. -/
def Reliable (device : LogDevice) : Prop := ∀ request, device.answer request = .ok

end LogDevice

/-- Everything that was appended, whether it has reached the file or not. -/
def WalManager.contents (wal : WalManager) : Bytes := wal.file ++ wal.buffered

/-- A log that differs from another one by bytes at its end and in the requests made. -/
structure Appended (before : WalManager) (bytes : Bytes) (after : WalManager) : Prop where
  contents : after.contents = before.contents ++ bytes
  currentLsn : after.currentLsn = before.currentLsn
  lastCheckpointLsn : after.lastCheckpointLsn = before.lastCheckpointLsn
  filePosition : after.filePosition = before.filePosition
  committedLsn : after.committedLsn = before.committedLsn

/-- A call leaves a state of some kind, or it does not succeed because a device is faulty. -/
def Leaves {σ α : Type} (faulty : Prop) (call : Exec σ Event StorageError α) (post : α → σ → Prop)
    (state : σ) : Prop :=
  Exec.Ends call (fun outcome final _ =>
    match outcome with
    | .ok value => post value final
    | .err _ | .halt _ => faulty) state

namespace Leaves

variable {σ α β : Type} {faulty : Prop} {call : Exec σ Event StorageError α}
variable {post : α → σ → Prop} {state : σ}

theorem bind {next : α → Exec σ Event StorageError β} {post' : β → σ → Prop}
    (first : Leaves faulty call post state)
    (second : ∀ value middle, post value middle → Leaves faulty (next value) post' middle) :
    Leaves faulty (call >>= next) post' state := by
  refine Exec.ends_bind.mpr (Exec.Ends.mono first fun outcome middle log holds => ?_)
  cases outcome with
  | ok value => exact second value middle holds
  | err error => exact holds
  | halt cause => exact holds

theorem mono {post' : α → σ → Prop} (leaves : Leaves faulty call post state)
    (weaker : ∀ value final, post value final → post' value final) :
    Leaves faulty call post' state := by
  refine Exec.Ends.mono leaves fun outcome final _ holds => ?_
  cases outcome with
  | ok value => exact weaker value final holds
  | err error => exact holds
  | halt cause => exact holds

theorem pure {value : α} (holds : post value state) :
    Leaves faulty (Pure.pure value : Exec σ Event StorageError α) post state := holds

theorem modify {change : σ → σ} {post : Unit → σ → Prop} (holds : post () (change state)) :
    Leaves faulty (Exec.modify change) post state := holds

theorem getBind {next : σ → Exec σ Event StorageError α}
    (rest : Leaves faulty (next state) post state) :
    Leaves faulty (Exec.get >>= next) post state :=
  Exec.ends_bind.mpr rest

theorem modifyBind {change : σ → σ} {next : Unit → Exec σ Event StorageError α}
    (rest : Leaves faulty (next ()) post (change state)) :
    Leaves faulty (Exec.modify change >>= next) post state :=
  Exec.ends_bind.mpr rest

theorem liftBind {outcome : Outcome StorageError β} {value : β} (succeeds : outcome = .ok value)
    {next : β → Exec σ Event StorageError α} (rest : Leaves faulty (next value) post state) :
    Leaves faulty (Exec.lift outcome >>= next) post state := by
  refine Exec.ends_bind.mpr ?_
  rw [succeeds]
  exact rest

theorem zoom {τ : Type} {view : τ → σ} {update : σ → τ → τ} {whole : τ} {post : α → τ → Prop}
    (leaves : Leaves faulty call (fun value part => post value (update part whole)) (view whole)) :
    Leaves faulty (Exec.zoom view update call) post whole := leaves

end Leaves

section Appending

variable {device : LogDevice} {wal : WalManager}

theorem Appended.refl (wal : WalManager) : Appended wal [] wal :=
  ⟨(List.append_nil _).symm, rfl, rfl, rfl, rfl⟩

theorem Appended.trans {between after : WalManager} {bytes more : Bytes}
    (first : Appended wal bytes between) (second : Appended between more after) :
    Appended wal (bytes ++ more) after where
  contents := by rw [second.contents, first.contents, List.append_assoc]
  currentLsn := second.currentLsn.trans first.currentLsn
  lastCheckpointLsn := second.lastCheckpointLsn.trans first.lastCheckpointLsn
  filePosition := second.filePosition.trans first.filePosition
  committedLsn := second.committedLsn.trans first.committedLsn

theorem writeOut_leaves (message : String) (bytes : Bytes) :
    Leaves (¬device.Reliable) (writeOut device message bytes) (fun _ after => after =
      { wal with file := wal.file ++ bytes, requests := wal.requests + 1 }) wal := by
  refine .getBind (.modifyBind ?_)
  cases answered : device.answer wal.requests with
  | ok => exact .modify rfl
  | fail => exact fun reliable => nomatch answered.symm.trans (reliable _)
  | crash => exact fun reliable => nomatch answered.symm.trans (reliable _)

/-- Emptying the buffer moves bytes to the file. -/
theorem flushBuf_leaves (message : String) :
    Leaves (¬device.Reliable) (flushBuf device message)
      (fun _ after => Appended wal [] after ∧ after.buffered = []) wal := by
  refine .getBind ?_
  split
  next empty => exact .pure ⟨.refl wal, empty⟩
  next =>
    refine (writeOut_leaves message wal.buffered).bind ?_
    rintro _ _ rfl
    exact .modify ⟨⟨by simp [contents], rfl, rfl, rfl, rfl⟩, rfl⟩

theorem makeRoom_leaves (bytes : Bytes) :
    Leaves (¬device.Reliable) (makeRoom device bytes)
      (fun _ after => Appended wal [] after ∧
        (bytes.length ≥ bufferCapacity → after.buffered = [])) wal := by
  refine .getBind ?_
  split
  next =>
    exact (flushBuf_leaves _).mono fun _ _ ⟨appended, empty⟩ => ⟨appended, fun _ => empty⟩
  next fits =>
    refine .pure ⟨.refl wal, fun large => List.length_eq_zero_iff.mp ?_⟩
    have capacity : 0 < bufferCapacity := by decide
    omega

/-- Writing through the buffer appends the bytes. -/
theorem writeAll_leaves (bytes : Bytes) :
    Leaves (¬device.Reliable) (writeAll device bytes) (fun _ after => Appended wal bytes after) wal := by
  refine .getBind ?_
  split
  next => exact .modify ⟨by simp [contents], rfl, rfl, rfl, rfl⟩
  next =>
    refine (makeRoom_leaves bytes).bind fun _ middle ⟨appended, direct⟩ => ?_
    split
    next large =>
      refine (writeOut_leaves _ bytes).mono ?_
      rintro _ _ rfl
      refine appended.trans ⟨?_, rfl, rfl, rfl, rfl⟩
      simp [contents, direct large]
    next =>
      refine .modify (appended.trans ⟨?_, rfl, rfl, rfl, rfl⟩)
      simp [contents]

end Appending

/-! ## Logs that differ by page writes -/

/-- The bytes of page writes with successive LSNs. -/
def pageWriteBytes (txId : U64) : U64 → List (U64 × Bytes) → Bytes
  | _, [] => []
  | lsn, (pageId, data) :: rest =>
      (WalEntry.pageWrite lsn txId pageId data).image ++ pageWriteBytes txId (lsn + 1) rest

/-- The payload of a page write is not too large. -/
def Fits (write : U64 × Bytes) : Prop := 16 + write.2.length ≤ maxWalPayload

/-- A log that differs from another one by records with successive LSNs. -/
structure Grown (before : WalManager) (bytes : Bytes) (count : Nat) (after : WalManager) : Prop where
  contents : after.contents = before.contents ++ bytes
  currentLsn : after.currentLsn = before.currentLsn + Fin.ofNat (2 ^ 64) count
  lastCheckpointLsn : after.lastCheckpointLsn = before.lastCheckpointLsn
  filePosition : after.filePosition = before.filePosition + bytes.length
  committedLsn : after.committedLsn = before.committedLsn

theorem add_ofNat (lsn : U64) (first second : Nat) :
    lsn + Fin.ofNat (2 ^ 64) first + Fin.ofNat (2 ^ 64) second =
      lsn + Fin.ofNat (2 ^ 64) (first + second) := by
  apply Fin.ext
  simp only [Fin.val_add, Fin.ofNat]
  omega

theorem Grown.refl (wal : WalManager) : Grown wal [] 0 wal where
  contents := (List.append_nil _).symm
  currentLsn := (Fin.add_zero wal.currentLsn).symm
  lastCheckpointLsn := rfl
  filePosition := rfl
  committedLsn := rfl

theorem Grown.trans {before between after : WalManager} {bytes more : Bytes} {count rest : Nat}
    (first : Grown before bytes count between) (second : Grown between more rest after) :
    Grown before (bytes ++ more) (count + rest) after where
  contents := by rw [second.contents, first.contents, List.append_assoc]
  currentLsn := by rw [second.currentLsn, first.currentLsn, add_ofNat]
  lastCheckpointLsn := second.lastCheckpointLsn.trans first.lastCheckpointLsn
  filePosition := by rw [second.filePosition, first.filePosition, List.length_append, Nat.add_assoc]
  committedLsn := second.committedLsn.trans first.committedLsn

theorem logPageWrite_leaves {device : LogDevice} {wal : WalManager} {txId pageId : U64}
    {data : Bytes} (fits : Fits (pageId, data)) :
    Leaves (¬device.Reliable) (WalManager.logPageWrite device txId pageId data)
      (fun lsn after => lsn = wal.currentLsn ∧
        Grown wal (WalEntry.pageWrite wal.currentLsn txId pageId data).image 1 after) wal := by
  have encoded : (WalEntry.pageWrite wal.currentLsn txId pageId data).encode =
      .ok (WalEntry.pageWrite wal.currentLsn txId pageId data).image :=
    WalEntry.encode_logged (.pageWrite _ _ _ _ fits)
  have taken : Leaves (¬device.Reliable) nextLsn (fun lsn after => lsn = wal.currentLsn ∧
      after = { wal with currentLsn := wal.currentLsn + 1 }) wal :=
    .getBind (.modifyBind (.pure ⟨rfl, rfl⟩))
  refine taken.bind ?_
  rintro _ _ ⟨rfl, rfl⟩
  have appended : Leaves (¬device.Reliable)
      (appendEntry device (.pageWrite wal.currentLsn txId pageId data))
      (fun _ after => Grown wal (WalEntry.pageWrite wal.currentLsn txId pageId data).image 1 after)
      { wal with currentLsn := wal.currentLsn + 1 } := by
    refine .liftBind encoded ((writeAll_leaves _).bind fun _ after appended => .modify ?_)
    exact ⟨appended.contents, appended.currentLsn, appended.lastCheckpointLsn,
      congrArg (· + _) appended.filePosition, appended.committedLsn⟩
  exact appended.bind fun _ _ grown => .pure ⟨rfl, grown⟩

namespace TrackedLog

/-- The tracked transactions after tracking one more. -/
def withActive (active : List (U64 × U64)) (txId lsn : U64) : List (U64 × U64) :=
  if (active.lookup txId).isSome then active else upsert active txId lsn

theorem withActive_again (active : List (U64 × U64)) (txId first later : U64) :
    withActive (withActive active txId first) txId later = withActive active txId first := by
  have tracked : ((withActive active txId first).lookup txId).isSome := by
    unfold withActive
    split
    next present => exact present
    next => rw [lookup_upsert, if_pos rfl]; rfl
  exact if_pos tracked

/-- A log that differs from another one by page writes of a transaction. -/
structure Logs (before : TrackedLog) (txId : U64) (writes : List (U64 × Bytes))
    (after : TrackedLog) : Prop where
  grown : Grown before.wal (pageWriteBytes txId before.wal.currentLsn writes) writes.length after.wal
  active : after.activeTransactions =
    if writes = [] then before.activeTransactions
    else withActive before.activeTransactions txId before.wal.currentLsn

variable {device : LogDevice} {build : Build} {txId : U64} {log : TrackedLog}

theorem logPageWrite_logs {pageId : U64} {data : Bytes} (fits : Fits (pageId, data)) :
    Leaves (¬device.Reliable) (TrackedLog.logPageWrite device txId pageId data)
      (fun _ after => Logs log txId [(pageId, data)] after) log := by
  have written : Leaves (¬device.Reliable)
      (onLog (WalManager.logPageWrite device txId pageId data))
      (fun lsn after => lsn = log.wal.currentLsn ∧
        after.activeTransactions = log.activeTransactions ∧
        Grown log.wal (WalEntry.pageWrite log.wal.currentLsn txId pageId data).image 1 after.wal)
      log :=
    .zoom ((logPageWrite_leaves fits).mono fun _ _ ⟨same, grown⟩ => ⟨same, rfl, grown⟩)
  refine written.bind ?_
  rintro _ middle ⟨rfl, active, grown⟩
  refine .modifyBind (.pure ⟨?_, ?_⟩)
  · simpa [pageWriteBytes] using grown
  · rw [if_neg (List.cons_ne_nil _ _), withActive, ← active]

theorem logEach_leaves {writes : List (U64 × Bytes)} (fits : ∀ write ∈ writes, Fits write) :
    Leaves (¬device.Reliable) (logEach device txId writes)
      (fun _ after => Logs log txId writes after) log := by
  induction writes generalizing log with
  | nil => exact .pure ⟨.refl log.wal, rfl⟩
  | cons write rest ih =>
      obtain ⟨pageId, data⟩ := write
      have one : Leaves (¬device.Reliable) (TrackedLog.logPageWrite device txId pageId data)
          (fun _ after => Logs log txId [(pageId, data)] after) log :=
        logPageWrite_logs (fits _ List.mem_cons_self)
      refine one.bind fun _ middle first => ?_
      refine (ih fun write member => fits write (List.mem_cons_of_mem _ member)).mono ?_
      intro _ after second
      have next : middle.wal.currentLsn = log.wal.currentLsn + 1 := first.grown.currentLsn
      have grown := first.grown.trans second.grown
      rw [next] at grown
      constructor
      · rw [List.length_cons, Nat.add_comm]
        simpa [pageWriteBytes] using grown
      · rw [second.active, first.active, if_neg (List.cons_ne_nil _ _),
          if_neg (List.cons_ne_nil _ _), withActive_again, ite_self]

/-! ## Encoded batches -/

/-- The LSNs of a batch are below the greatest integer, or overflow is no panic. -/
def Roomy (build : Build) (first : U64) (count : Nat) : Prop :=
  build.overflowChecks = false ∨ first.val + count ≤ 2 ^ 64

theorem encodeAll_zipIdx (first : U64) {writes : List (U64 × Bytes)}
    (fits : ∀ write ∈ writes, Fits write) (start : Nat)
    (roomy : Roomy build first (start + writes.length)) :
    ∃ records, encodeAll build first txId (writes.zipIdx start) = .ok records ∧
      records.flatten = pageWriteBytes txId (first + Fin.ofNat (2 ^ 64) start) writes := by
  induction writes generalizing start with
  | nil => exact ⟨[], rfl, rfl⟩
  | cons write rest ih =>
      obtain ⟨pageId, data⟩ := write
      have later : Roomy build first (start + 1 + rest.length) :=
        roomy.imp_right fun below => by rw [List.length_cons] at below; omega
      obtain ⟨records, encoded, bytes⟩ := ih (fun write member =>
        fits write (List.mem_cons_of_mem _ member)) (start + 1) later
      have lsn : lsnAt build first start = .ok (first + Fin.ofNat (2 ^ 64) start) := by
        refine if_neg ?_
        rintro ⟨checks, above⟩
        rcases roomy with unchecked | below
        · rw [unchecked] at checks
          cases checks
        · rw [List.length_cons] at below
          omega
      have one : encodeAt build first txId ((pageId, data), start) =
          .ok (WalEntry.pageWrite (first + Fin.ofNat (2 ^ 64) start) txId pageId data).image := by
        rw [encodeAt, lsn, Outcome.ok_bind]
        exact WalEntry.encode_logged (.pageWrite _ _ _ _ (fits _ List.mem_cons_self))
      refine ⟨_ :: records, by rw [List.zipIdx_cons, encodeAll, one, encoded]; rfl, ?_⟩
      have next : first + Fin.ofNat (2 ^ 64) start + 1 = first + Fin.ofNat (2 ^ 64) (start + 1) :=
        add_ofNat first start 1
      rw [List.flatten_cons, bytes, pageWriteBytes, next]

/-- A batch whose LSNs pass the greatest integer is not encoded. -/
theorem encodeAll_overflow (checked : build.overflowChecks = true) (first : U64)
    {writes : List (U64 × Bytes)} (fits : ∀ write ∈ writes, Fits write) (start : Nat)
    (inside : first.val + start ≤ 2 ^ 64)
    (above : 2 ^ 64 < first.val + (start + writes.length)) :
    encodeAll build first txId (writes.zipIdx start) = .halt .panic := by
  induction writes generalizing start with
  | nil =>
      rw [List.length_nil] at above
      omega
  | cons write rest ih =>
      obtain ⟨pageId, data⟩ := write
      rw [List.zipIdx_cons, encodeAll, encodeAt, lsnAt]
      by_cases last : 2 ^ 64 ≤ first.val + start
      · rw [if_pos ⟨checked, last⟩]
        rfl
      · have later := ih (fun write member => fits write (List.mem_cons_of_mem _ member))
          (start + 1) (by omega) (by rw [List.length_cons] at above; omega)
        rw [if_neg fun both => last both.2, Outcome.ok_bind,
          WalEntry.encode_logged (.pageWrite _ _ _ _ (fits _ List.mem_cons_self)), Outcome.ok_bind,
          later]
        rfl

theorem encodeAll_append (first : U64) (front back : List ((U64 × Bytes) × Nat)) :
    encodeAll build first txId (front ++ back) = (do
      let records ← encodeAll build first txId front
      let more ← encodeAll build first txId back
      .ok (records ++ more)) := by
  induction front with
  | nil =>
      rw [List.nil_append, encodeAll, Outcome.ok_bind]
      cases encodeAll build first txId back <;> rfl
  | cons write front ih =>
      rw [List.cons_append, encodeAll, encodeAll, ih]
      cases encodeAt build first txId write with
      | ok bytes =>
          cases encodeAll build first txId front with
          | ok records => cases encodeAll build first txId back <;> rfl
          | err error => rfl
          | halt cause => rfl
      | err error => rfl
      | halt cause => rfl

/-- Chunks have the bytes of the records in them. -/
theorem encodeChunks_of_ok {first : U64} {chunks : List (List ((U64 × Bytes) × Nat))}
    {records : List Bytes} (encoded : encodeAll build first txId chunks.flatten = .ok records) :
    ∃ buffers, encodeChunks build first txId chunks = .ok buffers ∧
      buffers.flatten = records.flatten := by
  induction chunks generalizing records with
  | nil =>
      cases encoded
      exact ⟨[], rfl, rfl⟩
  | cons chunk chunks ih =>
      rw [List.flatten_cons, encodeAll_append] at encoded
      cases front : encodeAll build first txId chunk with
      | err error => rw [front] at encoded; cases encoded
      | halt cause => rw [front] at encoded; cases encoded
      | ok head =>
          rw [front, Outcome.ok_bind] at encoded
          cases back : encodeAll build first txId chunks.flatten with
          | err error => rw [back] at encoded; cases encoded
          | halt cause => rw [back] at encoded; cases encoded
          | ok rest =>
              rw [back] at encoded
              cases encoded
              obtain ⟨buffers, encoded, bytes⟩ := ih back
              refine ⟨head.flatten :: buffers, by rw [encodeChunks, front, encoded]; rfl, ?_⟩
              rw [List.flatten_cons, bytes, List.flatten_append]

/-! ## Batches -/

theorem writeBuffers_leaves {wal : WalManager} (buffers : List Bytes) :
    Leaves (¬device.Reliable) (writeBuffers device buffers)
      (fun _ after => Appended wal buffers.flatten after) wal := by
  induction buffers generalizing wal with
  | nil => exact .pure (.refl wal)
  | cons buffer rest ih =>
      exact (writeAll_leaves buffer).bind fun _ _ first =>
        ih.mono fun _ _ second => first.trans second

/-- The log after the LSNs of a batch have been taken. -/
def withLsns (log : TrackedLog) (count : Nat) : TrackedLog :=
  { log with
    wal := { log.wal with currentLsn := log.wal.currentLsn + Fin.ofNat (2 ^ 64) count } }

theorem takeLsns_leaves (faulty : Prop) (count : Nat) :
    Leaves faulty (onLog (takeLsns count))
      (fun lsn after => lsn = log.wal.currentLsn ∧ after = log.withLsns count) log :=
  .zoom (.getBind (.modifyBind (.pure ⟨rfl, rfl⟩)))

/-- Appending the bytes of a batch and tracking the transaction. -/
theorem batch_logs {writes : List (U64 × Bytes)} (some : writes ≠ []) {total : Nat}
    (bytes : total = (pageWriteBytes txId log.wal.currentLsn writes).length) {write : WalM Unit}
    (appends : ∀ wal, Leaves (¬device.Reliable) write
      (fun _ after => Appended wal (pageWriteBytes txId log.wal.currentLsn writes) after) wal) :
    Leaves (¬device.Reliable)
      (do
        onLog write
        onLog (advancePosition total)
        trackActive txId log.wal.currentLsn)
      (fun _ after => Logs log txId writes after) (log.withLsns writes.length) := by
  have written : Leaves (¬device.Reliable) (onLog write)
      (fun _ after => after.activeTransactions = log.activeTransactions ∧
        Appended (log.withLsns writes.length).wal
          (pageWriteBytes txId log.wal.currentLsn writes) after.wal)
      (log.withLsns writes.length) :=
    .zoom ((appends _).mono fun _ _ appended => ⟨rfl, appended⟩)
  refine written.bind fun _ after both => ?_
  obtain ⟨active, appended⟩ := both
  refine .modifyBind (.modify ⟨?_, ?_⟩)
  · exact ⟨appended.contents, appended.currentLsn, appended.lastCheckpointLsn,
      by rw [bytes]; exact congrArg (· + _) appended.filePosition, appended.committedLsn⟩
  · rw [if_neg some, withActive, ← active]

theorem logPageWrites_leaves {writes : List (U64 × Bytes)} (fits : ∀ write ∈ writes, Fits write)
    (roomy : Roomy build log.wal.currentLsn writes.length) :
    Leaves (¬device.Reliable) (logPageWrites device build txId writes)
      (fun _ after => Logs log txId writes after) log := by
  rw [logPageWrites]
  split
  next empty =>
    rw [List.isEmpty_iff.mp empty]
    exact .pure ⟨.refl log.wal, rfl⟩
  next nonempty =>
    obtain ⟨records, encoded, bytes⟩ := encodeAll_zipIdx log.wal.currentLsn fits 0
      (by rw [Nat.zero_add]; exact roomy)
    have first : log.wal.currentLsn + Fin.ofNat (2 ^ 64) 0 = log.wal.currentLsn :=
      Fin.add_zero log.wal.currentLsn
    rw [first] at bytes
    refine (takeLsns_leaves _ writes.length).bind ?_
    rintro _ _ ⟨rfl, rfl⟩
    refine .liftBind encoded ?_
    refine batch_logs (fun none => nonempty (List.isEmpty_iff.mpr none))
      (congrArg List.length bytes) fun wal => ?_
    rw [← bytes]
    exact writeAll_leaves _

theorem logPageWritesOwned_leaves {writes : List (U64 × Bytes)}
    (fits : ∀ write ∈ writes, Fits write) (roomy : Roomy build log.wal.currentLsn writes.length) :
    Leaves (¬device.Reliable) (logPageWritesOwned device build txId writes)
      (fun _ after => Logs log txId writes after) log := by
  rw [logPageWritesOwned]
  split
  next empty =>
    rw [List.isEmpty_iff.mp empty]
    exact .pure ⟨.refl log.wal, rfl⟩
  next nonempty =>
    obtain ⟨records, encoded, bytes⟩ := encodeAll_zipIdx log.wal.currentLsn fits 0
      (by rw [Nat.zero_add]; exact roomy)
    have first : log.wal.currentLsn + Fin.ofNat (2 ^ 64) 0 = log.wal.currentLsn :=
      Fin.add_zero log.wal.currentLsn
    rw [first] at bytes
    have whole : (chunksOf (chunkLen build writes.length) writes.length writes.zipIdx).flatten =
        writes.zipIdx :=
      flatten_chunksOf (by rw [chunkLen]; omega) (by rw [List.length_zipIdx])
    obtain ⟨buffers, chunked, same⟩ := encodeChunks_of_ok (by rw [whole]; exact encoded)
    rw [bytes] at same
    refine (takeLsns_leaves _ writes.length).bind ?_
    rintro _ _ ⟨rfl, rfl⟩
    refine .liftBind chunked ?_
    refine batch_logs (fun none => nonempty (List.isEmpty_iff.mpr none))
      (by rw [← same, List.length_flatten]) fun wal => ?_
    rw [← same]
    exact writeBuffers_leaves buffers

/-- A batch whose LSNs pass the greatest integer ends in a panic. -/
theorem panics_of_not_roomy {writes : List (U64 × Bytes)} (fits : ∀ write ∈ writes, Fits write)
    (full : ¬Roomy build log.wal.currentLsn writes.length) :
    ((logPageWrites device build txId writes) log).outcome = .halt .panic := by
  rw [Roomy, not_or, not_le, Bool.not_eq_false] at full
  obtain ⟨checked, above⟩ := full
  have inside := log.wal.currentLsn.isLt
  have nonempty : ¬writes.isEmpty = true := by
    intro empty
    rw [List.isEmpty_iff.mp empty, List.length_nil] at above
    omega
  have halts := @encodeAll_overflow build txId checked log.wal.currentLsn writes fits 0
    (by omega) (by omega)
  have ends : Exec.Ends (logPageWrites device build txId writes)
      (fun outcome _ _ => outcome = .halt .panic) log := by
    rw [logPageWrites, if_neg nonempty]
    refine Exec.ends_bind.mpr ?_
    refine Exec.Ends.mono (takeLsns_leaves False writes.length) fun outcome middle _ holds => ?_
    cases outcome with
    | err error => exact holds.elim
    | halt cause => exact holds.elim
    | ok lsn =>
        obtain ⟨rfl, -⟩ := holds
        refine Exec.ends_bind.mpr ?_
        rw [Exec.ends_lift, halts]
  exact ends

/-! ## Equal logs -/

/-- Two logs hold the same bytes and counters and track the same transactions. -/
structure SameLog (log other : TrackedLog) : Prop where
  contents : log.wal.contents = other.wal.contents
  currentLsn : log.wal.currentLsn = other.wal.currentLsn
  filePosition : log.wal.filePosition = other.wal.filePosition
  lastCheckpointLsn : log.wal.lastCheckpointLsn = other.wal.lastCheckpointLsn
  committedLsn : log.wal.committedLsn = other.wal.committedLsn
  active : log.activeTransactions = other.activeTransactions

/-- Two calls succeed on a device that takes all requests, and whenever both succeed they leave the
same log. -/
def Alike (device : LogDevice) (call other : TrackedM Unit) (log : TrackedLog) : Prop :=
  (device.Reliable → (call log).outcome = .ok () ∧ (other log).outcome = .ok ()) ∧
    ((call log).outcome = .ok () → (other log).outcome = .ok () →
      SameLog (call log).state (other log).state)

theorem Logs.same {writes : List (U64 × Bytes)} {after other : TrackedLog}
    (first : Logs log txId writes after) (second : Logs log txId writes other) :
    SameLog after other where
  contents := first.grown.contents.trans second.grown.contents.symm
  currentLsn := first.grown.currentLsn.trans second.grown.currentLsn.symm
  filePosition := first.grown.filePosition.trans second.grown.filePosition.symm
  lastCheckpointLsn := first.grown.lastCheckpointLsn.trans second.grown.lastCheckpointLsn.symm
  committedLsn := first.grown.committedLsn.trans second.grown.committedLsn.symm
  active := first.active.trans second.active.symm

theorem Leaves.succeeds {call : TrackedM Unit} {post : Unit → TrackedLog → Prop} {faulty : Prop}
    (leaves : Leaves faulty call post log) (sound : ¬faulty) : (call log).outcome = .ok () := by
  unfold Leaves Exec.Ends at leaves
  revert leaves
  cases (call log).outcome with
  | ok value => exact fun _ => rfl
  | err error => exact fun faulty => absurd faulty sound
  | halt cause => exact fun faulty => absurd faulty sound

theorem Leaves.state_of_ok {call : TrackedM Unit} {post : Unit → TrackedLog → Prop} {faulty : Prop}
    (leaves : Leaves faulty call post log) (succeeds : (call log).outcome = .ok ()) :
    post () (call log).state := by
  unfold Leaves Exec.Ends at leaves
  rw [succeeds] at leaves
  exact leaves

theorem alike_of_leaves {writes : List (U64 × Bytes)} {call other : TrackedM Unit}
    (first : Leaves (¬device.Reliable) call (fun _ after => Logs log txId writes after) log)
    (second : Leaves (¬device.Reliable) other (fun _ after => Logs log txId writes after) log) :
    Alike device call other log :=
  ⟨fun reliable => ⟨Leaves.succeeds first (not_not.mpr reliable),
    Leaves.succeeds second (not_not.mpr reliable)⟩,
    fun isOk otherOk => (Leaves.state_of_ok first isOk).same (Leaves.state_of_ok second otherOk)⟩

/-- Both kinds of batches append what single calls append, if and only if the build does not check
for overflow or the LSNs of the batch stay below the greatest integer. -/
theorem batches_alike_iff (build : Build) (txId : U64) (writes : List (U64 × Bytes))
    (fits : ∀ write ∈ writes, Fits write) (log : TrackedLog) :
    (∀ device, Alike device (logPageWrites device build txId writes) (logEach device txId writes) log ∧
      Alike device (logPageWritesOwned device build txId writes) (logEach device txId writes) log) ↔
      Roomy build log.wal.currentLsn writes.length := by
  constructor
  · intro alike
    by_contra full
    have succeeds := ((alike ⟨fun _ => .ok, fun _ => 0⟩).1.1 fun _ => rfl).1
    rw [panics_of_not_roomy fits full] at succeeds
    cases succeeds
  · intro roomy device
    have each : Leaves (¬device.Reliable) (logEach device txId writes)
        (fun _ after => Logs log txId writes after) log := logEach_leaves fits
    exact ⟨alike_of_leaves (logPageWrites_leaves fits roomy) each,
      alike_of_leaves (logPageWritesOwned_leaves fits roomy) each⟩

/-- A development build on four threads. -/
def devBuild : Build := ⟨true, 4⟩

/-- A log whose next LSN is a number. -/
def emptyLogAt (lsn : U64) : TrackedLog := ⟨⟨[], [], lsn, 0, 0, 0, 0⟩, []⟩

theorem fits_twoPages : ∀ write ∈ [((1 : U64), ([7] : Bytes)), (2, [8])], Fits write := by
  simp [Fits, maxWalPayload]

theorem batches_alike_iff_twoPages :
    (∀ device,
      Alike device (logPageWrites device devBuild 5 [(1, [7]), (2, [8])])
          (logEach device 5 [(1, [7]), (2, [8])]) (emptyLogAt 1) ∧
        Alike device (logPageWritesOwned device devBuild 5 [(1, [7]), (2, [8])])
          (logEach device 5 [(1, [7]), (2, [8])]) (emptyLogAt 1)) ↔
      Roomy devBuild (emptyLogAt 1).wal.currentLsn 2 :=
  batches_alike_iff devBuild 5 [(1, [7]), (2, [8])] fits_twoPages (emptyLogAt 1)

/-- A build with overflow checks adds past the greatest LSN, where single calls wrap. -/
theorem not_alike_lastLsn :
    ¬∀ device, Alike device (logPageWrites device devBuild 5 [(1, [7]), (2, [8])])
      (logEach device 5 [(1, [7]), (2, [8])]) (emptyLogAt (Fin.last _)) := by
  intro alike
  have succeeds := ((alike ⟨fun _ => .ok, fun _ => 0⟩).1 fun _ => rfl).1
  rw [panics_of_not_roomy fits_twoPages (by simp [Roomy, devBuild, emptyLogAt])] at succeeds
  cases succeeds

end TrackedLog

end JouleDB.Wal
