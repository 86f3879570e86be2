import Mathlib.Data.List.Induction
import JouleDB.Wal.TornTail

/-!
# What the logging calls leave in the file

The bytes of the log are always a sequence of whole records, the first part of it in the
file and the rest in the buffered writer.  Every logging call extends the sequence, and a
crash in the middle of a call leaves a byte prefix of it that holds everything that was in
the file before.
-/

namespace JouleDB.Wal

open WalManager

/-- The log holds whole records: `flushed` in the file and `pending` in the writer. -/
structure Journal (wal : WalManager) (flushed pending : List WalEntry) : Prop where
  file : wal.file = logBytes flushed
  buffered : wal.buffered = logBytes pending

/-- The device answers every request or stops; it never reports a failure. -/
def LogDevice.Steady (device : LogDevice) : Prop := ∀ request, device.answer request ≠ .fail

/-- The file after a crash while the log was growing from `flushed` to `all`. -/
def LeftBehind (device : LogDevice) (flushed all : List WalEntry) (file : Bytes) : Prop :=
  ∃ kept rest count, all = kept ++ rest ∧ flushed <+: kept ∧
    file = logBytes kept ++ (logBytes rest).take count ∧
    (count = 0 ∨ ∃ request, count ≤ device.torn request)

@[simp] theorem logBytes_nil : logBytes [] = [] := rfl

theorem logBytes_append (front back : List WalEntry) :
    logBytes (front ++ back) = logBytes front ++ logBytes back := by
  simp [logBytes]

theorem logBytes_singleton (entry : WalEntry) : logBytes [entry] = entry.image := by
  simp [logBytes]

theorem logBytes_eq_nil {entries : List WalEntry} (empty : logBytes entries = []) :
    entries = [] := by
  cases entries with
  | nil => rfl
  | cons entry entries =>
      have length := congrArg List.length empty
      simp [logBytes, WalEntry.image_length, walHeaderSize] at length

theorem LeftBehind.unwritten (device : LogDevice) {flushed all : List WalEntry} {file : Bytes}
    (unwritten : file = logBytes flushed) (grows : flushed <+: all) :
    LeftBehind device flushed all file := by
  obtain ⟨rest, rfl⟩ := grows
  exact ⟨flushed, rest, 0, rfl, List.prefix_rfl, by simp [unwritten], .inl rfl⟩

theorem LeftBehind.mono {device : LogDevice} {flushed flushed' all all' : List WalEntry}
    {file : Bytes} (left : LeftBehind device flushed' all file) (earlier : flushed <+: flushed')
    (later : all <+: all') : LeftBehind device flushed all' file := by
  obtain ⟨kept, rest, count, rfl, keeps, contents, bound⟩ := left
  obtain ⟨more, rfl⟩ := later
  refine ⟨kept, rest ++ more, min count (logBytes rest).length, by simp, earlier.trans keeps, ?_, ?_⟩
  · rw [contents, logBytes_append, List.take_append_of_le_length (Nat.min_le_right _ _),
      ← List.take_take, List.take_length]
  · rcases bound with rfl | ⟨request, bound⟩
    · exact .inl (Nat.zero_min _)
    · exact .inr ⟨request, (Nat.min_le_left _ _).trans bound⟩

/-- Bytes of a record that was not written to its end. -/
def TornOff (device : LogDevice) (torn : Bytes) : Prop :=
  torn = [] ∨ ((∃ request, 0 < device.torn request) ∧
    ∃ entry : WalEntry, entry.Logged ∧ ∃ count < entry.image.length, torn = entry.image.take count)

/-- A byte prefix of a log is a sequence of whole records and a torn one. -/
theorem take_logBytes {entries : List WalEntry} (logged : ∀ entry ∈ entries, entry.Logged)
    (count : Nat) :
    ∃ whole rest torn, entries = whole ++ rest ∧
      (logBytes entries).take count = logBytes whole ++ torn ∧ (rest = [] → torn = []) ∧
      (torn = [] ∨ (0 < count ∧ ∃ entry : WalEntry, entry.Logged ∧
        ∃ count < entry.image.length, torn = entry.image.take count)) := by
  induction entries generalizing count with
  | nil => exact ⟨[], [], [], rfl, by simp, fun _ => rfl, .inl rfl⟩
  | cons entry entries ih =>
      have bytes : logBytes (entry :: entries) = entry.image ++ logBytes entries := rfl
      rw [bytes, List.take_append]
      by_cases inside : entry.image.length ≤ count
      · have restLogged : ∀ entry ∈ entries, entry.Logged := fun other member =>
          logged other (List.mem_cons_of_mem _ member)
        obtain ⟨whole, rest, torn, rfl, prefixBytes, last, shape⟩ :=
          ih restLogged (count - entry.image.length)
        refine ⟨entry :: whole, rest, torn, rfl, ?_, last, shape.imp_right fun ⟨positive, torn⟩ =>
          ⟨by omega, torn⟩⟩
        rw [List.take_of_length_le inside, prefixBytes, ← List.append_assoc]
        rfl
      · have nothing : count - entry.image.length = 0 := by omega
        rw [nothing, List.take_zero, List.append_nil]
        refine ⟨[], entry :: entries, entry.image.take count, rfl, rfl, ?_, ?_⟩
        · exact fun empty => absurd empty (List.cons_ne_nil _ _)
        by_cases zero : count = 0
        · exact .inl (by rw [zero, List.take_zero])
        · exact .inr ⟨by omega, entry, logged entry List.mem_cons_self, count, by omega, rfl⟩

/-- What a crash leaves: the records in the file, and possibly a torn one after them. -/
theorem LeftBehind.whole {device : LogDevice} {flushed all : List WalEntry} {file : Bytes}
    (left : LeftBehind device flushed all file) (logged : ∀ entry ∈ all, entry.Logged) :
    ∃ whole rest torn, all = whole ++ rest ∧ flushed <+: whole ∧ file = logBytes whole ++ torn ∧
      (rest = [] → torn = []) ∧ TornOff device torn := by
  obtain ⟨kept, rest, count, rfl, keeps, contents, bound⟩ := left
  have restLogged : ∀ entry ∈ rest, entry.Logged := fun entry member =>
    logged entry (List.mem_append_right _ member)
  obtain ⟨whole, rest, torn, rfl, prefixBytes, last, shape⟩ := take_logBytes restLogged count
  refine ⟨kept ++ whole, rest, torn, by simp, keeps.trans (List.prefix_append _ _), ?_, last, ?_⟩
  · rw [contents, prefixBytes, logBytes_append, List.append_assoc]
  · refine shape.imp_right fun ⟨positive, torn⟩ => ⟨?_, torn⟩
    rcases bound with zero | ⟨request, bound⟩
    · omega
    · exact ⟨request, by omega⟩

/-- Reading whole records and what follows them. -/
theorem readEntries_logBytes {entries : List WalEntry} (logged : ∀ entry ∈ entries, entry.Logged)
    (tail : Bytes) (fuel : Nat) :
    readEntries (entries.length + fuel) (logBytes entries ++ tail) =
      (readEntries fuel tail >>= fun rest => .ok (entries.map WalEntry.reread ++ rest)) := by
  induction entries with
  | nil =>
      rw [List.length_nil, Nat.zero_add, logBytes_nil, List.nil_append]
      cases readEntries fuel tail <;> rfl
  | cons entry entries ih =>
      have bytes : logBytes (entry :: entries) = entry.image ++ logBytes entries := rfl
      rw [bytes, List.append_assoc, List.length_cons, Nat.add_right_comm,
        readEntries_image (logged entry List.mem_cons_self),
        ih fun other member => logged other (List.mem_cons_of_mem _ member)]
      cases readEntries fuel tail <;> rfl

theorem length_le_logBytes (entries : List WalEntry) :
    entries.length ≤ (logBytes entries).length := by
  induction entries with
  | nil => exact le_rfl
  | cons entry entries ih =>
      have bytes : logBytes (entry :: entries) = entry.image ++ logBytes entries := rfl
      rw [bytes, List.length_append, WalEntry.image_length, walHeaderSize, List.length_cons]
      omega

/-- A file that ends in less than a header is read without an error. -/
theorem readAllEntries_short {wal : WalManager} {entries : List WalEntry} {torn : Bytes}
    (logged : ∀ entry ∈ entries, entry.Logged) (short : torn.length < walHeaderSize)
    (file : wal.file = logBytes entries ++ torn) :
    wal.readAllEntries = .ok (entries.map WalEntry.reread) := by
  have enough : wal.file.length = entries.length + (wal.file.length - entries.length) := by
    have := length_le_logBytes entries
    rw [file, List.length_append]
    omega
  have tail : ∀ fuel, readEntries fuel torn = .ok [] := by
    intro fuel
    cases fuel with
    | zero => rfl
    | succ fuel => rw [readEntries, if_pos short]
  rw [readAllEntries, enough, file, readEntries_logBytes logged, tail]
  simp

/-- A file that ends inside a payload cannot be read. -/
theorem readAllEntries_torn {wal : WalManager} {entries : List WalEntry} {entry : WalEntry}
    {count : Nat} (logged : ∀ entry ∈ entries, entry.Logged) (entryLogged : entry.Logged)
    (long : walHeaderSize ≤ count) (cut : count < entry.image.length)
    (file : wal.file = logBytes entries ++ entry.image.take count) :
    wal.readAllEntries = .err (.backend "WAL read error: failed to fill whole buffer") := by
  have tornLength : (entry.image.take count).length = count := List.length_take_of_le cut.le
  obtain ⟨fuel, enough⟩ : ∃ fuel, wal.file.length = entries.length + (fuel + 1) := by
    have := length_le_logBytes entries
    refine ⟨wal.file.length - entries.length - 1, ?_⟩
    rw [file, List.length_append, tornLength]
    rw [walHeaderSize] at long
    omega
  rw [readAllEntries, enough, file, readEntries_logBytes logged, readEntries_torn entryLogged cut,
    if_neg (not_lt.mpr long)]
  rfl

/-! ## Opening the file -/

/-- A scan over the headers visits every whole record in front of the file. -/
theorem scanHeaders_image {entry : WalEntry} (logged : entry.Logged)
    (collect : U64 → Byte → U64 → U64) (fuel : Nat) (rest : Bytes) (last : U64) :
    scanHeaders collect (fuel + 1) (entry.image ++ rest) last =
      scanHeaders collect fuel rest (collect entry.lsn entry.entryType.code last) := by
  have length : (entry.image ++ rest).length = walHeaderSize + entry.payloadSize + rest.length := by
    rw [List.length_append, WalEntry.image_length]
  have long : ¬ (entry.image ++ rest).length < walHeaderSize := by omega
  have magic : (entry.image ++ rest).take 4 = walMagic := by simp [WalEntry.image, walMagic]
  have small : ¬ entry.payloadSize > maxWalPayload := by
    have := WalEntry.payloadSize_le logged
    omega
  have after : (entry.image ++ rest).drop (walHeaderSize + entry.payloadSize) = rest :=
    List.drop_left' (WalEntry.image_length entry)
  have lsn : WalEntry.readU64 ((entry.image ++ rest).drop 8) = entry.lsn := by
    have front : (entry.image ++ rest).drop 8 = entry.body ++ rest := by
      simp [WalEntry.image, walMagic]
    rw [front, WalEntry.body_eq, List.append_assoc, WalEntry.readU64_append]
  simp only [scanHeaders, payloadLen_image logged, if_neg long, magic, ne_eq, not_true_eq_false,
    if_false, if_neg small, after, lsn, WalEntry.image_type, Option.getD_some]

theorem scanHeaders_logBytes {entries : List WalEntry} (logged : ∀ entry ∈ entries, entry.Logged)
    {fuel : Nat} (enough : entries.length ≤ fuel) (last : U64) :
    scanHeaders (fun lsn _ _ => lsn) fuel (logBytes entries) last =
      entries.foldl (fun _ entry => entry.lsn) last := by
  induction entries generalizing fuel last with
  | nil => cases fuel <;> simp [scanHeaders, walHeaderSize]
  | cons entry entries ih =>
      obtain ⟨fuel, rfl⟩ : ∃ smaller, fuel = smaller + 1 :=
        ⟨fuel - 1, by rw [List.length_cons] at enough; omega⟩
      have bytes : logBytes (entry :: entries) = entry.image ++ logBytes entries := rfl
      rw [bytes, scanHeaders_image (logged entry List.mem_cons_self),
        ih (fun other member => logged other (List.mem_cons_of_mem _ member))
          (by rw [List.length_cons] at enough; omega)]
      rfl

theorem le_foldl_lsn {entries : List WalEntry}
    (increasing : entries.Pairwise fun earlier later => earlier.lsn < later.lsn) (last : U64) :
    ∀ entry ∈ entries, entry.lsn ≤ entries.foldl (fun _ entry => entry.lsn) last := by
  induction entries using List.reverseRecOn with
  | nil => simp
  | append_singleton entries final ih =>
      rw [List.pairwise_append] at increasing
      intro entry member
      rw [List.foldl_append, List.foldl_cons, List.foldl_nil]
      rcases List.mem_append.mp member with earlier | isFinal
      · exact (increasing.2.2 entry earlier final (List.mem_singleton_self _)).le
      · rw [List.mem_singleton.mp isFinal]

/-- The records of an opened log are numbered below its next LSN. -/
theorem lsn_lt_openFile {entries : List WalEntry} (logged : ∀ entry ∈ entries, entry.Logged)
    (increasing : entries.Pairwise fun earlier later => earlier.lsn < later.lsn)
    (unwrapped : 0 < (openFile (logBytes entries)).currentLsn) :
    ∀ entry ∈ entries, entry.lsn < (openFile (logBytes entries)).currentLsn := by
  intro entry member
  have nonempty : (logBytes entries).length > 0 := by
    have := length_le_logBytes entries
    have := List.length_pos_of_mem member
    omega
  have last : (openFile (logBytes entries)).currentLsn =
      entries.foldl (fun _ entry => entry.lsn) 0 + 1 := by
    simp only [openFile, if_pos nonempty, findLastLsn]
    rw [scanHeaders_logBytes logged (length_le_logBytes entries)]
  rw [last] at unwrapped ⊢
  have room : (entries.foldl (fun _ entry => entry.lsn) (0 : U64)).val + 1 < 2 ^ 64 := by
    rw [Fin.lt_def, Fin.val_add] at unwrapped
    simp only [Fin.val_zero, Fin.val_one] at unwrapped
    omega
  exact lt_of_le_of_lt (le_foldl_lsn increasing 0 entry member) (u64_lt_succ room)

/-- How a logging call ends: it is `done`, or a crash has left a part of `all`, after the
observations `seen`. -/
inductive LogEnds {α : Type} (device : LogDevice) (flushed all : List WalEntry)
    (seen : List Event) (done : α → WalManager → List Event → Prop) :
    Outcome StorageError α → WalManager → List Event → Prop where
  | done {value : α} {final : WalManager} {events : List Event} (holds : done value final events) :
      LogEnds device flushed all seen done (.ok value) final events
  | crash {final : WalManager} (stopped : ∃ request, device.answer request = .crash)
      (left : LeftBehind device flushed all final.file) :
      LogEnds device flushed all seen done (.halt .crash) final seen

/-- The log holds the records `all`, of which at least `flushed` are in the file, and its
next LSN is `lsn`. -/
def Holds (wal : WalManager) (flushed all : List WalEntry) (lsn : U64) : Prop :=
  wal.currentLsn = lsn ∧ ∃ flushed' pending', Journal wal flushed' pending' ∧
    flushed <+: flushed' ∧ flushed' ++ pending' = all

/-! ## The buffered writer -/

section Calls

variable {device : LogDevice} {wal : WalManager} {flushed pending : List WalEntry}

theorem writeOut_ends (steady : device.Steady) (message : String) (entries : List WalEntry)
    (file : wal.file = logBytes flushed) :
    Exec.Ends (writeOut device message (logBytes entries))
      (LogEnds device flushed (flushed ++ entries) [] fun _ final events =>
        events = [] ∧ final.file = logBytes (flushed ++ entries) ∧
          final.buffered = wal.buffered ∧ final.currentLsn = wal.currentLsn) wal := by
  simp only [writeOut, Exec.ends_bind, Exec.ends_get, Exec.ends_modify]
  cases answer : device.answer wal.requests with
  | ok =>
      rw [Exec.ends_modify]
      refine .done ⟨rfl, ?_, rfl, rfl⟩
      simp only [file, logBytes_append]
  | fail => exact absurd answer (steady _)
  | crash =>
      simp only [Exec.ends_bind, Exec.ends_modify, Exec.ends_stop]
      refine .crash ⟨_, answer⟩ ⟨flushed, entries, device.torn wal.requests, rfl, List.prefix_rfl, ?_, ?_⟩
      · simp only [file]
      · exact .inr ⟨_, le_rfl⟩

theorem flushBuf_ends (steady : device.Steady) (message : String)
    (journal : Journal wal flushed pending) :
    Exec.Ends (flushBuf device message)
      (LogEnds device flushed (flushed ++ pending) [] fun _ final events =>
        events = [] ∧ Journal final (flushed ++ pending) [] ∧
          final.currentLsn = wal.currentLsn) wal := by
  simp only [flushBuf, Exec.ends_bind, Exec.ends_get]
  split
  next empty =>
    have none : pending = [] := logBytes_eq_nil (by rw [← journal.buffered, empty])
    subst none
    refine .done ⟨rfl, ⟨?_, empty⟩, rfl⟩
    rw [List.append_nil]
    exact journal.file
  next =>
    rw [Exec.ends_bind, journal.buffered]
    refine (writeOut_ends steady message pending journal.file).mono ?_
    intro outcome middle log ended
    cases ended with
    | done holds =>
        obtain ⟨rfl, file, -, lsn⟩ := holds
        exact .done ⟨rfl, ⟨file, rfl⟩, lsn⟩
    | crash stopped left => exact .crash stopped left

/-- Bytes that do not fit empty the buffer; bytes as long as the whole buffer always do. -/
theorem makeRoom_ends (steady : device.Steady) (entry : WalEntry)
    (journal : Journal wal flushed pending) :
    Exec.Ends (makeRoom device entry.image)
      (LogEnds device flushed (flushed ++ pending) [] fun _ final events =>
        events = [] ∧ final.currentLsn = wal.currentLsn ∧
          ∃ flushed' pending', Journal final flushed' pending' ∧ flushed <+: flushed' ∧
            flushed' ++ pending' = flushed ++ pending ∧
            (entry.image.length ≥ bufferCapacity → pending' = [])) wal := by
  simp only [makeRoom, Exec.ends_bind, Exec.ends_get]
  split
  next =>
    refine (flushBuf_ends steady _ journal).mono ?_
    intro outcome final log ended
    cases ended with
    | done holds =>
        obtain ⟨rfl, journal, lsn⟩ := holds
        exact .done ⟨rfl, lsn, _, [], journal, List.prefix_append _ _, List.append_nil _,
          fun _ => rfl⟩
    | crash stopped left => exact .crash stopped left
  next fits =>
    refine .done ⟨rfl, rfl, flushed, pending, journal, List.prefix_rfl, rfl, fun large => ?_⟩
    have empty : wal.buffered.length = 0 := by
      have capacity : 0 < bufferCapacity := by decide
      omega
    exact logBytes_eq_nil (by rw [← journal.buffered]; exact List.length_eq_zero_iff.mp empty)

theorem writeAll_ends (steady : device.Steady) (entry : WalEntry)
    (journal : Journal wal flushed pending) :
    Exec.Ends (writeAll device entry.image)
      (LogEnds device flushed (flushed ++ pending ++ [entry]) [] fun _ final events =>
        events = [] ∧ Holds final flushed (flushed ++ pending ++ [entry]) wal.currentLsn) wal := by
  simp only [writeAll, Exec.ends_bind, Exec.ends_get]
  split
  next =>
    rw [Exec.ends_modify]
    refine .done ⟨rfl, rfl, flushed, pending ++ [entry], ⟨journal.file, ?_⟩, List.prefix_rfl, ?_⟩
    · simp only [journal.buffered, logBytes_append, logBytes_singleton]
    · rw [List.append_assoc]
  next =>
    rw [Exec.ends_bind]
    refine (makeRoom_ends steady entry journal).mono ?_
    intro outcome middle log ended
    cases ended with
    | crash stopped left => exact .crash stopped (left.mono List.prefix_rfl (List.prefix_append _ _))
    | done holds =>
        obtain ⟨rfl, lsn, flushed', pending', middleJournal, earlier, whole, direct⟩ := holds
        dsimp only
        split
        next large =>
          obtain rfl := direct large
          rw [List.append_nil] at whole
          subst whole
          rw [← logBytes_singleton]
          refine (writeOut_ends steady _ [entry] middleJournal.file).mono ?_
          intro outcome final log ended
          cases ended with
          | done holds =>
              obtain ⟨rfl, file, buffered, same⟩ := holds
              exact .done ⟨rfl, same.trans lsn, _, [],
                ⟨file, buffered.trans middleJournal.buffered⟩,
                earlier.trans (List.prefix_append _ _), List.append_nil _⟩
          | crash stopped left => exact .crash stopped (left.mono earlier List.prefix_rfl)
        next =>
          rw [Exec.ends_modify]
          refine .done ⟨rfl, lsn, flushed', pending' ++ [entry], ⟨middleJournal.file, ?_⟩,
            earlier, ?_⟩
          · simp only [middleJournal.buffered, logBytes_append, logBytes_singleton]
          · rw [← List.append_assoc, whole]

/-! ## Records -/

theorem appendEntry_ends (steady : device.Steady) {entry : WalEntry} (logged : entry.Logged)
    (journal : Journal wal flushed pending) :
    Exec.Ends (appendEntry device entry)
      (LogEnds device flushed (flushed ++ pending ++ [entry]) []
        fun _ final events => events = [] ∧
          Holds final flushed (flushed ++ pending ++ [entry]) wal.currentLsn) wal := by
  simp only [appendEntry, Exec.ends_bind, Exec.ends_lift, WalEntry.encode_logged logged]
  refine (writeAll_ends steady entry journal).mono ?_
  intro outcome middle log ended
  cases ended with
  | crash stopped left => exact .crash stopped left
  | done holds =>
      obtain ⟨rfl, lsn, flushed', pending', middleJournal, earlier, whole⟩ := holds
      exact .done ⟨rfl, lsn, flushed', pending', ⟨middleJournal.file, middleJournal.buffered⟩,
        earlier, whole⟩

/-- Taking an LSN and appending the record that carries it. -/
theorem logEntry_ends (steady : device.Steady) (entry : U64 → WalEntry)
    (logged : ∀ lsn, (entry lsn).Logged) (journal : Journal wal flushed pending) :
    Exec.Ends (do
        let lsn ← nextLsn
        appendEntry device (entry lsn)
        pure lsn)
      (LogEnds device flushed (flushed ++ pending ++ [entry wal.currentLsn])
        [] fun _ final events => events = [] ∧
          Holds final flushed (flushed ++ pending ++ [entry wal.currentLsn])
            (wal.currentLsn + 1)) wal := by
  simp only [nextLsn, Exec.ends_bind, Exec.ends_get, Exec.ends_modify, Exec.ends_pure]
  have advanced : Journal { wal with currentLsn := wal.currentLsn + 1 } flushed pending :=
    ⟨journal.file, journal.buffered⟩
  refine (appendEntry_ends steady (logged wal.currentLsn) advanced).mono ?_
  intro outcome middle log ended
  cases ended with
  | crash stopped left => exact .crash stopped left
  | done holds =>
      obtain ⟨rfl, holds⟩ := holds
      exact .done ⟨rfl, holds⟩

theorem logPageWrite_ends (steady : device.Steady) (txId pageId : U64) {data : Bytes}
    (fits : 16 + data.length ≤ maxWalPayload) (journal : Journal wal flushed pending) :
    Exec.Ends (logPageWrite device txId pageId data)
      (LogEnds device flushed
        (flushed ++ pending ++ [.pageWrite wal.currentLsn txId pageId data])
        [] fun _ final events => events = [] ∧
          Holds final flushed (flushed ++ pending ++ [.pageWrite wal.currentLsn txId pageId data])
            (wal.currentLsn + 1)) wal :=
  logEntry_ends steady (fun lsn => .pageWrite lsn txId pageId data)
    (fun lsn => .pageWrite lsn txId pageId data fits) journal

theorem logRollback_ends (steady : device.Steady) (txId : U64)
    (journal : Journal wal flushed pending) :
    Exec.Ends (logRollback device txId)
      (LogEnds device flushed (flushed ++ pending ++ [.rollback wal.currentLsn txId])
        [] fun _ final events => events = [] ∧
          Holds final flushed (flushed ++ pending ++ [.rollback wal.currentLsn txId])
            (wal.currentLsn + 1)) wal :=
  logEntry_ends steady (fun lsn => .rollback lsn txId) (fun lsn => .rollback lsn txId) journal

theorem logCommit_ends (steady : device.Steady) (txId : U64)
    (journal : Journal wal flushed pending) :
    Exec.Ends (logCommit device txId)
      (LogEnds device flushed (flushed ++ pending ++ [.commit wal.currentLsn txId])
        [] fun _ final events => events = [.commitLogged] ∧
          Journal final (flushed ++ pending ++ [.commit wal.currentLsn txId]) [] ∧
          final.currentLsn = wal.currentLsn + 1) wal := by
  simp only [logCommit, nextLsn, Exec.ends_bind, Exec.ends_get, Exec.ends_modify, Exec.ends_pure,
    Exec.ends_note]
  have advanced : Journal { wal with currentLsn := wal.currentLsn + 1 } flushed pending :=
    ⟨journal.file, journal.buffered⟩
  refine (appendEntry_ends steady (.commit wal.currentLsn txId) advanced).mono ?_
  intro outcome middle log ended
  cases ended with
  | crash stopped left => exact .crash stopped left
  | done holds =>
      obtain ⟨rfl, lsn, flushed', pending', middleJournal, earlier, whole⟩ := holds
      refine (flushBuf_ends steady _ middleJournal).mono ?_
      rw [whole]
      intro outcome final log ended
      cases ended with
      | crash stopped left => exact .crash stopped (left.mono earlier List.prefix_rfl)
      | done holds =>
          obtain ⟨rfl, finalJournal, same⟩ := holds
          exact .done ⟨rfl, ⟨finalJournal.file, finalJournal.buffered⟩, same.trans lsn⟩

theorem sync_ends (steady : device.Steady) (journal : Journal wal flushed pending) :
    Exec.Ends (WalManager.sync device)
      (LogEnds device flushed (flushed ++ pending) [] fun _ final events =>
        events = [] ∧ Journal final (flushed ++ pending) [] ∧
          final.currentLsn = wal.currentLsn) wal := by
  simp only [WalManager.sync, Exec.ends_bind, Exec.ends_get, Exec.ends_modify]
  refine (flushBuf_ends steady _ journal).mono ?_
  intro outcome middle log ended
  cases ended with
  | crash stopped left => exact .crash stopped left
  | done holds =>
      obtain ⟨rfl, middleJournal, lsn⟩ := holds
      dsimp only
      cases answer : device.answer middle.requests with
      | ok => exact .done ⟨rfl, ⟨middleJournal.file, middleJournal.buffered⟩, lsn⟩
      | fail => exact absurd answer (steady _)
      | crash =>
          have unwritten := LeftBehind.unwritten device middleJournal.file List.prefix_rfl
          exact .crash ⟨_, answer⟩ (unwritten.mono (List.prefix_append _ _) List.prefix_rfl)

theorem logCheckpoint_ends (steady : device.Steady) (journal : Journal wal flushed pending) :
    Exec.Ends (logCheckpoint device)
      (LogEnds device flushed (flushed ++ pending ++ [.checkpoint wal.currentLsn])
        [.checkpointed] fun _ final events => events = [.checkpointed] ∧
          Journal final (flushed ++ pending ++ [.checkpoint wal.currentLsn]) [] ∧
          final.currentLsn = wal.currentLsn + 1) wal := by
  simp only [logCheckpoint, nextLsn, Exec.ends_bind, Exec.ends_get, Exec.ends_modify,
    Exec.ends_pure, Exec.ends_note]
  have advanced : Journal { wal with currentLsn := wal.currentLsn + 1 } flushed pending :=
    ⟨journal.file, journal.buffered⟩
  refine (appendEntry_ends steady (.checkpoint wal.currentLsn) advanced).mono ?_
  intro outcome middle log ended
  cases ended with
  | crash stopped left => exact .crash stopped left
  | done holds =>
      obtain ⟨rfl, lsn, flushed', pending', middleJournal, earlier, whole⟩ := holds
      refine (sync_ends steady middleJournal).mono ?_
      rw [whole]
      intro outcome final log ended
      cases ended with
      | crash stopped left => exact .crash stopped (left.mono earlier List.prefix_rfl)
      | done holds =>
          obtain ⟨rfl, finalJournal, same⟩ := holds
          exact .done ⟨rfl, ⟨finalJournal.file, finalJournal.buffered⟩, same.trans lsn⟩

theorem truncate_ends (steady : device.Steady) (journal : Journal wal flushed pending) :
    Exec.Ends (truncate device)
      (LogEnds device flushed (flushed ++ pending) [] fun _ final events =>
        events = [] ∧ Journal final [] [] ∧ final.currentLsn = wal.currentLsn) wal := by
  simp only [truncate, Exec.ends_bind, Exec.ends_get, Exec.ends_modify]
  refine (sync_ends steady journal).mono ?_
  intro outcome middle log ended
  cases ended with
  | crash stopped left => exact .crash stopped left
  | done holds =>
      obtain ⟨rfl, middleJournal, lsn⟩ := holds
      dsimp only
      cases answer : device.answer middle.requests with
      | ok => exact .done ⟨rfl, ⟨rfl, rfl⟩, lsn⟩
      | fail => exact absurd answer (steady _)
      | crash =>
          have unwritten := LeftBehind.unwritten device middleJournal.file List.prefix_rfl
          exact .crash ⟨_, answer⟩ (unwritten.mono (List.prefix_append _ _) List.prefix_rfl)

end Calls

end JouleDB.Wal
