import JouleDB.Wal.Recovery

/-!
# Recovery from a torn log

A crash in the middle of an append leaves a byte prefix of the log.  Reading the
prefix gives the records that lie wholly inside it when fewer than a header's bytes
are left over after them; a complete header in front of an incomplete payload makes
the whole read fail.
-/

namespace JouleDB.Wal

open WalManager RecoveryManager

/-- A record that some logging call appended. -/
abbrev LoggedEntry := { entry : WalEntry // entry.Logged }

/-- The bytes of a sequence of records. -/
def logBytes (entries : List WalEntry) : Bytes := entries.flatMap WalEntry.image

/-- The records whose bytes lie wholly inside the first `cut` bytes of the log. -/
def wholeEntries : List WalEntry → Nat → List WalEntry
  | [], _ => []
  | entry :: entries, cut =>
      if entry.image.length ≤ cut then
        entry :: wholeEntries entries (cut - entry.image.length)
      else
        []

/-- The bytes of the prefix that follow the last whole record. -/
def tornLength : List WalEntry → Nat → Nat
  | [], _ => 0
  | entry :: entries, cut =>
      if entry.image.length ≤ cut then tornLength entries (cut - entry.image.length) else cut

theorem wholeEntries_take (entries : List WalEntry) (cut : Nat) :
    wholeEntries entries cut <+: entries := by
  induction entries generalizing cut with
  | nil => exact List.nil_prefix
  | cons entry entries ih =>
      rw [wholeEntries]
      split
      · exact (List.prefix_cons_inj entry).mpr (ih _)
      · exact List.nil_prefix

/-- A cut between two records leaves whole records. -/
theorem take_logBytes_whole {entries : List WalEntry} {cut : Nat}
    (untorn : tornLength entries cut = 0) :
    (logBytes entries).take cut = logBytes (wholeEntries entries cut) := by
  induction entries generalizing cut with
  | nil => simp [logBytes, wholeEntries]
  | cons entry entries ih =>
      have bytes : logBytes (entry :: entries) = entry.image ++ logBytes entries := rfl
      rw [tornLength] at untorn
      rw [bytes, List.take_append, wholeEntries]
      split at untorn
      next inside =>
        rw [List.take_of_length_le inside, if_pos inside, ih untorn]
        rfl
      next outside =>
        rw [untorn, Nat.zero_sub, List.take_zero, List.take_zero, if_neg (untorn ▸ outside)]
        rfl

/-! ## One round of the reader -/

theorem payloadLen_image {entry : WalEntry} (logged : entry.Logged) (rest : Bytes) :
    ofLe (((entry.image ++ rest).drop 17).take 4) = entry.payloadSize := by
  rw [WalEntry.image_payloadLen]
  exact ofLe_toLe_of_lt (lt_of_le_of_lt (WalEntry.payloadSize_le logged) (by norm_num [maxWalPayload]))

/-- A whole record in front of the file is read and the reader goes on after it. -/
theorem readEntries_image {entry : WalEntry} (logged : entry.Logged) (fuel : Nat) (rest : Bytes) :
    readEntries (fuel + 1) (entry.image ++ rest) =
      (readEntries fuel rest >>= fun entries => .ok (entry.reread :: entries)) := by
  have length : (entry.image ++ rest).length = walHeaderSize + entry.payloadSize + rest.length := by
    rw [List.length_append, WalEntry.image_length]
  have long : ¬ (entry.image ++ rest).length < walHeaderSize := by omega
  have magic : (entry.image ++ rest).take 4 = walMagic := by simp [WalEntry.image, walMagic]
  have small : ¬ entry.payloadSize > maxWalPayload := by
    have := WalEntry.payloadSize_le logged
    omega
  have complete : ¬ (entry.image ++ rest).length - walHeaderSize < entry.payloadSize := by omega
  have record : (entry.image ++ rest).take (walHeaderSize + entry.payloadSize) = entry.image :=
    List.take_left' (WalEntry.image_length entry)
  have after : (entry.image ++ rest).drop (walHeaderSize + entry.payloadSize) = rest :=
    List.drop_left' (WalEntry.image_length entry)
  simp only [readEntries, payloadLen_image logged, if_neg long, magic, ne_eq, not_true_eq_false,
    if_false, if_neg small, if_neg complete, record, after, WalEntry.decode_image logged]

/-- A strict prefix of a record ends the read: silently inside the header, with an error
inside the payload. -/
theorem readEntries_torn {entry : WalEntry} (logged : entry.Logged) {fuel cut : Nat}
    (torn : cut < entry.image.length) :
    readEntries (fuel + 1) (entry.image.take cut) =
      if cut < walHeaderSize then .ok []
      else .err (.backend "WAL read error: failed to fill whole buffer") := by
  have length : (entry.image.take cut).length = cut := List.length_take_of_le (le_of_lt torn)
  by_cases short : cut < walHeaderSize
  · simp [readEntries, length, short]
  · have enough : 21 ≤ cut := by simpa [walHeaderSize] using short
    have magic : (entry.image.take cut).take 4 = walMagic := by
      rw [List.take_take, Nat.min_eq_left (by omega)]
      simp [WalEntry.image, walMagic]
    have payloadLen : ofLe (((entry.image.take cut).drop 17).take 4) = entry.payloadSize := by
      have window : ((entry.image.take cut).drop 17).take 4 = (entry.image.drop 17).take 4 := by
        rw [List.drop_take, List.take_take, Nat.min_eq_left (by omega)]
      rw [window]
      simpa using payloadLen_image logged []
    have small : ¬ entry.payloadSize > maxWalPayload := by
      have := WalEntry.payloadSize_le logged
      omega
    have cutPayload : cut - walHeaderSize < entry.payloadSize := by
      rw [WalEntry.image_length] at torn
      omega
    simp [readEntries, length, short, magic, payloadLen, small, cutPayload]

/-- Reading a prefix of a log, for every place of the cut. -/
theorem readEntries_take {entries : List WalEntry} (logged : ∀ entry ∈ entries, entry.Logged)
    {cut fuel : Nat} (enough : ((logBytes entries).take cut).length ≤ fuel) :
    readEntries fuel ((logBytes entries).take cut) =
      if tornLength entries cut < walHeaderSize then
        .ok ((wholeEntries entries cut).map WalEntry.reread)
      else
        .err (.backend "WAL read error: failed to fill whole buffer") := by
  induction entries generalizing cut fuel with
  | nil => cases fuel <;> simp [logBytes, readEntries, tornLength, wholeEntries, walHeaderSize]
  | cons entry entries ih =>
      have entryLogged := logged entry List.mem_cons_self
      have restLogged : ∀ entry ∈ entries, entry.Logged := fun other member =>
        logged other (List.mem_cons_of_mem _ member)
      have bytes : logBytes (entry :: entries) = entry.image ++ logBytes entries := rfl
      rw [bytes] at enough ⊢
      rw [List.take_append] at enough ⊢
      by_cases inside : entry.image.length ≤ cut
      · rw [List.take_of_length_le inside] at enough ⊢
        have positive : 0 < entry.image.length := by
          rw [WalEntry.image_length, walHeaderSize]
          omega
        obtain ⟨fuel, rfl⟩ : ∃ smaller, fuel = smaller + 1 := by
          refine ⟨fuel - 1, ?_⟩
          rw [List.length_append] at enough
          omega
        rw [readEntries_image entryLogged, ih restLogged (by rw [List.length_append] at enough; omega)]
        simp only [tornLength, wholeEntries, if_pos inside]
        split <;> rfl
      · have nothing : (logBytes entries).take (cut - entry.image.length) = [] := by
          rw [Nat.sub_eq_zero_of_le (by omega), List.take_zero]
        rw [nothing, List.append_nil] at enough ⊢
        simp only [tornLength, wholeEntries, if_neg inside, List.map_nil]
        cases fuel with
        | zero =>
            have empty : entry.image.take cut = [] := by simpa using enough
            have start : cut = 0 := by
              have := List.length_take_of_le (le_of_lt (not_le.mp inside))
              rw [empty] at this
              simpa using this.symm
            simp [start, readEntries, walHeaderSize]
        | succ fuel => exact readEntries_torn entryLogged (not_le.mp inside)

/-- The records of a log, without the evidence that they were logged. -/
def records (log : List LoggedEntry) : List WalEntry := log.map Subtype.val

theorem logged_of_mem_records {log : List LoggedEntry} {entry : WalEntry}
    (member : entry ∈ records log) : entry.Logged := by
  obtain ⟨logged, -, rfl⟩ := List.mem_map.mp member
  exact logged.property

/-- The log manager opened over the first `cut` bytes of a log. -/
def openPrefix (log : List LoggedEntry) (cut : Nat) : WalManager :=
  openFile ((logBytes (records log)).take cut)

theorem readAllEntries_take (log : List LoggedEntry) (cut : Nat) :
    (openPrefix log cut).readAllEntries =
      if tornLength (records log) cut < walHeaderSize then
        .ok ((wholeEntries (records log) cut).map WalEntry.reread)
      else
        .err (.backend "WAL read error: failed to fill whole buffer") :=
  readEntries_take (fun _ => logged_of_mem_records) le_rfl

/-- A record is read back unchanged unless it is an extent write. -/
theorem reread_eq_iff {entry : WalEntry} (logged : entry.Logged) :
    entry.reread = entry ↔ entry.entryType ≠ .extentWrite := by
  cases logged with
  | extentWrite lsn txId firstPageId pageCount totalBytes dataCrc32 =>
      simp only [WalEntry.extentWrite, WalEntry.reread, ne_eq, not_true_eq_false, iff_false]
      intro same
      have lengths := congrArg (fun entry => entry.data.length) same
      simp [WalEntry.pageBytes] at lengths
  | pageWrite | commit | checkpoint | rollback =>
      simp [WalEntry.pageWrite, WalEntry.commit, WalEntry.checkpoint, WalEntry.rollback,
        WalEntry.reread]

/-- Records without extent writes are read back unchanged. -/
theorem map_reread_eq_iff {entries : List WalEntry} (logged : ∀ entry ∈ entries, entry.Logged) :
    entries.map WalEntry.reread = entries ↔
      ∀ entry ∈ entries, entry.entryType ≠ .extentWrite := by
  nth_rewrite 2 [← List.map_id entries]
  rw [List.map_inj_left]
  exact forall₂_congr fun entry member => reread_eq_iff (logged entry member)

/-- The prefix is recovered as if the crash had come after the last whole record: reading
returns exactly the whole records and recovery applies the committed transactions among
them. -/
def RecoversWhole (log : List LoggedEntry) (cut : Nat) : Prop :=
  (openPrefix log cut).readAllEntries = .ok (wholeEntries (records log) cut) ∧
    ∃ result, RecoveryManager.recover (openPrefix log cut) = .ok result ∧
      AppliesCommitted (wholeEntries (records log) cut) result

/-- A torn log is recovered exactly when the cut does not fall into a payload and no
extent write is among the whole records. -/
theorem recoversWhole_iff (log : List LoggedEntry) (cut : Nat) :
    RecoversWhole log cut ↔
      tornLength (records log) cut < walHeaderSize ∧
        ∀ entry ∈ wholeEntries (records log) cut, entry.entryType ≠ .extentWrite := by
  have same := map_reread_eq_iff fun entry member =>
    logged_of_mem_records ((wholeEntries_take (records log) cut).subset member)
  have read := readAllEntries_take log cut
  constructor
  · rintro ⟨readWhole, -⟩
    rw [readWhole] at read
    split at read
    next inHeader =>
      refine ⟨inHeader, same.mp ?_⟩
      injection read with equal
      exact equal.symm
    next => cases read
  · rintro ⟨inHeader, noExtent⟩
    rw [if_pos inHeader, same.mpr noExtent] at read
    refine ⟨read, _, ?_, replay_applies _⟩
    rw [RecoveryManager.recover, read]
    rfl

/-- A crash four bytes into the payload of a single commit record makes the log
unreadable. -/
theorem not_recoversWhole_torn_commit :
    ¬ RecoversWhole [⟨.commit 1 1, .commit 1 1⟩] 25 := by
  rintro ⟨readWhole, -⟩
  have torn : ¬ tornLength (records [⟨.commit 1 1, .commit 1 1⟩]) 25 < walHeaderSize := by
    simp [records, tornLength, WalEntry.image_length, WalEntry.payloadSize, WalEntry.commit,
      walHeaderSize]
  rw [readAllEntries_take, if_neg torn] at readWhole
  cases readWhole

end JouleDB.Wal
