import JouleDB.Raft.Storage

/-!
# The file of the write-ahead log

How records are laid out in the file, and how recovery reads them back: the snapshot file is
loaded and the records behind it are replayed, up to the first that is cut off or damaged.
-/

namespace JouleDB.Raft

/-- The formats from outside: the encoding of log entries, and the text of an encoding error. -/
structure Formats where
  encodeEntry : LogEntry → Bytes
  decodeEntry : Bytes → Except String LogEntry
  utf8Error : Bytes → String

/-- Type byte of a metadata record. -/
def walTypeMeta : Byte := 1

/-- Type byte of an entry record. -/
def walTypeEntry : Byte := 2

/-- The UTF-8 bytes of a node's name. -/
def idBytes (id : NodeId) : Bytes := id.toUTF8.data.toList.map UInt8.toFin

/-- The name with the given UTF-8 bytes. -/
def idFromUtf8 (bytes : Bytes) : Option NodeId :=
  String.fromUTF8? ⟨(bytes.map UInt8.ofFin).toArray⟩

theorem idFromUtf8_idBytes (id : NodeId) : idFromUtf8 (idBytes id) = some id := by
  have bytes : (idBytes id).map UInt8.ofFin = id.toUTF8.data.toList := by
    rw [idBytes, List.map_map]
    exact List.map_id _
  rw [idFromUtf8, bytes, Array.toArray_toList, String.fromUTF8?]
  exact dif_pos id.isValidUTF8

namespace WalRecord

variable (formats : Formats)

/-- The vote in a metadata record. -/
def voteBytes : Option NodeId → Bytes
  | some id => [1] ++ toLe 4 (idBytes id).length ++ idBytes id
  | none => [0]

/-- A record without its checksum. -/
def body : WalRecord → Bytes
  | .metadata term votedFor => [walTypeMeta] ++ toLe 8 term ++ voteBytes votedFor
  | .entry logEntry =>
      [walTypeEntry] ++ toLe 4 (formats.encodeEntry logEntry).length ++
        formats.encodeEntry logEntry

/-- The bytes of a record. -/
def image (record : WalRecord) : Bytes :=
  record.body formats ++ toLe 4 (crc32 (record.body formats))

/-- The record can be read back: its numbers fit their fields, and its entry survives the
encoding. -/
def Fits : WalRecord → Prop
  | .metadata term votedFor =>
      term < 256 ^ 8 ∧ ∀ id ∈ votedFor, (idBytes id).length < 256 ^ 4
  | .entry logEntry =>
      (formats.encodeEntry logEntry).length < 256 ^ 4 ∧
        formats.decodeEntry (formats.encodeEntry logEntry) = .ok logEntry

instance : (record : WalRecord) → Decidable (record.Fits formats)
  | .metadata _ _ => inferInstanceAs (Decidable (_ ∧ ∀ _ ∈ _, _))
  | .entry _ => inferInstanceAs (Decidable (_ ∧ _))

end WalRecord

/-- What the reader finds at the start of the rest of the file. -/
inductive Reading where
  /-- Nothing that can be used. -/
  | stop
  | error (message : String)
  | record (record : WalRecord) (rest : Bytes)

/-- Check the checksum behind a record of the given size, before what was found is used. -/
def checked (data : Bytes) (size : Nat) (found : Reading) : Reading :=
  if data.length < size + 4 then .stop
  else if ofLe ((data.drop size).take 4) ≠ crc32 (data.take size) then .stop
  else found

/-- Read an entry record. -/
def readEntry (formats : Formats) (data : Bytes) : Reading :=
  let len := ofLe ((data.drop 1).take 4)
  checked data (5 + len)
    (match formats.decodeEntry ((data.drop 5).take len) with
    | .error message => .error ("WAL entry deserialize: " ++ message)
    | .ok entry => .record (.entry entry) (data.drop (5 + len + 4)))

/-- Read a metadata record with a vote. -/
def readVote (formats : Formats) (data : Bytes) (term : Nat) : Reading :=
  if data.length < 14 then .stop
  else
    let idLen := ofLe ((data.drop 10).take 4)
    if data.length < 14 + idLen then .stop
    else
      match idFromUtf8 ((data.drop 14).take idLen) with
      | none => .error ("WAL voted_for UTF-8: " ++ formats.utf8Error ((data.drop 14).take idLen))
      | some id =>
          checked data (14 + idLen)
            (.record (.metadata term (some id)) (data.drop (14 + idLen + 4)))

/-- Read a metadata record. -/
def readMeta (formats : Formats) (data : Bytes) : Reading :=
  if data.length < 10 then .stop
  else
    let term := ofLe ((data.drop 1).take 8)
    if data[9]? = some 1 then readVote formats data term
    else checked data 10 (.record (.metadata term none) (data.drop 14))

/-- Read the record at the start of the rest of the file. -/
def readRecord (formats : Formats) (data : Bytes) : Reading :=
  if data.length < 5 then .stop
  else if data.head? = some walTypeEntry then readEntry formats data
  else if data.head? = some walTypeMeta then readMeta formats data
  else .stop

/-- Take a record over; an entry that the state already has is skipped. -/
def PersistentState.applyRecord (state : PersistentState) : WalRecord → PersistentState
  | .metadata term votedFor => { state with currentTerm := term, votedFor := votedFor }
  | .entry entry =>
      if state.lastLogIndex < entry.index then { state with log := state.log ++ [entry] } else state

/-- Replay the rest of the file; there are fewer records than bytes. -/
def replay (formats : Formats) : Nat → PersistentState → Bytes → Except String PersistentState
  | 0, state, _ => .ok state
  | fuel + 1, state, data =>
      match readRecord formats data with
      | .stop => .ok state
      | .error message => .error message
      | .record record rest => replay formats fuel (state.applyRecord record) rest

/-- Load the snapshot file, if there is one. -/
def Directory.loadFromDir (directory : Directory) : PersistentState :=
  directory.snapshot.getD .new

namespace RaftWal

/-- Recover the state from the snapshot file and the bytes of the log. -/
def recover (formats : Formats) (directory : Directory) (data : Bytes) :
    Except String PersistentState :=
  replay formats data.length directory.loadFromDir data

/-- The bytes of the log.  A failed append may have left some bytes of its record. -/
def file (formats : Formats) (wal : RaftWal) : Bytes :=
  (wal.attempts.drop wal.start).flatMap fun (record, fate) =>
    match fate with
    | .ok => record.image formats
    | .failed written _ => (record.image formats).take written

end RaftWal

/-! ## Reading records back -/

section Reading

variable {formats : Formats}

/-- A window that lies inside the front part of a byte string. -/
theorem window_take (data : Bytes) {offset size cut : Nat} (inside : offset + size ≤ cut) :
    ((data.take cut).drop offset).take size = (data.drop offset).take size := by
  rw [List.drop_take, List.take_take, Nat.min_eq_left (by omega)]

/-- The checksum of a record whose body and checksum are followed by other bytes. -/
theorem checksum_window (body rest : Bytes) {cut : Nat} (whole : body.length + 4 ≤ cut) :
    ofLe ((((body ++ toLe 4 (crc32 body) ++ rest).take cut).drop body.length).take 4) =
      crc32 (((body ++ toLe 4 (crc32 body) ++ rest).take cut).take body.length) := by
  have stored : ((body ++ toLe 4 (crc32 body) ++ rest).drop body.length).take 4 =
      toLe 4 (crc32 body) := by
    rw [List.append_assoc, List.drop_left, List.take_left' (toLe_length 4 _)]
  have covered : ((body ++ toLe 4 (crc32 body) ++ rest).take cut).take body.length = body := by
    rw [List.take_take, Nat.min_eq_left (by omega), List.append_assoc, List.take_left]
  rw [window_take _ whole, stored, covered, ofLe_toLe_of_lt (crc32_lt body)]

theorem image_length (formats : Formats) (record : WalRecord) :
    (record.image formats).length = (record.body formats).length + 4 := by
  rw [WalRecord.image, List.length_append, toLe_length]

theorem drop_take_image (formats : Formats) (record : WalRecord) (rest : Bytes) (cut : Nat) :
    ((record.image formats ++ rest).take cut).drop ((record.body formats).length + 4) =
      rest.take (cut - (record.image formats).length) := by
  rw [← image_length, List.drop_take, List.drop_left]

/-- The checksum passes if the record is there as a whole. -/
theorem checked_take (record : WalRecord) (rest : Bytes) {cut : Nat}
    (inside : cut ≤ (record.image formats ++ rest).length) (found : Reading) :
    checked ((record.image formats ++ rest).take cut) (record.body formats).length found =
      if (record.image formats).length ≤ cut then found else .stop := by
  have length : ((record.image formats ++ rest).take cut).length = cut :=
    List.length_take_of_le inside
  rw [checked, length, image_length]
  by_cases whole : (record.body formats).length + 4 ≤ cut
  · have matched := checksum_window (record.body formats) rest whole
    rw [if_neg (not_lt_of_ge whole), if_pos whole, WalRecord.image, if_neg (not_not_intro matched)]
  · rw [if_pos (lt_of_not_ge whole), if_neg whole]

/-- What a reader makes of the first bytes of a record and what follows it. -/
def readingOf (formats : Formats) (record : WalRecord) (rest : Bytes) (cut : Nat) : Reading :=
  if (record.image formats).length ≤ cut then
    .record record (rest.take (cut - (record.image formats).length))
  else .stop

theorem readEntry_take {entry : LogEntry} (fits : (WalRecord.entry entry).Fits formats)
    (rest : Bytes) {cut : Nat} (start : 5 ≤ cut)
    (inside : cut ≤ ((WalRecord.entry entry).image formats ++ rest).length) :
    readEntry formats (((WalRecord.entry entry).image formats ++ rest).take cut) =
      readingOf formats (.entry entry) rest cut := by
  obtain ⟨small, decoded⟩ := fits
  have bodyLength : ((WalRecord.entry entry).body formats).length =
      5 + (formats.encodeEntry entry).length := by
    simp [WalRecord.body]
    omega
  have len : ofLe (((((WalRecord.entry entry).image formats ++ rest).take cut).drop 1).take 4) =
      (formats.encodeEntry entry).length := by
    rw [window_take _ start]
    have field : (((WalRecord.entry entry).image formats ++ rest).drop 1).take 4 =
        toLe 4 (formats.encodeEntry entry).length := by
      simp [WalRecord.image, WalRecord.body]
    rw [field, ofLe_toLe_of_lt small]
  rw [readEntry, len, ← bodyLength, checked_take (.entry entry) rest inside, readingOf]
  split
  next whole =>
    have payload : ((((WalRecord.entry entry).image formats ++ rest).take cut).drop 5).take
        (formats.encodeEntry entry).length = formats.encodeEntry entry := by
      rw [image_length, bodyLength] at whole
      rw [window_take _ (by omega)]
      simp [WalRecord.image, WalRecord.body]
    rw [payload, decoded, drop_take_image]
  next => rfl

/-- A record whose body is cut off ends the replay. -/
theorem readingOf_torn {record : WalRecord} {rest : Bytes} {cut : Nat}
    (torn : cut < (record.body formats).length) : readingOf formats record rest cut = .stop := by
  rw [readingOf, image_length, if_neg (by omega)]

theorem readVote_take {term : Nat} {id : NodeId}
    (fits : (WalRecord.metadata term (some id)).Fits formats) (rest : Bytes) {cut : Nat}
    (inside : cut ≤ ((WalRecord.metadata term (some id)).image formats ++ rest).length) :
    readVote formats (((WalRecord.metadata term (some id)).image formats ++ rest).take cut) term =
      readingOf formats (.metadata term (some id)) rest cut := by
  have short : (idBytes id).length < 256 ^ 4 := fits.2 id rfl
  have length : (((WalRecord.metadata term (some id)).image formats ++ rest).take cut).length =
      cut := List.length_take_of_le inside
  have bodyLength : ((WalRecord.metadata term (some id)).body formats).length =
      14 + (idBytes id).length := by
    simp [WalRecord.body, WalRecord.voteBytes]
    omega
  have layout : (WalRecord.metadata term (some id)).image formats ++ rest =
      ([walTypeMeta] ++ toLe 8 term ++ [1]) ++ (toLe 4 (idBytes id).length ++ (idBytes id ++
        (toLe 4 (crc32 ((WalRecord.metadata term (some id)).body formats)) ++ rest))) := by
    simp [WalRecord.image, WalRecord.body, WalRecord.voteBytes]
  rw [readVote, length]
  split
  next torn => exact (readingOf_torn (by omega)).symm
  next =>
    have idLen : ofLe (((((WalRecord.metadata term (some id)).image formats ++ rest).take
        cut).drop 10).take 4) = (idBytes id).length := by
      rw [window_take _ (by omega), layout, List.drop_left' (by simp),
        List.take_left' (toLe_length 4 _), ofLe_toLe_of_lt short]
    rw [idLen]
    dsimp only
    split
    next torn => exact (readingOf_torn (by omega)).symm
    next =>
      have name : ((((WalRecord.metadata term (some id)).image formats ++ rest).take
          cut).drop 14).take (idBytes id).length = idBytes id := by
        rw [window_take _ (by omega), layout, ← List.append_assoc, List.drop_left' (by simp)]
        exact List.take_left
      have after := drop_take_image formats (.metadata term (some id)) rest cut
      rw [bodyLength] at after
      rw [name, idFromUtf8_idBytes]
      dsimp only
      rw [after, ← bodyLength, checked_take (.metadata term (some id)) rest inside, readingOf]

theorem readMeta_take {term : Nat} {votedFor : Option NodeId}
    (fits : (WalRecord.metadata term votedFor).Fits formats) (rest : Bytes) {cut : Nat}
    (inside : cut ≤ ((WalRecord.metadata term votedFor).image formats ++ rest).length) :
    readMeta formats (((WalRecord.metadata term votedFor).image formats ++ rest).take cut) =
      readingOf formats (.metadata term votedFor) rest cut := by
  have length : (((WalRecord.metadata term votedFor).image formats ++ rest).take cut).length =
      cut := List.length_take_of_le inside
  rw [readMeta, length]
  split
  next short =>
    refine (readingOf_torn (lt_of_lt_of_le short ?_)).symm
    cases votedFor <;> simp [WalRecord.body, WalRecord.voteBytes]
    omega
  next long =>
    have readTerm : ofLe (((((WalRecord.metadata term votedFor).image formats ++ rest).take
        cut).drop 1).take 8) = term := by
      rw [window_take _ (by omega)]
      have field : (((WalRecord.metadata term votedFor).image formats ++ rest).drop 1).take 8 =
          toLe 8 term := by
        simp [WalRecord.image, WalRecord.body]
      rw [field, ofLe_toLe_of_lt fits.1]
    have hasVoted : (((WalRecord.metadata term votedFor).image formats ++ rest).take cut)[9]? =
        some (if votedFor.isSome then 1 else 0) := by
      rw [List.getElem?_take_of_lt (by omega)]
      cases votedFor <;> simp [WalRecord.image, WalRecord.body, WalRecord.voteBytes]
    rw [readTerm, hasVoted]
    cases votedFor with
    | none =>
        have bodyLength : ((WalRecord.metadata term none).body formats).length = 10 := by
          simp [WalRecord.body, WalRecord.voteBytes]
        have after := drop_take_image formats (.metadata term none) rest cut
        rw [bodyLength] at after
        rw [if_neg (by simp), after, ← bodyLength, checked_take (.metadata term none) rest inside,
          readingOf]
    | some id =>
        rw [if_pos (by simp)]
        exact readVote_take fits rest inside

theorem readRecord_take {record : WalRecord} (fits : record.Fits formats) (rest : Bytes)
    {cut : Nat} (inside : cut ≤ (record.image formats ++ rest).length) :
    readRecord formats ((record.image formats ++ rest).take cut) =
      readingOf formats record rest cut := by
  have length : ((record.image formats ++ rest).take cut).length = cut :=
    List.length_take_of_le inside
  rw [readRecord, length]
  split
  next short =>
    rw [readingOf, if_neg]
    cases record <;> simp [WalRecord.image, WalRecord.body] <;> omega
  next long =>
    have nonempty : cut ≠ 0 := by omega
    rw [List.head?_take, if_neg nonempty]
    cases record with
    | metadata term votedFor =>
        have type : ((WalRecord.metadata term votedFor).image formats ++ rest).head? =
            some walTypeMeta := rfl
        rw [type, if_neg (by decide), if_pos rfl]
        exact readMeta_take fits rest inside
    | entry entry =>
        have type : ((WalRecord.entry entry).image formats ++ rest).head? =
            some walTypeEntry := rfl
        rw [type, if_pos rfl]
        exact readEntry_take fits rest (by omega) inside

/-- The bytes of a sequence of records. -/
def images (formats : Formats) (records : List WalRecord) : Bytes :=
  records.flatMap (WalRecord.image formats)

/-- The number of records whose bytes lie wholly inside the first `cut` bytes. -/
def wholeRecords (formats : Formats) : List WalRecord → Nat → Nat
  | [], _ => 0
  | record :: records, cut =>
      if (record.image formats).length ≤ cut then
        wholeRecords formats records (cut - (record.image formats).length) + 1
      else 0

theorem wholeRecords_le (records : List WalRecord) (cut : Nat) :
    wholeRecords formats records cut ≤ records.length := by
  induction records generalizing cut with
  | nil => exact le_refl 0
  | cons record records ih =>
      rw [wholeRecords]
      split
      · exact Nat.succ_le_succ (ih _)
      · exact Nat.zero_le _

/-- Replaying a log cut at any byte takes over the records that are there as a whole. -/
theorem replay_take {records : List WalRecord} (fits : ∀ record ∈ records, record.Fits formats)
    (state : PersistentState) {cut fuel : Nat} (inside : cut ≤ (images formats records).length)
    (enough : cut ≤ fuel) :
    replay formats fuel state ((images formats records).take cut) =
      .ok ((records.take (wholeRecords formats records cut)).foldl .applyRecord state) := by
  induction records generalizing state cut fuel with
  | nil =>
      have empty : (images formats []).take cut = [] := List.take_nil
      rw [empty]
      cases fuel <;> rfl
  | cons record records ih =>
      have first := fits record List.mem_cons_self
      have later : ∀ other ∈ records, other.Fits formats :=
        fun other member => fits other (List.mem_cons_of_mem _ member)
      have bytes : images formats (record :: records) =
          record.image formats ++ images formats records := rfl
      have reading := readRecord_take first (images formats records) inside
      have positive : 0 < (record.image formats).length := by
        rw [image_length]
        omega
      cases fuel with
      | zero =>
          rw [wholeRecords, if_neg (by omega)]
          rfl
      | succ fuel =>
          rw [bytes] at inside ⊢
          rw [replay, reading, readingOf, wholeRecords]
          by_cases whole : (record.image formats).length ≤ cut
          · rw [if_pos whole, if_pos whole]
            dsimp only
            rw [List.length_append] at inside
            rw [ih later _ (by omega) (by omega)]
            rfl
          · rw [if_neg whole, if_neg whole]
            rfl

theorem wholeRecords_length (records : List WalRecord) :
    wholeRecords formats records (images formats records).length = records.length := by
  induction records with
  | nil => rfl
  | cons record records ih =>
      have bytes : images formats (record :: records) =
          record.image formats ++ images formats records := rfl
      rw [wholeRecords, bytes, List.length_append, if_pos (Nat.le_add_right _ _),
        Nat.add_sub_cancel_left, ih, List.length_cons]

end Reading

end JouleDB.Raft
