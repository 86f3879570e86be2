import JouleDB.Error
import JouleDB.Lib.Bytes
import JouleDB.Lib.Exec

/-!
# Log records and their encoding

A record is a 21-byte header (magic, CRC-32, LSN, type, payload length) followed by
the payload: the transaction id, the page id of page and extent writes, and the
data.  `decode` reads back what `encode` wrote, except that it returns the data of
an extent write with the page id in front.
-/

namespace JouleDB.Wal

/-- The magic number `WAL1`. -/
def walMagic : Bytes := [0x57, 0x41, 0x4C, 0x31]

/-- Header size: magic, CRC, LSN, type and payload length. -/
def walHeaderSize : Nat := 21

/-- Largest payload of one record. -/
def maxWalPayload : Nat := 16 * 1024 * 1024 + 64 * 1024

/-- Record types. -/
inductive WalEntryType where
  | pageWrite
  | commit
  | checkpoint
  | rollback
  | extentWrite
  deriving DecidableEq, Repr

namespace WalEntryType

/-- The byte that stands for a record type. -/
def code : WalEntryType → Byte
  | .pageWrite => 0x01
  | .commit => 0x02
  | .checkpoint => 0x03
  | .rollback => 0x04
  | .extentWrite => 0x05

/-- Read a record type. -/
def tryFrom (value : Byte) : Outcome StorageError WalEntryType :=
  if value = 0x01 then .ok .pageWrite
  else if value = 0x02 then .ok .commit
  else if value = 0x03 then .ok .checkpoint
  else if value = 0x04 then .ok .rollback
  else if value = 0x05 then .ok .extentWrite
  else .err (.backend s!"Invalid WAL entry type: {value.val}")

@[simp] theorem tryFrom_code (entryType : WalEntryType) :
    tryFrom entryType.code = .ok entryType := by
  cases entryType <;> rfl

end WalEntryType

/-- A log record. -/
structure WalEntry where
  lsn : U64
  entryType : WalEntryType
  txId : U64
  pageId : Option U64
  data : Bytes
  deriving DecidableEq, Repr

namespace WalEntry

/-- A page write. -/
def pageWrite (lsn txId pageId : U64) (data : Bytes) : WalEntry :=
  ⟨lsn, .pageWrite, txId, some pageId, data⟩

/-- A transaction commit. -/
def commit (lsn txId : U64) : WalEntry := ⟨lsn, .commit, txId, none, []⟩

/-- A checkpoint marker. -/
def checkpoint (lsn : U64) : WalEntry := ⟨lsn, .checkpoint, 0, none, []⟩

/-- A transaction rollback. -/
def rollback (lsn txId : U64) : WalEntry := ⟨lsn, .rollback, txId, none, []⟩

/-- A bulk extent write: the page id is stored again in front of the metadata. -/
def extentWrite (lsn txId firstPageId pageCount totalBytes : U64) (dataCrc32 : Fin (2 ^ 32)) :
    WalEntry :=
  ⟨lsn, .extentWrite, txId, some firstPageId,
    toLe 8 firstPageId.val ++ toLe 8 pageCount.val ++ toLe 8 totalBytes.val ++
      toLe 4 dataCrc32.val⟩

/-- Transaction id, optional page id and data. -/
def payloadSize (entry : WalEntry) : Nat :=
  8 + (if entry.pageId.isSome then 8 else 0) + entry.data.length

/-- The page id as it stands in the payload. -/
def pageBytes : Option U64 → Bytes
  | some pageId => toLe 8 pageId.val
  | none => []

/-- Everything after the CRC field. -/
def body (entry : WalEntry) : Bytes :=
  toLe 8 entry.lsn.val ++ [entry.entryType.code] ++ toLe 4 entry.payloadSize ++
    toLe 8 entry.txId.val ++ pageBytes entry.pageId ++ entry.data

/-- The bytes of a record. -/
def image (entry : WalEntry) : Bytes :=
  walMagic ++ toLe 4 (crc32 entry.body) ++ entry.body

/-- Encode a record; a payload above the maximum is refused. -/
def encode (entry : WalEntry) : Outcome StorageError Bytes :=
  let payloadSize := entry.payloadSize
  if payloadSize > maxWalPayload then
    .err (.backend
      s!"WAL entry payload too large: {payloadSize} bytes (max {maxWalPayload})")
  else
    .ok entry.image

/-- Read a 64-bit integer from the start of a byte string. -/
def readU64 (bytes : Bytes) : U64 := Fin.ofNat (2 ^ 64) (ofLe (bytes.take 8))

/-- Decode a record.  Indexing past the end of a short payload is a panic. -/
def decode (buf : Bytes) : Outcome StorageError WalEntry := do
  if buf.length < walHeaderSize then
    .err (.backend "WAL entry too short")
  else if buf.take 4 ≠ walMagic then
    .err (.backend "Invalid WAL magic")
  else
    let stored := ofLe ((buf.drop 4).take 4)
    let calculated := crc32 (buf.drop 8)
    if stored ≠ calculated then
      .err (.backend s!"WAL CRC mismatch: stored={stored}, calculated={calculated}")
    else
      let lsn := readU64 (buf.drop 8)
      let entryType ← WalEntryType.tryFrom (buf[16]?.getD 0)
      let payloadLen := ofLe ((buf.drop 17).take 4)
      if buf.length < walHeaderSize + payloadLen then
        .err (.backend "WAL entry truncated")
      else
        let payload := (buf.drop walHeaderSize).take payloadLen
        if payload.length < 8 then
          .halt .panic
        else
          let txId := readU64 payload
          match entryType with
          | .pageWrite =>
              if payload.length < 16 then .halt .panic
              else .ok ⟨lsn, entryType, txId, some (readU64 (payload.drop 8)), payload.drop 16⟩
          | .extentWrite =>
              if payload.length < 16 then .halt .panic
              else .ok ⟨lsn, entryType, txId, some (readU64 (payload.drop 8)), payload.drop 8⟩
          | _ => .ok ⟨lsn, entryType, txId, none, []⟩

/-- The records that the logging calls append. -/
inductive Logged : WalEntry → Prop where
  | pageWrite (lsn txId pageId : U64) (data : Bytes) (fits : 16 + data.length ≤ maxWalPayload) :
      Logged (.pageWrite lsn txId pageId data)
  | commit (lsn txId : U64) : Logged (.commit lsn txId)
  | checkpoint (lsn : U64) : Logged (.checkpoint lsn)
  | rollback (lsn txId : U64) : Logged (.rollback lsn txId)
  | extentWrite (lsn txId firstPageId pageCount totalBytes : U64) (dataCrc32 : Fin (2 ^ 32)) :
      Logged (.extentWrite lsn txId firstPageId pageCount totalBytes dataCrc32)

/-- What `decode` returns for the bytes of a logged record: the data of an extent
write comes back with the page id in front. -/
def reread (entry : WalEntry) : WalEntry :=
  match entry.entryType with
  | .extentWrite => { entry with data := pageBytes entry.pageId ++ entry.data }
  | _ => entry

/-! ## Reading records back -/

theorem readU64_append (value : U64) (rest : Bytes) :
    readU64 (toLe 8 value.val ++ rest) = value := by
  have front : (toLe 8 value.val ++ rest).take 8 = toLe 8 value.val :=
    List.take_left' (toLe_length 8 _)
  apply Fin.ext
  rw [readU64, front, ofLe_toLe_u64]
  exact Nat.mod_eq_of_lt value.isLt

/-- The payload of a record: transaction id, page id and data. -/
def payload (entry : WalEntry) : Bytes :=
  toLe 8 entry.txId.val ++ pageBytes entry.pageId ++ entry.data

theorem payload_length (entry : WalEntry) : entry.payload.length = entry.payloadSize := by
  cases page : entry.pageId <;> simp [payload, payloadSize, pageBytes, page]
  omega

theorem body_eq (entry : WalEntry) :
    entry.body = toLe 8 entry.lsn.val ++ ([entry.entryType.code] ++
      (toLe 4 entry.payloadSize ++ entry.payload)) := by
  simp [body, payload]

theorem image_drop_body (entry : WalEntry) : entry.image.drop 8 = entry.body := by
  simp [image, walMagic]

theorem image_drop_type (entry : WalEntry) (rest : Bytes) :
    (entry.image ++ rest).drop 16 =
      entry.entryType.code :: (toLe 4 entry.payloadSize ++ (entry.payload ++ rest)) := by
  have split : (entry.image ++ rest).drop 16 = ((entry.image ++ rest).drop 8).drop 8 := by simp
  rw [split]
  have front : (entry.image ++ rest).drop 8 = entry.body ++ rest := by
    simp [image, walMagic]
  rw [front, body_eq]
  rw [List.append_assoc, List.drop_left' (toLe_length 8 _)]
  simp

theorem image_type (entry : WalEntry) (rest : Bytes) :
    (entry.image ++ rest)[16]? = some entry.entryType.code := by
  rw [← List.head?_drop, image_drop_type]; rfl

theorem image_payloadLen (entry : WalEntry) (rest : Bytes) :
    ((entry.image ++ rest).drop 17).take 4 = toLe 4 entry.payloadSize := by
  have split : (entry.image ++ rest).drop 17 = ((entry.image ++ rest).drop 16).drop 1 := by simp
  rw [split, image_drop_type, List.drop_one, List.tail_cons, List.take_left' (toLe_length 4 _)]

theorem image_drop_header (entry : WalEntry) (rest : Bytes) :
    (entry.image ++ rest).drop walHeaderSize = entry.payload ++ rest := by
  have split : (entry.image ++ rest).drop walHeaderSize =
      (((entry.image ++ rest).drop 16).drop 1).drop 4 := by simp [walHeaderSize]
  rw [split, image_drop_type, List.drop_one, List.tail_cons, List.drop_left' (toLe_length 4 _)]

theorem image_length (entry : WalEntry) :
    entry.image.length = walHeaderSize + entry.payloadSize := by
  simp [image, body_eq, walMagic, walHeaderSize, payload_length]
  omega

theorem payloadSize_le {entry : WalEntry} (logged : entry.Logged) :
    entry.payloadSize ≤ maxWalPayload := by
  cases logged with
  | pageWrite lsn txId pageId data fits => simpa [payloadSize, pageWrite] using fits
  | commit | checkpoint | rollback | extentWrite =>
      simp [payloadSize, commit, checkpoint, rollback, extentWrite, maxWalPayload]

theorem encode_logged {entry : WalEntry} (logged : entry.Logged) :
    entry.encode = .ok entry.image :=
  if_neg (not_lt.mpr (payloadSize_le logged))

/-- The CRC field of a record matches the bytes after it. -/
theorem image_crc (entry : WalEntry) :
    ofLe ((entry.image.drop 4).take 4) = crc32 (entry.image.drop 8) := by
  have field : (entry.image.drop 4).take 4 = toLe 4 (crc32 entry.body) := by
    simp [image, walMagic]
  rw [field, image_drop_body, ofLe_toLe_of_lt (crc32_lt _)]

theorem payload_drop_page {entry : WalEntry} {pageId : U64} (page : entry.pageId = some pageId) :
    entry.payload.drop 8 = toLe 8 pageId.val ++ entry.data := by
  rw [payload, List.append_assoc, List.drop_left' (toLe_length 8 _), page, pageBytes]

theorem payload_drop_data {entry : WalEntry} {pageId : U64} (page : entry.pageId = some pageId) :
    entry.payload.drop 16 = entry.data := by
  have split : entry.payload.drop 16 = (entry.payload.drop 8).drop 8 := by simp
  rw [split, payload_drop_page page, List.drop_left' (toLe_length 8 _)]

/-- Decoding the bytes of a logged record gives the record back, up to the extent
metadata. -/
theorem decode_image {entry : WalEntry} (logged : entry.Logged) :
    decode entry.image = .ok entry.reread := by
  have length := image_length entry
  have magic : entry.image.take 4 = walMagic := by simp [image, walMagic]
  have crc := image_crc entry
  have entryType : entry.image[16]? = some entry.entryType.code := by
    simpa using image_type entry []
  have payloadLen : ofLe ((entry.image.drop 17).take 4) = entry.payloadSize := by
    have field := image_payloadLen entry []
    rw [List.append_nil] at field
    rw [field]
    exact ofLe_toLe_of_lt (lt_of_le_of_lt (payloadSize_le logged) (by norm_num [maxWalPayload]))
  have lsn : readU64 (entry.image.drop 8) = entry.lsn := by
    rw [image_drop_body, body_eq, readU64_append]
  have payload : (entry.image.drop walHeaderSize).take entry.payloadSize = entry.payload := by
    have rest := image_drop_header entry []
    simp only [List.append_nil] at rest
    rw [rest, ← payload_length, List.take_length]
  have txId : readU64 entry.payload = entry.txId := by
    rw [WalEntry.payload, List.append_assoc, readU64_append]
  simp only [decode, length, magic, crc, entryType, payloadLen, lsn, payload, payload_length,
    txId, Option.getD_some, WalEntryType.tryFrom_code, Outcome.ok_bind]
  cases logged with
  | pageWrite lsn txId pageId data fits =>
      rw [payload_drop_page rfl, readU64_append, payload_drop_data rfl]
      simp [pageWrite, payloadSize, walHeaderSize, reread]
      omega
  | extentWrite lsn txId firstPageId pageCount totalBytes dataCrc32 =>
      rw [payload_drop_page rfl, readU64_append]
      simp [extentWrite, payloadSize, walHeaderSize, reread, pageBytes]
  | commit | checkpoint | rollback =>
      simp [commit, checkpoint, rollback, payloadSize, walHeaderSize, reread]

end WalEntry

/-!
## What the record codec guarantees

Decoding gives back every record but those of extent writes.  It fails on bytes that are no record,
unless they are framed as one whose payload is too short for its type: then it reads past the end.
-/

namespace WalEntry

/-- Get the encoded size. -/
def encodedSize (entry : WalEntry) : Nat := walHeaderSize + entry.payloadSize

/-- The length of the payload according to the header. -/
def statedLength (buf : Bytes) : Nat := ofLe ((buf.drop 17).take 4)

/-- The least payload of a record. -/
def leastPayload : WalEntryType → Nat
  | .pageWrite | .extentWrite => 16
  | .commit | .checkpoint | .rollback => 8

/-- Bytes are framed as a record whose payload is too short for its type. -/
structure ShortPayload (buf : Bytes) (entryType : WalEntryType) : Prop where
  header : walHeaderSize ≤ buf.length
  magic : buf.take 4 = walMagic
  checksum : ofLe ((buf.drop 4).take 4) = crc32 (buf.drop 8)
  code : buf[16]?.getD 0 = entryType.code
  whole : walHeaderSize + statedLength buf ≤ buf.length
  short : statedLength buf < leastPayload entryType

theorem tryFrom_eq_ok {value : Byte} {entryType : WalEntryType} :
    WalEntryType.tryFrom value = .ok entryType ↔ value = entryType.code := by
  constructor
  · intro known
    unfold WalEntryType.tryFrom at known
    split_ifs at known <;> cases known <;> assumption
  · rintro rfl
    exact WalEntryType.tryFrom_code entryType

theorem tryFrom_ne_halt (value : Byte) (halt : Halt) :
    WalEntryType.tryFrom value ≠ .halt halt := by
  unfold WalEntryType.tryFrom
  split_ifs <;> nofun

/-- Only framed bytes with a short payload stop the decoder. -/
theorem shortPayload_of_halt {buf : Bytes} {cause : Halt} (halts : decode buf = .halt cause) :
    ∃ entryType, ShortPayload buf entryType := by
  unfold decode at halts
  split at halts
  next => cases halts
  next header =>
    split at halts
    next => cases halts
    next magic =>
      dsimp only at halts
      split at halts
      next => cases halts
      next checksum =>
        cases known : WalEntryType.tryFrom (buf[16]?.getD 0) with
        | err error => rw [known] at halts; cases halts
        | halt halt => exact absurd known (tryFrom_ne_halt _ _)
        | ok entryType =>
            rw [known, Outcome.ok_bind] at halts
            split at halts
            next => cases halts
            next whole =>
              have size : ((buf.drop walHeaderSize).take (statedLength buf)).length =
                  statedLength buf := by
                rw [List.length_take, List.length_drop, statedLength]
                omega
              refine ⟨entryType, not_lt.mp header, not_not.mp magic, not_not.mp checksum,
                tryFrom_eq_ok.mp known, not_lt.mp whole, ?_⟩
              rw [← size]
              unfold statedLength
              cases entryType <;> simp only [leastPayload] <;> split_ifs at halts <;> omega

/-- Decoding framed bytes with a short payload reads past the end. -/
theorem ShortPayload.panics {buf : Bytes} {entryType : WalEntryType}
    (framed : ShortPayload buf entryType) : decode buf = .halt .panic := by
  obtain ⟨header, magic, checksum, code, whole, short⟩ := framed
  have size : ((buf.drop walHeaderSize).take (statedLength buf)).length = statedLength buf := by
    rw [List.length_take, List.length_drop]
    omega
  unfold statedLength at whole short size
  unfold decode
  rw [if_neg (not_lt.mpr header), if_neg (not_not.mpr magic)]
  dsimp only
  rw [if_neg (not_not.mpr checksum), code, WalEntryType.tryFrom_code, Outcome.ok_bind,
    if_neg (not_lt.mpr whole), size]
  cases entryType <;> simp only [leastPayload] at short ⊢ <;> split_ifs <;> rfl

/-- Decoding bytes ends with a record or an error. -/
def Decodes (buf : Bytes) : Prop := ∀ cause, decode buf ≠ .halt cause

theorem decodes_iff (buf : Bytes) : Decodes buf ↔ ∀ entryType, ¬ShortPayload buf entryType := by
  constructor
  · intro decodes entryType framed
    exact decodes _ framed.panics
  · intro long cause halts
    obtain ⟨entryType, framed⟩ := shortPayload_of_halt halts
    exact long entryType framed

/-- A record is encoded to bytes of its encoded size, and decoding them gives it back. -/
def RoundTrips (entry : WalEntry) : Prop :=
  ∃ bytes, entry.encode = .ok bytes ∧ decode bytes = .ok entry ∧ entry.encodedSize = bytes.length

theorem reread_eq_iff {entry : WalEntry} (logged : entry.Logged) :
    entry.reread = entry ↔ entry.entryType ≠ .extentWrite := by
  cases logged with
  | extentWrite lsn txId firstPageId pageCount totalBytes dataCrc32 =>
      refine iff_of_false (fun same => ?_) fun other => other rfl
      have lengths := congrArg (fun entry : WalEntry => entry.data.length) same
      simp [reread, extentWrite, pageBytes] at lengths
  | pageWrite lsn txId pageId data fits => exact iff_of_true rfl nofun
  | commit lsn txId => exact iff_of_true rfl nofun
  | checkpoint lsn => exact iff_of_true rfl nofun
  | rollback lsn txId => exact iff_of_true rfl nofun

theorem roundTrips_iff {entry : WalEntry} (logged : entry.Logged) :
    entry.RoundTrips ↔ entry.entryType ≠ .extentWrite := by
  rw [← reread_eq_iff logged]
  constructor
  · rintro ⟨bytes, encoded, decoded, -⟩
    cases (encode_logged logged).symm.trans encoded
    exact Outcome.ok.inj ((decode_image logged).symm.trans decoded)
  · intro same
    exact ⟨entry.image, encode_logged logged, by rw [decode_image logged, same],
      (image_length entry).symm⟩

/-- Every record but that of an extent write round trips, and decoding ends with a record or an
error unless the bytes are framed with a payload that is too short for their type. -/
theorem codec_iff {entry : WalEntry} (logged : entry.Logged) (buf : Bytes) :
    (entry.RoundTrips ↔ entry.entryType ≠ .extentWrite) ∧
      (Decodes buf ↔ ∀ entryType, ¬ShortPayload buf entryType) :=
  ⟨roundTrips_iff logged, decodes_iff buf⟩

theorem codec_iff_commit :
    ((WalEntry.commit 7 3).RoundTrips ↔ (WalEntry.commit 7 3).entryType ≠ .extentWrite) ∧
      (Decodes [] ↔ ∀ entryType, ¬ShortPayload [] entryType) :=
  codec_iff (.commit 7 3) []

/-- A commit record whose header states a payload of no bytes. -/
def emptyCommit : Bytes :=
  walMagic ++ toLe 4 (crc32 (toLe 8 1 ++ [2] ++ toLe 4 0)) ++ (toLe 8 1 ++ [2] ++ toLe 4 0)

/-- An extent write comes back with its page id twice, and a commit record without a payload is
read past its end. -/
theorem not_codec :
    ¬(WalEntry.extentWrite 1 1 5 2 300 0).RoundTrips ∧ ¬Decodes emptyCommit := by
  constructor
  · intro roundTrips
    exact (roundTrips_iff (.extentWrite 1 1 5 2 300 0)).mp roundTrips rfl
  · intro decodes
    exact decodes .panic (by decide +kernel)

end WalEntry

end JouleDB.Wal
