import JouleDB.Wal.Entry

/-!
# The metadata file

The allocator state and the committed root are kept in one record: magic, format version, committed
version and root, next page id, the free pages with their number, and a checksum.  A file that does
not start like a record, or is too short for one, is read as the older layout: the next page id and
the free pages.
-/

namespace JouleDB.File

open Wal

/-! ## Definitions -/

/-- The magic number `JDBM`. -/
def metaV1Magic : Bytes := [0x4A, 0x44, 0x42, 0x4D]

/-- The format version that is read and written. -/
def metaV1FormatVersion : Fin (2 ^ 32) := 1

/-- Everything before the free pages. -/
def metaV1HeaderSize : Nat := 36

/-- Size of the checksum. -/
def metaV1CrcSize : Nat := 4

/-- The last commit. -/
structure CommittedMeta where
  formatVersion : Fin (2 ^ 32)
  committedVersion : U64
  committedRoot : U64
  deriving DecidableEq, Repr

/-- What the metadata file holds. -/
structure Metadata where
  committed : Option CommittedMeta
  nextPageId : U64
  freePages : List U64
  deriving DecidableEq, Repr

/-- Eight hexadecimal digits. -/
def hex8 (value : Nat) : String :=
  let digits := Nat.toDigits 16 value
  String.ofList (List.replicate (8 - digits.length) '0' ++ digits)

/-- Several integers one after the other. -/
def readWords : Nat → Bytes → List U64
  | 0, _ => []
  | count + 1, bytes => WalEntry.readU64 bytes :: readWords count (bytes.drop 8)

/-- A 32-bit integer at the start of a byte string. -/
def readU32 (bytes : Bytes) : Fin (2 ^ 32) := Fin.ofNat (2 ^ 32) (ofLe (bytes.take 4))

/-- The record without its checksum.  Without a commit a commit with root 0 is written. -/
def metadataBody (metadata : Metadata) : Bytes :=
  let committed := metadata.committed.getD ⟨metaV1FormatVersion, 0, 0⟩
  metaV1Magic ++ toLe 4 committed.formatVersion.val ++ toLe 8 committed.committedVersion.val ++
    toLe 8 committed.committedRoot.val ++ toLe 8 metadata.nextPageId.val ++
    toLe 4 metadata.freePages.length ++ metadata.freePages.flatMap fun pageId => toLe 8 pageId.val

/-- The bytes that `save_metadata` writes. -/
def saveMetadata (metadata : Metadata) : Bytes :=
  metadataBody metadata ++ toLe 4 (crc32 (metadataBody metadata))

/-- Parse a record of the current layout. -/
def loadMetadataV1 (buf : Bytes) : Outcome StorageError Metadata :=
  let crcOffset := buf.length - metaV1CrcSize
  let storedCrc := ofLe (buf.drop crcOffset)
  let actualCrc := crc32 (buf.take crcOffset)
  if storedCrc ≠ actualCrc then
    .err (.backend
      ("meta.wdb v1 CRC mismatch: stored " ++ hex8 storedCrc ++ " computed " ++ hex8 actualCrc))
  else
    let formatVersion := readU32 (buf.drop 4)
    if formatVersion ≠ metaV1FormatVersion then
      .err (.backend ("meta.wdb v1 unsupported format_version " ++ toString formatVersion.val ++
        ", expected " ++ toString metaV1FormatVersion.val))
    else
      let freePagesCount := (readU32 (buf.drop 32)).val
      let expectedLen := metaV1HeaderSize + freePagesCount * 8 + metaV1CrcSize
      if buf.length ≠ expectedLen then
        .err (.backend ("meta.wdb v1 length mismatch: got " ++ toString buf.length ++ " expected " ++
          toString expectedLen ++ " (free_pages_count=" ++ toString freePagesCount ++ ")"))
      else
        .ok ⟨some ⟨formatVersion, WalEntry.readU64 (buf.drop 8), WalEntry.readU64 (buf.drop 16)⟩,
          WalEntry.readU64 (buf.drop 24), readWords freePagesCount (buf.drop metaV1HeaderSize)⟩

/-- Load the metadata from the bytes of the file. -/
def loadMetadata (buf : Bytes) : Outcome StorageError Metadata :=
  if buf.length < 8 then
    .ok ⟨none, 1, []⟩
  else if metaV1HeaderSize + metaV1CrcSize ≤ buf.length ∧ buf.take 4 = metaV1Magic then
    loadMetadataV1 buf
  else
    .ok ⟨none, WalEntry.readU64 buf, readWords ((buf.length - 8) / 8) (buf.drop 8)⟩

/-! ## Reading words -/

theorem readU64_take {size : Nat} {bytes : Bytes} (inside : 8 ≤ size) :
    WalEntry.readU64 (bytes.take size) = WalEntry.readU64 bytes := by
  rw [WalEntry.readU64, WalEntry.readU64, List.take_take, Nat.min_eq_left inside]

theorem readU32_take {size : Nat} {bytes : Bytes} (inside : 4 ≤ size) :
    readU32 (bytes.take size) = readU32 bytes := by
  rw [readU32, readU32, List.take_take, Nat.min_eq_left inside]

theorem readWords_take {count size : Nat} {bytes : Bytes} (inside : 8 * count ≤ size) :
    readWords count (bytes.take size) = readWords count bytes := by
  induction count generalizing bytes size with
  | zero => rfl
  | succ count ih =>
      have tail : (bytes.take size).drop 8 = (bytes.drop 8).take (size - 8) :=
        List.drop_take
      rw [readWords, readWords, readU64_take (by omega), tail, ih (by omega)]

theorem readWords_append {count : Nat} {words : List U64} (inside : count ≤ words.length)
    (rest : Bytes) :
    readWords count ((words.flatMap fun word => toLe 8 word.val) ++ rest) = words.take count := by
  induction count generalizing words with
  | zero => rfl
  | succ count ih =>
      cases words with
      | nil => cases inside
      | cons word words =>
          rw [List.flatMap_cons, List.append_assoc, readWords, WalEntry.readU64_append,
            List.drop_left' (toLe_length 8 _), ih (Nat.le_of_succ_le_succ inside)]
          rfl

theorem readU32_append (value : Fin (2 ^ 32)) (rest : Bytes) :
    readU32 (toLe 4 value.val ++ rest) = value := by
  have front : (toLe 4 value.val ++ rest).take 4 = toLe 4 value.val :=
    List.take_left' (toLe_length 4 _)
  apply Fin.ext
  rw [readU32, front, ofLe_toLe_of_lt (lt_of_lt_of_eq value.isLt (by norm_num))]
  exact Nat.mod_eq_of_lt value.isLt

/-! ## The fields of a record -/

section

variable (committed : CommittedMeta) (nextPageId : U64) (freePages : List U64)

/-- The bytes of a record. -/
def recordOf : Bytes := saveMetadata ⟨some committed, nextPageId, freePages⟩

/-- The checksum of a record. -/
def checksumOf : Bytes := toLe 4 (crc32 (metadataBody ⟨some committed, nextPageId, freePages⟩))

/-- The free pages of a record and what follows them. -/
def pagesOf : Bytes :=
  (freePages.flatMap fun pageId => toLe 8 pageId.val) ++ checksumOf committed nextPageId freePages

theorem recordOf_eq :
    recordOf committed nextPageId freePages =
      metaV1Magic ++ (toLe 4 committed.formatVersion.val ++
        (toLe 8 committed.committedVersion.val ++ (toLe 8 committed.committedRoot.val ++
          (toLe 8 nextPageId.val ++
            (toLe 4 freePages.length ++ pagesOf committed nextPageId freePages))))) := by
  simp [recordOf, saveMetadata, metadataBody, pagesOf, checksumOf]

theorem recordOf_length :
    (recordOf committed nextPageId freePages).length =
      metaV1HeaderSize + freePages.length * 8 + metaV1CrcSize := by
  simp only [recordOf_eq, pagesOf, checksumOf, metaV1Magic, metaV1HeaderSize, metaV1CrcSize,
    List.length_append, List.length_cons, List.length_nil, toLe_length, List.length_flatMap,
    List.map_const', List.sum_replicate_nat]
  omega

theorem recordOf_take_magic : (recordOf committed nextPageId freePages).take 4 = metaV1Magic := by
  rw [recordOf_eq]
  exact List.take_left' rfl

theorem recordOf_drop_version :
    (recordOf committed nextPageId freePages).drop 4 =
      toLe 4 committed.formatVersion.val ++
        (toLe 8 committed.committedVersion.val ++ (toLe 8 committed.committedRoot.val ++
          (toLe 8 nextPageId.val ++
            (toLe 4 freePages.length ++ pagesOf committed nextPageId freePages)))) := by
  rw [recordOf_eq]
  exact List.drop_left' rfl

theorem recordOf_drop_committed :
    (recordOf committed nextPageId freePages).drop 8 =
      toLe 8 committed.committedVersion.val ++ (toLe 8 committed.committedRoot.val ++
        (toLe 8 nextPageId.val ++
          (toLe 4 freePages.length ++ pagesOf committed nextPageId freePages))) := by
  have split : (recordOf committed nextPageId freePages).drop 8 =
      ((recordOf committed nextPageId freePages).drop 4).drop 4 := by rw [List.drop_drop]
  rw [split, recordOf_drop_version]
  exact List.drop_left' (toLe_length 4 _)

theorem recordOf_drop_root :
    (recordOf committed nextPageId freePages).drop 16 =
      toLe 8 committed.committedRoot.val ++ (toLe 8 nextPageId.val ++
        (toLe 4 freePages.length ++ pagesOf committed nextPageId freePages)) := by
  have split : (recordOf committed nextPageId freePages).drop 16 =
      ((recordOf committed nextPageId freePages).drop 8).drop 8 := by rw [List.drop_drop]
  rw [split, recordOf_drop_committed]
  exact List.drop_left' (toLe_length 8 _)

theorem recordOf_drop_next :
    (recordOf committed nextPageId freePages).drop 24 =
      toLe 8 nextPageId.val ++
        (toLe 4 freePages.length ++ pagesOf committed nextPageId freePages) := by
  have split : (recordOf committed nextPageId freePages).drop 24 =
      ((recordOf committed nextPageId freePages).drop 16).drop 8 := by rw [List.drop_drop]
  rw [split, recordOf_drop_root]
  exact List.drop_left' (toLe_length 8 _)

theorem recordOf_drop_count :
    (recordOf committed nextPageId freePages).drop 32 =
      toLe 4 freePages.length ++ pagesOf committed nextPageId freePages := by
  have split : (recordOf committed nextPageId freePages).drop 32 =
      ((recordOf committed nextPageId freePages).drop 24).drop 8 := by rw [List.drop_drop]
  rw [split, recordOf_drop_next]
  exact List.drop_left' (toLe_length 8 _)

theorem recordOf_drop_pages :
    (recordOf committed nextPageId freePages).drop metaV1HeaderSize =
      pagesOf committed nextPageId freePages := by
  have split : (recordOf committed nextPageId freePages).drop metaV1HeaderSize =
      ((recordOf committed nextPageId freePages).drop 32).drop 4 := by
    rw [List.drop_drop, metaV1HeaderSize]
  rw [split, recordOf_drop_count]
  exact List.drop_left' (toLe_length 4 _)

theorem recordOf_drop_crc :
    (recordOf committed nextPageId freePages).drop
        ((recordOf committed nextPageId freePages).length - metaV1CrcSize) =
      checksumOf committed nextPageId freePages := by
  have body : recordOf committed nextPageId freePages =
      metadataBody ⟨some committed, nextPageId, freePages⟩ ++
        checksumOf committed nextPageId freePages := rfl
  have size : (recordOf committed nextPageId freePages).length - metaV1CrcSize =
      (metadataBody ⟨some committed, nextPageId, freePages⟩).length := by
    rw [body, List.length_append, checksumOf, toLe_length]
    rfl
  rw [size, body]
  exact List.drop_left

theorem recordOf_take_crc :
    (recordOf committed nextPageId freePages).take
        ((recordOf committed nextPageId freePages).length - metaV1CrcSize) =
      metadataBody ⟨some committed, nextPageId, freePages⟩ := by
  have body : recordOf committed nextPageId freePages =
      metadataBody ⟨some committed, nextPageId, freePages⟩ ++
        checksumOf committed nextPageId freePages := rfl
  have size : (recordOf committed nextPageId freePages).length - metaV1CrcSize =
      (metadataBody ⟨some committed, nextPageId, freePages⟩).length := by
    rw [body, List.length_append, checksumOf, toLe_length]
    rfl
  rw [size, body]
  exact List.take_left

/-! ## Loading a record -/

/-- Loading a whole record gives it back if its format version is the one that is read. -/
theorem loadMetadata_recordOf (few : freePages.length < 2 ^ 32) :
    loadMetadata (recordOf committed nextPageId freePages) =
        .ok ⟨some committed, nextPageId, freePages⟩ ↔
      committed.formatVersion = metaV1FormatVersion := by
  have size := recordOf_length committed nextPageId freePages
  have header : metaV1HeaderSize + metaV1CrcSize ≤
      (recordOf committed nextPageId freePages).length := by omega
  have long : ¬(recordOf committed nextPageId freePages).length < 8 := by
    rw [metaV1HeaderSize, metaV1CrcSize] at header
    omega
  have checksum : ofLe (checksumOf committed nextPageId freePages) =
      crc32 (metadataBody ⟨some committed, nextPageId, freePages⟩) :=
    ofLe_toLe_of_lt (crc32_lt _)
  have count : (readU32 (toLe 4 freePages.length ++
      pagesOf committed nextPageId freePages)).val = freePages.length :=
    congrArg Fin.val (readU32_append ⟨freePages.length, few⟩ _)
  have pages : readWords freePages.length (pagesOf committed nextPageId freePages) =
      freePages := by
    rw [pagesOf, readWords_append (le_refl _), List.take_length]
  rw [loadMetadata, if_neg long, if_pos ⟨header, recordOf_take_magic ..⟩, loadMetadataV1]
  dsimp only
  rw [recordOf_drop_crc, recordOf_take_crc, if_neg (not_not.mpr checksum), recordOf_drop_version,
    readU32_append]
  by_cases version : committed.formatVersion = metaV1FormatVersion
  · rw [if_neg (not_not.mpr version), recordOf_drop_count, count, if_neg (not_not.mpr size),
      recordOf_drop_committed, recordOf_drop_root, recordOf_drop_next, recordOf_drop_pages, pages,
      WalEntry.readU64_append, WalEntry.readU64_append, WalEntry.readU64_append]
    exact iff_of_true rfl version
  · rw [if_pos version]
    exact iff_of_false nofun version

/-- A prefix that contains the number of free pages is refused: its length does not fit. -/
theorem loadMetadata_long (few : freePages.length < 2 ^ 32) {size : Nat}
    (cut : size < (recordOf committed nextPageId freePages).length)
    (header : metaV1HeaderSize + metaV1CrcSize ≤ size) (loaded : Metadata) :
    loadMetadata ((recordOf committed nextPageId freePages).take size) ≠ .ok loaded := by
  have length : ((recordOf committed nextPageId freePages).take size).length = size :=
    List.length_take_of_le cut.le
  have magic : ((recordOf committed nextPageId freePages).take size).take 4 = metaV1Magic := by
    rw [List.take_take, Nat.min_eq_left (by simp only [metaV1HeaderSize] at header; omega),
      recordOf_take_magic]
  have count : (readU32 (((recordOf committed nextPageId freePages).take size).drop 32)).val =
      freePages.length := by
    have inside : 4 ≤ size - 32 := by
      simp only [metaV1HeaderSize, metaV1CrcSize] at header
      omega
    rw [List.drop_take, readU32_take inside, recordOf_drop_count]
    exact congrArg Fin.val (readU32_append ⟨freePages.length, few⟩ _)
  have short : size ≠ metaV1HeaderSize + freePages.length * 8 + metaV1CrcSize :=
    fun same => absurd cut (by rw [recordOf_length, ← same]; exact lt_irrefl _)
  have long : ¬size < 8 := by
    simp only [metaV1HeaderSize] at header
    omega
  rw [loadMetadata, length, if_neg long, if_pos ⟨header, magic⟩, loadMetadataV1]
  dsimp only
  rw [length, count]
  split_ifs <;> nofun

/-- The allocator state that the older layout sees in the first bytes of a record. -/
def legacyView (size : Nat) : U64 × List U64 :=
  if size < 8 then (1, [])
  else (WalEntry.readU64 (metaV1Magic ++ toLe 4 committed.formatVersion.val),
    [committed.committedVersion, committed.committedRoot, nextPageId].take (size / 8 - 1))

/-- A prefix that is too short for a record is read as the older layout. -/
theorem loadMetadata_short {size : Nat} (short : size < metaV1HeaderSize + metaV1CrcSize) :
    loadMetadata ((recordOf committed nextPageId freePages).take size) =
      .ok ⟨none, (legacyView committed nextPageId size).1,
        (legacyView committed nextPageId size).2⟩ := by
  have length : ((recordOf committed nextPageId freePages).take size).length = size := by
    apply List.length_take_of_le
    have whole := recordOf_length committed nextPageId freePages
    omega
  rw [loadMetadata, length, legacyView]
  by_cases tiny : size < 8
  · rw [if_pos tiny, if_pos tiny]
  · have next : WalEntry.readU64 ((recordOf committed nextPageId freePages).take size) =
        WalEntry.readU64 (metaV1Magic ++ toLe 4 committed.formatVersion.val) := by
      rw [readU64_take (not_lt.mp tiny), recordOf_eq, ← List.append_assoc,
        ← readU64_take (le_refl 8), List.take_left' (by simp [metaV1Magic])]
    have inside : size / 8 - 1 ≤
        [committed.committedVersion, committed.committedRoot, nextPageId].length := by
      change size / 8 - 1 ≤ 3
      simp only [metaV1HeaderSize, metaV1CrcSize] at short
      omega
    have count : (size - 8) / 8 = size / 8 - 1 := by omega
    have words := recordOf_drop_committed committed nextPageId freePages
    rw [← List.append_assoc, ← List.append_assoc] at words
    have pages : readWords (size / 8 - 1)
        (((recordOf committed nextPageId freePages).take size).drop 8) =
          [committed.committedVersion, committed.committedRoot, nextPageId].take
            (size / 8 - 1) := by
      rw [List.drop_take, readWords_take (by omega), words]
      exact readWords_append inside _
    rw [if_neg tiny, if_neg fun framed => absurd short (not_lt.mpr framed.1), if_neg tiny, next,
      count, pages]

/-- Loading bytes fails or gives the allocator state. -/
def KeepsAllocator (buf : Bytes) : Prop :=
  ∀ loaded, loadMetadata buf = .ok loaded →
    loaded.nextPageId = nextPageId ∧ loaded.freePages = freePages

theorem keepsAllocator_take_iff (few : freePages.length < 2 ^ 32) {size : Nat}
    (cut : size < (recordOf committed nextPageId freePages).length) :
    KeepsAllocator nextPageId freePages ((recordOf committed nextPageId freePages).take size) ↔
      metaV1HeaderSize + metaV1CrcSize ≤ size ∨
        (nextPageId, freePages) = legacyView committed nextPageId size := by
  by_cases header : metaV1HeaderSize + metaV1CrcSize ≤ size
  · refine iff_of_true (fun loaded load => ?_) (.inl header)
    exact absurd load (loadMetadata_long committed nextPageId freePages few cut header loaded)
  · have load := loadMetadata_short committed nextPageId freePages (not_le.mp header)
    constructor
    · intro keeps
      obtain ⟨next, pages⟩ := keeps _ load
      exact .inr (Prod.ext next.symm pages.symm)
    · rintro (long | same) loaded again
      · exact absurd long header
      · cases load.symm.trans again
        exact ⟨(congrArg Prod.fst same).symm, (congrArg Prod.snd same).symm⟩

end

/-- A saved record loads as it was if and only if it has the format version that is read, and a
part of it that is cut off fails to load or keeps the allocator state if and only if it is long
enough for a record, or the older layout sees that state in it. -/
theorem metadata_iff (committed : CommittedMeta) (nextPageId : U64) (freePages : List U64)
    (few : freePages.length < 2 ^ 32) :
    (loadMetadata (saveMetadata ⟨some committed, nextPageId, freePages⟩) =
        .ok ⟨some committed, nextPageId, freePages⟩ ↔
      committed.formatVersion = metaV1FormatVersion) ∧
    ∀ size, 0 < size → size < (saveMetadata ⟨some committed, nextPageId, freePages⟩).length →
      (KeepsAllocator nextPageId freePages
          ((saveMetadata ⟨some committed, nextPageId, freePages⟩).take size) ↔
        metaV1HeaderSize + metaV1CrcSize ≤ size ∨
          (nextPageId, freePages) = legacyView committed nextPageId size) :=
  ⟨loadMetadata_recordOf committed nextPageId freePages few,
    fun _ _ cut => keepsAllocator_take_iff committed nextPageId freePages few cut⟩

theorem metadata_iff_onePage :
    (loadMetadata (saveMetadata ⟨some ⟨1, 7, 3⟩, 9, [4]⟩) = .ok ⟨some ⟨1, 7, 3⟩, 9, [4]⟩ ↔
      (1 : Fin (2 ^ 32)) = metaV1FormatVersion) ∧
    ∀ size, 0 < size → size < (saveMetadata ⟨some ⟨1, 7, 3⟩, 9, [4]⟩).length →
      (KeepsAllocator 9 [4] ((saveMetadata ⟨some ⟨1, 7, 3⟩, 9, [4]⟩).take size) ↔
        metaV1HeaderSize + metaV1CrcSize ≤ size ∨ (9, [4]) = legacyView ⟨1, 7, 3⟩ 9 size) :=
  metadata_iff ⟨1, 7, 3⟩ 9 [4] (by decide)

/-- A record that is cut off after its first eight bytes gives out the magic number as the next
page id, one cut off earlier starts at page 1, and a record with another format version is
saved but not loaded. -/
theorem not_metadata :
    loadMetadata ((saveMetadata ⟨some ⟨1, 7, 3⟩, 9, [4]⟩).take 8) =
        .ok ⟨none, 5591155786, []⟩ ∧
      loadMetadata ((saveMetadata ⟨some ⟨1, 7, 3⟩, 9, [4]⟩).take 7) = .ok ⟨none, 1, []⟩ ∧
      ¬KeepsAllocator 9 [4] ((saveMetadata ⟨some ⟨1, 7, 3⟩, 9, [4]⟩).take 8) ∧
      loadMetadata (saveMetadata ⟨some ⟨2, 7, 3⟩, 9, [4]⟩) =
        .err (.backend "meta.wdb v1 unsupported format_version 2, expected 1") := by
  have cut : loadMetadata ((saveMetadata ⟨some ⟨1, 7, 3⟩, 9, [4]⟩).take 8) =
      .ok ⟨none, 5591155786, []⟩ := by decide +kernel
  refine ⟨cut, by decide +kernel, fun keeps => ?_, by decide +kernel⟩
  exact absurd (keeps _ cut).1 (by decide)

end JouleDB.File
