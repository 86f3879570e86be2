import JouleDB.Lib.AssocList
import JouleDB.Lib.Leb128
import JouleDB.Lib.Walk
import JouleDB.Types.Value

/-!
# The binary form of JSON values

A value is encoded as a tag and what belongs to it.  Integers take the smallest of four widths;
strings, arrays and objects start with a length in base 128.

The decoder trusts these lengths.  What it runs into on arbitrary bytes is told by a walk over the
bytes that builds no value.
-/

namespace JouleDB.Jsonb

open JouleDB.Types (I64 F64 F32 utf8 fromUtf8 fromUtf8_utf8)

/-- A value of a query.  The entries of an object are listed in the order of its iteration. -/
inductive Value where
  | null
  | bool (value : Bool)
  | int (value : I64)
  | float (value : F64)
  | string (value : String)
  | bytes (value : Bytes)
  | array (items : List Value)
  | object (entries : List (String × Value))
  | timestamp (value : I64)
  | uuid (value : String)
  | vector (values : List F32)

/-- What stands before a value. -/
inductive JsonbTag where
  | null
  | false
  | true
  | int8
  | int16
  | int32
  | int64
  | float64
  | string
  | array
  | object
  deriving DecidableEq

namespace JsonbTag

def toByte : JsonbTag → Byte
  | .null => 0x00
  | .false => 0x01
  | .true => 0x02
  | .int8 => 0x10
  | .int16 => 0x11
  | .int32 => 0x12
  | .int64 => 0x13
  | .float64 => 0x20
  | .string => 0x30
  | .array => 0x40
  | .object => 0x50

def tryFrom (value : Byte) : Option JsonbTag :=
  match value.val with
  | 0x00 => some .null
  | 0x01 => some .false
  | 0x02 => some .true
  | 0x10 => some .int8
  | 0x11 => some .int16
  | 0x12 => some .int32
  | 0x13 => some .int64
  | 0x20 => some .float64
  | 0x30 => some .string
  | 0x40 => some .array
  | 0x50 => some .object
  | _ => none

@[simp] theorem tryFrom_toByte (tag : JsonbTag) : tryFrom tag.toByte = some tag := by
  cases tag <;> rfl

end JsonbTag

/-- Errors of the decoder. -/
inductive JsonbError where
  | invalidTag (tag : Byte)
  | unexpectedEof
  | invalidUtf8
  deriving DecidableEq

/-- What a process has room for: nested calls, and elements of one array or object. -/
structure Limits where
  frames : Nat
  items : Nat
  entries : Nat

/-! ## Encoding -/

def encodeVarint (n : Nat) : Bytes := Leb128.encode n

/-- Encode an integer in the smallest width that it fits into. -/
def encodeInt (i : I64) : Bytes :=
  if -2 ^ 7 ≤ i.toInt ∧ i.toInt ≤ 2 ^ 7 - 1 then
    JsonbTag.int8.toByte :: toLe 1 i.toNat
  else if -2 ^ 15 ≤ i.toInt ∧ i.toInt ≤ 2 ^ 15 - 1 then
    JsonbTag.int16.toByte :: toLe 2 i.toNat
  else if -2 ^ 31 ≤ i.toInt ∧ i.toInt ≤ 2 ^ 31 - 1 then
    JsonbTag.int32.toByte :: toLe 4 i.toNat
  else
    JsonbTag.int64.toByte :: toLe 8 i.toNat

def encodeFloat (value : F64) : Bytes := JsonbTag.float64.toByte :: toLe 8 value.toNat

def encodeString (text : String) : Bytes :=
  JsonbTag.string.toByte :: (encodeVarint (utf8 text).length ++ utf8 text)

section Encode

-- The conversion of floating-point numbers to twice their width.
variable (widen : F32 → F64)

mutual

/-- Encode a value. -/
def encodeValue : Value → Bytes
  | .null => [JsonbTag.null.toByte]
  | .bool false => [JsonbTag.false.toByte]
  | .bool true => [JsonbTag.true.toByte]
  | .int i => encodeInt i
  | .float f => encodeFloat f
  | .string s => encodeString s
  | .array items => JsonbTag.array.toByte :: (encodeVarint items.length ++ encodeItems items)
  | .object entries =>
      JsonbTag.object.toByte :: (encodeVarint entries.length ++ encodeEntries entries)
  -- Bytes are written like a string.
  | .bytes b => JsonbTag.string.toByte :: (encodeVarint b.length ++ b)
  | .timestamp ts => encodeInt ts
  | .uuid s => encodeString s
  | .vector values =>
      JsonbTag.array.toByte ::
        (encodeVarint values.length ++ values.flatMap fun f => encodeFloat (widen f))

def encodeItems : List Value → Bytes
  | [] => []
  | item :: items => encodeValue item ++ encodeItems items

def encodeEntries : List (String × Value) → Bytes
  | [] => []
  | (key, value) :: entries => encodeString key ++ encodeValue value ++ encodeEntries entries

end

def fromValue (value : Value) : Bytes := encodeValue widen value

end Encode

/-! ## Decoding -/

open Decoder

/-- Read a length.  The bits of an eleventh byte would be shifted by 70 places. -/
def decodeVarint : Decoder JsonbError Nat :=
  Leb128.read .unexpectedEof (byte .unexpectedEof >>= fun _ => stop .panic) 10 0 0

/-- Read a length and a string of that length. -/
def decodeText : Decoder JsonbError String := do
  let text ← Leb128.prefixed .unexpectedEof (byte .unexpectedEof >>= fun _ => stop .panic)
  match fromUtf8 text with
  | some text => pure text
  | none => fail .invalidUtf8

/-- Read an integer of some bytes. -/
def decodeInt (width : Nat) : Decoder JsonbError Value := do
  let bytes ← read (fun _ => .unexpectedEof) width
  pure (.int ((BitVec.ofNat (8 * width) (ofLe bytes)).signExtend 64))

/-- Ask for room for so many elements. -/
def withCapacity (room len : Nat) : Decoder JsonbError Unit :=
  if room < len then stop .crash else pure ()

/-- Read a key, which stands after the tag of a string. -/
def decodeKey : Decoder JsonbError String := fun bytes => do
  let cursor ← Exec.get
  match bytes[cursor]? with
  | none => Exec.fail (.invalidTag 0)
  | some tag =>
      if tag ≠ JsonbTag.string.toByte then
        Exec.fail (.invalidTag tag)
      else
        Exec.modify (· + 1)
        decodeText bytes

/-- Decode what belongs to a tag, with a decoder of the values in it. -/
def decodeTagged (limits : Limits) (value : Decoder JsonbError Value) :
    JsonbTag → Decoder JsonbError Value
  | .null => pure .null
  | .false => pure (.bool false)
  | .true => pure (.bool true)
  | .int8 => decodeInt 1
  | .int16 => decodeInt 2
  | .int32 => decodeInt 4
  | .int64 => decodeInt 8
  | .float64 => do
      let bytes ← read (fun _ => .unexpectedEof) 8
      pure (.float (BitVec.ofNat 64 (ofLe bytes)))
  | .string => do
      let s ← decodeText
      pure (.string s)
  | .array => do
      let len ← decodeVarint
      withCapacity limits.items len
      let items ← times value len
      pure (.array items)
  | .object => do
      let len ← decodeVarint
      withCapacity limits.entries len
      let entries ← times (do
        let key ← decodeKey
        let val ← value
        pure (key, val)) len
      pure (.object (upsertAll [] entries))

/-- Decode a value with room for so many nested calls. -/
def decodeValue (limits : Limits) : Nat → Decoder JsonbError Value
  | 0 => stop .crash
  | frames + 1 => do
      let tag ← byte .unexpectedEof
      match JsonbTag.tryFrom tag with
      | some tag => decodeTagged limits (decodeValue limits frames) tag
      | none => fail (.invalidTag tag)

def toValue (limits : Limits) (data : Bytes) : Outcome JsonbError Value :=
  (decodeValue limits limits.frames data 0).outcome

/-! ## Reading back -/

section ReadBack

/-- A value that stands for JSON: null, a truth value, a number, a string, or made of such values
with distinct keys. -/
inductive Plain : Value → Prop
  | null : Plain .null
  | bool (value : Bool) : Plain (.bool value)
  | int (value : I64) : Plain (.int value)
  | float (value : F64) : Plain (.float value)
  | string (value : String) : Plain (.string value)
  | array {items : List Value} (plain : ∀ item ∈ items, Plain item) : Plain (.array items)
  | object {entries : List (String × Value)} (distinct : (entries.map Prod.fst).Nodup)
      (plain : ∀ entry ∈ entries, Plain entry.2) : Plain (.object entries)

/-- The process has room to read the value back. -/
def Fits (limits : Limits) : Nat → Value → Prop
  | 0, _ => False
  | frames + 1, .array items =>
      items.length ≤ limits.items ∧ ∀ item ∈ items, Fits limits frames item
  | frames + 1, .object entries =>
      entries.length ≤ limits.entries ∧ ∀ entry ∈ entries, Fits limits frames entry.2
  | _ + 1, _ => True

variable (widen : F32 → F64)

theorem encodeItems_eq (items : List Value) :
    encodeItems widen items = items.flatMap (encodeValue widen) := by
  induction items with
  | nil => rfl
  | cons item items ih => rw [encodeItems, ih, List.flatMap_cons]

def entryBytes (entry : String × Value) : Bytes := encodeString entry.1 ++ encodeValue widen entry.2

theorem encodeEntries_eq (entries : List (String × Value)) :
    encodeEntries widen entries = entries.flatMap (entryBytes widen) := by
  induction entries with
  | nil => rfl
  | cons entry entries ih => rw [encodeEntries, ih, List.flatMap_cons, entryBytes]

theorem encodeInt_pos (i : I64) : 0 < (encodeInt i).length := by
  unfold encodeInt
  split_ifs <;> exact Nat.succ_pos _

theorem encodeValue_pos (value : Value) : 0 < (encodeValue widen value).length := by
  cases value with
  | bool value => cases value <;> exact Nat.succ_pos _
  | int i => exact encodeInt_pos i
  | timestamp ts => exact encodeInt_pos ts
  | _ => exact Nat.succ_pos _

theorem length_le_flatMap {α : Type} {encode : α → Bytes} {values : List α}
    (pos : ∀ value, 0 < (encode value).length) :
    values.length ≤ (values.flatMap encode).length := by
  induction values with
  | nil => exact le_rfl
  | cons value values ih =>
      rw [List.length_cons, List.flatMap_cons, List.length_append, Nat.add_comm]
      exact Nat.add_le_add (pos value) ih

theorem encodeVarint_parses {len : Nat} (short : len < 2 ^ 64) :
    decodeVarint.Parses (encodeVarint len) len :=
  Leb128.read_parses short

theorem withCapacity_parses (room len : Nat) :
    (withCapacity room len).ParsesIff (len ≤ room) [] () := by
  intro front back _
  unfold withCapacity
  split
  next less => exact ⟨fun kept => absurd kept (not_le.mpr less), fun _ => ⟨.crash, rfl⟩⟩
  next enough => exact ⟨fun _ => rfl, fun broken => absurd (not_lt.mp enough) broken⟩

theorem decodeText_parses (text : String) :
    decodeText.ParsesIff True (encodeVarint (utf8 text).length ++ utf8 text) text := by
  refine (Leb128.prefixed_parses (utf8 text)).bind_pure ?_
  rw [fromUtf8_utf8]
  exact Parses.pure text

theorem decodeKey_eq (bytes : Bytes) (cursor : Nat) :
    decodeKey bytes cursor = match bytes[cursor]? with
      | none => ⟨.err (.invalidTag 0), cursor, []⟩
      | some tag =>
          if tag ≠ JsonbTag.string.toByte then ⟨.err (.invalidTag tag), cursor, []⟩
          else decodeText bytes (cursor + 1) := by
  unfold decodeKey
  rw [Exec.get_bind]
  cases bytes[cursor]? with
  | none => rfl
  | some tag =>
      dsimp only
      split <;> rfl

theorem decodeKey_parses (key : String) : decodeKey.ParsesIff True (encodeString key) key := by
  intro front back small
  have again : front ++ encodeString key ++ back = front ++ [JsonbTag.string.toByte] ++
      (encodeVarint (utf8 key).length ++ utf8 key) ++ back := by
    simp [encodeString]
  have rest := decodeText_parses key (front ++ [JsonbTag.string.toByte]) back (again ▸ small)
  rw [← again, List.length_append, List.length_singleton] at rest
  have tag : (front ++ encodeString key ++ back)[front.length]? = some JsonbTag.string.toByte := by
    rw [again]
    simp
  refine ⟨fun _ => ?_, fun broken => absurd trivial broken⟩
  rw [decodeKey_eq, tag]
  dsimp only
  rw [if_neg (not_not.mpr rfl), rest.1 trivial, encodeString, List.length_cons]
  congr 1
  omega

/-- An integer is read back from its lowest bytes when these determine it. -/
theorem decodeInt_parses {width : Nat} {i : I64} (narrow : 0 < width) (wide : width ≤ 8)
    (low : -2 ^ (8 * width - 1) ≤ i.toInt) (high : i.toInt ≤ 2 ^ (8 * width - 1) - 1) :
    (decodeInt width).Parses (toLe width i.toNat) (.int i) := by
  have bytes := read_parses (fun _ => JsonbError.unexpectedEof) (toLe width i.toNat)
  rw [toLe_length] at bytes
  refine bytes.bind_pure ?_
  have back : (BitVec.ofNat (8 * width) (ofLe (toLe width i.toNat))).signExtend 64 = i := by
    have cut : BitVec.ofNat (8 * width) (ofLe (toLe width i.toNat)) = i.setWidth (8 * width) := by
      apply BitVec.eq_of_toNat_eq
      rw [ofLe_toLe, BitVec.toNat_ofNat, BitVec.toNat_setWidth, Nat.pow_mul]
      exact Nat.mod_mod _ _
    have half : 2 ^ (8 * width) = 2 * 2 ^ (8 * width - 1) := by
      rw [← Nat.pow_succ', Nat.succ_eq_add_one, Nat.sub_add_cancel (by omega)]
    have divides : 2 ^ (8 * width) ∣ 2 ^ 64 := Nat.pow_dvd_pow 2 (by omega)
    apply BitVec.eq_of_toInt_eq
    rw [cut, BitVec.toInt_signExtend_of_le (by omega), BitVec.toInt_setWidth,
      ← Int.bmod_bmod_of_dvd divides, ← BitVec.toInt_eq_toNat_bmod, half]
    apply Int.bmod_eq_of_le
    · push_cast
      omega
    · push_cast
      omega
  rw [back]
  exact Parses.pure _

/-- A value is read back if what belongs to its tag is. -/
theorem decodeValue_parses {limits : Limits} {frames : Nat} {kept : Prop} {tag : JsonbTag}
    {code : Bytes} {value : Value}
    (parses : (decodeTagged limits (decodeValue limits frames) tag).ParsesIff kept code value) :
    (decodeValue limits (frames + 1)).ParsesIff kept (tag.toByte :: code) value := by
  refine ((byte_parses _ tag.toByte).parsesIn.bind ?_).congr (and_iff_right trivial)
  rw [JsonbTag.tryFrom_toByte]
  exact parses

theorem encodeInt_parses (limits : Limits) (frames : Nat) (i : I64) :
    (decodeValue limits (frames + 1)).ParsesIff True (encodeInt i) (.int i) := by
  have low := BitVec.le_two_mul_toInt (x := i)
  have high := BitVec.two_mul_toInt_lt (x := i)
  unfold encodeInt
  split
  next fits =>
    exact @decodeValue_parses _ _ _ .int8 _ _
      (decodeInt_parses (by decide) (by decide) fits.1 fits.2).parsesIn
  next =>
    split
    next fits =>
      exact @decodeValue_parses _ _ _ .int16 _ _
        (decodeInt_parses (by decide) (by decide) fits.1 fits.2).parsesIn
    next =>
      split
      next fits =>
        exact @decodeValue_parses _ _ _ .int32 _ _
          (decodeInt_parses (by decide) (by decide) fits.1 fits.2).parsesIn
      next =>
        exact @decodeValue_parses _ _ _ .int64 _ _
          (decodeInt_parses (by decide) (by decide) (by omega) (by omega)).parsesIn

theorem encodeFloat_parses (limits : Limits) (frames : Nat) (f : F64) :
    (decodeValue limits (frames + 1)).ParsesIff True (encodeFloat f) (.float f) := by
  refine @decodeValue_parses _ _ _ .float64 _ _ ?_
  have bytes := read_parses (fun _ => JsonbError.unexpectedEof) (toLe 8 f.toNat)
  rw [toLe_length] at bytes
  refine bytes.parsesIn.bind_pure ?_
  rw [ofLe_toLe_of_lt f.isLt, BitVec.ofNat_toNat, BitVec.setWidth_eq]
  exact Parses.pure _

/-- A value is read back wherever it stands if the process has room for it, and else it stops. -/
theorem encodeValue_parses (limits : Limits) (frames : Nat) {value : Value} (plain : Plain value) :
    (decodeValue limits frames).ParsesIff (Fits limits frames value) (encodeValue widen value)
      value := by
  induction frames generalizing value with
  | zero => exact fun front back _ => ⟨fun kept => kept.elim, fun _ => ⟨.crash, rfl⟩⟩
  | succ frames ih =>
      cases plain with
      | null => exact @decodeValue_parses _ _ _ .null _ _ (Parses.pure _).parsesIn
      | bool value =>
          cases value with
          | false => exact @decodeValue_parses _ _ _ .false _ _ (Parses.pure _).parsesIn
          | true => exact @decodeValue_parses _ _ _ .true _ _ (Parses.pure _).parsesIn
      | int i => exact encodeInt_parses limits frames i
      | float f => exact encodeFloat_parses limits frames f
      | string s =>
          exact @decodeValue_parses _ _ _ .string _ _
            ((decodeText_parses s).bind_pure (Parses.pure _))
      | @array items plain =>
          refine ParsesIff.of_short fun short => ?_
          rw [encodeValue, encodeItems_eq] at short ⊢
          have few : items.length ≤ (items.flatMap (encodeValue widen)).length :=
            length_le_flatMap (encodeValue_pos widen)
          rw [List.length_cons, List.length_append] at short
          have reads : (times (decodeValue limits frames) items.length).ParsesIff
              (∀ item ∈ items, Fits limits frames item) (items.flatMap (encodeValue widen)) items :=
            times_parsesIn fun item member => ih (plain item member)
          refine @decodeValue_parses _ _ _ .array _ _ ?_
          refine ((encodeVarint_parses (by omega)).parsesIn.bind
            ((withCapacity_parses limits.items items.length).bind
              (reads.bind_pure (Parses.pure (Value.array items))))).congr ?_
          exact and_iff_right trivial
      | @object entries distinct plain =>
          refine ParsesIff.of_short fun short => ?_
          rw [encodeValue, encodeEntries_eq] at short ⊢
          have pos : ∀ entry, 0 < (entryBytes widen entry).length := fun entry => by
            rw [entryBytes, List.length_append]
            exact Nat.add_pos_left (Nat.succ_pos _) _
          have few : entries.length ≤ (entries.flatMap (entryBytes widen)).length :=
            length_le_flatMap pos
          rw [List.length_cons, List.length_append] at short
          have reads : (times (do
              let key ← decodeKey
              let val ← decodeValue limits frames
              pure (key, val)) entries.length).ParsesIff
              (∀ entry ∈ entries, Fits limits frames entry.2) (entries.flatMap (entryBytes widen))
              entries :=
            times_parsesIn fun entry member =>
              ((decodeKey_parses entry.1).bind ((ih (plain entry member)).bind_pure
                (Parses.pure entry))).congr (and_iff_right trivial)
          refine @decodeValue_parses _ _ _ .object _ _ ?_
          refine ((encodeVarint_parses (by omega)).parsesIn.bind
            ((withCapacity_parses limits.entries entries.length).bind
              (reads.bind_pure ?_))).congr ?_
          · rw [upsertAll_of_nodup (by rwa [List.nil_append]), List.nil_append]
            exact Parses.pure _
          · exact and_iff_right trivial

end ReadBack

/-! ## Reading anything -/

/-- What is still to be read: a value, with room for so many nested calls, or a key. -/
inductive Pending where
  | value (frames : Nat)
  | key
  deriving DecidableEq

abbrev Position := JouleDB.Position Pending

/-- More than ten bytes belong to a length. -/
def TooLong (rest : Bytes) : Prop := Leb128.Continues 10 rest ∧ 10 < rest.length

/-- The length of a text cannot be added to the place where it stands. -/
def BadText (size : Nat) (rest : Bytes) : Prop := TooLong rest ∨ Leb128.Overflows size rest

/-- There is no room for as many elements as are announced. -/
def BadCount (room : Nat) (rest : Bytes) : Prop :=
  TooLong rest ∨ match Leb128.number rest with
    | none => False
    | some (len, _) => room < len % 2 ^ 64

namespace Position

/-- Pass over some bytes. -/
def skip (count : Nat) (pending : List Pending) (rest : Bytes) : Option Position :=
  if count ≤ rest.length then some ⟨pending, rest.drop count⟩ else none

/-- Pass over a text after its length. -/
def text (pending : List Pending) (rest : Bytes) : Option Position :=
  (Leb128.field rest).bind fun (code, after) =>
    if (fromUtf8 code).isSome then some ⟨pending, after⟩ else none

/-- Pass over a count, and have its elements to read. -/
def elements (todo pending : List Pending) (rest : Bytes) : Option Position :=
  (Leb128.number rest).map fun (len, after) =>
    ⟨(List.replicate (len % 2 ^ 64) todo).flatten ++ pending, after⟩

/-- The next position after a tag. -/
def tagged (frames : Nat) (pending : List Pending) (rest : Bytes) : JsonbTag → Option Position
  | .null => some ⟨pending, rest⟩
  | .false => some ⟨pending, rest⟩
  | .true => some ⟨pending, rest⟩
  | .int8 => skip 1 pending rest
  | .int16 => skip 2 pending rest
  | .int32 => skip 4 pending rest
  | .int64 => skip 8 pending rest
  | .float64 => skip 8 pending rest
  | .string => text pending rest
  | .array => elements [.value frames] pending rest
  | .object => elements [.key, .value frames] pending rest

/-- The next position. -/
def next : Position → Option Position
  | ⟨.key :: pending, tag :: rest⟩ =>
      if tag = JsonbTag.string.toByte then text pending rest else none
  | ⟨.value (frames + 1) :: pending, tag :: rest⟩ =>
      match JsonbTag.tryFrom tag with
      | none => none
      | some tag => tagged frames pending rest tag
  | _ => none

/-- What stands after a tag stops the process. -/
def BadTagged (limits : Limits) (size : Nat) (rest : Bytes) : JsonbTag → Prop
  | .string => BadText size rest
  | .array => BadCount limits.items rest
  | .object => BadCount limits.entries rest
  | _ => False

/-- What stands here stops the process that decodes so many bytes. -/
def Bad (limits : Limits) (size : Nat) : Position → Prop
  | ⟨.value 0 :: _, _⟩ => True
  | ⟨.key :: _, tag :: rest⟩ => tag = JsonbTag.string.toByte ∧ BadText size rest
  | ⟨.value (_ + 1) :: _, tag :: rest⟩ =>
      match JsonbTag.tryFrom tag with
      | none => False
      | some tag => BadTagged limits size rest tag
  | _ => False

end Position

/-- The walk over so many bytes. -/
def walk (limits : Limits) (size : Nat) : Walk Pending where
  next := Position.next
  Bad := Position.Bad limits size

/-- Reading the value at the front of some bytes leads to a length or a depth that nothing has room
for. -/
def ReachesBad (limits : Limits) (data : Bytes) : Prop :=
  (walk limits data.length).ReachesBad ⟨[.value limits.frames], data⟩

section Follow

open Jsonb.Position Walk

variable {α β : Type} {limits : Limits} {bytes : Bytes}

/-- After ten bytes that say that another one follows, the process stops at the next one. -/
theorem long_eq (cursor : Nat) :
    (byte .unexpectedEof >>= fun _ => stop .panic : Decoder JsonbError Nat) bytes cursor =
      if cursor < bytes.length then ⟨.halt .panic, cursor + 1, []⟩
      else ⟨.err .unexpectedEof, cursor, []⟩ := by
  split
  next room => rw [bind_ok (byte_eq room)]; rfl
  next gone => exact bind_err (byte_eq_err (not_lt.mp gone))

section Parts

variable {start : Position} {pending : List Pending} {cursor : Nat}

/-- Some bytes are passed over by their decoder. -/
theorem read_follows {next : Bytes → α} {count : Nat} (within : cursor ≤ bytes.length)
    (good : ¬ (walk limits bytes.length).Bad start)
    (moves : (walk limits bytes.length).next start = skip count pending (bytes.drop cursor)) :
    (walk limits bytes.length).Follows bytes start pending
      (read (fun _ => JsonbError.unexpectedEof) count >>= fun bytes => pure (next bytes))
      cursor := by
  unfold skip at moves
  rw [List.length_drop] at moves
  split at moves
  next room =>
    rw [List.drop_drop] at moves
    have fits : cursor + count ≤ bytes.length := by omega
    refine Follows.of_ok (read_eq fits) ?_
    exact (Follows.pure fits _).head ⟨good, moves⟩
  next short =>
    exact Follows.of_err (bind_err (read_eq_err (by omega) within)) ⟨good, moves⟩

theorem decodeText_follows (within : cursor ≤ bytes.length)
    (bad : (walk limits bytes.length).Bad start ↔ BadText bytes.length (bytes.drop cursor))
    (moves : (walk limits bytes.length).next start = text pending (bytes.drop cursor)) :
    (walk limits bytes.length).Follows bytes start pending decodeText cursor := by
  unfold text Leb128.field at moves
  by_cases continues : Leb128.Continues 10 (bytes.drop cursor)
  · have long := @Leb128.prefixed_long _ JsonbError.unexpectedEof
      (byte .unexpectedEof >>= fun _ => stop .panic) _ _ continues
    have ends := @long_eq bytes (cursor + 10)
    by_cases room : cursor + 10 < bytes.length
    · rw [if_pos room] at ends
      have halts : (decodeText bytes cursor).outcome = .halt .panic :=
        bind_halt (by rw [long]; exact bind_halt (by rw [ends]))
      refine Follows.of_halt halts (bad.mpr (.inl ⟨continues, ?_⟩))
      rw [List.length_drop]
      omega
    · rw [if_neg room] at ends
      have fails : decodeText bytes cursor = ⟨.err .unexpectedEof, cursor + 10, []⟩ :=
        bind_err (by rw [long, bind_err ends])
      have short : (bytes.drop cursor).length ≤ 10 := by
        rw [List.length_drop]
        omega
      have none := Leb128.number_eq_none continues short
      refine Follows.of_err fails ⟨fun isBad => ?_, by rw [moves, none]; rfl⟩
      rcases bad.mp isBad with long | overflows
      · exact absurd long.2 (not_lt.mpr short)
      · rw [Leb128.Overflows, none] at overflows
        exact overflows
  · by_cases overflows : Leb128.Overflows bytes.length (bytes.drop cursor)
    · exact Follows.of_halt (bind_halt (Leb128.prefixed_overflows overflows))
        (bad.mpr (.inr overflows))
    · have good : ¬ (walk limits bytes.length).Bad start := fun isBad =>
        (bad.mp isBad).elim (fun long => continues long.1) overflows
      have ends := @Leb128.prefixed_eq _ JsonbError.unexpectedEof
        (byte .unexpectedEof >>= fun _ => stop .panic) _ _ within continues overflows
      unfold Leb128.field at ends
      split at ends
      next code rest found =>
        rw [found, Option.bind_some] at moves
        obtain ⟨ends, -, after⟩ := ends
        refine Follows.of_ok ends ?_
        dsimp only at moves
        cases valid : fromUtf8 code with
        | none =>
            rw [valid] at moves
            exact Follows.of_err rfl ⟨good, moves⟩
        | some text =>
            rw [valid, Option.isSome_some, if_pos rfl, after] at moves
            exact (Follows.pure (by omega) text).head ⟨good, moves⟩
      next none =>
        obtain ⟨final, ends⟩ := ends
        refine Follows.of_err (bind_err ends) ⟨good, ?_⟩
        rw [moves, none]
        rfl

theorem counted_follows {room : Nat} {todo : List Pending} {decoder : Decoder JsonbError α}
    {next : List α → β} (reads : (walk limits bytes.length).Reads bytes todo decoder)
    (within : cursor ≤ bytes.length)
    (bad : (walk limits bytes.length).Bad start ↔ BadCount room (bytes.drop cursor))
    (moves : (walk limits bytes.length).next start = elements todo pending (bytes.drop cursor)) :
    (walk limits bytes.length).Follows bytes start pending (do
      let len ← decodeVarint
      withCapacity room len
      let values ← times decoder len
      pure (next values)) cursor := by
  unfold elements at moves
  by_cases continues : Leb128.Continues 10 (bytes.drop cursor)
  · have long : decodeVarint bytes cursor = _ := Leb128.read_long continues
    rw [long_eq] at long
    by_cases room : cursor + 10 < bytes.length
    · rw [if_pos room] at long
      refine Follows.of_halt (bind_halt (by rw [long])) (bad.mpr (.inl ⟨continues, ?_⟩))
      rw [List.length_drop]
      omega
    · rw [if_neg room] at long
      have short : (bytes.drop cursor).length ≤ 10 := by
        rw [List.length_drop]
        omega
      have none := Leb128.number_eq_none continues short
      refine Follows.of_err (bind_err long) ⟨fun isBad => ?_, by rw [moves, none]; rfl⟩
      rcases bad.mp isBad with long | many
      · exact absurd long.2 (not_lt.mpr short)
      · rw [none] at many
        exact many
  · have bad : (walk limits bytes.length).Bad start ↔ _ :=
      bad.trans (or_iff_right fun long => continues long.1)
    cases found : Leb128.number (bytes.drop cursor) with
    | none =>
        rw [found] at bad moves
        exact Follows.of_err (bind_err (Leb128.read_eof within continues found)) ⟨bad.mp, moves⟩
    | some both =>
        obtain ⟨len, rest⟩ := both
        rw [found] at bad moves
        obtain ⟨shorter, after⟩ := Leb128.length_of_number found
        rw [List.drop_drop, List.length_drop] at after
        rw [List.length_drop] at shorter
        have place : cursor + (bytes.length - cursor - rest.length) =
            bytes.length - rest.length := by omega
        rw [place] at after
        have ends : decodeVarint bytes cursor = _ :=
          Leb128.read_eq continues found (by decide) (Nat.two_pow_pos 0)
        rw [Nat.zero_add, Nat.pow_zero, Nat.mul_one] at ends
        refine Follows.of_ok ends ?_
        unfold withCapacity
        split
        next many => exact Follows.of_halt rfl (bad.mpr many)
        next few =>
          rw [Option.map_some, after] at moves
          refine Follows.head ⟨few ∘ bad.mp, moves⟩ ?_
          exact (reads.times _ _ (by omega) pending).bind fun values final within =>
            Follows.pure within _

end Parts

theorem decodeKey_reads : (walk limits bytes.length).Reads bytes [.key] decodeKey := by
  intro cursor within pending
  by_cases room : cursor < bytes.length
  · rw [List.drop_eq_getElem_cons room]
    by_cases tag : bytes[cursor] = JsonbTag.string.toByte
    · have bad : (walk limits bytes.length).Bad
          ⟨[.key] ++ pending, bytes[cursor] :: bytes.drop (cursor + 1)⟩ ↔
            BadText bytes.length (bytes.drop (cursor + 1)) := and_iff_right tag
      have follows := @decodeText_follows limits bytes _ _ (cursor + 1) room bad (if_pos tag)
      have same : decodeKey bytes cursor = decodeText bytes (cursor + 1) := by
        rw [decodeKey_eq, List.getElem?_eq_getElem room]
        exact if_neg (not_not.mpr tag)
      unfold Follows Exec.Runs at follows ⊢
      rwa [same]
    · have ends : decodeKey bytes cursor = ⟨.err (.invalidTag bytes[cursor]), cursor, []⟩ := by
        rw [decodeKey_eq, List.getElem?_eq_getElem room]
        exact if_pos tag
      exact Follows.of_err ends ⟨fun isBad => tag isBad.1, if_neg tag⟩
  · rw [List.drop_of_length_le (not_lt.mp room)]
    have ends : decodeKey bytes cursor = ⟨.err (.invalidTag 0), cursor, []⟩ := by
      rw [decodeKey_eq, List.getElem?_eq_none (not_lt.mp room)]
    exact Follows.of_err ends ⟨id, rfl⟩

/-- What belongs to a tag is decoded as it is passed over. -/
theorem decodeTagged_follows {frames : Nat} {start : Position} {pending : List Pending}
    {cursor : Nat}
    (reads : (walk limits bytes.length).Reads bytes [.value frames] (decodeValue limits frames))
    (within : cursor ≤ bytes.length) (tag : JsonbTag)
    (bad : (walk limits bytes.length).Bad start ↔
      BadTagged limits bytes.length (bytes.drop cursor) tag)
    (moves : (walk limits bytes.length).next start =
      tagged frames pending (bytes.drop cursor) tag) :
    (walk limits bytes.length).Follows bytes start pending
      (decodeTagged limits (decodeValue limits frames) tag)
      cursor := by
  cases tag with
  | null => exact (Follows.pure within _).head ⟨bad.mp, moves⟩
  | false => exact (Follows.pure within _).head ⟨bad.mp, moves⟩
  | true => exact (Follows.pure within _).head ⟨bad.mp, moves⟩
  | int8 => exact read_follows within bad.mp moves
  | int16 => exact read_follows within bad.mp moves
  | int32 => exact read_follows within bad.mp moves
  | int64 => exact read_follows within bad.mp moves
  | float64 => exact read_follows within bad.mp moves
  | string =>
      refine (decodeText_follows within bad moves).bind fun text middle within => ?_
      exact Follows.pure within _
  | array => exact counted_follows reads within bad moves
  | object =>
      have entry : (walk limits bytes.length).Reads bytes [.key, .value frames] (do
          let key ← decodeKey
          let val ← decodeValue limits frames
          pure (key, val)) := by
        intro cursor within pending
        refine (decodeKey_reads cursor within _).bind fun key middle within => ?_
        exact (reads middle within pending).bind fun val final within => Follows.pure within _
      exact counted_follows entry within bad moves

theorem decodeValue_reads (frames : Nat) :
    (walk limits bytes.length).Reads bytes [.value frames] (decodeValue limits frames) := by
  induction frames with
  | zero => exact fun cursor _ pending => Follows.of_halt rfl trivial
  | succ frames ih =>
      intro cursor within pending
      by_cases room : cursor < bytes.length
      · rw [List.drop_eq_getElem_cons room]
        refine Follows.of_ok (byte_eq room) ?_
        have bad : ∀ found, JsonbTag.tryFrom bytes[cursor] = some found →
            ((walk limits bytes.length).Bad
              ⟨[.value (frames + 1)] ++ pending, bytes[cursor] :: bytes.drop (cursor + 1)⟩ ↔
                BadTagged limits bytes.length (bytes.drop (cursor + 1)) found) := by
          intro found known
          change (match JsonbTag.tryFrom bytes[cursor] with
            | none => False
            | some tag => BadTagged limits bytes.length (bytes.drop (cursor + 1)) tag) ↔ _
          rw [known]
        have moves : ∀ found, JsonbTag.tryFrom bytes[cursor] = found →
            (walk limits bytes.length).next
              ⟨[.value (frames + 1)] ++ pending, bytes[cursor] :: bytes.drop (cursor + 1)⟩ =
                found.bind (tagged frames pending (bytes.drop (cursor + 1))) := by
          intro found known
          change (match JsonbTag.tryFrom bytes[cursor] with
            | none => none
            | some tag => tagged frames pending (bytes.drop (cursor + 1)) tag) = _
          rw [known]
          cases found <;> rfl
        cases known : JsonbTag.tryFrom bytes[cursor] with
        | none =>
            refine Follows.of_err rfl ⟨?_, moves none known⟩
            change ¬ (match JsonbTag.tryFrom bytes[cursor] with
              | none => False
              | some tag => BadTagged limits bytes.length (bytes.drop (cursor + 1)) tag)
            rw [known]
            exact id
        | some tag => exact decodeTagged_follows ih room tag (bad tag known) (moves tag known)
      · rw [List.drop_of_length_le (not_lt.mp room)]
        exact Follows.of_err (bind_err (byte_eq_err (not_lt.mp room))) ⟨id, rfl⟩

end Follow

/-- The decoder stops the process exactly if the walk comes to a bad position. -/
theorem halts_iff (limits : Limits) (data : Bytes) :
    (∃ cause, toValue limits data = .halt cause) ↔ ReachesBad limits data :=
  (decodeValue_reads limits.frames).halts_iff fun _ => ⟨id, rfl⟩

/-- Decoding ends with a value or an error. -/
def Returns (limits : Limits) (data : Bytes) : Prop := ∀ cause, toValue limits data ≠ .halt cause

/-- A value made of JSON is read back from its bytes, and exactly these are read whatever follows
them, if and only if the process has room for its parts and its depth; and any bytes are decoded or
rejected if and only if no length and no depth is reached that there is no room for. -/
theorem decodes (limits : Limits) (widen : F32 → F64) :
    (∀ value, Plain value → ∀ suffix, (encodeValue widen value ++ suffix).length < 2 ^ 64 →
      (decodeValue limits limits.frames (encodeValue widen value ++ suffix) 0 =
          ⟨.ok value, (encodeValue widen value).length, []⟩ ∧
        toValue limits (fromValue widen value) = .ok value ↔
      Fits limits limits.frames value)) ∧
    ∀ data, Returns limits data ↔ ¬ ReachesBad limits data := by
  constructor
  · intro value plain suffix small
    have parses := encodeValue_parses widen limits limits.frames plain
    have here := parses [] suffix small
    have alone := parses [] [] (by
      rw [List.length_append] at small
      rw [List.nil_append, List.append_nil]
      omega)
    rw [List.nil_append, List.length_nil, Nat.zero_add] at here
    rw [List.nil_append, List.append_nil, List.length_nil, Nat.zero_add] at alone
    constructor
    · rintro ⟨read, -⟩
      by_contra broken
      obtain ⟨cause, halted⟩ := here.2 broken
      rw [read] at halted
      cases halted
    · intro fits
      refine ⟨here.1 fits, ?_⟩
      rw [toValue, fromValue, alone.1 fits]
  · intro data
    rw [← halts_iff, not_exists]
    exact Iff.rfl

/-- The bytes of a string whose length does not end with its tenth byte. -/
def longLength : Bytes := 0x30 :: List.replicate 10 0x80 ++ [0]

/-- A length that goes on for too long stops the process. -/
theorem not_returns_longLength :
    ¬ ∀ (limits : Limits) (data : Bytes), 0 < limits.frames → Returns limits data :=
  fun returns => returns ⟨1000, 2 ^ 32, 2 ^ 32⟩ longLength (by decide) .panic rfl

/-- An object with an array in it. -/
def sample : Value := .object [("a", .array [.int 300, .null, .bool true, .string "b"])]

theorem decodes_sample :
    (decodeValue ⟨8, 100, 100⟩ 8 (encodeValue (·.setWidth 64) sample ++ [7]) 0 =
        ⟨.ok sample, (encodeValue (·.setWidth 64) sample).length, []⟩ ∧
      toValue ⟨8, 100, 100⟩ (fromValue (·.setWidth 64) sample) = .ok sample) ∧
    ¬ ReachesBad ⟨8, 100, 100⟩ [0x40, 5] := by
  have plain : Plain sample := by
    refine .object (by simp) fun entry member => ?_
    rw [List.mem_singleton.mp member]
    refine .array fun item member => ?_
    simp only [List.mem_cons, List.not_mem_nil, or_false] at member
    rcases member with rfl | rfl | rfl | rfl <;> constructor
  have fits : Fits ⟨8, 100, 100⟩ 8 sample := by
    simp [sample, Fits]
  have short : (encodeValue (·.setWidth 64) sample ++ [7]).length < 2 ^ 64 := by decide +kernel
  exact ⟨((decodes ⟨8, 100, 100⟩ (·.setWidth 64)).1 sample plain [7] short).mpr fits,
    ((decodes ⟨8, 100, 100⟩ (·.setWidth 64)).2 [0x40, 5]).mp fun cause halted => nomatch halted⟩

end JouleDB.Jsonb
