import JouleDB.Lib.Decoder

/-!
# Database values and their bytes

A value is encoded as a tag and what belongs to it: fixed-width numbers, or a length and that many
bytes, elements or entries.  Floating-point numbers stand for themselves by their bits.
-/

namespace JouleDB.Types

/-- A signed 64-bit integer, by its bits. -/
abbrev I64 := BitVec 64

/-- A 64-bit floating-point number, by its bits. -/
abbrev F64 := BitVec 64

/-- A 32-bit floating-point number, by its bits. -/
abbrev F32 := BitVec 32

structure Point3 where
  x : F64
  y : F64
  z : F64
  deriving DecidableEq

/-- A quaternion. -/
structure Quat where
  w : F64
  x : F64
  y : F64
  z : F64
  deriving DecidableEq

/-- Position and orientation. -/
structure Pose6 where
  position : Point3
  orientation : Quat
  deriving DecidableEq

/-- An axis-aligned box. -/
structure Bbox3 where
  min : Point3
  max : Point3
  deriving DecidableEq

inductive Spatial3dValue where
  | point3 (point : Point3)
  | quat (quat : Quat)
  | pose6 (pose : Pose6)
  | bbox3 (box : Bbox3)
  deriving DecidableEq

/-- A database value.  The entries of a map are listed in the order of their keys. -/
inductive Value where
  | null
  | bool (value : Bool)
  | int (value : I64)
  | float (value : F64)
  | string (value : String)
  | bytes (value : Bytes)
  | array (items : List Value)
  | map (entries : List (String × Value))
  | timestamp (value : I64)
  | vector (values : List F32)
  | spatial3d (value : Spatial3dValue)

/-- Errors of the codec. -/
inductive CodecError where
  | unexpectedEof (expected actual : Nat)
  | invalidFormat (reason : String)
  | unknownType (tag : Byte)
  | invalidUtf8
  deriving DecidableEq

/-! ## Strings -/

/-- The bytes of a string. -/
def utf8 (text : String) : Bytes := text.toUTF8.data.toList.map UInt8.toFin

/-- The string of some bytes. -/
def fromUtf8 (bytes : Bytes) : Option String :=
  String.fromUTF8? ⟨(bytes.map UInt8.ofFin).toArray⟩

theorem fromUtf8_utf8 (text : String) : fromUtf8 (utf8 text) = some text := by
  have bytes : (utf8 text).map UInt8.ofFin = text.toUTF8.data.toList := by
    rw [utf8, List.map_map]
    exact List.map_id _
  rw [fromUtf8, bytes, Array.toArray_toList, String.fromUTF8?]
  exact dif_pos text.isValidUTF8

/-! ## Encoding -/

namespace Tag

@[match_pattern] def null : Byte := 0
@[match_pattern] def boolFalse : Byte := 1
@[match_pattern] def boolTrue : Byte := 2
@[match_pattern] def int : Byte := 3
@[match_pattern] def float : Byte := 4
@[match_pattern] def string : Byte := 5
@[match_pattern] def bytes : Byte := 6
@[match_pattern] def array : Byte := 7
@[match_pattern] def map : Byte := 8
@[match_pattern] def timestamp : Byte := 9
@[match_pattern] def vector : Byte := 10
@[match_pattern] def spatial3d : Byte := 11
@[match_pattern] def point3 : Byte := 1
@[match_pattern] def quat : Byte := 2
@[match_pattern] def pose6 : Byte := 3
@[match_pattern] def bbox3 : Byte := 4

end Tag

/-- The bytes of a 64-bit number. -/
def bytes64 (value : BitVec 64) : Bytes := toLe 8 value.toNat

/-- The bytes of a 32-bit number. -/
def bytes32 (value : BitVec 32) : Bytes := toLe 4 value.toNat

/-- A length, cut to 32 bits. -/
def lengthBytes (length : Nat) : Bytes := toLe 4 length

/-- Bytes after their length. -/
def prefixed (bytes : Bytes) : Bytes := lengthBytes bytes.length ++ bytes

def Spatial3dValue.encode : Spatial3dValue → Bytes
  | .point3 p => Tag.point3 :: (bytes64 p.x ++ bytes64 p.y ++ bytes64 p.z)
  | .quat q => Tag.quat :: (bytes64 q.w ++ bytes64 q.x ++ bytes64 q.y ++ bytes64 q.z)
  | .pose6 ⟨p, q⟩ =>
      Tag.pose6 :: (bytes64 p.x ++ bytes64 p.y ++ bytes64 p.z ++ bytes64 q.w ++ bytes64 q.x ++
        bytes64 q.y ++ bytes64 q.z)
  | .bbox3 ⟨min, max⟩ =>
      Tag.bbox3 :: (bytes64 min.x ++ bytes64 min.y ++ bytes64 min.z ++ bytes64 max.x ++
        bytes64 max.y ++ bytes64 max.z)

namespace Value

mutual

/-- Encode a value. -/
def encode : Value → Bytes
  | .null => [Tag.null]
  | .bool false => [Tag.boolFalse]
  | .bool true => [Tag.boolTrue]
  | .int value => Tag.int :: bytes64 value
  | .float value => Tag.float :: bytes64 value
  | .string value => Tag.string :: prefixed (utf8 value)
  | .bytes value => Tag.bytes :: prefixed value
  | .array items => Tag.array :: (lengthBytes items.length ++ encodeItems items)
  | .map entries => Tag.map :: (lengthBytes entries.length ++ encodeEntries entries)
  | .timestamp value => Tag.timestamp :: bytes64 value
  | .vector values => Tag.vector :: (lengthBytes values.length ++ values.flatMap bytes32)
  | .spatial3d value => Tag.spatial3d :: value.encode

/-- Encode the elements of an array. -/
def encodeItems : List Value → Bytes
  | [] => []
  | item :: items => item.encode ++ encodeItems items

/-- Encode the entries of a map. -/
def encodeEntries : List (String × Value) → Bytes
  | [] => []
  | (key, value) :: entries => prefixed (utf8 key) ++ value.encode ++ encodeEntries entries

end

end Value

/-! ## Decoding -/

/-- The next bytes. -/
def readBytes (len : Nat) : Decoder CodecError Bytes := .read (.unexpectedEof len) len

def readU32 : Decoder CodecError Nat := do
  let bytes ← readBytes 4
  pure (ofLe bytes)

def readI64 : Decoder CodecError I64 := do
  let bytes ← readBytes 8
  pure (BitVec.ofNat 64 (ofLe bytes))

def readF64 : Decoder CodecError F64 := do
  let bytes ← readBytes 8
  pure (BitVec.ofNat 64 (ofLe bytes))

def readF32 : Decoder CodecError F32 := do
  let bytes ← readBytes 4
  pure (BitVec.ofNat 32 (ofLe bytes))

def readString (len : Nat) : Decoder CodecError String := do
  let raw ← readBytes len
  match fromUtf8 raw with
  | some text => pure text
  | none => .fail .invalidUtf8

/-- The next byte, where one has to follow. -/
def readTag : Decoder CodecError Byte := .byte (.unexpectedEof 1 0)

def readPoint3 : Decoder CodecError Point3 := do
  let x ← readF64
  let y ← readF64
  let z ← readF64
  pure ⟨x, y, z⟩

def readQuat : Decoder CodecError Quat := do
  let w ← readF64
  let x ← readF64
  let y ← readF64
  let z ← readF64
  pure ⟨w, x, y, z⟩

/-- Decode what follows the tag of a spatial value. -/
def Spatial3dValue.decodeTagged : Byte → Decoder CodecError Spatial3dValue
  | Tag.point3 => do
      let point ← readPoint3
      pure (.point3 point)
  | Tag.quat => do
      let quat ← readQuat
      pure (.quat quat)
  | Tag.pose6 => do
      let position ← readPoint3
      let orientation ← readQuat
      pure (.pose6 ⟨position, orientation⟩)
  | Tag.bbox3 => do
      let min ← readPoint3
      let max ← readPoint3
      pure (.bbox3 ⟨min, max⟩)
  | inner => .fail (.unknownType inner)

/-- Decode a spatial value. -/
def Spatial3dValue.decodeAt : Decoder CodecError Spatial3dValue := do
  let inner ← readTag
  decodeTagged inner

/-- Insert an entry into a map; an entry of the same key is replaced. -/
def insertEntry (key : String) (value : Value) : List (String × Value) → List (String × Value)
  | [] => [(key, value)]
  | entry :: entries =>
      if utf8 key < utf8 entry.1 then (key, value) :: entry :: entries
      else if key = entry.1 then (key, value) :: entries
      else entry :: insertEntry key value entries

namespace Value

/-- Decode an entry of a map. -/
def readEntry (item : Decoder CodecError Value) : Decoder CodecError (String × Value) := do
  let keyLen ← readU32
  let key ← readString keyLen
  let value ← item
  pure (key, value)

/-- Decode what follows the tag of a value; elements and entries are read by another decoder. -/
def decodeTagged (item : Decoder CodecError Value) : Byte → Decoder CodecError Value
  | Tag.null => pure .null
  | Tag.boolFalse => pure (.bool false)
  | Tag.boolTrue => pure (.bool true)
  | Tag.int => do
      let i ← readI64
      pure (.int i)
  | Tag.float => do
      let f ← readF64
      pure (.float f)
  | Tag.string => do
      let len ← readU32
      let s ← readString len
      pure (.string s)
  | Tag.bytes => do
      let len ← readU32
      let b ← readBytes len
      pure (.bytes b)
  | Tag.array => do
      let len ← readU32
      -- the capacity is computed from what remains
      let _room ← Decoder.remaining
      let arr ← Decoder.times item len
      pure (.array arr)
  | Tag.map => do
      let len ← readU32
      let entries ← Decoder.times (readEntry item) len
      pure (.map (entries.foldl (fun map entry => insertEntry entry.1 entry.2 map) []))
  | Tag.timestamp => do
      let ts ← readI64
      pure (.timestamp ts)
  | Tag.vector => do
      let len ← readU32
      let _room ← Decoder.remaining
      let v ← Decoder.times readF32 len
      pure (.vector v)
  | Tag.spatial3d => do
      let s ← Spatial3dValue.decodeAt
      pure (.spatial3d s)
  | tag => .fail (.unknownType tag)

/-- Decode a value whose parts are nested at most so deep. -/
def decodeNested : Nat → Decoder CodecError Value
  | 0 => .stop .panic
  | depth + 1 => do
      let tag ← readTag
      decodeTagged (decodeNested depth) tag

/-- Decode a value at the cursor.  Every level takes a byte, so there are at most as many levels as
bytes. -/
def decodeAt : Decoder CodecError Value := fun bytes => decodeNested (bytes.length + 1) bytes

/-- Decode a value. -/
def decode (bytes : Bytes) : Outcome CodecError Value := (decodeAt bytes 0).outcome

end Value

end JouleDB.Types
