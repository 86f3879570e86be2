import JouleDB.Lib.Bytes
import JouleDB.Lib.FiniteMap

/-!
# Energy receipts

A receipt is the unit of the ledger: one query, its energy and its circumstances.  Its id is the
SHA-256 of three of its fields, written one after the other; its content hash is the SHA-256 of its
JSON text.  SHA-256, the bytes of a digest and the JSON text of a receipt are parameters; hexadecimal
text is spelled out here.
-/

namespace JouleDB.Ledger

variable {Digest Number : Type}

/-- A time in nanoseconds since the epoch. -/
abbrev Time := Int

/-- An energy receipt. -/
structure LedgerEnergyReceipt (Number : Type) where
  receiptId : String
  qid : String
  tenantId : String
  workloadTag : Option String
  branchId : Option String
  energyJoulesTotal : Number
  energyJoulesByStage : FiniteMap String Number
  kwh : Number
  kgCo2e : Number
  gridRegion : String
  gridFactorSource : String
  timestampStart : Time
  timestampEnd : Time
  deviceTarget : String
  algorithmType : String

/-- The UTF-8 bytes of a text. -/
def utf8 (text : String) : Bytes := text.toUTF8.toList.map UInt8.toFin

/-- The eight bytes of a signed number, the highest first. -/
def toBeBytes (value : Int) : Bytes := (toLe 8 (value % 2 ^ 64).toNat).reverse

/-- A time in nanoseconds where 64 bits hold it. -/
def timestampNanosOpt (time : Time) : Option Int :=
  if -2 ^ 63 ≤ time ∧ time < 2 ^ 63 then some time else none

/-- What the id of a receipt is the hash of. -/
def idMessage (qid tenantId : String) (timestampStart : Time) : Bytes :=
  utf8 qid ++ utf8 tenantId ++ toBeBytes ((timestampNanosOpt timestampStart).getD 0)

/-- A hexadecimal digit. -/
def hexDigit (value : Nat) : Char := "0123456789abcdef".toList.getD value '0'

/-- The value of a hexadecimal digit. -/
def hexValue (digit : Char) : Option Nat :=
  if '0' ≤ digit ∧ digit ≤ '9' then some (digit.toNat - 48)
  else if 'a' ≤ digit ∧ digit ≤ 'f' then some (digit.toNat - 87)
  else if 'A' ≤ digit ∧ digit ≤ 'F' then some (digit.toNat - 55)
  else none

/-- Hexadecimal text of bytes. -/
def hexEncode (bytes : Bytes) : String :=
  String.ofList (bytes.flatMap fun byte => [hexDigit (byte.val / 16), hexDigit (byte.val % 16)])

/-- The bytes of hexadecimal digits. -/
def hexDecodeList : List Char → Option Bytes
  | [] => some []
  | [_] => none
  | high :: low :: rest => do
      let high ← hexValue high
      let low ← hexValue low
      let bytes ← hexDecodeList rest
      return Fin.ofNat 256 (16 * high + low) :: bytes

/-- The bytes of a hexadecimal text. -/
def hexDecode (text : String) : Option Bytes := hexDecodeList text.toList

theorem hexDecode_byte (byte : Byte) :
    hexValue (hexDigit (byte.val / 16)) = some (byte.val / 16) ∧
      hexValue (hexDigit (byte.val % 16)) = some (byte.val % 16) := by
  have digits : ∀ value < 16, hexValue (hexDigit value) = some value := by decide
  exact ⟨digits _ (by omega), digits _ (by omega)⟩

@[simp] theorem hexDecode_hexEncode (bytes : Bytes) : hexDecode (hexEncode bytes) = some bytes := by
  rw [hexDecode, hexEncode, String.toList_ofList]
  induction bytes with
  | nil => rfl
  | cons byte bytes ih =>
      obtain ⟨high, low⟩ := hexDecode_byte byte
      simp only [List.flatMap_cons, List.cons_append, List.nil_append, hexDecodeList, high, low, ih]
      have value : Fin.ofNat 256 (16 * (byte.val / 16) + byte.val % 16) = byte := by
        apply Fin.ext
        simp only [Fin.val_ofNat]
        omega
      change some (Fin.ofNat 256 (16 * (byte.val / 16) + byte.val % 16) :: bytes) = _
      rw [value]

theorem hexEncode_injective : Function.Injective hexEncode := by
  intro first second same
  have decoded := congrArg hexDecode same
  simpa using decoded

/-- What is hashed and how. -/
structure Hashing (Digest Number : Type) where
  sha256 : Bytes → Digest
  /-- The bytes of a digest. -/
  toBytes : Digest → Bytes
  /-- The digest of bytes, which have to be as many as a digest has. -/
  ofBytes : Bytes → Option Digest
  ofBytes_toBytes : ∀ digest, ofBytes (toBytes digest) = some digest
  /-- The digest with which leaves are padded. -/
  zeroHash : Digest
  /-- JSON text of a receipt. -/
  json : LedgerEnergyReceipt Number → Bytes

namespace Hashing

variable (hashing : Hashing Digest Number)

theorem toBytes_injective : Function.Injective hashing.toBytes := by
  intro first second same
  have digest := congrArg hashing.ofBytes same
  rw [hashing.ofBytes_toBytes, hashing.ofBytes_toBytes] at digest
  exact Option.some.inj digest

/-- Hexadecimal text of a digest. -/
def toHex (digest : Digest) : String := hexEncode (hashing.toBytes digest)

/-- The digest of a hexadecimal text. -/
def ofHex (text : String) : Option Digest := (hexDecode text).bind hashing.ofBytes

@[simp] theorem ofHex_toHex (digest : Digest) :
    hashing.ofHex (hashing.toHex digest) = some digest := by
  simp [ofHex, toHex, hashing.ofBytes_toBytes]

theorem toHex_injective : Function.Injective hashing.toHex :=
  hexEncode_injective.comp hashing.toBytes_injective

/-- The hash of two digests. -/
def hashPair (left right : Digest) : Digest :=
  hashing.sha256 (hashing.toBytes left ++ hashing.toBytes right)

/-- The hash of the content of a receipt. -/
def contentHash (receipt : LedgerEnergyReceipt Number) : Digest :=
  hashing.sha256 (hashing.json receipt)

/-- The id of a receipt. -/
def computeId (qid tenantId : String) (timestampStart : Time) : String :=
  hashing.toHex (hashing.sha256 (idMessage qid tenantId timestampStart))

end Hashing

end JouleDB.Ledger
