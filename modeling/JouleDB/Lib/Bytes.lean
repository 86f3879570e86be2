import Mathlib.Data.List.Lex
import Mathlib.Data.Fin.Basic
import Mathlib.Order.Fin.Basic
import Mathlib.Tactic.Ring
import Mathlib.Tactic.NormNum

/-!
# Byte strings and fixed-width little-endian integers

Keys, values, page bodies and log records are byte strings.  Bytes are `Fin 256`,
so that byte strings inherit the lexicographic linear order that the storage
engine uses for keys.  Integers are written with a fixed number of bytes, least
significant byte first; writing reduces modulo the width, reading never fails.
-/

namespace JouleDB

/-- One byte. -/
abbrev Byte := Fin 256

/-- A byte string, ordered lexicographically. -/
abbrev Bytes := List Byte

instance byte_neZero : NeZero 256 := ⟨by decide⟩

instance bytes_transOrd : Std.TransOrd Bytes := inferInstance

theorem nil_le (key : Bytes) : [] ≤ key := not_lt.mp (List.not_lt_nil key)

/-- An unsigned 64-bit machine integer. -/
abbrev U64 := Fin (2 ^ 64)

instance u64_neZero : NeZero (2 ^ 64) := ⟨by decide⟩

instance u32_neZero : NeZero (2 ^ 32) := ⟨by decide⟩

instance u64_transOrd : Std.TransOrd U64 := inferInstance

/-- The lowest `width` bytes of a number, least significant byte first. -/
def toLe : Nat → Nat → Bytes
  | 0, _ => []
  | width + 1, value => Fin.ofNat 256 value :: toLe width (value / 256)

/-- The number a little-endian byte string stands for. -/
def ofLe : Bytes → Nat
  | [] => 0
  | byte :: rest => byte.val + 256 * ofLe rest

@[simp] theorem toLe_length (width value : Nat) : (toLe width value).length = width := by
  induction width generalizing value with
  | zero => rfl
  | succ width ih => simp [toLe, ih]

/-- Reading back a written number reduces it modulo the width. -/
theorem ofLe_toLe (width value : Nat) : ofLe (toLe width value) = value % 256 ^ width := by
  induction width generalizing value with
  | zero => simp [toLe, ofLe, Nat.mod_one]
  | succ width ih =>
      simp only [toLe, ofLe, ih, Fin.ofNat]
      rw [pow_succ, Nat.mul_comm (256 ^ width) 256, Nat.mod_mul]

/-- A number that fits the width is read back unchanged. -/
theorem ofLe_toLe_of_lt {width value : Nat} (fits : value < 256 ^ width) :
    ofLe (toLe width value) = value := by
  rw [ofLe_toLe, Nat.mod_eq_of_lt fits]

@[simp] theorem ofLe_toLe_u64 (value : U64) : ofLe (toLe 8 value.val) = value.val :=
  ofLe_toLe_of_lt (by have := value.isLt; norm_num at this ⊢; exact this)

/-- The successor of a counter that does not wrap. -/
theorem u64_val_succ {value : U64} (room : value.val + 1 < 2 ^ 64) :
    (value + 1).val = value.val + 1 := by
  exact Fin.val_add_eq_of_add_lt room

theorem u64_lt_succ {value : U64} (room : value.val + 1 < 2 ^ 64) : value < value + 1 := by
  rw [Fin.lt_def, u64_val_succ room]
  exact Nat.lt_succ_self _

/-- One byte of the reflected CRC-32 with polynomial `0xEDB88320`. -/
def crc32Byte (crc : BitVec 32) (byte : Byte) : BitVec 32 :=
  (fun crc => if crc &&& 1#32 ≠ 0#32 then (crc >>> 1) ^^^ 0xEDB88320#32 else crc >>> 1)^[8]
    (crc ^^^ BitVec.ofNat 32 byte.val)

/-- CRC-32 (IEEE) of a byte string. -/
def crc32 (data : Bytes) : Nat := (~~~ data.foldl crc32Byte 0xFFFFFFFF#32).toNat

theorem crc32_lt (data : Bytes) : crc32 data < 256 ^ 4 := by
  have bound := (~~~ data.foldl crc32Byte 0xFFFFFFFF#32).isLt
  exact lt_of_lt_of_le bound (by norm_num)

end JouleDB
