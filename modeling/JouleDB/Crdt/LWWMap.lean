import JouleDB.Lib.Bytes
import JouleDB.Lib.FiniteMap
import JouleDB.Lib.Replicas
import Mathlib.Data.Prod.Lex
import Mathlib.Data.UInt

/-!
# Last-writer-wins registers and maps

A register keeps the value with the largest timestamp.  A timestamp has the wall clock in front,
then a counter, then a hash of the node id; the counter is 32 bits wide and wraps.
-/

namespace JouleDB.Crdt

/-- The hash of a node id. -/
def simpleHash (text : String) : UInt32 :=
  text.toUTF8.toList.foldl (fun hash byte => hash * 31 + byte.toUInt32) 0

/-- A timestamp of a hybrid logical clock. -/
@[ext] structure HLCTimestamp where
  millis : UInt64
  counter : UInt32
  nodeHash : UInt32
  deriving DecidableEq

namespace HLCTimestamp

/-- The fields in the order in which they are compared. -/
def fields (timestamp : HLCTimestamp) : ℕ ×ₗ ℕ ×ₗ ℕ :=
  toLex (timestamp.millis.toNat, toLex (timestamp.counter.toNat, timestamp.nodeHash.toNat))

theorem fields_injective : Function.Injective fields := by
  intro first second equal
  have pairs := Prod.mk.inj (toLex.injective equal)
  have inner := Prod.mk.inj (toLex.injective pairs.2)
  ext1
  · exact UInt64.toNat_inj.mp pairs.1
  · exact UInt32.toNat_inj.mp inner.1
  · exact UInt32.toNat_inj.mp inner.2

instance : LinearOrder HLCTimestamp := LinearOrder.lift' fields fields_injective

/-- The timestamp of a node for a reading of the wall clock. -/
def now (nodeId : String) (clock : UInt64) : HLCTimestamp := ⟨clock, 0, simpleHash nodeId⟩

/-- Advance a timestamp, given a reading of the wall clock and maybe a received timestamp. -/
def tick (timestamp : HLCTimestamp) (received : Option HLCTimestamp) (clock : UInt64) :
    HLCTimestamp :=
  match received with
  | some remote =>
      if timestamp.millis < clock ∧ remote.millis < clock then
        { timestamp with millis := clock, counter := 0 }
      else if timestamp.millis = remote.millis then
        { timestamp with counter := max timestamp.counter remote.counter + 1 }
      else if remote.millis < timestamp.millis then
        { timestamp with counter := timestamp.counter + 1 }
      else
        { timestamp with millis := remote.millis, counter := remote.counter + 1 }
  | none =>
      if timestamp.millis < clock then
        { timestamp with millis := clock, counter := 0 }
      else
        { timestamp with counter := timestamp.counter + 1 }

end HLCTimestamp

/-- A register in which the last write wins. -/
structure LWWRegister where
  value : Bytes
  timestamp : HLCTimestamp
  deriving DecidableEq

namespace LWWRegister

def new (value : Bytes) (nodeId : String) (clock : UInt64) : LWWRegister :=
  ⟨value, .now nodeId clock⟩

/-- Write a value with the next timestamp. -/
def set (register : LWWRegister) (value : Bytes) (nodeId : String) (clock : UInt64) :
    LWWRegister :=
  ⟨value, { register.timestamp.tick none clock with nodeHash := simpleHash nodeId }⟩

/-- Merge another register: the larger timestamp wins. -/
def merge (register other : LWWRegister) : LWWRegister :=
  if register.timestamp < other.timestamp then other else register

end LWWRegister

/-- A map with a register for each key. -/
structure LWWMap where
  entries : FiniteMap String LWWRegister
  deriving DecidableEq

namespace LWWMap

/-- The empty map. -/
def new : LWWMap := ⟨∅⟩

/-- Set a key to a value. -/
def set (map : LWWMap) (key : String) (value : Bytes) (nodeId : String) (clock : UInt64) :
    LWWMap :=
  match map.entries[key]? with
  | some register => ⟨map.entries.insert key (register.set value nodeId clock)⟩
  | none => ⟨map.entries.insert key (.new value nodeId clock)⟩

/-- The value of a key. -/
def get (map : LWWMap) (key : String) : Option Bytes := map.entries[key]?.map (·.value)

/-- Merge another map, register by register. -/
def merge (map other : LWWMap) : LWWMap :=
  ⟨map.entries.absorb (fun known remote =>
    match known with
    | some register => some (register.merge remote)
    | none => some remote) other.entries⟩

end LWWMap

@[simp] theorem LWWRegister.value_new (value : Bytes) (nodeId : String) (clock : UInt64) :
    (LWWRegister.new value nodeId clock).value = value := rfl

section Registers

variable {register other : LWWRegister} {value : Bytes} {nodeId : String} {clock : UInt64}

/-- The counter of a register has room for one more write at this reading of the wall clock. -/
def LWWRegister.HasRoom (register : LWWRegister) (clock : UInt64) : Prop :=
  clock ≤ register.timestamp.millis → register.timestamp.counter.toNat + 1 < 2 ^ 32

instance : Decidable (register.HasRoom clock) :=
  inferInstanceAs (Decidable (_ → _))

theorem HLCTimestamp.lt_iff {first second : HLCTimestamp} :
    first < second ↔ first.millis.toNat < second.millis.toNat ∨
      first.millis.toNat = second.millis.toNat ∧
        (first.counter.toNat < second.counter.toNat ∨
          first.counter.toNat = second.counter.toNat ∧
            first.nodeHash.toNat < second.nodeHash.toNat) := by
  rw [show first < second ↔ first.fields < second.fields from Iff.rfl, fields, fields,
    Prod.Lex.toLex_lt_toLex, Prod.Lex.toLex_lt_toLex]

theorem LWWRegister.lt_timestamp_set (room : register.HasRoom clock) :
    register.timestamp < (register.set value nodeId clock).timestamp := by
  rw [HLCTimestamp.lt_iff, LWWRegister.set, HLCTimestamp.tick]
  dsimp only
  split
  next ahead => exact .inl (UInt64.lt_iff_toNat_lt.mp ahead)
  next behind =>
    have bound := room (UInt64.not_lt.mp behind)
    refine .inr ⟨rfl, .inl ?_⟩
    rw [UInt32.toNat_add, UInt32.toNat_one, Nat.mod_eq_of_lt bound]
    exact Nat.lt_succ_self _

theorem LWWRegister.timestamp_merge :
    (register.merge other).timestamp = max register.timestamp other.timestamp := by
  rw [LWWRegister.merge]
  split
  next less => exact (max_eq_right less.le).symm
  next notLess => exact (max_eq_left (not_lt.mp notLess)).symm

theorem LWWRegister.merge_eq_or (register other : LWWRegister) :
    register.merge other = register ∨ register.merge other = other := by
  rw [LWWRegister.merge]
  split
  · exact .inr rfl
  · exact .inl rfl

end Registers

end JouleDB.Crdt
