import Mathlib.Order.Fin.Basic
import JouleDB.Lib.Bytes

/-!
# Key ranges

A shard is responsible for the keys between two byte strings, either of which may be missing.  A
range is split at the average of its bounds, taken byte by byte over the bytes that both have.
-/

namespace JouleDB.Sharding

/-! ## Definitions -/

/-- Errors of sharding. -/
inductive ShardingError where
  | shardNotFound (id : String)
  | nodeNotFound (id : String)
  | noAvailableShards
  | migrationInProgress (id : String)
  | splitFailed (reason : String)
  | mergeFailed (reason : String)
  | invalidKeyRange
  | crossShardQueryFailed (reason : String)
  | internal (reason : String)
  deriving DecidableEq, Repr

/-- The average of two bytes, rounded down. -/
def averageByte (first second : Byte) : Byte := Fin.ofNat 256 ((first.val + second.val) / 2)

/-- The average of two byte strings, as long as the shorter one. -/
def average (first second : Bytes) : Bytes := first.zipWith averageByte second

/-- A byte string whose last byte is 128 greater, or the greatest byte. -/
def raiseLast (bytes : Bytes) : Bytes :=
  match bytes.getLast? with
  | some last => bytes.dropLast ++ [Fin.ofNat 256 (min (last.val + 128) 255)]
  | none => bytes

/-- Half of every byte. -/
def halves (bytes : Bytes) : Bytes := bytes.map fun byte => Fin.ofNat 256 (byte.val / 2)

/-- Keys from the start on and before the end. -/
structure KeyRange where
  start : Option Bytes
  stop : Option Bytes
  deriving DecidableEq, Repr

namespace KeyRange

/-- All keys. -/
def unbounded : KeyRange := ⟨none, none⟩

/-- The keys between two bounds. -/
def new (start stop : Bytes) : KeyRange := ⟨some start, some stop⟩

/-- The keys from a bound on. -/
def fromStart (start : Bytes) : KeyRange := ⟨some start, none⟩

/-- The keys before a bound. -/
def untilEnd (stop : Bytes) : KeyRange := ⟨none, some stop⟩

/-- A key is not before the start. -/
def afterStart (range : KeyRange) (key : Bytes) : Bool :=
  match range.start with
  | some start => decide (start ≤ key)
  | none => true

/-- A key is before the end. -/
def beforeEnd (range : KeyRange) (key : Bytes) : Bool :=
  match range.stop with
  | some stop => decide (key < stop)
  | none => true

/-- Check if a key is within a range. -/
def contains (range : KeyRange) (key : Bytes) : Bool := range.afterStart key && range.beforeEnd key

/-- The bounds that a split averages. -/
def splitBounds (range : KeyRange) : Except ShardingError (Bytes × Bytes) :=
  match range.start, range.stop with
  | some start, some stop => .ok (start, stop)
  | some start, none => .ok (start, raiseLast start)
  | none, some stop => .ok (halves stop, stop)
  | none, none => .error .invalidKeyRange

/-- Split a range at its midpoint. -/
def split (range : KeyRange) : Except ShardingError (KeyRange × KeyRange) := do
  let (start, stop) ← range.splitBounds
  let mid := average start stop
  return (⟨range.start, some mid⟩, ⟨some mid, range.stop⟩)

/-- The lower of two starts, or the one that is there. -/
def lowerStart (first second : KeyRange) : Option Bytes :=
  match first.start, second.start with
  | some one, some two => some (if one < two then one else two)
  | some one, none => some one
  | none, some two => some two
  | none, none => none

/-- The higher of two ends, or the one that is there. -/
def higherEnd (first second : KeyRange) : Option Bytes :=
  match first.stop, second.stop with
  | some one, some two => some (if two < one then one else two)
  | some one, none => some one
  | none, some two => some two
  | none, none => none

/-- The range of a merged shard. -/
def merge (first second : KeyRange) : KeyRange := ⟨lowerStart first second, higherEnd first second⟩

end KeyRange

/-! ## Keys of ranges -/

namespace KeyRange

theorem afterStart_iff {range : KeyRange} {key : Bytes} :
    range.afterStart key = true ↔ ∀ start ∈ range.start, start ≤ key := by
  rw [afterStart]
  cases range.start <;> simp

theorem beforeEnd_iff {range : KeyRange} {key : Bytes} :
    range.beforeEnd key = true ↔ ∀ stop ∈ range.stop, key < stop := by
  rw [beforeEnd]
  cases range.stop <;> simp

theorem contains_iff {range : KeyRange} {key : Bytes} :
    range.contains key = true ↔
      (∀ start ∈ range.start, start ≤ key) ∧ ∀ stop ∈ range.stop, key < stop := by
  rw [contains, Bool.and_eq_true, afterStart_iff, beforeEnd_iff]

end KeyRange

end JouleDB.Sharding
