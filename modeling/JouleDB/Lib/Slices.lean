import JouleDB.Lib.Bytes
import JouleDB.Lib.Exec

/-!
# Bytes at given places

Code that indexes into a byte string panics past its end.  Where a code stands in a byte string, it
is read back; and a read ends with bytes or with a panic, never with an error.
-/

namespace JouleDB.Slices

variable {ε : Type}

/-- The bytes between two indices. -/
def slice (data : Bytes) (start stop : Nat) : Outcome ε Bytes :=
  if start ≤ stop ∧ stop ≤ data.length then .ok ((data.drop start).take (stop - start))
  else .halt .panic

/-- The byte at an index. -/
def byteAt (data : Bytes) (index : Nat) : Outcome ε Byte :=
  match data[index]? with
  | some byte => .ok byte
  | none => .halt .panic

/-- The number in the bytes from an index on. -/
def numberAt (data : Bytes) (start width : Nat) : Outcome ε Nat := do
  let bytes ← slice data start (start + width)
  .ok (ofLe bytes)

/-- The bytes that begin at an index, as many as there are. -/
def part (data : Bytes) (start count : Nat) : Bytes := (data.drop start).take count

variable {data : Bytes} {start count : Nat}

theorem slice_eq (room : start + count ≤ data.length) :
    (slice data start (start + count) : Outcome ε Bytes) = .ok (part data start count) := by
  rw [slice, if_pos ⟨by omega, room⟩, Nat.add_sub_cancel_left, part]

theorem slice_panics {stop : Nat} (outside : stop < start ∨ data.length < stop) :
    (slice data start stop : Outcome ε Bytes) = .halt .panic :=
  if_neg (by omega)

theorem byteAt_eq {index : Nat} (room : index < data.length) :
    (byteAt data index : Outcome ε Byte) = .ok data[index] := by
  rw [byteAt, List.getElem?_eq_getElem room]

theorem numberAt_eq (room : start + count ≤ data.length) :
    (numberAt data start count : Outcome ε Nat) = .ok (ofLe (part data start count)) := by
  rw [numberAt, slice_eq room]
  rfl

theorem numberAt_panics (outside : data.length < start + count) :
    (numberAt data start count : Outcome ε Nat) = .halt .panic := by
  rw [numberAt, slice_panics (.inr outside)]
  rfl

/-- A code that stands in a byte string is the part from its place on. -/
theorem part_append (front code back : Bytes) :
    part (front ++ code ++ back) front.length code.length = code := by
  rw [part, List.append_assoc, List.drop_left, List.take_left]

/-- A code at a place of a byte string. -/
def Stands (data : Bytes) (start : Nat) (code : Bytes) : Prop :=
  ∃ front back, data = front ++ code ++ back ∧ front.length = start

namespace Stands

variable {code : Bytes}

theorem part_eq (stands : Stands data start code) : part data start code.length = code := by
  obtain ⟨front, back, rfl, rfl⟩ := stands
  exact part_append front code back

theorem number_eq {width value : Nat} (stands : Stands data start (toLe width value))
    (fits : value < 256 ^ width) : ofLe (part data start width) = value := by
  have code := stands.part_eq
  rw [toLe_length] at code
  rw [code, ofLe_toLe_of_lt fits]

theorem getElem_eq {byte : Byte} (stands : Stands data start [byte])
    (room : start < data.length) : data[start] = byte := by
  obtain ⟨front, back, rfl, rfl⟩ := stands
  rw [List.getElem_append_left (by rw [List.length_append]; exact Nat.lt_succ_self _),
    List.getElem_append_right le_rfl]
  simp

end Stands

end JouleDB.Slices
