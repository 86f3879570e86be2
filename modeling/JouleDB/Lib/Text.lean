import JouleDB.Lib.Exec
import Mathlib.Data.List.Basic

/-!
# Texts with byte positions

A text is a list of characters, and a position in it counts bytes of its UTF-8 form.  Taking a text
from a position panics unless the position stands between two characters.  A position is known by
the text in front of it.
-/

namespace JouleDB

/-- A text. -/
abbrev Text := List Char

/-- The number of bytes of a text. -/
def byteLen : Text → Nat
  | [] => 0
  | char :: text => char.utf8Size + byteLen text

/-- The text from a byte position on. -/
def sliceFrom {ε : Type} (text : Text) (pos : Nat) : Outcome ε Text :=
  match text, pos with
  | text, 0 => .ok text
  | [], _ + 1 => .halt .panic
  | char :: text, pos + 1 =>
      if char.utf8Size ≤ pos + 1 then sliceFrom text (pos + 1 - char.utf8Size) else .halt .panic

@[simp] theorem byteLen_nil : byteLen [] = 0 := rfl

@[simp] theorem byteLen_cons (char : Char) (text : Text) :
    byteLen (char :: text) = char.utf8Size + byteLen text := rfl

@[simp] theorem byteLen_append (front text : Text) :
    byteLen (front ++ text) = byteLen front + byteLen text := by
  induction front with
  | nil => exact (Nat.zero_add _).symm
  | cons char front ih => rw [List.cons_append, byteLen_cons, byteLen_cons, ih, Nat.add_assoc]

theorem byteLen_eq_zero {text : Text} : byteLen text = 0 ↔ text = [] := by
  cases text with
  | nil => exact iff_of_true rfl rfl
  | cons char text =>
      have positive := char.utf8Size_pos
      rw [byteLen_cons]
      constructor
      · omega
      · exact fun isNil => nomatch isNil

/-- A text is taken from the end of what stands in front of it. -/
theorem sliceFrom_byteLen {ε : Type} (front text : Text) :
    (sliceFrom (front ++ text) (byteLen front) : Outcome ε Text) = .ok text := by
  induction front with
  | nil => rw [List.nil_append, byteLen_nil, sliceFrom]
  | cons char front ih =>
      have positive := char.utf8Size_pos
      obtain ⟨before, isBefore⟩ : ∃ before, byteLen (char :: front) = before + 1 :=
        ⟨byteLen (char :: front) - 1, by rw [byteLen_cons]; omega⟩
      rw [List.cons_append, isBefore, sliceFrom, ← isBefore, byteLen_cons,
        if_pos (Nat.le_add_right _ _), Nat.add_sub_cancel_left, ih]

/-- A position from which a text can be taken is the end of what stands in front of it. -/
theorem exists_front {ε : Type} {text rest : Text} {pos : Nat}
    (sliced : (sliceFrom text pos : Outcome ε Text) = .ok rest) :
    ∃ front, text = front ++ rest ∧ byteLen front = pos := by
  fun_induction sliceFrom text pos with
  | case1 text =>
      cases sliced
      exact ⟨[], rfl, rfl⟩
  | case2 => cases sliced
  | case3 char text pos fits ih =>
      obtain ⟨front, rfl, length⟩ := ih sliced
      exact ⟨char :: front, rfl, by rw [byteLen_cons, length]; omega⟩
  | case4 => cases sliced

end JouleDB
