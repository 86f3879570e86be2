import Mathlib.Data.List.Basic

/-!
# The last element with a property

Lists that grow at the end are searched from the end.  `lastWith` finds the last element with
a property, `modifyLast` changes it, and `keepLast` drops the elements with a property except
for the last one.
-/

namespace JouleDB

variable {α : Type}

/-- The last element with a property. -/
def lastWith (property : α → Bool) (items : List α) : Option α := items.reverse.find? property

/-- Change the last element with a property. -/
def modifyLast (property : α → Bool) (change : α → α) : List α → List α
  | [] => []
  | item :: rest =>
      if rest.any property then item :: modifyLast property change rest
      else if property item then change item :: rest
      else item :: rest

/-- Drop the elements with a property except for the last one. -/
def keepLast (property : α → Bool) : List α → List α
  | [] => []
  | item :: rest =>
      if property item && rest.any property then keepLast property rest
      else item :: keepLast property rest

/-- Index of the last element with a property. -/
def lastIndex (property : α → Bool) (items : List α) : Option Nat :=
  (lastWith (fun indexed => property indexed.1) items.zipIdx).map Prod.snd

section LastWith

variable {property other : α → Bool}

@[simp] theorem lastWith_nil : lastWith property ([] : List α) = none := rfl

theorem lastWith_cons (item : α) (items : List α) :
    lastWith property (item :: items) =
      (lastWith property items).or (if property item then some item else none) := by
  rw [lastWith, List.reverse_cons, List.find?_append, lastWith]
  congr 1
  cases found : property item <;> simp [found]

theorem lastWith_append (front back : List α) :
    lastWith property (front ++ back) = (lastWith property back).or (lastWith property front) := by
  rw [lastWith, List.reverse_append, List.find?_append, lastWith, lastWith]

theorem lastWith_concat (items : List α) (item : α) :
    lastWith property (items ++ [item]) =
      if property item then some item else lastWith property items := by
  rw [lastWith_append, lastWith_cons, lastWith_nil, Option.none_or]
  split <;> rfl

theorem lastWith_eq_none {items : List α} :
    lastWith property items = none ↔ ∀ item ∈ items, property item = false := by
  simp [lastWith]

theorem mem_of_lastWith {items : List α} {item : α} (found : lastWith property items = some item) :
    item ∈ items ∧ property item = true := by
  refine ⟨?_, List.find?_some found⟩
  exact List.mem_reverse.mp (List.mem_of_find?_eq_some found)

/-- What comes after the last match does not match. -/
theorem lastWith_eq_some {items : List α} {item : α} (found : lastWith property items = some item) :
    ∃ front back, items = front ++ item :: back ∧ property item = true ∧
      ∀ later ∈ back, property later = false := by
  induction items with
  | nil => cases found
  | cons first rest ih =>
      rw [lastWith_cons] at found
      cases later : lastWith property rest with
      | some last =>
          rw [later, Option.some_or] at found
          cases found
          obtain ⟨front, back, split, holds, none⟩ := ih later
          exact ⟨first :: front, back, by rw [split]; rfl, holds, none⟩
      | none =>
          rw [later, Option.none_or] at found
          split at found
          next holds =>
            cases found
            exact ⟨[], rest, rfl, holds, lastWith_eq_none.mp later⟩
          next => cases found

theorem lastWith_congr {items : List α} (same : ∀ item ∈ items, property item = other item) :
    lastWith property items = lastWith other items := by
  induction items with
  | nil => rfl
  | cons first rest ih =>
      rw [lastWith_cons, lastWith_cons, ih fun item member => same item (List.mem_cons_of_mem _ member),
        same first List.mem_cons_self]

theorem lastWith_filter {items : List α}
    (kept : ∀ item ∈ items, property item = true → other item = true) :
    lastWith property (items.filter other) = lastWith property items := by
  induction items with
  | nil => rfl
  | cons first rest ih =>
      have rest := ih fun item member => kept item (List.mem_cons_of_mem _ member)
      rw [List.filter_cons]
      split
      next => rw [lastWith_cons, lastWith_cons, rest]
      next dropped =>
        have away : property first = false := by
          cases holds : property first with
          | false => rfl
          | true => exact absurd (kept first List.mem_cons_self holds) dropped
        rw [lastWith_cons, rest, away]
        simp

end LastWith

section ModifyLast

variable {property other : α → Bool} {change : α → α}

theorem modifyLast_eq_self {items : List α} (none : ∀ item ∈ items, property item = false) :
    modifyLast property change items = items := by
  induction items with
  | nil => rfl
  | cons first rest ih =>
      have quiet : rest.any property = false := by
        simpa using fun item member => none item (List.mem_cons_of_mem _ member)
      simp [modifyLast, quiet, none first List.mem_cons_self]

theorem modifyLast_append {front back : List α} {item : α} (holds : property item = true)
    (none : ∀ later ∈ back, property later = false) :
    modifyLast property change (front ++ item :: back) = front ++ change item :: back := by
  induction front with
  | nil =>
      have quiet : back.any property = false := by simpa using none
      simp [modifyLast, quiet, holds]
  | cons first front ih =>
      have loud : (front ++ item :: back).any property = true := by simp [holds]
      simp only [List.cons_append, modifyLast, loud, if_true, ih]

theorem mem_modifyLast {items : List α} {item : α}
    (member : item ∈ modifyLast property change items) :
    item ∈ items ∨ ∃ old ∈ items, property old = true ∧ item = change old := by
  cases found : lastWith property items with
  | none =>
      rw [modifyLast_eq_self (lastWith_eq_none.mp found)] at member
      exact Or.inl member
  | some old =>
      obtain ⟨front, back, rfl, holds, none⟩ := lastWith_eq_some found
      rw [modifyLast_append holds none, List.mem_append, List.mem_cons] at member
      rcases member with inFront | rfl | inBack
      · exact Or.inl (List.mem_append_left _ inFront)
      · exact Or.inr ⟨old, by simp, holds, rfl⟩
      · exact Or.inl (List.mem_append_right _ (List.mem_cons_of_mem _ inBack))

/-- Changing the element once more does nothing when the change keeps the property. -/
theorem modifyLast_modifyLast (keeps : ∀ item, property (change item) = property item)
    (once : ∀ item, change (change item) = change item) (items : List α) :
    modifyLast property change (modifyLast property change items) =
      modifyLast property change items := by
  cases found : lastWith property items with
  | none =>
      have none := lastWith_eq_none.mp found
      rw [modifyLast_eq_self none, modifyLast_eq_self none]
  | some item =>
      obtain ⟨front, back, rfl, holds, none⟩ := lastWith_eq_some found
      rw [modifyLast_append holds none, modifyLast_append ((keeps item).trans holds) none, once]

/-- Changing an element leaves alone a search that finds it neither before nor after. -/
theorem lastWith_modifyLast {items : List α}
    (before : ∀ item ∈ items, property item = true → other item = false)
    (after : ∀ item ∈ items, property item = true → other (change item) = false) :
    lastWith other (modifyLast property change items) = lastWith other items := by
  cases found : lastWith property items with
  | none => rw [modifyLast_eq_self (lastWith_eq_none.mp found)]
  | some item =>
      obtain ⟨front, back, rfl, holds, none⟩ := lastWith_eq_some found
      rw [modifyLast_append holds none, lastWith_append, lastWith_append, lastWith_cons, lastWith_cons,
        before item (by simp) holds, after item (by simp) holds]
      simp

end ModifyLast

section KeepLast

variable {property other : α → Bool}

theorem keepLast_sublist (items : List α) : (keepLast property items).Sublist items := by
  induction items with
  | nil => exact List.Sublist.slnil
  | cons first rest ih =>
      rw [keepLast]
      split
      next => exact ih.cons first
      next => exact ih.cons_cons first

/-- Only elements with the property are dropped. -/
theorem mem_keepLast {items : List α} {item : α} (member : item ∈ items)
    (away : property item = false) : item ∈ keepLast property items := by
  induction items with
  | nil => cases member
  | cons first rest ih =>
      rw [keepLast]
      rcases List.mem_cons.mp member with rfl | later
      · simp [away]
      · split
        next => exact ih later
        next => exact List.mem_cons_of_mem _ (ih later)

/-- A search that every dropped element matches finds the same element. -/
theorem lastWith_keepLast (items : List α)
    (wider : ∀ item ∈ items, property item = true → other item = true) :
    lastWith other (keepLast property items) = lastWith other items := by
  induction items with
  | nil => rfl
  | cons first rest ih =>
      have rest := ih fun item member => wider item (List.mem_cons_of_mem _ member)
      rw [keepLast]
      split
      next dropped =>
        rw [rest, lastWith_cons]
        cases found : lastWith other _ with
        | some last => rfl
        | none =>
            have none := lastWith_eq_none.mp found
            simp only [Bool.and_eq_true, List.any_eq_true] at dropped
            obtain ⟨-, item, member, holds⟩ := dropped
            have matched := wider item (List.mem_cons_of_mem _ member) holds
            rw [none item member] at matched
            cases matched
      next => rw [lastWith_cons, lastWith_cons, rest]

/-- A search that no dropped element matches finds the same element. -/
theorem lastWith_keepLast_of_apart (items : List α)
    (apart : ∀ item ∈ items, other item = true → property item = false) :
    lastWith other (keepLast property items) = lastWith other items := by
  induction items with
  | nil => rfl
  | cons first rest ih =>
      have rest := ih fun item member => apart item (List.mem_cons_of_mem _ member)
      rw [keepLast]
      split
      next dropped =>
        have away : other first = false := by
          cases holds : other first with
          | false => rfl
          | true => simp [apart first List.mem_cons_self holds] at dropped
        rw [rest, lastWith_cons, away]
        simp
      next => rw [lastWith_cons, lastWith_cons, rest]

theorem keepLast_eq_self {items : List α} (none : ∀ item ∈ items, property item = false) :
    keepLast property items = items := by
  induction items with
  | nil => rfl
  | cons first rest ih =>
      rw [keepLast, none first List.mem_cons_self,
        ih fun item member => none item (List.mem_cons_of_mem _ member)]
      simp

theorem keepLast_append {front back : List α} {item : α} (holds : property item = true)
    (none : ∀ later ∈ back, property later = false) :
    keepLast property (front ++ item :: back) =
      (front.filter fun other => !property other) ++ item :: back := by
  induction front with
  | nil =>
      have quiet : back.any property = false := by simpa using none
      simp [keepLast, quiet, keepLast_eq_self none]
  | cons first front ih =>
      have loud : (front ++ item :: back).any property = true := by simp [holds]
      rw [List.cons_append, keepLast, loud, ih, List.filter_cons]
      cases property first <;> simp

end KeepLast

section LastIndex

variable {property : α → Bool}

theorem lastIndex_append {front back : List α} {item : α} (holds : property item = true)
    (none : ∀ later ∈ back, property later = false) :
    lastIndex property (front ++ item :: back) = some front.length := by
  have quiet : lastWith (fun indexed : α × Nat => property indexed.1)
      (back.zipIdx (front.length + 1)) = Option.none := by
    rw [lastWith_eq_none]
    intro indexed member
    exact none indexed.1 (List.fst_mem_of_mem_zipIdx member)
  rw [lastIndex, List.zipIdx_append, lastWith_append, List.zipIdx_cons, lastWith_cons]
  simp only [Nat.zero_add, quiet, Option.none_or, holds, if_true]
  rfl

theorem filter_zipIdx_below {items : List α} {start index : Nat}
    (below : start + items.length ≤ index) :
    ((items.zipIdx start).filter fun indexed =>
        !property indexed.1 || decide (some indexed.2 = some index)).map Prod.fst =
      items.filter fun item => !property item := by
  induction items generalizing start with
  | nil => rfl
  | cons first rest ih =>
      rw [List.length_cons] at below
      have apart : start ≠ index := by omega
      rw [List.zipIdx_cons, List.filter_cons, List.filter_cons]
      simp only [Option.some.injEq, apart, decide_false, Bool.or_false]
      have later := ih (show start + 1 + rest.length ≤ index by omega)
      simp only [Option.some.injEq] at later
      split <;> simp [later]

/-- Keeping the elements without a property and the one with the last index. -/
theorem filter_zipIdx_eq_keepLast (items : List α) :
    (items.zipIdx.filter fun indexed =>
        !property indexed.1 || decide (some indexed.2 = lastIndex property items)).map Prod.fst =
      keepLast property items := by
  cases found : lastWith property items with
  | none =>
      have none := lastWith_eq_none.mp found
      have all : items.zipIdx.filter (fun indexed =>
          !property indexed.1 || decide (some indexed.2 = lastIndex property items)) =
          items.zipIdx := by
        refine List.filter_eq_self.mpr fun indexed member => ?_
        simp [none indexed.1 (List.fst_mem_of_mem_zipIdx member)]
      rw [all, List.zipIdx_map_fst, keepLast_eq_self none]
  | some item =>
      obtain ⟨front, back, rfl, holds, none⟩ := lastWith_eq_some found
      have kept : (back.zipIdx (front.length + 1)).filter (fun indexed =>
          !property indexed.1 || decide (some indexed.2 = some front.length)) =
          back.zipIdx (front.length + 1) := by
        refine List.filter_eq_self.mpr fun indexed member => ?_
        simp [none indexed.1 (List.fst_mem_of_mem_zipIdx member)]
      rw [lastIndex_append holds none, keepLast_append holds none, List.zipIdx_append,
        List.filter_append, List.map_append, filter_zipIdx_below (by simp), List.zipIdx_cons,
        List.filter_cons]
      simp only [Nat.zero_add, decide_true, Bool.or_true, if_true, kept, List.map_cons,
        List.zipIdx_map_fst]

end LastIndex

end JouleDB
