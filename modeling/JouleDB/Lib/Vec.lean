import Mathlib.Data.List.Basic

/-!
# Growable arrays

Vectors are lists here.  Writing, inserting and removing at an index past the end is a
panic of the code, so these operations return an option.  Each of them is described by the
parts of the list before and after the index.
-/

namespace JouleDB

variable {α β : Type}

/-- Overwrite the element at an index. -/
def setAt (items : List α) (index : Nat) (item : α) : Option (List α) :=
  if index < items.length then some (items.take index ++ item :: items.drop (index + 1)) else none

/-- Change the element at an index. -/
def modifyAt (items : List α) (index : Nat) (change : α → α) : Option (List α) :=
  if index < items.length then some (items.modify index change) else none

/-- Insert an element at an index. -/
def insertAt (items : List α) (index : Nat) (item : α) : Option (List α) :=
  if index ≤ items.length then some (items.take index ++ item :: items.drop index) else none

/-- Remove the element at an index. -/
def removeAt (items : List α) (index : Nat) : Option (List α) :=
  if index < items.length then some (items.take index ++ items.drop (index + 1)) else none

theorem getElem?_eq_some_split {items : List α} {index : Nat} {item : α} :
    items[index]? = some item ↔
      ∃ front back, items = front ++ item :: back ∧ front.length = index := by
  constructor
  · intro found
    obtain ⟨inside, rfl⟩ := List.getElem?_eq_some_iff.mp found
    refine ⟨items.take index, items.drop (index + 1), ?_, List.length_take_of_le (Nat.le_of_lt inside)⟩
    rw [List.getElem_cons_drop, List.take_append_drop]
  · rintro ⟨front, back, rfl, rfl⟩
    simp

/-- What is built from the parts before and after an element at an index. -/
theorem around_eq_some {items result : List α} {index : Nat} (build : List α → List α → List α) :
    (if index < items.length then some (build (items.take index) (items.drop (index + 1)))
      else none) = some result ↔
      ∃ front old back, items = front ++ old :: back ∧ front.length = index ∧
        result = build front back := by
  split
  next inside =>
    constructor
    · intro same
      injection same with same
      refine ⟨items.take index, items[index], items.drop (index + 1), ?_,
        List.length_take_of_le (Nat.le_of_lt inside), same.symm⟩
      rw [List.getElem_cons_drop, List.take_append_drop]
    · rintro ⟨front, old, back, rfl, rfl, rfl⟩
      simp
  next outside =>
    constructor
    · intro impossible
      cases impossible
    · rintro ⟨front, old, back, rfl, rfl, rfl⟩
      simp at outside

theorem setAt_eq_some {items result : List α} {index : Nat} {item : α} :
    setAt items index item = some result ↔
      ∃ front old back, items = front ++ old :: back ∧ front.length = index ∧
        result = front ++ item :: back :=
  around_eq_some fun front back => front ++ item :: back

theorem insertAt_eq_some {items result : List α} {index : Nat} {item : α} :
    insertAt items index item = some result ↔
      ∃ front back, items = front ++ back ∧ front.length = index ∧
        result = front ++ item :: back := by
  rw [insertAt]
  split
  next inside =>
    constructor
    · intro same
      injection same with same
      exact ⟨items.take index, items.drop index, (List.take_append_drop _ _).symm,
        List.length_take_of_le inside, same.symm⟩
    · rintro ⟨front, back, rfl, rfl, rfl⟩
      simp
  next outside =>
    constructor
    · intro impossible
      cases impossible
    · rintro ⟨front, back, rfl, rfl, rfl⟩
      simp at outside

theorem removeAt_eq_some {items result : List α} {index : Nat} :
    removeAt items index = some result ↔
      ∃ front old back, items = front ++ old :: back ∧ front.length = index ∧
        result = front ++ back :=
  around_eq_some fun front back => front ++ back

theorem setAt_append {front back : List α} {index : Nat} (old item : α)
    (length : front.length = index) :
    setAt (front ++ old :: back) index item = some (front ++ item :: back) :=
  setAt_eq_some.mpr ⟨front, old, back, rfl, length, rfl⟩

theorem getElem?_setAt {items result : List α} {index : Nat} {item : α}
    (set : setAt items index item = some result) : result[index]? = some item := by
  obtain ⟨front, old, back, -, length, same⟩ := setAt_eq_some.mp set
  exact getElem?_eq_some_split.mpr ⟨front, back, same, length⟩

theorem getElem?_setAt_of_ne {items result : List α} {index position : Nat} {item : α}
    (set : setAt items index item = some result) (away : position ≠ index) :
    result[position]? = items[position]? := by
  obtain ⟨front, old, back, rfl, rfl, rfl⟩ := setAt_eq_some.mp set
  rcases Nat.lt_or_gt_of_ne away with early | late
  · rw [List.getElem?_append_left early, List.getElem?_append_left early]
  · obtain ⟨more, rfl⟩ := Nat.exists_eq_add_of_lt late
    rw [List.getElem?_append_right (by omega), List.getElem?_append_right (by omega)]
    simp [show front.length + more + 1 - front.length = more + 1 by omega]

theorem insertAt_append {front back : List α} {index : Nat} (item : α)
    (length : front.length = index) :
    insertAt (front ++ back) index item = some (front ++ item :: back) :=
  insertAt_eq_some.mpr ⟨front, back, rfl, length, rfl⟩

theorem removeAt_append {front back : List α} {index : Nat} (old : α)
    (length : front.length = index) :
    removeAt (front ++ old :: back) index = some (front ++ back) :=
  removeAt_eq_some.mpr ⟨front, old, back, rfl, length, rfl⟩

/-! ## Two neighbours -/

section Neighbours

variable {front back : List α} {first second : α} {index : Nat} (length : front.length = index)

include length

theorem getElem?_first : (front ++ first :: second :: back)[index]? = some first := by
  simp [← length]

theorem getElem?_second : (front ++ first :: second :: back)[index + 1]? = some second := by
  simp [← length]

theorem setAt_first (item : α) : setAt (front ++ first :: second :: back) index item =
    some (front ++ item :: second :: back) :=
  setAt_append _ _ length

theorem setAt_second (item : α) : setAt (front ++ first :: second :: back) (index + 1) item =
    some (front ++ first :: item :: back) := by
  rw [List.append_cons, setAt_append _ _ (by simp [length]), ← List.append_cons]

theorem removeAt_second : removeAt (front ++ first :: second :: back) (index + 1) =
    some (front ++ first :: back) := by
  rw [List.append_cons, removeAt_append _ (by simp [length]), ← List.append_cons]

end Neighbours

/-! ## Modified elements -/

theorem modifyAt_eq {items : List α} {index : Nat} (inside : index < items.length)
    (change : α → α) : modifyAt items index change = some (items.modify index change) :=
  if_pos inside

/-- Changes at indices in the list, one after the other, change each element by those at its
index. -/
theorem foldlM_modifyAt {changes : List β} {index : β → Nat} {change : β → α → α} {items : List α}
    (inside : ∀ next ∈ changes, index next < items.length) :
    ∃ result, changes.foldlM (fun items next => modifyAt items (index next) (change next)) items =
        some result ∧ result.length = items.length ∧
      ∀ position, result[position]? = items[position]?.map fun item =>
        (changes.filter fun next => index next = position).foldl (fun item next => change next item)
          item := by
  induction changes generalizing items with
  | nil => exact ⟨items, rfl, rfl, fun position => by simp⟩
  | cons next changes ih =>
      have here := inside next List.mem_cons_self
      obtain ⟨result, ends, length, spec⟩ := @ih (items.modify (index next) (change next))
        fun other member => by
          rw [List.length_modify]
          exact inside other (List.mem_cons_of_mem _ member)
      refine ⟨result, ?_, length.trans (List.length_modify ..), fun position => ?_⟩
      · rw [List.foldlM_cons, modifyAt_eq here]
        exact ends
      · rw [spec, List.getElem?_modify, Option.map_eq_map, Option.map_map]
        by_cases same : index next = position <;> simp [same, Function.comp_def]

end JouleDB
