import Mathlib.Data.List.Basic
import Mathlib.Order.Lattice

/-!
# Binary search

The middle key of a list is compared with the wanted one, and the search goes on in one of the
halves.  In a sorted list it finds a match or, if there is none, the place between the smaller and
the larger keys.
-/

namespace JouleDB

variable {κ : Type} [LinearOrder κ]

/-- Search in a list of at most `fuel` keys. -/
def searchWithin (wanted : κ) : (fuel : Nat) → List κ → Nat
  | 0, _ => 0
  | fuel + 1, keys =>
      match keys.drop (keys.length / 2) with
      | [] => 0
      | middle :: above =>
          if middle = wanted then
            keys.length / 2
          else if middle < wanted then
            keys.length / 2 + 1 + searchWithin wanted fuel above
          else
            searchWithin wanted fuel (keys.take (keys.length / 2))

/-- The index of a match or of the place where a key belongs. -/
def binarySearch (keys : List κ) (wanted : κ) : Nat := searchWithin wanted keys.length keys

/-- What a search finds: a match, or the place between the smaller and the larger keys. -/
structure Locates (keys : List κ) (wanted : κ) (index : Nat) : Prop where
  inside : index ≤ keys.length
  present : keys.Pairwise (· ≤ ·) → wanted ∈ keys → keys[index]? = some wanted
  absent : keys.Pairwise (· ≤ ·) → wanted ∉ keys →
    (∀ other ∈ keys.take index, other < wanted) ∧ ∀ other ∈ keys.drop index, wanted < other

variable {below above : List κ} {middle wanted : κ} {index : Nat}

theorem Locates.nil : Locates ([] : List κ) wanted 0 :=
  ⟨Nat.le_refl 0, fun _ member => absurd member List.not_mem_nil, fun _ _ => by simp⟩

theorem Locates.here : Locates (below ++ wanted :: above) wanted below.length := by
  refine ⟨by simp, fun _ _ => by simp, fun _ missing => absurd ?_ missing⟩
  simp

theorem Locates.right (found : Locates above wanted index) (smaller : middle < wanted) :
    Locates (below ++ middle :: above) wanted (below.length + 1 + index) := by
  have under : (below ++ middle :: above).Pairwise (· ≤ ·) →
      ∀ other ∈ below ++ [middle], other < wanted := by
    intro sorted other member
    rcases List.mem_append.mp member with early | isMiddle
    · have le := (List.pairwise_append.mp sorted).2.2 other early middle (by simp)
      exact le.trans_lt smaller
    · rw [List.mem_singleton.mp isMiddle]
      exact smaller
  have back : (below ++ middle :: above).Pairwise (· ≤ ·) → above.Pairwise (· ≤ ·) := fun sorted =>
    (List.pairwise_cons.mp (List.pairwise_append.mp sorted).2.1).2
  have parts : below ++ middle :: above = (below ++ [middle]) ++ above := by simp
  have length : below.length + 1 + index = (below ++ [middle]).length + index := by simp
  refine ⟨?_, fun sorted member => ?_, fun sorted missing => ?_⟩
  · have inside := found.inside
    simp only [List.length_append, List.length_cons]
    omega
  · have later : wanted ∈ above := by
      rw [parts] at member
      rcases List.mem_append.mp member with early | later
      · exact absurd (under sorted wanted early) (lt_irrefl _)
      · exact later
    rw [parts, length, List.getElem?_append_right (Nat.le_add_right _ _), Nat.add_sub_cancel_left]
    exact found.present (back sorted) later
  · have missingAbove : wanted ∉ above := fun member => missing (by simp [member])
    obtain ⟨taken, dropped⟩ := found.absent (back sorted) missingAbove
    rw [parts, length, List.take_length_add_append, List.drop_length_add_append]
    refine ⟨fun other member => ?_, dropped⟩
    rcases List.mem_append.mp member with early | later
    · exact under sorted other early
    · exact taken other later

theorem Locates.left (found : Locates below wanted index) (larger : wanted < middle) :
    Locates (below ++ middle :: above) wanted index := by
  have beyond : (below ++ middle :: above).Pairwise (· ≤ ·) →
      ∀ other ∈ middle :: above, wanted < other := by
    intro sorted other member
    rcases List.mem_cons.mp member with rfl | later
    · exact larger
    · have le := (List.pairwise_cons.mp (List.pairwise_append.mp sorted).2.1).1 other later
      exact larger.trans_le le
  have front : (below ++ middle :: above).Pairwise (· ≤ ·) → below.Pairwise (· ≤ ·) := fun sorted =>
    (List.pairwise_append.mp sorted).1
  have inside := found.inside
  refine ⟨?_, fun sorted member => ?_, fun sorted missing => ?_⟩
  · rw [List.length_append]
    omega
  · have early : wanted ∈ below := by
      rcases List.mem_append.mp member with early | later
      · exact early
      · exact absurd (beyond sorted wanted later) (lt_irrefl _)
    have here := found.present (front sorted) early
    rw [List.getElem?_append_left (List.getElem?_eq_some_iff.mp here).1]
    exact here
  · have missingBelow : wanted ∉ below := fun member => missing (by simp [member])
    obtain ⟨taken, dropped⟩ := found.absent (front sorted) missingBelow
    rw [List.take_append_of_le_length inside, List.drop_append_of_le_length inside]
    refine ⟨taken, fun other member => ?_⟩
    rcases List.mem_append.mp member with early | later
    · exact dropped other early
    · exact beyond sorted other later

theorem locates_searchWithin (wanted : κ) {fuel : Nat} {keys : List κ} (enough : keys.length ≤ fuel) :
    Locates keys wanted (searchWithin wanted fuel keys) := by
  induction fuel generalizing keys with
  | zero =>
      rw [List.length_eq_zero_iff.mp (Nat.le_zero.mp enough)]
      exact Locates.nil
  | succ fuel ih =>
      rw [searchWithin]
      split
      next none =>
        have empty : keys = [] := by
          have short := List.drop_eq_nil_iff.mp none
          exact List.length_eq_zero_iff.mp (by omega)
        rw [empty]
        exact Locates.nil
      next middle above parts =>
        have split : keys.take (keys.length / 2) ++ middle :: above = keys := by
          rw [← parts, List.take_append_drop]
        have half : (keys.take (keys.length / 2)).length = keys.length / 2 :=
          List.length_take_of_le (Nat.div_le_self _ _)
        have total : keys.length / 2 + (above.length + 1) = keys.length := by
          have length := congrArg List.length split
          rwa [List.length_append, half, List.length_cons] at length
        split
        next same =>
          subst same
          have here : Locates (keys.take (keys.length / 2) ++ middle :: above) middle
              (keys.take (keys.length / 2)).length := Locates.here
          rwa [split, half] at here
        next differs =>
          split
          next smaller =>
            have found : Locates above wanted (searchWithin wanted fuel above) := ih (by omega)
            have right : Locates (keys.take (keys.length / 2) ++ middle :: above) wanted
                ((keys.take (keys.length / 2)).length + 1 + searchWithin wanted fuel above) :=
              found.right smaller
            rwa [split, half] at right
          next notSmaller =>
            have larger := lt_of_le_of_ne (not_lt.mp notSmaller) (Ne.symm differs)
            have found : Locates (keys.take (keys.length / 2)) wanted
                (searchWithin wanted fuel (keys.take (keys.length / 2))) := ih (by omega)
            have left : Locates (keys.take (keys.length / 2) ++ middle :: above) wanted
                (searchWithin wanted fuel (keys.take (keys.length / 2))) := found.left larger
            rwa [split] at left

theorem locates_binarySearch (keys : List κ) (wanted : κ) :
    Locates keys wanted (binarySearch keys wanted) :=
  locates_searchWithin wanted (Nat.le_refl _)

end JouleDB
