import Mathlib.Data.Finset.Basic
import Mathlib.Data.String.Basic
import Std.Data.ExtTreeMap

/-!
# Finite maps

A finite map is known by its values: two maps that hold the same value for every key are equal,
whatever the order in which they were filled.  It stands for a hash map, whose order nobody may
rely on, and for an ordered map.
-/

namespace JouleDB

/-- A finite map. -/
abbrev FiniteMap (κ β : Type) [Ord κ] := Std.ExtTreeMap κ β compare

namespace FiniteMap

variable {κ β γ : Type} [Ord κ] [Std.TransOrd κ] [Std.LawfulEqOrd κ]

/-- Take in every entry of another map. -/
def absorb (change : Option β → γ → Option β) (map : FiniteMap κ β) (other : FiniteMap κ γ) :
    FiniteMap κ β :=
  other.foldl (fun map key value => map.alter key fun old => change old value) map

section Absorb

variable {change : Option β → γ → Option β} {key : κ}

theorem getElem?_foldl_of_absent {entries : List (κ × γ)}
    (absent : ∀ entry ∈ entries, entry.1 ≠ key) (map : FiniteMap κ β) :
    (entries.foldl (fun map entry => map.alter entry.1 fun old => change old entry.2) map)[key]? =
      map[key]? := by
  induction entries generalizing map with
  | nil => rfl
  | cons entry entries ih =>
      have apart : entry.1 ≠ key := absent entry List.mem_cons_self
      rw [List.foldl_cons, ih fun other member => absent other (List.mem_cons_of_mem _ member)]
      simp [Std.ExtTreeMap.getElem?_alter, apart]

theorem getElem?_foldl_of_mem {entries : List (κ × γ)} {value : γ}
    (distinct : entries.Pairwise fun first second => first.1 ≠ second.1)
    (member : (key, value) ∈ entries) (map : FiniteMap κ β) :
    (entries.foldl (fun map entry => map.alter entry.1 fun old => change old entry.2) map)[key]? =
      change map[key]? value := by
  induction entries generalizing map with
  | nil => exact absurd member List.not_mem_nil
  | cons entry entries ih =>
      obtain ⟨apart, distinct⟩ := List.pairwise_cons.mp distinct
      rw [List.foldl_cons]
      rcases List.mem_cons.mp member with rfl | later
      · rw [getElem?_foldl_of_absent fun other member => (apart other member).symm]
        simp
      · rw [ih distinct later]
        simp [Std.ExtTreeMap.getElem?_alter, apart _ later]

/-- What a map holds after it has taken in another one. -/
theorem getElem?_absorb (map : FiniteMap κ β) (other : FiniteMap κ γ) :
    (absorb change map other)[key]? =
      match other[key]? with
      | some value => change map[key]? value
      | none => map[key]? := by
  rw [absorb, Std.ExtTreeMap.foldl_eq_foldl_toList]
  split
  next value held =>
    apply getElem?_foldl_of_mem
    · apply Std.ExtTreeMap.distinct_keys_toList.imp
      intro first second distinct equal
      exact distinct (by rw [equal]; exact Std.ReflOrd.compare_self)
    · exact Std.ExtTreeMap.mem_toList_iff_getElem?_eq_some.mpr held
  next absent =>
    apply getElem?_foldl_of_absent
    rintro entry member rfl
    rw [Std.ExtTreeMap.mem_toList_iff_getElem?_eq_some.mp member] at absent
    exact absurd absent (by simp)

end Absorb

end FiniteMap

end JouleDB
