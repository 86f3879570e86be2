import Mathlib.Data.List.Destutter

/-!
# Removing equal neighbours

Keeping one of each run of equal neighbours leaves every value once exactly if equal values stand
together.
-/

namespace JouleDB

variable {α : Type} {list : List α} {value : α}

/-- Equal values stand together. -/
def Grouped : List α → Prop
  | [] => True
  | value :: rest => (value ∈ rest → rest.head? = some value) ∧ Grouped rest

instance Grouped.decidable [DecidableEq α] : (list : List α) → Decidable (Grouped list)
  | [] => .isTrue trivial
  | value :: rest =>
      have := Grouped.decidable rest
      inferInstanceAs (Decidable ((value ∈ rest → rest.head? = some value) ∧ Grouped rest))

theorem Grouped.of_append {back : List α} (grouped : Grouped (list ++ back)) : Grouped list := by
  induction list with
  | nil => trivial
  | cons value rest ih =>
      obtain ⟨together, later⟩ := grouped
      refine ⟨?_, ih later⟩
      intro member
      have next := together (List.mem_append_left _ member)
      cases rest with
      | nil => exact absurd member List.not_mem_nil
      | cons other rest => exact next

/-- Grouped values without equal neighbours are distinct. -/
theorem Grouped.nodup (grouped : Grouped list) (apart : list.IsChain (· ≠ ·)) : list.Nodup := by
  induction list with
  | nil => exact List.nodup_nil
  | cons value rest ih =>
      obtain ⟨together, later⟩ := grouped
      refine List.nodup_cons.mpr ⟨?_, ih later apart.tail⟩
      intro member
      cases rest with
      | nil => exact absurd member List.not_mem_nil
      | cons other rest =>
          have next := Option.some.inj (together member)
          exact (List.isChain_cons_cons.mp apart).1 next.symm

variable [DecidableEq α]

theorem mem_destutter_ne : value ∈ list.destutter (· ≠ ·) ↔ value ∈ list := by
  refine ⟨fun member => (list.destutter_sublist _).subset member, ?_⟩
  cases list with
  | nil => exact id
  | cons first rest =>
      rw [List.destutter_cons']
      induction rest generalizing first with
      | nil => exact id
      | cons second rest ih =>
          intro member
          rw [List.destutter'_cons]
          by_cases same : first = second
          · subst same
            rw [if_neg (by simp)]
            apply ih
            simpa using member
          · rw [if_pos same]
            rcases List.mem_cons.mp member with here | later
            · exact List.mem_cons.mpr (.inl here)
            · exact List.mem_cons_of_mem _ (ih second later)

theorem grouped_destutter (grouped : Grouped list) : Grouped (list.destutter (· ≠ ·)) := by
  cases list with
  | nil => trivial
  | cons first rest =>
      rw [List.destutter_cons']
      induction rest generalizing first with
      | nil => exact ⟨fun member => absurd member List.not_mem_nil, trivial⟩
      | cons second rest ih =>
          obtain ⟨together, later⟩ := grouped
          rw [List.destutter'_cons]
          by_cases same : first = second
          · subst same
            rw [if_neg (by simp)]
            exact ih _ later
          · rw [if_pos same]
            refine ⟨?_, ih _ later⟩
            intro member
            rw [← List.destutter_cons', mem_destutter_ne] at member
            exact absurd (Option.some.inj (together member)).symm same

/-- Removing equal neighbours removes all repetitions exactly if equal values stand together. -/
theorem nodup_destutter_iff : (list.destutter (· ≠ ·)).Nodup ↔ Grouped list := by
  constructor
  · cases list with
    | nil => exact fun _ => trivial
    | cons first rest =>
        rw [List.destutter_cons']
        induction rest generalizing first with
        | nil => exact fun _ => ⟨fun member => absurd member List.not_mem_nil, trivial⟩
        | cons second rest ih =>
            rw [List.destutter'_cons]
            by_cases same : first = second
            · subst same
              rw [if_neg (by simp)]
              exact fun nodup => ⟨fun _ => rfl, ih _ nodup⟩
            · rw [if_pos same]
              intro nodup
              obtain ⟨absent, nodup⟩ := List.nodup_cons.mp nodup
              refine ⟨?_, ih _ nodup⟩
              intro member
              rw [← List.destutter_cons', mem_destutter_ne] at absent
              exact absurd member absent
  · exact fun grouped => (grouped_destutter grouped).nodup (List.isChain_destutter _ _)

end JouleDB
