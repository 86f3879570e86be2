import Mathlib.Data.List.Basic
import Mathlib.Data.List.Nodup

/-!
# Iterating to the end

An iterator is a state and a loop whose rounds yield an item, go on, end or panic.  `Collects` relates
an iterator to everything that iterating yields, without a bound on the number of rounds.  A traversal
that visits items one after the other, keeps the wanted ones and stops at the first one past the end
collects what `sift` computes from the visits.
-/

namespace JouleDB

variable {σ ε : Type}

/-- What one round of the loop of an iterator does. -/
inductive Round (σ ε : Type) where
  | item (value : ε) (rest : σ)
  | again (rest : σ)
  | ended (rest : σ)
  | panic

/-- What iterating yields, and whether it ends with a panic. -/
structure Collected (ε : Type) where
  items : List ε
  panics : Bool
  deriving DecidableEq

/-- One more item in front. -/
def Collected.cons (item : ε) (rest : Collected ε) : Collected ε := ⟨item :: rest.items, rest.panics⟩

/-- Iterating from a state yields these items, and then none or a panic. -/
inductive Collects (round : σ → Round σ ε) : σ → Collected ε → Prop where
  | item {state rest : σ} {value : ε} {later : Collected ε} (here : round state = .item value rest)
      (after : Collects round rest later) : Collects round state (later.cons value)
  | again {state rest : σ} {later : Collected ε} (here : round state = .again rest)
      (after : Collects round rest later) : Collects round state later
  | ended {state rest : σ} (here : round state = .ended rest) : Collects round state ⟨[], false⟩
  | panic {state : σ} (here : round state = .panic) : Collects round state ⟨[], true⟩

/-- Iterate for a number of rounds. -/
def collect (round : σ → Round σ ε) : Nat → σ → Option (Collected ε)
  | 0, _ => none
  | fuel + 1, state =>
      match round state with
      | .item value rest => (collect round fuel rest).map (Collected.cons value)
      | .again rest => collect round fuel rest
      | .ended _ => some ⟨[], false⟩
      | .panic => some ⟨[], true⟩

section Collects

variable {round : σ → Round σ ε} {state : σ} {first second : Collected ε}

theorem collects_of_collect {fuel : Nat} (done : collect round fuel state = some first) :
    Collects round state first := by
  induction fuel generalizing state first with
  | zero => cases done
  | succ fuel ih =>
      rw [collect] at done
      split at done
      next value rest here =>
        obtain ⟨later, collected, rfl⟩ := Option.map_eq_some_iff.mp done
        exact .item here (ih collected)
      next rest here => exact .again here (ih done)
      next rest here =>
        cases done
        exact .ended here
      next here =>
        cases done
        exact .panic here

theorem Collects.unique (one : Collects round state first) (other : Collects round state second) :
    first = second := by
  induction one generalizing second with
  | item here after ih =>
      cases other with
      | item same rest =>
          rw [here] at same
          cases same
          rw [ih rest]
      | again same => exact absurd (here.symm.trans same) nofun
      | ended same => exact absurd (here.symm.trans same) nofun
      | panic same => exact absurd (here.symm.trans same) nofun
  | again here after ih =>
      cases other with
      | item same => exact absurd (here.symm.trans same) nofun
      | again same rest =>
          rw [here] at same
          cases same
          exact ih rest
      | ended same => exact absurd (here.symm.trans same) nofun
      | panic same => exact absurd (here.symm.trans same) nofun
  | ended here =>
      cases other with
      | item same => exact absurd (here.symm.trans same) nofun
      | again same => exact absurd (here.symm.trans same) nofun
      | ended same => rfl
      | panic same => exact absurd (here.symm.trans same) nofun
  | panic here =>
      cases other with
      | item same => exact absurd (here.symm.trans same) nofun
      | again same => exact absurd (here.symm.trans same) nofun
      | ended same => exact absurd (here.symm.trans same) nofun
      | panic same => rfl

end Collects

/-! ## Visits -/

variable (goOn wanted : ε → Bool)

/-- The wanted ones of the items that are visited until one is past the end; a visit of nothing is a
panic. -/
def sift : List (Option ε) → Collected ε
  | [] => ⟨[], false⟩
  | none :: _ => ⟨[], true⟩
  | some item :: rest =>
      if goOn item then
        if wanted item then (sift rest).cons item else sift rest
      else
        ⟨[], false⟩

variable {goOn wanted} {front back other : List (Option ε)} {items : List ε}

/-- What is visited first can be followed by anything that yields the same. -/
theorem sift_append_congr (same : sift goOn wanted back = sift goOn wanted other) :
    sift goOn wanted (front ++ back) = sift goOn wanted (front ++ other) := by
  induction front with
  | nil => exact same
  | cons visit front ih =>
      cases visit with
      | none => rfl
      | some item =>
          simp only [List.cons_append, sift]
          rw [ih]

/-- Nothing after an item past the end is visited. -/
theorem sift_stops {item : ε} (member : some item ∈ front) (past : goOn item = false) :
    sift goOn wanted (front ++ back) = sift goOn wanted (front ++ other) := by
  induction front with
  | nil => exact absurd member List.not_mem_nil
  | cons visit front ih =>
      cases visit with
      | none => rfl
      | some next =>
          simp only [List.cons_append, sift]
          rcases List.mem_cons.mp member with same | later
          · cases same
            rw [past]
            rfl
          · rw [ih later]

theorem sift_all (before : ∀ item ∈ items, goOn item = true) :
    sift goOn wanted (items.map some ++ back) =
      ⟨items.filter wanted ++ (sift goOn wanted back).items, (sift goOn wanted back).panics⟩ := by
  induction items with
  | nil => rfl
  | cons item items ih =>
      rw [List.map_cons, List.cons_append, sift, before item List.mem_cons_self, if_pos rfl,
        ih fun other later => before other (List.mem_cons_of_mem _ later)]
      cases keeps : wanted item <;> simp [keeps, Collected.cons]

/-- In a list in which nothing wanted comes after an item past the end, all wanted items are
collected. -/
theorem sift_sorted (inside : ∀ item, wanted item = true → goOn item = true)
    (sorted : items.Pairwise fun early late => goOn late = true → goOn early = true) :
    sift goOn wanted (items.map some) = ⟨items.filter wanted, false⟩ := by
  induction items with
  | nil => rfl
  | cons item items ih =>
      obtain ⟨first, rest⟩ := List.pairwise_cons.mp sorted
      rw [List.map_cons, sift, ih rest]
      cases goes : goOn item with
      | true =>
          cases keeps : wanted item <;> simp [keeps, Collected.cons]
      | false =>
          have none : (item :: items).filter wanted = [] := by
            refine List.filter_eq_nil_iff.mpr fun other member keeps => ?_
            have later : goOn other = true := inside other keeps
            rcases List.mem_cons.mp member with rfl | isLater
            · rw [goes] at later
              cases later
            · have early := first other isLater later
              rw [goes] at early
              cases early
          rw [none]
          rfl

/-- A wanted item is collected if the items visited before it are before the end. -/
theorem mem_sift {item : ε} (member : item ∈ items) (keeps : wanted item = true)
    (inside : goOn item = true)
    (sorted : items.Pairwise fun early late => goOn late = true → goOn early = true) :
    item ∈ (sift goOn wanted (items.map some ++ back)).items := by
  obtain ⟨early, late, rfl⟩ := List.append_of_mem member
  have before : ∀ other ∈ early, goOn other = true := fun other isEarly =>
    (List.pairwise_append.mp sorted).2.2 other isEarly item List.mem_cons_self inside
  rw [List.map_append, List.append_assoc, sift_all before]
  refine List.mem_append_right _ ?_
  rw [List.map_cons, List.cons_append, sift, if_pos inside, if_pos keeps]
  exact List.mem_cons_self

theorem sift_flatMap_congr {γ : Type} {parts : List γ} {first second : γ → List ε}
    (each : ∀ part ∈ parts, ∀ back, sift goOn wanted ((first part).map some ++ back) =
      sift goOn wanted ((second part).map some ++ back)) (back : List (Option ε)) :
    sift goOn wanted ((parts.flatMap first).map some ++ back) =
      sift goOn wanted ((parts.flatMap second).map some ++ back) := by
  induction parts with
  | nil => rfl
  | cons part parts ih =>
      simp only [List.flatMap_cons, List.map_append, List.append_assoc]
      rw [each part List.mem_cons_self]
      exact sift_append_congr (ih fun other later => each other (List.mem_cons_of_mem _ later))

/-- A panic or an item that is yielded twice. -/
def Collected.Faulty (collected : Collected ε) : Prop :=
  collected.panics = true ∨ ¬ collected.items.Nodup

/-- A fault after items before the end is a fault of the whole. -/
theorem faulty_append (before : ∀ item, some item ∈ front → goOn item = true)
    (faulty : (sift goOn wanted back).Faulty) : (sift goOn wanted (front ++ back)).Faulty := by
  induction front with
  | nil => exact faulty
  | cons visit front ih =>
      have rest := ih fun item later => before item (List.mem_cons_of_mem _ later)
      cases visit with
      | none => exact .inl rfl
      | some item =>
          rw [List.cons_append, sift, before item List.mem_cons_self, if_pos rfl]
          split
          next =>
            refine rest.imp id fun twice distinct => twice ?_
            exact (List.nodup_cons.mp distinct).2
          next => exact rest

/-- Something yielded after items before the end is yielded by the whole, unless that panics. -/
theorem panics_or_mem_append {item : ε} (before : ∀ item, some item ∈ front → goOn item = true)
    (again : (sift goOn wanted back).panics = true ∨ item ∈ (sift goOn wanted back).items) :
    (sift goOn wanted (front ++ back)).panics = true ∨
      item ∈ (sift goOn wanted (front ++ back)).items := by
  induction front with
  | nil => exact again
  | cons visit front ih =>
      have rest := ih fun item later => before item (List.mem_cons_of_mem _ later)
      cases visit with
      | none => exact .inl rfl
      | some next =>
          rw [List.cons_append, sift, before next List.mem_cons_self, if_pos rfl]
          split
          next => exact rest.imp id (List.mem_cons_of_mem _)
          next => exact rest

/-- A wanted item that is visited, and visited again after items before the end. -/
theorem faulty_twice {item : ε} (before : ∀ item, some item ∈ front → goOn item = true)
    (first : some item ∈ front)
    (again : (sift goOn wanted back).panics = true ∨ item ∈ (sift goOn wanted back).items)
    (keeps : wanted item = true) : (sift goOn wanted (front ++ back)).Faulty := by
  obtain ⟨early, late, rfl⟩ := List.append_of_mem first
  rw [List.append_assoc]
  refine faulty_append (fun other isEarly => before other (List.mem_append_left _ isEarly)) ?_
  rw [List.cons_append, sift, before item (List.mem_append_right _ List.mem_cons_self), if_pos rfl,
    if_pos keeps]
  have after : ∀ other, some other ∈ late → goOn other = true := fun other isLate =>
    before other (List.mem_append_right _ (List.mem_cons_of_mem _ isLate))
  exact (panics_or_mem_append after again).imp id fun member distinct =>
    (List.nodup_cons.mp distinct).1 member

end JouleDB
