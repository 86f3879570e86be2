import Mathlib.Data.List.Basic
import Mathlib.Data.List.Nodup

/-!
# Association lists standing for hash maps

A hash map is an association list with one entry per key, in an iteration order that
nothing may depend on.  `upsert` is `HashMap::insert`; reading is `List.lookup`.
-/

namespace JouleDB

variable {κ β : Type} [DecidableEq κ]

/-- Insert a value, replacing the value of a key that is present. -/
def upsert : List (κ × β) → κ → β → List (κ × β)
  | [], key, value => [(key, value)]
  | (other, old) :: rest, key, value =>
      if other = key then (key, value) :: rest else (other, old) :: upsert rest key value

/-- Insert a list of values one after the other. -/
def upsertAll (map : List (κ × β)) (updates : List (κ × β)) : List (κ × β) :=
  updates.foldl (fun map update => upsert map update.1 update.2) map

/-- The value that the last of a list of updates gives to a key. -/
def lastUpdate (updates : List (κ × β)) (key : κ) : Option β := updates.reverse.lookup key

theorem lookup_cons_ite [BEq κ] [LawfulBEq κ] (entry : κ × β) (rest : List (κ × β)) (key : κ) :
    (entry :: rest).lookup key = if key = entry.1 then some entry.2 else rest.lookup key := by
  obtain ⟨first, value⟩ := entry
  by_cases equal : key = first
  · subst equal
    simp
  · have distinct : (key == first) = false := beq_false_of_ne equal
    simp [List.lookup_cons, distinct, equal]

theorem lookup_map_snd [BEq κ] [LawfulBEq κ] {γ : Type} (change : β → γ)
    (map : List (κ × β)) (key : κ) :
    (map.map fun entry => (entry.1, change entry.2)).lookup key =
      (map.lookup key).map change := by
  induction map with
  | nil => rfl
  | cons head rest ih =>
      rw [List.map_cons, lookup_cons_ite, lookup_cons_ite, ih]
      split <;> rfl

theorem lookup_upsert [BEq κ] [LawfulBEq κ] (map : List (κ × β)) (key other : κ) (value : β) :
    (upsert map key value).lookup other =
      if other = key then some value else map.lookup other := by
  induction map with
  | nil => simp only [upsert, lookup_cons_ite]
  | cons head rest ih =>
      obtain ⟨first, old⟩ := head
      by_cases here : first = key
      · subst here
        by_cases equal : other = first <;> simp [upsert, lookup_cons_ite, equal]
      · by_cases equal : other = first
        · subst equal
          simp [upsert, here]
        · simp [upsert, here, lookup_cons_ite, equal, ih]

@[simp] theorem lastUpdate_nil (key : κ) : lastUpdate ([] : List (κ × β)) key = none := rfl

theorem lastUpdate_append (front back : List (κ × β)) (key : κ) :
    lastUpdate (front ++ back) key = (lastUpdate back key).or (lastUpdate front key) := by
  simp [lastUpdate, List.lookup_append]

theorem lastUpdate_cons (update : κ × β) (updates : List (κ × β)) (key : κ) :
    lastUpdate (update :: updates) key =
      (lastUpdate updates key).or (if key = update.1 then some update.2 else none) := by
  have single : lastUpdate [update] key = if key = update.1 then some update.2 else none := by
    simp [lastUpdate, lookup_cons_ite]
  rw [← single, ← lastUpdate_append]
  rfl

/-- Reading after a list of updates finds the last of them. -/
theorem lookup_upsertAll [BEq κ] [LawfulBEq κ] (map updates : List (κ × β)) (key : κ) :
    (upsertAll map updates).lookup key = (lastUpdate updates key).or (map.lookup key) := by
  induction updates generalizing map with
  | nil => simp [upsertAll, lastUpdate]
  | cons update updates ih =>
      have step : upsertAll map (update :: updates) =
          upsertAll (upsert map update.1 update.2) updates := rfl
      rw [step, ih, lookup_upsert, lastUpdate_cons]
      cases lastUpdate updates key with
      | some value => rfl
      | none => by_cases equal : key = update.1 <;> simp [equal]

theorem upsertAll_append (map front back : List (κ × β)) :
    upsertAll map (front ++ back) = upsertAll (upsertAll map front) back := by
  simp [upsertAll, List.foldl_append]

theorem upsert_of_not_mem {map : List (κ × β)} {key : κ} (absent : key ∉ map.map Prod.fst)
    (value : β) : upsert map key value = map ++ [(key, value)] := by
  induction map with
  | nil => rfl
  | cons head rest ih =>
      rw [List.map_cons, List.mem_cons, not_or] at absent
      rw [upsert, if_neg (Ne.symm absent.1), ih absent.2, List.cons_append]

theorem mem_of_mem_upsert {map : List (κ × β)} {key : κ} {value : β} {entry : κ × β}
    (member : entry ∈ upsert map key value) : entry = (key, value) ∨ entry ∈ map := by
  induction map with
  | nil => exact .inl (List.mem_singleton.mp member)
  | cons head rest ih =>
      rw [upsert] at member
      split at member
      next => exact (List.mem_cons.mp member).imp_right (List.mem_cons_of_mem _)
      next =>
        rcases List.mem_cons.mp member with rfl | later
        · exact .inr List.mem_cons_self
        · exact (ih later).imp_right (List.mem_cons_of_mem _)

theorem upsert_upsert (map : List (κ × β)) (key : κ) (first second : β) :
    upsert (upsert map key first) key second = upsert map key second := by
  induction map with
  | nil => simp [upsert]
  | cons head rest ih =>
      rw [upsert]
      split
      next same => simp [upsert, same]
      next apart => rw [upsert, if_neg apart, ih, upsert, if_neg apart]

/-- Entries with distinct new keys are put at the end in their order. -/
theorem upsertAll_of_nodup {map updates : List (κ × β)}
    (nodup : ((map ++ updates).map Prod.fst).Nodup) : upsertAll map updates = map ++ updates := by
  induction updates generalizing map with
  | nil => exact (List.append_nil map).symm
  | cons update updates ih =>
      rw [List.append_cons] at nodup
      have absent : update.1 ∉ map.map Prod.fst := by
        rw [List.map_append, List.map_append] at nodup
        have apart := List.disjoint_of_nodup_append (List.nodup_append.mp nodup).1
        exact fun member => apart member (List.mem_singleton.mpr rfl)
      change upsertAll (upsert map update.1 update.2) updates = _
      rw [upsert_of_not_mem absent, ih nodup]
      exact (List.append_cons map update updates).symm

theorem keys_upsert (map : List (κ × β)) (key : κ) (value : β) :
    (upsert map key value).map Prod.fst =
      if key ∈ map.map Prod.fst then map.map Prod.fst else map.map Prod.fst ++ [key] := by
  induction map with
  | nil => simp [upsert]
  | cons head rest ih =>
      obtain ⟨first, old⟩ := head
      by_cases here : first = key
      · simp [upsert, here]
      · have absent : key ≠ first := fun equal => here equal.symm
        by_cases later : key ∈ rest.map Prod.fst
        · have present : ∃ value, (key, value) ∈ rest := by simpa using later
          rw [if_pos later] at ih
          simp [upsert, here, ih, absent, present]
        · have missing : ∀ value, (key, value) ∉ rest := by simpa using later
          rw [if_neg later] at ih
          simp [upsert, here, ih, absent, missing]

theorem nodup_upsert {map : List (κ × β)} (nodup : (map.map Prod.fst).Nodup) (key : κ)
    (value : β) : ((upsert map key value).map Prod.fst).Nodup := by
  rw [keys_upsert]
  split
  · exact nodup
  next absent =>
    exact nodup.append (List.nodup_singleton key)
      (List.disjoint_singleton.mpr absent)

theorem nodup_upsertAll {map : List (κ × β)} (nodup : (map.map Prod.fst).Nodup)
    (updates : List (κ × β)) : ((upsertAll map updates).map Prod.fst).Nodup := by
  induction updates generalizing map with
  | nil => exact nodup
  | cons update updates ih => exact ih (nodup_upsert nodup update.1 update.2)

theorem lookup_eq_some_iff [BEq κ] [LawfulBEq κ] {map : List (κ × β)}
    (nodup : (map.map Prod.fst).Nodup) {key : κ} {value : β} : map.lookup key = some value ↔ (key, value) ∈ map := by
  induction map with
  | nil => simp
  | cons head rest ih =>
      obtain ⟨first, old⟩ := head
      rw [List.map_cons, List.nodup_cons] at nodup
      rw [lookup_cons_ite, List.mem_cons, Prod.mk.injEq]
      by_cases equal : key = first
      · subst equal
        have absent : (key, value) ∉ rest := fun member =>
          nodup.1 (List.mem_map.mpr ⟨(key, value), member, rfl⟩)
        simp [absent, eq_comm]
      · simp [equal, ih nodup.2]

omit [DecidableEq κ] in
theorem keys_filterMap_sublist {γ : Type} {change : κ × β → Option (κ × γ)}
    (keeps : ∀ entry out, change entry = some out → out.1 = entry.1) (map : List (κ × β)) :
    ((map.filterMap change).map Prod.fst).Sublist (map.map Prod.fst) := by
  induction map with
  | nil => exact List.Sublist.slnil
  | cons head rest ih =>
      rw [List.filterMap_cons, List.map_cons]
      split
      next => exact ih.cons head.1
      next out changed =>
        rw [List.map_cons, keeps head out changed]
        exact ih.cons_cons head.1

theorem lookup_filterMap [BEq κ] [LawfulBEq κ] {γ : Type} {change : κ × β → Option (κ × γ)}
    (keeps : ∀ entry out, change entry = some out → out.1 = entry.1) {map : List (κ × β)}
    (nodup : (map.map Prod.fst).Nodup) (key : κ) :
    (map.filterMap change).lookup key =
      (map.lookup key).bind fun value => (change (key, value)).map Prod.snd := by
  have nodup' : ((map.filterMap change).map Prod.fst).Nodup :=
    nodup.sublist (keys_filterMap_sublist keeps map)
  refine Option.ext fun value => ?_
  rw [lookup_eq_some_iff nodup', List.mem_filterMap, Option.bind_eq_some_iff]
  constructor
  · rintro ⟨⟨other, old⟩, member, changed⟩
    have same : key = other := keeps _ _ changed
    subst same
    exact ⟨old, (lookup_eq_some_iff nodup).mpr member, by rw [changed]; rfl⟩
  · rintro ⟨old, found, changed⟩
    obtain ⟨⟨other, new⟩, isNew, rfl⟩ := Option.map_eq_some_iff.mp changed
    have same : other = key := keeps _ _ isNew
    subst same
    exact ⟨(other, old), (lookup_eq_some_iff nodup).mp found, isNew⟩

theorem isSome_lookup_iff [BEq κ] [LawfulBEq κ] (map : List (κ × β)) (key : κ) :
    (map.lookup key).isSome ↔ key ∈ map.map Prod.fst := by
  induction map with
  | nil => simp
  | cons head rest ih =>
      rw [lookup_cons_ite, List.map_cons, List.mem_cons, ← ih]
      split <;> simp [*]

theorem lookup_filter [BEq κ] [LawfulBEq κ] {map : List (κ × β)}
    (nodup : (map.map Prod.fst).Nodup) (keep : κ × β → Bool) (key : κ) :
    (map.filter keep).lookup key = (map.lookup key).filter fun value => keep (key, value) := by
  have nodup' : ((map.filter keep).map Prod.fst).Nodup :=
    nodup.sublist (List.filter_sublist.map Prod.fst)
  refine Option.ext fun value => ?_
  rw [lookup_eq_some_iff nodup', List.mem_filter, ← lookup_eq_some_iff nodup,
    Option.filter_eq_some_iff]

/-- The order of the entries does not matter to a lookup. -/
theorem lookup_perm [BEq κ] [LawfulBEq κ] {map other : List (κ × β)} (perm : map.Perm other)
    (nodup : (map.map Prod.fst).Nodup) (key : κ) : map.lookup key = other.lookup key := by
  have nodup' : (other.map Prod.fst).Nodup := (perm.map Prod.fst).nodup_iff.mp nodup
  refine Option.ext fun value => ?_
  rw [lookup_eq_some_iff nodup, lookup_eq_some_iff nodup', perm.mem_iff]

/-- With one entry per key the last update is the only one. -/
theorem lastUpdate_eq_lookup [BEq κ] [LawfulBEq κ] {updates : List (κ × β)}
    (nodup : (updates.map Prod.fst).Nodup) (key : κ) :
    lastUpdate updates key = updates.lookup key := by
  have reversed : (updates.reverse.map Prod.fst).Nodup :=
    (updates.reverse_perm.map Prod.fst).nodup_iff.mpr nodup
  refine Option.ext fun value => ?_
  have last : lastUpdate updates key = some value ↔ (key, value) ∈ updates.reverse :=
    @lookup_eq_some_iff κ β _ instBEqOfDecidableEq _ _ reversed _ _
  rw [last, List.mem_reverse, lookup_eq_some_iff nodup]

theorem mem_of_lastUpdate {updates : List (κ × β)} {key : κ} {value : β}
    (found : lastUpdate updates key = some value) : (key, value) ∈ updates := by
  induction updates with
  | nil => simp [lastUpdate] at found
  | cons update updates ih =>
      rw [lastUpdate_cons] at found
      cases later : lastUpdate updates key with
      | some other =>
          rw [later] at found
          exact List.mem_cons_of_mem _ (ih (later.trans found))
      | none =>
          rw [later, Option.none_or] at found
          split at found
          next equal =>
            injection found with same
            rw [equal, ← same]
            exact List.mem_cons_self
          next => cases found

theorem exists_lastUpdate {updates : List (κ × β)} {key : κ} {value : β}
    (member : (key, value) ∈ updates) : ∃ last, lastUpdate updates key = some last := by
  induction updates with
  | nil => cases member
  | cons update updates ih =>
      rw [lastUpdate_cons]
      cases later : lastUpdate updates key with
      | some last => exact ⟨last, rfl⟩
      | none =>
          rcases List.mem_cons.mp member with rfl | inRest
          · exact ⟨value, by simp⟩
          · obtain ⟨last, found⟩ := ih inRest
            rw [later] at found
            cases found

/-- The last update among several groups is the last one of the last group with the key. -/
theorem lastUpdate_flatMap_eq_some {ι : Type} {groups : List ι} {updates : ι → List (κ × β)}
    {key : κ} {value : β} :
    lastUpdate (groups.flatMap updates) key = some value ↔
      ∃ front group back, groups = front ++ group :: back ∧
        lastUpdate (updates group) key = some value ∧
        ∀ later ∈ back, lastUpdate (updates later) key = none := by
  induction groups with
  | nil => simp [lastUpdate]
  | cons first rest ih =>
      rw [List.flatMap_cons, lastUpdate_append]
      cases found : lastUpdate (rest.flatMap updates) key with
      | some other =>
          rw [Option.some_or]
          constructor
          · intro same
            obtain ⟨front, group, back, rfl, here, none⟩ := ih.mp (found.trans same)
            exact ⟨first :: front, group, back, rfl, here, none⟩
          · rintro ⟨front, group, back, split, here, none⟩
            rcases List.cons_eq_append_iff.mp split with ⟨rfl, same⟩ | ⟨front, rfl, rfl⟩
            · obtain ⟨later, member, inLater⟩ := List.mem_flatMap.mp (mem_of_lastUpdate found)
              obtain ⟨last, isLast⟩ := exists_lastUpdate inLater
              rw [none later ((List.cons.inj same).2 ▸ member)] at isLast
              cases isLast
            · rw [← found]
              exact ih.mpr ⟨front, group, back, rfl, here, none⟩
      | none =>
          have absent : ∀ later ∈ rest, lastUpdate (updates later) key = none := by
            intro later member
            by_contra some
            obtain ⟨last, isLast⟩ := Option.ne_none_iff_exists'.mp some
            obtain ⟨_, inRest⟩ := exists_lastUpdate
              (List.mem_flatMap.mpr ⟨later, member, mem_of_lastUpdate isLast⟩)
            rw [found] at inRest
            cases inRest
          rw [Option.none_or]
          constructor
          · exact fun here => ⟨[], first, rest, rfl, here, absent⟩
          · rintro ⟨front, group, back, split, here, -⟩
            rcases List.cons_eq_append_iff.mp split with ⟨rfl, same⟩ | ⟨front, rfl, rfl⟩
            · rw [← (List.cons.inj same).1]
              exact here
            · rw [absent group (by simp)] at here
              cases here

/-! ## Removal and counting -/

/-- Drop the entry of a key. -/
def remove (map : List (κ × β)) (key : κ) : List (κ × β) :=
  map.filter fun entry => decide (entry.1 ≠ key)

theorem mem_remove {map : List (κ × β)} {key : κ} {entry : κ × β} :
    entry ∈ remove map key ↔ entry ∈ map ∧ entry.1 ≠ key := by
  rw [remove, List.mem_filter, decide_eq_true_iff]

theorem nodup_remove {map : List (κ × β)} (nodup : (map.map Prod.fst).Nodup) (key : κ) :
    ((remove map key).map Prod.fst).Nodup :=
  nodup.sublist (List.filter_sublist.map Prod.fst)

theorem lookup_remove [BEq κ] [LawfulBEq κ] (map : List (κ × β)) (key other : κ) :
    (remove map key).lookup other = if other = key then none else map.lookup other := by
  induction map with
  | nil => simp [remove]
  | cons head rest ih =>
      rw [remove] at ih
      by_cases here : head.1 = key
      · rw [remove, List.filter_cons_of_neg (by simpa using here), ih, lookup_cons_ite]
        split
        next => rfl
        next apart => rw [if_neg fun same => apart (same.trans here)]
      · rw [remove, List.filter_cons_of_pos (by simpa using here), lookup_cons_ite, ih,
          lookup_cons_ite]
        by_cases same : other = head.1
        · rw [if_pos same, if_pos same, if_neg fun equal => here (same.symm.trans equal)]
        · rw [if_neg same, if_neg same]

end JouleDB
