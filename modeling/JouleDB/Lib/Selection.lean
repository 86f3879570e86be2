import Mathlib.Data.List.Nodup
import Mathlib.Data.List.Perm.Subperm

/-!
# Sorting and selecting by a comparison

The first elements of a sorted list can be found without sorting all of it: elements are only
dropped that have enough smaller ones.  This needs a comparison that is a total order; the
selection itself may leave the elements in any order on both sides of its pivot.
-/

namespace JouleDB

variable {α : Type} {cmp : α → α → Ordering}

/-- Ties of one order are broken by another one. -/
theorem transCmp_then {first second : α → α → Ordering} (isTrans : Std.TransCmp first)
    (isTrans' : Std.TransCmp second) :
    Std.TransCmp fun a b => (first a b).then (second a b) where
  eq_swap := by
    intro a b
    rw [Ordering.swap_then, ← isTrans.eq_swap, ← isTrans'.eq_swap]
  isLE_trans := by
    intro a b c
    simp only [Ordering.isLE_then_iff_or]
    rintro (less | ⟨same, tie⟩) (less' | ⟨same', tie'⟩)
    · exact .inl (Std.TransCmp.lt_trans less less')
    · exact .inl (Std.TransCmp.lt_of_lt_of_eq less same')
    · exact .inl (Std.TransCmp.lt_of_eq_of_lt same less')
    · exact .inr ⟨Std.TransCmp.eq_trans same same', isTrans'.isLE_trans tie tie'⟩

theorem transCmp_comap {β : Type} (isTrans : Std.TransCmp cmp) (f : β → α) :
    Std.TransCmp fun a b => cmp (f a) (f b) where
  eq_swap := isTrans.eq_swap
  isLE_trans := isTrans.isLE_trans

/-- Compare in either direction, with the missing values at one end. -/
def compareOptions (cmp : α → α → Ordering) (nullsFirst descending : Bool) :
    Option α → Option α → Ordering
  | none, none => .eq
  | none, some _ => if nullsFirst then .lt else .gt
  | some _, none => if nullsFirst then .gt else .lt
  | some first, some second =>
      if descending then (cmp first second).swap else cmp first second

theorem transCmp_compareOptions (isTrans : Std.TransCmp cmp) (nullsFirst descending : Bool) :
    Std.TransCmp (compareOptions cmp nullsFirst descending) where
  eq_swap := by
    intro a b
    cases a with
    | none => cases b <;> cases nullsFirst <;> rfl
    | some a =>
        cases b with
        | none => cases nullsFirst <;> rfl
        | some b =>
            cases descending with
            | false => exact isTrans.eq_swap
            | true => exact congrArg Ordering.swap isTrans.eq_swap
  isLE_trans := by
    intro a b c
    cases a with
    | none =>
        cases b <;> cases c <;> cases nullsFirst <;> simp [compareOptions]
    | some a =>
        cases b with
        | none => cases c <;> cases nullsFirst <;> simp [compareOptions]
        | some b =>
            cases c with
            | none => cases nullsFirst <;> simp [compareOptions]
            | some c =>
                cases descending with
                | false => exact isTrans.isLE_trans
                | true =>
                    simp only [compareOptions, if_true, ← isTrans.eq_swap]
                    exact fun below below' => isTrans.isLE_trans below' below

/-- Sort by a comparison. -/
def sortUnstableBy (cmp : α → α → Ordering) (items : List α) : List α :=
  items.mergeSort fun first second => (cmp first second).isLE

theorem sortUnstableBy_perm (cmp : α → α → Ordering) (items : List α) :
    (sortUnstableBy cmp items).Perm items :=
  List.mergeSort_perm items _

theorem sortUnstableBy_isLE [Std.TransCmp cmp] (items : List α) :
    (sortUnstableBy cmp items).Pairwise fun first second => (cmp first second).isLE = true :=
  List.pairwise_mergeSort (fun _ _ _ => Std.TransCmp.isLE_trans)
    (fun first second => by
      rw [@Std.OrientedCmp.eq_swap _ cmp _ second first, Ordering.isLE_swap]
      cases cmp first second <;> rfl) items

theorem sortUnstableBy_pairwise [Std.TransCmp cmp] [Std.LawfulEqCmp cmp] {items : List α}
    (distinct : items.Nodup) : (sortUnstableBy cmp items).Pairwise fun first second =>
      cmp first second = .lt := by
  have apart : (sortUnstableBy cmp items).Nodup :=
    (sortUnstableBy_perm cmp items).nodup_iff.mpr distinct
  refine ((sortUnstableBy_isLE items).and apart).imp fun {first second} ⟨below, apart⟩ => ?_
  cases order : cmp first second with
  | lt => rfl
  | eq => exact absurd (Std.LawfulEqCmp.compare_eq_iff_eq.mp order) apart
  | gt =>
      rw [order] at below
      cases below

/-- A way to move the element of an index to its sorted place, with no larger elements in front of it
and no smaller ones behind. -/
structure Selection (α : Type) where
  selectNth : (α → α → Ordering) → Nat → List α → List α
  perm : ∀ cmp index items, (selectNth cmp index items).Perm items
  split : ∀ cmp index items, Std.TransCmp cmp → ∀ pivot,
    (selectNth cmp index items)[index]? = some pivot →
      (∀ item ∈ (selectNth cmp index items).take index, (cmp item pivot).isLE) ∧
      ∀ item ∈ (selectNth cmp index items).drop (index + 1), (cmp pivot item).isLE

namespace Selection

/-- Keep the smallest elements, when there are more. -/
def truncate (selection : Selection α) (cmp : α → α → Ordering) (count : Nat) (items : List α) :
    List α :=
  if count < items.length then (selection.selectNth cmp (count - 1) items).take count else items

theorem truncate_subset (selection : Selection α) (count : Nat) (items : List α) :
    selection.truncate cmp count items ⊆ items := by
  unfold truncate
  split
  · intro item member
    exact (selection.perm _ _ _).subset (List.mem_of_mem_take member)
  · exact fun item member => member

theorem truncate_nodup (selection : Selection α) (count : Nat) {items : List α}
    (distinct : items.Nodup) : (selection.truncate cmp count items).Nodup := by
  unfold truncate
  split
  · exact ((selection.perm _ _ _).nodup_iff.mpr distinct).sublist (List.take_sublist _ _)
  · exact distinct

end Selection

/-- Fewer elements are below one of the first elements. -/
theorem length_lt_of_below [Std.TransCmp cmp] {sorted : List α}
    (increasing : sorted.Pairwise fun first second => cmp first second = .lt) {count : Nat}
    {item : α} (early : item ∈ sorted.take count) {smaller : List α} (distinct : smaller.Nodup)
    (inside : smaller ⊆ sorted) (below : ∀ other ∈ smaller, cmp other item = .lt) :
    smaller.length < count := by
  have notSelf : item ∉ smaller := by
    intro member
    have less := below item member
    rw [@Std.ReflCmp.cmp_eq_of_eq _ cmp _ item item rfl] at less
    cases less
  have subset : item :: smaller ⊆ sorted.take count := by
    refine List.cons_subset.mpr ⟨early, fun other member => ?_⟩
    have inSorted := inside member
    rw [← List.take_append_drop count sorted] at inSorted increasing
    rcases List.mem_append.mp inSorted with front | back
    · exact front
    · have above := (List.pairwise_append.mp increasing).2.2 item early other back
      exact absurd (below other member) (Std.OrientedCmp.not_lt_of_lt above)
  have counted := (List.subperm_of_subset (List.nodup_cons.mpr ⟨notSelf, distinct⟩) subset).length_le
  exact Nat.le_trans counted (List.length_take_le _ _)

/-- Truncation drops none of the first elements of all. -/
theorem Selection.mem_truncate [Std.TransCmp cmp] [Std.LawfulEqCmp cmp] (selection : Selection α)
    {sorted : List α} (increasing : sorted.Pairwise fun first second => cmp first second = .lt)
    {count : Nat} (positive : 0 < count) {items : List α} (distinct : items.Nodup)
    (inside : items ⊆ sorted) {item : α} (early : item ∈ sorted.take count)
    (member : item ∈ items) : item ∈ selection.truncate cmp count items := by
  unfold truncate
  split
  next more =>
    have perm := selection.perm cmp (count - 1) items
    have split := selection.split cmp (count - 1) items inferInstance
    have apart := perm.nodup_iff.mpr distinct
    have length := perm.length_eq
    have subset : selection.selectNth cmp (count - 1) items ⊆ sorted :=
      fun _ member => inside (perm.subset member)
    have member := perm.mem_iff.mpr member
    revert split apart length subset member
    generalize selection.selectNth cmp (count - 1) items = selected
    intro split apart length subset member
    by_contra late
    have behind : item ∈ selected.drop count := by
      rw [← List.take_append_drop count selected] at member
      exact (List.mem_append.mp member).resolve_left late
    obtain ⟨index, rfl⟩ : ∃ index, count = index + 1 :=
      ⟨count - 1, (Nat.succ_pred_eq_of_pos positive).symm⟩
    have within : index < selected.length := by omega
    obtain ⟨front, back⟩ := split _ (List.getElem?_eq_getElem within)
    have above := back item behind
    have below : ∀ other ∈ selected.take (index + 1), cmp other item = .lt := by
      intro other isFront
      have notAbove : (cmp other selected[index]).isLE := by
        rw [List.take_succ_eq_append_getElem within] at isFront
        rcases List.mem_append.mp isFront with before | isPivot
        · exact front other before
        · rw [List.mem_singleton.mp isPivot]
          exact Std.ReflCmp.isLE_rfl
      have order := Std.TransCmp.isLE_trans notAbove above
      cases found : cmp other item with
      | lt => rfl
      | eq =>
          have same := Std.LawfulEqCmp.compare_eq_iff_eq.mp found
          exact absurd (same ▸ isFront) late
      | gt =>
          rw [found] at order
          cases order
    have fewer := length_lt_of_below increasing early (apart.sublist (List.take_sublist _ _))
      (fun other isFront => subset (List.mem_of_mem_take isFront)) below
    rw [List.length_take] at fewer
    omega
  next => exact member

/-- Truncation part by part drops none of the first elements of all. -/
theorem Selection.mem_flatMap_truncate [Std.TransCmp cmp] [Std.LawfulEqCmp cmp]
    (selection : Selection α) {sorted : List α}
    (increasing : sorted.Pairwise fun first second => cmp first second = .lt) {count : Nat}
    (positive : 0 < count) {parts : List (List α)} (distinct : parts.flatten.Nodup)
    (inside : parts.flatten ⊆ sorted) {item : α} (early : item ∈ sorted.take count)
    (member : item ∈ parts.flatten) : item ∈ parts.flatMap (selection.truncate cmp count) := by
  obtain ⟨part, isPart, member⟩ := List.mem_flatten.mp member
  have inPart : part ⊆ parts.flatten := fun other found =>
    List.mem_flatten.mpr ⟨part, isPart, found⟩
  exact List.mem_flatMap.mpr ⟨part, isPart, selection.mem_truncate increasing positive
    ((List.nodup_flatten.mp distinct).1 part isPart) (fun _ found => inside (inPart found)) early
    member⟩

theorem Selection.flatMap_truncate_subset (selection : Selection α) (count : Nat)
    (parts : List (List α)) :
    parts.flatMap (selection.truncate cmp count) ⊆ parts.flatten := by
  intro item member
  obtain ⟨part, isPart, member⟩ := List.mem_flatMap.mp member
  exact List.mem_flatten.mpr ⟨part, isPart, selection.truncate_subset count part member⟩

theorem Selection.flatMap_truncate_nodup (selection : Selection α) (count : Nat)
    {parts : List (List α)} (distinct : parts.flatten.Nodup) :
    (parts.flatMap (selection.truncate cmp count)).Nodup := by
  obtain ⟨each, apart⟩ := List.nodup_flatten.mp distinct
  refine List.nodup_flatMap.mpr
    ⟨fun part isPart => selection.truncate_nodup count (each part isPart),
      apart.imp fun {first second} disjoint => ?_⟩
  intro item inFirst inSecond
  exact disjoint (selection.truncate_subset count first inFirst)
    (selection.truncate_subset count second inSecond)

/-- Two sorted lists have the same first elements when one has the first elements of the other, and
no elements that the other does not have. -/
theorem take_eq_take_of_subset [Std.TransCmp cmp] {sorted part : List α}
    (increasing : sorted.Pairwise fun first second => cmp first second = .lt)
    (increasing' : part.Pairwise fun first second => cmp first second = .lt) {count : Nat}
    (inside : part ⊆ sorted) (early : sorted.take count ⊆ part) :
    part.take count = sorted.take count := by
  induction sorted generalizing part count with
  | nil => rw [List.eq_nil_of_subset_nil inside]
  | cons first rest ih =>
      cases count with
      | zero => rfl
      | succ count =>
          obtain ⟨above, restIncreasing⟩ := List.pairwise_cons.mp increasing
          have hasFirst : first ∈ part := early List.mem_cons_self
          cases part with
          | nil => cases hasFirst
          | cons other others =>
              obtain ⟨above', othersIncreasing⟩ := List.pairwise_cons.mp increasing'
              have same : other = first := by
                rcases List.mem_cons.mp hasFirst with same | later
                · exact same.symm
                · rcases List.mem_cons.mp (inside List.mem_cons_self) with same | behind
                  · exact same
                  · exact absurd (above' first later)
                      (Std.OrientedCmp.not_lt_of_lt (above other behind))
              subst same
              have notSelf : ∀ item, cmp other item = .lt → item ≠ other := by
                rintro item less rfl
                exact absurd less (Std.OrientedCmp.not_lt_of_lt less)
              rw [List.take_succ_cons, List.take_succ_cons, ih restIncreasing othersIncreasing]
              · exact fun item member =>
                  (List.mem_cons.mp (inside (List.mem_cons_of_mem _ member))).resolve_left
                    (notSelf item (above' item member))
              · exact fun item member =>
                  (List.mem_cons.mp (early (List.mem_cons_of_mem _ member))).resolve_left
                    (notSelf item (above item (List.mem_of_mem_take member)))

/-- Sorting what has the first elements of all gives the first elements. -/
theorem take_sortUnstableBy [Std.TransCmp cmp] [Std.LawfulEqCmp cmp] {items part : List α}
    (distinct : items.Nodup) (distinct' : part.Nodup) {count : Nat} (inside : part ⊆ items)
    (early : (sortUnstableBy cmp items).take count ⊆ part) :
    (sortUnstableBy cmp part).take count = (sortUnstableBy cmp items).take count := by
  refine take_eq_take_of_subset (sortUnstableBy_pairwise distinct)
    (sortUnstableBy_pairwise distinct') ?_ ?_
  · exact fun item member => (sortUnstableBy_perm cmp items).mem_iff.mpr
      (inside ((sortUnstableBy_perm cmp part).subset member))
  · exact fun item member => (sortUnstableBy_perm cmp part).mem_iff.mpr (early member)

/-- Two comparisons that agree on the elements sort them in the same way. -/
theorem sortUnstableBy_congr {other : α → α → Ordering} [Std.TransCmp cmp] [Std.LawfulEqCmp cmp]
    [Std.TransCmp other] [Std.LawfulEqCmp other] {items : List α} (distinct : items.Nodup)
    (agree : ∀ first ∈ items, ∀ second ∈ items, cmp first second = other first second) :
    sortUnstableBy cmp items = sortUnstableBy other items := by
  have perm := sortUnstableBy_perm other items
  have sorted' : (sortUnstableBy other items).Pairwise fun first second =>
      cmp first second = .lt := by
    refine (sortUnstableBy_pairwise distinct).imp_of_mem
      fun {first second} isFirst isSecond less => ?_
    rw [agree first (perm.subset isFirst) second (perm.subset isSecond)]
    exact less
  refine List.Perm.eq_of_pairwise (fun first second _ _ less greater => ?_)
    (sortUnstableBy_pairwise distinct) sorted' ((sortUnstableBy_perm cmp items).trans perm.symm)
  exact absurd greater (Std.OrientedCmp.not_lt_of_lt less)

/-- Selecting by sorting. -/
def Selection.sorting : Selection α where
  selectNth cmp _ items := sortUnstableBy cmp items
  perm cmp _ items := sortUnstableBy_perm cmp items
  split := by
    intro cmp index items isTrans pivot isPivot
    have sorted := @sortUnstableBy_isLE _ cmp isTrans items
    obtain ⟨within, rfl⟩ := List.getElem?_eq_some_iff.mp isPivot
    rw [← List.take_append_drop index (sortUnstableBy cmp items),
      List.drop_eq_getElem_cons within] at sorted
    obtain ⟨-, behind, front⟩ := List.pairwise_append.mp sorted
    exact ⟨fun item before => front item before _ List.mem_cons_self,
      (List.pairwise_cons.mp behind).1⟩

end JouleDB
