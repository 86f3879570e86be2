import JouleDB.Lib.FiniteMap
import JouleDB.Lib.Replicas
import Mathlib.Data.Finset.Union

/-!
# The observed-remove set

Every add gives its element a new tag; a remove turns the tags that it knows of into tombstones.
An element is in the set while it has a tag.
-/

namespace JouleDB.Crdt

/-- A tag: the count of the adding node, and the node. -/
abbrev Tag := Nat × String

/-- An observed-remove set. -/
structure ORSet where
  entries : FiniteMap String (Finset Tag)
  tombstones : Finset Tag
  tagCounter : FiniteMap String Nat

namespace ORSet

/-- The empty set. -/
def new : ORSet := ⟨∅, ∅, ∅⟩

/-- The next tag of a node, and the counters after it was taken. -/
def nextTag (set : ORSet) (nodeId : String) : Nat × ORSet :=
  let count := set.tagCounter[nodeId]?.getD 0 + 1
  (count, { set with tagCounter := set.tagCounter.insert nodeId count })

/-- Add an element with a new tag. -/
def add (set : ORSet) (element nodeId : String) : ORSet :=
  let (tag, set) := set.nextTag nodeId
  { set with
    entries := set.entries.alter element fun tags => some (insert (tag, nodeId) (tags.getD ∅)) }

/-- Remove an element: all tags known for it become tombstones. -/
def remove (set : ORSet) (element : String) : ORSet :=
  match set.entries[element]? with
  | some tags =>
      { set with
        entries := set.entries.erase element
        tombstones := set.tombstones ∪ tags }
  | none => set

/-- The element is in the set. -/
def contains (set : ORSet) (element : String) : Bool :=
  (set.entries[element]?.map fun tags => decide (tags ≠ ∅)).getD false

/-- The elements of the set. -/
def elements (set : ORSet) : List String :=
  (set.entries.toList.filter fun entry => entry.2 ≠ ∅).map Prod.fst

/-- Merge another set: tags of both sides that are tombstones of neither. -/
def merge (set other : ORSet) : ORSet :=
  let tombstones := set.tombstones ∪ other.tombstones
  let entries := set.entries.absorb (fun known remote =>
    some (known.getD ∅ ∪ remote.filter fun tag => tag ∉ tombstones)) other.entries
  { entries := entries.map fun _ tags => tags.filter fun tag => tag ∉ tombstones
    tombstones := tombstones
    tagCounter := set.tagCounter.absorb (fun count other => some (max (count.getD 0) other))
      other.tagCounter }

section Tags

variable (set other : ORSet) (element : String)

/-- The tags of an element. -/
def tagsOf : Finset Tag := set.entries[element]?.getD ∅

/-- The number of tags that a node has taken. -/
def countOf (nodeId : String) : Nat := set.tagCounter[nodeId]?.getD 0

theorem contains_iff : set.contains element = true ↔ ∃ tag, tag ∈ set.tagsOf element := by
  rw [contains, tagsOf]
  cases set.entries[element]? with
  | none => simp
  | some tags => simp [← Finset.nonempty_iff_ne_empty, Finset.Nonempty]

theorem mem_elements_iff : element ∈ set.elements ↔ set.contains element = true := by
  rw [contains_iff, elements, tagsOf, List.mem_map]
  constructor
  · rintro ⟨entry, member, rfl⟩
    obtain ⟨listed, nonempty⟩ := List.mem_filter.mp member
    rw [Std.ExtTreeMap.mem_toList_iff_getElem?_eq_some.mp listed]
    exact Finset.nonempty_iff_ne_empty.mpr (of_decide_eq_true nonempty)
  · rintro ⟨tag, member⟩
    cases found : set.entries[element]? with
    | none => simp [found] at member
    | some tags =>
        refine ⟨(element, tags), List.mem_filter.mpr ⟨?_, ?_⟩, rfl⟩
        · exact Std.ExtTreeMap.mem_toList_iff_getElem?_eq_some.mpr found
        · rw [found] at member
          exact decide_eq_true (Finset.ne_empty_of_mem member)

theorem tagsOf_add (nodeId added : String) :
    (set.add added nodeId).tagsOf element =
      if element = added then insert (set.countOf nodeId + 1, nodeId) (set.tagsOf element)
      else set.tagsOf element := by
  by_cases same : element = added
  · subst same
    simp [add, nextTag, tagsOf, countOf]
  · have distinct : added ≠ element := fun equal => same equal.symm
    simp [add, nextTag, tagsOf, same, distinct, Std.ExtTreeMap.getElem?_alter]

theorem countOf_add (added nodeId other : String) :
    (set.add added nodeId).countOf other =
      if other = nodeId then set.countOf nodeId + 1 else set.countOf other := by
  by_cases same : other = nodeId
  · subst same
    simp [add, nextTag, countOf]
  · have distinct : nodeId ≠ other := fun equal => same equal.symm
    simp [add, nextTag, countOf, same, distinct, Std.ExtTreeMap.getElem?_insert]

theorem tagsOf_remove (removed : String) :
    (set.remove removed).tagsOf element =
      if element = removed then ∅ else set.tagsOf element := by
  rw [remove]
  by_cases same : element = removed
  · subst same
    rw [if_pos rfl]
    split
    · simp [tagsOf]
    next absent => simp [tagsOf, absent]
  · have distinct : removed ≠ element := fun equal => same equal.symm
    rw [if_neg same]
    split
    · simp [tagsOf, distinct, Std.ExtTreeMap.getElem?_erase]
    · rfl

theorem tombstones_remove :
    (set.remove element).tombstones = set.tombstones ∪ set.tagsOf element := by
  rw [remove, tagsOf]
  split
  next tags found => simp [found]
  next absent => simp [absent]

theorem countOf_remove (nodeId : String) : (set.remove element).countOf nodeId =
    set.countOf nodeId := by
  rw [remove]
  split <;> rfl

theorem tombstones_merge : (set.merge other).tombstones = set.tombstones ∪ other.tombstones := rfl

theorem tagsOf_merge :
    (set.merge other).tagsOf element = (set.tagsOf element ∪ other.tagsOf element).filter
      fun tag => tag ∉ set.tombstones ∪ other.tombstones := by
  rw [tagsOf, merge]
  dsimp only
  rw [Std.ExtTreeMap.getElem?_map, FiniteMap.getElem?_absorb, tagsOf, tagsOf]
  ext tag
  cases other.entries[element]? <;> cases set.entries[element]? <;> simp
  tauto

theorem countOf_merge (nodeId : String) :
    (set.merge other).countOf nodeId = max (set.countOf nodeId) (other.countOf nodeId) := by
  rw [countOf, merge]
  dsimp only
  rw [FiniteMap.getElem?_absorb, countOf, countOf]
  cases other.tagCounter[nodeId]? <;> simp

end Tags

section Laws

variable (first second third : ORSet) (element : String)

theorem tagsOf_merge_comm : (first.merge second).tagsOf element =
    (second.merge first).tagsOf element := by
  rw [tagsOf_merge, tagsOf_merge, Finset.union_comm (second.tagsOf element),
    Finset.union_comm second.tombstones]

theorem tagsOf_merge_assoc : ((first.merge second).merge third).tagsOf element =
    (first.merge (second.merge third)).tagsOf element := by
  ext tag
  simp only [tagsOf_merge, tombstones_merge, Finset.mem_filter, Finset.mem_union]
  tauto

end Laws

end ORSet

end JouleDB.Crdt
