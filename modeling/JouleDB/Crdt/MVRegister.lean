import JouleDB.Lib.Bytes
import JouleDB.Lib.FiniteMap
import JouleDB.Lib.Neighbours
import JouleDB.Lib.Replicas
import Mathlib.Order.Preorder.Finite

/-!
# The multi-value register

A register keeps the values of concurrent writes, each with a vector clock.  A merge keeps the
entries of both sides that no other one dominates, and then removes equal neighbours.
-/

namespace JouleDB.Crdt

/-- A vector clock. -/
abbrev Clock := FiniteMap String Nat

/-- A multi-value register. -/
structure MVRegister where
  entries : List (Bytes × Clock)
  deriving DecidableEq

namespace MVRegister

/-- The empty register. -/
def new : MVRegister := ⟨[]⟩

/-- The clock of the next write of a node: the largest count of every node, and one more of its
own. -/
def nextClock (register : MVRegister) (nodeId : String) : Clock :=
  let clock := register.entries.foldl (fun clock entry =>
    clock.absorb (fun count other => some (max (count.getD 0) other)) entry.2) (∅ : Clock)
  clock.alter nodeId fun count => some (count.getD 0 + 1)

/-- Write a value, in place of all current ones. -/
def set (register : MVRegister) (value : Bytes) (nodeId : String) : MVRegister :=
  ⟨[(value, register.nextClock nodeId)]⟩

/-- The current values. -/
def values (register : MVRegister) : List Bytes := register.entries.map Prod.fst

/-- A clock is ahead of another one somewhere and behind it nowhere. -/
def dominates (first second : Clock) : Bool :=
  first.toList.all (fun entry => second[entry.1]?.getD 0 ≤ entry.2) &&
    second.toList.all (fun entry => first.contains entry.1 || entry.2 ≤ 0) &&
    first.toList.any fun entry => second[entry.1]?.getD 0 < entry.2

/-- Merge another register: the entries that no other one dominates, without equal
neighbours. -/
def merge (register other : MVRegister) : MVRegister :=
  let combined := register.entries ++ other.entries
  let result := combined.zipIdx.filter fun entry =>
    !combined.zipIdx.any fun rival => entry.2 ≠ rival.2 && dominates rival.1.2 entry.1.2
  ⟨(result.map Prod.fst).destutter fun first second => first.2 ≠ second.2⟩

section Clocks

variable {first second : Clock}

/-- The count of a node. -/
def count (clock : Clock) (node : String) : Nat := clock[node]?.getD 0

theorem count_eq_of_mem {entry : String × Nat} (member : entry ∈ first.toList) :
    count first entry.1 = entry.2 := by
  rw [count, Std.ExtTreeMap.mem_toList_iff_getElem?_eq_some.mp member]
  rfl

theorem mem_of_count_pos {node : String} (positive : 0 < count first node) :
    (node, count first node) ∈ first.toList := by
  rw [Std.ExtTreeMap.mem_toList_iff_getElem?_eq_some]
  rw [count] at positive ⊢
  cases found : first[node]? with
  | none =>
      rw [found] at positive
      exact absurd positive (lt_irrefl 0)
  | some value => rfl

/-- Domination is the strict order of the counts. -/
theorem dominates_iff : dominates first second = true ↔ count second < count first := by
  rw [dominates, Bool.and_eq_true, Bool.and_eq_true, List.all_eq_true, List.all_eq_true,
    List.any_eq_true, Pi.lt_def]
  constructor
  · rintro ⟨⟨ahead, known⟩, entry, member, more⟩
    constructor
    · intro node
      cases found : first[node]? with
      | some value =>
          have noted := ahead _ (Std.ExtTreeMap.mem_toList_iff_getElem?_eq_some.mpr found)
          rw [count, count, found]
          exact of_decide_eq_true noted
      | none =>
          by_contra behind
          have there : 0 < count second node := (Nat.zero_le _).trans_lt (not_le.mp behind)
          have noted := known _ (mem_of_count_pos there)
          rw [Bool.or_eq_true, decide_eq_true_eq, ← Std.ExtTreeMap.isSome_getElem?_eq_contains,
            found] at noted
          exact noted.elim (by simp) (Nat.not_le.mpr there)
    · refine ⟨entry.1, ?_⟩
      rw [count_eq_of_mem member]
      exact of_decide_eq_true more
  · rintro ⟨ahead, node, more⟩
    refine ⟨⟨?_, ?_⟩, (node, count first node), mem_of_count_pos (by omega), ?_⟩
    · intro entry member
      rw [← count_eq_of_mem member]
      exact decide_eq_true (ahead entry.1)
    · intro entry member
      rw [Bool.or_eq_true, decide_eq_true_eq, ← count_eq_of_mem member]
      rcases Nat.eq_zero_or_pos (count second entry.1) with zero | positive
      · exact .inr (le_of_eq zero)
      · left
        have there := mem_of_count_pos (positive.trans_le (ahead entry.1))
        rw [← Std.ExtTreeMap.isSome_getElem?_eq_contains,
          Std.ExtTreeMap.mem_toList_iff_getElem?_eq_some.mp there]
        rfl
    · exact decide_eq_true more

theorem dominates_irrefl (clock : Clock) : dominates clock clock = false := by
  rw [← Bool.not_eq_true, dominates_iff]
  exact lt_irrefl _

/-- The largest count of a node in a register. -/
def largest (register : MVRegister) (node : String) : Nat :=
  (register.entries.map fun entry => count entry.2 node).foldl max 0

/-- Every count of the next clock is the largest one in the register, and one more for the node
itself. -/
theorem count_nextClock (register : MVRegister) (nodeId node : String) :
    count (register.nextClock nodeId) node =
      register.largest node + if node = nodeId then 1 else 0 := by
  have folded : ∀ (entries : List (Bytes × Clock)) (clock : Clock),
      count (entries.foldl (fun clock entry =>
        clock.absorb (fun count other => some (max (count.getD 0) other)) entry.2) clock) node =
        (entries.map fun entry => count entry.2 node).foldl max (count clock node) := by
    intro entries
    induction entries with
    | nil => exact fun _ => rfl
    | cons entry entries ih =>
        intro clock
        rw [List.foldl_cons, ih, List.map_cons, List.foldl_cons]
        congr 1
        rw [count, FiniteMap.getElem?_absorb, count, count]
        cases entry.2[node]? <;> simp
  have start : count (∅ : Clock) node = 0 := by simp [count]
  rw [largest, ← start, ← folded, nextClock]
  by_cases own : node = nodeId
  · subst own
    simp [count]
  · have apart : nodeId ≠ node := fun equal => own equal.symm
    simp [count, Std.ExtTreeMap.getElem?_alter, own, apart]

theorem largest_le_iff {register : MVRegister} {node : String} {bound : Nat} :
    register.largest node ≤ bound ↔ ∀ entry ∈ register.entries, count entry.2 node ≤ bound := by
  have folded : ∀ (counts : List Nat) (start : Nat),
      counts.foldl max start ≤ bound ↔ start ≤ bound ∧ ∀ count ∈ counts, count ≤ bound := by
    intro counts
    induction counts with
    | nil => simp
    | cons count counts ih =>
        intro start
        rw [List.foldl_cons, ih, max_le_iff, List.forall_mem_cons, and_assoc]
  rw [largest, folded, List.forall_mem_map]
  exact and_iff_right (Nat.zero_le bound)

end Clocks

section Merging

variable {register other : MVRegister}

/-- The entries of a register that survive a merge. -/
def survivors (register other : MVRegister) : List (Bytes × Clock) :=
  register.entries.filter fun entry =>
    !(register.entries ++ other.entries).any fun rival => dominates rival.2 entry.2

theorem merge_eq : register.merge other =
    ⟨(survivors register other ++ survivors other register).destutter
      fun first second => first.2 ≠ second.2⟩ := by
  have index : ∀ entry ∈ (register.entries ++ other.entries).zipIdx,
      (!(register.entries ++ other.entries).zipIdx.any fun rival =>
        entry.2 ≠ rival.2 && dominates rival.1.2 entry.1.2) =
      !(register.entries ++ other.entries).any fun rival => dominates rival.2 entry.1.2 := by
    intro entry member
    rw [List.mem_zipIdx_iff_getElem?] at member
    rw [Bool.not_eq_eq_eq_not, Bool.not_not, Bool.eq_iff_iff, List.any_eq_true, List.any_eq_true]
    constructor
    · rintro ⟨rival, found, beats⟩
      exact ⟨rival.1, List.fst_mem_of_mem_zipIdx found, (Bool.and_eq_true_iff.mp beats).2⟩
    · rintro ⟨rival, found, beats⟩
      obtain ⟨position, there⟩ := List.mem_iff_getElem?.mp found
      refine ⟨(rival, position), List.mk_mem_zipIdx_iff_getElem?.mpr there, ?_⟩
      rw [Bool.and_eq_true, decide_eq_true_eq]
      refine ⟨?_, beats⟩
      rintro rfl
      rw [member] at there
      cases there
      rw [dominates_irrefl] at beats
      exact absurd beats Bool.false_ne_true
  have rivals : ∀ entry : Bytes × Clock,
      ((other.entries ++ register.entries).any fun rival => dominates rival.2 entry.2) =
        (register.entries ++ other.entries).any fun rival => dominates rival.2 entry.2 := by
    intro entry
    rw [List.any_append, List.any_append, Bool.or_comm]
  simp only [merge, survivors, rivals]
  rw [List.filter_congr index, ← List.filter_append]
  congr 2
  rw [show (fun entry : (Bytes × Clock) × Nat =>
      !(register.entries ++ other.entries).any fun rival => dominates rival.2 entry.1.2) =
    (fun entry => !(register.entries ++ other.entries).any fun rival =>
      dominates rival.2 entry.2) ∘ Prod.fst from rfl, ← List.filter_map, List.zipIdx_map_fst]

/-- No entry of a list dominates the given one. -/
def Undominated (entries : List (Bytes × Clock)) (entry : Bytes × Clock) : Prop :=
  ∀ rival ∈ entries, dominates rival.2 entry.2 = false

/-- The clock of an entry determines the entry. -/
def Functional (entries : List (Bytes × Clock)) : Prop :=
  ∀ first ∈ entries, ∀ second ∈ entries, first.2 = second.2 → first = second

/-- Equal clocks stand together among the surviving entries of the two registers. -/
def Aligned (register other : MVRegister) : Prop :=
  Grouped ((survivors register other ++ survivors other register).map Prod.snd)

instance : Decidable (Aligned register other) :=
  inferInstanceAs (Decidable (Grouped _))

theorem mem_survivors_iff {entry : Bytes × Clock} :
    entry ∈ survivors register other ↔
      entry ∈ register.entries ∧ Undominated (register.entries ++ other.entries) entry := by
  rw [survivors, List.mem_filter, Bool.not_eq_true', ← Bool.not_eq_true, List.any_eq_true]
  simp [Undominated]

theorem mem_survivors_append_iff {entry : Bytes × Clock} :
    entry ∈ survivors register other ++ survivors other register ↔
      entry ∈ register.entries ++ other.entries ∧
        Undominated (register.entries ++ other.entries) entry := by
  have swapped : Undominated (other.entries ++ register.entries) entry ↔
      Undominated (register.entries ++ other.entries) entry := by
    simp only [Undominated, List.mem_append, or_comm]
  rw [List.mem_append, mem_survivors_iff, mem_survivors_iff, swapped, ← or_and_right,
    List.mem_append]

/-- A merge keeps the entries that no other one dominates. -/
theorem mem_merge_iff (functional : Functional (register.entries ++ other.entries))
    {entry : Bytes × Clock} :
    entry ∈ (register.merge other).entries ↔
      entry ∈ register.entries ++ other.entries ∧
        Undominated (register.entries ++ other.entries) entry := by
  have identified : (survivors register other ++ survivors other register).destutter
      (fun first second => first.2 ≠ second.2) =
      (survivors register other ++ survivors other register).destutter (· ≠ ·) := by
    have mapped : ((survivors register other ++ survivors other register).destutter
        (fun first second => first.2 ≠ second.2)).map id =
        ((survivors register other ++ survivors other register).map id).destutter (· ≠ ·) := by
      apply List.map_destutter
      intro first member second alsoMember
      refine not_congr ⟨?_, congrArg Prod.snd⟩
      exact functional first (mem_survivors_append_iff.mp member).1 second
        (mem_survivors_append_iff.mp alsoMember).1
    simpa only [List.map_id] using mapped
  rw [merge_eq]
  dsimp only
  rw [identified, mem_destutter_ne, mem_survivors_append_iff]

theorem clocks_merge : (register.merge other).entries.map Prod.snd =
    ((survivors register other ++ survivors other register).map Prod.snd).destutter (· ≠ ·) := by
  rw [merge_eq]
  exact List.map_destutter fun _ _ _ _ => Iff.rfl

/-- A merge leaves every clock once exactly if equal clocks stand together. -/
theorem nodup_clocks_merge_iff :
    ((register.merge other).entries.map Prod.snd).Nodup ↔ Aligned register other := by
  rw [clocks_merge, nodup_destutter_iff, Aligned]

/-- Every entry is at most as large as an undominated one. -/
theorem exists_undominated {entries : List (Bytes × Clock)} {entry : Bytes × Clock}
    (member : entry ∈ entries) :
    ∃ top ∈ entries, Undominated entries top ∧ count entry.2 ≤ count top.2 := by
  classical
  obtain ⟨bound, above, ⟨there, maximal⟩⟩ :=
    (entries.map fun entry => count entry.2).toFinset.exists_le_maximal
      (List.mem_toFinset.mpr (List.mem_map_of_mem member))
  obtain ⟨top, found, rfl⟩ := List.mem_map.mp (List.mem_toFinset.mp there)
  refine ⟨top, found, ?_, above⟩
  intro rival other
  rw [← Bool.not_eq_true, dominates_iff]
  intro less
  exact less.not_ge (maximal (List.mem_toFinset.mpr (List.mem_map_of_mem other)) less.le)

/-- A dominated entry is dominated by an undominated one. -/
theorem undominated_iff_of_subset {entries part : List (Bytes × Clock)}
    {entry : Bytes × Clock} (inside : part ⊆ entries)
    (tops : ∀ top ∈ entries, Undominated entries top → top ∈ part) :
    Undominated part entry ↔ Undominated entries entry := by
  refine ⟨?_, fun undominated rival member => undominated rival (inside member)⟩
  intro undominated rival member
  obtain ⟨top, found, best, above⟩ := exists_undominated member
  have beaten := undominated top (tops top found best)
  rw [← Bool.not_eq_true, dominates_iff] at beaten ⊢
  exact fun less => beaten (less.trans_le above)

end Merging

section Laws

variable {first second third : MVRegister}

theorem merge_subset : (first.merge second).entries ⊆ first.entries ++ second.entries := by
  rw [merge_eq]
  intro entry member
  exact (mem_survivors_append_iff.mp ((List.destutter_sublist _ _).subset member)).1

/-- Every entry of a merged register is at most as large as one of the result. -/
theorem exists_le_merge (functional : Functional (first.entries ++ second.entries))
    {entry : Bytes × Clock} (member : entry ∈ first.entries ++ second.entries) :
    ∃ top ∈ (first.merge second).entries, count entry.2 ≤ count top.2 := by
  obtain ⟨top, found, best, above⟩ := exists_undominated member
  exact ⟨top, (mem_merge_iff functional).mpr ⟨found, best⟩, above⟩

theorem mem_merge_comm (functional : Functional (first.entries ++ second.entries))
    {entry : Bytes × Clock} :
    entry ∈ (first.merge second).entries ↔ entry ∈ (second.merge first).entries := by
  have swapped : Functional (second.entries ++ first.entries) := by
    simpa only [Functional, List.mem_append, or_comm] using functional
  rw [mem_merge_iff functional, mem_merge_iff swapped]
  simp only [Undominated, List.mem_append, or_comm]

/-- Two merges keep the entries that none of the three registers dominates. -/
theorem mem_merge_merge_iff
    (functional : Functional (first.entries ++ second.entries ++ third.entries))
    {entry : Bytes × Clock} :
    entry ∈ ((first.merge second).merge third).entries ↔
      entry ∈ first.entries ++ second.entries ++ third.entries ∧
        Undominated (first.entries ++ second.entries ++ third.entries) entry := by
  have inner : Functional (first.entries ++ second.entries) :=
    fun one member two alsoMember =>
      functional one (List.mem_append_left _ member) two (List.mem_append_left _ alsoMember)
  have inside : (first.merge second).entries ++ third.entries ⊆
      first.entries ++ second.entries ++ third.entries := by
    apply List.append_subset.mpr
    exact ⟨fun _ member => List.mem_append_left _ (merge_subset member),
      List.subset_append_right _ _⟩
  have outer : Functional ((first.merge second).entries ++ third.entries) :=
    fun one member two alsoMember => functional one (inside member) two (inside alsoMember)
  have tops : ∀ top ∈ first.entries ++ second.entries ++ third.entries,
      Undominated (first.entries ++ second.entries ++ third.entries) top →
      top ∈ (first.merge second).entries ++ third.entries := by
    intro top member best
    rcases List.mem_append.mp member with early | late
    · apply List.mem_append_left
      rw [mem_merge_iff inner]
      exact ⟨early, fun rival other => best rival (List.mem_append_left _ other)⟩
    · exact List.mem_append_right _ late
  rw [mem_merge_iff outer, undominated_iff_of_subset inside tops]
  exact ⟨fun ⟨member, best⟩ => ⟨inside member, best⟩,
    fun ⟨member, best⟩ => ⟨tops entry member best, best⟩⟩

end Laws

end MVRegister

end JouleDB.Crdt
