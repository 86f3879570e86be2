import JouleDB.Crdt.MVRegister

/-!
# Replicas of a multi-value register

The entries of every reachable register come from writes with different clocks, and none dominates
another.  A merge keeps the undominated entries, but leaves one of each clock only if equal clocks
stand together.
-/

namespace JouleDB.Crdt

namespace MVRegister

variable {ι : Type}

/-- Replicas of a register, each writing under its own node id. -/
def replicated (nodeId : ι → String) : Replicated ι MVRegister Bytes where
  initial := .new
  update := fun id value register => register.set value (nodeId id)
  merge := merge

section Events

variable (nodeId : ι → String) (events : List (Executed ι MVRegister Bytes))

/-- The entry of a write. -/
def written (event : Executed ι MVRegister Bytes) : Bytes × Clock :=
  (event.operation, event.before.state.nextClock (nodeId event.replica))

/-- Different writes have different clocks. -/
def Fine : Prop := Functional (events.map (written nodeId))

/-- The entries of a register come from writes, none dominates another, and neighbours have
different clocks. -/
structure Good (replica : Replica MVRegister) : Prop where
  sources : replica.state.entries ⊆ events.map (written nodeId)
  undominated : ∀ entry ∈ replica.state.entries, Undominated replica.state.entries entry
  apart : (replica.state.entries.map Prod.snd).IsChain (· ≠ ·)

/-- A replica knows of all its own writes. -/
def Own (id : ι) (replica : Replica MVRegister) : Prop :=
  ∀ entry ∈ events.map (written nodeId),
    count entry.2 (nodeId id) ≤ replica.state.largest (nodeId id)

end Events

section Steps

variable {nodeId : ι → String} {events : List (Executed ι MVRegister Bytes)}
  {replica other : Replica MVRegister} {id : ι}

theorem count_le_largest {register : MVRegister} {entry : Bytes × Clock} {node : String}
    (member : entry ∈ register.entries) : count entry.2 node ≤ register.largest node :=
  largest_le_iff.mp le_rfl entry member

/-- The entries of two registers have different clocks, as those of all writes have. -/
theorem Good.functional (good : Good nodeId events replica) (goodOther : Good nodeId events other)
    (fine : Fine nodeId events) : Functional (replica.state.entries ++ other.state.entries) := by
  have inside : replica.state.entries ++ other.state.entries ⊆ events.map (written nodeId) :=
    List.append_subset.mpr ⟨good.sources, goodOther.sources⟩
  exact fun first member second alsoMember => fine first (inside member) second (inside alsoMember)

theorem Good.merge (good : Good nodeId events replica) (goodOther : Good nodeId events other)
    (fine : Fine nodeId events) :
    Good nodeId events
      ⟨replica.state.merge other.state, replica.observed ∪ other.observed⟩ := by
  refine ⟨?_, ?_, ?_⟩
  · intro entry member
    rcases List.mem_append.mp (merge_subset member) with here | there
    · exact good.sources here
    · exact goodOther.sources there
  · intro entry member rival alsoMember
    have best := ((mem_merge_iff (good.functional goodOther fine)).mp member).2
    exact best rival (merge_subset alsoMember)
  · dsimp only
    rw [clocks_merge]
    exact List.isChain_destutter _ _

theorem Good.largest_le_merge (good : Good nodeId events replica)
    (goodOther : Good nodeId events other) (fine : Fine nodeId events) (node : String) :
    replica.state.largest node ≤ (replica.state.merge other.state).largest node := by
  rw [largest_le_iff]
  intro entry member
  obtain ⟨top, found, above⟩ :=
    exists_le_merge (good.functional goodOther fine) (List.mem_append_left _ member)
  exact (above node).trans (count_le_largest found)

theorem largest_set (register : MVRegister) (value : Bytes) (nodeId : String) :
    (register.set value nodeId).largest nodeId = register.largest nodeId + 1 := by
  have counted := register.count_nextClock nodeId nodeId
  rw [if_pos rfl] at counted
  simp [largest, set, counted]

/-- A step keeps the clocks different and the entries undominated. -/
theorem kept (distinct : Function.Injective nodeId) :
    Network.Kept (replicated nodeId) .none (Fine nodeId) (Good nodeId) (Own nodeId) := by
  constructor
  · exact fun first member => absurd member List.not_mem_nil
  · refine ⟨List.nil_subset _, ?_, List.isChain_nil⟩
    exact fun entry member => absurd member List.not_mem_nil
  · exact fun id entry member => absurd member List.not_mem_nil
  · intro events event replica good
    refine ⟨?_, good.undominated, good.apart⟩
    rw [List.map_append]
    exact fun entry member => List.mem_append_left _ (good.sources member)
  · intro events event id replica apart goodBefore own entry member
    rw [List.map_append, List.mem_append] at member
    rcases member with old | new
    · exact own entry old
    · have noted : entry = written nodeId event := List.mem_singleton.mp new
      have foreign : nodeId id ≠ nodeId event.replica := fun same => apart (distinct same).symm
      rw [noted, written, count_nextClock, if_neg foreign, Nat.add_zero, largest_le_iff]
      exact fun earlier known => own earlier (goodBefore.sources known)
  · intro events id replica value fine good own _
    have fresh : ∀ entry ∈ events.map (written nodeId),
        entry.2 ≠ replica.state.nextClock (nodeId id) := by
      intro entry member same
      have bound := own entry member
      rw [same, count_nextClock, if_pos rfl] at bound
      exact Nat.not_succ_le_self _ bound
    refine ⟨?_, ?_, ?_⟩
    · intro first member second alsoMember same
      rw [List.map_append, List.mem_append] at member alsoMember
      rcases member with old | new
      · rcases alsoMember with alsoOld | alsoNew
        · exact fine first old second alsoOld same
        · rw [List.mem_singleton.mp alsoNew] at same
          exact absurd same (fresh first old)
      · rcases alsoMember with old | alsoNew
        · rw [List.mem_singleton.mp new] at same
          exact absurd same.symm (fresh second old)
        · exact (List.mem_singleton.mp new).trans (List.mem_singleton.mp alsoNew).symm
    · refine ⟨?_, ?_, List.isChain_singleton _⟩
      · intro entry member
        rw [List.map_append]
        exact List.mem_append_right _ member
      · intro entry member rival alsoMember
        rw [List.mem_singleton.mp member, List.mem_singleton.mp alsoMember]
        exact dominates_irrefl _
    · intro entry member
      have counted : ((replicated nodeId).update id value replica.state).largest (nodeId id) =
          replica.state.largest (nodeId id) + 1 := largest_set _ _ _
      rw [List.map_append, List.mem_append] at member
      dsimp only
      rw [counted]
      rcases member with old | new
      · exact (own entry old).trans (Nat.le_succ _)
      · rw [List.mem_singleton.mp new, written, count_nextClock, if_pos rfl]
  · intro events id replica other fine good goodOther own _
    refine ⟨good.merge goodOther fine, ?_⟩
    intro entry member
    exact (own entry member).trans (good.largest_le_merge goodOther fine _)

end Steps

section Runs

/-- What a merge has to do: leave no entry dominated and no clock twice, and keep the entries that
no other one dominates. -/
structure Joins (register other : MVRegister) : Prop where
  undominated : ∀ entry ∈ (register.merge other).entries,
    Undominated (register.merge other).entries entry
  distinct : ((register.merge other).entries.map Prod.snd).Nodup
  kept : ∀ entry ∈ register.entries ++ other.entries,
    Undominated (register.entries ++ other.entries) entry → entry ∈ (register.merge other).entries

/-- The merges in the laws for three registers, each with its two sides. -/
def mergesOf (first second third : MVRegister) : List (MVRegister × MVRegister) :=
  [(first, first), (first, second), (second, first), (second, third),
    (first.merge second, third), (first, second.merge third)]

/-- Merging is the join of a semilattice at three registers. -/
structure Semilattice (first second third : MVRegister) : Prop where
  idempotent : (first.merge first).values.Perm first.values
  commutative : (first.merge second).entries.Perm (second.merge first).entries
  associative : ((first.merge second).merge third).entries.Perm
    (first.merge (second.merge third)).entries
  joins : ∀ sides ∈ mergesOf first second third, Joins sides.1 sides.2

variable {nodeId : ι → String} {events : List (Executed ι MVRegister Bytes)}
  {one two three : Replica MVRegister}

theorem Good.joins (good : Good nodeId events one) (goodTwo : Good nodeId events two)
    (fine : Fine nodeId events) (aligned : Aligned one.state two.state) :
    Joins one.state two.state :=
  ⟨(good.merge goodTwo fine).undominated, nodup_clocks_merge_iff.mpr aligned,
    fun _ member best => (mem_merge_iff (good.functional goodTwo fine)).mpr ⟨member, best⟩⟩

/-- Registers with the same entries, each clock once, are equal up to order. -/
theorem perm_of_mem_iff {first second : List (Bytes × Clock)}
    (distinct : (first.map Prod.snd).Nodup) (alsoDistinct : (second.map Prod.snd).Nodup)
    (same : ∀ entry, entry ∈ first ↔ entry ∈ second) : first.Perm second :=
  (List.perm_ext_iff_of_nodup distinct.of_map alsoDistinct.of_map).mpr same

/-- A register that is aligned with itself has every clock once. -/
theorem Good.nodup_of_aligned (good : Good nodeId events one)
    (aligned : Aligned one.state one.state) : (one.state.entries.map Prod.snd).Nodup := by
  have all : survivors one.state one.state = one.state.entries := by
    rw [survivors, List.filter_eq_self]
    intro entry member
    rw [Bool.not_eq_true', ← Bool.not_eq_true, List.any_eq_true]
    rintro ⟨rival, found, beats⟩
    have best := good.undominated entry member rival ((List.mem_append.mp found).elim id id)
    rw [best] at beats
    exact absurd beats Bool.false_ne_true
  rw [Aligned, all, List.map_append] at aligned
  exact aligned.of_append.nodup good.apart

theorem Good.idempotent (good : Good nodeId events one) (fine : Fine nodeId events)
    (aligned : Aligned one.state one.state) :
    (one.state.merge one.state).values.Perm one.state.values := by
  apply List.Perm.map
  apply perm_of_mem_iff (nodup_clocks_merge_iff.mpr aligned) (good.nodup_of_aligned aligned)
  intro entry
  rw [mem_merge_iff (good.functional good fine)]
  constructor
  · exact fun ⟨member, _⟩ => (List.mem_append.mp member).elim id id
  · intro member
    refine ⟨List.mem_append_left _ member, ?_⟩
    exact fun rival found =>
      good.undominated entry member rival ((List.mem_append.mp found).elim id id)

theorem Good.associative (good : Good nodeId events one) (goodTwo : Good nodeId events two)
    (goodThree : Good nodeId events three) (fine : Fine nodeId events)
    (left : Aligned (one.state.merge two.state) three.state)
    (right : Aligned one.state (two.state.merge three.state)) :
    ((one.state.merge two.state).merge three.state).entries.Perm
      (one.state.merge (two.state.merge three.state)).entries := by
  have inside : one.state.entries ++ two.state.entries ++ three.state.entries ⊆
      events.map (written nodeId) := by
    rw [List.append_subset, List.append_subset]
    exact ⟨⟨good.sources, goodTwo.sources⟩, goodThree.sources⟩
  have functional : Functional
      (one.state.entries ++ two.state.entries ++ three.state.entries) :=
    fun first member second alsoMember =>
      fine first (inside member) second (inside alsoMember)
  have rotated : Functional
      (two.state.entries ++ three.state.entries ++ one.state.entries) := by
    simpa only [Functional, List.mem_append, or_assoc, or_comm, or_left_comm] using functional
  apply perm_of_mem_iff (nodup_clocks_merge_iff.mpr left) (nodup_clocks_merge_iff.mpr right)
  intro entry
  rw [mem_merge_merge_iff functional,
    mem_merge_comm (good.functional (goodTwo.merge goodThree fine) fine),
    mem_merge_merge_iff rotated]
  simp only [Undominated, List.mem_append, or_assoc, or_comm]

variable [DecidableEq ι]

/-- In every run of replicas with distinct node ids, for any three registers that replicas have
held: merging is a semilattice join there exactly if in each merge of the laws equal clocks stand
together among the surviving entries. -/
theorem semilattice_iff_aligned (nodeId : ι → String) (distinct : Function.Injective nodeId)
    (exchanges : List (Exchange ι Bytes)) (network : Network ι MVRegister Bytes)
    (reached : network = .run (replicated nodeId) exchanges) (first second third : Nat × ι) :
    let one := (network.snapshot first.1 first.2).state
    let two := (network.snapshot second.1 second.2).state
    let three := (network.snapshot third.1 third.2).state
    Semilattice one two three ↔ ∀ sides ∈ mergesOf one two three, Aligned sides.1 sides.2 := by
  subst reached
  intro one two three
  have holds := (kept distinct).holds_run (Network.meetsAll_none _ exchanges)
  have fine := holds.fine
  have good := holds.snapshot first.1 first.2
  have goodTwo := holds.snapshot second.1 second.2
  have goodThree := holds.snapshot third.1 third.2
  constructor
  · intro laws sides member
    exact nodup_clocks_merge_iff.mp (laws.joins sides member).distinct
  · intro aligned
    simp only [mergesOf, List.forall_mem_cons, List.not_mem_nil, false_implies, implies_true,
      and_true] at aligned
    obtain ⟨itself, forward, backward, inner, left, right⟩ := aligned
    refine ⟨good.idempotent fine itself, ?_, ?_, ?_⟩
    · apply perm_of_mem_iff (nodup_clocks_merge_iff.mpr forward)
        (nodup_clocks_merge_iff.mpr backward)
      exact fun entry => mem_merge_comm (good.functional goodTwo fine)
    · exact good.associative goodTwo goodThree fine left right
    · simp only [mergesOf, List.forall_mem_cons, List.not_mem_nil, false_implies, implies_true,
        and_true]
      exact ⟨good.joins good fine itself, good.joins goodTwo fine forward,
        goodTwo.joins good fine backward, goodTwo.joins goodThree fine inner,
        (good.merge goodTwo fine).joins goodThree fine left,
        good.joins (goodTwo.merge goodThree fine) fine right⟩

/-- Two replicas write concurrently, and one merges the other's register. -/
def concurrentWrites : List (Exchange Bool Bytes) :=
  [.update false [1], .update true [2], .merge false 2 true]

theorem semilattice_iff_aligned_concurrentWrites :
    let nodeId : Bool → String := fun id => if id then "n2" else "n1"
    let network := Network.run (replicated nodeId) concurrentWrites
    Semilattice (network.snapshot 1 false).state (network.snapshot 2 true).state
      (network.snapshot 2 true).state := by
  intro nodeId network
  apply (semilattice_iff_aligned nodeId (by decide) concurrentWrites network rfl (1, false)
    (2, true) (2, true)).mpr
  decide +kernel

/-- A register with two values, merged with itself, has four. -/
theorem values_merge_self_concurrentWrites :
    let nodeId : Bool → String := fun id => if id then "n2" else "n1"
    let register := ((Network.run (replicated nodeId) concurrentWrites).replicas false).state
    register.values = [[1], [2]] ∧ (register.merge register).values = [[1], [2], [1], [2]] ∧
      ¬(register.merge register).values.Perm register.values := by
  decide +kernel

end Runs

end MVRegister

end JouleDB.Crdt
