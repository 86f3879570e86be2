import JouleDB.Crdt.ORSet

/-!
# Replicas of an observed-remove set

What a replica holds depends only on the operations it has observed: an element has a tag for
each observed add of it that no observed remove has seen.
-/

namespace JouleDB.Crdt

namespace ORSet

/-- The operations. -/
inductive Operation where
  | add (element : String)
  | remove (element : String)
  deriving DecidableEq

variable {ι : Type}

/-- Replicas of a set, each adding under its own node id. -/
def replicated (nodeId : ι → String) : Replicated ι ORSet Operation where
  initial := .new
  update := fun id operation set =>
    match operation with
    | .add element => set.add element (nodeId id)
    | .remove element => set.remove element
  merge := merge

section Events

variable (nodeId : ι → String) (events : List (Executed ι ORSet Operation))

/-- The operation at a position adds the element. -/
def Adds (position : Nat) (element : String) : Prop :=
  ∃ event, events[position]? = some event ∧ event.operation = .add element

/-- The operation at a position removes the element, and has seen the operation at another
position. -/
def RemovesSeeing (position : Nat) (element : String) (seen : Nat) : Prop :=
  ∃ event, events[position]? = some event ∧ event.operation = .remove element ∧
    seen ∈ event.before.observed

/-- The operation at a position gives the element a tag. -/
def Tags (position : Nat) (element : String) (tag : Tag) : Prop :=
  ∃ event, events[position]? = some event ∧ event.operation = .add element ∧
    tag = (event.before.state.countOf (nodeId event.replica) + 1, nodeId event.replica)

/-- A tag is given once. -/
def Fine : Prop :=
  ∀ {first second one other tag}, Tags nodeId events first one tag →
    Tags nodeId events second other tag → first = second

/-- The state of a replica is determined by what it has observed. -/
structure Good (replica : Replica ORSet) : Prop where
  observed : ∀ position ∈ replica.observed, position < events.length
  seen : ∀ position ∈ replica.observed, ∀ element earlier,
    RemovesSeeing events position element earlier → earlier < events.length
  tags : ∀ element tag, tag ∈ replica.state.tagsOf element ↔ tag ∉ replica.state.tombstones ∧
    ∃ position ∈ replica.observed, Tags nodeId events position element tag
  tombstones : ∀ tag, tag ∈ replica.state.tombstones ↔ ∃ position ∈ replica.observed,
    ∃ element earlier, RemovesSeeing events position element earlier ∧
      Tags nodeId events earlier element tag
  counts : ∀ position ∈ replica.observed, ∀ element count node,
    Tags nodeId events position element (count, node) → count ≤ replica.state.countOf node

/-- No tag of a replica lies above its counter. -/
def Own (id : ι) (replica : Replica ORSet) : Prop :=
  ∀ position element count, Tags nodeId events position element (count, nodeId id) →
    count ≤ replica.state.countOf (nodeId id)

end Events

section Steps

variable {nodeId : ι → String} {events : List (Executed ι ORSet Operation)}
  {event : Executed ι ORSet Operation} {replica other : Replica ORSet} {id : ι} {position : Nat}
  {element : String} {tag : Tag}

theorem Adds.lt_length (adds : Adds events position element) : position < events.length := by
  obtain ⟨_, found, _⟩ := adds
  exact (List.getElem?_eq_some_iff.mp found).1

theorem RemovesSeeing.lt_length {earlier : Nat}
    (removes : RemovesSeeing events position element earlier) : position < events.length := by
  obtain ⟨_, found, _⟩ := removes
  exact (List.getElem?_eq_some_iff.mp found).1

theorem tags_concat_of_lt (inside : position < events.length) :
    Tags nodeId (events ++ [event]) position element tag ↔
      Tags nodeId events position element tag := by
  rw [Tags, Tags, List.getElem?_append_left inside]

theorem removesSeeing_concat_of_lt {earlier : Nat} (inside : position < events.length) :
    RemovesSeeing (events ++ [event]) position element earlier ↔
      RemovesSeeing events position element earlier := by
  rw [RemovesSeeing, RemovesSeeing, List.getElem?_append_left inside]

/-- A tag is that of the last operation or an earlier one. -/
theorem tags_concat (tags : Tags nodeId (events ++ [event]) position element tag) :
    Tags nodeId events position element tag ∨
      position = events.length ∧ event.operation = .add element ∧
        tag = (event.before.state.countOf (nodeId event.replica) + 1, nodeId event.replica) := by
  obtain ⟨found, atPosition, isAdd, isTag⟩ := tags
  rcases getElem?_concat_cases atPosition with old | ⟨last, rfl⟩
  · exact .inl ⟨found, old, isAdd, isTag⟩
  · exact .inr ⟨last, isAdd, isTag⟩

theorem tags_last :
    Tags nodeId (events ++ [event]) events.length element tag ↔
      event.operation = .add element ∧
        tag = (event.before.state.countOf (nodeId event.replica) + 1, nodeId event.replica) := by
  simp [Tags]

theorem Good.concat (good : Good nodeId events replica) (event : Executed ι ORSet Operation) :
    Good nodeId (events ++ [event]) replica := by
  refine ⟨?_, ?_, ?_, ?_, ?_⟩
  · intro position member
    exact (good.observed position member).trans (by simp)
  · intro position member element earlier removes
    rw [removesSeeing_concat_of_lt (good.observed position member)] at removes
    exact (good.seen position member element earlier removes).trans (by simp)
  · intro element tag
    rw [good.tags]
    refine and_congr Iff.rfl (exists_congr fun position => ?_)
    exact and_congr_right fun member =>
      (tags_concat_of_lt (good.observed position member)).symm
  · intro tag
    rw [good.tombstones]
    refine exists_congr fun position => and_congr_right fun member => ?_
    refine exists_congr fun element => exists_congr fun earlier => ?_
    rw [removesSeeing_concat_of_lt (good.observed position member)]
    exact and_congr_right fun removes =>
      (tags_concat_of_lt (good.seen position member element earlier removes)).symm
  · intro position member element count node tags
    rw [tags_concat_of_lt (good.observed position member)] at tags
    exact good.counts position member element count node tags

/-- Positions observed before an operation, and the operation. -/
theorem observed_insert (inside : ∀ position ∈ replica.observed, position < events.length) :
    ∀ position ∈ insert events.length replica.observed, position < (events ++ [event]).length := by
  intro position member
  rw [List.length_append, List.length_singleton]
  rcases Finset.mem_insert.mp member with rfl | old
  · exact Nat.lt_succ_self _
  · exact (inside position old).trans (Nat.lt_succ_self _)

theorem removesSeeing_last {earlier : Nat} :
    RemovesSeeing (events ++ [event]) events.length element earlier ↔
      event.operation = .remove element ∧ earlier ∈ event.before.observed := by
  simp [RemovesSeeing]

theorem Good.add (good : Good nodeId events replica) (own : Own nodeId events id replica)
    (added : String) :
    Good nodeId (events ++ [⟨id, .add added, replica⟩])
      ⟨replica.state.add added (nodeId id), insert events.length replica.observed⟩ := by
  have before := good.concat ⟨id, .add added, replica⟩
  have silent : ∀ element earlier,
      ¬RemovesSeeing (events ++ [⟨id, .add added, replica⟩]) events.length element earlier := by
    intro element earlier removes
    exact absurd (removesSeeing_last.mp removes).1 (by simp)
  have fresh : (replica.state.countOf (nodeId id) + 1, nodeId id) ∉ replica.state.tombstones := by
    rw [good.tombstones]
    rintro ⟨position, _, element, earlier, _, tags⟩
    exact absurd (own _ _ _ tags) (by omega)
  refine ⟨observed_insert good.observed, ?_, ?_, ?_, ?_⟩
  · intro position member element earlier removes
    rcases Finset.mem_insert.mp member with rfl | old
    · exact absurd removes (silent element earlier)
    · exact before.seen position old element earlier removes
  · intro element tag
    have kept := before.tags element tag
    rw [Finset.exists_mem_insert, tags_last]
    dsimp only at kept ⊢
    rw [show (replica.state.add added (nodeId id)).tombstones = replica.state.tombstones from rfl,
      tagsOf_add]
    split
    next same =>
      subst same
      rw [Finset.mem_insert, kept]
      constructor
      · rintro (rfl | ⟨alive, known⟩)
        · exact ⟨fresh, .inl ⟨rfl, rfl⟩⟩
        · exact ⟨alive, .inr known⟩
      · rintro ⟨alive, ⟨_, rfl⟩ | known⟩
        · exact .inl rfl
        · exact .inr ⟨alive, known⟩
    next distinct =>
      rw [kept]
      refine and_congr_right fun _ => ⟨.inr, ?_⟩
      rintro (⟨isAdd, _⟩ | known)
      · cases isAdd
        exact absurd rfl distinct
      · exact known
  · intro tag
    rw [Finset.exists_mem_insert]
    rw [show (replica.state.add added (nodeId id)).tombstones = replica.state.tombstones from rfl,
      before.tombstones]
    constructor
    · exact .inr
    · rintro (⟨element, earlier, removes, _⟩ | old)
      · exact absurd removes (silent element earlier)
      · exact old
  · intro position member element count node tags
    dsimp only
    rw [countOf_add]
    rcases Finset.mem_insert.mp member with rfl | old
    · cases (tags_last.mp tags).2
      rw [if_pos rfl]
    · have below := before.counts position old element count node tags
      split
      next same =>
        rw [← same]
        exact below.trans (Nat.le_succ _)
      next => exact below

theorem element_eq_of_tags {first second : String} {other : Nat} (fine : Fine nodeId events)
    (one : Tags nodeId events position first tag) (two : Tags nodeId events other second tag) :
    first = second := by
  have same := fine one two
  subst same
  obtain ⟨event, found, isAdd, _⟩ := one
  obtain ⟨again, alsoFound, alsoAdd, _⟩ := two
  rw [found] at alsoFound
  cases alsoFound
  rw [isAdd] at alsoAdd
  exact Operation.add.inj alsoAdd

theorem Good.remove (good : Good nodeId events replica) (fine : Fine nodeId events)
    (removed : String) :
    Good nodeId (events ++ [⟨id, .remove removed, replica⟩])
      ⟨replica.state.remove removed, insert events.length replica.observed⟩ := by
  have before := good.concat ⟨id, .remove removed, replica⟩
  have silent : ∀ element tag,
      ¬Tags nodeId (events ++ [⟨id, .remove removed, replica⟩]) events.length element tag := by
    intro element tag tags
    exact absurd (tags_last.mp tags).1 (by simp)
  refine ⟨observed_insert good.observed, ?_, ?_, ?_, ?_⟩
  · intro position member element earlier removes
    rcases Finset.mem_insert.mp member with rfl | old
    · exact before.observed earlier (removesSeeing_last.mp removes).2
    · exact before.seen position old element earlier removes
  · intro element tag
    have kept := before.tags element tag
    rw [Finset.exists_mem_insert]
    dsimp only at kept ⊢
    rw [tagsOf_remove, tombstones_remove, Finset.mem_union]
    split
    next same =>
      subst same
      refine iff_of_false (Finset.notMem_empty tag) ?_
      rintro ⟨alive, tags | known⟩
      · exact silent _ _ tags
      · exact alive (.inr (kept.mpr ⟨fun dead => alive (.inl dead), known⟩))
    next distinct =>
      rw [good.tags]
      constructor
      · rintro ⟨alive, position, member, tags⟩
        refine ⟨?_, .inr (kept.mp ((good.tags element tag).mpr ⟨alive, position, member, tags⟩)).2⟩
        rintro (dead | gone)
        · exact alive dead
        · obtain ⟨_, other, _, otherTags⟩ := (good.tags removed tag).mp gone
          exact distinct (element_eq_of_tags fine tags otherTags)
      · rintro ⟨alive, tags | known⟩
        · exact absurd tags (silent _ _)
        · have dead : tag ∉ replica.state.tombstones := fun dead => alive (.inl dead)
          exact (good.tags element tag).mp (kept.mpr ⟨dead, known⟩)
  · intro tag
    rw [Finset.exists_mem_insert]
    dsimp only
    rw [tombstones_remove, Finset.mem_union]
    constructor
    · rintro (dead | gone)
      · exact .inr ((before.tombstones tag).mp dead)
      · obtain ⟨_, position, member, tags⟩ := (before.tags removed tag).mp gone
        exact .inl ⟨removed, position, removesSeeing_last.mpr ⟨rfl, member⟩, tags⟩
    · rintro (⟨element, earlier, removes, tags⟩ | old)
      · obtain ⟨isRemove, member⟩ := removesSeeing_last.mp removes
        cases isRemove
        by_cases dead : tag ∈ replica.state.tombstones
        · exact .inl dead
        · exact .inr ((before.tags removed tag).mpr ⟨dead, earlier, member, tags⟩)
      · exact .inl ((before.tombstones tag).mpr old)
  · intro position member element count node tags
    dsimp only
    rw [countOf_remove]
    rcases Finset.mem_insert.mp member with rfl | old
    · exact absurd tags (silent element _)
    · exact before.counts position old element count node tags

theorem Good.merge (good : Good nodeId events replica) (goodOther : Good nodeId events other) :
    Good nodeId events
      ⟨replica.state.merge other.state, replica.observed ∪ other.observed⟩ := by
  refine ⟨?_, ?_, ?_, ?_, ?_⟩
  · intro position member
    rcases Finset.mem_union.mp member with here | there
    · exact good.observed position here
    · exact goodOther.observed position there
  · intro position member
    rcases Finset.mem_union.mp member with here | there
    · exact good.seen position here
    · exact goodOther.seen position there
  · intro element tag
    dsimp only
    rw [tagsOf_merge, tombstones_merge, Finset.mem_filter, Finset.mem_union, good.tags,
      goodOther.tags]
    simp only [Finset.mem_union, or_and_right, exists_or]
    by_cases here : tag ∈ replica.state.tombstones <;>
      by_cases there : tag ∈ other.state.tombstones <;> simp [here, there]
  · intro tag
    dsimp only
    rw [tombstones_merge, Finset.mem_union, good.tombstones, goodOther.tombstones]
    simp only [Finset.mem_union, or_and_right, exists_or]
  · intro position member element count node tags
    dsimp only
    rw [countOf_merge]
    rcases Finset.mem_union.mp member with here | there
    · exact (good.counts position here element count node tags).trans (le_max_left _ _)
    · exact (goodOther.counts position there element count node tags).trans (le_max_right _ _)

end Steps

section Runs

variable {nodeId : ι → String}

/-- A step keeps the replicas determined by what they have observed. -/
theorem kept (distinct : Function.Injective nodeId) :
    Network.Kept (replicated nodeId) .none (Fine nodeId) (Good nodeId) (Own nodeId) := by
  have none : ∀ {position element tag}, ¬Tags nodeId [] position element tag := by
    rintro position element tag ⟨event, found, _⟩
    exact absurd found (by simp)
  constructor
  · exact fun tags => absurd tags none
  · refine ⟨?_, ?_, ?_, ?_, ?_⟩
    · exact fun position member => absurd member (Finset.notMem_empty _)
    · exact fun position member => absurd member (Finset.notMem_empty _)
    · intro element tag
      simp [replicated, new, tagsOf]
    · intro tag
      simp [replicated, new]
    · exact fun position member => absurd member (Finset.notMem_empty _)
  · exact fun id position element count tags => absurd tags none
  · exact fun good => good.concat _
  · intro events event id replica apart _ own position element count tags
    rcases tags_concat tags with old | ⟨_, _, isTag⟩
    · exact own position element count old
    · exact absurd (distinct (Prod.mk.inj isTag).2).symm apart
  · intro events id replica operation fine good own _
    refine ⟨?_, ?_, ?_⟩
    · intro first second one other tag firstTags secondTags
      rcases tags_concat firstTags with old | ⟨last, _, isTag⟩
      · rcases tags_concat secondTags with alsoOld | ⟨_, _, isTag⟩
        · exact fine old alsoOld
        · rw [isTag] at old
          exact absurd (own _ _ _ old) (by simp)
      · rcases tags_concat secondTags with old | ⟨alsoLast, _, _⟩
        · rw [isTag] at old
          exact absurd (own _ _ _ old) (by simp)
        · rw [last, alsoLast]
    · cases operation with
      | add element => exact good.add own element
      | remove element => exact good.remove fine element
    · intro position element count tags
      rcases tags_concat tags with old | ⟨_, isAdd, isTag⟩
      · apply (own position element count old).trans
        cases operation with
        | add added =>
            have counted : (replica.state.add added (nodeId id)).countOf (nodeId id) =
                replica.state.countOf (nodeId id) + 1 := by
              rw [countOf_add, if_pos rfl]
            exact le_of_le_of_eq (Nat.le_succ _) counted.symm
        | remove removed => exact le_of_eq (countOf_remove _ _ _).symm
      · dsimp only at isAdd
        subst isAdd
        have counted : (replica.state.add element (nodeId id)).countOf (nodeId id) =
            replica.state.countOf (nodeId id) + 1 := by
          rw [countOf_add, if_pos rfl]
        rw [(Prod.mk.inj isTag).1]
        exact le_of_eq counted.symm
  · intro events id replica other _ good goodOther own _
    refine ⟨good.merge goodOther, ?_⟩
    intro position element count tags
    have counted : (replica.state.merge other.state).countOf (nodeId id) =
        max (replica.state.countOf (nodeId id)) (other.state.countOf (nodeId id)) :=
      countOf_merge _ _ _
    exact le_of_le_of_eq ((own position element count tags).trans (le_max_left _ _)) counted.symm

/-- What a replica contains: the elements with an observed add that no observed remove has
seen. -/
theorem Good.contains_iff {events : List (Executed ι ORSet Operation)} {replica : Replica ORSet}
    (good : Good nodeId events replica) (fine : Fine nodeId events) (element : String) :
    replica.state.contains element = true ↔ ∃ add ∈ replica.observed, Adds events add element ∧
      ∀ remove ∈ replica.observed, ¬RemovesSeeing events remove element add := by
  rw [ORSet.contains_iff]
  constructor
  · rintro ⟨tag, member⟩
    obtain ⟨alive, add, observed, tags⟩ := (good.tags element tag).mp member
    obtain ⟨event, found, isAdd, _⟩ := id tags
    refine ⟨add, observed, ⟨event, found, isAdd⟩, ?_⟩
    intro remove alsoObserved removes
    exact alive ((good.tombstones tag).mpr ⟨remove, alsoObserved, element, add, removes, tags⟩)
  · rintro ⟨add, observed, ⟨event, found, isAdd⟩, unseen⟩
    have tags : Tags nodeId events add element _ := ⟨event, found, isAdd, rfl⟩
    refine ⟨_, (good.tags element _).mpr ⟨?_, add, observed, tags⟩⟩
    intro dead
    obtain ⟨remove, alsoObserved, other, earlier, removes, otherTags⟩ :=
      (good.tombstones _).mp dead
    have same := fine otherTags tags
    have sameElement := element_eq_of_tags fine otherTags tags
    subst same sameElement
    exact unseen remove alsoObserved removes

/-- No tag of an element is a tombstone, so merging a state with itself changes no tags. -/
theorem Good.tagsOf_merge_self {events : List (Executed ι ORSet Operation)} {replica : Replica ORSet}
    (good : Good nodeId events replica) (element : String) :
    (replica.state.merge replica.state).tagsOf element = replica.state.tagsOf element := by
  rw [tagsOf_merge, Finset.union_self, Finset.union_self, Finset.filter_eq_self]
  exact fun tag member => ((good.tags element tag).mp member).1

theorem mem_elements_congr {first second : ORSet} {element : String}
    (same : first.tagsOf element = second.tagsOf element) :
    element ∈ first.elements ↔ element ∈ second.elements := by
  rw [mem_elements_iff, mem_elements_iff, ORSet.contains_iff, ORSet.contains_iff, same]

variable [DecidableEq ι]

/-- In every run of replicas with distinct node ids: a replica that has observed all operations
contains the elements with an add that no remove has seen; replicas that have observed the same
operations, at whatever times, have the same elements; and on elements merge is commutative,
associative and idempotent. -/
theorem replicas_converge (nodeId : ι → String) (distinct : Function.Injective nodeId)
    (exchanges : List (Exchange ι Operation)) (network : Network ι ORSet Operation)
    (reached : network = .run (replicated nodeId) exchanges) :
    (∀ id element, (network.replicas id).observed = Finset.range network.events.length →
      ((network.replicas id).state.contains element = true ↔
        ∃ add, Adds network.events add element ∧
          ∀ remove, ¬RemovesSeeing network.events remove element add)) ∧
    (∀ time first later second element,
      (network.snapshot time first).observed = (network.snapshot later second).observed →
      (element ∈ (network.snapshot time first).state.elements ↔
        element ∈ (network.snapshot later second).state.elements)) ∧
    ∀ first second third : Nat × ι, ∀ element,
      let one := (network.snapshot first.1 first.2).state
      let two := (network.snapshot second.1 second.2).state
      let three := (network.snapshot third.1 third.2).state
      (element ∈ (one.merge two).elements ↔ element ∈ (two.merge one).elements) ∧
        (element ∈ ((one.merge two).merge three).elements ↔
          element ∈ (one.merge (two.merge three)).elements) ∧
        (element ∈ (one.merge one).elements ↔ element ∈ one.elements) := by
  subst reached
  have holds := (kept distinct).holds_run (Network.meetsAll_none _ exchanges)
  refine ⟨?_, ?_, ?_⟩
  · intro id element all
    rw [(holds.good id).contains_iff holds.fine, all]
    constructor
    · rintro ⟨add, _, adds, unseen⟩
      refine ⟨add, adds, ?_⟩
      intro remove removes
      exact unseen remove (Finset.mem_range.mpr removes.lt_length) removes
    · rintro ⟨add, adds, unseen⟩
      exact ⟨add, Finset.mem_range.mpr adds.lt_length, adds, fun remove _ => unseen remove⟩
  · intro time first later second element same
    rw [mem_elements_iff, mem_elements_iff,
      (holds.snapshot time first).contains_iff holds.fine,
      (holds.snapshot later second).contains_iff holds.fine, same]
  · intro first second third element
    refine ⟨?_, ?_, ?_⟩
    · exact mem_elements_congr (tagsOf_merge_comm _ _ element)
    · exact mem_elements_congr (tagsOf_merge_assoc _ _ _ element)
    · exact mem_elements_congr ((holds.snapshot first.1 first.2).tagsOf_merge_self element)

/-- Replica `false` adds an element; replica `true` merges that, adds the element as well and
removes it; replica `false` concurrently adds it again and then merges the other's state. -/
def concurrentAddRemove : List (Exchange Bool Operation) :=
  [.update false (.add "x"), .merge true 1 false, .update true (.add "x"),
    .update true (.remove "x"), .update false (.add "x"), .merge false 5 true]

theorem replicas_converge_concurrentAddRemove :
    let nodeId : Bool → String := fun id => if id then "n2" else "n1"
    let network := Network.run (replicated nodeId) concurrentAddRemove
    (network.replicas false).state.contains "x" = true ∧
      ∃ add, Adds network.events add "x" ∧
        ∀ remove, ¬RemovesSeeing network.events remove "x" add := by
  intro nodeId network
  have contained : (network.replicas false).state.contains "x" = true := by decide +kernel
  have all : (network.replicas false).observed = Finset.range network.events.length := by
    decide +kernel
  refine ⟨contained, ?_⟩
  exact ((replicas_converge nodeId (by decide) concurrentAddRemove network rfl).1 false "x"
    all).mp contained

end Runs

end ORSet

end JouleDB.Crdt
