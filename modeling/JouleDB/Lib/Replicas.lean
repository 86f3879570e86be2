import Mathlib.Data.Finset.Basic
import Mathlib.Data.Finset.Range
import Mathlib.Logic.Function.Basic

/-!
# Replicas that exchange their states

Any number of replicas update their own states and merge earlier states of each other: late, more
than once, in any order.  Beside its state a replica has the operations that it has observed: its
own, and those of the states that it has merged.  An operation is known by its position in the
list of events.
-/

namespace JouleDB

/-- A replicated data type: replicas of type `ι` with states of type `σ` and operations of type
`ω`. -/
structure Replicated (ι σ ω : Type) where
  initial : σ
  update : ι → ω → σ → σ
  merge : σ → σ → σ

/-- A replica: its state and the operations that it has observed. -/
structure Replica (σ : Type) where
  state : σ
  observed : Finset Nat

/-- An operation, with the replica that executed it as it was before. -/
structure Executed (ι σ ω : Type) where
  replica : ι
  operation : ω
  before : Replica σ

/-- The replicas, all their earlier states, and the operations so far. -/
structure Network (ι σ ω : Type) where
  replicas : ι → Replica σ
  past : List (ι → Replica σ)
  events : List (Executed ι σ ω)

/-- The steps: an operation, or merging the state that a replica had at some time. -/
inductive Exchange (ι ω : Type) where
  | update (replica : ι) (operation : ω)
  | merge (replica : ι) (time : Nat) (source : ι)
  deriving DecidableEq

/-- What stands at a position of a list with one more event: an earlier event, or the last one. -/
theorem getElem?_concat_cases {α : Type} {list : List α} {last value : α} {position : Nat}
    (found : (list ++ [last])[position]? = some value) :
    list[position]? = some value ∨ position = list.length ∧ value = last := by
  rcases Nat.lt_trichotomy position list.length with inside | rfl | beyond
  · rw [List.getElem?_append_left inside] at found
    exact .inl found
  · rw [List.getElem?_concat_length] at found
    exact .inr ⟨rfl, (Option.some.inj found).symm⟩
  · rw [List.getElem?_eq_none (by simp; omega)] at found
    exact absurd found (by simp)

namespace Network

variable {ι σ ω : Type} [DecidableEq ι]

/-- Replicas that have done nothing yet. -/
def start (kind : Replicated ι σ ω) : Network ι σ ω :=
  ⟨fun _ => ⟨kind.initial, ∅⟩, [], []⟩

/-- The replicas at a time that is over, or now. -/
def snapshot (network : Network ι σ ω) (time : Nat) : ι → Replica σ :=
  network.past[time]?.getD network.replicas

/-- Replace a replica. -/
def replace (network : Network ι σ ω) (id : ι) (replica : Replica σ) : Network ι σ ω where
  replicas := Function.update network.replicas id replica
  past := network.past ++ [network.replicas]
  events := network.events

/-- One step. -/
def step (kind : Replicated ι σ ω) (network : Network ι σ ω) : Exchange ι ω → Network ι σ ω
  | .update id operation =>
      let before := network.replicas id
      { network.replace id ⟨kind.update id operation before.state,
          insert network.events.length before.observed⟩ with
        events := network.events ++ [⟨id, operation, before⟩] }
  | .merge id time source =>
      let replica := network.replicas id
      let other := network.snapshot time source
      network.replace id ⟨kind.merge replica.state other.state, replica.observed ∪ other.observed⟩

/-- The network after a run. -/
def run (kind : Replicated ι σ ω) (exchanges : List (Exchange ι ω)) : Network ι σ ω :=
  exchanges.foldl (step kind) (start kind)

/-- Conditions on operations and on merges. -/
structure Conditions (ι σ ω : Type) where
  update : ι → ω → σ → Prop
  merge : σ → σ → Prop

/-- No conditions. -/
def Conditions.none : Conditions ι σ ω := ⟨fun _ _ _ => True, fun _ _ => True⟩

/-- A step meets the conditions. -/
def Meets (network : Network ι σ ω) (conditions : Conditions ι σ ω) : Exchange ι ω → Prop
  | .update id operation => conditions.update id operation (network.replicas id).state
  | .merge id time source =>
      conditions.merge (network.replicas id).state (network.snapshot time source).state

/-- Every step of a run meets the conditions. -/
def MeetsAll (kind : Replicated ι σ ω) (conditions : Conditions ι σ ω)
    (exchanges : List (Exchange ι ω)) : Prop :=
  ∀ front exchange, front ++ [exchange] <+: exchanges →
    (run kind front).Meets conditions exchange

theorem meetsAll_none (kind : Replicated ι σ ω) (exchanges : List (Exchange ι ω)) :
    MeetsAll kind .none exchanges := by
  intro front exchange _
  cases exchange <;> trivial

theorem meetsAll_nil {kind : Replicated ι σ ω} {conditions : Conditions ι σ ω} :
    MeetsAll kind conditions [] := by
  intro front exchange included
  exact absurd (List.prefix_nil.mp included) (by simp)

theorem MeetsAll.concat {kind : Replicated ι σ ω} {conditions : Conditions ι σ ω}
    {exchanges : List (Exchange ι ω)} {exchange : Exchange ι ω}
    (meets : MeetsAll kind conditions exchanges)
    (last : (run kind exchanges).Meets conditions exchange) :
    MeetsAll kind conditions (exchanges ++ [exchange]) := by
  intro front other included
  rcases List.prefix_concat_iff.mp included with same | shorter
  · obtain ⟨rfl, equal⟩ := List.append_inj' same rfl
    cases equal
    exact last
  · exact meets front other shorter

/-- What has to be shown of an invariant: `Fine` of the events, `Good` of every replica at any
time, and `Own` of a replica as it is now. -/
structure Kept (kind : Replicated ι σ ω) (conditions : Conditions ι σ ω)
    (Fine : List (Executed ι σ ω) → Prop) (Good : List (Executed ι σ ω) → Replica σ → Prop)
    (Own : List (Executed ι σ ω) → ι → Replica σ → Prop) : Prop where
  fine_nil : Fine []
  good_nil : Good [] ⟨kind.initial, ∅⟩
  own_nil : ∀ id, Own [] id ⟨kind.initial, ∅⟩
  good_concat : ∀ {events event replica}, Good events replica → Good (events ++ [event]) replica
  own_concat : ∀ {events event id replica}, event.replica ≠ id → Good events event.before →
    Own events id replica → Own (events ++ [event]) id replica
  update : ∀ {events id replica operation}, Fine events → Good events replica →
    Own events id replica → conditions.update id operation replica.state →
    Fine (events ++ [⟨id, operation, replica⟩]) ∧
      Good (events ++ [⟨id, operation, replica⟩])
        ⟨kind.update id operation replica.state, insert events.length replica.observed⟩ ∧
      Own (events ++ [⟨id, operation, replica⟩]) id
        ⟨kind.update id operation replica.state, insert events.length replica.observed⟩
  merge : ∀ {events id replica other}, Fine events → Good events replica → Good events other →
    Own events id replica → conditions.merge replica.state other.state →
    Good events
        ⟨kind.merge replica.state other.state, replica.observed ∪ other.observed⟩ ∧
      Own events id
        ⟨kind.merge replica.state other.state, replica.observed ∪ other.observed⟩

/-- An invariant holds in a network. -/
structure Holds (Fine : List (Executed ι σ ω) → Prop) (Good : List (Executed ι σ ω) → Replica σ → Prop)
    (Own : List (Executed ι σ ω) → ι → Replica σ → Prop) (network : Network ι σ ω) : Prop where
  fine : Fine network.events
  good : ∀ id, Good network.events (network.replicas id)
  past : ∀ replicas ∈ network.past, ∀ id, Good network.events (replicas id)
  own : ∀ id, Own network.events id (network.replicas id)

variable {kind : Replicated ι σ ω} {conditions : Conditions ι σ ω}
  {Fine : List (Executed ι σ ω) → Prop} {Good : List (Executed ι σ ω) → Replica σ → Prop}
  {Own : List (Executed ι σ ω) → ι → Replica σ → Prop} {network : Network ι σ ω}

omit [DecidableEq ι] in
theorem Holds.snapshot (holds : network.Holds Fine Good Own) (time : Nat) (source : ι) :
    Good network.events (network.snapshot time source) := by
  rw [Network.snapshot]
  cases found : network.past[time]? with
  | none => exact holds.good source
  | some replicas => exact holds.past replicas (List.mem_of_getElem? found) source

theorem Holds.step (holds : network.Holds Fine Good Own)
    (kept : Kept kind conditions Fine Good Own) {exchange : Exchange ι ω}
    (meets : network.Meets conditions exchange) :
    (network.step kind exchange).Holds Fine Good Own := by
  cases exchange with
  | update id operation =>
      obtain ⟨fine, good, own⟩ := kept.update holds.fine (holds.good id) (holds.own id) meets
      refine ⟨fine, ?_, ?_, ?_⟩
      · intro other
        by_cases same : other = id
        · subst same
          simpa [Network.step, replace] using good
        · simpa [Network.step, replace, same] using kept.good_concat (holds.good other)
      · intro replicas member other
        rcases List.mem_append.mp member with old | new
        · exact kept.good_concat (holds.past replicas old other)
        · rw [List.mem_singleton.mp new]
          exact kept.good_concat (holds.good other)
      · intro other
        by_cases same : other = id
        · subst same
          simpa [Network.step, replace] using own
        · have distinct : id ≠ other := fun equal => same equal.symm
          simpa [Network.step, replace, same] using kept.own_concat distinct (holds.good id)
            (holds.own other)
  | merge id time source =>
      obtain ⟨good, own⟩ := kept.merge holds.fine (holds.good id) (holds.snapshot time source)
        (holds.own id) meets
      refine ⟨holds.fine, ?_, ?_, ?_⟩
      · intro other
        by_cases same : other = id
        · subst same
          simpa [Network.step, replace] using good
        · simpa [Network.step, replace, same] using holds.good other
      · intro replicas member other
        rcases List.mem_append.mp member with old | new
        · exact holds.past replicas old other
        · rw [List.mem_singleton.mp new]
          exact holds.good other
      · intro other
        by_cases same : other = id
        · subst same
          simpa [Network.step, replace] using own
        · simpa [Network.step, replace, same] using holds.own other

/-- An invariant holds in every run that meets the conditions. -/
theorem Kept.holds_run (kept : Kept kind conditions Fine Good Own)
    {exchanges : List (Exchange ι ω)} (meets : MeetsAll kind conditions exchanges) :
    (run kind exchanges).Holds Fine Good Own := by
  induction exchanges using List.reverseRecOn with
  | nil =>
      refine ⟨kept.fine_nil, fun _ => kept.good_nil, ?_, kept.own_nil⟩
      exact fun _ member => absurd member List.not_mem_nil
  | append_singleton front exchange ih =>
      have before := ih fun shorter other included =>
        meets shorter other (included.trans (List.prefix_append _ _))
      rw [run, List.foldl_append]
      exact before.step kept (meets front exchange (List.prefix_refl _))

end Network

end JouleDB
