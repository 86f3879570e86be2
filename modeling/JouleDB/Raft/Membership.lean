import JouleDB.Raft.Election

/-!
# Elections while the membership changes

A node takes over a configuration when it applies it, long after others may have done so.  With
one vote per node and term, no term has two leaders if the nodes that run in it have
configurations that ask for a majority of the same members, as the old configuration and the
joint one do, and the joint one and the new one.  Nodes that are two changes apart need not.
-/

namespace JouleDB.Raft

namespace ClusterConfig

variable {first second : ClusterConfig}

theorem adjacent_iff :
    first.Adjacent second ↔
      first.members = second.members ∨ second.newMembers = some first.members ∨
        first.newMembers = some second.members ∨
        first.newMembers = second.newMembers ∧ first.newMembers ≠ none := by
  constructor
  · rintro ⟨members, rfl | isNew, same | alsoNew⟩
    · exact .inl same.symm
    · exact .inr (.inl alsoNew)
    · rw [← same] at isNew
      exact .inr (.inr (.inl isNew))
    · exact .inr (.inr (.inr ⟨isNew.trans alsoNew.symm, by simp [isNew]⟩))
  · rintro (same | isNew | isNew | ⟨same, joint⟩)
    · exact ⟨first.members, .inl rfl, .inl same.symm⟩
    · exact ⟨first.members, .inl rfl, .inr isNew⟩
    · exact ⟨second.members, .inr isNew, .inl rfl⟩
    · obtain ⟨members, isNew⟩ := Option.ne_none_iff_exists'.mp joint
      exact ⟨members, .inr isNew, .inr (same.symm.trans isNew)⟩

instance : Decidable (first.Adjacent second) := decidable_of_iff _ adjacent_iff.symm

end ClusterConfig

namespace Cluster

variable {start cluster : Cluster} {actions : List Action}

/-- The election that a step starts: who runs in which term with which configuration. -/
def candidacy (cluster : Cluster) : Action → List (NodeId × Nat × ClusterConfig)
  | .runElection id =>
      [(id, (cluster.nodes id).persistent.currentTerm + 1, (cluster.nodes id).clusterConfig)]
  | _ => []

/-- The elections started in a run. -/
def candidacies (cluster : Cluster) : List Action → List (NodeId × Nat × ClusterConfig)
  | [] => []
  | action :: actions =>
      cluster.candidacy action ++
        match cluster.step action with
        | some next => next.candidacies actions
        | none => []

theorem Ran.mem_candidacies {id : NodeId} {term : Nat} {config : ClusterConfig}
    (ran : start.Ran actions id term config) : (id, term, config) ∈ start.candidacies actions := by
  obtain ⟨front, cluster, ⟨back, rfl⟩, reached, rfl, rfl⟩ := ran
  induction front generalizing start with
  | nil =>
      cases reached
      exact List.mem_append_left _ (List.mem_singleton_self _)
  | cons action front ih =>
      obtain ⟨middle, taken, rest⟩ := Option.bind_eq_some_iff.mp reached
      rw [List.cons_append, List.cons_append, candidacies, taken]
      exact List.mem_append_right _ (ih rest)

/-- Different nodes that run in the same term have adjacent configurations. -/
def AdjacentElections (start : Cluster) (actions : List Action) : Prop :=
  ∀ one ∈ start.candidacies actions, ∀ two ∈ start.candidacies actions,
    one.1 ≠ two.1 → one.2.1 = two.2.1 → one.2.2.Adjacent two.2.2

instance : Decidable (start.AdjacentElections actions) :=
  inferInstanceAs (Decidable
    (∀ one ∈ start.candidacies actions, ∀ two ∈ start.candidacies actions, _))

theorem oneVotePerTerm_iff :
    cluster.OneVotePerTerm ↔
      ∀ one ∈ cluster.sent.filterMap Message.vote, ∀ two ∈ cluster.sent.filterMap Message.vote,
        one.1 = two.1 → one.2.1 = two.2.1 → one.2.2 = two.2.2 := by
  constructor
  · rintro unique ⟨voter, term, first⟩ cast ⟨_, _, second⟩ alsoCast rfl rfl
    exact unique voter term first second (List.mem_filterMap.mp cast)
      (List.mem_filterMap.mp alsoCast)
  · intro unique voter term first second one two
    exact unique (voter, term, first) (List.mem_filterMap.mpr one) (voter, term, second)
      (List.mem_filterMap.mpr two) rfl rfl

instance : Decidable cluster.OneVotePerTerm := decidable_of_iff _ oneVotePerTerm_iff.symm

/-- Node `a` adds `d`, which applies the joint configuration; then `b`, still with the old one,
and `d` run in term 2. -/
def runWithinOneChange : List Action :=
  [.runElection "a", .handleRequestVote 0 "b", .countVote 1, .addNode "a" "d",
    .sendHeartbeat "a" "b", .handleAppendEntries 2, .finishHeartbeats "a" [3],
    .applyCommittedEntries "a", .sendHeartbeat "a" "d", .handleAppendEntries 4,
    .applyCommittedEntries "d", .runElection "d", .runElection "b", .handleRequestVote 7 "c",
    .countVote 8]

/-- Node `a` removes `c` and adds `d`, while `b` receives all entries and applies none.  Then `d`
wins term 2 with the vote of `a`, a majority of `a`, `b`, `d`, and `b` wins it with the vote of
`c`, a majority of `a`, `b`, `c`. -/
def runTwoChangesApart : List Action :=
  [.runElection "a", .handleRequestVote 0 "b", .countVote 1,
    .removeNode "a" "c",
    .sendHeartbeat "a" "b", .handleAppendEntries 2, .finishHeartbeats "a" [3],
    .applyCommittedEntries "a",
    .sendHeartbeat "a" "b", .handleAppendEntries 4, .finishHeartbeats "a" [5],
    .applyCommittedEntries "a",
    .addNode "a" "d",
    .sendHeartbeat "a" "b", .handleAppendEntries 6, .finishHeartbeats "a" [7],
    .applyCommittedEntries "a",
    .sendHeartbeat "a" "b", .handleAppendEntries 8, .finishHeartbeats "a" [9],
    .sendHeartbeat "a" "d", .handleAppendEntries 10, .applyCommittedEntries "d",
    .runElection "d", .handleRequestVote 12 "a", .countVote 13,
    .runElection "b", .handleRequestVote 14 "c", .countVote 15]

end Cluster

end JouleDB.Raft
