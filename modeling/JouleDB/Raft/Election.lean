import JouleDB.Raft.Configuration

/-!
# Election safety

Two quorums that count a majority of the same nodes have a voter in common, so one vote per node
and term leaves room for one leader per term.  A node gives one vote per term as long as it
answers no vote request after its vote of the term was cleared: an AppendEntries call clears it
also when the term stays the same.
-/

namespace JouleDB.Raft

namespace ClusterConfig

variable {config first second : ClusterConfig} {voters others members : Finset NodeId}

/-- A quorum of the configuration has a majority of these members. -/
def Counts (config : ClusterConfig) (members : Finset NodeId) : Prop :=
  config.members = members ∨ config.newMembers = some members

/-- Quorums of both configurations have a majority of the same members. -/
def Adjacent (first second : ClusterConfig) : Prop :=
  ∃ members, first.Counts members ∧ second.Counts members

theorem Adjacent.refl (config : ClusterConfig) : config.Adjacent config :=
  ⟨config.members, .inl rfl, .inl rfl⟩

theorem majority_of_hasQuorum (quorum : config.hasQuorum voters = true)
    (counts : config.Counts members) :
    members.card / 2 + 1 ≤ (voters.filter fun voter => voter ∈ members).card := by
  obtain ⟨old, new⟩ := Bool.and_eq_true_iff.mp quorum
  rcases counts with rfl | isNew
  · exact of_decide_eq_true old
  · simp only [hasNewMajority, isNew, newMajority, Option.map_some, Option.getD_some] at new
    exact of_decide_eq_true new

/-- Quorums of adjacent configurations have a voter in common. -/
theorem quorums_meet (adjacent : first.Adjacent second) (one : first.hasQuorum voters = true)
    (two : second.hasQuorum others = true) : ∃ voter, voter ∈ voters ∧ voter ∈ others := by
  obtain ⟨members, countsFirst, countsSecond⟩ := adjacent
  have left := majority_of_hasQuorum one countsFirst
  have right := majority_of_hasQuorum two countsSecond
  have inside : ∀ voters : Finset NodeId, (voters.filter fun voter => voter ∈ members) ⊆ members :=
    fun voters voter member => (Finset.mem_filter.mp member).2
  obtain ⟨voter, common⟩ := Finset.inter_nonempty_of_card_lt_card_add_card
    (inside voters) (inside others) (by omega)
  obtain ⟨inFirst, inSecond⟩ := Finset.mem_inter.mp common
  exact ⟨voter, (Finset.mem_filter.mp inFirst).1, (Finset.mem_filter.mp inSecond).1⟩

end ClusterConfig

namespace Cluster

variable {start cluster next : Cluster} {actions : List Action}

section OneVote

/-- With one vote per node and term, a term is won once if the configurations that the nodes ran
with are adjacent. -/
theorem OneVotePerTerm.eq_of_won {ran : NodeId → Nat → ClusterConfig → Prop}
    {first second : NodeId} {term : Nat} (oneVote : cluster.OneVotePerTerm)
    (adjacent : ∀ firstConfig secondConfig, ran first term firstConfig →
      ran second term secondConfig → firstConfig.Adjacent secondConfig)
    (one : cluster.Won ran first term) (two : cluster.Won ran second term) : first = second := by
  obtain ⟨firstConfig, voters, ranFirst, quorum, votes⟩ := one
  obtain ⟨secondConfig, others, ranSecond, otherQuorum, otherVotes⟩ := two
  obtain ⟨voter, member, otherMember⟩ :=
    ClusterConfig.quorums_meet (adjacent _ _ ranFirst ranSecond) quorum otherQuorum
  exact oneVote voter term first second (votes voter member) (otherVotes voter otherMember)

/-- The longer of two moments of a run knows both leaders. -/
theorem oneLeaderPerTerm_of_won
    (unique : ∀ front cluster term first second, front <+: actions →
      start.after front = some cluster → start.Led front first term →
      start.Led front second term → first = second) : start.OneLeaderPerTerm actions := by
  rintro term first second ⟨front, cluster, shorter, reached, leads⟩
    ⟨other, otherCluster, otherShorter, otherReached, otherLeads⟩
  rcases List.prefix_or_prefix_of_prefix shorter otherShorter with inside | inside
  · exact unique other otherCluster term first second otherShorter otherReached
      ⟨front, cluster, inside, reached, leads⟩
      ⟨other, otherCluster, List.prefix_refl _, otherReached, otherLeads⟩
  · exact unique front cluster term first second shorter reached
      ⟨front, cluster, List.prefix_refl _, reached, leads⟩
      ⟨other, otherCluster, inside, otherReached, otherLeads⟩

end OneVote

section Safe

/-- A vote that the node has cast in the term of the request, in which it still is, for another
candidate is still its vote. -/
def RemembersVote (cluster : Cluster) (voter : NodeId) (request : RequestVoteRequest) : Prop :=
  (cluster.nodes voter).persistent.currentTerm = request.term →
    ∀ vote ∈ cluster.sent.filterMap Message.vote, vote.1 = voter → vote.2.1 = request.term →
      vote.2.2 = request.candidateId ∨
        (cluster.nodes voter).persistent.votedFor = some vote.2.2

instance (voter : NodeId) (request : RequestVoteRequest) :
    Decidable (cluster.RemembersVote voter request) :=
  inferInstanceAs (Decidable (_ → _))

/-- The step asks no node for a vote that has forgotten its vote. -/
def Safe (cluster : Cluster) : Action → Prop
  | .handleRequestVote position voter =>
      match cluster.sent[position]? with
      | some (.requestVote _ request) => cluster.RemembersVote voter request
      | _ => True
  | _ => True

instance : (action : Action) → Decidable (cluster.Safe action)
  | .handleRequestVote position voter =>
      match found : cluster.sent[position]? with
      | some (.requestVote _ request) =>
          decidable_of_iff (cluster.RemembersVote voter request) (by rw [Safe, found])
      | some (.requestVoteReply _ _ _) => .isTrue (by rw [Safe, found]; trivial)
      | some (.appendEntries _ _) => .isTrue (by rw [Safe, found]; trivial)
      | some (.appendEntriesReply _ _ _) => .isTrue (by rw [Safe, found]; trivial)
      | none => .isTrue (by rw [Safe, found]; trivial)
  | .runElection _ | .countVote _ | .propose _ _ | .proposeBatch _ _ | .sendHeartbeat _ _
  | .handleAppendEntries _ | .finishHeartbeats _ _ | .applyCommittedEntries _ | .addNode _ _
  | .removeNode _ _ => .isTrue trivial

/-- All steps of the run are safe. -/
def SafeRun (cluster : Cluster) : List Action → Prop
  | [] => True
  | action :: actions =>
      cluster.Safe action ∧ ∀ next, cluster.step action = some next → next.SafeRun actions

instance SafeRun.decidable (cluster : Cluster) : (actions : List Action) →
    Decidable (cluster.SafeRun actions)
  | [] => .isTrue trivial
  | action :: actions =>
      match taken : cluster.step action with
      | none => decidable_of_iff (cluster.Safe action) (by simp [SafeRun, taken])
      | some next =>
          have := SafeRun.decidable next actions
          decidable_of_iff (cluster.Safe action ∧ next.SafeRun actions)
            (by simp [SafeRun, taken])

/-- One more vote, which agrees with the voter's other votes of the term. -/
theorem OneVotePerTerm.concat {message : Message} (oneVote : cluster.OneVotePerTerm)
    (sent : next.sent = cluster.sent ++ [message])
    (agrees : ∀ voter term candidate other, message.vote = some (voter, term, candidate) →
      cluster.Voted voter term other → other = candidate) : next.OneVotePerTerm := by
  have votes : ∀ voter term candidate, next.Voted voter term candidate →
      cluster.Voted voter term candidate ∨ message.vote = some (voter, term, candidate) := by
    rintro voter term candidate ⟨other, member, vote⟩
    rw [sent] at member
    rcases List.mem_append.mp member with old | new
    · exact .inl ⟨other, old, vote⟩
    · rw [← List.mem_singleton.mp new]
      exact .inr vote
  intro voter term first second one two
  rcases votes voter term first one with old | new
  · rcases votes voter term second two with alsoOld | alsoNew
    · exact oneVote voter term first second old alsoOld
    · exact agrees voter term second first alsoNew old
  · rcases votes voter term second two with alsoOld | alsoNew
    · exact (agrees voter term first second new alsoOld).symm
    · rw [new] at alsoNew
      cases alsoNew
      rfl

theorem OneVotePerTerm.handleRequestVote {ran : NodeId → Nat → ClusterConfig → Prop}
    {voter : NodeId} {request : RequestVoteRequest} (oneVote : cluster.OneVotePerTerm)
    (sound : cluster.Sound ran) (remembers : cluster.RemembersVote voter request) :
    (cluster.handleRequestVote voter request).OneVotePerTerm := by
  apply oneVote.concat rfl
  intro other term candidate earlier vote voted
  rw [Message.vote] at vote
  split at vote
  next granted =>
    cases vote
    obtain ⟨recent, may, _⟩ := (RaftNode.handleRequestVote_granted_iff _).mp granted
    have current : (cluster.nodes voter).persistent.currentTerm = request.term :=
      le_antisymm recent (sound.reached voter request.term earlier voted)
    obtain ⟨message, member, cast⟩ := voted
    rcases remembers current _ (List.mem_filterMap.mpr ⟨message, member, cast⟩) rfl rfl with
      same | kept
    · exact same
    · have free := may current
      rw [RaftNode.canVote, kept] at free
      simpa using free
  next => exact absurd vote (by simp)

/-- A safe step keeps one vote per node and term. -/
theorem OneVotePerTerm.step {ran : NodeId → Nat → ClusterConfig → Prop} {action : Action}
    (oneVote : cluster.OneVotePerTerm) (sound : cluster.Sound ran)
    (taken : cluster.step action = some next) (safe : cluster.Safe action) :
    next.OneVotePerTerm := by
  rcases step_cases taken with ⟨id, rfl, started⟩ | ⟨_, voter, _, request, rfl, found, _, rfl⟩ |
    ⟨_, voter, request, response, election, rfl, found, running, rfl, rfl⟩ |
    ⟨id, node, messages, _, silent, rfl⟩
  · obtain ⟨_, node, isCandidate, rfl⟩ := runElection_eq started
    have fields := (cluster.nodes id).becomeCandidate_eq
    apply oneVote.concat rfl
    intro other term candidate earlier vote voted
    rw [isCandidate, fields] at vote
    cases vote
    have below := sound.reached _ _ _ voted
    rw [sound.nodeId id] at below
    exact absurd below (Nat.not_succ_le_self _)
  · have remembers : cluster.RemembersVote voter request := by
      rw [Safe, found] at safe
      exact safe
    exact oneVote.handleRequestVote sound remembers
  · rintro other term first second ⟨message, member, vote⟩ ⟨more, alsoMember, alsoVote⟩
    rw [countVote_sent] at member alsoMember
    exact oneVote other term first second ⟨message, member, vote⟩ ⟨more, alsoMember, alsoVote⟩
  · have votes : ∀ voter term candidate,
        Voted { cluster.setNode id node with sent := cluster.sent ++ messages }
          voter term candidate → cluster.Voted voter term candidate := by
      rintro voter term candidate ⟨message, member, vote⟩
      rcases List.mem_append.mp member with old | new
      · exact ⟨message, old, vote⟩
      · rw [silent message new] at vote
        exact absurd vote (by simp)
    exact fun voter term first second one two =>
      oneVote voter term first second (votes _ _ _ one) (votes _ _ _ two)

theorem SafeRun.append {front back : List Action} (safe : start.SafeRun (front ++ back))
    (reached : start.after front = some cluster) : start.SafeRun front ∧ cluster.SafeRun back := by
  induction front generalizing start with
  | nil =>
      cases reached
      exact ⟨trivial, safe⟩
  | cons action front ih =>
      obtain ⟨middle, taken, rest⟩ := Option.bind_eq_some_iff.mp reached
      obtain ⟨first, later⟩ := safe
      obtain ⟨inFront, inBack⟩ := ih (later middle taken) rest
      refine ⟨⟨first, ?_⟩, inBack⟩
      intro next alsoTaken
      cases taken.symm.trans alsoTaken
      exact inFront

/-- Nodes that are only asked for votes they remember vote once in a term. -/
theorem oneVotePerTerm_after {config : ClusterConfig} {maxEntriesPerRpc : NodeId → Nat}
    {storage : NodeId → Storage}
    (safe : (initial config maxEntriesPerRpc storage).SafeRun actions)
    (reached : (initial config maxEntriesPerRpc storage).after actions = some cluster) :
    cluster.OneVotePerTerm := by
  induction actions using List.reverseRecOn generalizing cluster with
  | nil =>
      cases reached
      rintro voter term first second ⟨message, member, _⟩
      exact absurd member List.not_mem_nil
  | append_singleton front action ih =>
      obtain ⟨middle, before, taken⟩ := exists_of_after_concat reached
      obtain ⟨earlier, last, _⟩ := safe.append before
      exact (ih earlier before).step (sound_after before) taken last

/-- Election safety of a safe run with a fixed configuration. -/
theorem oneLeaderPerTerm_of_safeRun {config : ClusterConfig} {maxEntriesPerRpc : NodeId → Nat}
    {storage : NodeId → Storage} (keeps : ∀ action ∈ actions, action.KeepsConfiguration)
    (safe : (initial config maxEntriesPerRpc storage).SafeRun actions) :
    (initial config maxEntriesPerRpc storage).OneLeaderPerTerm actions := by
  apply oneLeaderPerTerm_of_won
  rintro front cluster term first second ⟨back, rfl⟩ reached one two
  have sameConfig : ∀ id term other,
      (initial config maxEntriesPerRpc storage).Ran front id term other → other = config := by
    rintro id term other ⟨before, earlier, ⟨rest, rfl⟩, entered, _, rfl⟩
    apply (fixed_after _ entered).config
    intro action member
    exact keeps action (by simp [member])
  apply (oneVotePerTerm_after (safe.append reached).1 reached).eq_of_won _
    (one.won reached) (two.won reached)
  intro firstConfig secondConfig ranFirst ranSecond
  rw [sameConfig _ _ _ ranFirst, sameConfig _ _ _ ranSecond]
  exact .refl config

/-- In every run with a fixed configuration of any size in which nodes are only asked for votes
that they remember, no two nodes are ever leader in the same term. -/
theorem election_safety (config : ClusterConfig) (maxEntriesPerRpc : NodeId → Nat)
    (storage : NodeId → Storage) (actions : List Action)
    (keeps : ∀ action ∈ actions, action.KeepsConfiguration)
    (safe : (initial config maxEntriesPerRpc storage).SafeRun actions)
    (term : Nat) (first second : NodeId)
    (one : (initial config maxEntriesPerRpc storage).Led actions first term)
    (two : (initial config maxEntriesPerRpc storage).Led actions second term) :
    first = second :=
  oneLeaderPerTerm_of_safeRun keeps safe term first second one two

/-- A cluster of three nodes. -/
def threeNodes : Cluster := initial (.new {"a", "b", "c"}) (fun _ => 100) fun _ => .memory

/-- Node `a` is elected and heard by the others, then `c` is elected. -/
def electionsInTurn : List Action :=
  [.runElection "a", .handleRequestVote 0 "b", .countVote 1, .sendHeartbeat "a" "b",
    .handleAppendEntries 2, .sendHeartbeat "a" "c", .handleAppendEntries 4, .runElection "c",
    .handleRequestVote 6 "b", .countVote 7]

theorem election_safety_in_turn :
    threeNodes.SafeRun electionsInTurn ∧ threeNodes.Led electionsInTurn "c" 2 ∧
      ∀ other, threeNodes.Led electionsInTurn other 2 → other = "c" := by
  have safe : threeNodes.SafeRun electionsInTurn := by decide +kernel
  have keeps : ∀ action ∈ electionsInTurn, action.KeepsConfiguration := by
    simp [electionsInTurn, Action.KeepsConfiguration]
  have led : threeNodes.Led electionsInTurn "c" 2 :=
    led_of_leads (List.prefix_refl _) (by decide +kernel)
  exact ⟨safe, led, fun other leads =>
    election_safety _ _ _ electionsInTurn keeps safe 2 other "c" leads led⟩

/-- Node `a` wins term 3 with the vote of `c`.  Its first AppendEntries call is refused by `c`
and clears that vote, so `b` wins term 3 with the vote of `c` as well. -/
def voteForgotten : List Action :=
  [.runElection "a", .handleRequestVote 0 "b", .countVote 1, .runElection "b",
    .handleRequestVote 2 "a", .runElection "a", .handleRequestVote 4 "c", .countVote 5,
    .sendHeartbeat "a" "c", .handleAppendEntries 6, .runElection "b", .handleRequestVote 8 "c",
    .countVote 9]

theorem two_leaders_in_one_term :
    (∀ action ∈ voteForgotten, action.KeepsConfiguration) ∧
      ¬ threeNodes.OneLeaderPerTerm voteForgotten := by
  constructor
  · simp [voteForgotten, Action.KeepsConfiguration]
  · intro unique
    have one : threeNodes.Led voteForgotten "a" 3 :=
      led_of_leads (List.prefix_refl _) (by decide +kernel)
    have two : threeNodes.Led voteForgotten "b" 3 :=
      led_of_leads (List.prefix_refl _) (by decide +kernel)
    exact absurd (unique 3 "a" "b" one two) (by decide)

end Safe

end Cluster

end JouleDB.Raft
