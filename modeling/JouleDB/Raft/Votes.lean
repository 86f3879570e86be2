import JouleDB.Raft.Calls

/-!
# Votes and elections

Votes are read off the messages: a candidate's request stands for its vote for itself, a granted
reply for the vote of its sender.  Messages stay, so votes are never lost.  In every run a
leader has a quorum of votes for its term, counted by the configuration that it had when it
started its election.
-/

namespace JouleDB.Raft

/-- The vote that a message bears witness to: voter, term and candidate. -/
def Message.vote : Message → Option (NodeId × Nat × NodeId)
  | .requestVote _ request => some (request.candidateId, request.term, request.candidateId)
  | .requestVoteReply voter request response =>
      if response.voteGranted then some (voter, request.term, request.candidateId) else none
  | .appendEntries _ _ => none
  | .appendEntriesReply _ _ _ => none

namespace Cluster

/-- A node has voted for a candidate in a term. -/
def Voted (cluster : Cluster) (voter : NodeId) (term : Nat) (candidate : NodeId) : Prop :=
  ∃ message ∈ cluster.sent, message.vote = some (voter, term, candidate)

/-- Every node votes for one candidate in a term. -/
def OneVotePerTerm (cluster : Cluster) : Prop :=
  ∀ voter term first second,
    cluster.Voted voter term first → cluster.Voted voter term second → first = second

section Steps

variable {cluster next : Cluster}

@[simp] theorem setNode_self (id : NodeId) (node : RaftNode) :
    (cluster.setNode id node).nodes id = node := if_pos rfl

@[simp] theorem setNode_sent (id : NodeId) (node : RaftNode) :
    (cluster.setNode id node).sent = cluster.sent := rfl

@[simp] theorem setNode_elections (id : NodeId) (node : RaftNode) :
    (cluster.setNode id node).elections = cluster.elections := rfl

@[simp] theorem setElection_nodes (id : NodeId) (election : Option Election) :
    (cluster.setElection id election).nodes = cluster.nodes := rfl

@[simp] theorem setElection_sent (id : NodeId) (election : Option Election) :
    (cluster.setElection id election).sent = cluster.sent := rfl

@[simp] theorem send_nodes (message : Message) : (cluster.send message).nodes = cluster.nodes := rfl

@[simp] theorem send_elections (message : Message) :
    (cluster.send message).elections = cluster.elections := rfl

theorem setNode_of_ne {id other : NodeId} (node : RaftNode) (distinct : other ≠ id) :
    (cluster.setNode id node).nodes other = cluster.nodes other := if_neg distinct

/-- A step that has nothing to do with elections: one node takes a calm call, and messages that
are no votes are sent. -/
def Quiet (cluster next : Cluster) : Prop :=
  ∃ id node messages, RaftNode.Calm (cluster.nodes id) node ∧
    (∀ message ∈ messages, message.vote = none) ∧
    next = { cluster.setNode id node with sent := cluster.sent ++ messages }

theorem Quiet.setNode {id : NodeId} {node : RaftNode}
    (calm : RaftNode.Calm (cluster.nodes id) node) : cluster.Quiet (cluster.setNode id node) :=
  ⟨id, node, [], calm, fun _ member => absurd member List.not_mem_nil, by
    rw [List.append_nil]
    rfl⟩

/-- A step starts an election, answers a vote request, counts a vote, or is quiet. -/
theorem step_cases {action : Action} (taken : cluster.step action = some next) :
    (∃ id, action = .runElection id ∧ cluster.runElection id = some next) ∨
      (∃ position voter peers request, action = .handleRequestVote position voter ∧
        cluster.sent[position]? = some (.requestVote peers request) ∧ voter ∈ peers ∧
        next = cluster.handleRequestVote voter request) ∨
      (∃ position voter request response election, action = .countVote position ∧
        cluster.sent[position]? = some (.requestVoteReply voter request response) ∧
        cluster.elections request.candidateId = some election ∧ election.request = request ∧
        next = cluster.countVote request.candidateId election voter response) ∨
      cluster.Quiet next := by
  cases takes_of_step taken with
  | runElection runs => exact .inl ⟨_, rfl, runs⟩
  | handleRequestVote found addressed =>
      exact .inr (.inl ⟨_, _, _, _, rfl, found, addressed, rfl⟩)
  | countVote found running own =>
      exact .inr (.inr (.inl ⟨_, _, _, _, _, rfl, found, running, own, rfl⟩))
  | propose id command => exact .inr (.inr (.inr (.setNode (RaftNode.calm_propose _ _))))
  | proposeBatch id commands => exact .inr (.inr (.inr (.setNode (RaftNode.calm_proposeBatch _ _))))
  | @sendHeartbeat id peer request sending =>
      refine .inr (.inr (.inr ⟨id, cluster.nodes id, [.appendEntries peer request], .refl _, ?_, ?_⟩))
      · intro message member
        rw [List.mem_singleton.mp member]
        rfl
      · have unchanged : (cluster.setNode id (cluster.nodes id)).nodes = cluster.nodes := by
          funext other
          by_cases same : other = id
          · rw [same, setNode_self]
          · rw [setNode_of_ne _ same]
        rw [send]
        exact congrArg (fun nodes => Cluster.mk nodes _ _) unchanged.symm
  | @handleAppendEntries position peer request found =>
      refine .inr (.inr (.inr ⟨peer, _, [.appendEntriesReply peer request _],
        RaftNode.calm_handleAppendEntries _ request, ?_, rfl⟩))
      intro message member
      rw [List.mem_singleton.mp member]
      rfl
  | finishHeartbeats arrived =>
      exact .inr (.inr (.inr (.setNode (RaftNode.calm_finishHeartbeats _ _))))
  | applyCommittedEntries id =>
      exact .inr (.inr (.inr (.setNode (RaftNode.calm_applyCommittedEntries _))))
  | addNode id added => exact .inr (.inr (.inr (.setNode (RaftNode.calm_addNode _ _))))
  | removeNode id removed => exact .inr (.inr (.inr (.setNode (RaftNode.calm_removeNode _ _))))

theorem Voted.mono {voter candidate : NodeId} {term : Nat}
    (grows : cluster.sent ⊆ next.sent) (voted : cluster.Voted voter term candidate) :
    next.Voted voter term candidate := by
  obtain ⟨message, member, vote⟩ := voted
  exact ⟨message, grows member, vote⟩

end Steps

section Sound

variable {ran more : NodeId → Nat → ClusterConfig → Prop} {cluster next : Cluster}

/-- A node has the votes of a quorum of the configuration that it ran in the term with. -/
def Won (ran : NodeId → Nat → ClusterConfig → Prop) (cluster : Cluster) (id : NodeId)
    (term : Nat) : Prop :=
  ∃ config voters, ran id term config ∧ config.hasQuorum voters = true ∧
    ∀ voter ∈ voters, cluster.Voted voter term id

/-- What a running election keeps is true. -/
structure SoundElection (ran : NodeId → Nat → ClusterConfig → Prop) (cluster : Cluster)
    (id : NodeId) (election : Election) : Prop where
  ran : ran id election.request.term election.config
  candidate : election.request.candidateId = id
  reached : election.request.term ≤ (cluster.nodes id).persistent.currentTerm
  current : (cluster.nodes id).state = .candidate →
    (cluster.nodes id).persistent.currentTerm = election.request.term
  votes : ∀ voter ∈ election.votesReceived, cluster.Voted voter election.request.term id

/-- Votes, elections and leaders fit together; `ran` tells with which configuration a node ran
in a term. -/
structure Sound (ran : NodeId → Nat → ClusterConfig → Prop) (cluster : Cluster) : Prop where
  nodeId : ∀ id, (cluster.nodes id).nodeId = id
  reached : ∀ voter term candidate, cluster.Voted voter term candidate →
    term ≤ (cluster.nodes voter).persistent.currentTerm
  election : ∀ id election, cluster.elections id = some election →
    SoundElection ran cluster id election
  leader : ∀ id, (cluster.nodes id).state = .leader →
    cluster.Won ran id (cluster.nodes id).persistent.currentTerm

theorem Won.mono {id : NodeId} {term : Nat} (wider : ∀ id term config,
    ran id term config → more id term config) (grows : cluster.sent ⊆ next.sent)
    (won : cluster.Won ran id term) : next.Won more id term := by
  obtain ⟨config, voters, entered, quorum, votes⟩ := won
  exact ⟨config, voters, wider _ _ _ entered, quorum, fun voter member =>
    (votes voter member).mono grows⟩

/-- What a step keeps when it changes one node by a calm call and sends no vote of a term that
its voter has not reached. -/
theorem Sound.calm {id : NodeId} {node : RaftNode} {messages : List Message}
    (sound : cluster.Sound ran) (calm : RaftNode.Calm (cluster.nodes id) node)
    (votes : ∀ message ∈ messages, ∀ voter term candidate,
      message.vote = some (voter, term, candidate) →
      voter = id ∧ term ≤ node.persistent.currentTerm) :
    { cluster.setNode id node with sent := cluster.sent ++ messages }.Sound ran := by
  have grows : cluster.sent ⊆ cluster.sent ++ messages := List.subset_append_left _ _
  have rises : ∀ other, (cluster.nodes other).persistent.currentTerm ≤
      ((cluster.setNode id node).nodes other).persistent.currentTerm := by
    intro other
    by_cases same : other = id
    · rw [same, setNode_self]
      exact calm.rises
    · rw [setNode_of_ne _ same]
  have active : ∀ other, ((cluster.setNode id node).nodes other).state ≠ .follower →
      ((cluster.setNode id node).nodes other).state = (cluster.nodes other).state ∧
        ((cluster.setNode id node).nodes other).persistent.currentTerm =
          (cluster.nodes other).persistent.currentTerm := by
    intro other
    by_cases same : other = id
    · rw [same, setNode_self]
      exact calm.of_active
    · rw [setNode_of_ne _ same]
      exact fun _ => ⟨rfl, rfl⟩
  constructor
  · intro other
    by_cases same : other = id
    · rw [same]
      exact (congrArg RaftNode.nodeId (setNode_self id node)).trans
        (calm.nodeId.trans (sound.nodeId id))
    · exact (congrArg RaftNode.nodeId (setNode_of_ne node same)).trans (sound.nodeId other)
  · rintro voter term candidate ⟨message, member, vote⟩
    rcases List.mem_append.mp member with old | new
    · exact le_trans (sound.reached voter term candidate ⟨message, old, vote⟩) (rises voter)
    · obtain ⟨rfl, below⟩ := votes message new voter term candidate vote
      exact below.trans (le_of_eq (congrArg (·.persistent.currentTerm)
        (setNode_self voter node).symm))
  · intro other election running
    have before := sound.election other election running
    refine ⟨before.ran, before.candidate, le_trans before.reached (rises other), ?_, ?_⟩
    · intro isCandidate
      obtain ⟨state, term⟩ := active other (by rw [isCandidate]; simp)
      rw [term]
      exact before.current (state.symm.trans isCandidate)
    · exact fun voter member => (before.votes voter member).mono grows
  · intro other isLeader
    obtain ⟨state, term⟩ := active other (by rw [isLeader]; simp)
    rw [term]
    exact (sound.leader other (state.symm.trans isLeader)).mono (fun _ _ _ entered => entered)
      grows

theorem Sound.quiet (sound : cluster.Sound ran) (quiet : cluster.Quiet next) : next.Sound ran := by
  obtain ⟨id, node, messages, calm, silent, rfl⟩ := quiet
  apply sound.calm calm
  intro message member voter term candidate vote
  rw [silent message member] at vote
  exact absurd vote (by simp)

theorem Sound.handleRequestVote {voter : NodeId} {request : RequestVoteRequest}
    (sound : cluster.Sound ran) : (cluster.handleRequestVote voter request).Sound ran := by
  apply sound.calm (RaftNode.calm_handleRequestVote _ request)
  intro message member other term candidate vote
  rw [List.mem_singleton.mp member, Message.vote] at vote
  split at vote
  next granted =>
    cases vote
    obtain ⟨_, persistent⟩ := RaftNode.handleRequestVote_of_granted _ granted
    exact ⟨rfl, le_of_eq (congrArg PersistentState.currentTerm persistent).symm⟩
  next => exact absurd vote (by simp)

theorem runElection_eq {id : NodeId} (started : cluster.runElection id = some next) :
    (cluster.nodes id).state ≠ .leader ∧ ∃ node, node = (cluster.nodes id).becomeCandidate ∧
      next = ((cluster.setNode id node).setElection id
        (some ⟨voteRequest node, node.clusterConfig, {node.nodeId}⟩)).send
          (.requestVote (node.clusterConfig.votingMembers.erase node.nodeId)
            (voteRequest node)) := by
  rw [runElection] at started
  split at started
  next => exact absurd started (by simp)
  next other => exact ⟨other, _, rfl, (Option.some.inj started).symm⟩

theorem Sound.runElection {id : NodeId} (sound : cluster.Sound ran)
    (started : cluster.runElection id = some next)
    (wider : ∀ id term config, ran id term config → more id term config)
    (entered : more id ((cluster.nodes id).persistent.currentTerm + 1)
      (cluster.nodes id).clusterConfig) : next.Sound more := by
  obtain ⟨_, node, isCandidate, rfl⟩ := runElection_eq started
  have fields := (cluster.nodes id).becomeCandidate_eq
  have nodeId : node.nodeId = id := by
    rw [isCandidate, fields]
    exact sound.nodeId id
  have term : node.persistent.currentTerm = (cluster.nodes id).persistent.currentTerm + 1 := by
    rw [isCandidate, fields]
  have config : node.clusterConfig = (cluster.nodes id).clusterConfig := by
    rw [isCandidate, fields]
  have state : node.state = .candidate := by
    rw [isCandidate, fields]
  have grows : cluster.sent ⊆ cluster.sent ++ [.requestVote
      (node.clusterConfig.votingMembers.erase node.nodeId) (voteRequest node)] :=
    List.subset_append_left _ _
  have own : (voteRequest node).candidateId = id := nodeId
  have rises : ∀ other, (cluster.nodes other).persistent.currentTerm ≤
      ((cluster.setNode id node).nodes other).persistent.currentTerm := by
    intro other
    by_cases same : other = id
    · rw [same, setNode_self, term]
      exact Nat.le_succ _
    · rw [setNode_of_ne _ same]
  constructor
  · intro other
    by_cases same : other = id
    · rw [same]
      exact (congrArg RaftNode.nodeId (setNode_self id node)).trans nodeId
    · exact (congrArg RaftNode.nodeId (setNode_of_ne node same)).trans (sound.nodeId other)
  · rintro voter reachedTerm candidate ⟨message, member, vote⟩
    rcases List.mem_append.mp member with old | new
    · exact le_trans (sound.reached voter reachedTerm candidate ⟨message, old, vote⟩) (rises voter)
    · rw [List.mem_singleton.mp new, Message.vote] at vote
      cases vote
      rw [own]
      exact le_of_eq (congrArg (·.persistent.currentTerm) (setNode_self id node).symm)
  · intro other election found
    dsimp only [send, Cluster.setElection] at found
    split at found
    next same =>
      subst same
      cases found
      refine ⟨?_, own, ?_, ?_, ?_⟩
      · rw [config]
        exact (congrArg (more other · _) term).mpr entered
      · exact le_of_eq (congrArg (·.persistent.currentTerm) (setNode_self other node).symm)
      · exact fun _ => congrArg (·.persistent.currentTerm) (setNode_self other node)
      · intro voter member
        rw [Finset.mem_singleton.mp member, nodeId]
        refine ⟨_, List.mem_append_right _ (List.mem_singleton_self _), ?_⟩
        rw [Message.vote, own]
    next distinct =>
      have before := sound.election other election found
      refine ⟨wider _ _ _ before.ran, before.candidate, le_trans before.reached (rises other),
        ?_, fun voter member => (before.votes voter member).mono grows⟩
      intro isCandidate
      rw [send_nodes, setElection_nodes, setNode_of_ne _ distinct] at isCandidate ⊢
      exact before.current isCandidate
  · intro other isLeader
    rw [send_nodes, setElection_nodes] at isLeader ⊢
    by_cases same : other = id
    · rw [same, setNode_self, state] at isLeader
      exact absurd isLeader (by simp)
    · rw [setNode_of_ne _ same] at isLeader ⊢
      exact (sound.leader other isLeader).mono wider grows

theorem Sound.setElection {id : NodeId} {election : Option Election} (sound : cluster.Sound ran)
    (fine : ∀ running, election = some running → SoundElection ran cluster id running) :
    (cluster.setElection id election).Sound ran := by
  refine ⟨sound.nodeId, sound.reached, ?_, sound.leader⟩
  intro other running found
  dsimp only [Cluster.setElection] at found
  split at found
  next same =>
    rw [same]
    have before := fine running found
    exact ⟨before.ran, before.candidate, before.reached, before.current, before.votes⟩
  next =>
    have before := sound.election other running found
    exact ⟨before.ran, before.candidate, before.reached, before.current, before.votes⟩

theorem Sound.becomeLeader {id : NodeId} (sound : cluster.Sound ran)
    (won : cluster.Won ran id (cluster.nodes id).persistent.currentTerm) :
    ((cluster.setNode id (cluster.nodes id).becomeLeader).setElection id none).Sound ran := by
  have fields := (cluster.nodes id).becomeLeader_eq
  have same : ∀ other,
      ((cluster.setNode id (cluster.nodes id).becomeLeader).nodes other).nodeId =
        (cluster.nodes other).nodeId ∧
      ((cluster.setNode id (cluster.nodes id).becomeLeader).nodes other).persistent.currentTerm =
        (cluster.nodes other).persistent.currentTerm := by
    intro other
    by_cases same : other = id
    · rw [same, setNode_self, fields]
      exact ⟨rfl, rfl⟩
    · rw [setNode_of_ne _ same]
      exact ⟨rfl, rfl⟩
  constructor
  · exact fun other => (same other).1.trans (sound.nodeId other)
  · exact fun voter term candidate voted =>
      (sound.reached voter term candidate voted).trans (le_of_eq (same voter).2.symm)
  · intro other election found
    dsimp only [Cluster.setElection] at found
    split at found
    next => exact absurd found (by simp)
    next distinct =>
      have before := sound.election other election found
      refine ⟨before.ran, before.candidate, before.reached.trans (le_of_eq (same other).2.symm),
        ?_, before.votes⟩
      intro isCandidate
      rw [setElection_nodes] at isCandidate
      rw [setNode_of_ne _ distinct] at isCandidate
      exact (same other).2.trans (before.current isCandidate)
  · intro other isLeader
    rw [setElection_nodes, (same other).2]
    by_cases this : other = id
    · rw [this]
      exact won
    · rw [setElection_nodes, setNode_of_ne _ this] at isLeader
      exact sound.leader other isLeader

theorem Sound.countVote {id voter : NodeId} {election : Election}
    {response : RequestVoteResponse} (sound : cluster.Sound ran)
    (running : cluster.elections id = some election)
    (voted : response.voteGranted = true → cluster.Voted voter election.request.term id) :
    (cluster.countVote id election voter response).Sound ran := by
  have before := sound.election id election running
  rw [Cluster.countVote]
  dsimp only
  split
  next => exact sound.setElection (by simp)
  next stillCandidate =>
    have isCandidate : (cluster.nodes id).state = .candidate := of_not_not stillCandidate
    split
    next =>
      apply (sound.quiet (Quiet.setNode (RaftNode.calm_becomeFollower _ _ _))).setElection
      simp
    next =>
      split
      next granted =>
        have votes : ∀ other ∈ insert voter election.votesReceived,
            cluster.Voted other election.request.term id := by
          intro other member
          rcases Finset.mem_insert.mp member with rfl | counted
          · exact voted granted
          · exact before.votes other counted
        split
        next quorum =>
          apply sound.becomeLeader
          rw [before.current isCandidate]
          exact ⟨election.config, _, before.ran, quorum, votes⟩
        next =>
          apply sound.setElection
          rintro _ ⟨⟩
          exact ⟨before.ran, before.candidate, before.reached, before.current, votes⟩
      next => exact sound

end Sound

section Runs

variable {start cluster next : Cluster} {actions : List Action}

theorem after_append (front back : List Action) :
    start.after (front ++ back) = (start.after front).bind fun middle => middle.after back := by
  induction front generalizing start with
  | nil => rfl
  | cons action front ih =>
      rw [List.cons_append, after, after, Option.bind_assoc]
      exact congrArg _ (funext fun next => ih)

theorem after_concat (front : List Action) (action : Action) :
    start.after (front ++ [action]) = (start.after front).bind fun middle => middle.step action := by
  rw [after_append]
  refine congrArg _ (funext fun middle => ?_)
  rw [after]
  cases middle.step action <;> rfl

theorem exists_of_after_concat {front : List Action} {action : Action}
    (reached : start.after (front ++ [action]) = some next) :
    ∃ middle, start.after front = some middle ∧ middle.step action = some next := by
  rw [after_concat] at reached
  exact Option.bind_eq_some_iff.mp reached

/-- At some moment of the run the node led the term. -/
def Led (start : Cluster) (actions : List Action) (id : NodeId) (term : Nat) : Prop :=
  ∃ front cluster, front <+: actions ∧ start.after front = some cluster ∧ cluster.Leads id term

theorem led_of_leads {front : List Action} {id : NodeId} {term : Nat} (shorter : front <+: actions)
    (leads : (start.after front).any (fun cluster => cluster.Leads id term) = true) :
    start.Led actions id term := by
  cases reached : start.after front with
  | none =>
      rw [reached] at leads
      exact absurd leads Bool.false_ne_true
  | some cluster =>
      rw [reached] at leads
      exact ⟨front, cluster, shorter, reached, of_decide_eq_true leads⟩

/-- At some moment of the run the node entered the term by starting an election with the
configuration. -/
def Ran (start : Cluster) (actions : List Action) (id : NodeId) (term : Nat)
    (config : ClusterConfig) : Prop :=
  ∃ front cluster, front ++ [.runElection id] <+: actions ∧ start.after front = some cluster ∧
    (cluster.nodes id).persistent.currentTerm + 1 = term ∧
    (cluster.nodes id).clusterConfig = config

/-- No two nodes lead the same term in a run. -/
def OneLeaderPerTerm (start : Cluster) (actions : List Action) : Prop :=
  ∀ term first second, start.Led actions first term → start.Led actions second term →
    first = second

theorem Ran.mono {front : List Action} {id : NodeId} {term : Nat} {config : ClusterConfig}
    (shorter : front <+: actions) (ran : start.Ran front id term config) :
    start.Ran actions id term config := by
  obtain ⟨before, cluster, included, reached, entered⟩ := ran
  exact ⟨before, cluster, included.trans shorter, reached, entered⟩

theorem countVote_sent (id voter : NodeId) (election : Election) (response : RequestVoteResponse) :
    (cluster.countVote id election voter response).sent = cluster.sent := by
  rw [countVote]
  dsimp only
  split
  · rfl
  · split
    · rfl
    · split
      · split <;> rfl
      · rfl

theorem sent_prefix_step {action : Action} (taken : cluster.step action = some next) :
    cluster.sent <+: next.sent := by
  rcases step_cases taken with ⟨id, _, started⟩ | ⟨_, voter, _, request, _, _, _, rfl⟩ |
    ⟨_, voter, request, response, election, _, _, _, _, rfl⟩ | ⟨id, node, messages, _, _, rfl⟩
  · obtain ⟨_, node, _, rfl⟩ := runElection_eq started
    exact List.prefix_append _ _
  · exact List.prefix_append _ _
  · rw [countVote_sent]
  · exact List.prefix_append _ _

theorem sent_prefix_after {later : List Action} (reached : cluster.after later = some next) :
    cluster.sent <+: next.sent := by
  induction later generalizing cluster with
  | nil =>
      cases reached
      exact List.prefix_refl _
  | cons action later ih =>
      obtain ⟨middle, taken, rest⟩ := Option.bind_eq_some_iff.mp reached
      exact (sent_prefix_step taken).trans (ih rest)

theorem sound_initial (config : ClusterConfig) (maxEntriesPerRpc : NodeId → Nat)
    (storage : NodeId → Storage) (ran : NodeId → Nat → ClusterConfig → Prop) :
    (initial config maxEntriesPerRpc storage).Sound ran := by
  constructor
  · exact fun _ => rfl
  · rintro voter term candidate ⟨message, member, _⟩
    exact absurd member List.not_mem_nil
  · intro id election running
    exact absurd running (by simp [initial])
  · intro id isLeader
    exact absurd isLeader (by simp [initial, RaftNode.new])

/-- A step keeps votes, elections and leaders in order. -/
theorem Sound.step {ran more : NodeId → Nat → ClusterConfig → Prop} {action : Action}
    (sound : cluster.Sound ran) (taken : cluster.step action = some next)
    (wider : ∀ id term config, ran id term config → more id term config)
    (entered : ∀ id, action = .runElection id →
      more id ((cluster.nodes id).persistent.currentTerm + 1)
        (cluster.nodes id).clusterConfig) : next.Sound more := by
  have same : ∀ {other : Cluster}, other.Sound ran → other.Sound more := by
    intro other before
    refine ⟨before.nodeId, before.reached, ?_, ?_⟩
    · intro id election running
      have kept := before.election id election running
      exact ⟨wider _ _ _ kept.ran, kept.candidate, kept.reached, kept.current, kept.votes⟩
    · exact fun id isLeader =>
        (before.leader id isLeader).mono wider (List.Subset.refl _)
  rcases step_cases taken with ⟨id, rfl, started⟩ | ⟨_, voter, _, request, _, _, _, rfl⟩ |
    ⟨_, voter, request, response, election, _, found, running, rfl, rfl⟩ | quiet
  · exact sound.runElection started wider (entered id rfl)
  · exact same sound.handleRequestVote
  · apply same
    apply sound.countVote running
    intro granted
    refine ⟨_, List.mem_of_getElem? found, ?_⟩
    rw [Message.vote, if_pos granted]
  · exact same (sound.quiet quiet)

/-- In every run, votes, elections and leaders are in order. -/
theorem sound_after {config : ClusterConfig} {maxEntriesPerRpc : NodeId → Nat}
    {storage : NodeId → Storage}
    (reached : (initial config maxEntriesPerRpc storage).after actions = some cluster) :
    cluster.Sound ((initial config maxEntriesPerRpc storage).Ran actions) := by
  induction actions using List.reverseRecOn generalizing cluster with
  | nil =>
      cases reached
      exact sound_initial config maxEntriesPerRpc storage _
  | append_singleton front action ih =>
      obtain ⟨middle, before, taken⟩ := exists_of_after_concat reached
      apply (ih before).step taken
      · exact fun _ _ _ ran => ran.mono (List.prefix_append _ _)
      · rintro id rfl
        exact ⟨front, middle, List.prefix_refl _, before, rfl, rfl⟩

theorem Led.won {config : ClusterConfig} {maxEntriesPerRpc : NodeId → Nat}
    {storage : NodeId → Storage} {id : NodeId} {term : Nat}
    (reached : (initial config maxEntriesPerRpc storage).after actions = some cluster)
    (led : (initial config maxEntriesPerRpc storage).Led actions id term) :
    cluster.Won ((initial config maxEntriesPerRpc storage).Ran actions) id term := by
  obtain ⟨front, earlier, ⟨back, rfl⟩, before, isLeader, rfl⟩ := led
  rw [after_append, before] at reached
  apply ((sound_after before).leader id isLeader).mono
  · exact fun _ _ _ ran => ran.mono (List.prefix_append _ _)
  · exact (sent_prefix_after reached).subset

end Runs

end Cluster

end JouleDB.Raft
