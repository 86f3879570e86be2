import JouleDB.Raft.Votes

/-!
# Runs with a fixed configuration

As long as nobody proposes a configuration, no log and no message holds one, so applying
entries leaves every node with the configuration it was started with.
-/

namespace JouleDB.Raft

/-- The command leaves the configuration alone. -/
def Command.Plain (command : Command) : Prop := ∀ config, command ≠ .configChange config

/-- The step proposes no configuration. -/
def Action.KeepsConfiguration : Action → Prop
  | .propose _ command => command.Plain
  | .proposeBatch _ commands => ∀ command ∈ commands, command.Plain
  | .addNode _ _ => False
  | .removeNode _ _ => False
  | _ => True

namespace RaftNode

/-- A call that keeps the configuration and puts only plain commands into the log. -/
def Steady (before after : RaftNode) : Prop :=
  after.clusterConfig = before.clusterConfig ∧
    ∀ entry ∈ after.persistent.log, entry ∈ before.persistent.log ∨ entry.command.Plain

namespace Steady

variable {node : RaftNode}

theorem refl (node : RaftNode) : Steady node node := ⟨rfl, fun _ member => .inl member⟩

theorem trans {first second third : RaftNode} (one : Steady first second)
    (two : Steady second third) : Steady first third := by
  refine ⟨two.1.trans one.1, ?_⟩
  intro entry member
  rcases two.2 entry member with kept | plain
  · exact one.2 entry kept
  · exact .inr plain

theorem of_eq {before after : RaftNode} (config : after.clusterConfig = before.clusterConfig)
    (log : after.persistent.log = before.persistent.log) : Steady before after := by
  refine ⟨config, ?_⟩
  rw [log]
  exact fun _ member => .inl member

theorem mem_foldl_push {state : PersistentState} (commands : List Command)
    (plain : ∀ command ∈ commands, command.Plain) :
    ∀ entry ∈ (commands.foldl PersistentState.push state).log,
      entry ∈ state.log ∨ entry.command.Plain := by
  induction commands generalizing state with
  | nil => exact fun _ member => .inl member
  | cons command commands ih =>
      intro entry member
      rcases ih (fun other inside => plain other (List.mem_cons_of_mem _ inside)) entry member with
        pushed | isPlain
      · rcases List.mem_append.mp pushed with old | new
        · exact .inl old
        · rw [List.mem_singleton.mp new]
          exact .inr (plain command List.mem_cons_self)
      · exact .inr isPlain

theorem proposeInternal {command : Command} (plain : command.Plain) :
    Steady node (node.proposeInternal command).2 := by
  rw [proposeInternal_eq]
  refine ⟨rfl, mem_foldl_push [command] ?_⟩
  intro other member
  rw [List.mem_singleton.mp member]
  exact plain

theorem propose {command : Command} (plain : command.Plain) :
    Steady node (node.propose command).2 := by
  rcases node.propose_eq command with same | ⟨_, equal⟩
  · rw [same]
    exact refl node
  · rw [equal]
    exact proposeInternal plain

theorem proposeBatch {commands : List Command} (plain : ∀ command ∈ commands, command.Plain) :
    Steady node (node.proposeBatch commands).2 := by
  rcases node.proposeBatch_eq commands with same | ⟨_, equal⟩
  · rw [same]
    exact refl node
  · rw [equal]
    exact ⟨rfl, mem_foldl_push commands plain⟩

theorem becomeFollower (term : Nat) (leaderId : Option NodeId) :
    Steady node (node.becomeFollower term leaderId) := by
  obtain ⟨persistent, equal, log, _⟩ := node.becomeFollower_eq term leaderId
  rw [equal]
  exact of_eq rfl log

theorem becomeCandidate : Steady node node.becomeCandidate := of_eq rfl rfl

theorem becomeLeader : Steady node node.becomeLeader := by
  rw [becomeLeader_eq]
  refine ⟨rfl, mem_foldl_push [.noop] ?_⟩
  intro command member
  rw [List.mem_singleton.mp member]
  exact fun _ => Command.noConfusion

theorem follow (term : Nat) (leaderId : Option NodeId) :
    Steady node (node.follow term leaderId) := by
  rw [follow_eq]
  exact of_eq rfl rfl

theorem catchUp (term : Nat) (leaderId : Option NodeId) :
    Steady node (node.catchUp term leaderId) := by
  rw [RaftNode.catchUp]
  split
  · exact follow term leaderId
  · exact refl node

theorem handleRequestVote (request : RequestVoteRequest) :
    Steady node (node.handleRequestVote request).1 := by
  rcases node.handleRequestVote_eq request with ⟨_, same⟩ | ⟨_, equal⟩
  · rw [same]
    exact refl node
  · rw [equal]
    split
    · exact (catchUp request.term none).trans (of_eq rfl rfl)
    · exact catchUp request.term none

theorem followCommit (leaderCommit lastNewIndex : Nat) :
    Steady node (node.followCommit leaderCommit lastNewIndex) := by
  rw [RaftNode.followCommit]
  split
  · exact of_eq rfl rfl
  · exact refl node

theorem acceptEntries {request : AppendEntriesRequest}
    (plain : ∀ entry ∈ request.entries, entry.command.Plain) :
    Steady node (node.acceptEntries request).1 := by
  obtain ⟨log, merged, origin⟩ := node.persistent.merge_eq request.entries
  have kept : ∀ entry ∈ log, entry ∈ node.persistent.log ∨ entry.command.Plain := by
    intro entry member
    rcases origin entry member with old | new
    · exact .inl old
    · exact .inr (plain entry new)
  obtain ⟨storage, accepted | accepted⟩ := node.acceptEntries_eq request
  · rw [accepted, merged]
    exact ⟨rfl, kept⟩
  · rw [accepted, merged]
    refine trans ?_ (followCommit _ _)
    exact ⟨rfl, kept⟩

theorem handleAppendEntries {request : AppendEntriesRequest}
    (plain : ∀ entry ∈ request.entries, entry.command.Plain) :
    Steady node (node.handleAppendEntries request).1 := by
  rcases node.handleAppendEntries_eq request with
    ⟨_, same⟩ | ⟨_, ⟨_, equal, _⟩ | ⟨_, equal⟩⟩
  · rw [same]
    exact refl node
  · rw [equal]
    exact follow _ _
  · rw [equal]
    exact (follow _ _).trans (acceptEntries plain)

theorem finishHeartbeats (responses : List (NodeId × AppendEntriesResponse)) :
    Steady node (node.finishHeartbeats responses) := by
  apply takeResponses_induction _ (P := Steady node) (refl node)
  · intro done peer response steady _ _
    exact steady.trans (of_eq rfl rfl)
  · intro done term steady _
    exact steady.trans (becomeFollower term none)
  · intro done steady
    obtain ⟨commitIndex, equal, _⟩ := done.maybeAdvanceCommitIndex_eq
    rw [equal]
    exact steady.trans (of_eq rfl rfl)

theorem applyCommittedEntries
    (plain : ∀ entry ∈ node.persistent.log, entry.command.Plain) :
    Steady node node.applyCommittedEntries := by
  apply applyCommittedEntries_induction _ (P := Steady node) (refl node)
  · intro done entry steady member
    obtain ⟨config, persistent, storage, equal, _, otherwise⟩ := done.applyEntry_eq entry
    obtain ⟨sameConfig, samePersistent⟩ := otherwise (plain entry (List.mem_of_mem_take member))
    rw [equal, sameConfig, samePersistent]
    exact steady.trans (of_eq rfl rfl)
  · intro done lastApplied steady
    exact steady.trans (of_eq rfl rfl)

end Steady

/-- A heartbeat carries entries of the leader's log. -/
theorem mem_of_heartbeatRequest {node : RaftNode} {peer : NodeId} {request : AppendEntriesRequest}
    (sending : node.heartbeatRequest peer = some request) :
    ∀ entry ∈ request.entries, entry ∈ node.persistent.log := by
  rw [heartbeatRequest] at sending
  split at sending
  next =>
    split at sending
    next => exact absurd sending (by simp)
    next leader _ =>
      dsimp only at sending
      obtain ⟨entries, slice, rfl⟩ := Option.map_eq_some_iff.mp sending
      intro entry member
      split at slice
      next =>
        exact List.mem_of_mem_take (node.persistent.mem_of_getEntries slice entry member)
      next =>
        cases slice
        exact absurd member List.not_mem_nil
  next => exact absurd sending (by simp)

end RaftNode

namespace Cluster

variable {cluster next : Cluster} {config : ClusterConfig}

/-- Every node has the configuration, and nobody knows of another one. -/
structure Fixed (config : ClusterConfig) (cluster : Cluster) : Prop where
  config : ∀ id, (cluster.nodes id).clusterConfig = config
  logs : ∀ id, ∀ entry ∈ (cluster.nodes id).persistent.log, entry.command.Plain
  messages : ∀ peer request, .appendEntries peer request ∈ cluster.sent →
    ∀ entry ∈ request.entries, entry.command.Plain

/-- A step that changes one node by a steady call and sends plain entries only. -/
theorem Fixed.steady {id : NodeId} {node : RaftNode} {elections : NodeId → Option Election}
    {messages : List Message} (fixed : cluster.Fixed config)
    (steady : RaftNode.Steady (cluster.nodes id) node)
    (plain : ∀ peer request, .appendEntries peer request ∈ messages →
      ∀ entry ∈ request.entries, entry.command.Plain) :
    Fixed config ⟨(cluster.setNode id node).nodes, elections, cluster.sent ++ messages⟩ := by
  have atNode : ∀ other, RaftNode.Steady (cluster.nodes other)
      ((cluster.setNode id node).nodes other) := by
    intro other
    by_cases same : other = id
    · rw [same, setNode_self]
      exact steady
    · rw [setNode_of_ne _ same]
      exact .refl _
  constructor
  · exact fun other => (atNode other).1.trans (fixed.config other)
  · intro other entry member
    rcases (atNode other).2 entry member with old | new
    · exact fixed.logs other entry old
    · exact new
  · intro peer request member
    rcases List.mem_append.mp member with old | new
    · exact fixed.messages peer request old
    · exact plain peer request new

theorem Fixed.setNode {id : NodeId} {node : RaftNode} (fixed : cluster.Fixed config)
    (steady : RaftNode.Steady (cluster.nodes id) node) :
    (cluster.setNode id node).Fixed config := by
  have kept : Fixed config
      ⟨(cluster.setNode id node).nodes, cluster.elections, cluster.sent ++ []⟩ :=
    fixed.steady steady fun _ _ member => absurd member List.not_mem_nil
  rw [List.append_nil] at kept
  exact kept

theorem Fixed.countVote {id voter : NodeId} {election : Election}
    {response : RequestVoteResponse} (fixed : cluster.Fixed config) :
    (cluster.countVote id election voter response).Fixed config := by
  rw [Cluster.countVote]
  dsimp only
  split
  · exact ⟨fixed.config, fixed.logs, fixed.messages⟩
  · split
    · have kept : (cluster.setNode id _).Fixed config :=
        fixed.setNode (.becomeFollower response.term none)
      exact ⟨kept.config, kept.logs, kept.messages⟩
    · split
      · split
        · have kept : (cluster.setNode id _).Fixed config := fixed.setNode .becomeLeader
          exact ⟨kept.config, kept.logs, kept.messages⟩
        · exact ⟨fixed.config, fixed.logs, fixed.messages⟩
      · exact fixed

theorem Fixed.step {action : Action} (fixed : cluster.Fixed config)
    (taken : cluster.step action = some next) (keeps : action.KeepsConfiguration) :
    next.Fixed config := by
  cases takes_of_step taken with
  | runElection runs =>
      obtain ⟨_, node, rfl, rfl⟩ := runElection_eq runs
      exact fixed.steady .becomeCandidate (by simp)
  | @handleRequestVote _ _ _ request found addressed =>
      exact fixed.steady (.handleRequestVote request) (by simp)
  | countVote found running own => exact fixed.countVote
  | propose id command => exact fixed.setNode (.propose keeps)
  | proposeBatch id commands => exact fixed.setNode (.proposeBatch keeps)
  | @sendHeartbeat id peer request sending =>
      refine ⟨fixed.config, fixed.logs, ?_⟩
      intro other sent member
      rcases List.mem_append.mp member with old | new
      · exact fixed.messages other sent old
      · cases List.mem_singleton.mp new
        exact fun entry inside =>
          fixed.logs id entry (RaftNode.mem_of_heartbeatRequest sending entry inside)
  | handleAppendEntries found =>
      exact fixed.steady
        (.handleAppendEntries (fixed.messages _ _ (List.mem_of_getElem? found))) (by simp)
  | finishHeartbeats arrived => exact fixed.setNode (.finishHeartbeats _)
  | applyCommittedEntries id => exact fixed.setNode (.applyCommittedEntries (fixed.logs id))
  | addNode id added => exact keeps.elim
  | removeNode id removed => exact keeps.elim

/-- A run that proposes no configuration leaves every node with the first one. -/
theorem fixed_after {maxEntriesPerRpc : NodeId → Nat} {storage : NodeId → Storage}
    {actions : List Action} (keeps : ∀ action ∈ actions, action.KeepsConfiguration)
    (reached : (initial config maxEntriesPerRpc storage).after actions = some cluster) :
    cluster.Fixed config := by
  induction actions using List.reverseRecOn generalizing cluster with
  | nil =>
      cases reached
      refine ⟨fun _ => rfl, ?_, ?_⟩
      · exact fun _ _ member => absurd member List.not_mem_nil
      · exact fun _ _ member => absurd member List.not_mem_nil
  | append_singleton front action ih =>
      obtain ⟨middle, before, taken⟩ := exists_of_after_concat reached
      have earlier : ∀ action ∈ front, action.KeepsConfiguration :=
        fun other member => keeps other (List.mem_append_left _ member)
      exact (ih earlier before).step taken
        (keeps action (List.mem_append_right _ (List.mem_singleton_self _)))

end Cluster

end JouleDB.Raft
