import JouleDB.Raft.Election
import JouleDB.Raft.InStep

/-!
# State machine safety

In a run with a fixed configuration and at most one leader in a term there is a history that all
nodes are in step with: messages are slices of the leaders' logs, confirmations of them, and
votes of nodes that keep what they have confirmed.  What the nodes apply was chosen, and of two
chosen lists one continues the other.
-/

namespace JouleDB.Raft

namespace Cluster

variable {config : ClusterConfig} {history later : History} {cluster next : Cluster}
  {led more : NodeId → Nat → Prop}

section Definitions

/-- The vote of a node whose log was no more recent than the candidate's, and had what the node
has confirmed, unless the term had a leader already. -/
def Ballot (history : History) (voter : NodeId) (request : RequestVoteRequest) : Prop :=
  ∃ log, history.DerivedLog log ∧
    (Chronicle.lastTerm LogEntry.term log < request.lastLogTerm ∨
      Chronicle.lastTerm LogEntry.term log = request.lastLogTerm ∧
        log.length ≤ request.lastLogIndex) ∧
    ((history.reigns request.term).isSome ∨ history.Keeps voter request.term log)

/-- What a message says is true. -/
def Vouched (config : ClusterConfig) (history : History) (nodes : NodeId → RaftNode) :
    Message → Prop
  | .requestVote _ _ => True
  | .requestVoteReply voter request response =>
      response.voteGranted = true → Ballot history voter request ∧
        request.term ≤ (nodes voter).persistent.currentTerm
  | .appendEntries _ request =>
      ∃ reign, history.reigns request.term = some reign ∧ request.Slices reign.log ∧
        (request.leaderCommit = 0 ∨ request.leaderCommit ≤ reign.log.length ∧
          history.IsChosen config request.term (reign.log.take request.leaderCommit))
  | .appendEntriesReply peer _ response =>
      response.success = true → ∃ front, history.acked peer response.term front ∧
        response.matchIndex = front.length

/-- What a running election keeps is true. -/
structure Supported (config : ClusterConfig) (history : History) (nodes : NodeId → RaftNode)
    (id : NodeId) (election : Election) : Prop where
  config : election.config = config
  votes : ∀ voter ∈ election.votesReceived, Ballot history voter election.request ∧
    election.request.term ≤ (nodes voter).persistent.currentTerm
  candidate : (nodes id).state = .candidate →
    (nodes id).persistent.currentTerm = election.request.term ∧
      (nodes id).persistent.log.length = election.request.lastLogIndex ∧
      Chronicle.lastTerm LogEntry.term (nodes id).persistent.log = election.request.lastLogTerm

/-- The cluster agrees with a history; `led` tells who has led which term. -/
structure Agrees (config : ClusterConfig) (led : NodeId → Nat → Prop) (history : History)
    (cluster : Cluster) : Prop where
  sound : history.IsSound config
  inStep : ∀ id, InStep config history id (cluster.nodes id)
  indexed : ∀ {term reign}, history.reigns term = some reign → Indexed reign.log
  led : ∀ {term reign}, history.reigns term = some reign → led reign.leader term
  voters : ∀ {term reign}, history.reigns term = some reign → ∀ voter ∈ reign.voters,
    term ≤ (cluster.nodes voter).persistent.currentTerm
  elections : ∀ id election, cluster.elections id = some election →
    Supported config history cluster.nodes id election
  messages : ∀ message ∈ cluster.sent, Vouched config history cluster.nodes message

end Definitions

section Frame

variable {id actor : NodeId} {now : Nat}

theorem Ballot.mono {voter : NodeId} {request : RequestVoteRequest}
    (extension : Chronicle.Extends actor now history later)
    (apart : voter = actor → request.term ≤ now) (ballot : Ballot history voter request) :
    Ballot later voter request := by
  obtain ⟨log, derived, upToDate, evidence⟩ := ballot
  refine ⟨log, derived.mono extension, upToDate, ?_⟩
  rcases evidence with taken | keeps
  · obtain ⟨reign, recorded⟩ := Option.isSome_iff_exists.mp taken
    obtain ⟨log, known, _⟩ := extension.reigns recorded
    exact .inl (Option.isSome_iff_exists.mpr ⟨_, known⟩)
  · exact .inr (keeps.mono extension apart)

/-- A change of the history and of the nodes that leaves ballots and confirmations valid. -/
structure Progress (actor : NodeId) (now : Nat) (history later : History)
    (before after : NodeId → RaftNode) : Prop where
  extension : Chronicle.Extends actor now history later
  reached : (before actor).persistent.currentTerm ≤ now
  rises : ∀ id, (before id).persistent.currentTerm ≤ (after id).persistent.currentTerm

variable {before after : NodeId → RaftNode}

theorem ballot_progress {voter : NodeId} {request : RequestVoteRequest}
    (progress : Progress actor now history later before after)
    (valid : Ballot history voter request ∧
      request.term ≤ (before voter).persistent.currentTerm) :
    Ballot later voter request ∧ request.term ≤ (after voter).persistent.currentTerm := by
  refine ⟨valid.1.mono progress.extension ?_, valid.2.trans (progress.rises voter)⟩
  rintro rfl
  exact valid.2.trans progress.reached

theorem Vouched.mono {message : Message}
    (progress : Progress actor now history later before after)
    (vouched : Vouched config history before message) : Vouched config later after message := by
  cases message with
  | requestVote peers request => trivial
  | requestVoteReply voter request response =>
      exact fun granted => ballot_progress progress (vouched granted)
  | appendEntries peer request =>
      obtain ⟨reign, recorded, slices, committed⟩ := vouched
      obtain ⟨log, known, grows, _⟩ := progress.extension.reigns recorded
      refine ⟨_, known, slices.mono grows, ?_⟩
      rcases committed with nothing | ⟨inside, chosen⟩
      · exact .inl nothing
      · right
        refine ⟨inside.trans grows.length_le, ?_⟩
        obtain ⟨rest, rfl⟩ := grows
        dsimp only
        rw [List.take_append_of_le_length inside]
        exact chosen.mono progress.extension
  | appendEntriesReply peer request response =>
      intro success
      obtain ⟨front, acked, length⟩ := vouched success
      exact ⟨front, progress.extension.acked acked, length⟩

/-- What has to hold of the leaders that something done by a node adds or changes. -/
structure Crowned (actor : NodeId) (more : NodeId → Nat → Prop) (history later : History)
    (nodes : NodeId → RaftNode) : Prop where
  indexed : ∀ {term reign}, later.reigns term = some reign → reign.leader = actor →
    Indexed reign.log
  led : ∀ {term reign}, later.reigns term = some reign → history.reigns term = none →
    more reign.leader term
  voters : ∀ {term reign}, later.reigns term = some reign → history.reigns term = none →
    ∀ voter ∈ reign.voters, term ≤ (nodes voter).persistent.currentTerm

/-- A recorded leader is new, or has become from a recorded one. -/
theorem reign_cases (extension : Chronicle.Extends actor now history later) {term : Nat}
    {reign : Reign NodeId LogEntry} (recorded : later.reigns term = some reign) :
    history.reigns term = none ∨ ∃ old, history.reigns term = some old ∧
      reign.leader = old.leader ∧ reign.voters = old.voters ∧
      (old.leader ≠ actor → reign.log = old.log) := by
  cases known : history.reigns term with
  | none => exact .inl rfl
  | some old =>
      obtain ⟨log, final, _, same⟩ := extension.reigns known
      rw [recorded] at final
      cases final
      exact .inr ⟨old, rfl, rfl, rfl, same⟩

/-- One node does something that keeps it in step with a longer history, and sends messages that
are true. -/
theorem Agrees.act (agrees : cluster.Agrees config led history) {node : RaftNode}
    {messages : List Message} (extension : Chronicle.Extends id now history later)
    (sound : later.IsSound config) (inStep : InStep config later id node)
    (reached : (cluster.nodes id).persistent.currentTerm ≤ now)
    (rises : (cluster.nodes id).persistent.currentTerm ≤ node.persistent.currentTerm)
    (stays : ∀ election, cluster.elections id = some election → node.state = .candidate →
      (cluster.nodes id).state = .candidate ∧
        node.persistent.currentTerm = (cluster.nodes id).persistent.currentTerm ∧
        node.persistent.log = (cluster.nodes id).persistent.log)
    (wider : ∀ id term, led id term → more id term)
    (crowned : Crowned id more history later cluster.nodes)
    (vouched : ∀ message ∈ messages,
      Vouched config later (cluster.setNode id node).nodes message) :
    Agrees config more later
      ⟨(cluster.setNode id node).nodes, cluster.elections, cluster.sent ++ messages⟩ := by
  have risesAll : ∀ other, (cluster.nodes other).persistent.currentTerm ≤
      ((cluster.setNode id node).nodes other).persistent.currentTerm := by
    intro other
    by_cases same : other = id
    · rw [same, setNode_self]
      exact rises
    · rw [setNode_of_ne _ same]
  have progress : Progress id now history later cluster.nodes (cluster.setNode id node).nodes :=
    ⟨extension, reached, risesAll⟩
  constructor
  · exact sound
  · intro other
    dsimp only
    by_cases same : other = id
    · rw [same, setNode_self]
      exact inStep
    · rw [setNode_of_ne _ same]
      exact (agrees.inStep other).mono extension same
  · intro term reign recorded
    by_cases own : reign.leader = id
    · exact crowned.indexed recorded own
    · rcases reign_cases extension recorded with new | ⟨old, known, leader, _, log⟩
      · rcases extension.fresh recorded with some | ⟨_, isActor⟩
        · rw [new] at some
          exact absurd some (by simp)
        · exact absurd isActor own
      · rw [log (by rw [← leader]; exact own)]
        exact agrees.indexed known
  · intro term reign recorded
    rcases reign_cases extension recorded with new | ⟨old, known, leader, _⟩
    · exact crowned.led recorded new
    · rw [leader]
      exact wider _ _ (agrees.led known)
  · intro term reign recorded voter voted
    rcases reign_cases extension recorded with new | ⟨old, known, _, voters, _⟩
    · exact (crowned.voters recorded new voter voted).trans (risesAll voter)
    · rw [voters] at voted
      exact (agrees.voters known voter voted).trans (risesAll voter)
  · intro other election running
    have supported := agrees.elections other election running
    refine ⟨supported.config, ?_, ?_⟩
    · exact fun voter voted => ballot_progress progress (supported.votes voter voted)
    · intro isCandidate
      dsimp only at isCandidate ⊢
      by_cases same : other = id
      · subst same
        rw [setNode_self] at isCandidate ⊢
        obtain ⟨wasCandidate, term, log⟩ := stays election running isCandidate
        rw [term, log]
        exact supported.candidate wasCandidate
      · rw [setNode_of_ne _ same] at isCandidate ⊢
        exact supported.candidate isCandidate
  · intro message member
    rcases List.mem_append.mp member with old | new
    · exact (agrees.messages message old).mono progress
    · exact vouched message new

/-- Nothing changes for the leaders while the history stays the same. -/
theorem Crowned.refl (agrees : cluster.Agrees config led history) :
    Crowned id more history history cluster.nodes := by
  have vacuous : ∀ {term : Nat} {reign : Reign NodeId LogEntry},
      history.reigns term = some reign → history.reigns term = none → False := by
    intro term reign recorded vacant
    rw [vacant] at recorded
    exact absurd recorded (by simp)
  exact ⟨fun recorded _ => agrees.indexed recorded,
    fun recorded vacant => (vacuous recorded vacant).elim,
    fun recorded vacant => (vacuous recorded vacant).elim⟩

/-- One node does something that does not change the history. -/
theorem Agrees.act_quietly (agrees : cluster.Agrees config led history) {node : RaftNode}
    {messages : List Message} (inStep : InStep config history id node)
    (calm : RaftNode.Calm (cluster.nodes id) node)
    (log : node.state = .candidate →
      node.persistent.log = (cluster.nodes id).persistent.log)
    (wider : ∀ id term, led id term → more id term)
    (vouched : ∀ message ∈ messages,
      Vouched config history (cluster.setNode id node).nodes message) :
    Agrees config more history
      ⟨(cluster.setNode id node).nodes, cluster.elections, cluster.sent ++ messages⟩ := by
  apply agrees.act (Chronicle.Extends.refl id (cluster.nodes id).persistent.currentTerm history)
    agrees.sound inStep (le_refl _) calm.rises
  · intro election _ isCandidate
    obtain ⟨state, term⟩ := calm.of_active (by rw [isCandidate]; simp)
    exact ⟨state.symm.trans isCandidate, term, log isCandidate⟩
  · exact wider
  · exact Crowned.refl agrees
  · exact vouched

theorem Agrees.setNode (agrees : cluster.Agrees config led history) {node : RaftNode}
    (inStep : InStep config history id node) (calm : RaftNode.Calm (cluster.nodes id) node)
    (log : node.state = .candidate →
      node.persistent.log = (cluster.nodes id).persistent.log)
    (wider : ∀ id term, led id term → more id term) :
    (cluster.setNode id node).Agrees config more history := by
  have quiet : Agrees config more history
      ⟨(cluster.setNode id node).nodes, cluster.elections, cluster.sent ++ []⟩ :=
    agrees.act_quietly inStep calm log wider fun _ member => absurd member List.not_mem_nil
  rw [List.append_nil] at quiet
  exact quiet

theorem Agrees.setElection (agrees : cluster.Agrees config led history)
    {election : Option Election} (supported : ∀ running, election = some running →
      Supported config history cluster.nodes id running) :
    (cluster.setElection id election).Agrees config led history := by
  refine ⟨agrees.sound, agrees.inStep, agrees.indexed, agrees.led, agrees.voters, ?_,
    agrees.messages⟩
  intro other running found
  dsimp only [Cluster.setElection] at found
  split at found
  next same =>
    rw [same]
    exact supported running found
  next => exact agrees.elections other running found

theorem Agrees.widen (agrees : cluster.Agrees config led history)
    (wider : ∀ id term, led id term → more id term) : cluster.Agrees config more history :=
  ⟨agrees.sound, agrees.inStep, agrees.indexed, fun recorded => wider _ _ (agrees.led recorded),
    agrees.voters, agrees.elections, agrees.messages⟩

/-- No node has voted for a recorded leader of a later term than its own. -/
theorem Agrees.settled (agrees : cluster.Agrees config led history) (id : NodeId) :
    history.Settled id (cluster.nodes id).persistent.currentTerm :=
  fun _ _ recorded voted => agrees.voters recorded id voted

end Frame

section Elections

variable {id : NodeId}

/-- The vote of a node in step with the history, for a candidate of a term it has not passed. -/
theorem ballot_of_inStep {voter : NodeId} {node : RaftNode} {request : RequestVoteRequest}
    (inStep : InStep config history voter node)
    (recent : node.persistent.currentTerm ≤ request.term) (ok : node.logOk request = true) :
    Ballot history voter request := by
  refine ⟨node.persistent.log, inStep.derived, ?_, ?_⟩
  · rw [RaftNode.logOk, Bool.or_eq_true, Bool.and_eq_true, decide_eq_true_eq, decide_eq_true_eq,
      decide_eq_true_eq, inStep.indexed.lastLogIndex_eq] at ok
    rcases ok with newer | ⟨same, longer⟩
    · exact .inl newer
    · exact .inr ⟨same.symm, longer⟩
  · rcases Nat.lt_or_ge node.persistent.currentTerm request.term with higher | same
    · exact .inr (inStep.keeps.raise
        (fun confirmed => Nat.lt_succ_of_le (inStep.acked confirmed)) higher)
    · have equal : node.persistent.currentTerm = request.term := le_antisymm recent same
      have keeps := inStep.keeps
      rw [equal] at keeps
      cases vacant : history.reigns request.term with
      | some reign => exact .inl rfl
      | none => exact .inr (keeps.lower vacant)

theorem log_handleRequestVote (node : RaftNode) (request : RequestVoteRequest) :
    (node.handleRequestVote request).1.persistent.log = node.persistent.log := by
  rcases node.handleRequestVote_eq request with ⟨_, same⟩ | ⟨recent, equal⟩
  · rw [same]
  · have caught := (node.persistent_catchUp none recent).2
    rw [equal]
    split
    · exact caught
    · exact caught

theorem Agrees.handleRequestVote (agrees : cluster.Agrees config led history) {voter : NodeId}
    {request : RequestVoteRequest} (wider : ∀ id term, led id term → more id term) :
    (cluster.handleRequestVote voter request).Agrees config more history := by
  apply agrees.act_quietly ((agrees.inStep voter).handleRequestVote request)
    (RaftNode.calm_handleRequestVote _ request) (fun _ => log_handleRequestVote _ request) wider
  intro message member
  rw [List.mem_singleton.mp member]
  intro granted
  obtain ⟨recent, _, ok⟩ := (RaftNode.handleRequestVote_granted_iff _).mp granted
  obtain ⟨_, persistent⟩ := RaftNode.handleRequestVote_of_granted _ granted
  refine ⟨ballot_of_inStep (agrees.inStep voter) recent ok, ?_⟩
  rw [setNode_self, persistent]

theorem Agrees.runElection (agrees : cluster.Agrees config led history)
    (started : cluster.runElection id = some next) (nodeId : (cluster.nodes id).nodeId = id)
    (clusterConfig : (cluster.nodes id).clusterConfig = config)
    (wider : ∀ id term, led id term → more id term) : next.Agrees config more history := by
  obtain ⟨_, node, isCandidate, rfl⟩ := runElection_eq started
  have fields := (cluster.nodes id).becomeCandidate_eq
  have inStep : InStep config history id node := by
    rw [isCandidate]
    exact (agrees.inStep id).becomeCandidate
  have term : node.persistent.currentTerm = (cluster.nodes id).persistent.currentTerm + 1 := by
    rw [isCandidate, fields]
  have log : node.persistent.log = (cluster.nodes id).persistent.log := by
    rw [isCandidate, fields]
  have withoutElection : (cluster.setElection id none).Agrees config led history :=
    agrees.setElection (by simp)
  have candidacy : Agrees config more history
      ⟨((cluster.setElection id none).setNode id node).nodes,
        (cluster.setElection id none).elections,
        (cluster.setElection id none).sent ++ [.requestVote
          (node.clusterConfig.votingMembers.erase node.nodeId) (voteRequest node)]⟩ := by
    apply withoutElection.act
      (Chronicle.Extends.refl id (cluster.nodes id).persistent.currentTerm history)
      agrees.sound inStep (le_refl _)
    · rw [term]
      exact Nat.le_succ _
    · intro election running
      exact absurd running (by simp [Cluster.setElection])
    · exact wider
    · exact Crowned.refl withoutElection
    · intro message member
      rw [List.mem_singleton.mp member]
      trivial
  refine ⟨candidacy.sound, candidacy.inStep, candidacy.indexed, candidacy.led, candidacy.voters,
    ?_, candidacy.messages⟩
  intro other election running
  by_cases same : other = id
  · subst same
    have isNew : election = ⟨voteRequest node, node.clusterConfig, {node.nodeId}⟩ := by
      simpa [send, Cluster.setElection] using running.symm
    have self : node.nodeId = other := by
      rw [isCandidate, fields]
      exact nodeId
    have sameLog : voteRequest node = ⟨(cluster.nodes other).persistent.currentTerm + 1, other,
        (cluster.nodes other).persistent.lastLogIndex,
        (cluster.nodes other).persistent.lastLogTerm⟩ := by
      rw [voteRequest, self, term, PersistentState.lastLogIndex, PersistentState.lastLogTerm, log]
      rfl
    subst isNew
    refine ⟨?_, ?_, ?_⟩
    · rw [isCandidate, fields]
      exact clusterConfig
    · intro voter voted
      rw [Finset.mem_singleton.mp voted, self]
      refine ⟨ballot_of_inStep (agrees.inStep other) ?_ ?_, ?_⟩
      · rw [sameLog]
        exact Nat.le_succ _
      · rw [sameLog]
        simp [RaftNode.logOk]
      · rw [send_nodes, setElection_nodes, setNode_self]
        exact le_refl _
    · intro _
      rw [send_nodes, setElection_nodes, setNode_self]
      exact ⟨rfl, inStep.indexed.lastLogIndex_eq.symm, rfl⟩
  · apply candidacy.elections other election
    simpa [send, Cluster.setElection, same] using running

theorem setNode_setNode (first second : RaftNode) :
    (cluster.setNode id first).setNode id second = cluster.setNode id second := by
  have nodes : ((cluster.setNode id first).setNode id second).nodes =
      (cluster.setNode id second).nodes := by
    funext other
    by_cases same : other = id
    · rw [same, setNode_self, setNode_self]
    · rw [setNode_of_ne _ same, setNode_of_ne _ same, setNode_of_ne _ same]
  exact congrArg (fun nodes => Cluster.mk nodes _ _) nodes

theorem Agrees.append (agrees : cluster.Agrees config led history) {node : RaftNode}
    (isLeader : (cluster.nodes id).state = .leader) (commands : List Command)
    (persistent : node.persistent = commands.foldl .push (cluster.nodes id).persistent)
    (state : node.state = (cluster.nodes id).state)
    (leaderState : node.leaderState = (cluster.nodes id).leaderState)
    (commitIndex : node.commitIndex = (cluster.nodes id).commitIndex)
    (machine : node.stateMachine = (cluster.nodes id).stateMachine)
    (wider : ∀ id term, led id term → more id term) :
    ∃ later, (cluster.setNode id node).Agrees config more later := by
  obtain ⟨added, log, current, indexed⟩ :=
    foldl_push_indexed (agrees.inStep id).indexed commands
  have term : node.persistent.currentTerm = (cluster.nodes id).persistent.currentTerm := by
    rw [persistent, RaftNode.currentTerm_foldl_push]
  rw [← persistent] at log
  obtain ⟨reign, recorded, leads, sound, inStep⟩ := (agrees.inStep id).append agrees.sound
    (agrees.settled id) isLeader current indexed log term state leaderState commitIndex machine
  obtain ⟨other, alsoRecorded, _, reignLog, _⟩ := (agrees.inStep id).leads isLeader
  rw [recorded] at alsoRecorded
  cases alsoRecorded
  have extension := Chronicle.extends_lead recorded added
  rw [leads] at extension
  have known : ∀ {ofTerm : Nat} {other : Reign NodeId LogEntry},
      (history.lead (cluster.nodes id).persistent.currentTerm reign added).reigns ofTerm =
          some other →
        ofTerm = (cluster.nodes id).persistent.currentTerm ∧
            other = { reign with log := reign.log ++ added } ∨
          history.reigns ofTerm = some other := by
    intro ofTerm other found
    by_cases now : ofTerm = (cluster.nodes id).persistent.currentTerm
    · subst now
      left
      exact ⟨rfl, (Option.some.inj ((Chronicle.record_self _ _ _).symm.trans found)).symm⟩
    · exact .inr ((Chronicle.record_of_ne _ _ now).symm.trans found)
  have crowned : Crowned id more history
      (history.lead (cluster.nodes id).persistent.currentTerm reign added) cluster.nodes := by
    refine ⟨?_, ?_, ?_⟩
    · intro ofTerm other found _
      rcases known found with ⟨_, rfl⟩ | old
      · dsimp only
        rw [reignLog]
        exact indexed
      · exact agrees.indexed old
    · intro ofTerm other found vacant
      rcases known found with ⟨rfl, _⟩ | old
      · rw [recorded] at vacant
        exact absurd vacant (by simp)
      · rw [vacant] at old
        exact absurd old (by simp)
    · intro ofTerm other found vacant
      rcases known found with ⟨rfl, _⟩ | old
      · rw [recorded] at vacant
        exact absurd vacant (by simp)
      · rw [vacant] at old
        exact absurd old (by simp)
  have acted : Agrees config more
      (history.lead (cluster.nodes id).persistent.currentTerm reign added)
      ⟨(cluster.setNode id node).nodes, cluster.elections, cluster.sent ++ []⟩ := by
    apply agrees.act extension sound inStep (le_refl _) (le_of_eq term.symm)
    · intro election _ isCandidate
      rw [state, isLeader] at isCandidate
      exact absurd isCandidate (by simp)
    · exact wider
    · exact crowned
    · exact fun _ member => absurd member List.not_mem_nil
  rw [List.append_nil] at acted
  exact ⟨_, acted⟩

theorem Agrees.becomeLeader (agrees : cluster.Agrees config led history) {election : Election}
    {voters : Finset NodeId} (isCandidate : (cluster.nodes id).state = .candidate)
    (supported : Supported config history cluster.nodes id { election with votesReceived := voters })
    (isQuorum : config.hasQuorum voters = true)
    (wider : ∀ id term, led id term → more id term)
    (unique : ∀ term first second, more first term → more second term → first = second)
    (leads : more id (cluster.nodes id).persistent.currentTerm) :
    ∃ later, ((cluster.setNode id (cluster.nodes id).becomeLeader).setElection id none).Agrees
      config more later := by
  obtain ⟨term, length, lastTerm⟩ := supported.candidate isCandidate
  have vacant : history.reigns (cluster.nodes id).persistent.currentTerm = none := by
    cases recorded : history.reigns (cluster.nodes id).persistent.currentTerm with
    | none => rfl
    | some reign =>
        have same := unique _ _ _ (wider _ _ (agrees.led recorded)) leads
        exact absurd isCandidate (((agrees.inStep id).reigned recorded same).2 rfl)
  have ballots : ∀ voter ∈ voters, ∃ log, history.DerivedLog log ∧
      Chronicle.UpToDate LogEntry.term (cluster.nodes id).persistent.log log ∧
      history.Keeps voter (cluster.nodes id).persistent.currentTerm log := by
    intro voter voted
    obtain ⟨⟨log, derived, upToDate, evidence⟩, _⟩ := supported.votes voter voted
    dsimp only at upToDate evidence term length lastTerm
    rw [← length, ← lastTerm] at upToDate
    rw [← term, vacant] at evidence
    refine ⟨log, derived, upToDate, ?_⟩
    rcases evidence with taken | keeps
    · exact absurd taken (by simp)
    · exact keeps
  obtain ⟨crowned, isCrowned⟩ : ∃ node : RaftNode, node = { (cluster.nodes id) with
      state := .leader, leaderId := some (cluster.nodes id).nodeId
      leaderState := some (.new ((cluster.nodes id).clusterConfig.votingMembers.erase
        (cluster.nodes id).nodeId) (cluster.nodes id).persistent.lastLogIndex) } := ⟨_, rfl⟩
  have persistent : crowned.persistent = (cluster.nodes id).persistent := by rw [isCrowned]
  have state : crowned.state = .leader := by rw [isCrowned]
  obtain ⟨sound, inStep⟩ := (agrees.inStep id).elected agrees.sound (agrees.settled id)
    isCandidate vacant isQuorum ballots persistent state (by rw [isCrowned]) (by rw [isCrowned])
    (by rw [isCrowned])
  have known : ∀ {ofTerm : Nat} {other : Reign NodeId LogEntry},
      (history.elect (cluster.nodes id).persistent.currentTerm id voters
          (cluster.nodes id).persistent.log).reigns ofTerm = some other →
        ofTerm = (cluster.nodes id).persistent.currentTerm ∧ other = ⟨id, voters,
            (cluster.nodes id).persistent.log, (cluster.nodes id).persistent.log⟩ ∨
          history.reigns ofTerm = some other := by
    intro ofTerm other found
    by_cases now : ofTerm = (cluster.nodes id).persistent.currentTerm
    · subst now
      left
      exact ⟨rfl, (Option.some.inj ((Chronicle.record_self _ _ _).symm.trans found)).symm⟩
    · exact .inr ((Chronicle.record_of_ne _ _ now).symm.trans found)
  have enthroned : Agrees config more
      (history.elect (cluster.nodes id).persistent.currentTerm id voters
        (cluster.nodes id).persistent.log)
      ⟨(cluster.setNode id crowned).nodes, cluster.elections, cluster.sent ++ []⟩ := by
    apply agrees.act (Chronicle.extends_elect vacant) sound inStep (le_refl _)
    · rw [persistent]
    · intro _ _ stillCandidate
      rw [state] at stillCandidate
      exact absurd stillCandidate (by simp)
    · exact wider
    · refine ⟨?_, ?_, ?_⟩
      · intro ofTerm other found _
        rcases known found with ⟨_, rfl⟩ | old
        · exact (agrees.inStep id).indexed
        · exact agrees.indexed old
      · intro ofTerm other found new
        rcases known found with ⟨rfl, rfl⟩ | old
        · exact leads
        · rw [new] at old
          exact absurd old (by simp)
      · intro ofTerm other found new voter voted
        rcases known found with ⟨rfl, rfl⟩ | old
        · rw [term]
          exact (supported.votes voter voted).2
        · rw [new] at old
          exact absurd old (by simp)
    · exact fun _ member => absurd member List.not_mem_nil
  rw [List.append_nil] at enthroned
  have leading : (cluster.setNode id crowned).Agrees config more _ := enthroned
  have leader : (cluster.setNode id crowned).nodes id = crowned := setNode_self id crowned
  have fields := (cluster.nodes id).becomeLeader_eq
  have noop : (cluster.nodes id).becomeLeader.persistent =
      [Command.noop].foldl .push ((cluster.setNode id crowned).nodes id).persistent := by
    rw [leader, persistent, fields]
    rfl
  obtain ⟨later, final⟩ := leading.append (by rw [leader]; exact state) [.noop] noop
    (by rw [leader, state, fields]) (by rw [leader, isCrowned, fields])
    (by rw [leader, isCrowned, fields]) (by rw [leader, isCrowned, fields]) fun _ _ led => led
  rw [setNode_setNode] at final
  exact ⟨later, final.setElection (by simp)⟩

theorem Agrees.countVote (agrees : cluster.Agrees config led history) {voter : NodeId}
    {election : Election} {response : RequestVoteResponse}
    (running : cluster.elections id = some election)
    (voted : response.voteGranted = true → Ballot history voter election.request ∧
      election.request.term ≤ (cluster.nodes voter).persistent.currentTerm)
    (wider : ∀ id term, led id term → more id term)
    (unique : ∀ term first second, more first term → more second term → first = second)
    (leads : ∀ term, (cluster.countVote id election voter response).Leads id term →
      more id term) :
    ∃ later, (cluster.countVote id election voter response).Agrees config more later := by
  have supported := agrees.elections id election running
  rw [Cluster.countVote] at leads ⊢
  dsimp only at leads ⊢
  split
  next => exact ⟨_, (agrees.widen wider).setElection (by simp)⟩
  next stillCandidate =>
    have isCandidate : (cluster.nodes id).state = .candidate := of_not_not stillCandidate
    rw [if_neg stillCandidate] at leads
    split
    next =>
      have follower := (agrees.inStep id).becomeFollower response.term none
      have stepDown : (cluster.setNode id
          ((cluster.nodes id).becomeFollower response.term none)).Agrees config more history := by
        apply agrees.setNode follower (RaftNode.calm_becomeFollower _ _ _) _ wider
        obtain ⟨persistent, equal, log, _⟩ :=
          (cluster.nodes id).becomeFollower_eq response.term none
        rw [equal]
        exact fun _ => log
      exact ⟨_, stepDown.setElection (by simp)⟩
    next recent =>
      rw [if_neg recent] at leads
      split
      next granted =>
        rw [if_pos granted] at leads
        have votes : ∀ other ∈ insert voter election.votesReceived,
            Ballot history other election.request ∧
              election.request.term ≤ (cluster.nodes other).persistent.currentTerm := by
          intro other member
          rcases Finset.mem_insert.mp member with rfl | counted
          · exact voted granted
          · exact supported.votes other counted
        have counted : Supported config history cluster.nodes id
            { election with votesReceived := insert voter election.votesReceived } :=
          ⟨supported.config, votes, supported.candidate⟩
        split
        next isQuorum =>
          rw [if_pos isQuorum] at leads
          rw [supported.config] at isQuorum
          apply agrees.becomeLeader isCandidate counted isQuorum wider unique
          apply leads
          rw [Leads, setElection_nodes, setNode_self, RaftNode.becomeLeader_eq]
          exact ⟨rfl, rfl⟩
        next =>
          refine ⟨_, (agrees.widen wider).setElection ?_⟩
          rintro _ ⟨⟩
          exact counted
      next => exact ⟨_, agrees.widen wider⟩

end Elections

section Replicating

variable {id : NodeId}

/-- The voters of the recorded leaders have not passed a term that a node enters. -/
theorem Agrees.settled_of_le (agrees : cluster.Agrees config led history) {term : Nat}
    (recent : (cluster.nodes id).persistent.currentTerm ≤ term) : history.Settled id term :=
  fun _ _ recorded voted => (agrees.voters recorded id voted).trans recent

theorem meets (config : ClusterConfig) (first second : Finset NodeId)
    (one : History.IsQuorum config first) (two : History.IsQuorum config second) :
    ∃ voter ∈ first, voter ∈ second := by
  obtain ⟨voter, inFirst, inSecond⟩ :=
    ClusterConfig.quorums_meet (ClusterConfig.Adjacent.refl config) one two
  exact ⟨voter, inFirst, inSecond⟩

/-- A follower takes in the entries of its leader, and confirms them if they are persisted. -/
theorem InStep.acceptEntries {node : RaftNode} {request : AppendEntriesRequest}
    {reign : Reign NodeId LogEntry} (inStep : InStep config history id node)
    (sound : history.IsSound config) (settled : history.Settled id request.term)
    (term : node.persistent.currentTerm = request.term) (follows : node.state = .follower)
    (recorded : history.reigns request.term = some reign) (indexed : Indexed reign.log)
    (slices : request.Slices reign.log)
    (committed : request.leaderCommit = 0 ∨ request.leaderCommit ≤ reign.log.length ∧
      history.IsChosen config request.term (reign.log.take request.leaderCommit))
    (consistent : node.Consistent request) :
    (node.acceptEntries request).1.state = .follower ∧
      ((node.acceptEntries request).2.success = false ∧
          InStep config history id (node.acceptEntries request).1 ∨
        (node.acceptEntries request).2.term = request.term ∧
          (node.acceptEntries request).2.matchIndex = (request.segment reign.log).length ∧
          History.IsSound config
            (history.acknowledge id request.term (request.segment reign.log)) ∧
          InStep config (history.acknowledge id request.term (request.segment reign.log)) id
            (node.acceptEntries request).1) := by
  have merged := inStep.merge_merged sound recorded indexed slices consistent
  obtain ⟨log, shape, _⟩ := node.persistent.merge_eq request.entries
  have sameTerm : (node.persistent.merge request.entries).currentTerm =
      node.persistent.currentTerm := by
    rw [shape]
  rw [← term] at recorded committed settled ⊢
  have kept : ∀ storage, InStep config history id { node with
      persistent := node.persistent.merge request.entries, storage := storage } := fun storage =>
    inStep.merged sound (meets config) recorded indexed follows slices.inside merged sameTerm rfl
      rfl rfl rfl
  obtain ⟨storage, failed | accepted⟩ := node.acceptEntries_eq request
  · rw [failed]
    exact ⟨follows, .inl ⟨rfl, kept storage⟩⟩
  · rw [accepted]
    refine ⟨?_, .inr ⟨sameTerm, lastNewIndex_eq indexed slices, ?_⟩⟩
    · rw [RaftNode.followCommit]
      split <;> exact follows
    · rw [← sameTerm] at recorded settled
      obtain ⟨laterSound, confirmed⟩ := (kept storage).acknowledge sound settled recorded follows
        slices.inside merged.has_segment
      have extension := Chronicle.extends_acknowledge history id node.persistent.currentTerm
        (request.segment reign.log)
      dsimp only at laterSound confirmed
      rw [sameTerm] at laterSound confirmed
      refine ⟨laterSound, ?_⟩
      dsimp only
      rw [lastNewIndex_eq indexed slices]
      apply confirmed.followCommit slices.inside merged.has_segment
      dsimp only
      rw [sameTerm]
      rcases committed with nothing | ⟨inside, chosen⟩
      · exact .inl nothing
      · exact .inr ⟨inside, chosen.mono extension⟩

/-- A follower handles a request of its leader. -/
theorem Agrees.handleAppendEntries (agrees : cluster.Agrees config led history) {peer : NodeId}
    {request : AppendEntriesRequest} (sent : .appendEntries peer request ∈ cluster.sent)
    (wider : ∀ id term, led id term → more id term) :
    ∃ later, (cluster.handleAppendEntries peer request).Agrees config more later := by
  obtain ⟨reign, recorded, slices, committed⟩ := agrees.messages _ sent
  have shape : cluster.handleAppendEntries peer request =
      ⟨(cluster.setNode peer ((cluster.nodes peer).handleAppendEntries request).1).nodes,
        cluster.elections, cluster.sent ++ [.appendEntriesReply peer request
          ((cluster.nodes peer).handleAppendEntries request).2]⟩ := rfl
  have calm := RaftNode.calm_handleAppendEntries (cluster.nodes peer) request
  have cases := (cluster.nodes peer).handleAppendEntries_eq request
  rw [shape]
  generalize (cluster.nodes peer).handleAppendEntries request = result at calm cases
  obtain ⟨node, response⟩ := result
  dsimp only at calm cases ⊢
  rcases cases with ⟨_, same⟩ | ⟨recent, ⟨_, rfl, fails⟩ | ⟨consistent, equal⟩⟩
  · cases same
    refine ⟨history, agrees.act_quietly (agrees.inStep peer) calm (fun _ => rfl) wider ?_⟩
    intro message member
    rw [List.mem_singleton.mp member]
    exact fun success => absurd success Bool.false_ne_true
  · refine ⟨history, agrees.act_quietly ((agrees.inStep peer).follow _ recent) calm ?_ wider ?_⟩
    · rw [RaftNode.follow_eq]
      exact fun _ => rfl
    · intro message member
      rw [List.mem_singleton.mp member]
      intro success
      rw [fails] at success
      exact absurd success Bool.false_ne_true
  · have followed := (cluster.nodes peer).follow_eq request.term (some request.leaderId)
    have stillConsistent : ((cluster.nodes peer).follow request.term
        (some request.leaderId)).Consistent request := by
      rw [followed]
      exact consistent
    obtain ⟨follows, outcome⟩ := InStep.acceptEntries
      ((agrees.inStep peer).follow (some request.leaderId) recent) agrees.sound
      (agrees.settled_of_le recent) (by rw [followed]) (by rw [followed]) recorded
      (agrees.indexed recorded) slices committed stillConsistent
    rw [← equal] at follows outcome
    dsimp only at follows outcome
    have notCandidate : node.state ≠ .candidate := by
      rw [follows]
      simp
    rcases outcome with ⟨fails, inStep⟩ | ⟨term, matchIndex, sound, inStep⟩
    · refine ⟨history, agrees.act_quietly inStep calm ?_ wider ?_⟩
      · exact fun isCandidate => absurd isCandidate notCandidate
      · intro message member
        rw [List.mem_singleton.mp member]
        intro success
        rw [fails] at success
        exact absurd success Bool.false_ne_true
    · refine ⟨_, agrees.act (Chronicle.extends_acknowledge history peer request.term
        (request.segment reign.log)) sound inStep recent calm.rises ?_ wider ?_ ?_⟩
      · exact fun _ _ isCandidate => absurd isCandidate notCandidate
      · have same : Crowned peer more history history cluster.nodes := Crowned.refl agrees
        exact ⟨same.indexed, same.led, same.voters⟩
      · intro message member
        rw [List.mem_singleton.mp member]
        intro _
        rw [term]
        exact ⟨_, .inr ⟨rfl, rfl, rfl⟩, matchIndex⟩

theorem Agrees.propose (agrees : cluster.Agrees config led history) (command : Command)
    (wider : ∀ id term, led id term → more id term) :
    ∃ later, (cluster.setNode id ((cluster.nodes id).propose command).2).Agrees config more
      later := by
  rcases (cluster.nodes id).propose_eq command with same | ⟨leads, equal⟩
  · rw [same]
    exact ⟨_, agrees.setNode (agrees.inStep id) (.refl _) (fun _ => rfl) wider⟩
  · rw [equal, RaftNode.proposeInternal_eq]
    exact agrees.append leads [command] rfl rfl rfl rfl rfl wider

theorem Agrees.proposeBatch (agrees : cluster.Agrees config led history)
    (commands : List Command) (wider : ∀ id term, led id term → more id term) :
    ∃ later, (cluster.setNode id ((cluster.nodes id).proposeBatch commands).2).Agrees config more
      later := by
  rcases (cluster.nodes id).proposeBatch_eq commands with same | ⟨leads, equal⟩
  · rw [same]
    exact ⟨_, agrees.setNode (agrees.inStep id) (.refl _) (fun _ => rfl) wider⟩
  · rw [equal]
    exact agrees.append leads commands rfl rfl rfl rfl rfl wider

/-- What a leader sends is a slice of its log, with a commit index below which entries are
chosen. -/
theorem Agrees.vouched_heartbeat (agrees : cluster.Agrees config led history) {peer : NodeId}
    {request : AppendEntriesRequest}
    (sending : (cluster.nodes id).heartbeatRequest peer = some request) :
    Vouched config history cluster.nodes (.appendEntries peer request) := by
  have inStep := agrees.inStep id
  cases isLeader : (cluster.nodes id).leaderState with
  | none =>
      rw [RaftNode.heartbeatRequest, isLeader] at sending
      split at sending <;> exact absurd sending (by simp)
  | some leader =>
      obtain ⟨_, knows⟩ := inStep.knows leader isLeader
      obtain ⟨leads, term, leaderCommit, slices⟩ :=
        heartbeatRequest_slices isLeader (knows.next peer) sending
      obtain ⟨reign, recorded, _, log, _⟩ := inStep.leads leads
      have commit := inStep.commit
      rw [← log] at slices commit
      rw [← term] at recorded commit
      rw [← leaderCommit] at commit
      exact ⟨reign, recorded, slices, commit⟩

theorem Agrees.sendHeartbeat (agrees : cluster.Agrees config led history) {peer : NodeId}
    (taken : cluster.sendHeartbeat id peer = some next)
    (wider : ∀ id term, led id term → more id term) : next.Agrees config more history := by
  rw [Cluster.sendHeartbeat] at taken
  split at taken
  next =>
    obtain ⟨request, sending, rfl⟩ := Option.map_eq_some_iff.mp taken
    have wide := agrees.widen wider
    refine ⟨wide.sound, wide.inStep, wide.indexed, wide.led, wide.voters, wide.elections, ?_⟩
    intro message member
    rcases List.mem_append.mp member with old | new
    · exact wide.messages message old
    · rw [List.mem_singleton.mp new]
      exact agrees.vouched_heartbeat sending
  next => exact absurd taken (by simp)

/-- The responses that a round of heartbeats takes in confirm what they say. -/
theorem Agrees.confirmed_of_responses (agrees : cluster.Agrees config led history)
    {positions : List Nat} {responses : List (NodeId × AppendEntriesResponse)}
    (arrived : positions.mapM (cluster.responseTo id) = some responses) {peer : NodeId}
    {response : AppendEntriesResponse} (member : (peer, response) ∈ responses)
    (success : response.success = true) :
    ∃ front, history.acked peer response.term front ∧ response.matchIndex = front.length := by
  have answers : ∀ pair ∈ responses, ∃ position, cluster.responseTo id position = some pair := by
    clear member success
    induction positions generalizing responses with
    | nil =>
        cases arrived
        exact fun pair absent => absurd absent List.not_mem_nil
    | cons position positions ih =>
        rw [List.mapM_cons] at arrived
        obtain ⟨first, found, rest⟩ := Option.bind_eq_some_iff.mp arrived
        obtain ⟨others, after, equal⟩ := Option.bind_eq_some_iff.mp rest
        cases equal
        intro pair member
        rcases List.mem_cons.mp member with rfl | later
        · exact ⟨position, found⟩
        · exact ih after pair later
  obtain ⟨position, answer⟩ := answers _ member
  rw [Cluster.responseTo] at answer
  split at answer
  next other request reply found =>
    split at answer
    next =>
      cases answer
      exact agrees.messages _ (List.mem_of_getElem? found) success
    next => exact absurd answer (by simp)
  next => exact absurd answer (by simp)

/-- What a node keeps while it takes in responses. -/
structure Listening (config : ClusterConfig) (history : History) (id : NodeId)
    (before after : RaftNode) : Prop where
  inStep : InStep config history id after
  nodeId : after.nodeId = id
  clusterConfig : after.clusterConfig = config
  log : after.persistent.log = before.persistent.log
  term : after.leaderState ≠ none →
    after.persistent.currentTerm = before.persistent.currentTerm

theorem Agrees.finishHeartbeats (agrees : cluster.Agrees config led history)
    {positions : List Nat} {responses : List (NodeId × AppendEntriesResponse)}
    (arrived : positions.mapM (cluster.responseTo id) = some responses)
    (nodeId : (cluster.nodes id).nodeId = id)
    (clusterConfig : (cluster.nodes id).clusterConfig = config)
    (wider : ∀ id term, led id term → more id term) :
    (cluster.setNode id ((cluster.nodes id).finishHeartbeats responses)).Agrees config more
      history := by
  have listening : Listening config history id (cluster.nodes id)
      ((cluster.nodes id).finishHeartbeats responses) := by
    apply RaftNode.takeResponses_induction _
      (P := Listening config history id (cluster.nodes id))
    · exact ⟨agrees.inStep id, nodeId, clusterConfig, rfl, fun _ => rfl⟩
    · intro done peer response kept member current
      have inStep : InStep config history id (done.noteResponse peer response) := by
        apply kept.inStep.noteResponse agrees.sound
        · exact fun leads => current.trans (kept.term leads).symm
        · exact agrees.confirmed_of_responses arrived member
      refine ⟨inStep, kept.nodeId, kept.clusterConfig, kept.log, ?_⟩
      intro leads
      apply kept.term
      intro none
      apply leads
      rw [RaftNode.noteResponse, none]
      rfl
    · intro done term kept _
      obtain ⟨persistent, equal, log, _⟩ := done.becomeFollower_eq term none
      have inStep := kept.inStep.becomeFollower term none
      rw [equal] at inStep ⊢
      exact ⟨inStep, kept.nodeId, kept.clusterConfig, log.trans kept.log,
        fun leads => absurd rfl leads⟩
    · intro done kept
      have inStep := kept.inStep.maybeAdvanceCommitIndex agrees.sound kept.nodeId
        kept.clusterConfig
      obtain ⟨commitIndex, equal, _⟩ := done.maybeAdvanceCommitIndex_eq
      rw [equal] at inStep ⊢
      exact ⟨inStep, kept.nodeId, kept.clusterConfig, kept.log, kept.term⟩
  exact agrees.setNode listening.inStep (RaftNode.calm_finishHeartbeats _ responses)
    (fun _ => listening.log) wider

theorem Agrees.applyCommittedEntries (agrees : cluster.Agrees config led history)
    (plain : ∀ entry ∈ (cluster.nodes id).persistent.log, entry.command.Plain)
    (wider : ∀ id term, led id term → more id term) :
    (cluster.setNode id (cluster.nodes id).applyCommittedEntries).Agrees config more history := by
  obtain ⟨inStep, persistent⟩ := (agrees.inStep id).applyCommittedEntries plain
  exact agrees.setNode inStep (RaftNode.calm_applyCommittedEntries _)
    (fun _ => by rw [persistent]) wider

end Replicating

section Runs

/-- Every step of a run with a fixed configuration and one leader per term. -/
theorem Agrees.step (agrees : cluster.Agrees config led history) {action : Action}
    (nodeId : ∀ id, (cluster.nodes id).nodeId = id) (fixed : cluster.Fixed config)
    (taken : cluster.step action = some next) (keeps : action.KeepsConfiguration)
    (wider : ∀ id term, led id term → more id term)
    (unique : ∀ term first second, more first term → more second term → first = second)
    (leads : ∀ id term, next.Leads id term → more id term) :
    ∃ later, next.Agrees config more later := by
  cases takes_of_step taken with
  | runElection runs => exact ⟨_, agrees.runElection runs (nodeId _) (fixed.config _) wider⟩
  | handleRequestVote found addressed => exact ⟨_, agrees.handleRequestVote wider⟩
  | countVote found running own =>
      apply agrees.countVote running _ wider unique (leads _)
      rw [own]
      exact agrees.messages _ (List.mem_of_getElem? found)
  | propose id command => exact agrees.propose command wider
  | proposeBatch id commands => exact agrees.proposeBatch commands wider
  | sendHeartbeat sending => exact ⟨_, agrees.sendHeartbeat taken wider⟩
  | handleAppendEntries found =>
      exact agrees.handleAppendEntries (List.mem_of_getElem? found) wider
  | finishHeartbeats arrived =>
      exact ⟨_, agrees.finishHeartbeats arrived (nodeId _) (fixed.config _) wider⟩
  | applyCommittedEntries id => exact ⟨_, agrees.applyCommittedEntries (fixed.logs id) wider⟩
  | addNode id added => exact keeps.elim
  | removeNode id removed => exact keeps.elim

theorem agrees_initial (config : ClusterConfig) (maxEntriesPerRpc : NodeId → Nat)
    (storage : NodeId → Storage) (led : NodeId → Nat → Prop) :
    (initial config maxEntriesPerRpc storage).Agrees config led .empty := by
  have vacant : ∀ {term : Nat} {reign : Reign NodeId LogEntry},
      (Chronicle.empty : History).reigns term = some reign → False :=
    fun recorded => absurd recorded (by simp [Chronicle.empty])
  have inStep : ∀ id,
      InStep config .empty id ((initial config maxEntriesPerRpc storage).nodes id) := by
    intro id
    constructor
    · exact Indexed.nil
    · exact fun position entry found => absurd (List.mem_of_getElem? found) List.not_mem_nil
    · exact fun entry member => absurd member List.not_mem_nil
    · exact fun isCandidate => absurd isCandidate (by simp [initial, RaftNode.new])
    · exact fun confirmed => confirmed.elim
    · rintro ofTerm _ front ⟨longer, confirmed, _⟩
      exact confirmed.elim
    · exact fun recorded => (vacant recorded).elim
    · exact fun leads => absurd leads (by simp [initial, RaftNode.new])
    · exact fun leader isLeader => absurd isLeader (by simp [initial, RaftNode.new])
    · exact .inl rfl
    · exact fun entry member => absurd member List.not_mem_nil
  refine ⟨Chronicle.sound_empty, inStep, fun recorded => (vacant recorded).elim,
    fun recorded => (vacant recorded).elim, fun recorded => (vacant recorded).elim, ?_, ?_⟩
  · exact fun id election running => absurd running (by simp [initial])
  · exact fun message member => absurd member List.not_mem_nil

variable {maxEntriesPerRpc : NodeId → Nat} {storage : NodeId → Storage} {actions : List Action}

theorem Led.of_isPrefix {start : Cluster} {front : List Action} {id : NodeId} {term : Nat}
    (shorter : front <+: actions) (led : start.Led front id term) : start.Led actions id term := by
  obtain ⟨before, cluster, included, reached, leads⟩ := led
  exact ⟨before, cluster, included.trans shorter, reached, leads⟩

/-- A run with a fixed configuration and one leader per term agrees with a history. -/
theorem agrees_after (keeps : ∀ action ∈ actions, action.KeepsConfiguration)
    (oneLeader : (initial config maxEntriesPerRpc storage).OneLeaderPerTerm actions)
    (reached : (initial config maxEntriesPerRpc storage).after actions = some cluster) :
    ∃ history, cluster.Agrees config ((initial config maxEntriesPerRpc storage).Led actions)
      history := by
  induction actions using List.reverseRecOn generalizing cluster with
  | nil =>
      cases reached
      exact ⟨_, agrees_initial config maxEntriesPerRpc storage _⟩
  | append_singleton front action ih =>
      obtain ⟨middle, before, taken⟩ := exists_of_after_concat reached
      have shorter : front <+: front ++ [action] := List.prefix_append _ _
      have earlier : ∀ action ∈ front, action.KeepsConfiguration :=
        fun other member => keeps other (List.mem_append_left _ member)
      obtain ⟨history, agrees⟩ := ih earlier (fun term first second one two =>
        oneLeader term first second (one.of_isPrefix shorter) (two.of_isPrefix shorter)) before
      apply agrees.step (sound_after before).nodeId (fixed_after earlier before) taken
        (keeps action (List.mem_append_right _ (List.mem_singleton_self _)))
      · exact fun id term led => led.of_isPrefix shorter
      · exact oneLeader
      · exact fun id term leads => ⟨_, _, List.prefix_refl _, reached, leads⟩

/-- Applied entries with the same index are the same. -/
theorem Agrees.applied_eq (agrees : cluster.Agrees config led history) {first second : NodeId}
    {left right : LogEntry} (inFirst : left ∈ (cluster.nodes first).applied)
    (inSecond : right ∈ (cluster.nodes second).applied) (same : left.index = right.index) :
    left = right := by
  obtain ⟨_, leftFront, leftChosen, _, atLeft⟩ := (agrees.inStep first).applied left inFirst
  obtain ⟨_, rightFront, rightChosen, _, atRight⟩ :=
    (agrees.inStep second).applied right inSecond
  rw [same] at atLeft
  have inLonger : ∀ {shorter longer : List LogEntry} {position : Nat} {entry : LogEntry},
      shorter <+: longer → shorter[position]? = some entry → longer[position]? = some entry := by
    rintro shorter _ position entry ⟨rest, rfl⟩ found
    obtain ⟨inside, _⟩ := List.getElem?_eq_some_iff.mp found
    rw [List.getElem?_append_left inside]
    exact found
  rcases agrees.sound.chosen_comparable (meets config) leftChosen rightChosen with below | above
  · exact Option.some.inj ((inLonger below atLeft).symm.trans atRight)
  · exact Option.some.inj (atLeft.symm.trans (inLonger above atRight))

/-- Logs that agree on a term at an index agree up to it. -/
theorem Agrees.log_matching (agrees : cluster.Agrees config led history) {first second : NodeId}
    {index term : Nat} (inFirst : (cluster.nodes first).persistent.getTerm index = some term)
    (inSecond : (cluster.nodes second).persistent.getTerm index = some term) :
    (cluster.nodes first).persistent.log.take index =
      (cluster.nodes second).persistent.log.take index := by
  obtain ⟨positive, left, atLeft, leftTerm⟩ := getTerm_eq_some_iff.mp inFirst
  obtain ⟨_, right, atRight, rightTerm⟩ := getTerm_eq_some_iff.mp inSecond
  have agree := (agrees.inStep first).derived.matching (agrees.inStep second).derived atLeft
    atRight (leftTerm.trans rightTerm.symm)
  rw [Nat.sub_add_cancel positive] at agree
  exact agree

/-- Node `a` is elected, replicates a command to `b`, and both apply it. -/
def replicated : List Action :=
  [.runElection "a", .handleRequestVote 0 "b", .countVote 1, .propose "a" (.set [7] [8]),
    .sendHeartbeat "a" "b", .handleAppendEntries 2, .finishHeartbeats "a" [3],
    .applyCommittedEntries "a", .sendHeartbeat "a" "b", .handleAppendEntries 4,
    .applyCommittedEntries "b"]

end Runs

end Cluster

end JouleDB.Raft
