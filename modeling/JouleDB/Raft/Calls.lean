import JouleDB.Raft.Cluster

/-!
# What the calls of a node do

Each call is described by the record updates it amounts to; what becomes of the storage is left
open.  Apart from starting and winning an election, no call makes a node a candidate or a
leader: it keeps term and role, or leaves the node a follower of the same or a later term.
-/

namespace JouleDB.Raft

namespace PersistentState

variable (state : PersistentState)

theorem truncateConflicting_eq (entries : List LogEntry) :
    ∃ log, state.truncateConflicting entries = { state with log := log } ∧ log <+: state.log := by
  induction entries with
  | nil => exact ⟨state.log, rfl, List.prefix_refl _⟩
  | cons entry entries ih =>
      rw [truncateConflicting]
      split
      next =>
        split
        · rw [truncateFrom]
          split
          · exact ⟨_, rfl, List.take_prefix _ _⟩
          · exact ⟨state.log, rfl, List.prefix_refl _⟩
        · exact ih
      next => exact ih

/-- Only received entries are appended, and they are counted. -/
theorem appendNew_eq (entries : List LogEntry) :
    ∃ added, state.appendNew entries =
        ({ state with log := state.log ++ added }, added.length) ∧ added.Sublist entries := by
  induction entries generalizing state with
  | nil => exact ⟨[], by simp [appendNew], List.Sublist.refl _⟩
  | cons entry entries ih =>
      rw [appendNew]
      split
      · obtain ⟨added, result, sublist⟩ := ih { state with log := state.log ++ [entry] }
        refine ⟨entry :: added, ?_, sublist.cons_cons entry⟩
        rw [result]
        simp
      · obtain ⟨added, result, sublist⟩ := ih state
        exact ⟨added, result, sublist.cons entry⟩

/-- Entries that are read lie below the end index. -/
theorem mem_of_getEntries {startIndex endIndex : Nat} {entries : List LogEntry}
    (slice : state.getEntries startIndex endIndex = some entries) :
    ∀ entry ∈ entries, entry ∈ state.log.take endIndex := by
  intro entry member
  rw [getEntries] at slice
  split at slice
  next =>
    cases slice
    exact absurd member List.not_mem_nil
  next =>
    split at slice
    next =>
      cases slice
      have inside := List.mem_of_mem_drop member
      rw [← List.take_take, List.take_length] at inside
      exact inside
    next => exact absurd slice (by simp)

/-- The state after the conflicting entries are dropped and the new ones appended. -/
def merge (entries : List LogEntry) : PersistentState :=
  ((state.truncateConflicting entries).appendNew entries).1

theorem merge_eq (entries : List LogEntry) :
    ∃ log, state.merge entries = { state with log := log } ∧
      ∀ entry ∈ log, entry ∈ state.log ∨ entry ∈ entries := by
  obtain ⟨kept, truncated, front⟩ := state.truncateConflicting_eq entries
  obtain ⟨added, appended, sublist⟩ := (state.truncateConflicting entries).appendNew_eq entries
  refine ⟨kept ++ added, ?_, ?_⟩
  · rw [merge, appended, truncated]
  · intro entry member
    rcases List.mem_append.mp member with old | new
    · exact .inl (front.subset old)
    · exact .inr (sublist.subset new)

end PersistentState

namespace RaftNode

variable (node : RaftNode)

section Effects

/-- The node as a follower that has taken over a term, if it is higher. -/
theorem becomeFollower_eq (term : Nat) (leaderId : Option NodeId) :
    ∃ persistent,
      node.becomeFollower term leaderId =
        { node with
          persistent := persistent
          storage := (node.storage.persistMetaSync persistent.currentTerm persistent.votedFor).2
          state := .follower, leaderId := leaderId, leaderState := none } ∧
      persistent.log = node.persistent.log ∧
      persistent.currentTerm = max node.persistent.currentTerm term := by
  rw [becomeFollower]
  split
  next higher => exact ⟨_, rfl, rfl, (max_eq_right (le_of_lt higher)).symm⟩
  next same => exact ⟨_, rfl, rfl, (max_eq_left (le_of_not_gt same)).symm⟩

theorem follow_eq (term : Nat) (leaderId : Option NodeId) :
    node.follow term leaderId =
      { node with
        persistent := ⟨term, none, node.persistent.log⟩
        storage := (node.storage.persistMetaSync term none).2
        state := .follower, leaderId := leaderId, leaderState := none } := by
  have same : ¬ (node.adoptTerm term).persistent.currentTerm < term := lt_irrefl term
  rw [follow, becomeFollower, if_neg same]
  rfl

theorem becomeCandidate_eq :
    node.becomeCandidate =
      { node with
        persistent := ⟨node.persistent.currentTerm + 1, some node.nodeId, node.persistent.log⟩
        storage :=
          (node.storage.persistMetaSync (node.persistent.currentTerm + 1) (some node.nodeId)).2
        state := .candidate, leaderId := none, leaderState := none } := rfl

theorem proposeInternal_eq (command : Command) :
    (node.proposeInternal command).2 =
      { node with
        persistent := node.persistent.push command
        storage := (node.storage.persistStateSync (node.persistent.push command) 1).2 } := by
  rw [proposeInternal]
  dsimp only
  split <;> rfl

/-- A proposal changes nothing unless the node leads. -/
theorem propose_eq (command : Command) :
    (node.propose command).2 = node ∨
      node.state = .leader ∧ (node.propose command).2 = (node.proposeInternal command).2 := by
  rw [propose]
  split
  next leads => exact .inr ⟨of_decide_eq_true leads, rfl⟩
  next => exact .inl rfl

theorem pushAll_eq (state : PersistentState) (commands : List Command) :
    (pushAll state commands).1 = commands.foldl PersistentState.push state := by
  induction commands generalizing state with
  | nil => rfl
  | cons command commands ih => exact ih _

theorem proposeBatch_eq (commands : List Command) :
    (node.proposeBatch commands).2 = node ∨
      node.state = .leader ∧ (node.proposeBatch commands).2 =
        { node with
          persistent := commands.foldl PersistentState.push node.persistent
          storage := (node.storage.persistStateSync
            (commands.foldl PersistentState.push node.persistent) commands.length).2 } := by
  rw [proposeBatch, ← pushAll_eq]
  split
  next leads =>
    split
    · exact .inl rfl
    · right
      refine ⟨of_decide_eq_true leads, ?_⟩
      dsimp only
      split <;> rfl
  next => exact .inl rfl

theorem becomeLeader_eq :
    node.becomeLeader =
      { node with
        persistent := node.persistent.push .noop
        storage := (node.storage.persistStateSync (node.persistent.push .noop) 1).2
        state := .leader, leaderId := some node.nodeId
        leaderState := some (.new (node.clusterConfig.votingMembers.erase node.nodeId)
          node.persistent.lastLogIndex) } := by
  rw [becomeLeader]
  exact proposeInternal_eq _ .noop

/-- The node that answers a request of its term or a later one. -/
theorem catchUp_eq {term : Nat} (leaderId : Option NodeId)
    (recent : node.persistent.currentTerm ≤ term) :
    node.persistent.currentTerm = term ∧ node.catchUp term leaderId = node ∨
      node.persistent.currentTerm < term ∧
        node.catchUp term leaderId = node.follow term leaderId := by
  rw [catchUp]
  split
  next higher => exact .inr ⟨higher, rfl⟩
  next same => exact .inl ⟨le_antisymm recent (le_of_not_gt same), rfl⟩

/-- A vote is granted for the node's term or a later one, if the node has no other vote in this
term and no more recent log. -/
theorem handleRequestVote_granted_iff {request : RequestVoteRequest} :
    (node.handleRequestVote request).2.voteGranted = true ↔
      node.persistent.currentTerm ≤ request.term ∧
        (node.persistent.currentTerm = request.term → node.canVote request = true) ∧
        node.logOk request = true := by
  rw [handleRequestVote]
  split
  next stale =>
    constructor
    · exact fun granted => absurd granted Bool.false_ne_true
    · exact fun granted => absurd granted.1 (not_le_of_gt stale)
  next recent =>
    have reached := le_of_not_gt recent
    dsimp only
    rw [Bool.and_eq_true_iff]
    rcases node.catchUp_eq none reached with ⟨same, equal⟩ | ⟨higher, equal⟩
    · rw [equal]
      exact ⟨fun ⟨may, ok⟩ => ⟨reached, fun _ => may, ok⟩, fun ⟨_, may, ok⟩ => ⟨may same, ok⟩⟩
    · rw [equal, follow_eq]
      exact ⟨fun ⟨_, ok⟩ => ⟨reached, fun same => absurd same (ne_of_lt higher), ok⟩,
        fun ⟨_, _, ok⟩ => ⟨rfl, ok⟩⟩

/-- The node after a vote request: a stale one changes nothing, otherwise the node is in the term
of the request, and has voted if the vote is granted. -/
theorem handleRequestVote_eq (request : RequestVoteRequest) :
    (request.term < node.persistent.currentTerm ∧ (node.handleRequestVote request).1 = node) ∨
      node.persistent.currentTerm ≤ request.term ∧
        (node.handleRequestVote request).1 =
          if (node.handleRequestVote request).2.voteGranted then
            (node.catchUp request.term none).grantVote request.candidateId
          else
            node.catchUp request.term none := by
  rw [handleRequestVote]
  split
  next stale => exact .inl ⟨stale, rfl⟩
  next recent => exact .inr ⟨le_of_not_gt recent, rfl⟩

theorem persistent_catchUp {term : Nat} (leaderId : Option NodeId)
    (recent : node.persistent.currentTerm ≤ term) :
    (node.catchUp term leaderId).persistent.currentTerm = term ∧
      (node.catchUp term leaderId).persistent.log = node.persistent.log := by
  rcases node.catchUp_eq leaderId recent with ⟨same, equal⟩ | ⟨_, equal⟩
  · rw [equal]
    exact ⟨same, rfl⟩
  · rw [equal, follow_eq]
    exact ⟨rfl, rfl⟩

theorem handleRequestVote_of_granted {request : RequestVoteRequest}
    (granted : (node.handleRequestVote request).2.voteGranted = true) :
    (node.handleRequestVote request).1 =
      (node.catchUp request.term none).grantVote request.candidateId ∧
    (node.handleRequestVote request).1.persistent =
      ⟨request.term, some request.candidateId, node.persistent.log⟩ := by
  have recent := (node.handleRequestVote_granted_iff.mp granted).1
  rcases node.handleRequestVote_eq request with ⟨stale, _⟩ | ⟨_, equal⟩
  · exact absurd recent (not_le_of_gt stale)
  · rw [if_pos granted] at equal
    refine ⟨equal, ?_⟩
    obtain ⟨term, log⟩ := node.persistent_catchUp none recent
    have voted : ((node.catchUp request.term none).grantVote request.candidateId).persistent =
        ⟨(node.catchUp request.term none).persistent.currentTerm, some request.candidateId,
          (node.catchUp request.term none).persistent.log⟩ := rfl
    rw [equal, voted, term, log]

/-- The node's log passes the consistency check of a request. -/
def Consistent (node : RaftNode) (request : AppendEntriesRequest) : Prop :=
  request.prevLogIndex = 0 ∨
    node.persistent.getTerm request.prevLogIndex = some request.prevLogTerm

/-- Taking in entries: the log is merged; if that is persisted the commit index follows. -/
theorem acceptEntries_eq (request : AppendEntriesRequest) :
    ∃ storage,
      node.acceptEntries request =
        ({ node with
            persistent := node.persistent.merge request.entries, storage := storage },
          ⟨(node.persistent.merge request.entries).currentTerm, false, none, none, 0⟩) ∨
      node.acceptEntries request =
        ({ node with
            persistent := node.persistent.merge request.entries, storage := storage }.followCommit
              request.leaderCommit request.lastNewIndex,
          ⟨(node.persistent.merge request.entries).currentTerm, true, none, none,
            request.lastNewIndex⟩) := by
  rw [acceptEntries, PersistentState.merge]
  dsimp only
  split
  · exact ⟨_, .inl rfl⟩
  · exact ⟨_, .inr rfl⟩

/-- An AppendEntries call: a stale request changes nothing; otherwise the node follows the
leader, and the entries are taken in if the log is consistent with them. -/
theorem handleAppendEntries_eq (request : AppendEntriesRequest) :
    request.term < node.persistent.currentTerm ∧
        node.handleAppendEntries request = (node, node.rejection none none) ∨
      node.persistent.currentTerm ≤ request.term ∧
        (¬ node.Consistent request ∧
            (node.handleAppendEntries request).1 =
              node.follow request.term (some request.leaderId) ∧
            (node.handleAppendEntries request).2.success = false ∨
          node.Consistent request ∧
            node.handleAppendEntries request =
              (node.follow request.term (some request.leaderId)).acceptEntries request) := by
  have followed : (node.follow request.term (some request.leaderId)).persistent.getTerm
      request.prevLogIndex = node.persistent.getTerm request.prevLogIndex := by
    rw [follow_eq]
    rfl
  rw [handleAppendEntries]
  split
  next stale => exact .inl ⟨stale, rfl⟩
  next recent =>
    right
    refine ⟨le_of_not_gt recent, ?_⟩
    dsimp only
    rw [Consistent, ← followed]
    split
    next later =>
      have notFirst : request.prevLogIndex ≠ 0 := Nat.ne_of_gt later
      split
      next missing => exact .inl ⟨by simp [missing, notFirst], rfl, rfl⟩
      next term found =>
        split
        next differs => exact .inl ⟨by simp [found, notFirst, differs], rfl, rfl⟩
        next matched =>
          rw [← of_not_not matched]
          exact .inr ⟨.inr found, rfl⟩
    next first => exact .inr ⟨.inl (Nat.eq_zero_of_not_pos first), rfl⟩

theorem commitAt_eq (leader : LeaderState) (index : Nat) :
    node.commitAt leader index = node ∨
      node.persistent.getTerm index = some node.persistent.currentTerm ∧
        node.clusterConfig.hasQuorum (leader.replicated node.nodeId index) = true ∧
        node.commitAt leader index = { node with commitIndex := index } := by
  rw [commitAt]
  split
  next current =>
    split
    next quorum => exact .inr ⟨current, quorum, rfl⟩
    next => exact .inl rfl
  next => exact .inl rfl

theorem foldl_commitAt_eq (leader : LeaderState) (indices : List Nat) :
    ∃ commitIndex,
      indices.foldl (fun node index => node.commitAt leader index) node =
        { node with commitIndex := commitIndex } ∧
      (commitIndex = node.commitIndex ∨
        node.persistent.getTerm commitIndex = some node.persistent.currentTerm ∧
          node.clusterConfig.hasQuorum (leader.replicated node.nodeId commitIndex) = true) := by
  induction indices generalizing node with
  | nil => exact ⟨node.commitIndex, rfl, .inl rfl⟩
  | cons index indices ih =>
      rw [List.foldl_cons]
      obtain ⟨commitIndex, result, reason⟩ := ih (node.commitAt leader index)
      rcases node.commitAt_eq leader index with same | ⟨current, quorum, moved⟩
      · rw [same] at result reason ⊢
        exact ⟨commitIndex, result, reason⟩
      · rw [moved] at result reason ⊢
        refine ⟨commitIndex, result, ?_⟩
        rcases reason with kept | advanced
        · right
          rw [kept]
          exact ⟨current, quorum⟩
        · exact .inr advanced

/-- The commit index moves only to an entry of the current term that a quorum holds. -/
theorem maybeAdvanceCommitIndex_eq :
    ∃ commitIndex, node.maybeAdvanceCommitIndex = { node with commitIndex := commitIndex } ∧
      (commitIndex = node.commitIndex ∨ ∃ leader, node.leaderState = some leader ∧
        node.persistent.getTerm commitIndex = some node.persistent.currentTerm ∧
        node.clusterConfig.hasQuorum (leader.replicated node.nodeId commitIndex) = true) := by
  rw [maybeAdvanceCommitIndex]
  split
  next => exact ⟨node.commitIndex, rfl, .inl rfl⟩
  next leader some =>
    obtain ⟨commitIndex, result, reason⟩ := node.foldl_commitAt_eq leader
      (List.range' (node.commitIndex + 1)
        (node.persistent.lastLogIndex + 1 - (node.commitIndex + 1)))
    refine ⟨commitIndex, result, ?_⟩
    rcases reason with kept | ⟨current, quorum⟩
    · exact .inl kept
    · exact .inr ⟨leader, some, current, quorum⟩

/-- What holds before a round of responses and is kept by noting one, by stepping down and by
advancing the commit index holds after it. -/
theorem takeResponses_induction {P : RaftNode → Prop} {currentTerm : Nat}
    {responses : List (NodeId × AppendEntriesResponse)} (holds : P node)
    (note : ∀ node peer response, P node → (peer, response) ∈ responses →
      response.term = currentTerm → P (node.noteResponse peer response))
    (stepDown : ∀ node term, P node → currentTerm < term → P (node.becomeFollower term none))
    (advance : ∀ node, P node → P node.maybeAdvanceCommitIndex) :
    P (node.takeResponses currentTerm responses) := by
  induction responses generalizing node with
  | nil => exact advance node holds
  | cons head responses ih =>
      obtain ⟨peer, response⟩ := head
      have later : ∀ node peer response, P node → (peer, response) ∈ responses →
          response.term = currentTerm → P (node.noteResponse peer response) :=
        fun node peer response holds member =>
          note node peer response holds (List.mem_cons_of_mem _ member)
      rw [takeResponses]
      split
      next higher => exact stepDown node _ holds higher
      next =>
        split
        next => exact ih _ holds later
        next current =>
          exact ih _ (note node peer response holds List.mem_cons_self (of_not_not current)) later

/-- What applying one entry keeps, applying the committed entries keeps. -/
theorem applyCommittedEntries_induction {P : RaftNode → Prop} (holds : P node)
    (apply : ∀ done entry, P done → entry ∈ node.persistent.log.take node.commitIndex →
      P (done.applyEntry entry))
    (finish : ∀ done lastApplied, P done → P { done with lastApplied := lastApplied }) :
    P node.applyCommittedEntries := by
  rw [applyCommittedEntries]
  split
  · exact holds
  · split
    · exact holds
    next entries slice =>
      apply finish
      have committed := node.persistent.mem_of_getEntries slice
      have folded : ∀ done, P done → P (entries.foldl applyEntry done) := by
        clear slice
        induction entries with
        | nil => exact fun done holds => holds
        | cons entry entries ih =>
            intro done holds
            exact ih (fun other member => committed other (List.mem_cons_of_mem _ member)) _
              (apply done entry holds (committed entry List.mem_cons_self))
      exact folded node holds

/-- Applying an entry is seen by the state machine; a configuration takes effect, and the final
one may be proposed. -/
theorem applyEntry_eq (entry : LogEntry) :
    ∃ config persistent storage,
      node.applyEntry entry =
        { node with
          stateMachine := node.stateMachine ++ [.apply entry], clusterConfig := config,
          persistent := persistent, storage := storage } ∧
      (persistent = node.persistent ∧ storage = node.storage ∨
        node.state = .leader ∧ ∃ command, persistent = node.persistent.push command ∧
          storage = (node.storage.persistStateSync persistent 1).2) ∧
      ((∀ config, entry.command ≠ .configChange config) →
        config = node.clusterConfig ∧ persistent = node.persistent) := by
  rw [applyEntry]
  dsimp only
  split
  next config isConfig =>
    split
    next members joint =>
      split
      next leads =>
        have result := proposeInternal_eq
          { node with
            stateMachine := node.stateMachine ++ [.apply entry], clusterConfig := config }
          (.configChange ⟨members, none, entry.index + 1⟩)
        refine ⟨_, _, _, result, .inr ⟨of_decide_eq_true leads, _, rfl, rfl⟩, ?_⟩
        exact fun plain => absurd isConfig (plain config)
      next =>
        exact ⟨_, _, _, rfl, .inl ⟨rfl, rfl⟩, fun plain => absurd isConfig (plain config)⟩
    next => exact ⟨_, _, _, rfl, .inl ⟨rfl, rfl⟩, fun plain => absurd isConfig (plain config)⟩
  next => exact ⟨_, _, _, rfl, .inl ⟨rfl, rfl⟩, fun _ => ⟨rfl, rfl⟩⟩

/-- Changing the membership is proposing a configuration. -/
theorem addNode_eq (added : NodeId) :
    (node.addNode added).2 = node ∨
      ∃ config, (node.addNode added).2 = (node.propose (.configChange config)).2 := by
  rw [addNode]
  split
  · split
    · exact .inl rfl
    · exact .inr ⟨_, rfl⟩
  · exact .inl rfl

theorem removeNode_eq (removed : NodeId) :
    (node.removeNode removed).2 = node ∨
      ∃ config, (node.removeNode removed).2 = (node.propose (.configChange config)).2 := by
  rw [removeNode]
  split
  · split
    · exact .inl rfl
    · split
      · exact .inl rfl
      · split
        · exact .inl rfl
        · exact .inr ⟨_, rfl⟩
  · exact .inl rfl

end Effects

section Calm

/-- A call that neither starts nor wins an election. -/
structure Calm (before after : RaftNode) : Prop where
  nodeId : after.nodeId = before.nodeId
  rises : before.persistent.currentTerm ≤ after.persistent.currentTerm
  role : after.state = before.state ∧
      after.persistent.currentTerm = before.persistent.currentTerm ∨
    after.state = .follower

namespace Calm

theorem refl (node : RaftNode) : Calm node node := ⟨rfl, le_refl _, .inl ⟨rfl, rfl⟩⟩

theorem trans {first second third : RaftNode} (one : Calm first second)
    (two : Calm second third) : Calm first third := by
  constructor
  · rw [two.nodeId, one.nodeId]
  · exact le_trans one.rises two.rises
  · rcases two.role with ⟨state, term⟩ | follower
    · rcases one.role with ⟨earlier, same⟩ | follower
      · exact .inl ⟨state.trans earlier, term.trans same⟩
      · exact .inr (state.trans follower)
    · exact .inr follower

theorem of_eq {before after : RaftNode} (nodeId : after.nodeId = before.nodeId)
    (term : after.persistent.currentTerm = before.persistent.currentTerm)
    (state : after.state = before.state) : Calm before after :=
  ⟨nodeId, le_of_eq term.symm, .inl ⟨state, term⟩⟩

/-- A candidate or leader after such a call was so before it, in the same term. -/
theorem of_active {before after : RaftNode} (calm : Calm before after)
    (active : after.state ≠ .follower) :
    after.state = before.state ∧
      after.persistent.currentTerm = before.persistent.currentTerm := by
  rcases calm.role with same | follower
  · exact same
  · exact absurd follower active

end Calm

theorem calm_becomeFollower (term : Nat) (leaderId : Option NodeId) :
    Calm node (node.becomeFollower term leaderId) := by
  obtain ⟨persistent, equal, _, rises⟩ := node.becomeFollower_eq term leaderId
  rw [equal]
  exact ⟨rfl, by rw [rises]; exact le_max_left _ _, .inr rfl⟩

theorem currentTerm_foldl_push (state : PersistentState) (commands : List Command) :
    (commands.foldl PersistentState.push state).currentTerm = state.currentTerm := by
  induction commands generalizing state with
  | nil => rfl
  | cons command commands ih => exact ih _

theorem calm_proposeInternal (command : Command) : Calm node (node.proposeInternal command).2 := by
  rw [proposeInternal_eq]
  exact .of_eq rfl rfl rfl

theorem calm_propose (command : Command) : Calm node (node.propose command).2 := by
  rcases node.propose_eq command with same | ⟨_, equal⟩
  · rw [same]
    exact .refl node
  · rw [equal]
    exact calm_proposeInternal node command

theorem calm_proposeBatch (commands : List Command) : Calm node (node.proposeBatch commands).2 := by
  rcases node.proposeBatch_eq commands with same | ⟨_, equal⟩
  · rw [same]
    exact .refl node
  · rw [equal]
    exact .of_eq rfl (currentTerm_foldl_push _ _) rfl

theorem calm_addNode (added : NodeId) : Calm node (node.addNode added).2 := by
  rcases node.addNode_eq added with same | ⟨config, equal⟩
  · rw [same]
    exact .refl node
  · rw [equal]
    exact calm_propose _ _

theorem calm_removeNode (removed : NodeId) : Calm node (node.removeNode removed).2 := by
  rcases node.removeNode_eq removed with same | ⟨config, equal⟩
  · rw [same]
    exact .refl node
  · rw [equal]
    exact calm_propose _ _

theorem calm_follow {term : Nat} (leaderId : Option NodeId)
    (recent : node.persistent.currentTerm ≤ term) : Calm node (node.follow term leaderId) := by
  rw [follow_eq]
  exact ⟨rfl, recent, .inr rfl⟩

theorem calm_catchUp {term : Nat} (leaderId : Option NodeId)
    (recent : node.persistent.currentTerm ≤ term) : Calm node (node.catchUp term leaderId) := by
  rcases node.catchUp_eq leaderId recent with ⟨_, equal⟩ | ⟨_, equal⟩
  · rw [equal]
    exact .refl node
  · rw [equal]
    exact calm_follow node leaderId recent

theorem calm_handleRequestVote (request : RequestVoteRequest) :
    Calm node (node.handleRequestVote request).1 := by
  rcases node.handleRequestVote_eq request with ⟨_, same⟩ | ⟨recent, equal⟩
  · rw [same]
    exact .refl node
  · rw [equal]
    split
    · exact (node.calm_catchUp none recent).trans (.of_eq rfl rfl rfl)
    · exact node.calm_catchUp none recent

theorem calm_followCommit (leaderCommit lastNewIndex : Nat) :
    Calm node (node.followCommit leaderCommit lastNewIndex) := by
  rw [followCommit]
  split
  · exact .of_eq rfl rfl rfl
  · exact .refl node

theorem calm_acceptEntries (request : AppendEntriesRequest) :
    Calm node (node.acceptEntries request).1 := by
  obtain ⟨log, merged, _⟩ := node.persistent.merge_eq request.entries
  have term : (node.persistent.merge request.entries).currentTerm =
      node.persistent.currentTerm := by
    rw [merged]
  obtain ⟨storage, equal | equal⟩ := node.acceptEntries_eq request
  · rw [equal]
    exact .of_eq rfl term rfl
  · rw [equal]
    refine Calm.trans ?_ (calm_followCommit _ request.leaderCommit request.lastNewIndex)
    exact .of_eq rfl term rfl

theorem calm_handleAppendEntries (request : AppendEntriesRequest) :
    Calm node (node.handleAppendEntries request).1 := by
  rcases node.handleAppendEntries_eq request with
    ⟨_, same⟩ | ⟨recent, ⟨_, equal, _⟩ | ⟨_, equal⟩⟩
  · rw [same]
    exact .refl node
  · rw [equal]
    exact node.calm_follow _ recent
  · rw [equal]
    exact (node.calm_follow _ recent).trans (calm_acceptEntries _ request)

theorem calm_finishHeartbeats (responses : List (NodeId × AppendEntriesResponse)) :
    Calm node (node.finishHeartbeats responses) := by
  apply takeResponses_induction _ (P := Calm node) (Calm.refl node)
  · intro done peer response calm _ _
    exact calm.trans (.of_eq rfl rfl rfl)
  · intro done term calm _
    exact calm.trans (calm_becomeFollower _ term none)
  · intro done calm
    obtain ⟨commitIndex, equal, _⟩ := done.maybeAdvanceCommitIndex_eq
    rw [equal]
    exact calm.trans (.of_eq rfl rfl rfl)

theorem calm_applyEntry (entry : LogEntry) : Calm node (node.applyEntry entry) := by
  obtain ⟨config, persistent, storage, equal, pushed, _⟩ := node.applyEntry_eq entry
  rw [equal]
  rcases pushed with ⟨same, _⟩ | ⟨_, command, push, _⟩
  · exact .of_eq rfl (by rw [same]) rfl
  · exact .of_eq rfl (by rw [push]; rfl) rfl

theorem calm_applyCommittedEntries : Calm node node.applyCommittedEntries := by
  apply applyCommittedEntries_induction _ (P := Calm node) (Calm.refl node)
  · intro done entry calm _
    exact calm.trans (calm_applyEntry _ entry)
  · intro done lastApplied calm
    exact calm.trans (.of_eq rfl rfl rfl)

end Calm

end RaftNode

end JouleDB.Raft
