import JouleDB.Raft.Storage

/-!
# The Raft node

What a node does on its own: the transitions between follower, candidate and leader, proposals,
the two sides of a round of heartbeats, the commit rule, applying entries, and the handlers of
RequestVote and AppendEntries.  A call takes the node before it and returns the node after it.
-/

namespace JouleDB.Raft

/-- A call that the node has made on its state machine. -/
inductive MachineCall where
  | apply (entry : LogEntry)
  | restore (data : Bytes)
  deriving DecidableEq

/-- One shard of an erasure-coded snapshot. -/
structure ErasureShard where
  index : Nat
  data : Bytes
  totalShards : Nat
  originalLen : Nat
  dataShards : Nat
  parityShards : Nat
  deriving DecidableEq

/-- A snapshot with its metadata. -/
structure Snapshot where
  lastIncludedIndex : Nat
  lastIncludedTerm : Nat
  config : ClusterConfig
  totalSize : Nat
  data : Bytes
  deriving DecidableEq

/-- A Raft node. -/
structure RaftNode where
  nodeId : NodeId
  maxEntriesPerRpc : Nat
  state : RaftState
  persistent : PersistentState
  commitIndex : Nat
  lastApplied : Nat
  leaderState : Option LeaderState
  clusterConfig : ClusterConfig
  leaderId : Option NodeId
  /-- The state machine: the calls made on it so far. -/
  stateMachine : List MachineCall
  snapshot : Option Snapshot
  snapshotOffset : Nat
  pendingSnapshot : Bytes
  pendingErasureShards : List (Option ErasureShard)
  storage : Storage

namespace RaftNode

/-- A new node with the state recovered from its storage. -/
def new (nodeId : NodeId) (maxEntriesPerRpc : Nat) (config : ClusterConfig)
    (persistent : PersistentState) (storage : Storage) : RaftNode where
  nodeId := nodeId
  maxEntriesPerRpc := maxEntriesPerRpc
  state := .follower
  persistent := persistent
  commitIndex := 0
  lastApplied := 0
  leaderState := none
  clusterConfig := config
  leaderId := none
  stateMachine := []
  snapshot := none
  snapshotOffset := 0
  pendingSnapshot := []
  pendingErasureShards := []
  storage := storage

/-- The entries applied to the state machine. -/
def applied (node : RaftNode) : List LogEntry :=
  node.stateMachine.filterMap fun call =>
    match call with
    | .apply entry => some entry
    | .restore _ => none

/-- This node is the leader. -/
def isLeader (node : RaftNode) : Bool := node.state = .leader

/-- Persist term and vote; a failure is only reported. -/
def persistMeta (node : RaftNode) : RaftNode :=
  { node with
    storage :=
      (node.storage.persistMetaSync node.persistent.currentTerm node.persistent.votedFor).2 }

/-- Take over a term, forgetting the vote. -/
def adoptTerm (node : RaftNode) (term : Nat) : RaftNode :=
  { node with persistent := { node.persistent with currentTerm := term, votedFor := none } }

/-- Become a follower. -/
def becomeFollower (node : RaftNode) (term : Nat) (leaderId : Option NodeId) : RaftNode :=
  let node := if node.persistent.currentTerm < term then node.adoptTerm term else node
  { node.persistMeta with state := .follower, leaderId := leaderId, leaderState := none }

/-- Take over a term and become a follower in it. -/
def follow (node : RaftNode) (term : Nat) (leaderId : Option NodeId) : RaftNode :=
  (node.adoptTerm term).becomeFollower term leaderId

/-- Convert to follower of a higher term. -/
def catchUp (node : RaftNode) (term : Nat) (leaderId : Option NodeId) : RaftNode :=
  if node.persistent.currentTerm < term then node.follow term leaderId else node

/-- Become a candidate: enter the next term and vote for oneself. -/
def becomeCandidate (node : RaftNode) : RaftNode :=
  let persistent := { node.persistent with
    currentTerm := node.persistent.currentTerm + 1
    votedFor := some node.nodeId }
  { { node with persistent := persistent }.persistMeta with
    state := .candidate, leaderId := none, leaderState := none }

/-- Append a command to the log, whoever is leader. -/
def proposeInternal (node : RaftNode) (command : Command) : Except RaftError Nat × RaftNode :=
  let persistent := node.persistent.push command
  let (persisted, storage) := node.storage.persistStateSync persistent 1
  let node := { node with persistent := persistent, storage := storage }
  match persisted with
  | .error error => (.error error, node)
  | .ok _ => (.ok node.persistent.lastLogIndex, node)

/-- Become the leader and propose a no-op. -/
def becomeLeader (node : RaftNode) : RaftNode :=
  let peers := node.clusterConfig.votingMembers.erase node.nodeId
  let node := { node with
    state := .leader
    leaderId := some node.nodeId
    leaderState := some (.new peers node.persistent.lastLogIndex) }
  (node.proposeInternal .noop).2

/-- Propose a command. -/
def propose (node : RaftNode) (command : Command) : Except RaftError Nat × RaftNode :=
  if node.isLeader then node.proposeInternal command else (.error (.notLeader node.leaderId), node)

/-- Append commands one after the other; returns their indices. -/
def pushAll (state : PersistentState) : List Command → PersistentState × List Nat
  | [] => (state, [])
  | command :: commands =>
      let (last, indices) := pushAll (state.push command) commands
      (last, (state.lastLogIndex + 1) :: indices)

/-- Propose several commands at once. -/
def proposeBatch (node : RaftNode) (commands : List Command) :
    Except RaftError (List Nat) × RaftNode :=
  if node.isLeader then
    if commands.isEmpty then
      (.ok [], node)
    else
      let (persistent, indices) := pushAll node.persistent commands
      let (persisted, storage) := node.storage.persistStateSync persistent commands.length
      let node := { node with persistent := persistent, storage := storage }
      match persisted with
      | .error error => (.error error, node)
      | .ok _ => (.ok indices, node)
  else
    (.error (.notLeader node.leaderId), node)

/-- The AppendEntries request that a leader sends to a peer. -/
def heartbeatRequest (node : RaftNode) (peer : NodeId) : Option AppendEntriesRequest :=
  if node.isLeader then
    match node.leaderState with
    | none => none
    | some leader =>
        let nextIndex := (leader.nextIndex.get peer).getD 1
        let lastIndex := node.persistent.lastLogIndex
        let endIndex := min (nextIndex + node.maxEntriesPerRpc - 1) lastIndex
        let entries :=
          if nextIndex ≤ lastIndex then node.persistent.getEntries nextIndex endIndex else some []
        entries.map fun entries =>
          { term := node.persistent.currentTerm
            leaderId := node.nodeId
            prevLogIndex := nextIndex - 1
            prevLogTerm := (node.persistent.getTerm (nextIndex - 1)).getD 0
            entries := entries
            leaderCommit := node.commitIndex }
  else
    none

/-- One index of the commit rule: only entries of the current term are counted. -/
def commitAt (node : RaftNode) (leader : LeaderState) (index : Nat) : RaftNode :=
  if node.persistent.getTerm index = some node.persistent.currentTerm then
    if node.clusterConfig.hasQuorum (leader.replicated node.nodeId index) then
      { node with commitIndex := index }
    else
      node
  else
    node

/-- Advance the commit index over the entries that a quorum holds. -/
def maybeAdvanceCommitIndex (node : RaftNode) : RaftNode :=
  match node.leaderState with
  | none => node
  | some leader =>
      let first := node.commitIndex + 1
      (List.range' first (node.persistent.lastLogIndex + 1 - first)).foldl
        (fun node index => node.commitAt leader index) node

/-- Note a peer's progress or its lack. -/
def noteResponse (node : RaftNode) (peer : NodeId) (response : AppendEntriesResponse) : RaftNode :=
  { node with
    leaderState := node.leaderState.map fun leader =>
      if response.success then leader.updateMatch peer response.matchIndex
      else leader.decrementNext peer response.conflictIndex }

/-- Take in the responses to a round of heartbeats, given the term read after the last of them
arrived. -/
def takeResponses (node : RaftNode) (currentTerm : Nat) :
    List (NodeId × AppendEntriesResponse) → RaftNode
  | [] => node.maybeAdvanceCommitIndex
  | (peer, response) :: responses =>
      if currentTerm < response.term then
        node.becomeFollower response.term none
      else if response.term ≠ currentTerm then
        node.takeResponses currentTerm responses
      else
        (node.noteResponse peer response).takeResponses currentTerm responses

/-- The end of a round of heartbeats: the responses that arrived are taken in. -/
def finishHeartbeats (node : RaftNode) (responses : List (NodeId × AppendEntriesResponse)) :
    RaftNode :=
  node.takeResponses node.persistent.currentTerm responses

/-- Apply one entry; a configuration takes effect here, and a leader that applies a joint
configuration proposes the final one. -/
def applyEntry (node : RaftNode) (entry : LogEntry) : RaftNode :=
  let node := { node with stateMachine := node.stateMachine ++ [.apply entry] }
  match entry.command with
  | .configChange config =>
      let node := { node with clusterConfig := config }
      match config.newMembers with
      | some members =>
          if node.isLeader then
            (node.proposeInternal (.configChange ⟨members, none, entry.index + 1⟩)).2
          else
            node
      | none => node
  | _ => node

/-- Apply the committed entries that are not applied yet. -/
def applyCommittedEntries (node : RaftNode) : RaftNode :=
  if node.commitIndex ≤ node.lastApplied then
    node
  else
    match node.persistent.getEntries (node.lastApplied + 1) node.commitIndex with
    | none => node
    | some entries =>
        let lastApplied := (entries.getLast?.map (·.index)).getD node.lastApplied
        { entries.foldl applyEntry node with lastApplied := lastApplied }

/-- The candidate's log is at least as up to date as the node's. -/
def logOk (node : RaftNode) (request : RequestVoteRequest) : Bool :=
  node.persistent.lastLogTerm < request.lastLogTerm ||
    (request.lastLogTerm = node.persistent.lastLogTerm &&
      node.persistent.lastLogIndex ≤ request.lastLogIndex)

/-- The node has no vote in its term, or voted for the candidate. -/
def canVote (node : RaftNode) (request : RequestVoteRequest) : Bool :=
  node.persistent.votedFor = none || node.persistent.votedFor = some request.candidateId

/-- Vote for a candidate and persist the vote; a failure is only reported. -/
def grantVote (node : RaftNode) (candidate : NodeId) : RaftNode :=
  { node with persistent := { node.persistent with votedFor := some candidate } }.persistMeta

/-- Handle a RequestVote call. -/
def handleRequestVote (node : RaftNode) (request : RequestVoteRequest) :
    RaftNode × RequestVoteResponse :=
  if request.term < node.persistent.currentTerm then
    (node, ⟨node.persistent.currentTerm, false⟩)
  else
    let node := node.catchUp request.term none
    let voteGranted := node.canVote request && node.logOk request
    let node' := if voteGranted then node.grantVote request.candidateId else node
    (node', ⟨node.persistent.currentTerm, voteGranted⟩)

/-- A response that reports failure. -/
def rejection (node : RaftNode) (conflictIndex conflictTerm : Option Nat) :
    AppendEntriesResponse :=
  ⟨node.persistent.currentTerm, false, conflictIndex, conflictTerm, 0⟩

/-- The end of a successful AppendEntries call: follow the leader's commit index. -/
def followCommit (node : RaftNode) (leaderCommit lastNewIndex : Nat) : RaftNode :=
  if node.commitIndex < leaderCommit then
    { node with commitIndex := min leaderCommit lastNewIndex }
  else
    node

/-- The part of an AppendEntries call after the consistency check. -/
def acceptEntries (node : RaftNode) (request : AppendEntriesRequest) :
    RaftNode × AppendEntriesResponse :=
  let (persistent, appended) :=
    (node.persistent.truncateConflicting request.entries).appendNew request.entries
  let (persisted, storage) :=
    if 0 < appended then node.storage.persistStateSync persistent appended
    else (.ok (), node.storage)
  let node := { node with persistent := persistent, storage := storage }
  match persisted with
  | .error _ => (node, node.rejection none none)
  | .ok _ =>
      (node.followCommit request.leaderCommit request.lastNewIndex,
        ⟨node.persistent.currentTerm, true, none, none, request.lastNewIndex⟩)

/-- Handle an AppendEntries call. -/
def handleAppendEntries (node : RaftNode) (request : AppendEntriesRequest) :
    RaftNode × AppendEntriesResponse :=
  if request.term < node.persistent.currentTerm then
    (node, node.rejection none none)
  else
    -- the vote is forgotten also when the term stays the same
    let node := node.follow request.term (some request.leaderId)
    if 0 < request.prevLogIndex then
      match node.persistent.getTerm request.prevLogIndex with
      | none => (node, node.rejection (some (node.persistent.lastLogIndex + 1)) none)
      | some term =>
          if term ≠ request.prevLogTerm then
            (node, node.rejection
              (some (node.persistent.conflictStart term request.prevLogIndex)) (some term))
          else
            node.acceptEntries request
    else
      node.acceptEntries request

/-- Propose a joint configuration with the given new members. -/
def proposeJoint (node : RaftNode) (members : Finset NodeId) : Except RaftError Nat × RaftNode :=
  node.propose
    (.configChange ⟨node.clusterConfig.members, some members, node.persistent.lastLogIndex + 1⟩)

/-- Add a node to the cluster. -/
def addNode (node : RaftNode) (added : NodeId) : Except RaftError Nat × RaftNode :=
  if node.isLeader then
    if node.clusterConfig.isJoint then
      (.error (.invalidConfig "Already in joint consensus"), node)
    else
      node.proposeJoint (insert added node.clusterConfig.members)
  else
    (.error (.notLeader node.leaderId), node)

/-- Remove a node from the cluster. -/
def removeNode (node : RaftNode) (removed : NodeId) : Except RaftError Nat × RaftNode :=
  if node.isLeader then
    if node.clusterConfig.isJoint then
      (.error (.invalidConfig "Already in joint consensus"), node)
    else if removed ∉ node.clusterConfig.members then
      (.error (.nodeNotFound removed), node)
    else if node.clusterConfig.members.erase removed = ∅ then
      (.error (.invalidConfig "Cannot remove last node"), node)
    else
      node.proposeJoint (node.clusterConfig.members.erase removed)
  else
    (.error (.notLeader node.leaderId), node)

end RaftNode

end JouleDB.Raft
