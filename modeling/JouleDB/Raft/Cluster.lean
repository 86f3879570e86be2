import JouleDB.Raft.Node

/-!
# The cluster

The nodes of a cluster, the elections they are running and every message sent so far.  A step
is one call on one node.  Messages stay in `sent`: a step names the message that it takes by its
position there, so that messages may be lost, delayed, reordered and delivered more than once.
-/

namespace JouleDB.Raft

/-- What a running election keeps: the request, the configuration and the votes received. -/
structure Election where
  request : RequestVoteRequest
  config : ClusterConfig
  votesReceived : Finset NodeId

/-- Messages.  A reply goes to the call that sent its request. -/
inductive Message where
  | requestVote (peers : Finset NodeId) (request : RequestVoteRequest)
  | requestVoteReply (voter : NodeId) (request : RequestVoteRequest)
      (response : RequestVoteResponse)
  | appendEntries (peer : NodeId) (request : AppendEntriesRequest)
  | appendEntriesReply (peer : NodeId) (request : AppendEntriesRequest)
      (response : AppendEntriesResponse)
  deriving DecidableEq

/-- A cluster. -/
structure Cluster where
  nodes : NodeId → RaftNode
  elections : NodeId → Option Election
  sent : List Message

/-- The steps. -/
inductive Action where
  | runElection (id : NodeId)
  | handleRequestVote (position : Nat) (voter : NodeId)
  | countVote (position : Nat)
  | propose (id : NodeId) (command : Command)
  | proposeBatch (id : NodeId) (commands : List Command)
  | sendHeartbeat (id peer : NodeId)
  | handleAppendEntries (position : Nat)
  | finishHeartbeats (id : NodeId) (positions : List Nat)
  | applyCommittedEntries (id : NodeId)
  | addNode (id added : NodeId)
  | removeNode (id removed : NodeId)
  deriving DecidableEq

namespace Cluster

/-- A cluster of new nodes with the same configuration. -/
def initial (config : ClusterConfig) (maxEntriesPerRpc : NodeId → Nat)
    (storage : NodeId → Storage) : Cluster where
  nodes := fun id => .new id (maxEntriesPerRpc id) config .new (storage id)
  elections := fun _ => none
  sent := []

/-- Replace a node. -/
def setNode (cluster : Cluster) (id : NodeId) (node : RaftNode) : Cluster :=
  { cluster with nodes := fun other => if other = id then node else cluster.nodes other }

/-- Replace what a node's running election keeps. -/
def setElection (cluster : Cluster) (id : NodeId) (election : Option Election) : Cluster :=
  { cluster with
    elections := fun other => if other = id then election else cluster.elections other }

/-- Send a message. -/
def send (cluster : Cluster) (message : Message) : Cluster :=
  { cluster with sent := cluster.sent ++ [message] }

/-- The request of a node that has become a candidate. -/
def voteRequest (node : RaftNode) : RequestVoteRequest :=
  ⟨node.persistent.currentTerm, node.nodeId, node.persistent.lastLogIndex,
    node.persistent.lastLogTerm⟩

/-- Start an election: become a candidate and ask all voting members for their votes. -/
def runElection (cluster : Cluster) (id : NodeId) : Option Cluster :=
  if (cluster.nodes id).state = .leader then
    none
  else
    let node := (cluster.nodes id).becomeCandidate
    let config := node.clusterConfig
    some (((cluster.setNode id node).setElection id
      (some ⟨voteRequest node, config, {node.nodeId}⟩)).send
        (.requestVote (config.votingMembers.erase node.nodeId) (voteRequest node)))

/-- A peer handles a vote request. -/
def handleRequestVote (cluster : Cluster) (voter : NodeId) (request : RequestVoteRequest) :
    Cluster :=
  let (node, response) := (cluster.nodes voter).handleRequestVote request
  (cluster.setNode voter node).send (.requestVoteReply voter request response)

/-- A running election takes in a response. -/
def countVote (cluster : Cluster) (id : NodeId) (election : Election) (voter : NodeId)
    (response : RequestVoteResponse) : Cluster :=
  let node := cluster.nodes id
  if node.state ≠ .candidate then
    cluster.setElection id none
  else if election.request.term < response.term then
    (cluster.setNode id (node.becomeFollower response.term none)).setElection id none
  else if response.voteGranted then
    let votes := insert voter election.votesReceived
    if election.config.hasQuorum votes then
      (cluster.setNode id node.becomeLeader).setElection id none
    else
      cluster.setElection id (some { election with votesReceived := votes })
  else
    cluster

/-- A peer handles an AppendEntries request. -/
def handleAppendEntries (cluster : Cluster) (peer : NodeId) (request : AppendEntriesRequest) :
    Cluster :=
  let (node, response) := (cluster.nodes peer).handleAppendEntries request
  (cluster.setNode peer node).send (.appendEntriesReply peer request response)

/-- A leader sends AppendEntries to a peer. -/
def sendHeartbeat (cluster : Cluster) (id peer : NodeId) : Option Cluster :=
  let node := cluster.nodes id
  if peer ∈ node.clusterConfig.votingMembers.erase node.nodeId then
    (node.heartbeatRequest peer).map fun request => cluster.send (.appendEntries peer request)
  else
    none

/-- The response at a position, if it answers a request of the node. -/
def responseTo (cluster : Cluster) (id : NodeId) (position : Nat) :
    Option (NodeId × AppendEntriesResponse) :=
  match cluster.sent[position]? with
  | some (.appendEntriesReply peer request response) =>
      if request.leaderId = id then some (peer, response) else none
  | _ => none

/-- One step. -/
def step (cluster : Cluster) : Action → Option Cluster
  | .runElection id => cluster.runElection id
  | .handleRequestVote position voter =>
      match cluster.sent[position]? with
      | some (.requestVote peers request) =>
          if voter ∈ peers then some (cluster.handleRequestVote voter request) else none
      | _ => none
  | .countVote position =>
      match cluster.sent[position]? with
      | some (.requestVoteReply voter request response) =>
          match cluster.elections request.candidateId with
          | some election =>
              if election.request = request then
                some (cluster.countVote request.candidateId election voter response)
              else
                none
          | none => none
      | _ => none
  | .propose id command => some (cluster.setNode id ((cluster.nodes id).propose command).2)
  | .proposeBatch id commands =>
      some (cluster.setNode id ((cluster.nodes id).proposeBatch commands).2)
  | .sendHeartbeat id peer => cluster.sendHeartbeat id peer
  | .handleAppendEntries position =>
      match cluster.sent[position]? with
      | some (.appendEntries peer request) => some (cluster.handleAppendEntries peer request)
      | _ => none
  | .finishHeartbeats id positions =>
      (positions.mapM (cluster.responseTo id)).map fun responses =>
        cluster.setNode id ((cluster.nodes id).finishHeartbeats responses)
  | .applyCommittedEntries id =>
      some (cluster.setNode id (cluster.nodes id).applyCommittedEntries)
  | .addNode id added => some (cluster.setNode id ((cluster.nodes id).addNode added).2)
  | .removeNode id removed => some (cluster.setNode id ((cluster.nodes id).removeNode removed).2)

/-- What a step finds and where it leads. -/
inductive Takes (cluster : Cluster) : Action → Cluster → Prop where
  | runElection {id : NodeId} {next : Cluster} (runs : cluster.runElection id = some next) :
      Takes cluster (.runElection id) next
  | handleRequestVote {position : Nat} {voter : NodeId} {peers : Finset NodeId}
      {request : RequestVoteRequest}
      (found : cluster.sent[position]? = some (.requestVote peers request))
      (addressed : voter ∈ peers) :
      Takes cluster (.handleRequestVote position voter) (cluster.handleRequestVote voter request)
  | countVote {position : Nat} {voter : NodeId} {request : RequestVoteRequest}
      {response : RequestVoteResponse} {election : Election}
      (found : cluster.sent[position]? = some (.requestVoteReply voter request response))
      (running : cluster.elections request.candidateId = some election)
      (own : election.request = request) :
      Takes cluster (.countVote position)
        (cluster.countVote request.candidateId election voter response)
  | propose (id : NodeId) (command : Command) : Takes cluster (.propose id command)
      (cluster.setNode id ((cluster.nodes id).propose command).2)
  | proposeBatch (id : NodeId) (commands : List Command) : Takes cluster (.proposeBatch id commands)
      (cluster.setNode id ((cluster.nodes id).proposeBatch commands).2)
  | sendHeartbeat {id peer : NodeId} {request : AppendEntriesRequest}
      (sending : (cluster.nodes id).heartbeatRequest peer = some request) :
      Takes cluster (.sendHeartbeat id peer) (cluster.send (.appendEntries peer request))
  | handleAppendEntries {position : Nat} {peer : NodeId} {request : AppendEntriesRequest}
      (found : cluster.sent[position]? = some (.appendEntries peer request)) :
      Takes cluster (.handleAppendEntries position) (cluster.handleAppendEntries peer request)
  | finishHeartbeats {id : NodeId} {positions : List Nat}
      {responses : List (NodeId × AppendEntriesResponse)}
      (arrived : positions.mapM (cluster.responseTo id) = some responses) :
      Takes cluster (.finishHeartbeats id positions)
        (cluster.setNode id ((cluster.nodes id).finishHeartbeats responses))
  | applyCommittedEntries (id : NodeId) : Takes cluster (.applyCommittedEntries id)
      (cluster.setNode id (cluster.nodes id).applyCommittedEntries)
  | addNode (id added : NodeId) : Takes cluster (.addNode id added)
      (cluster.setNode id ((cluster.nodes id).addNode added).2)
  | removeNode (id removed : NodeId) : Takes cluster (.removeNode id removed)
      (cluster.setNode id ((cluster.nodes id).removeNode removed).2)

theorem takes_of_step {cluster next : Cluster} {action : Action}
    (taken : cluster.step action = some next) : cluster.Takes action next := by
  unfold step at taken
  split at taken
  next => exact .runElection taken
  next =>
    split at taken
    next found =>
      split at taken
      next addressed =>
        cases taken
        exact .handleRequestVote found addressed
      next => cases taken
    next => cases taken
  next =>
    split at taken
    next found =>
      split at taken
      next running =>
        split at taken
        next own =>
          cases taken
          exact .countVote found running own
        next => cases taken
      next => cases taken
    next => cases taken
  next =>
    cases taken
    exact .propose _ _
  next =>
    cases taken
    exact .proposeBatch _ _
  next =>
    rw [sendHeartbeat] at taken
    split at taken
    next =>
      obtain ⟨request, sending, rfl⟩ := Option.map_eq_some_iff.mp taken
      exact .sendHeartbeat sending
    next => cases taken
  next =>
    split at taken
    next found =>
      cases taken
      exact .handleAppendEntries found
    next => cases taken
  next =>
    obtain ⟨responses, arrived, rfl⟩ := Option.map_eq_some_iff.mp taken
    exact .finishHeartbeats arrived
  next =>
    cases taken
    exact .applyCommittedEntries _
  next =>
    cases taken
    exact .addNode _ _
  next =>
    cases taken
    exact .removeNode _ _

/-- The cluster after a run. -/
def after (cluster : Cluster) : List Action → Option Cluster
  | [] => some cluster
  | action :: actions => (cluster.step action).bind fun next => next.after actions

/-- A node leads a term. -/
def Leads (cluster : Cluster) (id : NodeId) (term : Nat) : Prop :=
  (cluster.nodes id).state = .leader ∧ (cluster.nodes id).persistent.currentTerm = term

instance (cluster : Cluster) (id : NodeId) (term : Nat) : Decidable (cluster.Leads id term) :=
  inferInstanceAs (Decidable (_ ∧ _))

end Cluster

end JouleDB.Raft
