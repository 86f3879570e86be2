import Mathlib.Data.Finset.Card
import JouleDB.Lib.Bytes

/-!
# Raft: terms, logs, configurations and messages

The data that the nodes of a cluster keep and exchange.  Terms and log indices are natural
numbers, sets of nodes are finite sets, and the log is a list whose entry for index `i` is at
position `i - 1`.
-/

namespace JouleDB.Raft

/-- Identifier of a node. -/
abbrev NodeId := String

/-- Node state. -/
inductive RaftState where
  | follower
  | candidate
  | leader
  deriving DecidableEq, Repr

/-- Cluster configuration; `newMembers` is there during joint consensus. -/
structure ClusterConfig where
  members : Finset NodeId
  newMembers : Option (Finset NodeId)
  configIndex : Nat
  deriving DecidableEq

namespace ClusterConfig

/-- A configuration with the given members. -/
def new (members : Finset NodeId) : ClusterConfig := ⟨members, none, 0⟩

/-- Joint consensus is under way. -/
def isJoint (config : ClusterConfig) : Bool := config.newMembers.isSome

/-- All voting members, old and new. -/
def votingMembers (config : ClusterConfig) : Finset NodeId :=
  match config.newMembers with
  | some new => config.members ∪ new
  | none => config.members

/-- Majority of the old members. -/
def oldMajority (config : ClusterConfig) : Nat := config.members.card / 2 + 1

/-- Majority of the new members. -/
def newMajority (config : ClusterConfig) : Option Nat :=
  config.newMembers.map fun new => new.card / 2 + 1

/-- The voters hold a majority of the old members. -/
def hasOldMajority (config : ClusterConfig) (voters : Finset NodeId) : Bool :=
  config.oldMajority ≤ (voters.filter fun voter => voter ∈ config.members).card

/-- The voters hold a majority of the new members, if there are any. -/
def hasNewMajority (config : ClusterConfig) (voters : Finset NodeId) : Bool :=
  match config.newMembers with
  | some new => config.newMajority.getD 1 ≤ (voters.filter fun voter => voter ∈ new).card
  | none => true

/-- The voters hold the majorities that the configuration asks for. -/
def hasQuorum (config : ClusterConfig) (voters : Finset NodeId) : Bool :=
  config.hasOldMajority voters && config.hasNewMajority voters

end ClusterConfig

/-- Command to be replicated. -/
inductive Command where
  | noop
  | set (key value : Bytes)
  | delete (key : Bytes)
  | configChange (config : ClusterConfig)
  | mutationDelta (delta : Bytes)
  deriving DecidableEq

/-- A log entry. -/
structure LogEntry where
  term : Nat
  index : Nat
  command : Command
  deriving DecidableEq

/-- Arguments of RequestVote. -/
structure RequestVoteRequest where
  term : Nat
  candidateId : NodeId
  lastLogIndex : Nat
  lastLogTerm : Nat
  deriving DecidableEq

/-- Response to RequestVote. -/
structure RequestVoteResponse where
  term : Nat
  voteGranted : Bool
  deriving DecidableEq

/-- Arguments of AppendEntries. -/
structure AppendEntriesRequest where
  term : Nat
  leaderId : NodeId
  prevLogIndex : Nat
  prevLogTerm : Nat
  entries : List LogEntry
  leaderCommit : Nat
  deriving DecidableEq

/-- The index of the last entry that a request covers. -/
def AppendEntriesRequest.lastNewIndex (request : AppendEntriesRequest) : Nat :=
  (request.entries.getLast?.map (·.index)).getD request.prevLogIndex

/-- Response to AppendEntries. -/
structure AppendEntriesResponse where
  term : Nat
  success : Bool
  conflictIndex : Option Nat
  conflictTerm : Option Nat
  matchIndex : Nat
  deriving DecidableEq

/-- Errors of Raft operations. -/
inductive RaftError where
  | notLeader (leader : Option NodeId)
  | timeout
  | nodeNotFound (node : NodeId)
  | invalidConfig (message : String)
  | snapshotError (message : String)
  | internal (message : String)
  deriving DecidableEq

/-- The state that has to survive a restart. -/
structure PersistentState where
  currentTerm : Nat
  votedFor : Option NodeId
  log : List LogEntry
  deriving DecidableEq

namespace PersistentState

/-- A fresh state. -/
def new : PersistentState := ⟨0, none, []⟩

/-- Index of the last entry. -/
def lastLogIndex (state : PersistentState) : Nat := (state.log.getLast?.map (·.index)).getD 0

/-- Term of the last entry. -/
def lastLogTerm (state : PersistentState) : Nat := (state.log.getLast?.map (·.term)).getD 0

/-- The entry at an index. -/
def getEntry (state : PersistentState) (index : Nat) : Option LogEntry :=
  if index = 0 ∨ state.log.length < index then none else state.log[index - 1]?

/-- The term at an index. -/
def getTerm (state : PersistentState) (index : Nat) : Option Nat :=
  (state.getEntry index).map (·.term)

/-- Drop the entries from an index on. -/
def truncateFrom (state : PersistentState) (index : Nat) : PersistentState :=
  if 0 < index ∧ index ≤ state.log.length then
    { state with log := state.log.take (index - 1) }
  else
    state

/-- The entries between two indices, both inclusive; taking the slice panics if it starts after
its end. -/
def getEntries (state : PersistentState) (startIndex endIndex : Nat) : Option (List LogEntry) :=
  if startIndex = 0 ∨ endIndex < startIndex then
    some []
  else if startIndex - 1 ≤ min endIndex state.log.length then
    some ((state.log.take (min endIndex state.log.length)).drop (startIndex - 1))
  else
    none

/-- The first index of the run of entries of one term that ends at an index. -/
def conflictStart (state : PersistentState) (conflictTerm : Nat) : Nat → Nat
  | 0 => 0
  | 1 => 1
  | before + 2 =>
      match state.getTerm (before + 1) with
      | some term =>
          if term ≠ conflictTerm then before + 2
          else state.conflictStart conflictTerm (before + 1)
      | none => state.conflictStart conflictTerm (before + 1)

/-- Drop the log from the first entry on that conflicts with a received one. -/
def truncateConflicting (state : PersistentState) : List LogEntry → PersistentState
  | [] => state
  | entry :: entries =>
      match state.getTerm entry.index with
      | some existingTerm =>
          if existingTerm ≠ entry.term then state.truncateFrom entry.index
          else state.truncateConflicting entries
      | none => state.truncateConflicting entries

/-- Append the received entries that lie behind the end of the log; returns their number. -/
def appendNew (state : PersistentState) : List LogEntry → PersistentState × Nat
  | [] => (state, 0)
  | entry :: entries =>
      if state.lastLogIndex < entry.index then
        let (state, appended) := { state with log := state.log ++ [entry] }.appendNew entries
        (state, appended + 1)
      else
        state.appendNew entries

/-- Append an entry for a command at the end of the log. -/
def push (state : PersistentState) (command : Command) : PersistentState :=
  { state with
    log := state.log ++ [⟨state.currentTerm, state.lastLogIndex + 1, command⟩] }

end PersistentState

/-- A map from nodes to log indices: its keys and what they are mapped to. -/
structure IndexMap where
  keys : Finset NodeId
  value : NodeId → Nat

namespace IndexMap

/-- The same index for all keys. -/
def fill (keys : Finset NodeId) (index : Nat) : IndexMap := ⟨keys, fun _ => index⟩

/-- The index of a node. -/
def get (map : IndexMap) (node : NodeId) : Option Nat :=
  if node ∈ map.keys then some (map.value node) else none

/-- Set the index of a node. -/
def insert (map : IndexMap) (node : NodeId) (index : Nat) : IndexMap :=
  ⟨Insert.insert node map.keys, fun other => if other = node then index else map.value other⟩

end IndexMap

/-- Volatile state of a leader. -/
structure LeaderState where
  nextIndex : IndexMap
  matchIndex : IndexMap

namespace LeaderState

/-- The state of a new leader. -/
def new (peers : Finset NodeId) (lastLogIndex : Nat) : LeaderState :=
  ⟨.fill peers (lastLogIndex + 1), .fill peers 0⟩

/-- Record how far a node's log matches. -/
def updateMatch (leader : LeaderState) (node : NodeId) (matchIndex : Nat) : LeaderState :=
  ⟨leader.nextIndex.insert node (matchIndex + 1), leader.matchIndex.insert node matchIndex⟩

/-- Move the next index of a node back after a rejection. -/
def decrementNext (leader : LeaderState) (node : NodeId) (hintIndex : Option Nat) : LeaderState :=
  match leader.nextIndex.get node, hintIndex with
  | some next, some hint => { leader with nextIndex := leader.nextIndex.insert node (min next hint) }
  | some next, none =>
      if 1 < next then { leader with nextIndex := leader.nextIndex.insert node (next - 1) }
      else leader
  | none, _ => leader

/-- The nodes known to hold the entry at an index, the leader itself included. -/
def replicated (leader : LeaderState) (self : NodeId) (index : Nat) : Finset NodeId :=
  Insert.insert self
    (leader.matchIndex.keys.filter fun node => index ≤ leader.matchIndex.value node)

end LeaderState

end JouleDB.Raft
