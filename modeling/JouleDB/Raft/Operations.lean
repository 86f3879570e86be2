import JouleDB.Raft.Calls
import JouleDB.Raft.Snapshot

/-!
# The operations of one node

Every call that touches the persistent state of a node, in any order, and what the calls do to
the write-ahead log.
-/

namespace JouleDB.Raft

/-- A call on a node. -/
inductive Call where
  | handleRequestVote (request : RequestVoteRequest)
  | handleAppendEntries (request : AppendEntriesRequest)
  | handleInstallSnapshot (request : InstallSnapshotRequest)
  | propose (command : Command)
  | proposeBatch (commands : List Command)
  | addNode (added : NodeId)
  | removeNode (removed : NodeId)
  | becomeCandidate
  | becomeLeader
  | becomeFollower (term : Nat) (leaderId : Option NodeId)
  | finishHeartbeats (responses : List (NodeId × AppendEntriesResponse))
  | applyCommittedEntries
  | checkpoint
  deriving DecidableEq

namespace RaftWal

variable (wal : RaftWal) (directory : Directory)

theorem appended_concat (record : WalRecord) (fate : Fate) :
    appended { wal with attempts := wal.attempts ++ [(record, fate)] } =
      wal.appended ++ if fate = .ok then [record] else [] := by
  rw [appended, List.filterMap_append]
  by_cases ok : fate = .ok
  · rw [if_pos ok]
    simp [appended, ok]
  · rw [if_neg ok]
    simp [appended, ok]

theorem appendEntry_ok {entry : LogEntry} (ok : directory.fate directory.operations = .ok) :
    wal.appendEntry directory entry =
      (.ok (), directory.next.2,
        { wal with
          attempts := wal.attempts ++ [(.entry entry, .ok)]
          entriesSinceCheckpoint := wal.entriesSinceCheckpoint + 1 }) := by
  rw [appendEntry, append]
  dsimp only [Directory.next]
  rw [ok]
  rfl

theorem appendEntry_error (entry : LogEntry) (failed : directory.fate directory.operations ≠ .ok) :
    ∃ error directory' wal', wal.appendEntry directory entry = (.error error, directory', wal') := by
  rw [appendEntry, append]
  dsimp only [Directory.next]
  cases fate : directory.fate directory.operations with
  | ok => exact absurd fate failed
  | failed written error => exact ⟨error, _, _, rfl⟩

theorem appendEntries_ok (entries : List LogEntry)
    (ok : ∀ ahead < entries.length, directory.fate (directory.operations + ahead) = .ok) :
    wal.appendEntries directory entries =
      (.ok (), { directory with operations := directory.operations + entries.length },
        { wal with
          attempts := wal.attempts ++ entries.map fun entry => (.entry entry, .ok)
          entriesSinceCheckpoint := wal.entriesSinceCheckpoint + entries.length }) := by
  induction entries generalizing wal directory with
  | nil => simp [appendEntries]
  | cons entry entries ih =>
      have first : directory.fate directory.operations = .ok := ok 0 (by simp)
      have rest : ∀ ahead < entries.length,
          directory.next.2.fate (directory.next.2.operations + ahead) = .ok := by
        intro ahead below
        have later := ok (ahead + 1) (by simpa using below)
        rw [← Nat.add_assoc, Nat.add_right_comm] at later
        exact later
      rw [appendEntries, appendEntry_ok wal directory first]
      dsimp only
      rw [ih _ _ rest]
      simp only [Directory.next, List.map_cons, List.length_cons, List.append_assoc,
        List.singleton_append, Nat.add_assoc, Nat.add_comm 1]

theorem appendEntries_error (entries : List LogEntry)
    (failed : ¬ ∀ ahead < entries.length, directory.fate (directory.operations + ahead) = .ok) :
    ∃ error directory' wal',
      wal.appendEntries directory entries = (.error error, directory', wal') := by
  induction entries generalizing wal directory with
  | nil => exact absurd (fun ahead below => absurd below (Nat.not_lt_zero _)) failed
  | cons entry entries ih =>
      rw [appendEntries]
      by_cases first : directory.fate directory.operations = .ok
      · rw [appendEntry_ok wal directory first]
        apply ih
        intro rest
        apply failed
        intro ahead below
        cases ahead with
        | zero => exact first
        | succ ahead =>
            rw [← Nat.add_assoc, Nat.add_right_comm]
            exact rest ahead (by simpa using below)
      · obtain ⟨error, directory', wal', result⟩ := wal.appendEntry_error directory entry first
        rw [result]
        exact ⟨error, directory', wal', rfl⟩

theorem checkpoint_attempts (state : PersistentState) :
    (wal.checkpoint directory state).2.2.attempts = wal.attempts := by
  rw [checkpoint]
  split
  · rfl
  · split
    · rfl
    · dsimp only
      split <;> rfl

end RaftWal

namespace Storage

/-- Write a checkpoint of the state. -/
def checkpoint (storage : Storage) (state : PersistentState) : Storage :=
  match storage with
  | .logged directory wal =>
      let (_, directory, wal) := wal.checkpoint directory state
      .logged directory wal
  | storage => storage

/-- The records that were appended successfully. -/
def appended : Storage → List WalRecord
  | .logged _ wal => wal.appended
  | _ => []

/-- What becomes of a coming operation on the disk; 0 is the next one. -/
def fate : Storage → Nat → Fate
  | .logged directory _, ahead => directory.fate (directory.operations + ahead)
  | _, _ => .ok

/-- There is a write-ahead log. -/
def IsLogged : Storage → Prop
  | .logged _ _ => True
  | _ => False

variable {storage : Storage}

theorem IsLogged.exists (logged : storage.IsLogged) :
    ∃ directory wal, storage = .logged directory wal := by
  cases storage with
  | memory => exact logged.elim
  | json directory => exact logged.elim
  | logged directory wal => exact ⟨directory, wal, rfl⟩

theorem persistMetaSync_logged (logged : storage.IsLogged) (term : Nat)
    (votedFor : Option NodeId) :
    (storage.persistMetaSync term votedFor).2.IsLogged ∧
      (storage.persistMetaSync term votedFor).2.appended = storage.appended ++
        (if storage.fate 0 = .ok then [.metadata term votedFor] else []) ∧
      ∀ ahead, (storage.persistMetaSync term votedFor).2.fate ahead = storage.fate (ahead + 1) := by
  obtain ⟨directory, wal, rfl⟩ := logged.exists
  have result : ((Storage.logged directory wal).persistMetaSync term votedFor).2 =
      .logged directory.next.2
        { wal with attempts := wal.attempts ++ [(.metadata term votedFor, directory.next.1)] } := by
    rw [persistMetaSync]
    dsimp only [RaftWal.appendMeta, RaftWal.append]
    cases directory.next.1.report <;> rfl
  rw [result]
  refine ⟨trivial, ?_, ?_⟩
  · exact wal.appended_concat _ _
  · intro ahead
    exact congrArg directory.fate (by simp only [Directory.next]; omega)

theorem persistStateSync_ok (logged : storage.IsLogged) {state : PersistentState}
    {newEntries : Nat} (enough : newEntries ≤ state.log.length)
    (ok : ∀ ahead < newEntries, storage.fate ahead = .ok) :
    (storage.persistStateSync state newEntries).1 = .ok () ∧
      (storage.persistStateSync state newEntries).2.IsLogged ∧
      (storage.persistStateSync state newEntries).2.appended = storage.appended ++
        (state.log.drop (state.log.length - newEntries)).map .entry := by
  obtain ⟨directory, wal, rfl⟩ := logged.exists
  have count : (state.log.drop (state.log.length - newEntries)).length = newEntries := by
    rw [List.length_drop]
    omega
  have result := wal.appendEntries_ok directory
    (state.log.drop (state.log.length - newEntries)) (by rw [count]; exact ok)
  have appendedAll : ∀ since, RaftWal.appended
      ⟨wal.attempts ++ (state.log.drop (state.log.length - newEntries)).map
        fun entry => (.entry entry, .ok), wal.start, since, wal.checkpointThreshold⟩ =
      wal.appended ++ (state.log.drop (state.log.length - newEntries)).map .entry := by
    intro since
    rw [RaftWal.appended, List.filterMap_append, List.filterMap_map]
    congr 1
    simp
  rw [persistStateSync]
  dsimp only
  rw [result]
  dsimp only
  split
  · refine ⟨rfl, trivial, ?_⟩
    dsimp only [appended]
    rw [RaftWal.appended, RaftWal.checkpoint_attempts]
    exact appendedAll 0
  · exact ⟨rfl, trivial, appendedAll _⟩

theorem persistStateSync_error (logged : storage.IsLogged) {state : PersistentState}
    {newEntries : Nat} (enough : newEntries ≤ state.log.length)
    (failed : ¬ ∀ ahead < newEntries, storage.fate ahead = .ok) :
    (∃ error, (storage.persistStateSync state newEntries).1 = .error error) ∧
      (storage.persistStateSync state newEntries).2.IsLogged := by
  obtain ⟨directory, wal, rfl⟩ := logged.exists
  have count : (state.log.drop (state.log.length - newEntries)).length = newEntries := by
    rw [List.length_drop]
    omega
  obtain ⟨error, directory', wal', result⟩ := wal.appendEntries_error directory
    (state.log.drop (state.log.length - newEntries)) (by rw [count]; exact failed)
  rw [persistStateSync]
  dsimp only
  rw [result]
  exact ⟨⟨_, rfl⟩, trivial⟩

theorem isLogged_persistMetaSync (logged : storage.IsLogged) (term : Nat)
    (votedFor : Option NodeId) : (storage.persistMetaSync term votedFor).2.IsLogged :=
  (persistMetaSync_logged logged term votedFor).1

theorem isLogged_persistStateSync (logged : storage.IsLogged) (state : PersistentState)
    (newEntries : Nat) : (storage.persistStateSync state newEntries).2.IsLogged := by
  obtain ⟨directory, wal, rfl⟩ := logged.exists
  rw [persistStateSync]
  dsimp only
  split
  · trivial
  · split <;> trivial

theorem isLogged_checkpoint (logged : storage.IsLogged) (state : PersistentState) :
    (storage.checkpoint state).IsLogged := by
  obtain ⟨directory, wal, rfl⟩ := logged.exists
  trivial

end Storage

namespace RaftNode

/-- The node after a call. -/
def perform (host : Host) (node : RaftNode) : Call → RaftNode
  | .handleRequestVote request => (node.handleRequestVote request).1
  | .handleAppendEntries request => (node.handleAppendEntries request).1
  | .handleInstallSnapshot request => (node.handleInstallSnapshot host request).1
  | .propose command => (node.propose command).2
  | .proposeBatch commands => (node.proposeBatch commands).2
  | .addNode added => (node.addNode added).2
  | .removeNode removed => (node.removeNode removed).2
  | .becomeCandidate => node.becomeCandidate
  | .becomeLeader => node.becomeLeader
  | .becomeFollower term leaderId => node.becomeFollower term leaderId
  | .finishHeartbeats responses => node.finishHeartbeats responses
  | .applyCommittedEntries => node.applyCommittedEntries
  | .checkpoint => { node with storage := node.storage.checkpoint node.persistent }

/-- Handling an InstallSnapshot call: a stale one changes nothing; otherwise the node is in the
term of the request and takes in a part, with which the snapshot may be complete. -/
theorem handleInstallSnapshot_eq (host : Host) (node : RaftNode)
    (request : InstallSnapshotRequest) :
    request.term < node.persistent.currentTerm ∧
        (node.handleInstallSnapshot host request).1 = node ∨
      node.persistent.currentTerm ≤ request.term ∧ ∃ offset pending shards collected,
        collected = { node.catchUp request.term (some request.leaderId) with
          snapshotOffset := offset, pendingSnapshot := pending, pendingErasureShards := shards } ∧
        ((node.handleInstallSnapshot host request).1 = collected ∨
          ∃ data, ((node.catchUp request.term (some request.leaderId)).collect host request).2 =
              .complete data ∧
            (node.handleInstallSnapshot host request).1 =
              (collected.applySnapshotData host data request).1) := by
  rw [handleInstallSnapshot]
  split
  next stale => exact .inl ⟨stale, rfl⟩
  next recent =>
    right
    obtain ⟨offset, pending, shards, collected⟩ := collect_eq host
      (node.catchUp request.term (some request.leaderId)) request
    refine ⟨le_of_not_gt recent, offset, pending, shards, _, collected, ?_⟩
    rcases (node.catchUp request.term (some request.leaderId)).collect host request with
      ⟨done, response | data | _⟩
    · exact .inl rfl
    · exact .inr ⟨data, rfl, rfl⟩
    · exact .inl rfl

end RaftNode

end JouleDB.Raft
