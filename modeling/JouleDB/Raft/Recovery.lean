import JouleDB.Raft.Operations
import JouleDB.Raft.WalFormat

/-!
# Recovering the state of a node

Replaying what a node has on its disk gives its persistent state back as long as the log only
grows: the write-ahead log has no record of a truncation, and the entry that stands for an
installed snapshot is replayed behind the entries it replaces.
-/

namespace JouleDB.Raft

open PersistentState (applyRecord)

section Replay

variable (state : PersistentState)

theorem applyRecord_push (command : Command) :
    state.applyRecord (.entry ⟨state.currentTerm, state.lastLogIndex + 1, command⟩) =
      state.push command :=
  if_pos (Nat.lt_succ_self _)

theorem foldl_push_eq (commands : List Command) :
    ∃ added, (commands.foldl PersistentState.push state).log = state.log ++ added ∧
      added.length = commands.length ∧
      (added.map .entry).foldl applyRecord state = commands.foldl .push state := by
  induction commands generalizing state with
  | nil => exact ⟨[], by simp, rfl, rfl⟩
  | cons command commands ih =>
      obtain ⟨added, log, length, replayed⟩ := ih (state.push command)
      refine ⟨⟨state.currentTerm, state.lastLogIndex + 1, command⟩ :: added, ?_, ?_, ?_⟩
      · rw [List.foldl_cons, log]
        simp [PersistentState.push]
      · rw [List.length_cons, List.length_cons, length]
      · rw [List.map_cons, List.foldl_cons, applyRecord_push, replayed, List.foldl_cons]

theorem appendNew_replayed (entries : List LogEntry) :
    ∃ added, state.appendNew entries =
        ({ state with log := state.log ++ added }, added.length) ∧
      (added.map .entry).foldl applyRecord state = { state with log := state.log ++ added } := by
  induction entries generalizing state with
  | nil => exact ⟨[], by simp [PersistentState.appendNew], by simp⟩
  | cons entry entries ih =>
      rw [PersistentState.appendNew]
      split
      next behind =>
        obtain ⟨added, result, replayed⟩ := ih { state with log := state.log ++ [entry] }
        have first : state.applyRecord (.entry entry) =
            { state with log := state.log ++ [entry] } := if_pos behind
        refine ⟨entry :: added, ?_, ?_⟩
        · rw [result]
          simp
        · rw [List.map_cons, List.foldl_cons, first, replayed]
          simp
      next => exact ih state

theorem truncateConflicting_receiving (term : Nat) (votedFor : Option NodeId)
    (entries : List LogEntry) (log : (state.truncateConflicting entries).log = state.log) :
    PersistentState.truncateConflicting ⟨term, votedFor, state.log⟩ entries =
      ⟨term, votedFor, state.log⟩ := by
  induction entries with
  | nil => rfl
  | cons entry entries ih =>
      rw [PersistentState.truncateConflicting] at log ⊢
      have sameTerm : PersistentState.getTerm ⟨term, votedFor, state.log⟩ entry.index =
          state.getTerm entry.index := rfl
      rw [sameTerm]
      split
      next existing found =>
        rw [found] at log
        dsimp only at log
        split
        next differs =>
          rw [if_pos differs] at log
          rw [PersistentState.truncateFrom] at log ⊢
          dsimp only
          split
          next inside =>
            rw [if_pos inside] at log
            exact congrArg (PersistentState.mk term votedFor) log
          next => rfl
        next matched =>
          rw [if_neg matched] at log
          exact ih log
      next missing =>
        rw [missing] at log
        exact ih log

end Replay

section Disk

/-- The records behind the snapshot file. -/
def RaftWal.records (wal : RaftWal) : List WalRecord :=
  (wal.attempts.drop wal.start).map Prod.fst

/-- A disk on which nothing has failed and nothing fails, and whose contents stand for a state. -/
structure Mirrors (directory : Directory) (wal : RaftWal) (state : PersistentState) : Prop where
  works : ∀ operation, directory.fate operation = .ok
  written : ∀ attempt ∈ wal.attempts, attempt.2 = .ok
  start : wal.start ≤ wal.attempts.length
  replayed : wal.records.foldl applyRecord directory.loadFromDir = state

variable {directory : Directory} {wal : RaftWal} {state : PersistentState}

theorem Mirrors.append (mirrors : Mirrors directory wal state) (records : List WalRecord)
    (operations since : Nat) :
    Mirrors { directory with operations := operations }
      { wal with
        attempts := wal.attempts ++ records.map fun record => (record, .ok)
        entriesSinceCheckpoint := since }
      (records.foldl applyRecord state) := by
  constructor
  · exact mirrors.works
  · intro attempt member
    rcases List.mem_append.mp member with old | new
    · exact mirrors.written attempt old
    · obtain ⟨record, _, rfl⟩ := List.mem_map.mp new
      rfl
  · exact le_trans mirrors.start (by simp)
  · have behind : RaftWal.records
        { wal with
          attempts := wal.attempts ++ records.map fun record => (record, .ok)
          entriesSinceCheckpoint := since } = wal.records ++ records := by
      rw [RaftWal.records, List.drop_append_of_le_length mirrors.start, List.map_append,
        List.map_map]
      congr 1
      exact List.map_id records
    rw [behind, List.foldl_append]
    exact congrArg (records.foldl applyRecord) mirrors.replayed

/-- A checkpoint leaves the state in the snapshot file and an empty log. -/
theorem Mirrors.checkpoint (mirrors : Mirrors directory wal state) :
    ∃ directory' wal', wal.checkpoint directory state = (.ok (), directory', wal') ∧
      Mirrors directory' wal' state := by
  have works := mirrors.works
  refine ⟨⟨some state, directory.operations + 3, directory.fate⟩,
    ⟨wal.attempts, wal.attempts.length, 0, wal.checkpointThreshold⟩, ?_, ?_⟩
  · simp [RaftWal.checkpoint, Directory.saveToDir, Directory.next, works]
  · constructor
    · exact works
    · exact mirrors.written
    · exact le_refl _
    · simp [RaftWal.records, Directory.loadFromDir]

end Disk

section Recover

variable {formats : Formats} {wal : RaftWal} (directory : Directory)

/-- Without failures the file is made of whole records. -/
theorem file_eq_images (written : ∀ attempt ∈ wal.attempts, attempt.2 = .ok) :
    wal.file formats = images formats wal.records := by
  rw [RaftWal.file, images, RaftWal.records, List.flatMap_map]
  apply List.flatMap_congr
  rintro ⟨record, fate⟩ member
  have ok : fate = .ok := written _ (List.mem_of_mem_drop member)
  rw [ok]

/-- Recovering from a file that is cut at any byte gives the state after some of its records. -/
theorem recover_take (written : ∀ attempt ∈ wal.attempts, attempt.2 = .ok)
    (fits : ∀ record ∈ wal.appended, record.Fits formats) (cut : Nat) :
    RaftWal.recover formats directory ((wal.file formats).take cut) =
      .ok ((wal.records.take (wholeRecords formats wal.records
        (min cut (wal.file formats).length))).foldl applyRecord directory.loadFromDir) := by
  have recordsFit : ∀ record ∈ wal.records, record.Fits formats := by
    intro record member
    apply fits
    obtain ⟨attempt, inside, rfl⟩ := List.mem_map.mp member
    have attempted := List.mem_of_mem_drop inside
    apply List.mem_filterMap.mpr
    exact ⟨attempt, attempted, if_pos (written attempt attempted)⟩
  rw [RaftWal.recover, List.length_take, List.take_eq_take_min, file_eq_images written]
  apply replay_take recordsFit
  · exact Nat.min_le_right _ _
  · exact le_refl _

theorem recover_file (written : ∀ attempt ∈ wal.attempts, attempt.2 = .ok)
    (fits : ∀ record ∈ wal.appended, record.Fits formats) :
    RaftWal.recover formats directory (wal.file formats) =
      .ok (wal.records.foldl applyRecord directory.loadFromDir) := by
  have whole := recover_take directory written fits (wal.file formats).length
  rw [List.take_length, Nat.min_self] at whole
  rw [whole, file_eq_images written, wholeRecords_length, List.take_length]

end Recover

namespace Storage

variable {storage : Storage} {state : PersistentState}

/-- The storage is a disk that stands for a state. -/
def Holds : Storage → PersistentState → Prop
  | .logged directory wal, state => Mirrors directory wal state
  | _, _ => False

theorem Holds.exists (holds : storage.Holds state) :
    ∃ directory wal, storage = .logged directory wal ∧ Mirrors directory wal state := by
  cases storage with
  | memory => exact holds.elim
  | json directory => exact holds.elim
  | logged directory wal => exact ⟨directory, wal, rfl, holds⟩

theorem Holds.persistMetaSync (holds : storage.Holds state) (term : Nat)
    (votedFor : Option NodeId) :
    (storage.persistMetaSync term votedFor).2.Holds ⟨term, votedFor, state.log⟩ := by
  obtain ⟨directory, wal, rfl, mirrors⟩ := holds.exists
  have after := mirrors.append [.metadata term votedFor] (directory.operations + 1)
    wal.entriesSinceCheckpoint
  rw [Storage.persistMetaSync, RaftWal.appendMeta, RaftWal.append]
  dsimp only [Directory.next]
  rw [mirrors.works]
  exact after

/-- Persisting new entries: it is enough that replaying them gives the new state. -/
theorem Holds.persistStateSync (holds : storage.Holds state) {after : PersistentState}
    {added : List LogEntry} (isNew : after.log.drop (after.log.length - added.length) = added)
    (replayed : (added.map .entry).foldl applyRecord state = after) :
    (storage.persistStateSync after added.length).2.Holds after := by
  obtain ⟨directory, wal, rfl, mirrors⟩ := holds.exists
  have appended := mirrors.append (added.map .entry) (directory.operations + added.length)
    (wal.entriesSinceCheckpoint + added.length)
  rw [replayed, List.map_map] at appended
  rw [Storage.persistStateSync]
  dsimp only
  rw [isNew, wal.appendEntries_ok directory added fun ahead _ => mirrors.works _]
  dsimp only
  split
  next due =>
    obtain ⟨directory', wal', result, mirrors'⟩ := Mirrors.checkpoint appended
    have sameResult : RaftWal.checkpoint
        { wal with
          attempts := wal.attempts ++ added.map fun entry => (.entry entry, .ok)
          entriesSinceCheckpoint := wal.entriesSinceCheckpoint + added.length }
        { directory with operations := directory.operations + added.length } after =
          (.ok (), directory', wal') := result
    rw [sameResult]
    exact mirrors'
  next => exact appended

theorem Holds.checkpoint (holds : storage.Holds state) : (storage.checkpoint state).Holds state := by
  obtain ⟨directory, wal, rfl, mirrors⟩ := holds.exists
  obtain ⟨directory', wal', result, mirrors'⟩ := mirrors.checkpoint
  rw [Storage.checkpoint]
  dsimp only
  rw [result]
  exact mirrors'

end Storage

namespace RaftNode

variable {host : Host} {node : RaftNode}

/-- The disk stands for the persistent state. -/
def Stored (node : RaftNode) : Prop := node.storage.Holds node.persistent

/-- A snapshot is complete with this call and can be restored. -/
def Installs (host : Host) (node : RaftNode) (request : InstallSnapshotRequest) : Prop :=
  node.persistent.currentTerm ≤ request.term ∧
    ∃ data, ((node.catchUp request.term (some request.leaderId)).collect host request).2 =
      .complete data ∧ host.restore node.stateMachine data = true

/-- The call only lets the log grow: an accepted AppendEntries call truncates nothing, and a
snapshot is installed over an empty log, or once more. -/
def Grows (host : Host) (node : RaftNode) : Call → Prop
  | .handleAppendEntries request =>
      node.persistent.currentTerm ≤ request.term → node.Consistent request →
        (node.persistent.truncateConflicting request.entries).log = node.persistent.log
  | .handleInstallSnapshot request =>
      Installs host node request →
        node.persistent.log = [] ∧ 0 < request.lastIncludedIndex ∨
          node.persistent.log = placeholderLog request
  | _ => True

section Calls

theorem stored_becomeFollower (stored : node.Stored) (term : Nat) (leaderId : Option NodeId) :
    (node.becomeFollower term leaderId).Stored := by
  obtain ⟨persistent, equal, log, _⟩ := node.becomeFollower_eq term leaderId
  have after := Storage.Holds.persistMetaSync stored persistent.currentTerm persistent.votedFor
  rw [← log] at after
  rw [Stored, equal]
  exact after

theorem stored_follow (stored : node.Stored) (term : Nat) (leaderId : Option NodeId) :
    (node.follow term leaderId).Stored := by
  rw [Stored, follow_eq]
  exact Storage.Holds.persistMetaSync stored term none

theorem stored_catchUp (stored : node.Stored) {term : Nat} (leaderId : Option NodeId)
    (recent : node.persistent.currentTerm ≤ term) : (node.catchUp term leaderId).Stored := by
  rcases node.catchUp_eq leaderId recent with ⟨_, equal⟩ | ⟨_, equal⟩
  · rw [equal]
    exact stored
  · rw [equal]
    exact stored_follow stored term leaderId

theorem stored_becomeCandidate (stored : node.Stored) : node.becomeCandidate.Stored := by
  rw [Stored, becomeCandidate_eq]
  exact Storage.Holds.persistMetaSync stored _ _

theorem stored_push {storage : Storage} {state : PersistentState} (holds : storage.Holds state)
    (command : Command) :
    (storage.persistStateSync (state.push command) 1).2.Holds (state.push command) := by
  have replayed : ([⟨state.currentTerm, state.lastLogIndex + 1, command⟩].map
      WalRecord.entry).foldl applyRecord state = state.push command := applyRecord_push state command
  have isNew : (state.push command).log.drop ((state.push command).log.length - 1) =
      [⟨state.currentTerm, state.lastLogIndex + 1, command⟩] := by
    simp [PersistentState.push]
  exact Storage.Holds.persistStateSync holds isNew replayed

theorem stored_proposeInternal (stored : node.Stored) (command : Command) :
    (node.proposeInternal command).2.Stored := by
  rw [Stored, proposeInternal_eq]
  exact stored_push stored command

theorem stored_becomeLeader (stored : node.Stored) : node.becomeLeader.Stored := by
  rw [Stored, becomeLeader_eq]
  exact stored_push stored .noop

theorem stored_propose (stored : node.Stored) (command : Command) :
    (node.propose command).2.Stored := by
  rcases node.propose_eq command with same | ⟨_, equal⟩
  · rw [same]
    exact stored
  · rw [equal]
    exact stored_proposeInternal stored command

theorem stored_proposeBatch (stored : node.Stored) (commands : List Command) :
    (node.proposeBatch commands).2.Stored := by
  rcases node.proposeBatch_eq commands with same | ⟨_, equal⟩
  · rw [same]
    exact stored
  · obtain ⟨added, log, length, replayed⟩ := foldl_push_eq node.persistent commands
    have isNew : (commands.foldl PersistentState.push node.persistent).log.drop
        ((commands.foldl PersistentState.push node.persistent).log.length - added.length) =
          added := by
      simp [log]
    rw [Stored, equal, ← length]
    exact Storage.Holds.persistStateSync stored isNew replayed

theorem stored_handleRequestVote (stored : node.Stored) (request : RequestVoteRequest) :
    (node.handleRequestVote request).1.Stored := by
  rcases node.handleRequestVote_eq request with ⟨_, same⟩ | ⟨recent, equal⟩
  · rw [same]
    exact stored
  · have caught := stored_catchUp stored none recent
    rw [equal]
    split
    · exact Storage.Holds.persistMetaSync caught _ _
    · exact caught

/-- Taking in entries without truncating the log. -/
theorem stored_acceptEntries (stored : node.Stored) (request : AppendEntriesRequest)
    (grows : node.persistent.truncateConflicting request.entries = node.persistent) :
    (node.acceptEntries request).1.Stored := by
  obtain ⟨added, appended, replayed⟩ := appendNew_replayed node.persistent request.entries
  have isNew : (node.persistent.log ++ added).drop
      ((node.persistent.log ++ added).length - added.length) = added := by
    simp
  have written := Storage.Holds.persistStateSync stored isNew replayed
  rw [acceptEntries, grows, appended]
  dsimp only
  have holds : (if 0 < added.length then node.storage.persistStateSync
      { node.persistent with log := node.persistent.log ++ added } added.length
        else (.ok (), node.storage)).2.Holds
          { node.persistent with log := node.persistent.log ++ added } := by
    split
    · exact written
    next none =>
      rw [List.eq_nil_of_length_eq_zero (Nat.eq_zero_of_not_pos none), List.append_nil]
      exact stored
  rcases result : (if 0 < added.length then node.storage.persistStateSync
      { node.persistent with log := node.persistent.log ++ added } added.length
        else (.ok (), node.storage)) with ⟨persisted, storage⟩
  rw [result] at holds
  cases persisted with
  | error error => exact holds
  | ok _ =>
      dsimp only
      rw [followCommit]
      split <;> exact holds

theorem stored_handleAppendEntries (stored : node.Stored) (request : AppendEntriesRequest)
    (grows : node.Grows host (.handleAppendEntries request)) :
    (node.handleAppendEntries request).1.Stored := by
  rcases node.handleAppendEntries_eq request with
    ⟨_, same⟩ | ⟨recent, ⟨_, equal, _⟩ | ⟨consistent, equal⟩⟩
  · rw [same]
    exact stored
  · rw [equal]
    exact stored_follow stored _ _
  · rw [equal]
    apply stored_acceptEntries (stored_follow stored _ _)
    rw [follow_eq]
    exact truncateConflicting_receiving node.persistent _ _ _ (grows recent consistent)

theorem stored_finishHeartbeats (stored : node.Stored)
    (responses : List (NodeId × AppendEntriesResponse)) :
    (node.finishHeartbeats responses).Stored := by
  apply takeResponses_induction _ (P := Stored) stored
  · exact fun done peer response stored _ _ => stored
  · exact fun done term stored _ => stored_becomeFollower stored term none
  · intro done stored
    obtain ⟨commitIndex, equal, _⟩ := done.maybeAdvanceCommitIndex_eq
    rw [equal]
    exact stored

theorem stored_applyCommittedEntries (stored : node.Stored) :
    node.applyCommittedEntries.Stored := by
  apply applyCommittedEntries_induction _ (P := Stored) stored
  · intro done entry stored _
    obtain ⟨_, _, _, equal, persisted, _⟩ := done.applyEntry_eq entry
    rw [Stored, equal]
    rcases persisted with ⟨rfl, rfl⟩ | ⟨_, command, rfl, rfl⟩
    · exact stored
    · exact stored_push stored command
  · exact fun done lastApplied stored => stored

/-- Installing a snapshot over an empty log, or once more. -/
theorem stored_applySnapshotData (stored : node.Stored) (data : Bytes)
    (request : InstallSnapshotRequest)
    (grows : host.restore node.stateMachine data = true →
      node.persistent.log = [] ∧ 0 < request.lastIncludedIndex ∨
        node.persistent.log = placeholderLog request) :
    (node.applySnapshotData host data request).1.Stored := by
  rw [applySnapshotData]
  split
  next restored =>
    have replayed : ((placeholderLog request).map WalRecord.entry).foldl applyRecord
        node.persistent = { node.persistent with log := placeholderLog request } := by
      rcases grows restored with ⟨empty, positive⟩ | same
      · simp [placeholderLog, applyRecord, PersistentState.lastLogIndex, empty, positive]
      · have known : ¬ node.persistent.lastLogIndex < request.lastIncludedIndex := by
          simp [PersistentState.lastLogIndex, same, placeholderLog]
        have skipped : node.persistent.applyRecord (.entry
            ⟨request.lastIncludedTerm, request.lastIncludedIndex, .noop⟩) = node.persistent :=
          if_neg known
        have unchanged : { node.persistent with log := placeholderLog request } =
            node.persistent := by
          rw [← same]
        rw [unchanged]
        exact skipped
    have written : (node.storage.persistStateSync
        { node.persistent with log := placeholderLog request } 1).2.Holds
          { node.persistent with log := placeholderLog request } :=
      Storage.Holds.persistStateSync stored rfl replayed
    dsimp only
    split <;> exact written
  next => exact stored

theorem stored_handleInstallSnapshot (stored : node.Stored) (request : InstallSnapshotRequest)
    (grows : node.Grows host (.handleInstallSnapshot request)) :
    (node.handleInstallSnapshot host request).1.Stored := by
  rcases handleInstallSnapshot_eq host node request with
    ⟨_, same⟩ | ⟨recent, offset, pending, shards, collected, equal, outcome⟩
  · rw [same]
    exact stored
  · have caught : collected.Stored := by
      rw [Stored, equal]
      exact stored_catchUp stored (some request.leaderId) recent
    rcases outcome with result | ⟨data, complete, result⟩
    · rw [result]
      exact caught
    · have machine : collected.stateMachine = node.stateMachine ∧
          collected.persistent.log = node.persistent.log := by
        rw [equal]
        rcases node.catchUp_eq (some request.leaderId) recent with ⟨_, same⟩ | ⟨_, follows⟩
        · rw [same]
          exact ⟨rfl, rfl⟩
        · rw [follows, follow_eq]
          exact ⟨rfl, rfl⟩
      rw [result]
      apply stored_applySnapshotData caught data request
      rw [machine.1, machine.2]
      exact fun restored => grows ⟨recent, data, complete, restored⟩

theorem stored_perform (stored : node.Stored) {call : Call} (grows : node.Grows host call) :
    (node.perform host call).Stored := by
  cases call with
  | handleRequestVote request => exact stored_handleRequestVote stored request
  | handleAppendEntries request => exact stored_handleAppendEntries stored request grows
  | handleInstallSnapshot request => exact stored_handleInstallSnapshot stored request grows
  | propose command => exact stored_propose stored command
  | proposeBatch commands => exact stored_proposeBatch stored commands
  | addNode added =>
      rcases node.addNode_eq added with same | ⟨config, equal⟩
      · rw [perform, same]
        exact stored
      · rw [perform, equal]
        exact stored_propose stored _
  | removeNode removed =>
      rcases node.removeNode_eq removed with same | ⟨config, equal⟩
      · rw [perform, same]
        exact stored
      · rw [perform, equal]
        exact stored_propose stored _
  | becomeCandidate => exact stored_becomeCandidate stored
  | becomeLeader => exact stored_becomeLeader stored
  | becomeFollower term leaderId => exact stored_becomeFollower stored term leaderId
  | finishHeartbeats responses => exact stored_finishHeartbeats stored responses
  | applyCommittedEntries => exact stored_applyCommittedEntries stored
  | checkpoint => exact Storage.Holds.checkpoint stored

end Calls

section Runs

/-- The node after a run. -/
def run (host : Host) (node : RaftNode) (calls : List Call) : RaftNode :=
  calls.foldl (perform host) node

/-- Every call of a run only lets the log grow. -/
def GrowingRun (host : Host) (node : RaftNode) : List Call → Prop
  | [] => True
  | call :: calls => node.Grows host call ∧ (node.perform host call).GrowingRun host calls

theorem stored_run (stored : node.Stored) {calls : List Call} (grows : node.GrowingRun host calls) :
    (node.run host calls).Stored := by
  induction calls generalizing node with
  | nil => exact stored
  | cons call calls ih => exact ih (stored_perform stored grows.1) grows.2

/-- A new node with an empty directory on a disk that works. -/
def fresh (nodeId : NodeId) (maxEntriesPerRpc : Nat) (config : ClusterConfig) : RaftNode :=
  .new nodeId maxEntriesPerRpc config .new (.logged ⟨none, 0, fun _ => .ok⟩ .fresh)

theorem stored_fresh (nodeId : NodeId) (maxEntriesPerRpc : Nat) (config : ClusterConfig) :
    (fresh nodeId maxEntriesPerRpc config).Stored := by
  constructor
  · exact fun _ => rfl
  · exact fun attempt member => absurd member List.not_mem_nil
  · exact le_refl 0
  · rfl

/-- In every run that only lets the log grow, recovery gives the persistent state back, and from a
log that is cut at any byte it gives the state after some of the records. -/
theorem recover_eq_persistent (formats : Formats) (host : Host) (nodeId : NodeId)
    (maxEntriesPerRpc : Nat) (config : ClusterConfig) (calls : List Call)
    (grows : (fresh nodeId maxEntriesPerRpc config).GrowingRun host calls)
    (fits : ∀ record ∈ ((fresh nodeId maxEntriesPerRpc config).run host calls).storage.appended,
      record.Fits formats) :
    ∃ directory wal,
      ((fresh nodeId maxEntriesPerRpc config).run host calls).storage = .logged directory wal ∧
      RaftWal.recover formats directory (wal.file formats) =
        .ok ((fresh nodeId maxEntriesPerRpc config).run host calls).persistent ∧
      ∀ cut, ∃ count ≤ wal.records.length,
        RaftWal.recover formats directory ((wal.file formats).take cut) =
          .ok ((wal.records.take count).foldl applyRecord directory.loadFromDir) := by
  obtain ⟨directory, wal, storage, mirrors⟩ :=
    Storage.Holds.exists (stored_run (stored_fresh nodeId maxEntriesPerRpc config) grows)
  rw [storage] at fits
  refine ⟨directory, wal, storage, ?_, ?_⟩
  · rw [recover_file directory mirrors.written fits, mirrors.replayed]
  · intro cut
    exact ⟨_, wholeRecords_le _ _, recover_take directory mirrors.written fits cut⟩

/-- The encoding of entries without a payload, for small numbers. -/
def smallFormats : Formats where
  encodeEntry entry := [Fin.ofNat 256 entry.term, Fin.ofNat 256 entry.index, 0]
  decodeEntry bytes :=
    match bytes with
    | [term, index, 0] => .ok ⟨term.val, index.val, .noop⟩
    | _ => .error "unexpected variant"
  utf8Error _ := "invalid utf-8 sequence"

/-- A host that can restore any snapshot. -/
def restoringHost : Host := ⟨fun _ _ => true, fun _ => none, fun _ => none⟩

/-- A request of node `b` with an entry for index 1 and one for index 2. -/
def twoEntries : AppendEntriesRequest :=
  ⟨1, "b", 0, 0, [⟨1, 1, .noop⟩, ⟨1, 2, .noop⟩], 0⟩

/-- The node takes in two entries, writes a checkpoint, leads and proposes, and votes. -/
def growing : List Call :=
  [.handleAppendEntries twoEntries, .checkpoint, .becomeCandidate, .becomeLeader, .propose .noop,
    .handleAppendEntries ⟨3, "b", 4, 2, [⟨3, 5, .noop⟩], 0⟩, .handleRequestVote ⟨4, "c", 5, 3⟩]

theorem recover_eq_persistent_growing :
    ∃ directory wal,
      ((fresh "a" 100 (.new {"a", "b", "c"})).run restoringHost growing).storage =
        .logged directory wal ∧
      RaftWal.recover smallFormats directory (wal.file smallFormats) =
        .ok ⟨4, some "c", [⟨1, 1, .noop⟩, ⟨1, 2, .noop⟩, ⟨2, 3, .noop⟩, ⟨2, 4, .noop⟩,
          ⟨3, 5, .noop⟩]⟩ := by
  obtain ⟨directory, wal, storage, recovered, _⟩ := recover_eq_persistent smallFormats
    restoringHost "a" 100 (.new {"a", "b", "c"}) growing
    ⟨fun _ _ => by decide, trivial, trivial, trivial, trivial, fun _ _ => by decide, trivial,
      trivial⟩ (by decide)
  refine ⟨directory, wal, storage, ?_⟩
  rw [recovered]
  decide

/-- A later leader replaces an entry. -/
def truncating : List Call :=
  [.handleAppendEntries twoEntries, .handleAppendEntries ⟨2, "c", 1, 1, [⟨2, 2, .noop⟩], 0⟩]

/-- A snapshot replaces an entry. -/
def installing : List Call :=
  [.handleAppendEntries twoEntries,
    .handleInstallSnapshot ⟨1, "b", 5, 1, 0, [], true, .new {"a", "b", "c"}⟩]

/-- After a truncation, and after a snapshot was installed over entries, recovery returns a log
that the node does not have. -/
theorem recover_ne_persistent :
    (∃ directory wal,
      ((fresh "a" 100 (.new {"a", "b", "c"})).run restoringHost truncating).storage =
        .logged directory wal ∧
      RaftWal.recover smallFormats directory (wal.file smallFormats) ≠
        .ok ((fresh "a" 100 (.new {"a", "b", "c"})).run restoringHost truncating).persistent) ∧
    ∃ directory wal,
      ((fresh "a" 100 (.new {"a", "b", "c"})).run restoringHost installing).storage =
        .logged directory wal ∧
      RaftWal.recover smallFormats directory (wal.file smallFormats) ≠
        .ok ((fresh "a" 100 (.new {"a", "b", "c"})).run restoringHost installing).persistent := by
  constructor
  · refine ⟨_, _, rfl, ?_⟩
    decide +kernel
  · refine ⟨_, _, rfl, ?_⟩
    decide +kernel

end Runs

end RaftNode

end JouleDB.Raft
