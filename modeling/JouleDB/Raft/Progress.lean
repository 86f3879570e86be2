import JouleDB.Lib.Run
import JouleDB.Raft.Acknowledge
import JouleDB.Raft.Replication
import JouleDB.Raft.SnapshotTransfer

/-!
# The progress of a node

The commit index is assigned when entries are accepted, when a snapshot is installed and by the
commit rule, and the index of the last applied entry when entries are applied and when a snapshot
is installed.  Only the commit rule looks at the old value before it assigns a new one.
-/

namespace JouleDB.Raft

/-- A call that assigns the commit index or the index of the last applied entry. -/
inductive ProgressCall where
  | handleAppendEntries (request : AppendEntriesRequest)
  | handleInstallSnapshot (request : InstallSnapshotRequest)
  | maybeAdvanceCommitIndex
  | applyCommittedEntries
  deriving DecidableEq

namespace RaftNode

/-- The node after a call. -/
def advance (host : Host) (node : RaftNode) : ProgressCall → RaftNode
  | .handleAppendEntries request => (node.handleAppendEntries request).1
  | .handleInstallSnapshot request => (node.handleInstallSnapshot host request).1
  | .maybeAdvanceCommitIndex => node.maybeAdvanceCommitIndex
  | .applyCommittedEntries => node.applyCommittedEntries

/-- What is applied is committed. -/
def Bounded (node : RaftNode) : Prop := node.lastApplied ≤ node.commitIndex

/-- Neither index goes back, and what is applied is committed. -/
structure Advances (before after : RaftNode) : Prop where
  commitIndex : before.commitIndex ≤ after.commitIndex
  lastApplied : before.lastApplied ≤ after.lastApplied
  bounded : after.Bounded

/-- The last entries of a log can be stored. -/
def CanStore (storage : Storage) (state : PersistentState) (added : List LogEntry) : Prop :=
  added = [] ∨ (storage.persistStateSync state added.length).1 = .ok ()

/-- The entries that a request adds can be stored. -/
def Stores (node : RaftNode) (request : AppendEntriesRequest) : Prop :=
  CanStore (node.storage.persistMetaSync request.term none).2
    ((node.receiving request).merge request.entries) (node.added request)

/-- A request is not stale, the log is consistent with it, and its entries can be stored. -/
def Takes (node : RaftNode) (request : AppendEntriesRequest) : Prop :=
  node.persistent.currentTerm ≤ request.term ∧ node.Consistent request ∧ node.Stores request

/-- A request is not stale and completes a snapshot that can be restored and stored. -/
def InstallsSnapshot (host : Host) (node : RaftNode) (request : InstallSnapshotRequest) : Prop :=
  node.persistent.currentTerm ≤ request.term ∧
    ∃ data, (node.parts.collect host request).2 = .complete data ∧
      host.restore node.stateMachine data = true ∧
      (node.catchUp request.term (some request.leaderId)).Saves request.lastIncludedIndex
        request.lastIncludedTerm

/-- The position of the last entry that there is to apply. -/
def lastToApply (node : RaftNode) : Nat := min node.commitIndex node.persistent.log.length

/-- What a call finds is not behind the node: the entries of a request that announces a higher
commit index reach the own one, a snapshot reaches it too, and the last entry to apply has an index
between that of the last applied one and the commit index. -/
def Ahead (host : Host) (node : RaftNode) : ProgressCall → Prop
  | .handleAppendEntries request =>
      node.Takes request → node.commitIndex < request.leaderCommit →
        node.commitIndex ≤ request.lastNewIndex
  | .handleInstallSnapshot request =>
      node.InstallsSnapshot host request → node.commitIndex ≤ request.lastIncludedIndex
  | .maybeAdvanceCommitIndex => True
  | .applyCommittedEntries =>
      node.lastApplied < node.lastToApply →
        ∀ entry, node.persistent.getEntry node.lastToApply = some entry →
          node.lastApplied ≤ entry.index ∧ entry.index ≤ node.commitIndex

/-- In a run of calls, neither index ever goes back, and what is applied is always committed. -/
def Progresses (host : Host) (node : RaftNode) (calls : List ProgressCall) : Prop :=
  node.Bounded ∧
    AllMeet (advance host) (fun node call => node.Advances (node.advance host call)) node calls

section Entries

variable {node : RaftNode} {request : AppendEntriesRequest}

theorem lastApplied_followCommit (node : RaftNode) (leaderCommit lastNewIndex : Nat) :
    (node.followCommit leaderCommit lastNewIndex).lastApplied = node.lastApplied := by
  rw [followCommit]
  split <;> rfl

theorem commitIndex_followCommit (node : RaftNode) (leaderCommit lastNewIndex : Nat) :
    (node.followCommit leaderCommit lastNewIndex).commitIndex =
      if node.commitIndex < leaderCommit then min leaderCommit lastNewIndex
      else node.commitIndex := by
  rw [followCommit]
  split <;> rfl

/-- Accepting entries assigns the commit index if they can be stored. -/
theorem acceptEntries_progress (node : RaftNode) (request : AppendEntriesRequest)
    {added : List LogEntry}
    (appended : (node.persistent.truncateConflicting request.entries).appendNew request.entries =
      (node.persistent.merge request.entries, added.length)) :
    (node.acceptEntries request).1.lastApplied = node.lastApplied ∧
      (¬CanStore node.storage (node.persistent.merge request.entries) added →
        (node.acceptEntries request).1.commitIndex = node.commitIndex) ∧
      (CanStore node.storage (node.persistent.merge request.entries) added →
        (node.acceptEntries request).1.commitIndex =
          if node.commitIndex < request.leaderCommit then
            min request.leaderCommit request.lastNewIndex
          else
            node.commitIndex) := by
  rw [acceptEntries, appended, CanStore]
  dsimp only
  have empty : added = [] ↔ ¬0 < added.length := by simp
  rw [empty]
  split
  next error failed =>
    refine ⟨rfl, fun _ => rfl, ?_⟩
    intro stores
    by_cases none : 0 < added.length
    · rw [if_pos none] at failed
      have stored := stores.resolve_left (not_not.mpr none)
      rw [failed] at stored
      exact absurd stored (by simp)
    · rw [if_neg none] at failed
      exact absurd failed (by simp)
  next stored =>
    refine ⟨lastApplied_followCommit _ _ _, ?_, fun _ => commitIndex_followCommit _ _ _⟩
    intro fails
    obtain ⟨some, failed⟩ := not_or.mp fails
    rw [if_pos (not_not.mp some)] at stored
    exact absurd stored failed

/-- An AppendEntries call assigns the commit index if it takes the request. -/
theorem handleAppendEntries_progress (node : RaftNode) (request : AppendEntriesRequest) :
    (node.handleAppendEntries request).1.lastApplied = node.lastApplied ∧
      (¬node.Takes request →
        (node.handleAppendEntries request).1.commitIndex = node.commitIndex) ∧
      (node.Takes request → (node.handleAppendEntries request).1.commitIndex =
        if node.commitIndex < request.leaderCommit then
          min request.leaderCommit request.lastNewIndex
        else
          node.commitIndex) := by
  rcases node.handleAppendEntries_eq request with
    ⟨stale, same⟩ | ⟨recent, ⟨inconsistent, followed, _⟩ | ⟨consistent, accepted⟩⟩
  · rw [same]
    exact ⟨rfl, fun _ => rfl, fun takes => absurd takes.1 (not_le.mpr stale)⟩
  · rw [followed, follow_eq]
    exact ⟨rfl, fun _ => rfl, fun takes => absurd takes.2.1 inconsistent⟩
  · rw [accepted, follow_eq]
    obtain ⟨added, appended, _⟩ :=
      ((node.receiving request).truncateConflicting request.entries).appendNew_eq request.entries
    have merged : ((node.receiving request).merge request.entries).log =
        node.kept request ++ added := by
      rw [PersistentState.merge, appended, kept]
    have isAdded : node.added request = added := by
      rw [RaftNode.added, merged, List.drop_left]
    have grown : ((node.receiving request).truncateConflicting request.entries).appendNew
        request.entries = ((node.receiving request).merge request.entries, added.length) := by
      rw [PersistentState.merge, appended]
    have spec := acceptEntries_progress
      { node with
        persistent := node.receiving request
        storage := (node.storage.persistMetaSync request.term none).2
        state := .follower, leaderId := some request.leaderId, leaderState := none } request grown
    rw [← isAdded] at spec
    refine ⟨spec.1, ?_, fun takes => spec.2.2 takes.2.2⟩
    intro refused
    exact spec.2.1 fun stores => refused ⟨recent, consistent, stores⟩

theorem advances_handleAppendEntries_iff (host : Host) (bounded : node.Bounded) :
    node.Advances (node.handleAppendEntries request).1 ↔
      node.Ahead host (.handleAppendEntries request) := by
  obtain ⟨lastApplied, refused, taken⟩ := node.handleAppendEntries_progress request
  rw [Ahead]
  constructor
  · intro advances takes higher
    have commit := advances.commitIndex
    rw [taken takes, if_pos higher] at commit
    exact commit.trans (min_le_right _ _)
  · intro ahead
    have commit : node.commitIndex ≤ (node.handleAppendEntries request).1.commitIndex := by
      by_cases takes : node.Takes request
      · rw [taken takes]
        split
        next higher => exact le_min higher.le (ahead takes higher)
        next => exact le_refl _
      · exact (refused takes).ge
    refine ⟨commit, lastApplied.ge, ?_⟩
    rw [Bounded, lastApplied]
    exact bounded.trans commit

end Entries

section Snapshots

variable {host : Host} {node : RaftNode} {request : InstallSnapshotRequest}

/-- A complete snapshot sets both indices if it can be restored and stored. -/
theorem applySnapshotData_progress (host : Host) (node : RaftNode)
    (request : InstallSnapshotRequest) (data : Bytes) :
    (¬(host.restore node.stateMachine data = true ∧
        node.Saves request.lastIncludedIndex request.lastIncludedTerm) →
        (node.applySnapshotData host data request).1.commitIndex = node.commitIndex ∧
        (node.applySnapshotData host data request).1.lastApplied = node.lastApplied) ∧
      ((host.restore node.stateMachine data = true ∧
        node.Saves request.lastIncludedIndex request.lastIncludedTerm) →
        (node.applySnapshotData host data request).1.commitIndex = request.lastIncludedIndex ∧
        (node.applySnapshotData host data request).1.lastApplied = request.lastIncludedIndex) := by
  rw [applySnapshotData, Saves, placeholderLog]
  split
  next accepted =>
    dsimp only
    generalize node.storage.persistStateSync _ 1 = result
    obtain ⟨persisted, storage⟩ := result
    cases persisted <;> simp [accepted]
  next rejected => simp [rejected]

/-- An InstallSnapshot call sets both indices if it installs the snapshot. -/
theorem handleInstallSnapshot_progress (host : Host) (node : RaftNode)
    (request : InstallSnapshotRequest) :
    (¬node.InstallsSnapshot host request →
        (node.handleInstallSnapshot host request).1.commitIndex = node.commitIndex ∧
        (node.handleInstallSnapshot host request).1.lastApplied = node.lastApplied) ∧
      (node.InstallsSnapshot host request →
        (node.handleInstallSnapshot host request).1.commitIndex = request.lastIncludedIndex ∧
        (node.handleInstallSnapshot host request).1.lastApplied = request.lastIncludedIndex) := by
  by_cases recent : node.persistent.currentTerm ≤ request.term
  · have caught : ∀ parts, (node.received request parts).commitIndex = node.commitIndex ∧
        (node.received request parts).lastApplied = node.lastApplied := by
      intro parts
      rw [received, catchUp]
      split
      · rw [follow_eq]
        exact ⟨rfl, rfl⟩
      · exact ⟨rfl, rfl⟩
    rw [handleInstallSnapshot_of_le recent, InstallsSnapshot]
    cases collected : node.parts.collect host request with
    | mk parts outcome =>
        cases outcome with
        | reply success nextOffset =>
            refine ⟨fun _ => caught parts, ?_⟩
            rintro ⟨_, data, complete, _⟩
            exact absurd complete (by simp)
        | panic =>
            refine ⟨fun _ => caught parts, ?_⟩
            rintro ⟨_, data, complete, _⟩
            exact absurd complete (by simp)
        | complete data =>
            obtain ⟨refused, installed⟩ :=
              applySnapshotData_progress host (node.received request parts) request data
            rw [stateMachine_received] at refused installed
            constructor
            · intro fails
              obtain ⟨commit, applied⟩ := refused fun holds =>
                fails ⟨recent, data, rfl, holds.1, holds.2⟩
              exact ⟨commit.trans (caught parts).1, applied.trans (caught parts).2⟩
            · rintro ⟨_, other, complete, restores, saves⟩
              cases complete
              exact installed ⟨restores, saves⟩
  · have stale : (node.handleInstallSnapshot host request).1 = node := by
      rw [handleInstallSnapshot, if_pos (not_le.mp recent)]
    rw [stale]
    exact ⟨fun _ => ⟨rfl, rfl⟩, fun installs => absurd installs.1 recent⟩

theorem advances_handleInstallSnapshot_iff (bounded : node.Bounded) :
    node.Advances (node.handleInstallSnapshot host request).1 ↔
      node.Ahead host (.handleInstallSnapshot request) := by
  obtain ⟨refused, installed⟩ := handleInstallSnapshot_progress host node request
  rw [Ahead]
  constructor
  · intro advances installs
    rw [← (installed installs).1]
    exact advances.commitIndex
  · intro ahead
    by_cases installs : node.InstallsSnapshot host request
    · obtain ⟨commit, applied⟩ := installed installs
      refine ⟨?_, ?_, ?_⟩
      · exact (ahead installs).trans_eq commit.symm
      · exact (bounded.trans (ahead installs)).trans_eq applied.symm
      · rw [Bounded, applied, commit]
    · obtain ⟨commit, applied⟩ := refused installs
      refine ⟨commit.ge, applied.ge, ?_⟩
      rw [Bounded, applied, commit]
      exact bounded

end Snapshots

section Commits

variable {node : RaftNode}

theorem le_commitIndex_foldl_commitAt {leader : LeaderState} {indices : List Nat} {least : Nat}
    (least_le : least ≤ node.commitIndex) (above : ∀ index ∈ indices, least ≤ index) :
    least ≤ (indices.foldl (fun node index => node.commitAt leader index) node).commitIndex := by
  induction indices generalizing node with
  | nil => exact least_le
  | cons index indices ih =>
      rw [List.foldl_cons]
      apply ih ?_ fun other member => above other (List.mem_cons_of_mem _ member)
      rcases node.commitAt_eq leader index with same | ⟨_, _, moved⟩
      · rw [same]
        exact least_le
      · rw [moved]
        exact above index List.mem_cons_self

/-- The commit rule looks at later indices only. -/
theorem advances_maybeAdvanceCommitIndex (bounded : node.Bounded) :
    node.Advances node.maybeAdvanceCommitIndex := by
  have commit : node.commitIndex ≤ node.maybeAdvanceCommitIndex.commitIndex := by
    rw [maybeAdvanceCommitIndex]
    split
    next => exact le_refl _
    next leader _ =>
      apply le_commitIndex_foldl_commitAt (le_refl _)
      intro index member
      exact (Nat.le_succ _).trans (List.mem_range'_1.mp member).1
  obtain ⟨commitIndex, same, _⟩ := node.maybeAdvanceCommitIndex_eq
  have applied : node.maybeAdvanceCommitIndex.lastApplied = node.lastApplied := by rw [same]
  refine ⟨commit, applied.ge, ?_⟩
  rw [Bounded, applied]
  exact bounded.trans commit

end Commits

section Applying

variable {node : RaftNode}

theorem commitIndex_applyCommittedEntries :
    node.applyCommittedEntries.commitIndex = node.commitIndex := by
  apply node.applyCommittedEntries_induction
    (P := fun after => after.commitIndex = node.commitIndex) rfl
  · intro done entry same _
    obtain ⟨_, _, _, applied, _⟩ := done.applyEntry_eq entry
    rw [applied]
    exact same
  · exact fun done lastApplied same => same

/-- The last applied index becomes that of the last entry there was to apply. -/
theorem lastApplied_applyCommittedEntries :
    node.applyCommittedEntries.lastApplied =
      if node.lastApplied < node.lastToApply then
        ((node.persistent.getEntry node.lastToApply).map (·.index)).getD node.lastApplied
      else
        node.lastApplied := by
  rw [applyCommittedEntries, lastToApply]
  split
  next done => rw [if_neg (by omega)]
  next more =>
    have range : ¬(node.lastApplied + 1 = 0 ∨ node.commitIndex < node.lastApplied + 1) := by omega
    rw [PersistentState.getEntries, if_neg range, Nat.add_sub_cancel]
    by_cases inside : node.lastApplied ≤ min node.commitIndex node.persistent.log.length
    · rw [if_pos inside]
      dsimp only
      rw [List.getLast?_eq_getElem?, List.length_drop, List.length_take, min_assoc, min_self,
        List.getElem?_drop]
      by_cases some : node.lastApplied < min node.commitIndex node.persistent.log.length
      · have position : node.lastApplied +
            (min node.commitIndex node.persistent.log.length - node.lastApplied - 1) =
              min node.commitIndex node.persistent.log.length - 1 := by omega
        have valid : ¬(min node.commitIndex node.persistent.log.length = 0 ∨
            node.persistent.log.length < min node.commitIndex node.persistent.log.length) := by
          omega
        rw [position, if_pos some, PersistentState.getEntry, if_neg valid,
          List.getElem?_take_of_lt (by omega)]
      · rw [if_neg some, List.getElem?_eq_none]
        · rfl
        · rw [List.length_take]
          omega
    · rw [if_neg inside, if_neg (by omega)]

/-- Applying entries leaves the commit index alone. -/
theorem advances_of_lastApplied
    (onward : node.lastApplied ≤ node.applyCommittedEntries.lastApplied)
    (committed : node.applyCommittedEntries.lastApplied ≤ node.commitIndex) :
    node.Advances node.applyCommittedEntries := by
  refine ⟨commitIndex_applyCommittedEntries.ge, onward, ?_⟩
  rw [Bounded, commitIndex_applyCommittedEntries]
  exact committed

theorem advances_applyCommittedEntries_iff (host : Host) (bounded : node.Bounded) :
    node.Advances node.applyCommittedEntries ↔ node.Ahead host .applyCommittedEntries := by
  have lastApplied := node.lastApplied_applyCommittedEntries
  rw [Ahead]
  constructor
  · rintro ⟨_, applied, committed⟩ more entry found
    rw [Bounded, commitIndex_applyCommittedEntries] at committed
    rw [if_pos more, found] at lastApplied
    rw [lastApplied] at applied committed
    exact ⟨applied, committed⟩
  · intro ahead
    by_cases more : node.lastApplied < node.lastToApply
    · rw [if_pos more] at lastApplied
      cases found : node.persistent.getEntry node.lastToApply with
      | none =>
          rw [found] at lastApplied
          exact advances_of_lastApplied lastApplied.ge (lastApplied.trans_le bounded)
      | some entry =>
          rw [found] at lastApplied
          obtain ⟨applied, committed⟩ := ahead more entry found
          exact advances_of_lastApplied (lastApplied ▸ applied) (lastApplied ▸ committed)
    · rw [if_neg more] at lastApplied
      exact advances_of_lastApplied lastApplied.ge (lastApplied.trans_le bounded)

/-- In a log whose entries carry their positions there is nothing to fear from applying. -/
theorem ahead_of_indexed (host : Host) (indexed : Indexed node.persistent.log) :
    node.Ahead host .applyCommittedEntries := by
  intro more entry found
  rw [PersistentState.getEntry] at found
  split at found
  next => exact absurd found (by simp)
  next valid =>
    have index := indexed _ entry found
    have committed : node.lastToApply ≤ node.commitIndex := min_le_left _ _
    omega

end Applying

theorem advances_iff_ahead (host : Host) {node : RaftNode} (call : ProgressCall)
    (bounded : node.Bounded) : node.Advances (node.advance host call) ↔ node.Ahead host call := by
  cases call with
  | handleAppendEntries request => exact advances_handleAppendEntries_iff host bounded
  | handleInstallSnapshot request => exact advances_handleInstallSnapshot_iff bounded
  | maybeAdvanceCommitIndex =>
      exact ⟨fun _ => trivial, fun _ => advances_maybeAdvanceCommitIndex bounded⟩
  | applyCommittedEntries => exact advances_applyCommittedEntries_iff host bounded

/-- A request of the leader of term 1. -/
def leaderRequest (prevLogIndex prevLogTerm leaderCommit : Nat) (indices : List Nat) :
    AppendEntriesRequest :=
  ⟨1, "b", prevLogIndex, prevLogTerm, indices.map fun index => ⟨1, index, .noop⟩, leaderCommit⟩

/-- A snapshot in one chunk. -/
def wholeSnapshot (lastIncludedIndex : Nat) : InstallSnapshotRequest :=
  ⟨1, "b", lastIncludedIndex, 1, 0, [], true, .new {"a", "b", "c"}⟩

/-- A host whose state machine restores everything. -/
def readyHost : Host := ⟨fun _ _ => true, fun _ => none, fun _ => none⟩

end RaftNode

end JouleDB.Raft
