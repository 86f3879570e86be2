import JouleDB.Raft.Operations

/-!
# What a node acknowledges

A node with a write-ahead log answers AppendEntries, RequestVote and proposals.  For every call
the condition is given under which the answer says no more than what is in the log: a failed
append leaves the log in memory ahead of the write-ahead log, so that a repeated request finds
nothing new to append; a vote is granted whether or not its record could be appended; and a
proposal that fails has already changed the log in memory.
-/

namespace JouleDB.Raft

namespace RaftNode

variable {host : Host} {node : RaftNode}

/-- The answer to a call does not go beyond what is persisted. -/
def Honest (node : RaftNode) : Call → Prop
  | .handleAppendEntries request =>
      (node.handleAppendEntries request).2.success = true →
        ∀ entry ∈ (node.handleAppendEntries request).1.persistent.log,
          entry.index ≤ (node.handleAppendEntries request).2.matchIndex →
          .entry entry ∈ (node.handleAppendEntries request).1.storage.appended
  | .handleRequestVote request =>
      (node.handleRequestVote request).2.voteGranted = true →
        .metadata (node.handleRequestVote request).1.persistent.currentTerm
          (some request.candidateId) ∈ (node.handleRequestVote request).1.storage.appended
  | .propose command =>
      ∀ error, (node.propose command).1 = .error error →
        (node.propose command).2.persistent.log = node.persistent.log
  | .proposeBatch commands =>
      ∀ error, (node.proposeBatch commands).1 = .error error →
        (node.proposeBatch commands).2.persistent.log = node.persistent.log
  | _ => True

/-- The persistent state when the entries of a request are taken in. -/
def receiving (node : RaftNode) (request : AppendEntriesRequest) : PersistentState :=
  ⟨request.term, none, node.persistent.log⟩

/-- The entries that a request leaves in the log. -/
def kept (node : RaftNode) (request : AppendEntriesRequest) : List LogEntry :=
  ((node.receiving request).truncateConflicting request.entries).log

/-- The entries that a request adds to the log. -/
def added (node : RaftNode) (request : AppendEntriesRequest) : List LogEntry :=
  ((node.receiving request).merge request.entries).log.drop (node.kept request).length

/-- The call meets no failure that its answer hides: a leader's new entries are appended, the
record of a vote is appended or was so before, and the entries that a request finds in the log,
up to the last one it covers, were appended. -/
def Covered (node : RaftNode) : Call → Prop
  | .handleAppendEntries request =>
      node.persistent.currentTerm ≤ request.term → node.Consistent request →
        (∀ ahead < (node.added request).length, node.storage.fate (ahead + 1) = .ok) →
        ∀ entry ∈ node.kept request, entry.index ≤ request.lastNewIndex →
          entry ∈ node.added request ∨ .entry entry ∈ node.storage.appended
  | .handleRequestVote request =>
      node.persistent.currentTerm ≤ request.term →
        (node.persistent.currentTerm = request.term → node.canVote request = true) →
        node.logOk request = true →
        node.storage.fate (if node.persistent.currentTerm < request.term then 1 else 0) = .ok ∨
          .metadata request.term (some request.candidateId) ∈ node.storage.appended
  | .propose _ => node.state = .leader → node.storage.fate 0 = .ok
  | .proposeBatch commands =>
      node.state = .leader → ∀ ahead < commands.length, node.storage.fate ahead = .ok
  | _ => True

instance (request : AppendEntriesRequest) : Decidable (node.Consistent request) :=
  inferInstanceAs (Decidable (_ ∨ _))

instance : (call : Call) → Decidable (node.Covered call)
  | .handleAppendEntries _ => inferInstanceAs (Decidable (_ → _ → (∀ _ < _, _) → ∀ _ ∈ _, _ → _))
  | .handleRequestVote _ => inferInstanceAs (Decidable (_ → (_ → _) → _ → _))
  | .propose _ => inferInstanceAs (Decidable (_ → _))
  | .proposeBatch _ => inferInstanceAs (Decidable (_ → ∀ _ < _, _))
  | .handleInstallSnapshot _ | .addNode _ | .removeNode _ | .becomeCandidate | .becomeLeader
  | .becomeFollower _ _ | .finishHeartbeats _ | .applyCommittedEntries | .checkpoint =>
      inferInstanceAs (Decidable True)

/-- All answers of a run are honest. -/
def HonestRun (host : Host) (node : RaftNode) : List Call → Prop
  | [] => True
  | call :: calls => node.Honest call ∧ (node.perform host call).HonestRun host calls

/-- All calls of a run are covered. -/
def CoveredRun (host : Host) (node : RaftNode) : List Call → Prop
  | [] => True
  | call :: calls => node.Covered call ∧ (node.perform host call).CoveredRun host calls

instance CoveredRun.decidable (host : Host) (node : RaftNode) :
    (calls : List Call) → Decidable (node.CoveredRun host calls)
  | [] => inferInstanceAs (Decidable True)
  | call :: calls =>
      have := CoveredRun.decidable host (node.perform host call) calls
      inferInstanceAs (Decidable (_ ∧ _))

section Proposals

theorem log_push_ne (state : PersistentState) (command : Command) :
    (state.push command).log ≠ state.log := by
  intro same
  have lengths := congrArg List.length same
  simp [PersistentState.push] at lengths

theorem length_foldl_push (state : PersistentState) (commands : List Command) :
    (commands.foldl PersistentState.push state).log.length = state.log.length + commands.length := by
  induction commands generalizing state with
  | nil => rfl
  | cons command commands ih =>
      rw [List.foldl_cons, ih]
      simp [PersistentState.push]
      omega

theorem propose_honest_iff (logged : node.storage.IsLogged) (command : Command) :
    node.Honest (.propose command) ↔ node.Covered (.propose command) := by
  have enough : 1 ≤ (node.persistent.push command).log.length := by simp [PersistentState.push]
  dsimp only [Honest, Covered]
  rw [propose]
  by_cases leads : node.state = .leader
  · have isLeader : node.isLeader = true := decide_eq_true leads
    rw [if_pos isLeader, proposeInternal]
    dsimp only
    constructor
    · intro honest _
      by_contra failed
      have someFails : ¬ ∀ ahead < 1, node.storage.fate ahead = .ok := fun ok => failed (ok 0 one_pos)
      obtain ⟨⟨error, result⟩, _⟩ := Storage.persistStateSync_error logged enough someFails
      rw [result] at honest
      exact log_push_ne _ _ (honest error rfl)
    · intro covered error
      have ok : ∀ ahead < 1, node.storage.fate ahead = .ok := by
        intro ahead first
        rw [Nat.lt_one_iff.mp first]
        exact covered leads
      rw [(Storage.persistStateSync_ok logged enough ok).1]
      exact fun failed => absurd failed (by simp)
  · have notLeader : ¬ node.isLeader = true := fun isLeader => leads (of_decide_eq_true isLeader)
    rw [if_neg notLeader]
    exact ⟨fun _ isLeader => absurd isLeader leads, fun _ _ _ => rfl⟩

theorem proposeBatch_honest_iff (logged : node.storage.IsLogged) (commands : List Command) :
    node.Honest (.proposeBatch commands) ↔ node.Covered (.proposeBatch commands) := by
  have count := length_foldl_push node.persistent commands
  have enough : commands.length ≤
      (commands.foldl PersistentState.push node.persistent).log.length := by omega
  dsimp only [Honest, Covered]
  rw [proposeBatch]
  by_cases leads : node.state = .leader
  · have isLeader : node.isLeader = true := decide_eq_true leads
    rw [if_pos isLeader]
    cases commands with
    | nil =>
        rw [if_pos List.isEmpty_nil]
        exact ⟨fun _ _ ahead below => absurd below (Nat.not_lt_zero _), fun _ _ _ => rfl⟩
    | cons command commands =>
        rw [if_neg (by simp)]
        rw [← pushAll_eq] at enough count
        dsimp only
        constructor
        · intro honest _
          by_contra failed
          obtain ⟨⟨error, result⟩, _⟩ := Storage.persistStateSync_error logged enough failed
          rw [result] at honest
          have same := congrArg List.length (honest error rfl)
          simp only [List.length_cons] at same count
          omega
        · intro covered error
          rw [(Storage.persistStateSync_ok logged enough (covered leads)).1]
          exact fun failed => absurd failed (by simp)
  · have notLeader : ¬ node.isLeader = true := fun isLeader => leads (of_decide_eq_true isLeader)
    rw [if_neg notLeader]
    exact ⟨fun _ isLeader => absurd isLeader leads, fun _ _ _ => rfl⟩

end Proposals

section Votes

/-- What the node that answers a vote request finds on the disk. -/
theorem storage_catchUp (logged : node.storage.IsLogged) {term : Nat}
    (recent : node.persistent.currentTerm ≤ term) :
    (node.catchUp term none).storage.IsLogged ∧
      (node.catchUp term none).storage.fate 0 =
        node.storage.fate (if node.persistent.currentTerm < term then 1 else 0) ∧
      ∀ candidate, .metadata term (some candidate) ∈ (node.catchUp term none).storage.appended ↔
        .metadata term (some candidate) ∈ node.storage.appended := by
  rcases node.catchUp_eq none recent with ⟨same, equal⟩ | ⟨higher, equal⟩
  · rw [equal, if_neg (not_lt_of_ge (le_of_eq same.symm))]
    exact ⟨logged, rfl, fun _ => Iff.rfl⟩
  · rw [equal, follow_eq, if_pos higher]
    obtain ⟨stillLogged, appended, fates⟩ := Storage.persistMetaSync_logged logged term none
    refine ⟨stillLogged, fates 0, ?_⟩
    intro candidate
    dsimp only
    rw [appended]
    split <;> simp

theorem handleRequestVote_honest_iff (logged : node.storage.IsLogged)
    (request : RequestVoteRequest) :
    node.Honest (.handleRequestVote request) ↔ node.Covered (.handleRequestVote request) := by
  dsimp only [Honest, Covered]
  by_cases granted : (node.handleRequestVote request).2.voteGranted = true
  · obtain ⟨recent, may, ok⟩ := node.handleRequestVote_granted_iff.mp granted
    obtain ⟨result, persistent⟩ := node.handleRequestVote_of_granted granted
    obtain ⟨caught, fate, known⟩ := storage_catchUp logged recent
    have term := (node.persistent_catchUp none recent).1
    obtain ⟨_, appended, _⟩ := Storage.persistMetaSync_logged caught request.term
      (some request.candidateId)
    have recorded : (node.handleRequestVote request).1.storage.appended =
        (node.catchUp request.term none).storage.appended ++
          (if (node.catchUp request.term none).storage.fate 0 = .ok then
            [.metadata request.term (some request.candidateId)] else []) := by
      rw [result, ← appended, grantVote, persistMeta]
      dsimp only
      rw [term]
    rw [persistent, recorded, List.mem_append, known, fate]
    dsimp only
    have written : ∀ fate : Fate, WalRecord.metadata request.term (some request.candidateId) ∈
        (if fate = .ok then [.metadata request.term (some request.candidateId)] else []) ↔
          fate = .ok := by
      intro fate
      split <;> simp_all
    rw [written]
    exact ⟨fun honest _ _ _ => (honest granted).symm, fun covered _ => (covered recent may ok).symm⟩
  · constructor
    · intro _ recent may ok
      exact absurd (node.handleRequestVote_granted_iff.mpr ⟨recent, may, ok⟩) granted
    · exact fun _ isGranted => absurd isGranted granted

end Votes

section Entries

theorem followCommit_eq (node : RaftNode) (leaderCommit lastNewIndex : Nat) :
    ∃ commitIndex, node.followCommit leaderCommit lastNewIndex =
      { node with commitIndex := commitIndex } := by
  rw [followCommit]
  split
  · exact ⟨_, rfl⟩
  · exact ⟨node.commitIndex, rfl⟩

/-- Persisting the entries that were added behind others, if there are any. -/
theorem persistAdded_logged {storage : Storage} (logged : storage.IsLogged)
    {state : PersistentState} {kept added : List LogEntry} (log : state.log = kept ++ added) :
    ∃ persisted storage',
      (if 0 < added.length then storage.persistStateSync state added.length
        else (.ok (), storage)) = (persisted, storage') ∧
      storage'.IsLogged ∧
      ((∀ ahead < added.length, storage.fate ahead = .ok) ∧ persisted = .ok () ∧
          storage'.appended = storage.appended ++ added.map .entry ∨
        (¬ ∀ ahead < added.length, storage.fate ahead = .ok) ∧
          ∃ error, persisted = .error error) := by
  have enough : added.length ≤ state.log.length := by simp [log]
  have isNew : state.log.drop (state.log.length - added.length) = added := by simp [log]
  by_cases some : 0 < added.length
  · rw [if_pos some]
    refine ⟨_, _, (Prod.eta _).symm, Storage.isLogged_persistStateSync logged _ _, ?_⟩
    by_cases ok : ∀ ahead < added.length, storage.fate ahead = .ok
    · obtain ⟨result, _, appended⟩ := Storage.persistStateSync_ok logged enough ok
      rw [isNew] at appended
      exact .inl ⟨ok, result, appended⟩
    · exact .inr ⟨ok, (Storage.persistStateSync_error logged enough ok).1⟩
  · rw [if_neg some]
    have none : added = [] := List.eq_nil_of_length_eq_zero (Nat.eq_zero_of_not_pos some)
    refine ⟨_, _, rfl, logged, .inl ⟨?_, rfl, by simp [none]⟩⟩
    exact fun ahead below => absurd (Nat.zero_lt_of_lt below) some

/-- Taking in entries succeeds if the new ones can be appended, and then they are in the
write-ahead log. -/
theorem acceptEntries_logged (logged : node.storage.IsLogged) (request : AppendEntriesRequest) :
    ∃ added,
      (node.persistent.merge request.entries).log =
        (node.persistent.truncateConflicting request.entries).log ++ added ∧
      (node.acceptEntries request).1.persistent = node.persistent.merge request.entries ∧
      (node.acceptEntries request).1.storage.IsLogged ∧
      ((∀ ahead < added.length, node.storage.fate ahead = .ok) ∧
          (node.acceptEntries request).2.success = true ∧
          (node.acceptEntries request).2.matchIndex = request.lastNewIndex ∧
          (node.acceptEntries request).1.storage.appended =
            node.storage.appended ++ added.map .entry ∨
        (¬ ∀ ahead < added.length, node.storage.fate ahead = .ok) ∧
          (node.acceptEntries request).2.success = false) := by
  obtain ⟨added, appended, _⟩ :=
    (node.persistent.truncateConflicting request.entries).appendNew_eq request.entries
  have log : (node.persistent.merge request.entries).log =
      (node.persistent.truncateConflicting request.entries).log ++ added := by
    rw [PersistentState.merge, appended]
  obtain ⟨persisted, storage, result, stillLogged, outcome⟩ := persistAdded_logged logged log
  refine ⟨added, log, ?_⟩
  rw [PersistentState.merge, appended] at result
  rw [acceptEntries, PersistentState.merge, appended]
  dsimp only at result ⊢
  rw [result]
  dsimp only
  rcases outcome with ⟨ok, rfl, recorded⟩ | ⟨failed, error, rfl⟩
  · dsimp only
    obtain ⟨commitIndex, equal⟩ := followCommit_eq
      { node with
        persistent := { (node.persistent.truncateConflicting request.entries) with
          log := (node.persistent.truncateConflicting request.entries).log ++ added }
        storage := storage } request.leaderCommit request.lastNewIndex
    rw [equal]
    exact ⟨rfl, stillLogged, .inl ⟨ok, rfl, rfl, recorded⟩⟩
  · exact ⟨rfl, stillLogged, .inr ⟨failed, rfl⟩⟩

theorem handleAppendEntries_honest_iff (logged : node.storage.IsLogged)
    (request : AppendEntriesRequest) :
    node.Honest (.handleAppendEntries request) ↔ node.Covered (.handleAppendEntries request) := by
  dsimp only [Honest, Covered]
  rcases node.handleAppendEntries_eq request with
    ⟨stale, same⟩ | ⟨recent, ⟨conflict, _, fails⟩ | ⟨consistent, equal⟩⟩
  · rw [same]
    exact ⟨fun _ recent => absurd stale (not_lt_of_ge recent),
      fun _ success => absurd success Bool.false_ne_true⟩
  · rw [fails]
    exact ⟨fun _ _ consistent => absurd consistent conflict,
      fun _ success => absurd success Bool.false_ne_true⟩
  · have followed := node.follow_eq request.term (some request.leaderId)
    obtain ⟨stillLogged, recorded, fates⟩ :=
      Storage.persistMetaSync_logged logged request.term none
    have known : ∀ entry, .entry entry ∈
        (node.follow request.term (some request.leaderId)).storage.appended ↔
          .entry entry ∈ node.storage.appended := by
      intro entry
      rw [followed]
      dsimp only
      rw [recorded]
      split <;> simp
    have loggedAfter : (node.follow request.term (some request.leaderId)).storage.IsLogged := by
      rw [followed]
      exact stillLogged
    have state : (node.follow request.term (some request.leaderId)).persistent =
        node.receiving request := by
      rw [followed, receiving]
    obtain ⟨added, log, persistent, _, outcome⟩ := acceptEntries_logged loggedAfter request
    rw [state] at log persistent
    have isAdded : node.added request = added := by
      rw [RaftNode.added, log]
      exact List.drop_left
    have fatesAfter : (∀ ahead < added.length,
        (node.follow request.term (some request.leaderId)).storage.fate ahead = .ok) ↔
          ∀ ahead < added.length, node.storage.fate (ahead + 1) = .ok := by
      rw [followed]
      exact forall₂_congr fun ahead _ => by rw [fates]
    rw [equal, isAdded, persistent, log, ← fatesAfter]
    rcases outcome with ⟨ok, success, matchIndex, appended⟩ | ⟨failed, fails⟩
    · have present : ∀ entry, .entry entry ∈ ((node.follow request.term
          (some request.leaderId)).acceptEntries request).1.storage.appended ↔
            entry ∈ added ∨ .entry entry ∈ node.storage.appended := by
        intro entry
        rw [appended, List.mem_append, known, or_comm]
        simp
      rw [matchIndex]
      constructor
      · intro honest _ _ _ entry member reached
        exact (present entry).mp (honest success entry (List.mem_append_left _ member) reached)
      · intro covered _ entry member reached
        rw [present]
        rcases List.mem_append.mp member with old | new
        · exact covered recent consistent ok entry old reached
        · exact .inl new
    · rw [fails]
      exact ⟨fun _ _ _ ok => absurd ok failed, fun _ success => absurd success Bool.false_ne_true⟩

end Entries

section Runs

theorem isLogged_proposeInternal (logged : node.storage.IsLogged) (command : Command) :
    (node.proposeInternal command).2.storage.IsLogged := by
  rw [proposeInternal_eq]
  exact Storage.isLogged_persistStateSync logged _ _

theorem isLogged_propose (logged : node.storage.IsLogged) (command : Command) :
    (node.propose command).2.storage.IsLogged := by
  rcases node.propose_eq command with same | ⟨_, equal⟩
  · rw [same]
    exact logged
  · rw [equal]
    exact isLogged_proposeInternal logged command

theorem isLogged_becomeFollower (logged : node.storage.IsLogged) (term : Nat)
    (leaderId : Option NodeId) : (node.becomeFollower term leaderId).storage.IsLogged := by
  obtain ⟨persistent, equal, _⟩ := node.becomeFollower_eq term leaderId
  rw [equal]
  exact Storage.isLogged_persistMetaSync logged _ _

theorem isLogged_follow (logged : node.storage.IsLogged) (term : Nat)
    (leaderId : Option NodeId) : (node.follow term leaderId).storage.IsLogged := by
  rw [follow_eq]
  exact Storage.isLogged_persistMetaSync logged _ _

theorem isLogged_handleRequestVote (logged : node.storage.IsLogged)
    (request : RequestVoteRequest) : (node.handleRequestVote request).1.storage.IsLogged := by
  rcases node.handleRequestVote_eq request with ⟨_, same⟩ | ⟨recent, equal⟩
  · rw [same]
    exact logged
  · have caught := (storage_catchUp logged recent).1
    rw [equal]
    split
    · exact Storage.isLogged_persistMetaSync caught _ _
    · exact caught

theorem isLogged_handleAppendEntries (logged : node.storage.IsLogged)
    (request : AppendEntriesRequest) : (node.handleAppendEntries request).1.storage.IsLogged := by
  rcases node.handleAppendEntries_eq request with ⟨_, same⟩ | ⟨_, ⟨_, equal, _⟩ | ⟨_, equal⟩⟩
  · rw [same]
    exact logged
  · rw [equal]
    exact isLogged_follow logged _ _
  · rw [equal]
    obtain ⟨_, _, _, stillLogged, _⟩ := acceptEntries_logged (isLogged_follow logged _ _) request
    exact stillLogged

theorem isLogged_finishHeartbeats (logged : node.storage.IsLogged)
    (responses : List (NodeId × AppendEntriesResponse)) :
    (node.finishHeartbeats responses).storage.IsLogged := by
  apply takeResponses_induction _ (P := fun done => done.storage.IsLogged) logged
  · exact fun done peer response logged _ _ => logged
  · exact fun done term logged _ => isLogged_becomeFollower logged term none
  · intro done logged
    obtain ⟨commitIndex, equal, _⟩ := done.maybeAdvanceCommitIndex_eq
    rw [equal]
    exact logged

theorem isLogged_applyCommittedEntries (logged : node.storage.IsLogged) :
    node.applyCommittedEntries.storage.IsLogged := by
  apply applyCommittedEntries_induction _ (P := fun done => done.storage.IsLogged) logged
  · intro done entry logged _
    obtain ⟨_, _, storage, equal, persisted, _⟩ := done.applyEntry_eq entry
    rw [equal]
    rcases persisted with ⟨_, same⟩ | ⟨_, _, _, written⟩
    · rw [same]
      exact logged
    · rw [written]
      exact Storage.isLogged_persistStateSync logged _ _
  · exact fun done lastApplied logged => logged

theorem isLogged_applySnapshotData (logged : node.storage.IsLogged) (data : Bytes)
    (request : InstallSnapshotRequest) :
    (node.applySnapshotData host data request).1.storage.IsLogged := by
  rw [applySnapshotData]
  split
  · dsimp only
    split <;> exact Storage.isLogged_persistStateSync logged _ _
  · exact logged

theorem isLogged_handleInstallSnapshot (logged : node.storage.IsLogged)
    (request : InstallSnapshotRequest) :
    (node.handleInstallSnapshot host request).1.storage.IsLogged := by
  rcases handleInstallSnapshot_eq host node request with
    ⟨_, same⟩ | ⟨recent, offset, pending, shards, collected, equal, outcome⟩
  · rw [same]
    exact logged
  · have caught : collected.storage.IsLogged := by
      rw [equal]
      rcases node.catchUp_eq (some request.leaderId) recent with ⟨_, same⟩ | ⟨_, follows⟩
      · rw [same]
        exact logged
      · rw [follows]
        exact isLogged_follow logged request.term (some request.leaderId)
    rcases outcome with result | ⟨data, _, result⟩
    · rw [result]
      exact caught
    · rw [result]
      exact isLogged_applySnapshotData caught data request

theorem isLogged_perform (logged : node.storage.IsLogged) (call : Call) :
    (node.perform host call).storage.IsLogged := by
  cases call with
  | handleRequestVote request => exact isLogged_handleRequestVote logged request
  | handleAppendEntries request => exact isLogged_handleAppendEntries logged request
  | handleInstallSnapshot request => exact isLogged_handleInstallSnapshot logged request
  | propose command => exact isLogged_propose logged command
  | proposeBatch commands =>
      rcases node.proposeBatch_eq commands with same | ⟨_, equal⟩
      · rw [perform, same]
        exact logged
      · rw [perform, equal]
        exact Storage.isLogged_persistStateSync logged _ _
  | addNode added =>
      rcases node.addNode_eq added with same | ⟨config, equal⟩
      · rw [perform, same]
        exact logged
      · rw [perform, equal]
        exact isLogged_propose logged _
  | removeNode removed =>
      rcases node.removeNode_eq removed with same | ⟨config, equal⟩
      · rw [perform, same]
        exact logged
      · rw [perform, equal]
        exact isLogged_propose logged _
  | becomeCandidate => exact Storage.isLogged_persistMetaSync logged _ _
  | becomeLeader =>
      rw [perform, becomeLeader_eq]
      exact Storage.isLogged_persistStateSync logged _ _
  | becomeFollower term leaderId => exact isLogged_becomeFollower logged term leaderId
  | finishHeartbeats responses => exact isLogged_finishHeartbeats logged responses
  | applyCommittedEntries => exact isLogged_applyCommittedEntries logged
  | checkpoint => exact Storage.isLogged_checkpoint logged _

theorem honest_iff_covered (logged : node.storage.IsLogged) (call : Call) :
    node.Honest call ↔ node.Covered call := by
  cases call with
  | handleRequestVote request => exact handleRequestVote_honest_iff logged request
  | handleAppendEntries request => exact handleAppendEntries_honest_iff logged request
  | propose command => exact propose_honest_iff logged command
  | proposeBatch commands => exact proposeBatch_honest_iff logged commands
  | _ => exact Iff.rfl

/-- A node with a write-ahead log acknowledges only what is persisted, in every run, exactly if
no call of the run meets a failure that its answer hides. -/
theorem acknowledges_only_persisted (host : Host) (node : RaftNode)
    (logged : node.storage.IsLogged) (calls : List Call) :
    node.HonestRun host calls ↔ node.CoveredRun host calls := by
  induction calls generalizing node with
  | nil => exact Iff.rfl
  | cons call calls ih =>
      rw [HonestRun, CoveredRun, honest_iff_covered logged,
        ih (node.perform host call) (isLogged_perform logged call)]

/-- A host without snapshots. -/
def plainHost : Host := ⟨fun _ _ => false, fun _ => none, fun _ => none⟩

/-- A new node whose disk fails at one operation. -/
def failingAt (operation : Nat) : RaftNode :=
  .new "a" 100 (.new {"a", "b", "c"}) .new
    (.logged ⟨none, 0, fun position => if position = operation then .failed 0 "disk full" else .ok⟩ .fresh)

/-- A request of node `b` with a first entry. -/
def firstEntry (term : Nat) : AppendEntriesRequest :=
  ⟨term, "b", 0, 0, [⟨term, 1, .noop⟩], 0⟩

/-- The first entry cannot be appended, and the node says so; the entry of the next leader takes
its place, the node votes and proposes. -/
def replacedEntry : List Call :=
  [.handleAppendEntries (firstEntry 1), .handleAppendEntries (firstEntry 2),
    .handleRequestVote ⟨3, "c", 1, 2⟩, .becomeCandidate, .becomeLeader, .propose .noop]

theorem acknowledges_replaced_entry :
    (failingAt 1).storage.IsLogged ∧ (failingAt 1).HonestRun plainHost replacedEntry :=
  ⟨trivial, (acknowledges_only_persisted plainHost (failingAt 1) trivial replacedEntry).mpr
    (by decide)⟩

/-- A repeated request is acknowledged although its entry could not be appended; a vote is granted
although its record could not be appended; and a failed proposal has changed the log. -/
theorem acknowledges_what_was_not_persisted :
    ¬ (failingAt 1).HonestRun plainHost
        [.handleAppendEntries (firstEntry 1), .handleAppendEntries (firstEntry 1)] ∧
      ¬ (failingAt 1).HonestRun plainHost [.handleRequestVote ⟨1, "b", 0, 0⟩] ∧
      ¬ (failingAt 2).HonestRun plainHost [.becomeCandidate, .becomeLeader, .propose .noop] := by
  refine ⟨?_, ?_, ?_⟩
  · rintro ⟨_, honest, _⟩
    exact absurd (honest (by decide) ⟨1, 1, .noop⟩ (by decide) (by decide)) (by decide)
  · rintro ⟨honest, _⟩
    exact absurd (honest (by decide)) (by decide)
  · rintro ⟨_, _, honest, _⟩
    exact absurd (honest (.internal "WAL append failed: disk full") (by decide)) (by decide)

end Runs

end RaftNode

end JouleDB.Raft
