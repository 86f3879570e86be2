import JouleDB.Raft.Configuration
import JouleDB.Raft.Replication

/-!
# Nodes in step with a history

A history is the chronicle of the leaders of a run: what a leader has put into its log, and what
the nodes have confirmed.  A node is in step with a history if its log is derived from the logs
of the leaders and has what the node has confirmed, if it leads with the log that the history has
for its term, and if it has committed and applied only what was chosen.
-/

namespace JouleDB.Raft

/-- The leaders of a run, their logs, and what was confirmed. -/
abbrev History := Chronicle NodeId LogEntry

namespace History

variable (config : ClusterConfig) (history : History)

/-- A quorum of a configuration. -/
def IsQuorum (config : ClusterConfig) (voters : Finset NodeId) : Prop :=
  config.hasQuorum voters = true

/-- The log is derived from the logs of the leaders. -/
abbrev DerivedLog (log : List LogEntry) : Prop := Chronicle.Derived LogEntry.term history log

/-- Leaders are elected by quorums, and what is confirmed is kept. -/
abbrev IsSound : Prop := Chronicle.Sound LogEntry.term (IsQuorum config) history

/-- The entries were committed in the term or before. -/
abbrev IsChosen (term : Nat) (front : List LogEntry) : Prop :=
  Chronicle.Chosen LogEntry.term (IsQuorum config) history term front

end History

/-- What a leader believes about its peers is true. -/
structure LeaderState.Knows (leader : LeaderState) (history : History) (term : Nat)
    (log : List LogEntry) : Prop where
  matched : ∀ peer ∈ leader.matchIndex.keys, 0 < leader.matchIndex.value peer →
    ∃ front, history.acked peer term front ∧ leader.matchIndex.value peer ≤ front.length
  next : ∀ peer, (leader.nextIndex.get peer).getD 1 ≤ log.length + 1

/-- A node is in step with a history. -/
structure InStep (config : ClusterConfig) (history : History) (id : NodeId) (node : RaftNode) :
    Prop where
  indexed : Indexed node.persistent.log
  derived : history.DerivedLog node.persistent.log
  terms : ∀ entry ∈ node.persistent.log, entry.term ≤ node.persistent.currentTerm
  candidate : node.state = .candidate → 0 < node.persistent.currentTerm ∧
    ∀ entry ∈ node.persistent.log, entry.term < node.persistent.currentTerm
  acked : ∀ {term front}, history.acked id term front → term ≤ node.persistent.currentTerm
  keeps : history.Keeps id (node.persistent.currentTerm + 1) node.persistent.log
  reigned : ∀ {term reign}, history.reigns term = some reign → reign.leader = id →
    term ≤ node.persistent.currentTerm ∧
      (term = node.persistent.currentTerm → node.state ≠ .candidate)
  leads : node.state = .leader → ∃ reign,
    history.reigns node.persistent.currentTerm = some reign ∧ reign.leader = id ∧
      reign.log = node.persistent.log ∧
      history.acked id node.persistent.currentTerm node.persistent.log
  knows : ∀ leader, node.leaderState = some leader → node.state = .leader ∧
    leader.Knows history node.persistent.currentTerm node.persistent.log
  commit : node.commitIndex = 0 ∨ node.commitIndex ≤ node.persistent.log.length ∧
    history.IsChosen config node.persistent.currentTerm
      (node.persistent.log.take node.commitIndex)
  applied : ∀ entry ∈ node.applied, ∃ term front, history.IsChosen config term front ∧
    0 < entry.index ∧ front[entry.index - 1]? = some entry

namespace InStep

variable {config : ClusterConfig} {history later : History} {id actor : NodeId}
  {node after : RaftNode} {now : Nat}

section Frame

theorem commit_of_le {term : Nat} {log : List LogEntry} {index : Nat}
    (commit : index = 0 ∨ index ≤ log.length ∧ history.IsChosen config term (log.take index))
    {further : Nat} (rises : term ≤ further) :
    index = 0 ∨ index ≤ log.length ∧ history.IsChosen config further (log.take index) := by
  rcases commit with nothing | ⟨inside, chosen⟩
  · exact .inl nothing
  · exact .inr ⟨inside, chosen.of_le rises⟩

/-- A node that follows, in its term or a later one. -/
theorem follower (inStep : InStep config history id node)
    (log : after.persistent.log = node.persistent.log)
    (rises : node.persistent.currentTerm ≤ after.persistent.currentTerm)
    (state : after.state = .follower) (leaderState : after.leaderState = none)
    (commitIndex : after.commitIndex = node.commitIndex)
    (machine : after.stateMachine = node.stateMachine) : InStep config history id after := by
  constructor
  · rw [log]
    exact inStep.indexed
  · rw [log]
    exact inStep.derived
  · rw [log]
    exact fun entry member => (inStep.terms entry member).trans rises
  · rw [state]
    exact fun isCandidate => absurd isCandidate (by simp)
  · exact fun confirmed => (inStep.acked confirmed).trans rises
  · rw [log]
    exact inStep.keeps.raise (fun confirmed => Nat.lt_succ_of_le (inStep.acked confirmed))
      (Nat.succ_le_succ rises)
  · intro term reign recorded leads
    refine ⟨(inStep.reigned recorded leads).1.trans rises, ?_⟩
    rw [state]
    exact fun _ => by simp
  · rw [state]
    exact fun isLeader => absurd isLeader (by simp)
  · rw [leaderState]
    exact fun leader isLeader => absurd isLeader (by simp)
  · rw [log, commitIndex]
    exact commit_of_le inStep.commit rises
  · rw [RaftNode.applied, machine]
    exact inStep.applied

theorem congr (inStep : InStep config history id node)
    (log : after.persistent.log = node.persistent.log)
    (term : after.persistent.currentTerm = node.persistent.currentTerm)
    (state : after.state = node.state) (leaderState : after.leaderState = node.leaderState)
    (commitIndex : after.commitIndex = node.commitIndex)
    (machine : after.stateMachine = node.stateMachine) : InStep config history id after := by
  have applied : after.applied = node.applied := by
    rw [RaftNode.applied, machine, RaftNode.applied]
  constructor
  · rw [log]
    exact inStep.indexed
  · rw [log]
    exact inStep.derived
  · rw [log, term]
    exact inStep.terms
  · rw [log, term, state]
    exact inStep.candidate
  · rw [term]
    exact inStep.acked
  · rw [log, term]
    exact inStep.keeps
  · rw [term, state]
    exact inStep.reigned
  · rw [log, term, state]
    exact inStep.leads
  · rw [log, term, state, leaderState]
    exact inStep.knows
  · rw [log, term, commitIndex]
    exact inStep.commit
  · rw [applied]
    exact inStep.applied

theorem Knows.mono {leader : LeaderState} {term : Nat} {log longer : List LogEntry}
    (extension : Chronicle.Extends actor now history later) (grows : log <+: longer)
    (knows : leader.Knows history term log) : leader.Knows later term longer := by
  constructor
  · intro peer member positive
    obtain ⟨front, confirmed, reached⟩ := knows.matched peer member positive
    exact ⟨front, extension.acked confirmed, reached⟩
  · exact fun peer => (knows.next peer).trans (Nat.succ_le_succ grows.length_le)

/-- Nothing that another node does brings a node out of step. -/
theorem mono (inStep : InStep config history id node)
    (extension : Chronicle.Extends actor now history later) (other : id ≠ actor) :
    InStep config later id node := by
  constructor
  · exact inStep.indexed
  · exact inStep.derived.mono extension
  · exact inStep.terms
  · exact inStep.candidate
  · intro term front confirmed
    rcases extension.new confirmed with old | ⟨same, _⟩
    · exact inStep.acked old
    · exact absurd same other
  · exact inStep.keeps.mono extension fun same => absurd same other
  · intro term reign recorded leads
    rcases extension.fresh recorded with old | ⟨_, same⟩
    · obtain ⟨before, wasRecorded⟩ := Option.isSome_iff_exists.mp old
      obtain ⟨log, final, _⟩ := extension.reigns wasRecorded
      rw [recorded] at final
      cases final
      exact inStep.reigned wasRecorded leads
    · exact absurd (leads.symm.trans same) other
  · intro isLeader
    obtain ⟨reign, recorded, leads, log, confirmed⟩ := inStep.leads isLeader
    obtain ⟨longer, final, _, same⟩ := extension.reigns recorded
    have unchanged : longer = reign.log := same (by rw [leads]; exact other)
    exact ⟨_, final, leads, unchanged.trans log, extension.acked confirmed⟩
  · intro leader isLeader
    obtain ⟨state, knows⟩ := inStep.knows leader isLeader
    exact ⟨state, Knows.mono extension (List.prefix_refl _) knows⟩
  · rcases inStep.commit with nothing | ⟨inside, chosen⟩
    · exact .inl nothing
    · exact .inr ⟨inside, chosen.mono extension⟩
  · intro entry member
    obtain ⟨term, front, chosen, found⟩ := inStep.applied entry member
    exact ⟨term, front, chosen.mono extension, found⟩

end Frame

section Terms

theorem becomeCandidate (inStep : InStep config history id node) :
    InStep config history id node.becomeCandidate := by
  rw [RaftNode.becomeCandidate_eq]
  have rises : node.persistent.currentTerm ≤ node.persistent.currentTerm + 1 := Nat.le_succ _
  constructor
  · exact inStep.indexed
  · exact inStep.derived
  · exact fun entry member => (inStep.terms entry member).trans rises
  · exact fun _ => ⟨Nat.succ_pos _, fun entry member =>
      Nat.lt_succ_of_le (inStep.terms entry member)⟩
  · exact fun confirmed => (inStep.acked confirmed).trans rises
  · exact inStep.keeps.raise (fun confirmed => Nat.lt_succ_of_le (inStep.acked confirmed))
      (Nat.succ_le_succ rises)
  · intro term reign recorded leads
    have reached := (inStep.reigned recorded leads).1
    refine ⟨reached.trans rises, ?_⟩
    intro same
    dsimp only at same
    omega
  · exact fun isLeader => absurd isLeader (by simp)
  · exact fun leader isLeader => absurd isLeader (by simp)
  · exact commit_of_le inStep.commit rises
  · exact inStep.applied

theorem becomeFollower (inStep : InStep config history id node) (term : Nat)
    (leaderId : Option NodeId) : InStep config history id (node.becomeFollower term leaderId) := by
  obtain ⟨persistent, equal, log, highest⟩ := node.becomeFollower_eq term leaderId
  have rises : node.persistent.currentTerm ≤ persistent.currentTerm := by
    rw [highest]
    exact le_max_left _ _
  rw [equal]
  exact inStep.follower log rises rfl rfl rfl rfl

theorem follow (inStep : InStep config history id node) {term : Nat} (leaderId : Option NodeId)
    (recent : node.persistent.currentTerm ≤ term) :
    InStep config history id (node.follow term leaderId) := by
  rw [RaftNode.follow_eq]
  exact inStep.follower rfl recent rfl rfl rfl rfl

theorem handleRequestVote (inStep : InStep config history id node)
    (request : RequestVoteRequest) :
    InStep config history id (node.handleRequestVote request).1 := by
  rcases node.handleRequestVote_eq request with ⟨_, same⟩ | ⟨recent, equal⟩
  · rw [same]
    exact inStep
  · have caught : InStep config history id (node.catchUp request.term none) := by
      rcases node.catchUp_eq none recent with ⟨_, same⟩ | ⟨_, follows⟩
      · rw [same]
        exact inStep
      · rw [follows]
        exact inStep.follow none recent
    rw [equal]
    split
    · exact caught.congr rfl rfl rfl rfl rfl rfl
    · exact caught

end Terms

section Leading

/-- The terms that a node has led, after something it did in its term. -/
theorem reigned_of_extends (inStep : InStep config history id node)
    (extension : Chronicle.Extends id node.persistent.currentTerm history later)
    (notCandidate : after.state ≠ .candidate)
    (term : after.persistent.currentTerm = node.persistent.currentTerm) :
    ∀ {ofTerm reign}, later.reigns ofTerm = some reign → reign.leader = id →
      ofTerm ≤ after.persistent.currentTerm ∧
        (ofTerm = after.persistent.currentTerm → after.state ≠ .candidate) := by
  intro ofTerm reign recorded leads
  refine ⟨?_, fun _ => notCandidate⟩
  rw [term]
  rcases extension.fresh recorded with old | ⟨same, _⟩
  · obtain ⟨before, wasRecorded⟩ := Option.isSome_iff_exists.mp old
    obtain ⟨log, final, _⟩ := extension.reigns wasRecorded
    rw [recorded] at final
    cases final
    exact (inStep.reigned wasRecorded leads).1
  · exact le_of_eq same

theorem acked_of_extends (inStep : InStep config history id node)
    (extension : Chronicle.Extends id node.persistent.currentTerm history later) :
    ∀ {term front}, later.acked id term front → term ≤ node.persistent.currentTerm := by
  intro term front confirmed
  rcases extension.new confirmed with old | ⟨_, same⟩
  · exact inStep.acked old
  · exact le_of_eq same

theorem append (inStep : InStep config history id node) (sound : history.IsSound config)
    (settled : history.Settled id node.persistent.currentTerm) (isLeader : node.state = .leader)
    {added : List LogEntry} (current : ∀ entry ∈ added, entry.term = node.persistent.currentTerm)
    (indexed : Indexed (node.persistent.log ++ added))
    (log : after.persistent.log = node.persistent.log ++ added)
    (term : after.persistent.currentTerm = node.persistent.currentTerm)
    (state : after.state = node.state) (leaderState : after.leaderState = node.leaderState)
    (commitIndex : after.commitIndex = node.commitIndex)
    (machine : after.stateMachine = node.stateMachine) :
    ∃ reign, history.reigns node.persistent.currentTerm = some reign ∧ reign.leader = id ∧
      History.IsSound config (history.lead node.persistent.currentTerm reign added) ∧
      InStep config (history.lead node.persistent.currentTerm reign added) id after := by
  obtain ⟨reign, recorded, leads, reignLog, confirmed⟩ := inStep.leads isLeader
  subst leads
  refine ⟨reign, recorded, rfl, sound.lead recorded settled current, ?_⟩
  have laterSound := sound.lead recorded settled current
  have extension := Chronicle.extends_lead recorded added
  have now : (history.lead node.persistent.currentTerm reign added).reigns
      node.persistent.currentTerm = some { reign with log := reign.log ++ added } :=
    Chronicle.record_self _ _ _
  have grows : node.persistent.log <+: node.persistent.log ++ added := List.prefix_append _ _
  constructor
  · rw [log]
    exact indexed
  · rw [log, ← reignLog]
    exact laterSound.derived now
  · rw [log, term]
    intro entry member
    rcases List.mem_append.mp member with old | new
    · exact inStep.terms entry old
    · exact le_of_eq (current entry new)
  · rw [state, isLeader]
    exact fun isCandidate => absurd isCandidate (by simp)
  · rw [term]
    exact inStep.acked_of_extends extension
  · rw [log, term]
    refine Chronicle.Keeps.confirm extension ?_ (inStep.keeps.of_isPrefix grows)
    rintro ofTerm whole (old | ⟨_, _, rfl⟩)
    · exact .inl old
    · rw [reignLog]
      exact .inr (List.prefix_refl _)
  · exact inStep.reigned_of_extends extension (by rw [state, isLeader]; simp) term
  · intro _
    rw [term, log]
    refine ⟨_, now, rfl, ?_, ?_⟩
    · dsimp only
      rw [reignLog]
    · rw [← reignLog]
      exact .inr ⟨rfl, rfl, rfl⟩
  · rw [leaderState, term, state, log]
    intro leader known
    obtain ⟨_, knows⟩ := inStep.knows leader known
    exact ⟨isLeader, Knows.mono extension grows knows⟩
  · rw [commitIndex, term, log]
    rcases inStep.commit with nothing | ⟨inside, chosen⟩
    · exact .inl nothing
    · right
      rw [List.take_append_of_le_length inside]
      exact ⟨inside.trans grows.length_le, chosen.mono extension⟩
  · rw [RaftNode.applied, machine]
    intro entry member
    obtain ⟨ofTerm, front, chosen, found⟩ := inStep.applied entry member
    exact ⟨ofTerm, front, chosen.mono extension, found⟩

/-- A candidate is elected in a term that had no leader. -/
theorem elected (inStep : InStep config history id node) (sound : history.IsSound config)
    (settled : history.Settled id node.persistent.currentTerm)
    (isCandidate : node.state = .candidate)
    (vacant : history.reigns node.persistent.currentTerm = none) {voters : Finset NodeId}
    (isQuorum : History.IsQuorum config voters)
    (ballots : ∀ voter ∈ voters, ∃ log, history.DerivedLog log ∧
      Chronicle.UpToDate LogEntry.term node.persistent.log log ∧
      history.Keeps voter node.persistent.currentTerm log) {peers : Finset NodeId}
    (persistent : after.persistent = node.persistent) (state : after.state = .leader)
    (leaderState : after.leaderState = some (.new peers node.persistent.lastLogIndex))
    (commitIndex : after.commitIndex = node.commitIndex)
    (machine : after.stateMachine = node.stateMachine) :
    History.IsSound config (history.elect node.persistent.currentTerm id voters
        node.persistent.log) ∧
      InStep config (history.elect node.persistent.currentTerm id voters node.persistent.log) id
        after := by
  obtain ⟨positive, older⟩ := inStep.candidate isCandidate
  have laterSound := sound.elect (Nat.ne_of_gt positive) vacant settled older inStep.derived
    isQuorum ballots
  have extension : Chronicle.Extends id node.persistent.currentTerm history
      (history.elect node.persistent.currentTerm id voters node.persistent.log) :=
    Chronicle.extends_elect vacant
  have now : (history.elect node.persistent.currentTerm id voters node.persistent.log).reigns
      node.persistent.currentTerm =
        some ⟨id, voters, node.persistent.log, node.persistent.log⟩ :=
    Chronicle.record_self _ _ _
  have term : after.persistent.currentTerm = node.persistent.currentTerm := by rw [persistent]
  refine ⟨laterSound, ?_⟩
  constructor
  · rw [persistent]
    exact inStep.indexed
  · rw [persistent]
    exact inStep.derived.mono extension
  · rw [persistent]
    exact inStep.terms
  · rw [state]
    exact fun isCandidate => absurd isCandidate (by simp)
  · rw [term]
    exact inStep.acked_of_extends extension
  · rw [persistent]
    refine Chronicle.Keeps.confirm extension ?_ inStep.keeps
    rintro ofTerm whole (old | ⟨_, _, rfl⟩)
    · exact .inl old
    · exact .inr (List.prefix_refl _)
  · exact inStep.reigned_of_extends extension (by rw [state]; simp) term
  · rw [persistent]
    exact fun _ => ⟨_, now, rfl, rfl, .inr ⟨rfl, rfl, rfl⟩⟩
  · rw [leaderState, state, persistent]
    rintro leader ⟨⟩
    refine ⟨rfl, ?_, ?_⟩
    · exact fun peer _ positive => absurd positive (lt_irrefl 0)
    · intro peer
      rw [LeaderState.new, IndexMap.get, IndexMap.fill, inStep.indexed.lastLogIndex_eq]
      dsimp only
      split <;> simp
  · rw [commitIndex, persistent]
    rcases inStep.commit with nothing | ⟨inside, chosen⟩
    · exact .inl nothing
    · exact .inr ⟨inside, chosen.mono extension⟩
  · rw [RaftNode.applied, machine]
    intro entry member
    obtain ⟨ofTerm, front, chosen, found⟩ := inStep.applied entry member
    exact ⟨ofTerm, front, chosen.mono extension, found⟩

end Leading

section Following

variable {request : AppendEntriesRequest} {reign : Reign NodeId LogEntry}

/-- A log that passes the consistency check agrees with the leader's log up to the slice. -/
theorem agrees (inStep : InStep config history id node) (sound : history.IsSound config)
    {term : Nat} (recorded : history.reigns term = some reign) (slices : request.Slices reign.log)
    (consistent : node.Consistent request) :
    reign.log.take request.prevLogIndex <+: node.persistent.log := by
  rcases consistent with first | found
  · rw [first, List.take_zero]
    exact List.nil_prefix
  · obtain ⟨positive, entry, here, own⟩ := getTerm_eq_some_iff.mp found
    obtain ⟨other, there, otherOwn⟩ := slices.prevTerm positive
    have same := inStep.derived.matching (sound.derived recorded) here there
      (own.trans otherOwn.symm)
    rw [Nat.sub_add_cancel positive] at same
    rw [← same]
    exact List.take_prefix _ _

/-- Taking in the entries of a request merges the log with the leader's. -/
theorem merge_merged (inStep : InStep config history id node) (sound : history.IsSound config)
    {term : Nat} (recorded : history.reigns term = some reign) (indexed : Indexed reign.log)
    (slices : request.Slices reign.log) (consistent : node.Consistent request) :
    Merged node.persistent.log (request.segment reign.log)
      (node.persistent.merge request.entries).log := by
  apply merge_segment inStep.indexed (indexed.of_isPrefix slices.inside)
    (inStep.agrees sound recorded slices consistent)
  intro position left right here there same
  have segment : history.DerivedLog (request.segment reign.log) :=
    (sound.derived recorded).of_isPrefix slices.inside
  have equal := inStep.derived.matching segment here there same
  have elements := congrArg (·[position]?) equal
  rw [List.getElem?_take_of_lt (Nat.lt_succ_self _), List.getElem?_take_of_lt (Nat.lt_succ_self _),
    here] at elements
  exact Option.some.inj (elements.trans there)

/-- A follower whose log is merged with its leader's. -/
theorem merged (inStep : InStep config history id node) (sound : history.IsSound config)
    (meets : ∀ first second, History.IsQuorum config first → History.IsQuorum config second →
      ∃ voter ∈ first, voter ∈ second)
    (recorded : history.reigns node.persistent.currentTerm = some reign)
    (indexed : Indexed reign.log) (follows : node.state = .follower) {segment : List LogEntry}
    (slice : segment <+: reign.log)
    (merged : Merged node.persistent.log segment after.persistent.log)
    (term : after.persistent.currentTerm = node.persistent.currentTerm)
    (state : after.state = node.state) (leaderState : after.leaderState = node.leaderState)
    (commitIndex : after.commitIndex = node.commitIndex)
    (machine : after.stateMachine = node.stateMachine) : InStep config history id after := by
  have isFollower : after.state = .follower := state.trans follows
  have applied : after.applied = node.applied := by
    rw [RaftNode.applied, machine, RaftNode.applied]
  have origin : after.persistent.log = node.persistent.log ∨ after.persistent.log = segment := by
    rcases merged with ⟨_, same⟩ | ⟨_, same⟩
    · exact .inl same
    · exact .inr same
  constructor
  · rcases origin with same | same
    · rw [same]
      exact inStep.indexed
    · rw [same]
      exact indexed.of_isPrefix slice
  · rcases origin with same | same
    · rw [same]
      exact inStep.derived
    · rw [same]
      exact (sound.derived recorded).of_isPrefix slice
  · rw [term]
    rcases origin with same | same
    · rw [same]
      exact inStep.terms
    · rw [same]
      exact fun entry member => sound.term_le recorded (slice.subset member)
  · rw [isFollower]
    exact fun isCandidate => absurd isCandidate (by simp)
  · rw [term]
    exact inStep.acked
  · rw [term]
    exact Chronicle.Keeps.merge sound inStep.keeps recorded merged slice
  · rw [term, state]
    exact inStep.reigned
  · rw [isFollower]
    exact fun isLeader => absurd isLeader (by simp)
  · rw [leaderState]
    intro leader known
    obtain ⟨isLeader, _⟩ := inStep.knows leader known
    rw [follows] at isLeader
    exact absurd isLeader (by simp)
  · rw [commitIndex, term]
    rcases inStep.commit with nothing | ⟨inside, chosen⟩
    · exact .inl nothing
    · right
      -- the leader has what was chosen, so merging does not cut it off
      have known := sound.chosen_isPrefix meets chosen (le_refl _) recorded
      have kept : node.persistent.log.take node.commitIndex <+: after.persistent.log := by
        rcases merged.keeps slice (List.take_prefix _ _) with kept | conflict
        · exact kept
        · exact absurd known conflict.1
      have length := List.length_take_of_le inside
      have same := List.prefix_iff_eq_take.mp kept
      rw [length] at same
      rw [← same]
      refine ⟨?_, chosen⟩
      rw [← length]
      exact kept.length_le
  · rw [applied]
    exact inStep.applied

/-- A follower confirms a front part of its leader's log. -/
theorem acknowledge (inStep : InStep config history id node) (sound : history.IsSound config)
    (settled : history.Settled id node.persistent.currentTerm)
    (recorded : history.reigns node.persistent.currentTerm = some reign)
    (follows : node.state = .follower) {segment : List LogEntry} (slice : segment <+: reign.log)
    (present : segment <+: node.persistent.log) :
    History.IsSound config (history.acknowledge id node.persistent.currentTerm segment) ∧
      InStep config (history.acknowledge id node.persistent.currentTerm segment) id node := by
  have extension :=
    Chronicle.extends_acknowledge history id node.persistent.currentTerm segment
  refine ⟨sound.acknowledge recorded slice settled, ?_⟩
  constructor
  · exact inStep.indexed
  · exact inStep.derived.mono extension
  · exact inStep.terms
  · exact inStep.candidate
  · exact inStep.acked_of_extends extension
  · refine Chronicle.Keeps.confirm extension ?_ inStep.keeps
    rintro ofTerm whole (old | ⟨_, _, rfl⟩)
    · exact .inl old
    · exact .inr present
  · exact inStep.reigned
  · rw [follows]
    exact fun isLeader => absurd isLeader (by simp)
  · intro leader known
    obtain ⟨state, knows⟩ := inStep.knows leader known
    exact ⟨state, Knows.mono extension (List.prefix_refl _) knows⟩
  · rcases inStep.commit with nothing | ⟨inside, chosen⟩
    · exact .inl nothing
    · exact .inr ⟨inside, chosen.mono extension⟩
  · intro entry member
    obtain ⟨ofTerm, front, chosen, found⟩ := inStep.applied entry member
    exact ⟨ofTerm, front, chosen.mono extension, found⟩

/-- A node whose commit index moves to what was chosen. -/
theorem setCommitIndex (inStep : InStep config history id node) {commitIndex : Nat}
    (inside : commitIndex ≤ node.persistent.log.length)
    (chosen : history.IsChosen config node.persistent.currentTerm
      (node.persistent.log.take commitIndex)) :
    InStep config history id { node with commitIndex := commitIndex } where
  indexed := inStep.indexed
  derived := inStep.derived
  terms := inStep.terms
  candidate := inStep.candidate
  acked := inStep.acked
  keeps := inStep.keeps
  reigned := inStep.reigned
  leads := inStep.leads
  knows := inStep.knows
  commit := .inr ⟨inside, chosen⟩
  applied := inStep.applied

/-- A follower that has its leader's log up to some index follows the leader's commit index. -/
theorem followCommit (inStep : InStep config history id node) {leaderCommit : Nat}
    {log segment : List LogEntry} (slice : segment <+: log)
    (present : segment <+: node.persistent.log)
    (committed : leaderCommit = 0 ∨ leaderCommit ≤ log.length ∧
      history.IsChosen config node.persistent.currentTerm (log.take leaderCommit)) :
    InStep config history id (node.followCommit leaderCommit segment.length) := by
  rw [RaftNode.followCommit]
  split
  next behind =>
    rcases committed with nothing | ⟨inside, chosen⟩
    · omega
    · have below : min leaderCommit segment.length ≤ segment.length := Nat.min_le_right _ _
      have same : node.persistent.log.take (min leaderCommit segment.length) =
          log.take (min leaderCommit segment.length) := by
        obtain ⟨rest, whole⟩ := present
        obtain ⟨others, leaders⟩ := slice
        rw [← whole, ← leaders, List.take_append_of_le_length below,
          List.take_append_of_le_length below]
      apply inStep.setCommitIndex (below.trans present.length_le)
      rw [same]
      apply chosen.of_isPrefix
      exact List.take_prefix_take_left (Nat.min_le_left _ _)
  next => exact inStep

end Following

section Counting

/-- A leader whose state changes only in what it knows about its peers. -/
theorem setLeaderState (inStep : InStep config history id node) {leaderState : Option LeaderState}
    (knows : ∀ leader, leaderState = some leader → node.state = .leader ∧
      leader.Knows history node.persistent.currentTerm node.persistent.log) :
    InStep config history id { node with leaderState := leaderState } where
  indexed := inStep.indexed
  derived := inStep.derived
  terms := inStep.terms
  candidate := inStep.candidate
  acked := inStep.acked
  keeps := inStep.keeps
  reigned := inStep.reigned
  leads := inStep.leads
  knows := knows
  commit := inStep.commit
  applied := inStep.applied

theorem knows_updateMatch {leader : LeaderState} {term : Nat} {log front : List LogEntry}
    (knows : leader.Knows history term log) {peer : NodeId}
    (confirmed : history.acked peer term front) (inside : front <+: log) :
    (leader.updateMatch peer front.length).Knows history term log := by
  constructor
  · intro other member positive
    dsimp only [LeaderState.updateMatch, IndexMap.insert] at member positive ⊢
    by_cases same : other = peer
    · subst same
      rw [if_pos rfl]
      exact ⟨front, confirmed, le_refl _⟩
    · rw [if_neg same] at positive ⊢
      exact knows.matched other (Finset.mem_of_mem_insert_of_ne member same) positive
  · intro other
    have before := knows.next other
    dsimp only [LeaderState.updateMatch, IndexMap.insert, IndexMap.get] at before ⊢
    by_cases same : other = peer
    · subst same
      rw [if_pos (Finset.mem_insert_self _ _), if_pos rfl]
      exact Nat.succ_le_succ inside.length_le
    · rw [if_neg same]
      simp only [Finset.mem_insert, same, false_or]
      exact before

theorem knows_insert {leader : LeaderState} {term index : Nat} {log : List LogEntry}
    (knows : leader.Knows history term log) {peer : NodeId} (lower : index ≤ log.length + 1) :
    LeaderState.Knows { leader with nextIndex := leader.nextIndex.insert peer index } history term
      log := by
  refine ⟨knows.matched, ?_⟩
  intro other
  have before := knows.next other
  dsimp only [IndexMap.insert, IndexMap.get] at before ⊢
  by_cases same : other = peer
  · subst same
    rw [if_pos (Finset.mem_insert_self _ _), if_pos rfl]
    exact lower
  · rw [if_neg same]
    simp only [Finset.mem_insert, same, false_or]
    exact before

theorem knows_decrementNext {leader : LeaderState} {term : Nat} {log : List LogEntry}
    (knows : leader.Knows history term log) (peer : NodeId) (hint : Option Nat) :
    (leader.decrementNext peer hint).Knows history term log := by
  have before := knows.next peer
  unfold LeaderState.decrementNext
  cases found : leader.nextIndex.get peer with
  | none => exact knows
  | some next =>
      rw [found] at before
      cases hint with
      | some hint => exact knows_insert knows ((Nat.min_le_left _ _).trans before)
      | none =>
          dsimp only
          split
          · exact knows_insert knows ((Nat.sub_le _ _).trans before)
          · exact knows

theorem noteResponse (inStep : InStep config history id node) (sound : history.IsSound config)
    {peer : NodeId} {response : AppendEntriesResponse}
    (current : node.leaderState ≠ none → response.term = node.persistent.currentTerm)
    (confirmed : response.success = true → ∃ front, history.acked peer response.term front ∧
      response.matchIndex = front.length) :
    InStep config history id (node.noteResponse peer response) := by
  apply inStep.setLeaderState
  intro after known
  obtain ⟨leader, isLeader, rfl⟩ := Option.map_eq_some_iff.mp known
  obtain ⟨leads, knows⟩ := inStep.knows leader isLeader
  refine ⟨leads, ?_⟩
  split
  next success =>
    obtain ⟨front, acked, length⟩ := confirmed success
    rw [current (by rw [isLeader]; simp)] at acked
    obtain ⟨reign, recorded, _, log, _⟩ := inStep.leads leads
    obtain ⟨other, alsoRecorded, inside⟩ := sound.acked acked
    rw [recorded] at alsoRecorded
    cases alsoRecorded
    rw [log] at inside
    rw [length]
    exact knows_updateMatch knows acked inside
  next => exact knows_decrementNext knows peer response.conflictIndex

theorem chosen_of_replicated (inStep : InStep config history id node)
    (sound : history.IsSound config) (nodeId : node.nodeId = id) {leader : LeaderState}
    (isLeader : node.leaderState = some leader) {index : Nat}
    (current : node.persistent.getTerm index = some node.persistent.currentTerm)
    (isQuorum : config.hasQuorum (leader.replicated node.nodeId index) = true) :
    index ≤ node.persistent.log.length ∧
      history.IsChosen config node.persistent.currentTerm (node.persistent.log.take index) := by
  obtain ⟨leads, knows⟩ := inStep.knows leader isLeader
  obtain ⟨reign, recorded, _, log, own⟩ := inStep.leads leads
  obtain ⟨positive, entry, found, term⟩ := getTerm_eq_some_iff.mp current
  obtain ⟨inside, isEntry⟩ := List.getElem?_eq_some_iff.mp found
  have reached : index ≤ node.persistent.log.length := by omega
  refine ⟨reached, node.persistent.currentTerm, le_refl _, _, ?_, List.prefix_refl _⟩
  refine ⟨reign, node.persistent.log.take (index - 1), entry, _, recorded, ?_, ?_, term, isQuorum,
    ?_⟩
  · rw [log]
    exact List.take_prefix _ _
  · have step := List.take_concat_get inside
    rw [Nat.sub_add_cancel positive, isEntry, List.concat_eq_append] at step
    exact step.symm
  · intro voter member
    rcases Finset.mem_insert.mp member with self | counted
    · rw [self, nodeId]
      exact ⟨_, own, List.take_prefix _ _⟩
    · obtain ⟨isPeer, confirmed⟩ := Finset.mem_filter.mp counted
      obtain ⟨front, acked, length⟩ := knows.matched voter isPeer (by omega)
      refine ⟨front, acked, ?_⟩
      obtain ⟨other, alsoRecorded, below⟩ := sound.acked acked
      rw [recorded] at alsoRecorded
      cases alsoRecorded
      rw [log] at below
      apply List.prefix_of_prefix_length_le (List.take_prefix _ _) below
      rw [List.length_take_of_le reached]
      omega

theorem maybeAdvanceCommitIndex (inStep : InStep config history id node)
    (sound : history.IsSound config) (nodeId : node.nodeId = id)
    (clusterConfig : node.clusterConfig = config) :
    InStep config history id node.maybeAdvanceCommitIndex := by
  obtain ⟨commitIndex, equal, same | ⟨leader, isLeader, current, isQuorum⟩⟩ :=
    node.maybeAdvanceCommitIndex_eq
  · rw [equal, same]
    exact inStep
  · rw [clusterConfig] at isQuorum
    obtain ⟨inside, chosen⟩ :=
      inStep.chosen_of_replicated sound nodeId isLeader current isQuorum
    rw [equal]
    exact inStep.setCommitIndex inside chosen

end Counting

section Applying

/-- A node that has only applied entries since. -/
theorem setApplied (inStep : InStep config history id node)
    (persistent : after.persistent = node.persistent) (state : after.state = node.state)
    (leaderState : after.leaderState = node.leaderState)
    (commitIndex : after.commitIndex = node.commitIndex)
    (applied : ∀ entry ∈ after.applied, ∃ term front, history.IsChosen config term front ∧
      0 < entry.index ∧ front[entry.index - 1]? = some entry) :
    InStep config history id after := by
  constructor
  · rw [persistent]
    exact inStep.indexed
  · rw [persistent]
    exact inStep.derived
  · rw [persistent]
    exact inStep.terms
  · rw [persistent, state]
    exact inStep.candidate
  · rw [persistent]
    exact inStep.acked
  · rw [persistent]
    exact inStep.keeps
  · rw [persistent, state]
    exact inStep.reigned
  · rw [persistent, state]
    exact inStep.leads
  · rw [persistent, state, leaderState]
    exact inStep.knows
  · rw [persistent, commitIndex]
    exact inStep.commit
  · exact applied

theorem applied_concat (node : RaftNode) (entry : LogEntry) :
    RaftNode.applied { node with stateMachine := node.stateMachine ++ [.apply entry] } =
      node.applied ++ [entry] := by
  simp [RaftNode.applied]

theorem chosen_of_committed (inStep : InStep config history id node) {entry : LogEntry}
    (committed : entry ∈ node.persistent.log.take node.commitIndex) :
    ∃ term front, history.IsChosen config term front ∧ 0 < entry.index ∧
      front[entry.index - 1]? = some entry := by
  rcases inStep.commit with nothing | ⟨_, chosen⟩
  · rw [nothing, List.take_zero] at committed
    exact absurd committed List.not_mem_nil
  · have indexed := inStep.indexed.of_isPrefix (List.take_prefix node.commitIndex _)
    exact ⟨_, _, chosen, indexed.getElem?_index committed⟩

theorem applyCommittedEntries (inStep : InStep config history id node)
    (plain : ∀ entry ∈ node.persistent.log, entry.command.Plain) :
    InStep config history id node.applyCommittedEntries ∧
      node.applyCommittedEntries.persistent = node.persistent := by
  apply RaftNode.applyCommittedEntries_induction _
    (P := fun done => InStep config history id done ∧ done.persistent = node.persistent)
    ⟨inStep, rfl⟩
  · rintro done entry ⟨kept, same⟩ committed
    obtain ⟨clusterConfig, persistent, storage, equal, _, otherwise⟩ := done.applyEntry_eq entry
    obtain ⟨_, samePersistent⟩ := otherwise (plain entry (List.mem_of_mem_take committed))
    rw [equal, samePersistent]
    refine ⟨kept.setApplied rfl rfl rfl rfl ?_, same⟩
    intro other member
    have concat : other ∈ done.applied ++ [entry] := by
      rw [← applied_concat]
      exact member
    rcases List.mem_append.mp concat with old | new
    · exact kept.applied other old
    · rw [List.mem_singleton.mp new]
      exact inStep.chosen_of_committed committed
  · rintro done lastApplied ⟨kept, same⟩
    exact ⟨kept.congr rfl rfl rfl rfl rfl rfl, same⟩

end Applying

end InStep

end JouleDB.Raft
