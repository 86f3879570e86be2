import JouleDB.Lib.LeaderLogs
import JouleDB.Raft.Calls

/-!
# Replicating a log

In a log whose entries carry their positions, a leader's request is a slice of its log, and
taking in the request leaves a follower with the segment up to the end of the slice, or with what
it had if the segment is part of that.
-/

namespace JouleDB.Raft

/-- Every entry carries its position, counted from one. -/
def Indexed (log : List LogEntry) : Prop :=
  ∀ position entry, log[position]? = some entry → entry.index = position + 1

section Indexed

variable {log front : List LogEntry} {state : PersistentState}

theorem Indexed.of_isPrefix (indexed : Indexed log) (shorter : front <+: log) : Indexed front := by
  obtain ⟨rest, rfl⟩ := shorter
  intro position entry found
  obtain ⟨inside, _⟩ := List.getElem?_eq_some_iff.mp found
  apply indexed
  rw [List.getElem?_append_left inside]
  exact found

theorem Indexed.nil : Indexed [] := by
  intro position entry found
  exact absurd found (by simp)

theorem Indexed.concat (indexed : Indexed log) {entry : LogEntry}
    (next : entry.index = log.length + 1) : Indexed (log ++ [entry]) := by
  intro position other found
  rcases Nat.lt_or_ge position log.length with inside | beyond
  · rw [List.getElem?_append_left inside] at found
    exact indexed position other found
  · rw [List.getElem?_append_right beyond] at found
    have first : position - log.length = 0 := by
      obtain ⟨within, _⟩ := List.getElem?_eq_some_iff.mp found
      simpa using within
    rw [first] at found
    cases found
    omega

/-- The index of the entry behind a front part. -/
theorem Indexed.index_eq {entry : LogEntry} {entries : List LogEntry}
    (indexed : Indexed (front ++ entry :: entries)) : entry.index = front.length + 1 :=
  indexed front.length entry (by simp)

theorem Indexed.index_le {entry : LogEntry} (indexed : Indexed log) (member : entry ∈ log) :
    entry.index ≤ log.length := by
  obtain ⟨position, found⟩ := List.mem_iff_getElem?.mp member
  obtain ⟨inside, _⟩ := List.getElem?_eq_some_iff.mp found
  rw [indexed position entry found]
  exact inside

theorem Indexed.getElem?_index {entry : LogEntry} (indexed : Indexed log) (member : entry ∈ log) :
    0 < entry.index ∧ log[entry.index - 1]? = some entry := by
  obtain ⟨position, found⟩ := List.mem_iff_getElem?.mp member
  rw [indexed position entry found]
  exact ⟨Nat.succ_pos _, found⟩

theorem Indexed.lastLogIndex_eq (indexed : Indexed state.log) :
    state.lastLogIndex = state.log.length := by
  rw [PersistentState.lastLogIndex]
  rcases List.eq_nil_or_concat state.log with empty | ⟨front, last, shape⟩
  · simp [empty]
  · rw [List.concat_eq_append] at shape
    rw [shape] at indexed ⊢
    simp [indexed.index_eq]

theorem Indexed.push (indexed : Indexed state.log) (command : Command) :
    Indexed (state.push command).log :=
  indexed.concat (congrArg (· + 1) indexed.lastLogIndex_eq)

/-- The term at an index, read off the position. -/
theorem getTerm_eq_some_iff {index term : Nat} :
    state.getTerm index = some term ↔
      0 < index ∧ ∃ entry, state.log[index - 1]? = some entry ∧ entry.term = term := by
  rw [PersistentState.getTerm, PersistentState.getEntry, Option.map_eq_some_iff]
  constructor
  · rintro ⟨entry, found, own⟩
    split at found
    next => exact absurd found (by simp)
    next inside => exact ⟨by omega, entry, found, own⟩
  · rintro ⟨positive, entry, found, own⟩
    obtain ⟨inside, _⟩ := List.getElem?_eq_some_iff.mp found
    refine ⟨entry, ?_, own⟩
    rw [if_neg (by omega)]
    exact found

theorem getTerm_eq_none {index : Nat} (beyond : state.log.length < index) :
    state.getTerm index = none := by
  rw [PersistentState.getTerm, PersistentState.getEntry, if_pos (.inr beyond)]
  rfl

/-- Proposed entries are of the current term and carry their positions. -/
theorem foldl_push_indexed (indexed : Indexed state.log) (commands : List Command) :
    ∃ added, (commands.foldl PersistentState.push state).log = state.log ++ added ∧
      (∀ entry ∈ added, entry.term = state.currentTerm) ∧ Indexed (state.log ++ added) := by
  induction commands generalizing state with
  | nil => exact ⟨[], by simp, by simp, by simpa using indexed⟩
  | cons command commands ih =>
      obtain ⟨added, log, terms, rest⟩ := ih (indexed.push command)
      refine ⟨⟨state.currentTerm, state.lastLogIndex + 1, command⟩ :: added, ?_, ?_, ?_⟩
      · rw [List.foldl_cons, log]
        simp [PersistentState.push]
      · intro entry member
        rcases List.mem_cons.mp member with rfl | later
        · rfl
        · exact terms entry later
      · have shape : (state.push command).log ++ added =
            state.log ++ ⟨state.currentTerm, state.lastLogIndex + 1, command⟩ :: added := by
          simp [PersistentState.push]
        rw [← shape]
        exact rest

end Indexed

section Merge

variable {front : List LogEntry} {state : PersistentState}

theorem truncateConflicting_of_beyond {entries : List LogEntry}
    (beyond : ∀ entry ∈ entries, state.log.length < entry.index) :
    state.truncateConflicting entries = state := by
  induction entries with
  | nil => rfl
  | cons entry entries ih =>
      rw [PersistentState.truncateConflicting, getTerm_eq_none (beyond entry List.mem_cons_self)]
      exact ih fun other member => beyond other (List.mem_cons_of_mem _ member)

/-- Indices behind a front part are larger than its length. -/
theorem Indexed.lt_index {entries : List LogEntry} (indexed : Indexed (front ++ entries)) :
    ∀ entry ∈ entries, front.length < entry.index := by
  intro entry member
  obtain ⟨position, found⟩ := List.mem_iff_getElem?.mp member
  have shifted : (front ++ entries)[front.length + position]? = some entry := by
    rw [List.getElem?_append_right (Nat.le_add_right _ _), Nat.add_sub_cancel_left]
    exact found
  have index := indexed _ _ shifted
  omega

/-- Dropping what conflicts with a segment: nothing if the log has the whole segment, otherwise
the log is left with a part of the segment. -/
theorem truncateConflicting_segment {entries : List LogEntry}
    (indexed : Indexed (front ++ entries)) (agrees : front <+: state.log)
    (matching : ∀ (position : Nat) (left right : LogEntry), state.log[position]? = some left →
      (front ++ entries)[position]? = some right → left.term = right.term → left = right) :
    front ++ entries <+: state.log ∧ state.truncateConflicting entries = state ∨
      ¬ front ++ entries <+: state.log ∧
        front <+: (state.truncateConflicting entries).log ∧
        (state.truncateConflicting entries).log <+: front ++ entries := by
  induction entries generalizing front with
  | nil =>
      rw [List.append_nil]
      exact .inl ⟨agrees, rfl⟩
  | cons entry entries ih =>
      have index := indexed.index_eq
      have shape : front ++ entry :: entries = (front ++ [entry]) ++ entries := by simp
      have ⟨rest, same⟩ := agrees
      cases rest with
      | nil =>
          rw [List.append_nil] at same
          have beyond : ∀ other ∈ entry :: entries, state.log.length < other.index := by
            rw [← same]
            exact indexed.lt_index
          right
          rw [truncateConflicting_of_beyond beyond, ← same]
          refine ⟨?_, List.prefix_refl _, List.prefix_append _ _⟩
          intro whole
          have lengths := whole.length_le
          simp at lengths
      | cons present rest =>
          have here : state.log[front.length]? = some present := by
            rw [← same]
            simp
          have found : state.getTerm entry.index = some present.term := by
            rw [getTerm_eq_some_iff, index]
            exact ⟨Nat.succ_pos _, present, here, rfl⟩
          rw [PersistentState.truncateConflicting, found]
          dsimp only
          split
          next differs =>
            right
            have kept : (state.truncateFrom entry.index).log = front := by
              rw [PersistentState.truncateFrom, index, ← same]
              simp
            rw [kept]
            refine ⟨?_, List.prefix_refl _, List.prefix_append _ _⟩
            rintro ⟨tail, whole⟩
            have inSegment : state.log[front.length]? = some entry := by
              rw [← whole]
              simp
            rw [here] at inSegment
            cases inSegment
            exact differs rfl
          next equal =>
            have isSame : present = entry :=
              matching front.length present entry here (by simp) (of_not_not equal)
            rw [shape] at indexed matching ⊢
            have longer : front ++ [entry] <+: state.log := by
              rw [← same, isSame]
              exact ⟨rest, by simp⟩
            rcases ih indexed longer matching with whole | ⟨missing, kept, part⟩
            · exact .inl whole
            · exact .inr ⟨missing, (List.prefix_append _ _).trans kept, part⟩

theorem appendNew_of_present {entries : List LogEntry} (indexed : Indexed state.log)
    (present : ∀ entry ∈ entries, entry.index ≤ state.log.length) :
    state.appendNew entries = (state, 0) := by
  induction entries with
  | nil => rfl
  | cons entry entries ih =>
      have inside := present entry List.mem_cons_self
      rw [PersistentState.appendNew, indexed.lastLogIndex_eq, if_neg (not_lt_of_ge inside)]
      exact ih fun other member => present other (List.mem_cons_of_mem _ member)

/-- Appending a segment of which the log has a part. -/
theorem appendNew_segment {entries : List LogEntry} (indexed : Indexed (front ++ entries))
    (agrees : front <+: state.log) (part : state.log <+: front ++ entries) :
    (state.appendNew entries).1.log = front ++ entries := by
  induction entries generalizing front state with
  | nil =>
      rw [List.append_nil] at part ⊢
      exact part.eq_of_length_le agrees.length_le
  | cons entry entries ih =>
      have index := indexed.index_eq
      have shape : front ++ entry :: entries = (front ++ [entry]) ++ entries := by simp
      rw [PersistentState.appendNew, (indexed.of_isPrefix part).lastLogIndex_eq, index]
      rw [shape] at indexed part ⊢
      split
      next short =>
        have same : front = state.log := agrees.eq_of_length_le (by omega)
        dsimp only
        rw [← same]
        exact ih indexed (List.prefix_refl _) (List.prefix_append _ _)
      next long =>
        apply ih indexed _ part
        apply List.prefix_of_prefix_length_le (List.prefix_append _ _) part
        simp
        omega

theorem merge_segment {entries : List LogEntry} (indexed : Indexed state.log)
    (segmentIndexed : Indexed (front ++ entries)) (agrees : front <+: state.log)
    (matching : ∀ (position : Nat) (left right : LogEntry), state.log[position]? = some left →
      (front ++ entries)[position]? = some right → left.term = right.term → left = right) :
    Merged state.log (front ++ entries) (state.merge entries).log := by
  rw [PersistentState.merge]
  rcases truncateConflicting_segment segmentIndexed agrees matching with
    ⟨whole, same⟩ | ⟨missing, kept, part⟩
  · left
    refine ⟨whole, ?_⟩
    have present : ∀ entry ∈ entries, entry.index ≤ state.log.length := by
      intro entry member
      exact indexed.index_le (whole.subset (List.mem_append_right _ member))
    rw [same, appendNew_of_present indexed present]
  · exact .inr ⟨missing, appendNew_segment segmentIndexed kept part⟩

end Merge

section Requests

/-- The log up to the end of the entries of a request. -/
def AppendEntriesRequest.segment (request : AppendEntriesRequest) (log : List LogEntry) :
    List LogEntry :=
  log.take request.prevLogIndex ++ request.entries

/-- The request is a slice of the log. -/
structure AppendEntriesRequest.Slices (request : AppendEntriesRequest) (log : List LogEntry) :
    Prop where
  start : request.prevLogIndex ≤ log.length
  inside : request.segment log <+: log
  prevTerm : 0 < request.prevLogIndex →
    ∃ entry, log[request.prevLogIndex - 1]? = some entry ∧ entry.term = request.prevLogTerm

variable {request : AppendEntriesRequest} {log longer : List LogEntry}

theorem segment_mono (start : request.prevLogIndex ≤ log.length) (grows : log <+: longer) :
    request.segment longer = request.segment log := by
  obtain ⟨rest, rfl⟩ := grows
  rw [AppendEntriesRequest.segment, List.take_append_of_le_length start]
  rfl

theorem AppendEntriesRequest.Slices.mono (slices : request.Slices log) (grows : log <+: longer) :
    request.Slices longer := by
  refine ⟨slices.start.trans grows.length_le, ?_, ?_⟩
  · rw [segment_mono slices.start grows]
    exact slices.inside.trans grows
  · intro positive
    obtain ⟨entry, found, own⟩ := slices.prevTerm positive
    obtain ⟨rest, rfl⟩ := grows
    refine ⟨entry, ?_, own⟩
    have start := slices.start
    rw [List.getElem?_append_left (by omega)]
    exact found

/-- The last index that a request covers is the length of its segment. -/
theorem lastNewIndex_eq (indexed : Indexed log) (slices : request.Slices log) :
    request.lastNewIndex = (request.segment log).length := by
  have segmentIndexed := indexed.of_isPrefix slices.inside
  rw [AppendEntriesRequest.segment] at segmentIndexed ⊢
  rw [AppendEntriesRequest.lastNewIndex]
  rcases List.eq_nil_or_concat request.entries with empty | ⟨older, last, shape⟩
  · rw [empty]
    simp [slices.start]
  · rw [List.concat_eq_append] at shape
    rw [shape, ← List.append_assoc] at segmentIndexed ⊢
    simp [segmentIndexed.index_eq]
    omega

theorem getEntries_segment {state : PersistentState} {startIndex endIndex : Nat}
    {entries : List LogEntry} (slice : state.getEntries startIndex endIndex = some entries) :
    state.log.take (startIndex - 1) ++ entries <+: state.log := by
  rw [PersistentState.getEntries] at slice
  split at slice
  next =>
    cases slice
    rw [List.append_nil]
    exact List.take_prefix _ _
  next =>
    split at slice
    next inside =>
      cases slice
      have start : state.log.take (startIndex - 1) =
          (state.log.take (min endIndex state.log.length)).take (startIndex - 1) := by
        rw [List.take_take, Nat.min_eq_left inside]
      rw [start, List.take_append_drop]
      exact List.take_prefix _ _
    next => exact absurd slice (by simp)

theorem heartbeatRequest_slices {node : RaftNode} {peer : NodeId} {leader : LeaderState}
    (isLeader : node.leaderState = some leader)
    (next : (leader.nextIndex.get peer).getD 1 ≤ node.persistent.log.length + 1)
    (sending : node.heartbeatRequest peer = some request) :
    node.state = .leader ∧ request.term = node.persistent.currentTerm ∧
      request.leaderCommit = node.commitIndex ∧ request.Slices node.persistent.log := by
  rw [RaftNode.heartbeatRequest] at sending
  split at sending
  next leads =>
    rw [isLeader] at sending
    dsimp only at sending
    generalize (leader.nextIndex.get peer).getD 1 = nextIndex at next sending
    obtain ⟨entries, slice, rfl⟩ := Option.map_eq_some_iff.mp sending
    refine ⟨of_decide_eq_true leads, rfl, rfl, ?_, ?_, ?_⟩
    · dsimp only
      omega
    · split at slice
      · exact getEntries_segment slice
      · cases slice
        rw [AppendEntriesRequest.segment, List.append_nil]
        exact List.take_prefix _ _
    · dsimp only
      intro positive
      have inside : nextIndex - 1 - 1 < node.persistent.log.length := by omega
      have found := List.getElem?_eq_getElem inside
      refine ⟨_, found, ?_⟩
      have term := getTerm_eq_some_iff.mpr ⟨positive, _, found, rfl⟩
      rw [term]
      rfl
  next => exact absurd sending (by simp)

end Requests

end JouleDB.Raft
