import JouleDB.Lib.Run
import JouleDB.Raft.Acknowledge
import JouleDB.Raft.Replication
import JouleDB.Raft.Snapshot

/-!
# Compacting the log

Taking a snapshot drops the front of the log, and installing one replaces the log by a placeholder.
Afterwards the first entry of the log has another index than one, but the accessors go on to take
the position of an entry for its index.
-/

namespace JouleDB.Raft

namespace PersistentState

/-- Append entries as they are. -/
def appendEntries (state : PersistentState) (entries : List LogEntry) : PersistentState :=
  { state with log := state.log ++ entries }

/-- Drop the entries up to an index, and give the others new indices. -/
def compactUntil (state : PersistentState) (index : Nat) : PersistentState :=
  if 0 < index ∧ index ≤ state.log.length then
    { state with
      log := (state.log.drop index).mapIdx fun position entry =>
        { entry with index := position + 1 + index } }
  else
    state

/-- Replace the log by a placeholder for the last entry of a snapshot. -/
def installSnapshot (state : PersistentState) (request : InstallSnapshotRequest) :
    PersistentState :=
  { state with log := RaftNode.placeholderLog request }

end PersistentState

/-- Take a snapshot of what is applied and compact the log; `machineSnapshot` gives the contents
of the state machine. -/
def RaftNode.takeSnapshot (machineSnapshot : List MachineCall → Bytes) (node : RaftNode) :
    Except RaftError Snapshot × RaftNode :=
  if node.lastApplied = 0 then
    (.error (.snapshotError "No entries applied yet"), node)
  else
    match node.persistent.getTerm node.lastApplied with
    | none => (.error (.snapshotError "No term for last applied"), node)
    | some lastTerm =>
        let data := machineSnapshot node.stateMachine
        let snapshot : Snapshot :=
          ⟨node.lastApplied, lastTerm, node.clusterConfig, data.length, data⟩
        let persistent := node.persistent.compactUntil node.lastApplied
        -- no new entries, just a checkpoint
        let (persisted, storage) := node.storage.persistStateSync persistent 0
        let node := { node with
          snapshot := some snapshot, persistent := persistent, storage := storage }
        match persisted with
        | .error error => (.error error, node)
        | .ok _ => (.ok snapshot, node)

/-- A call on the log. -/
inductive LogCall where
  | appendEntries (entries : List LogEntry)
  | push (command : Command)
  | appendNew (entries : List LogEntry)
  | truncateFrom (index : Nat)
  | compactUntil (index : Nat)
  | installSnapshot (request : InstallSnapshotRequest)
  | getEntries (startIndex endIndex : Nat)
  deriving DecidableEq

/-- The entries of a log have consecutive indices, beginning with a given one. -/
def Numbered (first : Nat) (log : List LogEntry) : Prop :=
  log.map (·.index) = List.range' first log.length

section Numbers

variable {log : List LogEntry} {first : Nat}

theorem numbered_cons_iff {entry : LogEntry} :
    Numbered first (entry :: log) ↔ entry.index = first ∧ Numbered (first + 1) log := by
  rw [Numbered, Numbered, List.map_cons, List.length_cons, List.range'_succ, List.cons.injEq]

theorem numbered_append_iff {back : List LogEntry} :
    Numbered first (log ++ back) ↔ Numbered first log ∧ Numbered (first + log.length) back := by
  induction log generalizing first with
  | nil => simp [Numbered]
  | cons entry log ih =>
      rw [List.cons_append, numbered_cons_iff, numbered_cons_iff, ih, List.length_cons, and_assoc,
        Nat.add_right_comm, Nat.add_assoc]

theorem indexed_iff_numbered : Indexed log ↔ Numbered 1 log := by
  rw [Numbered]
  constructor
  · intro indexed
    apply List.ext_getElem
    · simp
    · intro position inside _
      rw [List.getElem_map, List.getElem_range', indexed position _ (List.getElem?_eq_getElem _)]
      omega
  · intro numbered position entry found
    have there := congrArg (·[position]?) numbered
    obtain ⟨inside, _⟩ := List.getElem?_eq_some_iff.mp found
    simp only [List.getElem?_map, found, Option.map_some, List.getElem?_range' inside,
      Option.some.injEq] at there
    omega

theorem Numbered.filter_lt (numbered : Numbered first log) (index : Nat) :
    log.filter (index < ·.index) = log.drop (index + 1 - first) := by
  induction log generalizing first with
  | nil => simp
  | cons entry log ih =>
      obtain ⟨own, rest⟩ := numbered_cons_iff.mp numbered
      rcases Nat.lt_or_ge index first with before | behind
      · have none : index + 1 - first = 0 := by omega
        have later : index + 1 - (first + 1) = 0 := by omega
        rw [List.filter_cons_of_pos (by simpa [own] using before), ih rest, none, later]
        rfl
      · have more : index + 1 - first = index + 1 - (first + 1) + 1 := by omega
        rw [List.filter_cons_of_neg (by simpa [own] using behind), ih rest, more]
        rfl

theorem Numbered.filter_between (numbered : Numbered first log) (startIndex endIndex : Nat) :
    log.filter (fun entry => startIndex ≤ entry.index ∧ entry.index ≤ endIndex) =
      (log.take (endIndex + 1 - first)).drop (startIndex - first) := by
  induction log generalizing first with
  | nil => simp
  | cons entry log ih =>
      obtain ⟨own, rest⟩ := numbered_cons_iff.mp numbered
      rcases Nat.lt_or_ge endIndex first with before | behind
      · have none : endIndex + 1 - first = 0 := by omega
        have later : endIndex + 1 - (first + 1) = 0 := by omega
        have outside : ¬(startIndex ≤ entry.index ∧ entry.index ≤ endIndex) := by omega
        rw [List.filter_cons_of_neg (by simpa using outside), ih rest, none, later]
        simp
      · have more : endIndex + 1 - first = endIndex + 1 - (first + 1) + 1 := by omega
        rcases Nat.lt_or_ge first startIndex with early | late
        · have skipped : startIndex - first = startIndex - (first + 1) + 1 := by omega
          have outside : ¬(startIndex ≤ entry.index ∧ entry.index ≤ endIndex) := by omega
          rw [List.filter_cons_of_neg (by simpa using outside), ih rest, more, skipped]
          rfl
        · have here : startIndex - first = 0 := by omega
          have later : startIndex - (first + 1) = 0 := by omega
          have inside : startIndex ≤ entry.index ∧ entry.index ≤ endIndex := by omega
          rw [List.filter_cons_of_pos (by simpa using inside), ih rest, more, here, later]
          rfl

end Numbers

namespace PersistentState

/-- The state after a call. -/
def perform (state : PersistentState) : LogCall → PersistentState
  | .appendEntries entries => state.appendEntries entries
  | .push command => state.push command
  | .appendNew entries => (state.appendNew entries).1
  | .truncateFrom index => state.truncateFrom index
  | .compactUntil index => state.compactUntil index
  | .installSnapshot request => state.installSnapshot request
  | .getEntries _ _ => state

/-- The indices are consecutive, an entry that is found has the index that was asked for, and every
entry is found at its index. -/
structure Sound (state : PersistentState) : Prop where
  consecutive : ∃ first, Numbered first state.log
  found : ∀ index entry, state.getEntry index = some entry → entry.index = index
  finds : ∀ entry ∈ state.log, state.getEntry entry.index = some entry

/-- What a call has to do: a compaction removes the entries up to an index and changes nothing
about the others, and does not take the last index back; reading gives the entries between two
indices. -/
def Right (state : PersistentState) : LogCall → Prop
  | .compactUntil index =>
      (state.compactUntil index).log = state.log.filter (index < ·.index) ∧
        state.lastLogIndex ≤ (state.compactUntil index).lastLogIndex
  | .getEntries startIndex endIndex =>
      state.getEntries startIndex endIndex =
        some (state.log.filter fun entry => startIndex ≤ entry.index ∧ entry.index ≤ endIndex)
  | _ => True

/-- In a run of calls, every call does what it has to do, and every state is sound. -/
def Indexes (state : PersistentState) (calls : List LogCall) : Prop :=
  state.Sound ∧
    AllMeet perform (fun state call => state.Right call ∧ (state.perform call).Sound) state calls

/-- Received entries that lie behind the end of a log leave no gap. -/
def Continues (last : Nat) : List LogEntry → Prop
  | [] => True
  | entry :: entries =>
      if last < entry.index then entry.index = last + 1 ∧ Continues entry.index entries
      else Continues last entries

/-- A call that the positions of the entries survive: what is appended continues the log, nothing
is compacted, a snapshot ends at the first index, and what is read begins in the log or right behind
it. -/
def Keeps (state : PersistentState) : LogCall → Prop
  | .appendEntries entries =>
      entries.map (·.index) = List.range' (state.lastLogIndex + 1) entries.length
  | .appendNew entries => Continues state.lastLogIndex entries
  | .compactUntil index => index = 0 ∨ state.log = []
  | .installSnapshot request => request.lastIncludedIndex = 1
  | .getEntries startIndex endIndex =>
      (startIndex = 0 → endIndex = 0 ∨ state.log = []) ∧
        (startIndex ≤ endIndex → startIndex ≤ state.log.length + 1)
  | _ => True

section Calls

variable {state : PersistentState}

/-- A state is sound exactly if every entry carries its position. -/
theorem sound_iff_indexed : state.Sound ↔ Indexed state.log := by
  constructor
  · rintro ⟨⟨first, numbered⟩, _, finds⟩
    cases shape : state.log with
    | nil => exact Indexed.nil
    | cons entry log =>
        -- the first entry is found at its index, where the entry has an index of its own
        have here := finds entry (by rw [shape]; exact List.mem_cons_self)
        rw [shape] at numbered
        have own := (numbered_cons_iff.mp numbered).1
        rw [getEntry] at here
        split at here
        next => exact absurd here (by simp)
        next inside =>
          rw [shape] at here
          have there := congrArg (·[entry.index - 1]?) numbered
          obtain ⟨within, _⟩ := List.getElem?_eq_some_iff.mp here
          simp only [List.getElem?_map, here, Option.map_some, List.getElem?_range' within,
            Option.some.injEq] at there
          have isFirst : first = 1 := by omega
          rw [isFirst] at numbered
          exact indexed_iff_numbered.mpr numbered
  · intro indexed
    refine ⟨⟨1, indexed_iff_numbered.mp indexed⟩, ?_, ?_⟩
    · intro index entry found
      rw [getEntry] at found
      split at found
      next => exact absurd found (by simp)
      next inside =>
        have own := indexed _ entry found
        omega
    · intro entry member
      obtain ⟨positive, found⟩ := indexed.getElem?_index member
      have inside := indexed.index_le member
      rw [getEntry, if_neg (by omega)]
      exact found

theorem lastLogIndex_nil (empty : state.log = []) : state.lastLogIndex = 0 := by
  rw [lastLogIndex, empty]
  rfl

/-- Appending to a log whose entries carry their positions. -/
theorem indexed_append_iff (indexed : Indexed state.log) (entries : List LogEntry) :
    Indexed (state.log ++ entries) ↔
      entries.map (·.index) = List.range' (state.lastLogIndex + 1) entries.length := by
  rw [indexed_iff_numbered, numbered_append_iff, indexed.lastLogIndex_eq, Nat.add_comm 1]
  exact and_iff_right (indexed_iff_numbered.mp indexed)

theorem indexed_appendNew_iff (indexed : Indexed state.log) (entries : List LogEntry) :
    Indexed (state.appendNew entries).1.log ↔ Continues state.lastLogIndex entries := by
  induction entries generalizing state with
  | nil => exact iff_of_true indexed trivial
  | cons entry entries ih =>
      rw [appendNew, Continues]
      split
      next behind =>
        obtain ⟨added, appended, _⟩ :=
          appendNew_eq { state with log := state.log ++ [entry] } entries
        have single := indexed_append_iff indexed [entry]
        have own : [entry].map (·.index) = List.range' (state.lastLogIndex + 1) [entry].length ↔
            entry.index = state.lastLogIndex + 1 := by simp
        have last : PersistentState.lastLogIndex { state with log := state.log ++ [entry] } =
            entry.index := by
          simp [lastLogIndex]
        constructor
        · intro whole
          dsimp only at whole
          have front : Indexed (state.log ++ [entry]) := by
            apply whole.of_isPrefix
            rw [appended]
            exact List.prefix_append _ _
          refine ⟨own.mp (single.mp front), ?_⟩
          rw [← last]
          exact (ih front).mp whole
        · rintro ⟨next, continues⟩
          have front := single.mpr (own.mpr next)
          rw [← last] at continues
          exact (ih front).mpr continues
      next => exact ih indexed

theorem indexed_truncateFrom (indexed : Indexed state.log) (index : Nat) :
    Indexed (state.truncateFrom index).log := by
  rw [truncateFrom]
  split
  · exact indexed.of_isPrefix (List.take_prefix _ _)
  · exact indexed

theorem indexed_installSnapshot_iff (request : InstallSnapshotRequest) :
    Indexed (state.installSnapshot request).log ↔ request.lastIncludedIndex = 1 := by
  rw [indexed_iff_numbered, installSnapshot, RaftNode.placeholderLog]
  simp [Numbered]

/-- Compacting a log whose entries carry their positions: nothing is left right. -/
theorem compactUntil_iff (indexed : Indexed state.log) (index : Nat) :
    state.Right (.compactUntil index) ∧ Indexed (state.compactUntil index).log ↔
      index = 0 ∨ state.log = [] := by
  have numbered := indexed_iff_numbered.mp indexed
  rw [Right, numbered.filter_lt, Nat.add_sub_cancel]
  constructor
  · rintro ⟨⟨same, last⟩, after⟩
    by_contra some
    obtain ⟨positive, nonempty⟩ := not_or.mp some
    have long := List.length_pos_iff.mpr nonempty
    rw [indexed.lastLogIndex_eq] at last
    rw [compactUntil] at same last after
    by_cases inside : 0 < index ∧ index ≤ state.log.length
    · rw [if_pos inside] at last after
      rcases inside.2.lt_or_eq with less | all
      · -- the first entry that is left keeps its index, which is not one
        have first := after 0 _ (by
          rw [List.getElem?_mapIdx, List.getElem?_drop,
            List.getElem?_eq_getElem (by omega : index + 0 < state.log.length)]
          rfl)
        dsimp only at first
        omega
      · -- nothing is left, and the next index is one again
        rw [lastLogIndex_nil (by simp [all])] at last
        omega
    · rw [if_neg inside] at same
      rw [same] at long
      have beyond : state.log.length ≤ index := by omega
      rw [List.drop_eq_nil_of_le beyond] at long
      exact absurd long (by simp)
  · intro idle
    have same : state.compactUntil index = state := by
      rw [compactUntil, if_neg]
      rcases idle with rfl | empty
      · omega
      · rw [empty, List.length_nil]
        omega
    rw [same]
    refine ⟨⟨?_, le_refl _⟩, indexed⟩
    rcases idle with rfl | empty
    · rfl
    · rw [empty, List.drop_nil]

/-- Reading from a log whose entries carry their positions. -/
theorem getEntries_iff (indexed : Indexed state.log) (startIndex endIndex : Nat) :
    state.Right (.getEntries startIndex endIndex) ↔
      state.Keeps (.getEntries startIndex endIndex) := by
  rw [Right, Keeps, (indexed_iff_numbered.mp indexed).filter_between, Nat.add_sub_cancel, getEntries]
  by_cases zero : startIndex = 0
  · rw [if_pos (.inl zero), zero]
    have some : (some [] = some ((state.log.take endIndex).drop (0 - 1))) ↔
        endIndex = 0 ∨ state.log = [] := by
      rw [Option.some.injEq, eq_comm, List.drop_zero, List.take_eq_nil_iff]
    rw [some]
    simp
  · by_cases empty : endIndex < startIndex
    · rw [if_pos (.inr empty), List.drop_eq_nil_of_le (by rw [List.length_take]; omega)]
      simp only [true_iff]
      exact ⟨fun isZero => absurd isZero zero, fun reached => absurd reached (not_le.mpr empty)⟩
    · rw [if_neg (by omega)]
      split
      next inside =>
        have whole : state.log.take (min endIndex state.log.length) = state.log.take endIndex :=
          List.take_eq_take_iff.mpr (by omega)
        rw [whole]
        simp only [true_iff]
        exact ⟨fun isZero => absurd isZero zero, fun _ => by omega⟩
      next beyond =>
        simp only [reduceCtorEq, false_iff]
        rintro ⟨_, reached⟩
        have inside := reached (by omega)
        omega

theorem right_iff_keeps (call : LogCall) (sound : state.Sound) :
    state.Right call ∧ (state.perform call).Sound ↔ state.Keeps call := by
  have indexed := sound_iff_indexed.mp sound
  rw [sound_iff_indexed]
  cases call with
  | appendEntries entries => exact (and_iff_right trivial).trans (indexed_append_iff indexed entries)
  | push command => exact iff_of_true ⟨trivial, indexed.push command⟩ trivial
  | appendNew entries => exact (and_iff_right trivial).trans (indexed_appendNew_iff indexed entries)
  | truncateFrom index => exact iff_of_true ⟨trivial, indexed_truncateFrom indexed index⟩ trivial
  | compactUntil index => exact compactUntil_iff indexed index
  | installSnapshot request => exact (and_iff_right trivial).trans (indexed_installSnapshot_iff request)
  | getEntries startIndex endIndex =>
      exact (and_iff_left indexed).trans (getEntries_iff indexed startIndex endIndex)

end Calls

/-- In a run of calls on a log, every state is sound and every call does what it has to do, exactly
if the run begins with a sound log and the positions of the entries survive every call. -/
theorem indexes_iff (state : PersistentState) (calls : List LogCall) :
    state.Indexes calls ↔ state.Sound ∧ AllMeet perform Keeps state calls := by
  apply and_congr_right
  intro sound
  exact AllMeet.congr (fun state call sound => state.right_iff_keeps call sound)
    (fun _ _ _ right => right.2) sound calls

/-- A log of four entries. -/
def fourEntries : PersistentState :=
  ([.noop, .noop, .noop, .noop] : List Command).foldl push new

/-- After the first compaction the entry with index 3 is found at index 2; a compaction of the whole
log makes the next index one again; a second compaction drops an entry behind its index; and
reading behind the end of the log panics. -/
theorem not_indexes :
    ¬new.Indexes (.replicate 4 (.push .noop) ++ [.compactUntil 1]) ∧
    ¬new.Indexes (.replicate 4 (.push .noop) ++ [.compactUntil 4]) ∧
    ¬new.Indexes [.getEntries 2 2] ∧
    ¬(fourEntries.compactUntil 1).Right (.compactUntil 2) := by
  refine ⟨?_, ?_, ?_, ?_⟩
  · rintro ⟨_, _, _, _, _, ⟨_, sound⟩, _⟩
    exact absurd (sound.found 2 ⟨0, 3, .noop⟩ (by decide)) (by decide)
  · rintro ⟨_, _, _, _, _, ⟨⟨_, last⟩, _⟩, _⟩
    exact absurd last (by decide)
  · rintro ⟨_, ⟨whole, _⟩, _⟩
    have reads : new.getEntries 2 2 = some [] := whole
    exact absurd reads (by decide)
  · rintro ⟨same, _⟩
    exact absurd same (by decide)

end PersistentState

namespace RaftNode

variable {node : RaftNode} {machineSnapshot : List MachineCall → Bytes}

/-- A node that takes a snapshot of a sound log does not keep it right. -/
theorem not_right_of_takeSnapshot {snapshot : Snapshot} (sound : node.persistent.Sound)
    (taken : (node.takeSnapshot machineSnapshot).1 = .ok snapshot) :
    ¬(node.persistent.Right (.compactUntil node.lastApplied) ∧
      (node.takeSnapshot machineSnapshot).2.persistent.Sound) := by
  rw [takeSnapshot] at taken ⊢
  split at taken
  next => exact absurd taken (by simp)
  next some =>
    rw [if_neg some]
    cases found : node.persistent.getTerm node.lastApplied with
    | none =>
        rw [found] at taken
        exact absurd taken (by simp)
    | some term =>
        obtain ⟨_, entry, there, _⟩ := getTerm_eq_some_iff.mp found
        have compacted : ¬node.persistent.Keeps (.compactUntil node.lastApplied) := by
          rintro (isZero | empty)
          · exact some isZero
          · rw [empty] at there
            exact absurd there (by simp)
        rw [← node.persistent.right_iff_keeps _ sound] at compacted
        dsimp only
        split <;> exact compacted

end RaftNode

end JouleDB.Raft
