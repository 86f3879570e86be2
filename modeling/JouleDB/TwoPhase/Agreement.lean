import JouleDB.Lib.Run
import JouleDB.TwoPhase.Settled

/-!
# Agreement of two-phase commit
-/

namespace JouleDB.TwoPhase

section Participants

variable {σ : Type} {storage : ParticipantStorage σ} {coordinator : Coordinator}
  {participant : Participant σ} {id : TransactionId}

namespace Participant.Sound

theorem put (sound : participant.Sound coordinator) (known : coordinator.Known id)
    {transaction : ParticipantTransaction} : (participant.put id transaction).Sound coordinator where
  known other held found := by
    rw [Participant.put, Std.ExtTreeMap.getElem?_insert] at found
    split at found
    next equal =>
      rw [Std.LawfulEqCmp.compare_eq_iff_eq] at equal
      exact equal ▸ known
    next => exact sound.known other held found
  committed := sound.committed
  rolledBack := sound.rolledBack

theorem setState (sound : participant.Sound coordinator) {state : TransactionState} :
    (participant.setState id state).Sound coordinator := by
  rw [Participant.setState]
  split
  next transaction found => exact sound.put (sound.known id transaction found)
  next => exact sound

theorem storagePrepare (sound : participant.Sound coordinator)
    (operations : List TransactionOperation) :
    (participant.storagePrepare storage id operations).2.2.Sound coordinator := by
  have kept : ∀ data, Participant.Sound coordinator { participant with
      storage := data, calls := participant.calls ++ [.prepare id participant.storage] } := by
    intro data
    constructor
    · exact sound.known
    · intro other lsn before member
      exact sound.committed other lsn before (by simpa using member)
    · intro other lsn before member
      exact sound.rolledBack other lsn before (by simpa using member)
  dsimp only [Participant.storagePrepare]
  split
  · exact kept _
  · exact kept _

theorem storageCommit (sound : participant.Sound coordinator)
    (settled : coordinator.Settled id true) (lsn : Option LogSequenceNumber) :
    (participant.storageCommit storage id lsn).2.Sound coordinator := by
  cases lsn with
  | none => exact sound
  | some lsn =>
      constructor
      · exact sound.known
      · intro other number before member
        rcases List.mem_append.mp member with old | new
        · exact sound.committed other number before old
        · cases List.mem_singleton.mp new
          exact settled
      · intro other number before member
        apply sound.rolledBack other number before
        simpa [Participant.storageCommit] using member

theorem storageRollback (sound : participant.Sound coordinator)
    (settled : coordinator.Settled id false) (lsn : Option LogSequenceNumber) :
    (participant.storageRollback storage id lsn).2.Sound coordinator := by
  cases lsn with
  | none => exact sound
  | some lsn =>
      constructor
      · exact sound.known
      · intro other number before member
        apply sound.committed other number before
        simpa [Participant.storageRollback] using member
      · intro other number before member
        rcases List.mem_append.mp member with old | new
        · exact sound.rolledBack other number before old
        · cases List.mem_singleton.mp new
          exact settled

end Participant.Sound

/-- What a section of a participant leaves behind. -/
structure ParticipantSectionSound (coordinator : Coordinator)
    (result : Participant σ × List Envelope × Option ParticipantTask) : Prop where
  sound : result.1.Sound coordinator
  messages : ∀ envelope ∈ result.2.1, envelope.2.Sound coordinator
  left : ∀ next ∈ result.2.2, next.Sound coordinator

namespace ParticipantSectionSound

theorem silent {task : ParticipantTask} (sound : participant.Sound coordinator)
    (left : task.Sound coordinator) :
    ParticipantSectionSound coordinator (participant, [], some task) where
  sound := sound
  messages := by simp
  left := by
    intro next member
    cases member
    exact left

theorem ended (sound : participant.Sound coordinator) {messages : List Envelope}
    (sends : ∀ envelope ∈ messages, envelope.2.Sound coordinator) :
    ParticipantSectionSound coordinator (participant, messages, none) where
  sound := sound
  messages := sends
  left := by simp

end ParticipantSectionSound

theorem uncertain_sound (sound : participant.Sound coordinator) (expired : List TransactionId) :
    ParticipantTask.Sound coordinator (.querySend (participant.uncertain expired)) := by
  intro query member
  rw [Participant.uncertain, List.mem_filterMap] at member
  obtain ⟨id, _, chosen⟩ := member
  split at chosen
  next transaction found =>
    split at chosen
    next =>
      cases chosen
      exact sound.known id transaction found
    next => cases chosen
  next => cases chosen

/-- A section of a participant applies and rolls back only what was settled. -/
theorem participantSectionSound (expired : List TransactionId) {task : ParticipantTask}
    (sound : participant.Sound coordinator) (taskSound : task.Sound coordinator) :
    ParticipantSectionSound coordinator (participant.runSection storage expired task) := by
  have same : ∀ id record, (participant.log id record).Sound coordinator := by
    intro id record
    exact ⟨sound.known, sound.committed, sound.rolledBack⟩
  cases task with
  | prepareLog id coordinatorId operations => exact .silent (same _ _) taskSound
  | prepareInsert id coordinatorId operations =>
      exact .silent ((sound.put taskSound).storagePrepare operations) trivial
  | prepareUpdate id coordinatorId vote lsn =>
      apply ParticipantSectionSound.silent
      · split
        next transaction found => exact sound.put (sound.known id transaction found)
        next => exact sound
      · trivial
  | voteLog id coordinatorId vote lsn => exact .silent (same _ _) trivial
  | voteSend id coordinatorId vote lsn =>
      exact .ended sound (List.forall_mem_singleton.mpr trivial)
  | commitLog id coordinatorId => exact .silent (same _ _) taskSound
  | commitApply id coordinatorId =>
      dsimp only [Participant.runSection]
      split
      · exact .ended sound (by simp)
      next transaction found =>
        apply ParticipantSectionSound.silent
        · exact (sound.put (sound.known id transaction found)).storageCommit taskSound _
        · split
          · trivial
          · trivial
  | appliedLog id coordinatorId => exact .silent (same _ _) trivial
  | commitUpdate id coordinatorId success => exact .silent sound.setState trivial
  | abortLog id coordinatorId => exact .silent (same _ _) taskSound
  | abortApply id coordinatorId =>
      dsimp only [Participant.runSection]
      split
      · exact .silent sound trivial
      next transaction found =>
        apply ParticipantSectionSound.silent
        · exact (sound.put (sound.known id transaction found)).storageRollback taskSound _
        · trivial
  | abortUpdate id coordinatorId success => exact .silent sound.setState trivial
  | ackSend id coordinatorId success error =>
      exact .ended sound (List.forall_mem_singleton.mpr trivial)
  | timeoutScan => exact .silent sound (uncertain_sound sound expired)
  | querySend queries =>
      cases queries with
      | nil => exact .ended sound (by simp)
      | cons query queries =>
          have known := List.forall_mem_cons.mp taskSound
          refine ⟨sound, List.forall_mem_singleton.mpr known.1, ?_⟩
          intro next member
          cases member
          exact known.2

end Participants

/-- Two tasks do not both start the prepare phase of one transaction. -/
def CoordinatorTask.Apart (first second : CoordinatorTask) : Prop :=
  ∀ id, first = .prepareStart id → second ≠ .prepareStart id

theorem CoordinatorTask.Apart.symm {first second : CoordinatorTask} (apart : first.Apart second) :
    second.Apart first := by
  intro id isSecond isFirst
  exact apart id isFirst isSecond

namespace World

variable {σ : Type} {storage : ParticipantStorage σ} {world : World σ}

/-- All that speaks for commit or abort of a transaction agrees with the settled votes. -/
structure Sound (world : World σ) : Prop where
  coordinator : world.coordinator.Sound
  log : ∀ id commit, world.Decided id commit → world.coordinator.Settled id commit
  tasks : ∀ task ∈ world.coordinatorTasks, task.Sound world.coordinator
  starts : world.coordinatorTasks.Pairwise CoordinatorTask.Apart
  sent : ∀ envelope ∈ world.sent, envelope.2.Sound world.coordinator
  participants : ∀ id, (world.participants id).Sound world.coordinator
  participantTasks : ∀ entry ∈ world.participantTasks, entry.2.Sound world.coordinator

/-- A step runs an allowed section, if it runs one of the coordinator at all. -/
def Allows (world : World σ) : Step → Prop
  | .coordinatorRuns position _ =>
      ∀ task, world.coordinatorTasks[position]? = some task → task.Allowed world.coordinator
  | _ => True

instance (world : World σ) : ∀ action, Decidable (world.Allows action)
  | .coordinatorRuns position _ =>
      inferInstanceAs (Decidable (∀ task ∈ world.coordinatorTasks[position]?,
        task.Allowed world.coordinator))
  | .beginTransaction .. | .abortTransaction .. | .checkTimeouts | .checkDecisionTimeouts ..
  | .deliver .. | .participantRuns .. => .isTrue trivial

theorem start_sound (coordinatorId : ParticipantId) (maxRetries : Nat)
    (data : ParticipantId → σ) : (World.start coordinatorId maxRetries data).Sound where
  coordinator := by
    intro id transaction found
    simp [World.start, Coordinator.new] at found
  log := by
    intro id commit member
    cases member
  tasks := by simp [World.start]
  starts := List.Pairwise.nil
  sent := by simp [World.start]
  participants := by
    intro id
    constructor
    · intro other transaction found
      simp [World.start, Participant.new] at found
    · intro other lsn before member
      cases member
    · intro other lsn before member
      cases member
  participantTasks := by simp [World.start]

theorem Sound.spawn (sound : world.Sound) {task : CoordinatorTask}
    (follows : task.Follows world.coordinator) : (world.spawn task).Sound where
  coordinator := sound.coordinator
  log := sound.log
  tasks := by
    intro other member
    rcases List.mem_append.mp member with old | new
    · exact sound.tasks other old
    · rw [List.mem_singleton.mp new]
      exact follows.1
  starts := by
    apply List.pairwise_append.mpr
    refine ⟨sound.starts, List.pairwise_singleton _ _, ?_⟩
    intro first _ second member id _
    rw [List.mem_singleton.mp member]
    exact follows.2 id
  sent := sound.sent
  participants := sound.participants
  participantTasks := sound.participantTasks

/-- A counter of transaction ids plays no part. -/
theorem Sound.counted (sound : world.Sound) (count : Nat) :
    Sound { world with coordinator := { world.coordinator with txnCounter := count } } where
  coordinator := sound.coordinator
  log := sound.log
  tasks := by
    intro task member
    have holds := sound.tasks task member
    by_cases isStart : ∃ id, task = .prepareStart id
    · obtain ⟨id, rfl⟩ := isStart
      exact holds
    · apply holds.mono (.of_eq rfl)
      intro id same
      exact isStart ⟨id, same⟩
  starts := sound.starts
  sent := by
    intro envelope member
    exact (sound.sent envelope member).mono (.of_eq rfl)
  participants := by
    intro id
    exact (sound.participants id).mono (.of_eq rfl)
  participantTasks := by
    intro entry member
    exact (sound.participantTasks entry member).mono (.of_eq rfl)

theorem handle_follows {coordinator : Coordinator} {message : TwoPhaseMessage}
    (sound : message.Sound coordinator) :
    ∀ task ∈ Coordinator.handle message, task.Follows coordinator := by
  cases message with
  | vote id participant vote lsn => exact follows_some trivial (by simp)
  | ack id participant success error => exact follows_some trivial (by simp)
  | queryStatus id requester => exact follows_some sound (by simp)
  | _ => exact follows_none

theorem handle_sound {coordinator : Coordinator} {message : TwoPhaseMessage}
    (sound : message.Sound coordinator) :
    ∀ task ∈ Participant.handle message, task.Sound coordinator := by
  intro task member
  cases message with
  | prepare id coordinatorId participants operations timestamp =>
      cases member
      exact sound
  | commit id coordinatorId timestamp =>
      cases member
      exact sound
  | abort id coordinatorId reason =>
      cases member
      exact sound
  | statusResponse id state responder =>
      cases state with
      | committed =>
          cases member
          exact sound
      | aborted =>
          cases member
          exact sound
      | unknown =>
          cases member
          exact sound
      | _ => cases member
  | _ => cases member

theorem Sound.deliver (sound : world.Sound) {envelope : Envelope} (sent : envelope ∈ world.sent) :
    (world.deliver envelope).Sound where
  coordinator := sound.coordinator
  log := sound.log
  tasks := by
    intro task member
    rcases List.mem_append.mp member with old | new
    · exact sound.tasks task old
    · split at new
      · exact (handle_follows (sound.sent envelope sent) task (Option.mem_toList.mp new)).1
      · cases new
  starts := by
    apply List.pairwise_append.mpr
    split
    · refine ⟨sound.starts, ?_, ?_⟩
      · cases Coordinator.handle envelope.2 with
        | none => exact List.Pairwise.nil
        | some task => exact List.pairwise_singleton _ _
      · intro first _ second member id _
        exact (handle_follows (sound.sent envelope sent) second (Option.mem_toList.mp member)).2 id
    · exact ⟨sound.starts, List.Pairwise.nil, by simp⟩
  sent := sound.sent
  participants := sound.participants
  participantTasks := by
    intro entry member
    rcases List.mem_append.mp member with old | new
    · exact sound.participantTasks entry old
    · obtain ⟨task, handled, rfl⟩ := List.mem_map.mp new
      exact handle_sound (sound.sent envelope sent) task (Option.mem_toList.mp handled)

/-- The other tasks do not start the prepare phase of a transaction that the task starts. -/
theorem Sound.apart_eraseIdx (sound : world.Sound) {position : Nat} {task : CoordinatorTask}
    (found : world.coordinatorTasks[position]? = some task) :
    ∀ other ∈ world.coordinatorTasks.eraseIdx position, task.Apart other := by
  obtain ⟨bound, rfl⟩ := List.getElem?_eq_some_iff.mp found
  have same := List.getElem_cons_eraseIdx_perm bound
  have pairwise := (same.pairwise_iff CoordinatorTask.Apart.symm).mpr sound.starts
  exact (List.pairwise_cons.mp pairwise).1

/-- A task that waits is still sound after a section of another task. -/
theorem Sound.waits (sound : world.Sound) {task other : CoordinatorTask} {later : Coordinator}
    {messages : List Envelope} {left : Option CoordinatorTask}
    (ran : SectionSound world.coordinator task (later, messages, left))
    (apart : task.Apart other) (member : other ∈ world.coordinatorTasks) : other.Sound later := by
  have holds := sound.tasks other member
  by_cases isStart : ∃ id, other = .prepareStart id
  · obtain ⟨id, rfl⟩ := isStart
    apply ran.started id _ holds
    intro same
    exact apart id same rfl
  · apply holds.mono ran.further
    intro id same
    exact isStart ⟨id, same⟩

theorem Sound.coordinatorRuns (sound : world.Sound) {position : Nat} {task : CoordinatorTask}
    (found : world.coordinatorTasks[position]? = some task) {later : Coordinator}
    {messages : List Envelope} {left : Option CoordinatorTask}
    (ran : SectionSound world.coordinator task (later, messages, left)) :
    Sound { world with
      coordinator := later
      coordinatorTasks := world.coordinatorTasks.eraseIdx position ++ left.toList
      sent := world.sent ++ messages } where
  coordinator := ran.sound
  log := by
    intro id commit member
    rcases ran.log id commit member with old | settled
    · exact ran.further.settled id commit (sound.log id commit old)
    · exact settled
  tasks := by
    intro other member
    rcases List.mem_append.mp member with old | new
    · exact sound.waits ran (sound.apart_eraseIdx found other old)
        (List.mem_of_mem_eraseIdx old)
    · exact ran.left other (Option.mem_toList.mp new)
  starts := by
    apply List.pairwise_append.mpr
    refine ⟨sound.starts.sublist (List.eraseIdx_sublist _ _), ?_, ?_⟩
    · cases left with
      | none => exact List.Pairwise.nil
      | some next => exact List.pairwise_singleton _ _
    · intro other member next isLeft id isOther isNext
      subst isOther isNext
      exact ran.fresh id (Option.mem_toList.mp isLeft)
        (sound.tasks _ (List.mem_of_mem_eraseIdx member)).known
  sent := by
    intro envelope member
    rcases List.mem_append.mp member with old | new
    · exact (sound.sent envelope old).mono ran.further
    · exact ran.messages envelope new
  participants := by
    intro id
    exact (sound.participants id).mono ran.further
  participantTasks := by
    intro entry member
    exact (sound.participantTasks entry member).mono ran.further

theorem Sound.participantRuns (sound : world.Sound) (position : Nat) {id : ParticipantId}
    {participant : Participant σ} {messages : List Envelope} {left : Option ParticipantTask}
    (ran : ParticipantSectionSound world.coordinator (participant, messages, left)) :
    Sound { world with
      participants := Function.update world.participants id participant
      participantTasks := world.participantTasks.eraseIdx position ++ left.toList.map (id, ·)
      sent := world.sent ++ messages } where
  coordinator := sound.coordinator
  log := sound.log
  tasks := sound.tasks
  starts := sound.starts
  sent := by
    intro envelope member
    rcases List.mem_append.mp member with old | new
    · exact sound.sent envelope old
    · exact ran.messages envelope new
  participants := by
    intro other
    by_cases same : other = id
    · subst same
      simpa using ran.sound
    · simpa [same] using sound.participants other
  participantTasks := by
    intro entry member
    rcases List.mem_append.mp member with old | new
    · exact sound.participantTasks entry (List.mem_of_mem_eraseIdx old)
    · obtain ⟨task, isLeft, rfl⟩ := List.mem_map.mp new
      exact ran.left task (Option.mem_toList.mp isLeft)

/-- An allowed step keeps all that speaks for a decision in agreement with the votes. -/
theorem Sound.step (sound : world.Sound) {action : Step} (allowed : world.Allows action) :
    (world.step storage action).Sound := by
  cases action with
  | beginTransaction participants operations timestamp =>
      exact (sound.counted _).spawn ⟨trivial, by simp⟩
  | abortTransaction id reason => exact sound.spawn ⟨trivial, by simp⟩
  | checkTimeouts => exact sound.spawn ⟨trivial, by simp⟩
  | checkDecisionTimeouts participant =>
      refine ⟨sound.coordinator, sound.log, sound.tasks, sound.starts, sound.sent,
        sound.participants, ?_⟩
      intro entry member
      rcases List.mem_append.mp member with old | new
      · exact sound.participantTasks entry old
      · rw [List.mem_singleton.mp new]
        trivial
  | deliver message =>
      dsimp only [World.step]
      split
      next envelope found => exact sound.deliver (List.mem_of_getElem? found)
      next => exact sound
  | coordinatorRuns position surroundings =>
      dsimp only [World.step]
      split
      next task found =>
        apply sound.coordinatorRuns found
        exact sectionSound surroundings sound.coordinator
          (sound.tasks task (List.mem_of_getElem? found)) (allowed task found)
      next => exact sound
  | participantRuns position expired =>
      dsimp only [World.step]
      split
      next id task found =>
        apply sound.participantRuns position
        exact participantSectionSound expired (sound.participants id)
          (sound.participantTasks _ (List.mem_of_getElem? found))
      next => exact sound

theorem Sound.agreement (sound : world.Sound) : world.Agreement where
  decisions := by
    rintro id ⟨commits, aborts⟩
    exact (sound.log id true commits).unique (sound.log id false aborts)
  storage := by
    rintro id first second ⟨⟨_, _, applied⟩, ⟨_, _, rolledBack⟩⟩
    exact ((sound.participants first).committed id _ _ applied).unique
      ((sound.participants second).rolledBack id _ _ rolledBack)

/-- In every run in which every section is allowed, no transaction has two decisions, and none is
committed by one participant and rolled back by another. -/
theorem agreement_of_allows (storage : ParticipantStorage σ) (coordinatorId : ParticipantId)
    (maxRetries : Nat) (data : ParticipantId → σ) (steps : List Step)
    (allowed : AllMeet (World.step storage) World.Allows
      (.start coordinatorId maxRetries data) steps) :
    ((World.start coordinatorId maxRetries data).run storage steps).Agreement := by
  apply Sound.agreement
  apply AllMeet.invariant _ (start_sound coordinatorId maxRetries data) allowed
  intro world action sound allows
  exact sound.step allows

end World

section Runs

/-- The next sections of the coordinator's first task. -/
def coordinatorRuns (count : Nat) : List Step := .replicate count (.coordinatorRuns 0 ⟨0, []⟩)

/-- The next sections of the participants, in turn. -/
def participantsRun (count : Nat) : List Step := .replicate count (.participantRuns 0 [])

/-- A prepare phase in which two participants vote for commit, up to the read of the votes. -/
def preparedRun : List Step :=
  .flatten [[.beginTransaction ["p", "q"] [.put [1] [2]] 0], coordinatorRuns 7,
    [.deliver 0, .deliver 1], participantsRun 10, [.deliver 2], coordinatorRuns 2, [.deliver 3],
    coordinatorRuns 3]

/-- The decision is sent, and both participants commit. -/
def committedRun : List Step :=
  .flatten [preparedRun, coordinatorRuns 7, [.deliver 4, .deliver 5], participantsRun 10,
    [.deliver 6], coordinatorRuns 2, [.deliver 7], coordinatorRuns 4]

/-- The transaction is aborted when the votes were read and the state was not yet changed.  One
participant gets the commit, the other one the abort. -/
def abortedRun : List Step :=
  .flatten [preparedRun, [.abortTransaction "c:0:1" "gone"],
    .replicate 5 (.coordinatorRuns 1 ⟨0, []⟩), coordinatorRuns 4, [.deliver 6, .deliver 5],
    participantsRun 4]

/-- A coordinator and participants with storages in memory. -/
def World.inMemory : World InMemoryStorage := .start "c" 3 fun _ => .new

theorem agreement_of_allows_committedRun :
    AllMeet (World.step InMemoryStorage.storage) World.Allows World.inMemory committedRun ∧
      (World.inMemory.run InMemoryStorage.storage committedRun).Decided "c:0:1" true ∧
      (World.inMemory.run InMemoryStorage.storage committedRun).Applied "p" "c:0:1" ∧
      (World.inMemory.run InMemoryStorage.storage committedRun).Agreement := by
  have allowed : AllMeet (World.step InMemoryStorage.storage) World.Allows World.inMemory
      committedRun := by decide +kernel
  refine ⟨allowed, by decide +kernel, by decide +kernel, ?_⟩
  exact World.agreement_of_allows InMemoryStorage.storage "c" 3 _ committedRun allowed

theorem not_agreement_abortedRun :
    (¬∀ id, ¬((World.inMemory.run InMemoryStorage.storage abortedRun).Decided id true ∧
        (World.inMemory.run InMemoryStorage.storage abortedRun).Decided id false)) ∧
      ¬∀ id first second,
        ¬((World.inMemory.run InMemoryStorage.storage abortedRun).Applied first id ∧
          (World.inMemory.run InMemoryStorage.storage abortedRun).RolledBack second id) := by
  constructor
  · intro decisions
    exact decisions "c:0:1" ⟨by decide +kernel, by decide +kernel⟩
  · intro storages
    exact storages "c:0:1" "p" "q" ⟨by decide +kernel, by decide +kernel⟩

end Runs

end JouleDB.TwoPhase
