import JouleDB.TwoPhase.System

/-!
# The votes settle a transaction

Whatever speaks for commit or abort of a transaction, a log record, a message, a running handler or
a call on a storage, agrees with the votes that the coordinator has recorded, and these no longer
change.  This holds as long as no abort hits a transaction that is not yet preparing or whose votes
are all for commit, and no vote changes the outcome once all are in.
-/

namespace JouleDB.TwoPhase

namespace CoordinatorTransaction

/-- The votes decide, and no longer change. -/
def Settled (transaction : CoordinatorTransaction) (commit : Bool) : Prop :=
  transaction.shouldCommit = commit ∧ transaction.state ≠ .started ∧
    (transaction.state = .preparing → transaction.allVotesReceived = true)

/-- All votes are in. -/
def Deciding (transaction : CoordinatorTransaction) : Prop :=
  transaction.allVotesReceived = true ∧ transaction.state ≠ .started

/-- A vote is recorded. -/
def withVote (transaction : CoordinatorTransaction) (participant : ParticipantId) (vote : Vote) :
    CoordinatorTransaction :=
  { transaction with votes := transaction.votes.insert participant vote }

/-- The state agrees with the votes. -/
def Sound (transaction : CoordinatorTransaction) : Prop :=
  match transaction.state with
  | .started | .preparing => True
  | .committing | .committed => transaction.shouldCommit = true
  | .aborting | .aborted => transaction.shouldCommit = false
  | .prepared | .unknown => False

variable {transaction : CoordinatorTransaction}

theorem Deciding.settled (deciding : transaction.Deciding) :
    transaction.Settled transaction.shouldCommit :=
  ⟨rfl, deciding.2, fun _ => deciding.1⟩

theorem allVotesReceived_of_shouldCommit (commits : transaction.shouldCommit = true) :
    transaction.allVotesReceived = true := (Bool.and_eq_true_iff.mp commits).1

/-- A new state keeps what the votes have settled. -/
theorem Settled.withState {commit : Bool} (settled : transaction.Settled commit)
    {state : TransactionState} (started : state ≠ .started) (preparing : state ≠ .preparing) :
    Settled { transaction with state := state } commit :=
  ⟨settled.1, started, fun equal => absurd equal preparing⟩

end CoordinatorTransaction

namespace Coordinator

variable {coordinator later : Coordinator} {id other : TransactionId} {commit : Bool}
  {transaction : CoordinatorTransaction}

/-- A transaction in the table has a property. -/
def Has (coordinator : Coordinator) (id : TransactionId)
    (property : CoordinatorTransaction → Prop) : Prop :=
  ∃ transaction, coordinator.transactions[id]? = some transaction ∧ property transaction

/-- The transaction is in the table. -/
def Known (coordinator : Coordinator) (id : TransactionId) : Prop :=
  coordinator.Has id fun _ => True

/-- The votes on the transaction decide, and no longer change. -/
def Settled (coordinator : Coordinator) (id : TransactionId) (commit : Bool) : Prop :=
  coordinator.Has id (·.Settled commit)

/-- All votes on the transaction are in. -/
def Deciding (coordinator : Coordinator) (id : TransactionId) : Prop :=
  coordinator.Has id (·.Deciding)

/-- The transaction was entered and is not yet preparing. -/
def Started (coordinator : Coordinator) (id : TransactionId) : Prop :=
  coordinator.Has id (·.state = .started)

theorem Settled.unique (settled : coordinator.Settled id true) :
    ¬coordinator.Settled id false := by
  rintro ⟨first, found, isFalse, _⟩
  obtain ⟨second, alsoFound, isTrue, _⟩ := settled
  rw [found] at alsoFound
  cases alsoFound
  rw [isTrue] at isFalse
  exact absurd isFalse (by decide)

theorem Has.known {property : CoordinatorTransaction → Prop} (has : coordinator.Has id property) :
    coordinator.Known id := by
  obtain ⟨transaction, found, _⟩ := has
  exact ⟨transaction, found, trivial⟩

/-- What holds of the transactions of a coordinator still holds later on. -/
structure Extends (coordinator later : Coordinator) : Prop where
  known : ∀ id, coordinator.Known id → later.Known id
  settled : ∀ id commit, coordinator.Settled id commit → later.Settled id commit
  deciding : ∀ id, coordinator.Deciding id → later.Deciding id

theorem Extends.of_eq (same : later.transactions = coordinator.transactions) :
    coordinator.Extends later := by
  constructor
  · intro id known
    rwa [Known, Has, same]
  · intro id commit settled
    rwa [Settled, Has, same]
  · intro id deciding
    rwa [Deciding, Has, same]

theorem has_put {property : CoordinatorTransaction → Prop} :
    (coordinator.put id transaction).Has other property ↔
      if other = id then property transaction else coordinator.Has other property := by
  rw [Has, put]
  split
  next same =>
    subst same
    simp
  next apart =>
    have distinct : id ≠ other := fun equal => apart equal.symm
    simp [Has, Std.ExtTreeMap.getElem?_insert, distinct]

/-- A transaction is replaced by one of which the same holds. -/
theorem Extends.put
    (keeps : ∀ old, coordinator.transactions[id]? = some old →
      (∀ commit, old.Settled commit → transaction.Settled commit) ∧
        (old.Deciding → transaction.Deciding)) :
    coordinator.Extends (coordinator.put id transaction) := by
  constructor
  · intro other known
    rw [Known, has_put]
    split
    · trivial
    · exact known
  · rintro other commit ⟨old, found, settled⟩
    rw [Settled, has_put]
    split
    next same =>
      subst same
      exact (keeps old found).1 commit settled
    next apart => exact ⟨old, found, settled⟩
  · rintro other ⟨old, found, deciding⟩
    rw [Deciding, has_put]
    split
    next same =>
      subst same
      exact (keeps old found).2 deciding
    next apart => exact ⟨old, found, deciding⟩

/-- Every transaction has a state that agrees with its votes. -/
def Sound (coordinator : Coordinator) : Prop :=
  ∀ (id : TransactionId) (transaction : CoordinatorTransaction),
    coordinator.transactions[id]? = some transaction → transaction.Sound

theorem Sound.put (sound : coordinator.Sound) (new : transaction.Sound) :
    (coordinator.put id transaction).Sound := by
  intro other held found
  rw [Coordinator.put] at found
  by_cases same : other = id
  · subst same
    rw [Std.ExtTreeMap.getElem?_insert_self] at found
    cases found
    exact new
  · have distinct : id ≠ other := fun equal => same equal.symm
    rw [Std.ExtTreeMap.getElem?_insert, if_neg (by simpa using distinct)] at found
    exact sound other held found

end Coordinator

/-- What a task of the coordinator relies on. -/
def CoordinatorTask.Sound (coordinator : Coordinator) : CoordinatorTask → Prop
  | .prepareStart id => coordinator.Started id
  | .prepareLog id _ _ | .prepareSend id _ _ _ _ | .statusRead id _ => coordinator.Known id
  | .decideRead id => coordinator.Deciding id
  | .decideLog id commit _ | .decideWrite id commit _ | .decideLogSent id commit _ _
  | .decideSend id commit _ _ _ => coordinator.Settled id commit
  | .completeLog id finalState | .completeWrite id finalState =>
      finalState = .committed ∧ coordinator.Settled id true ∨
        finalState = .aborted ∧ coordinator.Settled id false
  | .abortLog id _ _ _ | .abortSend id _ _ _ => coordinator.Settled id false
  | _ => True

/-- What a message says is true. -/
def TwoPhaseMessage.Sound (coordinator : Coordinator) : TwoPhaseMessage → Prop
  | .prepare id _ _ _ _ | .queryStatus id _ => coordinator.Known id
  | .commit id _ _ => coordinator.Settled id true
  | .abort id _ _ => coordinator.Settled id false
  | .statusResponse id state _ =>
      match state with
      | .committed => coordinator.Settled id true
      | .aborted | .unknown => coordinator.Settled id false
      | _ => True
  | _ => True

/-- What a task of a participant relies on. -/
def ParticipantTask.Sound (coordinator : Coordinator) : ParticipantTask → Prop
  | .prepareLog id _ _ | .prepareInsert id _ _ => coordinator.Known id
  | .commitLog id _ | .commitApply id _ => coordinator.Settled id true
  | .abortLog id _ | .abortApply id _ => coordinator.Settled id false
  | .querySend queries => ∀ query ∈ queries, coordinator.Known query.1
  | _ => True

/-- A participant knows only transactions of the coordinator, and has committed and rolled back
only what was settled. -/
structure Participant.Sound {σ : Type} (coordinator : Coordinator) (participant : Participant σ) :
    Prop where
  known : ∀ (id : TransactionId) (transaction : ParticipantTransaction),
    participant.transactions[id]? = some transaction → coordinator.Known id
  committed : ∀ id lsn before, .commit id lsn before ∈ participant.calls →
    coordinator.Settled id true
  rolledBack : ∀ id lsn before, .rollback id lsn before ∈ participant.calls →
    coordinator.Settled id false

/-- The sections after which the transaction may get two decisions: an abort of a transaction that
is not yet preparing, or whose votes are all for commit, and a vote that changes the outcome when
all votes are in. -/
def CoordinatorTask.Allowed (coordinator : Coordinator) : CoordinatorTask → Prop
  | .abortLock id _ _ =>
      ∀ transaction : CoordinatorTransaction, coordinator.transactions[id]? = some transaction →
        transaction.state ≠ .started ∧
          ¬(transaction.state = .preparing ∧ transaction.shouldCommit = true)
  | .voteRecord id participant vote =>
      ∀ transaction : CoordinatorTransaction, coordinator.transactions[id]? = some transaction →
        transaction.state = .preparing → transaction.allVotesReceived = true →
        (transaction.withVote participant vote).allVotesReceived = true ∧
          (transaction.withVote participant vote).shouldCommit = transaction.shouldCommit
  | _ => True

instance (coordinator : Coordinator) : ∀ task : CoordinatorTask, Decidable (task.Allowed coordinator)
  | .abortLock id _ _ =>
      inferInstanceAs (Decidable (∀ transaction ∈ coordinator.transactions[id]?,
        transaction.state ≠ .started ∧
          ¬(transaction.state = .preparing ∧ transaction.shouldCommit = true)))
  | .voteRecord id participant vote =>
      inferInstanceAs (Decidable (∀ transaction ∈ coordinator.transactions[id]?,
        transaction.state = .preparing → transaction.allVotesReceived = true →
        (transaction.withVote participant vote).allVotesReceived = true ∧
          (transaction.withVote participant vote).shouldCommit = transaction.shouldCommit))
  | .beginLog .. | .beginInsert .. | .prepareStart .. | .prepareLog .. | .prepareSend ..
  | .voteLog .. | .decideRead .. | .decideLog .. | .decideWrite .. | .decideLogSent ..
  | .decideSend .. | .ackLog .. | .ackRecord .. | .completeLog .. | .completeWrite ..
  | .statusRead .. | .timeoutScan | .abortLog .. | .abortSend .. => .isTrue trivial

section Monotone

variable {coordinator later : Coordinator}

theorem CoordinatorTask.Sound.mono {task : CoordinatorTask} (sound : task.Sound coordinator)
    (further : coordinator.Extends later) (unstarted : ∀ id, task ≠ .prepareStart id) :
    task.Sound later := by
  cases task with
  | prepareStart id => exact absurd rfl (unstarted id)
  | prepareLog id participants operations => exact further.known id sound
  | prepareSend id participants operations timestamp remaining => exact further.known id sound
  | statusRead id requester => exact further.known id sound
  | decideRead id => exact further.deciding id sound
  | decideLog id commit participants => exact further.settled id commit sound
  | decideWrite id commit participants => exact further.settled id commit sound
  | decideLogSent id commit timestamp remaining => exact further.settled id commit sound
  | decideSend id commit timestamp participant remaining => exact further.settled id commit sound
  | completeLog id finalState =>
      exact sound.imp (And.imp_right (further.settled id _)) (And.imp_right (further.settled id _))
  | completeWrite id finalState =>
      exact sound.imp (And.imp_right (further.settled id _)) (And.imp_right (further.settled id _))
  | abortLog id participants reason others => exact further.settled id false sound
  | abortSend id remaining reason others => exact further.settled id false sound
  | _ => trivial

theorem TwoPhaseMessage.Sound.mono {message : TwoPhaseMessage} (sound : message.Sound coordinator)
    (further : coordinator.Extends later) : message.Sound later := by
  cases message with
  | prepare id coordinatorId participants operations timestamp => exact further.known id sound
  | queryStatus id requester => exact further.known id sound
  | commit id coordinatorId timestamp => exact further.settled id true sound
  | abort id coordinatorId reason => exact further.settled id false sound
  | statusResponse id state responder =>
      cases state with
      | committed => exact further.settled id true sound
      | aborted => exact further.settled id false sound
      | unknown => exact further.settled id false sound
      | _ => trivial
  | _ => trivial

theorem ParticipantTask.Sound.mono {task : ParticipantTask} (sound : task.Sound coordinator)
    (further : coordinator.Extends later) : task.Sound later := by
  cases task with
  | prepareLog id coordinatorId operations => exact further.known id sound
  | prepareInsert id coordinatorId operations => exact further.known id sound
  | commitLog id coordinatorId => exact further.settled id true sound
  | commitApply id coordinatorId => exact further.settled id true sound
  | abortLog id coordinatorId => exact further.settled id false sound
  | abortApply id coordinatorId => exact further.settled id false sound
  | querySend queries => exact fun query member => further.known _ (sound query member)
  | _ => trivial

theorem Participant.Sound.mono {σ : Type} {participant : Participant σ}
    (sound : participant.Sound coordinator) (further : coordinator.Extends later) :
    participant.Sound later :=
  ⟨fun id transaction found => further.known id (sound.known id transaction found),
    fun id lsn before member => further.settled id true (sound.committed id lsn before member),
    fun id lsn before member => further.settled id false (sound.rolledBack id lsn before member)⟩

end Monotone

/-- What a section of the coordinator leaves behind. -/
structure SectionSound (coordinator : Coordinator) (task : CoordinatorTask)
    (result : Coordinator × List Envelope × Option CoordinatorTask) : Prop where
  further : coordinator.Extends result.1
  started : ∀ id, task ≠ .prepareStart id → coordinator.Started id → result.1.Started id
  sound : result.1.Sound
  log : ∀ id commit, (id, .decision commit) ∈ result.1.recoveryLog →
    (id, .decision commit) ∈ coordinator.recoveryLog ∨ result.1.Settled id commit
  messages : ∀ envelope ∈ result.2.1, envelope.2.Sound result.1
  left : ∀ next ∈ result.2.2, next.Sound result.1
  fresh : ∀ id, .prepareStart id ∈ result.2.2 → ¬coordinator.Known id

/-- A task that may be left, and does not start the prepare phase. -/
def CoordinatorTask.Follows (coordinator : Coordinator) (task : CoordinatorTask) : Prop :=
  task.Sound coordinator ∧ ∀ id, task ≠ .prepareStart id

namespace SectionSound

variable {coordinator : Coordinator} {task : CoordinatorTask} {messages : List Envelope}
  {left : Option CoordinatorTask} {id : TransactionId}

theorem idle (sound : coordinator.Sound)
    (sends : ∀ envelope ∈ messages, envelope.2.Sound coordinator)
    (follows : ∀ next ∈ left, next.Follows coordinator) :
    SectionSound coordinator task (coordinator, messages, left) where
  further := .of_eq rfl
  started _ _ holds := holds
  sound := sound
  log _ _ logged := .inl logged
  messages := sends
  left next member := (follows next member).1
  fresh id member := absurd rfl ((follows _ member).2 id)

theorem logged (sound : coordinator.Sound) {record : RecoveryLogRecordType}
    (settled : ∀ commit, record = .decision commit → coordinator.Settled id commit)
    (follows : ∀ next ∈ left, next.Follows coordinator) :
    SectionSound coordinator task (coordinator.log id record, [], left) where
  further := .of_eq rfl
  started _ _ holds := holds
  sound := sound
  log other commit member := by
    rcases List.mem_append.mp member with old | new
    · exact .inl old
    · have same := List.mem_singleton.mp new
      rw [Prod.mk.injEq] at same
      rw [same.1]
      exact .inr (settled commit same.2.symm)
  messages := by
    intro envelope member
    exact absurd member List.not_mem_nil
  left next member := (follows next member).1.mono (.of_eq rfl) (follows next member).2
  fresh id member := absurd rfl ((follows _ member).2 id)

/-- A transaction is replaced by one of which the same holds. -/
theorem replaced (sound : coordinator.Sound) {old new : CoordinatorTransaction}
    (found : coordinator.transactions[id]? = some old)
    (settled : ∀ commit, old.Settled commit → new.Settled commit)
    (deciding : old.Deciding → new.Deciding)
    (started : task ≠ .prepareStart id → old.state = .started → new.state = .started)
    (newSound : new.Sound)
    (follows : ∀ next ∈ left, next.Follows (coordinator.put id new)) :
    SectionSound coordinator task (coordinator.put id new, [], left) where
  further := by
    apply Coordinator.Extends.put
    intro other alsoFound
    rw [found] at alsoFound
    cases alsoFound
    exact ⟨settled, deciding⟩
  started := by
    rintro other unstarted ⟨held, alsoFound, isStarted⟩
    change (coordinator.put id new).Has other _
    rw [Coordinator.has_put]
    split
    next same =>
      subst same
      rw [found] at alsoFound
      cases alsoFound
      exact started unstarted isStarted
    next apart => exact ⟨held, alsoFound, isStarted⟩
  sound := sound.put newSound
  log _ _ member := .inl member
  messages := by
    intro envelope member
    exact absurd member List.not_mem_nil
  left next member := (follows next member).1
  fresh id member := absurd rfl ((follows _ member).2 id)

end SectionSound

section Sections

variable {coordinator : Coordinator} {id : TransactionId} {commit : Bool}
  {transaction : CoordinatorTransaction}

theorem follows_none : ∀ next ∈ (none : Option CoordinatorTask), next.Follows coordinator := by
  intro next member
  cases member

theorem follows_some {task : CoordinatorTask} (sound : task.Sound coordinator)
    (unstarted : ∀ id, task ≠ .prepareStart id) : ∀ next ∈ some task, next.Follows coordinator := by
  intro next member
  cases member
  exact ⟨sound, unstarted⟩

theorem follows_abortNext {reason : String} (others : List TransactionId) :
    ∀ next ∈ Coordinator.abortNext reason others, next.Follows coordinator := by
  cases others with
  | nil => exact follows_none
  | cons first others => exact follows_some trivial (by simp)

/-- A transaction whose state changes after its votes have settled. -/
theorem SectionSound.decided {task : CoordinatorTask} {left : Option CoordinatorTask}
    {state : TransactionState} (sound : coordinator.Sound)
    (found : coordinator.transactions[id]? = some transaction)
    (settled : transaction.Settled commit)
    (agrees : CoordinatorTransaction.Sound { transaction with state := state })
    (started : state ≠ .started) (preparing : state ≠ .preparing)
    (follows : (coordinator.put id { transaction with state := state }).Settled id commit →
      ∀ next ∈ left, next.Follows (coordinator.put id { transaction with state := state })) :
    SectionSound coordinator task
      (coordinator.put id { transaction with state := state }, [], left) := by
  apply replaced sound found
  · intro other holds
    exact holds.withState started preparing
  · intro holds
    exact ⟨holds.1, started⟩
  · intro _ isStarted
    exact absurd isStarted settled.2.1
  · exact agrees
  · apply follows
    rw [Coordinator.Settled, Coordinator.has_put, if_pos rfl]
    exact settled.withState started preparing

theorem sectionSound_beginInsert (surroundings : Surroundings) (sound : coordinator.Sound)
    (participants : List ParticipantId) (operations : List TransactionOperation) :
    SectionSound coordinator (.beginInsert id participants operations)
      (coordinator.runSection surroundings (.beginInsert id participants operations)) := by
  dsimp only [Coordinator.runSection]
  split
  · exact .idle sound (by simp) follows_none
  next absent =>
    have missing : coordinator.transactions[id]? = none := by
      simpa using absent
    constructor
    · apply Coordinator.Extends.put
      intro old found
      rw [missing] at found
      cases found
    · rintro other _ ⟨held, found, isStarted⟩
      change (coordinator.put id _).Has other _
      rw [Coordinator.has_put]
      split
      · rfl
      · exact ⟨held, found, isStarted⟩
    · exact sound.put trivial
    · intro _ _ member
      exact .inl member
    · simp
    · intro next member
      cases member
      change (coordinator.put id _).Has id _
      rw [Coordinator.has_put, if_pos rfl]
      rfl
    · intro other member
      cases member
      rintro ⟨held, found, _⟩
      rw [missing] at found
      cases found

theorem sectionSound_prepareStart (surroundings : Surroundings) (sound : coordinator.Sound)
    (started : coordinator.Started id) :
    SectionSound coordinator (.prepareStart id)
      (coordinator.runSection surroundings (.prepareStart id)) := by
  obtain ⟨transaction, found, isStarted⟩ := started
  simp only [Coordinator.runSection, found]
  apply SectionSound.replaced sound found
  · rintro commit ⟨_, unstarted, _⟩
    exact absurd isStarted unstarted
  · rintro ⟨_, unstarted⟩
    exact absurd isStarted unstarted
  · intro unstarted
    exact absurd rfl unstarted
  · trivial
  · apply follows_some
    · change (coordinator.put id _).Has id _
      rw [Coordinator.has_put, if_pos rfl]
      trivial
    · simp

theorem sectionSound_voteRecord (surroundings : Surroundings) (sound : coordinator.Sound)
    {participant : ParticipantId} {vote : Vote}
    (allowed : CoordinatorTask.Allowed coordinator (.voteRecord id participant vote)) :
    SectionSound coordinator (.voteRecord id participant vote)
      (coordinator.runSection surroundings (.voteRecord id participant vote)) := by
  dsimp only [Coordinator.runSection]
  split
  · exact .idle sound (by simp) follows_none
  next transaction found =>
    split
    · exact .idle sound (by simp) follows_none
    next isPreparing =>
      have preparing : transaction.state = .preparing := not_not.mp isPreparing
      apply SectionSound.replaced sound found
      · intro commit settled
        have kept := allowed transaction found preparing (settled.2.2 preparing)
        exact ⟨kept.2.trans settled.1, settled.2.1, fun _ => kept.1⟩
      · intro deciding
        exact ⟨(allowed transaction found preparing deciding.1).1, deciding.2⟩
      · intro _ isStarted
        exact isStarted
      · simp [CoordinatorTransaction.Sound, preparing]
      · split
        next all =>
          apply follows_some
          · change (coordinator.put id _).Has id _
            rw [Coordinator.has_put, if_pos rfl]
            exact ⟨all, by simp [preparing]⟩
          · simp
        next => exact follows_none

theorem sectionSound_decideRead (surroundings : Surroundings) (sound : coordinator.Sound)
    (deciding : coordinator.Deciding id) :
    SectionSound coordinator (.decideRead id)
      (coordinator.runSection surroundings (.decideRead id)) := by
  obtain ⟨transaction, found, holds⟩ := deciding
  simp only [Coordinator.runSection, found]
  apply SectionSound.idle sound (by simp)
  apply follows_some
  · exact ⟨transaction, found, holds.settled⟩
  · simp

theorem sectionSound_decideWrite (surroundings : Surroundings) (sound : coordinator.Sound)
    {participants : List ParticipantId} (settled : coordinator.Settled id commit) :
    SectionSound coordinator (.decideWrite id commit participants)
      (coordinator.runSection surroundings (.decideWrite id commit participants)) := by
  obtain ⟨transaction, found, holds⟩ := settled
  simp only [Coordinator.runSection, found]
  cases commit with
  | true =>
      apply SectionSound.decided sound found holds
      · exact holds.1
      · simp
      · simp
      · intro later
        exact follows_some later (by simp)
  | false =>
      apply SectionSound.decided sound found holds
      · exact holds.1
      · simp
      · simp
      · intro later
        exact follows_some later (by simp)

theorem sectionSound_completeWrite (surroundings : Surroundings) (sound : coordinator.Sound)
    {finalState : TransactionState}
    (settled : CoordinatorTask.Sound coordinator (.completeWrite id finalState)) :
    SectionSound coordinator (.completeWrite id finalState)
      (coordinator.runSection surroundings (.completeWrite id finalState)) := by
  rcases settled with ⟨rfl, transaction, found, holds⟩ | ⟨rfl, transaction, found, holds⟩
  · simp only [Coordinator.runSection, found]
    apply SectionSound.decided sound found holds
    · exact holds.1
    · simp
    · simp
    · exact fun _ => follows_none
  · simp only [Coordinator.runSection, found]
    apply SectionSound.decided sound found holds
    · exact holds.1
    · simp
    · simp
    · exact fun _ => follows_none

theorem CoordinatorTransaction.Sound.settled (sound : transaction.Sound)
    (decided : transaction.state = .committing ∨ transaction.state = .aborting) :
    transaction.Settled (transaction.state = .committing : Bool) := by
  rcases decided with committing | aborting
  · rw [CoordinatorTransaction.Sound, committing] at sound
    exact ⟨by simpa [committing] using sound, by simp [committing], by simp [committing]⟩
  · rw [CoordinatorTransaction.Sound, aborting] at sound
    exact ⟨by simpa [aborting] using sound, by simp [aborting], by simp [aborting]⟩

theorem sectionSound_ackRecord (surroundings : Surroundings) (sound : coordinator.Sound)
    {participant : ParticipantId} :
    SectionSound coordinator (.ackRecord id participant)
      (coordinator.runSection surroundings (.ackRecord id participant)) := by
  dsimp only [Coordinator.runSection]
  split
  · exact .idle sound (by simp) follows_none
  next transaction found =>
    split
    next decided =>
      have holds := (sound id transaction found).settled decided
      apply SectionSound.replaced sound found
      · exact fun _ settled => settled
      · exact fun deciding => deciding
      · exact fun _ isStarted => isStarted
      · exact sound id transaction found
      · split
        next all =>
          apply follows_some
          · have settled : (coordinator.put id
                { transaction with acks := insert participant transaction.acks }).Settled id
                (transaction.state = .committing : Bool) := by
              rw [Coordinator.Settled, Coordinator.has_put, if_pos rfl]
              exact holds
            rcases decided with committing | aborting
            · left
              rw [committing] at settled ⊢
              exact ⟨rfl, settled⟩
            · right
              rw [aborting] at settled ⊢
              exact ⟨rfl, settled⟩
          · simp
        next => exact follows_none
    next => exact .idle sound (by simp) follows_none

theorem sectionSound_statusRead (surroundings : Surroundings) (sound : coordinator.Sound)
    {requester : ParticipantId} (known : coordinator.Known id) :
    SectionSound coordinator (.statusRead id requester)
      (coordinator.runSection surroundings (.statusRead id requester)) := by
  obtain ⟨transaction, found, _⟩ := known
  simp only [Coordinator.runSection, found]
  apply SectionSound.idle sound _ follows_none
  intro envelope member
  rw [List.mem_singleton.mp member]
  have agrees := sound id transaction found
  rw [CoordinatorTransaction.Sound] at agrees
  dsimp only [TwoPhaseMessage.Sound, Option.map_some, Option.getD_some]
  cases state : transaction.state with
  | committed =>
      rw [state] at agrees
      exact ⟨transaction, found, agrees, by simp [state], by simp [state]⟩
  | aborted =>
      rw [state] at agrees
      exact ⟨transaction, found, agrees, by simp [state], by simp [state]⟩
  | unknown =>
      rw [state] at agrees
      exact agrees.elim
  | _ => trivial

theorem sectionSound_abortLock (surroundings : Surroundings) (sound : coordinator.Sound)
    {reason : String} {others : List TransactionId}
    (allowed : CoordinatorTask.Allowed coordinator (.abortLock id reason others)) :
    SectionSound coordinator (.abortLock id reason others)
      (coordinator.runSection surroundings (.abortLock id reason others)) := by
  dsimp only [Coordinator.runSection]
  split
  · exact .idle sound (by simp) (follows_abortNext others)
  next transaction found =>
    split
    next abortable =>
      obtain ⟨unstarted, undecided⟩ := allowed transaction found
      have agrees := sound id transaction found
      have against : transaction.shouldCommit = false := by
        rw [CoordinatorTransaction.Sound] at agrees
        cases state : transaction.state with
        | preparing =>
            rw [← Bool.not_eq_true]
            exact fun commits => undecided ⟨state, commits⟩
        | aborting =>
            rwa [state] at agrees
        | _ => simp_all [TransactionState.canAbort]
      apply SectionSound.replaced sound found
      · intro commit settled
        exact settled.withState (by simp) (by simp)
      · intro deciding
        exact ⟨deciding.1, by simp⟩
      · intro _ isStarted
        exact absurd isStarted unstarted
      · exact against
      · apply follows_some
        · change (coordinator.put id _).Has id _
          rw [Coordinator.has_put, if_pos rfl]
          exact ⟨against, by simp, by simp⟩
        · simp
    next => exact .idle sound (by simp) (follows_abortNext others)

theorem Coordinator.Extends.trans {middle later : Coordinator}
    (first : coordinator.Extends middle) (second : middle.Extends later) :
    coordinator.Extends later :=
  ⟨fun id known => second.known id (first.known id known),
    fun id commit settled => second.settled id commit (first.settled id commit settled),
    fun id deciding => second.deciding id (first.deciding id deciding)⟩

theorem SectionSound.trans {middle later : Coordinator} {task : CoordinatorTask}
    {left : Option CoordinatorTask} (first : SectionSound coordinator task (middle, [], none))
    (second : SectionSound middle task (later, [], left))
    (follows : ∀ next ∈ left, next.Follows later) :
    SectionSound coordinator task (later, [], left) where
  further := first.further.trans second.further
  started id unstarted holds := second.started id unstarted (first.started id unstarted holds)
  sound := second.sound
  log id commit member := by
    rcases second.log id commit member with old | settled
    · exact (first.log id commit old).imp_right (second.further.settled id commit)
    · exact .inr settled
  messages := by
    intro envelope member
    exact absurd member List.not_mem_nil
  left next member := (follows next member).1
  fresh id member := absurd rfl ((follows _ member).2 id)

/-- Retries are counted up, and nothing else changes. -/
theorem sectionSound_retried (sound : coordinator.Sound) :
    SectionSound coordinator .timeoutScan ((coordinator.scan [id]).2, [], none) := by
  rw [Coordinator.scan, List.foldl_cons, List.foldl_nil]
  split
  next transaction found =>
    split
    · apply SectionSound.replaced sound found
      · exact fun _ settled => settled
      · exact fun deciding => deciding
      · exact fun _ isStarted => isStarted
      · exact sound id transaction found
      · exact follows_none
    · exact .idle sound (by simp) follows_none
  next => exact .idle sound (by simp) follows_none

theorem sectionSound_scan (expired : List TransactionId) (sound : coordinator.Sound) :
    SectionSound coordinator .timeoutScan ((coordinator.scan expired).2, [], none) := by
  induction expired generalizing coordinator with
  | nil => exact .idle sound (by simp) follows_none
  | cons first expired ih =>
      have once := @sectionSound_retried _ first sound
      exact once.trans (ih once.sound) follows_none

/-- Every section of the coordinator keeps what the votes have settled, as long as it is
allowed. -/
theorem sectionSound (surroundings : Surroundings) {task : CoordinatorTask}
    (sound : coordinator.Sound) (taskSound : task.Sound coordinator)
    (allowed : task.Allowed coordinator) :
    SectionSound coordinator task (coordinator.runSection surroundings task) := by
  cases task with
  | beginLog id participants operations =>
      exact .logged sound (by simp) (follows_some trivial (by simp))
  | beginInsert id participants operations =>
      exact sectionSound_beginInsert surroundings sound participants operations
  | prepareStart id => exact sectionSound_prepareStart surroundings sound taskSound
  | prepareLog id participants operations =>
      exact .logged sound (by simp) (follows_some taskSound (by simp))
  | prepareSend id participants operations timestamp remaining =>
      cases remaining with
      | nil => exact .idle sound (by simp) follows_none
      | cons participant remaining =>
          exact .idle sound (List.forall_mem_singleton.mpr taskSound)
            (follows_some taskSound (by simp))
  | voteLog id participant vote =>
      exact .logged sound (by simp) (follows_some trivial (by simp))
  | voteRecord id participant vote => exact sectionSound_voteRecord surroundings sound allowed
  | decideRead id => exact sectionSound_decideRead surroundings sound taskSound
  | decideLog id commit participants =>
      apply SectionSound.logged sound
      · intro logged same
        cases same
        exact taskSound
      · exact follows_some taskSound (by simp)
  | decideWrite id commit participants =>
      exact sectionSound_decideWrite surroundings sound taskSound
  | decideLogSent id commit timestamp remaining =>
      cases remaining with
      | nil => exact .idle sound (by simp) follows_none
      | cons participant remaining =>
          exact .logged sound (by simp) (follows_some taskSound (by simp))
  | decideSend id commit timestamp participant remaining =>
      apply SectionSound.idle sound
      · intro envelope member
        rw [List.mem_singleton.mp member]
        cases commit with
        | true => exact taskSound
        | false => exact taskSound
      · exact follows_some taskSound (by simp)
  | ackLog id participant => exact .logged sound (by simp) (follows_some trivial (by simp))
  | ackRecord id participant => exact sectionSound_ackRecord surroundings sound
  | completeLog id finalState =>
      exact .logged sound (by simp) (follows_some taskSound (by simp))
  | completeWrite id finalState =>
      exact sectionSound_completeWrite surroundings sound taskSound
  | statusRead id requester => exact sectionSound_statusRead surroundings sound taskSound
  | timeoutScan =>
      have scanned := sectionSound_scan surroundings.expired sound
      exact scanned.trans (.idle scanned.sound (by simp) (follows_abortNext _))
        (follows_abortNext _)
  | abortLock id reason others => exact sectionSound_abortLock surroundings sound allowed
  | abortLog id participants reason others =>
      apply SectionSound.logged sound
      · intro logged same
        cases same
        exact taskSound
      · exact follows_some taskSound (by simp)
  | abortSend id remaining reason others =>
      cases remaining with
      | nil => exact .idle sound (by simp) (follows_abortNext others)
      | cons participant remaining =>
          exact .idle sound (List.forall_mem_singleton.mpr taskSound)
            (follows_some taskSound (by simp))

end Sections

end JouleDB.TwoPhase
