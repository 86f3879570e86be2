import JouleDB.TwoPhase.Participant

/-!
# The restart of a participant

A crash keeps the recovery log and the storage, and loses the table of transactions and the running
handlers.  `recover` asks the coordinators for decisions and does not enter anything into the
table, so that a commit that arrives after a restart finds no transaction to apply.
-/

namespace JouleDB.TwoPhase

namespace Participant

variable {σ : Type}

/-- The participant after a crash. -/
def crash (participant : Participant σ) : Participant σ := { participant with transactions := ∅ }

/-- What `recover` finds in the records of a transaction; later records win. -/
structure Found where
  coordinatorId : Option ParticipantId
  voteSent : Option Vote
  decisionReceived : Option Bool

/-- Look at one record of a transaction. -/
def Found.record (found : Found) : RecoveryLogRecordType → Found
  | .prepareReceived coordinatorId => { found with coordinatorId := some coordinatorId }
  | .voteSent vote => { found with voteSent := some vote }
  | .decisionReceived commit => { found with decisionReceived := some commit }
  | _ => found

/-- Recover one transaction: ask for the decision after a vote for commit, and note an abort
without one. -/
def recoverTransaction (participant : Participant σ) (id : TransactionId)
    (entries : List RecoveryLogRecordType) : Participant σ × List Envelope :=
  let found := entries.foldl Found.record ⟨none, none, none⟩
  match found.coordinatorId with
  | some coordinatorId =>
      if found.decisionReceived = none ∧ found.voteSent = some .commit then
        (participant, [(coordinatorId, .queryStatus id participant.nodeId)])
      else if found.voteSent = none ∨ found.voteSent = some .abort then
        (participant.log id (.decisionReceived false), [])
      else
        (participant, [])
  | none => (participant, [])

/-- Recover the incomplete transactions, in the order in which the table of the log lists them. -/
def recover (participant : Participant σ) : List (TransactionId × List RecoveryLogRecordType) →
    Participant σ × List Envelope × List TransactionId
  | [] => (participant, [], [])
  | (id, entries) :: incomplete =>
      let (recovered, messages) := participant.recoverTransaction id entries
      let (last, more, ids) := recovered.recover incomplete
      (last, messages ++ more, id :: ids)

/-- How often the operations of a transaction were applied: the commits of operations that were
prepared. -/
def applications (participant : Participant InMemoryStorage) (id : TransactionId) : Nat :=
  participant.calls.countP fun
    | .commit other lsn before => other = id && before.prepared.contains lsn
    | _ => false

end Participant

/-- A participant with its running handlers and the messages that it has sent. -/
structure Site where
  participant : Participant InMemoryStorage
  tasks : List ParticipantTask
  sent : List Envelope

/-- What happens at a participant. -/
inductive SiteEvent where
  | deliver (message : TwoPhaseMessage)
  | checkTimeouts
  | runs (task : Nat) (expired : List TransactionId)
  | crash
  | recover (incomplete : List (TransactionId × List RecoveryLogRecordType))

namespace Site

/-- A participant that has done nothing yet. -/
def start (nodeId : ParticipantId) : Site := ⟨.new nodeId .new, [], []⟩

/-- One event. -/
def step (site : Site) : SiteEvent → Site
  | .deliver message =>
      { site with tasks := site.tasks ++ (Participant.handle message).toList }
  | .checkTimeouts => { site with tasks := site.tasks ++ [.timeoutScan] }
  | .runs position expired =>
      match site.tasks[position]? with
      | some task =>
          let (participant, messages, left) :=
            site.participant.runSection InMemoryStorage.storage expired task
          { participant := participant
            tasks := site.tasks.eraseIdx position ++ left.toList
            sent := site.sent ++ messages }
      | none => site
  | .crash => { site with participant := site.participant.crash, tasks := [] }
  | .recover incomplete =>
      let (participant, messages, _) := site.participant.recover incomplete
      { site with participant := participant, sent := site.sent ++ messages }

/-- The participant after a run. -/
def run (site : Site) (events : List SiteEvent) : Site := events.foldl step site

/-- A participant that has voted for commit crashes and recovers. -/
def restart (site : Site) (incomplete : List (TransactionId × List RecoveryLogRecordType)) : Site :=
  (site.step .crash).step (.recover incomplete)

end Site

/-- The message asks to prepare a transaction. -/
def SiteEvent.Prepares (id : TransactionId) : SiteEvent → Prop
  | .deliver (.prepare other _ _ _ _) => other = id
  | _ => False

/-- The handler may enter a transaction into the table. -/
def ParticipantTask.Enters (id : TransactionId) : ParticipantTask → Prop
  | .prepareLog other _ _ | .prepareInsert other _ _ => other = id
  | _ => False

section Forgotten

variable {id : TransactionId}

/-- Nothing is known of a transaction, and nothing is under way that enters it. -/
structure Site.Forgotten (id : TransactionId) (site : Site) : Prop where
  absent : site.participant.transactions[id]? = none
  tasks : ∀ task ∈ site.tasks, ¬task.Enters id

variable {participant : Participant InMemoryStorage}

theorem getElem?_put_of_ne {other : TransactionId} (apart : other ≠ id)
    (transaction : ParticipantTransaction) :
    (participant.put other transaction).transactions[id]? = participant.transactions[id]? := by
  rw [Participant.put, Std.ExtTreeMap.getElem?_insert, if_neg (by simpa using apart)]

theorem getElem?_setState {other : TransactionId} (state : TransactionState)
    (absent : participant.transactions[id]? = none) :
    (participant.setState other state).transactions[id]? = none := by
  rw [Participant.setState]
  split
  next transaction found =>
    have apart : other ≠ id := by
      rintro rfl
      rw [absent] at found
      cases found
    rw [getElem?_put_of_ne apart]
    exact absent
  next => exact absent

theorem setState_calls (other : TransactionId) (state : TransactionState) :
    (participant.setState other state).calls = participant.calls := by
  rw [Participant.setState]
  split
  · rfl
  · rfl

/-- What a section leaves of a transaction that is not in the table. -/
structure SectionForgets (id : TransactionId) (participant : Participant InMemoryStorage)
    (result : Participant InMemoryStorage × List Envelope × Option ParticipantTask) : Prop where
  absent : result.1.transactions[id]? = none
  left : ∀ next ∈ result.2.2, ¬next.Enters id
  applications : result.1.applications id = participant.applications id

theorem countP_concat_of_not {α : Type} {p : α → Bool} {list : List α} {value : α}
    (fails : p value = false) : (list ++ [value]).countP p = list.countP p := by
  simp [List.countP_append, fails]

namespace SectionForgets

variable {messages : List Envelope} {left : Option ParticipantTask}

theorem of_calls {later : Participant InMemoryStorage} (absent : later.transactions[id]? = none)
    (left_ : ∀ next ∈ left, ¬next.Enters id) (calls : later.calls = participant.calls) :
    SectionForgets id participant (later, messages, left) where
  absent := absent
  left := left_
  applications := by rw [Participant.applications, Participant.applications, calls]

end SectionForgets

theorem sectionForgets_prepareInsert (expired : List TransactionId) {other : TransactionId}
    (coordinator : ParticipantId) (operations : List TransactionOperation) (apart : other ≠ id)
    (absent : participant.transactions[id]? = none) :
    SectionForgets id participant
      (participant.runSection InMemoryStorage.storage expired
        (.prepareInsert other coordinator operations)) where
  absent := (getElem?_put_of_ne apart _).trans absent
  left := by
    intro next member
    cases member
    exact not_false
  applications := countP_concat_of_not rfl

theorem sectionForgets_commitApply (expired : List TransactionId) (other : TransactionId)
    (coordinator : ParticipantId) (absent : participant.transactions[id]? = none) :
    SectionForgets id participant
      (participant.runSection InMemoryStorage.storage expired (.commitApply other coordinator)) := by
  dsimp only [Participant.runSection]
  split
  · exact .of_calls absent (by simp) rfl
  next transaction found =>
    have apart : other ≠ id := by
      rintro rfl
      rw [absent] at found
      cases found
    constructor
    · cases transaction.preparedLsn with
      | none => exact (getElem?_put_of_ne apart _).trans absent
      | some lsn => exact (getElem?_put_of_ne apart _).trans absent
    · intro next member
      cases member
      split
      · exact not_false
      · exact not_false
    · cases transaction.preparedLsn with
      | none => rfl
      | some lsn =>
          apply countP_concat_of_not
          simp [apart]

theorem sectionForgets_abortApply (expired : List TransactionId) (other : TransactionId)
    (coordinator : ParticipantId) (absent : participant.transactions[id]? = none) :
    SectionForgets id participant
      (participant.runSection InMemoryStorage.storage expired (.abortApply other coordinator)) := by
  dsimp only [Participant.runSection]
  split
  · apply SectionForgets.of_calls absent _ rfl
    intro next member
    cases member
    exact not_false
  next transaction found =>
    have apart : other ≠ id := by
      rintro rfl
      rw [absent] at found
      cases found
    constructor
    · cases transaction.preparedLsn with
      | none => exact (getElem?_put_of_ne apart _).trans absent
      | some lsn => exact (getElem?_put_of_ne apart _).trans absent
    · intro next member
      cases member
      exact not_false
    · cases transaction.preparedLsn with
      | none => rfl
      | some lsn => exact countP_concat_of_not rfl

/-- No section enters a transaction that is not in the table, or applies it. -/
theorem sectionForgets (expired : List TransactionId) {task : ParticipantTask}
    (absent : participant.transactions[id]? = none) (outside : ¬task.Enters id) :
    SectionForgets id participant
      (participant.runSection InMemoryStorage.storage expired task) := by
  have follows : ∀ {next : ParticipantTask}, ¬next.Enters id →
      ∀ left ∈ some next, ¬left.Enters id := by
    intro next outside left member
    cases member
    exact outside
  cases task with
  | prepareLog other coordinator operations => exact .of_calls absent (follows outside) rfl
  | prepareInsert other coordinator operations =>
      exact sectionForgets_prepareInsert expired coordinator operations outside absent
  | prepareUpdate other coordinator vote lsn =>
      dsimp only [Participant.runSection]
      split
      next transaction found =>
        have apart : other ≠ id := by
          rintro rfl
          rw [absent] at found
          cases found
        exact .of_calls ((getElem?_put_of_ne apart _).trans absent) (follows not_false) rfl
      next => exact .of_calls absent (follows not_false) rfl
  | voteLog other coordinator vote lsn => exact .of_calls absent (follows not_false) rfl
  | voteSend other coordinator vote lsn => exact .of_calls absent (by simp) rfl
  | commitLog other coordinator => exact .of_calls absent (follows not_false) rfl
  | commitApply other coordinator =>
      exact sectionForgets_commitApply expired other coordinator absent
  | appliedLog other coordinator => exact .of_calls absent (follows not_false) rfl
  | commitUpdate other coordinator success =>
      exact .of_calls (getElem?_setState _ absent) (follows not_false) (setState_calls _ _)
  | abortLog other coordinator => exact .of_calls absent (follows not_false) rfl
  | abortApply other coordinator =>
      exact sectionForgets_abortApply expired other coordinator absent
  | abortUpdate other coordinator success =>
      exact .of_calls (getElem?_setState _ absent) (follows not_false) (setState_calls _ _)
  | ackSend other coordinator success error => exact .of_calls absent (by simp) rfl
  | timeoutScan => exact .of_calls absent (follows not_false) rfl
  | querySend queries =>
      cases queries with
      | nil => exact .of_calls absent (by simp) rfl
      | cons query queries => exact .of_calls absent (follows not_false) rfl

theorem recoverTransaction_unchanged (participant : Participant InMemoryStorage)
    (other : TransactionId) (entries : List RecoveryLogRecordType) :
    (participant.recoverTransaction other entries).1.transactions = participant.transactions ∧
      (participant.recoverTransaction other entries).1.calls = participant.calls := by
  dsimp only [Participant.recoverTransaction]
  split
  · split
    · exact ⟨rfl, rfl⟩
    · split
      · exact ⟨rfl, rfl⟩
      · exact ⟨rfl, rfl⟩
  · exact ⟨rfl, rfl⟩

/-- Recovery changes neither the table nor the storage. -/
theorem recover_unchanged (participant : Participant InMemoryStorage)
    (incomplete : List (TransactionId × List RecoveryLogRecordType)) :
    (participant.recover incomplete).1.transactions = participant.transactions ∧
      (participant.recover incomplete).1.calls = participant.calls := by
  induction incomplete generalizing participant with
  | nil => exact ⟨rfl, rfl⟩
  | cons entry incomplete ih =>
      have once := recoverTransaction_unchanged participant entry.1 entry.2
      have rest := ih (participant.recoverTransaction entry.1 entry.2).1
      exact ⟨rest.1.trans once.1, rest.2.trans once.2⟩

theorem handle_not_enters {message : TwoPhaseMessage}
    (other : ¬(SiteEvent.deliver message).Prepares id) :
    ∀ task ∈ Participant.handle message, ¬task.Enters id := by
  intro task member
  cases message with
  | prepare transaction coordinator participants operations timestamp =>
      cases member
      exact other
  | statusResponse transaction state responder =>
      cases state with
      | committed | aborted | unknown =>
          cases member
          exact not_false
      | _ => cases member
  | commit | abort =>
      cases member
      exact not_false
  | _ => cases member

/-- An event that does not ask to prepare the transaction leaves it forgotten and unapplied. -/
theorem Site.Forgotten.step {site : Site} (forgotten : site.Forgotten id) {event : SiteEvent}
    (other : ¬event.Prepares id) :
    (site.step event).Forgotten id ∧
      (site.step event).participant.applications id = site.participant.applications id := by
  cases event with
  | deliver message =>
      refine ⟨⟨forgotten.absent, ?_⟩, rfl⟩
      intro task member
      rcases List.mem_append.mp member with old | new
      · exact forgotten.tasks task old
      · exact handle_not_enters other task (Option.mem_toList.mp new)
  | checkTimeouts =>
      refine ⟨⟨forgotten.absent, ?_⟩, rfl⟩
      intro task member
      rcases List.mem_append.mp member with old | new
      · exact forgotten.tasks task old
      · rw [List.mem_singleton.mp new]
        exact not_false
  | runs position expired =>
      dsimp only [Site.step]
      split
      next task found =>
        have ran := sectionForgets expired forgotten.absent
          (forgotten.tasks task (List.mem_of_getElem? found))
        refine ⟨⟨ran.absent, ?_⟩, ran.applications⟩
        intro next member
        rcases List.mem_append.mp member with old | new
        · exact forgotten.tasks next (List.mem_of_mem_eraseIdx old)
        · exact ran.left next (Option.mem_toList.mp new)
      next => exact ⟨forgotten, rfl⟩
  | crash =>
      refine ⟨⟨?_, by simp [Site.step]⟩, rfl⟩
      simp [Site.step, Participant.crash]
  | recover incomplete =>
      obtain ⟨transactions, calls⟩ := recover_unchanged site.participant incomplete
      refine ⟨⟨?_, forgotten.tasks⟩, ?_⟩
      · exact (congrArg (·[id]?) transactions).trans forgotten.absent
      · exact congrArg (List.countP _) calls

/-- After a restart nothing is known of any transaction. -/
theorem Site.restart_forgotten (site : Site) (id : TransactionId)
    (incomplete : List (TransactionId × List RecoveryLogRecordType)) :
    (site.restart incomplete).Forgotten id ∧
      (site.restart incomplete).participant.applications id = site.participant.applications id := by
  have crashed : (site.step .crash).Forgotten id := by
    constructor
    · simp [Site.step, Participant.crash]
    · simp [Site.step]
  exact crashed.step not_false

theorem Site.Forgotten.run {site : Site} (forgotten : site.Forgotten id) {events : List SiteEvent}
    (others : ∀ event ∈ events, ¬event.Prepares id) :
    (site.run events).participant.applications id = site.participant.applications id := by
  induction events generalizing site with
  | nil => rfl
  | cons event events ih =>
      obtain ⟨other, others⟩ := List.forall_mem_cons.mp others
      obtain ⟨stays, same⟩ := forgotten.step other
      exact (ih stays others).trans same

end Forgotten

/-- The message is a decision on a transaction. -/
def SiteEvent.Decides (id : TransactionId) (commit : Bool) : SiteEvent → Bool
  | .deliver (.commit other _ _) => other = id && commit
  | .deliver (.abort other _ _) => other = id && !commit
  | _ => false

/-- A run in which a participant votes to commit a transaction, crashes, recovers and gets
messages that do not ask to prepare it again, until all handlers have ended. -/
structure VotedRestart (nodeId : ParticipantId) (id : TransactionId) where
  before : List SiteEvent
  voted : (id, .voteSent .commit) ∈ ((Site.start nodeId).run before).participant.recoveryLog
  incomplete : List (TransactionId × List RecoveryLogRecordType)
  listed : incomplete.Perm (RecoveryLog.getIncompleteTransactions
    ((Site.start nodeId).run before).participant.recoveryLog)
  after : List SiteEvent
  unprepared : ∀ event ∈ after, ¬event.Prepares id
  ended : ((((Site.start nodeId).run before).restart incomplete).run after).tasks = []

namespace VotedRestart

variable {nodeId : ParticipantId} {id : TransactionId}

/-- The participant at the crash. -/
def crashed (run : VotedRestart nodeId id) : Participant InMemoryStorage :=
  ((Site.start nodeId).run run.before).participant

/-- The participant at the end. -/
def final (run : VotedRestart nodeId id) : Participant InMemoryStorage :=
  ((((Site.start nodeId).run run.before).restart run.incomplete).run run.after).participant

/-- A decision arrives after the restart. -/
def Receives (run : VotedRestart nodeId id) (commit : Bool) : Prop :=
  ∃ event ∈ run.after, event.Decides id commit

/-- The operations are applied exactly once if the decision is to commit, and never if it is to
abort. -/
def Honours (run : VotedRestart nodeId id) : Prop :=
  (run.Receives true → run.final.applications id = 1) ∧
    (run.Receives false → run.final.applications id = 0)

theorem applications_final (run : VotedRestart nodeId id) :
    run.final.applications id = run.crashed.applications id := by
  obtain ⟨forgotten, same⟩ :=
    Site.restart_forgotten ((Site.start nodeId).run run.before) id run.incomplete
  exact (forgotten.run run.unprepared).trans same

/-- The coordinator's decision reaches the participant after the restart only. -/
def uncertain : VotedRestart "p" "t" where
  before := .deliver (.prepare "t" "c" ["p"] [.put [1] [2]] 0) :: .replicate 5 (.runs 0 [])
  voted := by decide +kernel
  incomplete := [("t", [.prepareReceived "c", .voteSent .commit])]
  listed := by decide +kernel
  after := [.deliver (.commit "t" "c" 0), .runs 0 [], .runs 0 []]
  unprepared := by simp [SiteEvent.Prepares]
  ended := by decide +kernel

end VotedRestart

end JouleDB.TwoPhase
