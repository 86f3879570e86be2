import JouleDB.TwoPhase.Coordinator
import JouleDB.TwoPhase.Participant
import Mathlib.Logic.Function.Basic

/-!
# A coordinator and its participants

Tasks run section by section in any order.  A message that was sent may be delivered at any time,
any number of times or never.
-/

namespace JouleDB.TwoPhase

/-- The coordinator, the participants, their running handlers, and all messages sent so far. -/
structure World (σ : Type) where
  coordinator : Coordinator
  coordinatorTasks : List CoordinatorTask
  participants : ParticipantId → Participant σ
  participantTasks : List (ParticipantId × ParticipantTask)
  sent : List Envelope

/-- The steps of the system. -/
inductive Step where
  | beginTransaction (participants : List ParticipantId) (operations : List TransactionOperation)
      (timestamp : Nat)
  | abortTransaction (id : TransactionId) (reason : String)
  | checkTimeouts
  | checkDecisionTimeouts (participant : ParticipantId)
  | deliver (message : Nat)
  | coordinatorRuns (task : Nat) (surroundings : Surroundings)
  | participantRuns (task : Nat) (expired : List TransactionId)

/-- The task that a message starts at the coordinator. -/
def Coordinator.handle : TwoPhaseMessage → Option CoordinatorTask
  | .vote id participant vote _ => some (.voteLog id participant vote)
  | .ack id participant _ _ => some (.ackLog id participant)
  | .queryStatus id requester => some (.statusRead id requester)
  | _ => none

namespace World

variable {σ : Type} (storage : ParticipantStorage σ)

/-- A system that has done nothing yet. -/
def start (coordinatorId : ParticipantId) (maxRetries : Nat) (data : ParticipantId → σ) :
    World σ where
  coordinator := .new coordinatorId maxRetries
  coordinatorTasks := []
  participants := fun id => .new id (data id)
  participantTasks := []
  sent := []

/-- Start a handler of the coordinator. -/
def spawn (world : World σ) (task : CoordinatorTask) : World σ :=
  { world with coordinatorTasks := world.coordinatorTasks ++ [task] }

/-- Deliver a message to the coordinator or to a participant, whichever handles it. -/
def deliver (world : World σ) (envelope : Envelope) : World σ :=
  { world with
    coordinatorTasks := world.coordinatorTasks ++
      (if envelope.1 = world.coordinator.nodeId then (Coordinator.handle envelope.2).toList
      else [])
    participantTasks := world.participantTasks ++
      (Participant.handle envelope.2).toList.map (envelope.1, ·) }

/-- One step. -/
def step (world : World σ) : Step → World σ
  | .beginTransaction participants operations timestamp =>
      let (id, coordinator) := world.coordinator.generateTxnId timestamp
      { world with coordinator := coordinator }.spawn (.beginLog id participants operations)
  | .abortTransaction id reason => world.spawn (.abortLock id reason [])
  | .checkTimeouts => world.spawn .timeoutScan
  | .checkDecisionTimeouts participant =>
      { world with
        participantTasks := world.participantTasks ++ [(participant, .timeoutScan)] }
  | .deliver message =>
      match world.sent[message]? with
      | some envelope => world.deliver envelope
      | none => world
  | .coordinatorRuns position surroundings =>
      match world.coordinatorTasks[position]? with
      | some task =>
          let (coordinator, messages, left) := world.coordinator.runSection surroundings task
          { world with
            coordinator := coordinator
            coordinatorTasks := world.coordinatorTasks.eraseIdx position ++ left.toList
            sent := world.sent ++ messages }
      | none => world
  | .participantRuns position expired =>
      match world.participantTasks[position]? with
      | some (id, task) =>
          let (participant, messages, left) :=
            (world.participants id).runSection storage expired task
          { world with
            participants := Function.update world.participants id participant
            participantTasks := world.participantTasks.eraseIdx position ++
              left.toList.map (id, ·)
            sent := world.sent ++ messages }
      | none => world

/-- The world after a run. -/
def run (world : World σ) (steps : List Step) : World σ := steps.foldl (step storage) world

/-- The coordinator has logged a decision. -/
def Decided (world : World σ) (id : TransactionId) (commit : Bool) : Prop :=
  (id, .decision commit) ∈ world.coordinator.recoveryLog

/-- A participant has committed a transaction in its storage. -/
def Applied (world : World σ) (participant : ParticipantId) (id : TransactionId) : Prop :=
  ∃ lsn before, .commit id lsn before ∈ (world.participants participant).calls

/-- A participant has rolled a transaction back in its storage. -/
def RolledBack (world : World σ) (participant : ParticipantId) (id : TransactionId) : Prop :=
  ∃ lsn before, .rollback id lsn before ∈ (world.participants participant).calls

instance (world : World σ) (id : TransactionId) (commit : Bool) :
    Decidable (world.Decided id commit) :=
  inferInstanceAs (Decidable ((id, .decision commit) ∈ world.coordinator.recoveryLog))

instance (world : World σ) (participant : ParticipantId) (id : TransactionId) :
    Decidable (world.Applied participant id) :=
  decidable_of_iff (∃ call ∈ (world.participants participant).calls, call.isCommit id) (by
    constructor
    · rintro ⟨call, member, commits⟩
      obtain ⟨lsn, before, rfl⟩ := StorageCall.isCommit_iff.mp commits
      exact ⟨lsn, before, member⟩
    · rintro ⟨lsn, before, member⟩
      exact ⟨_, member, StorageCall.isCommit_iff.mpr ⟨lsn, before, rfl⟩⟩)

instance (world : World σ) (participant : ParticipantId) (id : TransactionId) :
    Decidable (world.RolledBack participant id) :=
  decidable_of_iff (∃ call ∈ (world.participants participant).calls, call.isRollback id) (by
    constructor
    · rintro ⟨call, member, rollsBack⟩
      obtain ⟨lsn, before, rfl⟩ := StorageCall.isRollback_iff.mp rollsBack
      exact ⟨lsn, before, member⟩
    · rintro ⟨lsn, before, member⟩
      exact ⟨_, member, StorageCall.isRollback_iff.mpr ⟨lsn, before, rfl⟩⟩)

/-- No transaction has two decisions, or was committed by one participant and rolled back by
another. -/
structure Agreement (world : World σ) : Prop where
  decisions : ∀ id, ¬(world.Decided id true ∧ world.Decided id false)
  storage : ∀ id first second, ¬(world.Applied first id ∧ world.RolledBack second id)

end World

end JouleDB.TwoPhase
