import JouleDB.Lib.Bytes
import JouleDB.Lib.FiniteMap

/-!
# Two-phase commit: states, messages and log records
-/

namespace JouleDB.TwoPhase

abbrev TransactionId := String

abbrev ParticipantId := String

abbrev LogSequenceNumber := Nat

/-- The state of a transaction, at the coordinator or at a participant. -/
inductive TransactionState where
  | started
  | preparing
  | prepared
  | committing
  | committed
  | aborting
  | aborted
  | unknown
  deriving DecidableEq, Repr

namespace TransactionState

/-- The transaction can be aborted. -/
def canAbort : TransactionState → Bool
  | .started | .preparing | .prepared | .aborting => true
  | _ => false

end TransactionState

/-- The vote of a participant. -/
inductive Vote where
  | commit
  | abort
  deriving DecidableEq, Repr

/-- An operation of a transaction. -/
inductive TransactionOperation where
  | put (key value : Bytes)
  | delete (key : Bytes)
  | conditionalPut (key : Bytes) (expectedValue : Option Bytes) (newValue : Bytes)
  deriving DecidableEq

/-- The messages of the protocol. -/
inductive TwoPhaseMessage where
  | prepare (transactionId : TransactionId) (coordinatorId : ParticipantId)
      (participants : List ParticipantId) (operations : List TransactionOperation)
      (timestamp : Nat)
  | vote (transactionId : TransactionId) (participantId : ParticipantId) (vote : Vote)
      (preparedLsn : Option LogSequenceNumber)
  | commit (transactionId : TransactionId) (coordinatorId : ParticipantId)
      (commitTimestamp : Nat)
  | abort (transactionId : TransactionId) (coordinatorId : ParticipantId) (reason : String)
  | ack (transactionId : TransactionId) (participantId : ParticipantId) (success : Bool)
      (error : Option String)
  | queryStatus (transactionId : TransactionId) (requesterId : ParticipantId)
  | statusResponse (transactionId : TransactionId) (state : TransactionState)
      (responderId : ParticipantId)
  deriving DecidableEq

/-- A message with the node that it is for. -/
abbrev Envelope := ParticipantId × TwoPhaseMessage

/-- The records of the recovery log. -/
inductive RecoveryLogRecordType where
  | transactionStart (participants : List ParticipantId) (operations : List TransactionOperation)
  | prepareSent
  | voteReceived (participantId : ParticipantId) (vote : Vote)
  | decision (commit : Bool)
  | decisionSent (participantId : ParticipantId)
  | ackReceived (participantId : ParticipantId)
  | transactionComplete
  | prepareReceived (coordinatorId : ParticipantId)
  | voteSent (vote : Vote)
  | decisionReceived (commit : Bool)
  | applied
  deriving DecidableEq

/-- The recovery log, the oldest record first. -/
abbrev RecoveryLog := List (TransactionId × RecoveryLogRecordType)

namespace RecoveryLog

def append (log : RecoveryLog) (transactionId : TransactionId) (record : RecoveryLogRecordType) :
    RecoveryLog :=
  log ++ [(transactionId, record)]

/-- The records of a transaction. -/
def entriesOf (log : RecoveryLog) (transactionId : TransactionId) : List RecoveryLogRecordType :=
  (log.filter fun entry => entry.1 = transactionId).map Prod.snd

/-- The transactions that are not complete, with their records. -/
def getIncompleteTransactions (log : RecoveryLog) :
    List (TransactionId × List RecoveryLogRecordType) :=
  ((log.map Prod.fst).dedup.map fun transactionId =>
    (transactionId, RecoveryLog.entriesOf log transactionId)).filter
    fun entry => .transactionComplete ∉ entry.2

end RecoveryLog

end JouleDB.TwoPhase
