import JouleDB.TwoPhase.Types
import Mathlib.Data.Finset.Card

/-!
# The transaction coordinator

A handler runs in sections: what it does between two waits, which is one access to the table of
transactions, one append to the log or one message.  A task is a handler with the section that it
runs next; between two sections of a task those of other tasks may run.
-/

namespace JouleDB.TwoPhase

/-- What the coordinator knows of a transaction. -/
structure CoordinatorTransaction where
  state : TransactionState
  participants : List ParticipantId
  operations : List TransactionOperation
  votes : FiniteMap ParticipantId Vote
  acks : Finset ParticipantId
  retries : Nat

namespace CoordinatorTransaction

/-- A transaction that begins. -/
def new (participants : List ParticipantId) (operations : List TransactionOperation) :
    CoordinatorTransaction :=
  ⟨.started, participants, operations, ∅, ∅, 0⟩

/-- As many votes have been received as there are participants. -/
def allVotesReceived (transaction : CoordinatorTransaction) : Bool :=
  transaction.votes.size = transaction.participants.length

/-- As many acknowledgements have been received as there are participants. -/
def allAcksReceived (transaction : CoordinatorTransaction) : Bool :=
  transaction.acks.card = transaction.participants.length

/-- All votes have been received and are for commit. -/
def shouldCommit (transaction : CoordinatorTransaction) : Bool :=
  transaction.allVotesReceived && transaction.votes.toList.all fun entry => entry.2 = .commit

end CoordinatorTransaction

/-- The coordinator. -/
structure Coordinator where
  nodeId : ParticipantId
  maxRetries : Nat
  transactions : FiniteMap TransactionId CoordinatorTransaction
  recoveryLog : RecoveryLog
  txnCounter : Nat

/-- A handler of the coordinator, by the section that it runs next. -/
inductive CoordinatorTask where
  /-- `begin_transaction`: log the start. -/
  | beginLog (id : TransactionId) (participants : List ParticipantId)
      (operations : List TransactionOperation)
  /-- `begin_transaction`: enter the transaction into the table. -/
  | beginInsert (id : TransactionId) (participants : List ParticipantId)
      (operations : List TransactionOperation)
  /-- `start_prepare_phase`: change the state. -/
  | prepareStart (id : TransactionId)
  /-- `start_prepare_phase`: log. -/
  | prepareLog (id : TransactionId) (participants : List ParticipantId)
      (operations : List TransactionOperation)
  /-- `start_prepare_phase`: send to the remaining participants. -/
  | prepareSend (id : TransactionId) (participants : List ParticipantId)
      (operations : List TransactionOperation) (timestamp : Nat) (remaining : List ParticipantId)
  /-- `handle_vote`: log. -/
  | voteLog (id : TransactionId) (participant : ParticipantId) (vote : Vote)
  /-- `handle_vote`: record the vote. -/
  | voteRecord (id : TransactionId) (participant : ParticipantId) (vote : Vote)
  /-- `make_decision`: read the votes. -/
  | decideRead (id : TransactionId)
  /-- `make_decision`: log the decision. -/
  | decideLog (id : TransactionId) (commit : Bool) (participants : List ParticipantId)
  /-- `make_decision`: change the state. -/
  | decideWrite (id : TransactionId) (commit : Bool) (participants : List ParticipantId)
  /-- `make_decision`: log that the decision is sent to the next participant. -/
  | decideLogSent (id : TransactionId) (commit : Bool) (timestamp : Nat)
      (remaining : List ParticipantId)
  /-- `make_decision`: send the decision to a participant. -/
  | decideSend (id : TransactionId) (commit : Bool) (timestamp : Nat)
      (participant : ParticipantId) (remaining : List ParticipantId)
  /-- `handle_ack`: log. -/
  | ackLog (id : TransactionId) (participant : ParticipantId)
  /-- `handle_ack`: record the acknowledgement. -/
  | ackRecord (id : TransactionId) (participant : ParticipantId)
  /-- `complete_transaction`: log. -/
  | completeLog (id : TransactionId) (finalState : TransactionState)
  /-- `complete_transaction`: change the state. -/
  | completeWrite (id : TransactionId) (finalState : TransactionState)
  /-- `handle_status_query`. -/
  | statusRead (id : TransactionId) (requester : ParticipantId)
  /-- `check_timeouts`: look for transactions that have timed out. -/
  | timeoutScan
  /-- `abort_transaction`: check and change the state; `others` are to be aborted afterwards. -/
  | abortLock (id : TransactionId) (reason : String) (others : List TransactionId)
  /-- `abort_transaction`: log the decision. -/
  | abortLog (id : TransactionId) (participants : List ParticipantId) (reason : String)
      (others : List TransactionId)
  /-- `abort_transaction`: send to the remaining participants. -/
  | abortSend (id : TransactionId) (remaining : List ParticipantId) (reason : String)
      (others : List TransactionId)
  deriving DecidableEq

/-- What a section finds in its environment: the time, and the transactions whose timeout is over,
in the order in which the table lists them. -/
structure Surroundings where
  timestamp : Nat
  expired : List TransactionId

namespace Coordinator

variable (coordinator : Coordinator)

/-- A coordinator without transactions. -/
def new (nodeId : ParticipantId) (maxRetries : Nat) : Coordinator :=
  ⟨nodeId, maxRetries, ∅, [], 1⟩

/-- A new transaction id. -/
def generateTxnId (timestamp : Nat) : TransactionId × Coordinator :=
  (coordinator.nodeId ++ ":" ++ toString timestamp ++ ":" ++ toString coordinator.txnCounter,
    { coordinator with txnCounter := coordinator.txnCounter + 1 })

/-- Append to the recovery log. -/
def log (id : TransactionId) (record : RecoveryLogRecordType) : Coordinator :=
  { coordinator with recoveryLog := coordinator.recoveryLog.append id record }

/-- Put a transaction into the table. -/
def put (id : TransactionId) (transaction : CoordinatorTransaction) : Coordinator :=
  { coordinator with transactions := coordinator.transactions.insert id transaction }

/-- The next transaction to abort. -/
def abortNext (reason : String) : List TransactionId → Option CoordinatorTask
  | [] => none
  | id :: others => some (.abortLock id reason others)

/-- The section of `check_timeouts` under the lock: the preparing transactions that have timed out
are to be aborted, the decided ones are tried again. -/
def scan (expired : List TransactionId) : List TransactionId × Coordinator :=
  (expired.filter fun id => coordinator.transactions[id]?.map (·.state) = some .preparing,
    expired.foldl (fun coordinator id =>
      match coordinator.transactions[id]? with
      | some transaction =>
          if (transaction.state = .committing ∨ transaction.state = .aborting) ∧
              transaction.retries < coordinator.maxRetries then
            coordinator.put id { transaction with retries := transaction.retries + 1 }
          else
            coordinator
      | none => coordinator) coordinator)

/-- Run one section of a task: the coordinator after it, the messages sent, and the task that is
left. -/
def runSection (surroundings : Surroundings) :
    CoordinatorTask → Coordinator × List Envelope × Option CoordinatorTask
  | .beginLog id participants operations =>
      (coordinator.log id (.transactionStart participants operations), [],
        some (.beginInsert id participants operations))
  | .beginInsert id participants operations =>
      if coordinator.transactions.contains id then
        (coordinator, [], none)
      else
        (coordinator.put id (.new participants operations), [], some (.prepareStart id))
  | .prepareStart id =>
      match coordinator.transactions[id]? with
      | none => (coordinator, [], none)
      | some transaction =>
          (coordinator.put id { transaction with state := .preparing }, [],
            some (.prepareLog id transaction.participants transaction.operations))
  | .prepareLog id participants operations =>
      (coordinator.log id .prepareSent, [],
        some (.prepareSend id participants operations surroundings.timestamp participants))
  | .prepareSend _ _ _ _ [] => (coordinator, [], none)
  | .prepareSend id participants operations timestamp (participant :: remaining) =>
      (coordinator,
        [(participant, .prepare id coordinator.nodeId participants operations timestamp)],
        some (.prepareSend id participants operations timestamp remaining))
  | .voteLog id participant vote =>
      (coordinator.log id (.voteReceived participant vote), [],
        some (.voteRecord id participant vote))
  | .voteRecord id participant vote =>
      match coordinator.transactions[id]? with
      | none => (coordinator, [], none)
      | some transaction =>
          if transaction.state ≠ .preparing then
            (coordinator, [], none)
          else
            let transaction :=
              { transaction with votes := transaction.votes.insert participant vote }
            (coordinator.put id transaction, [],
              if transaction.allVotesReceived then some (.decideRead id) else none)
  | .decideRead id =>
      match coordinator.transactions[id]? with
      | none => (coordinator, [], none)
      | some transaction =>
          (coordinator, [],
            some (.decideLog id transaction.shouldCommit transaction.participants))
  | .decideLog id commit participants =>
      (coordinator.log id (.decision commit), [], some (.decideWrite id commit participants))
  | .decideWrite id commit participants =>
      match coordinator.transactions[id]? with
      | none => (coordinator, [], none)
      | some transaction =>
          (coordinator.put id
              { transaction with state := if commit then .committing else .aborting }, [],
            some (.decideLogSent id commit surroundings.timestamp participants))
  | .decideLogSent _ _ _ [] => (coordinator, [], none)
  | .decideLogSent id commit timestamp (participant :: remaining) =>
      (coordinator.log id (.decisionSent participant), [],
        some (.decideSend id commit timestamp participant remaining))
  | .decideSend id commit timestamp participant remaining =>
      (coordinator,
        [(participant,
          if commit then .commit id coordinator.nodeId timestamp
          else .abort id coordinator.nodeId "One or more participants voted to abort")],
        some (.decideLogSent id commit timestamp remaining))
  | .ackLog id participant =>
      (coordinator.log id (.ackReceived participant), [], some (.ackRecord id participant))
  | .ackRecord id participant =>
      match coordinator.transactions[id]? with
      | none => (coordinator, [], none)
      | some transaction =>
          if transaction.state = .committing ∨ transaction.state = .aborting then
            let transaction := { transaction with acks := insert participant transaction.acks }
            (coordinator.put id transaction, [],
              if transaction.allAcksReceived then
                some (.completeLog id
                  (if transaction.state = .committing then .committed else .aborted))
              else
                none)
          else
            (coordinator, [], none)
  | .completeLog id finalState =>
      (coordinator.log id .transactionComplete, [], some (.completeWrite id finalState))
  | .completeWrite id finalState =>
      match coordinator.transactions[id]? with
      | none => (coordinator, [], none)
      | some transaction =>
          (coordinator.put id { transaction with state := finalState }, [], none)
  | .statusRead id requester =>
      let state := (coordinator.transactions[id]?.map (·.state)).getD .unknown
      (coordinator, [(requester, .statusResponse id state coordinator.nodeId)], none)
  | .timeoutScan =>
      let (timedOut, coordinator) := coordinator.scan surroundings.expired
      (coordinator, [], abortNext "Prepare phase timeout" timedOut)
  | .abortLock id reason others =>
      match coordinator.transactions[id]? with
      | none => (coordinator, [], abortNext reason others)
      | some transaction =>
          if transaction.state.canAbort then
            (coordinator.put id { transaction with state := .aborting }, [],
              some (.abortLog id transaction.participants reason others))
          else
            (coordinator, [], abortNext reason others)
  | .abortLog id participants reason others =>
      (coordinator.log id (.decision false), [], some (.abortSend id participants reason others))
  | .abortSend _ [] reason others => (coordinator, [], abortNext reason others)
  | .abortSend id (participant :: remaining) reason others =>
      (coordinator, [(participant, .abort id coordinator.nodeId reason)],
        some (.abortSend id remaining reason others))

end Coordinator

end JouleDB.TwoPhase
