import JouleDB.Lib.AssocList
import JouleDB.TwoPhase.Settled

/-!
# Counting votes

Votes on a transaction arrive one after the other, from anyone.  The coordinator counts senders
against the length of the list of participants, and looks at the latest vote of every sender.
-/

namespace JouleDB.TwoPhase

/-- The part of a vote message that the coordinator uses: who sent it, and the vote. -/
abbrev VoteMessage := ParticipantId × Vote

/-- The latest vote of a sender. -/
def lastVote (messages : List VoteMessage) (sender : ParticipantId) : Option Vote :=
  messages.reverse.lookup sender

/-- Those who have sent a vote. -/
def senders (messages : List VoteMessage) : Finset ParticipantId :=
  (messages.map Prod.fst).toFinset

namespace CoordinatorTransaction

/-- A vote is counted while the transaction is preparing; with the last one it is decided. -/
def receive (transaction : CoordinatorTransaction) (message : VoteMessage) :
    CoordinatorTransaction :=
  if transaction.state ≠ .preparing then
    transaction
  else
    let voted := transaction.withVote message.1 message.2
    if voted.allVotesReceived then
      { voted with state := if voted.shouldCommit then .committing else .aborting }
    else
      voted

end CoordinatorTransaction

namespace Coordinator

/-- Run a task up to its end, and what is left of it. -/
def runTask (surroundings : Surroundings) :
    Nat → Coordinator → CoordinatorTask → Coordinator × Option CoordinatorTask
  | 0, coordinator, task => (coordinator, some task)
  | fuel + 1, coordinator, task =>
      match coordinator.runSection surroundings task with
      | (after, _, none) => (after, none)
      | (after, _, some next) => runTask surroundings fuel after next

/-- Enough sections for a vote: five up to a decision, and two for each participant to send it. -/
def voteSections (coordinator : Coordinator) (id : TransactionId) : Nat :=
  6 + 2 * (coordinator.transactions[id]?.elim 0 (·.participants.length))

variable (surroundings : Surroundings) (id : TransactionId)

/-- Handle a vote message. -/
def handleVote (coordinator : Coordinator) (message : VoteMessage) : Coordinator :=
  (coordinator.runTask surroundings (coordinator.voteSections id)
    (.voteLog id message.1 message.2)).1

/-- Handle vote messages one after the other. -/
def handleVotes (coordinator : Coordinator) (messages : List VoteMessage) : Coordinator :=
  messages.foldl (handleVote surroundings id) coordinator

/-- The coordinator decides to commit while it handles a message. -/
def DecidesCommit (coordinator : Coordinator) (message : VoteMessage) : Prop :=
  (id, .decision true) ∈ (coordinator.handleVote surroundings id message).recoveryLog.drop
    coordinator.recoveryLog.length

/-- The coordinator decides to commit only when the latest vote of every participant is for
commit. -/
def NeedsEveryVote (coordinator : Coordinator) (participants : List ParticipantId)
    (messages : List VoteMessage) : Prop :=
  ∀ front message, front ++ [message] <+: messages →
    DecidesCommit surroundings id (coordinator.handleVotes surroundings id front) message →
      ∀ participant ∈ participants, lastVote (front ++ [message]) participant = some .commit

/-! ## One vote -/

variable {surroundings id} {coordinator : Coordinator} {transaction : CoordinatorTransaction}

variable (surroundings) in
theorem runTask_decideLogSent {commit : Bool} {timestamp : Nat} (remaining : List ParticipantId)
    {fuel : Nat} (enough : 2 * remaining.length < fuel) (coordinator : Coordinator) :
    ∃ entries : RecoveryLog,
      coordinator.runTask surroundings fuel (.decideLogSent id commit timestamp remaining) =
        ({ coordinator with recoveryLog := coordinator.recoveryLog ++ entries }, none) ∧
      (id, .decision true) ∉ entries := by
  induction remaining generalizing fuel coordinator with
  | nil =>
      obtain ⟨fuel, rfl⟩ := Nat.exists_eq_succ_of_ne_zero (Nat.ne_zero_of_lt enough)
      exact ⟨[], by rw [List.append_nil]; rfl, by simp⟩
  | cons participant remaining ih =>
      obtain ⟨fuel, rfl⟩ : ∃ rest, fuel = rest + 2 :=
        Nat.exists_eq_add_of_le' (by rw [List.length_cons] at enough; omega)
      rw [List.length_cons] at enough
      obtain ⟨entries, ran, silent⟩ := ih (by omega : 2 * remaining.length < fuel)
        (coordinator.log id (.decisionSent participant))
      refine ⟨(id, .decisionSent participant) :: entries, ?_, by simpa using silent⟩
      change runTask surroundings fuel (coordinator.log id (.decisionSent participant))
        (.decideLogSent id commit timestamp remaining) = _
      rw [ran]
      simp [log, RecoveryLog.append]

/-- What handling a vote does to the transaction, and whether it is a decision to commit. -/
structure Handled (coordinator after : Coordinator) (id : TransactionId)
    (before later : CoordinatorTransaction) : Prop where
  found : after.transactions[id]? = some later
  log : ∃ entries : RecoveryLog, after.recoveryLog = coordinator.recoveryLog ++ entries ∧
    ((id, .decision true) ∈ entries ↔ before.state = .preparing ∧ later.state = .committing)

theorem found_put (coordinator : Coordinator) (id : TransactionId)
    (transaction : CoordinatorTransaction) :
    (coordinator.put id transaction).transactions[id]? = some transaction :=
  Std.ExtTreeMap.getElem?_insert_self

/-- A decision is made from the votes as they are, logged and sent. -/
theorem runTask_decideRead (found : coordinator.transactions[id]? = some transaction) :
    ∃ (after : Coordinator) (entries : RecoveryLog),
      coordinator.runTask surroundings (2 * transaction.participants.length + 4)
        (.decideRead id) = (after, none) ∧
      after.transactions[id]? = some { transaction with
        state := if transaction.shouldCommit then .committing else .aborting } ∧
      after.recoveryLog = coordinator.recoveryLog ++ entries ∧
      ((id, .decision true) ∈ entries ↔ transaction.shouldCommit = true) := by
  have written : coordinator.runTask surroundings (2 * transaction.participants.length + 4)
      (.decideRead id) =
      runTask surroundings (2 * transaction.participants.length + 1)
        ((coordinator.log id (.decision transaction.shouldCommit)).put id { transaction with
          state := if transaction.shouldCommit then .committing else .aborting })
        (.decideLogSent id transaction.shouldCommit surroundings.timestamp
          transaction.participants) := by
    have stillFound : (coordinator.log id (.decision transaction.shouldCommit)).transactions[id]? =
        some transaction := found
    rw [runTask, runSection, found]
    dsimp only
    rw [runTask, runSection]
    dsimp only
    rw [runTask, runSection, stillFound]
  obtain ⟨entries, ran, silent⟩ := runTask_decideLogSent surroundings
    transaction.participants (Nat.lt_succ_self _) ((coordinator.log id
      (.decision transaction.shouldCommit)).put id { transaction with
        state := if transaction.shouldCommit then .committing else .aborting })
  refine ⟨_, (id, .decision transaction.shouldCommit) :: entries, written.trans ran,
    found_put _ _ _, ?_, ?_⟩
  · simp [log, put, RecoveryLog.append]
  · cases transaction.shouldCommit <;> simp [silent]

variable (surroundings) in
theorem runTask_voteLog (found : coordinator.transactions[id]? = some transaction)
    (message : VoteMessage) :
    ∃ after, coordinator.runTask surroundings (coordinator.voteSections id)
        (.voteLog id message.1 message.2) = (after, none) ∧
      Handled coordinator after id transaction (transaction.receive message) := by
  rw [voteSections, found, Option.elim_some]
  have logged : coordinator.runTask surroundings (6 + 2 * transaction.participants.length)
      (.voteLog id message.1 message.2) =
      runTask surroundings (5 + 2 * transaction.participants.length)
        (coordinator.log id (.voteReceived message.1 message.2))
        (.voteRecord id message.1 message.2) := by
    rw [show 6 + 2 * transaction.participants.length =
      5 + 2 * transaction.participants.length + 1 by omega]
    rfl
  rw [logged, show 5 + 2 * transaction.participants.length =
    2 * transaction.participants.length + 4 + 1 by omega, runTask, runSection]
  have stillFound : (coordinator.log id (.voteReceived message.1 message.2)).transactions[id]? =
      some transaction := found
  rw [stillFound, CoordinatorTransaction.receive]
  dsimp only
  by_cases late : transaction.state ≠ .preparing
  · rw [if_pos late, if_pos late]
    refine ⟨_, rfl, found, [_], rfl, ?_⟩
    simp [late]
  · rw [if_neg late, if_neg late]
    rw [not_not] at late
    generalize isVoted : transaction.withVote message.1 message.2 = voted
    have sameParticipants : voted.participants = transaction.participants := by
      rw [← isVoted]
      rfl
    have counted : ({ transaction with votes := transaction.votes.insert message.1 message.2 } :
        CoordinatorTransaction) = voted := isVoted
    rw [counted]
    by_cases all : voted.allVotesReceived = true
    · rw [if_pos all, if_pos all]
      dsimp only
      rw [← sameParticipants]
      obtain ⟨after, entries, ran, foundAfter, isLog, decided⟩ :=
        runTask_decideRead (found_put (coordinator.log id (.voteReceived message.1 message.2)) id
          voted)
      refine ⟨after, ran, foundAfter, (id, .voteReceived message.1 message.2) :: entries, ?_, ?_⟩
      · rw [isLog]
        exact List.append_assoc _ _ _
      · rw [List.mem_cons]
        cases commits : voted.shouldCommit <;> simp [commits, decided, late]
    · rw [if_neg all, if_neg all]
      refine ⟨_, rfl, found_put _ _ _, [_], rfl, ?_⟩
      rw [List.mem_singleton]
      have preparing : voted.state = .preparing := by
        rw [← isVoted]
        exact late
      simp [preparing]

variable (surroundings) in
theorem handleVote_handled (found : coordinator.transactions[id]? = some transaction)
    (message : VoteMessage) :
    Handled coordinator (coordinator.handleVote surroundings id message) id transaction
      (transaction.receive message) := by
  obtain ⟨after, ran, handled⟩ := runTask_voteLog surroundings found message
  rw [handleVote, ran]
  exact handled

/-- A decision to commit takes a transaction from preparing to committing. -/
theorem decidesCommit_iff (found : coordinator.transactions[id]? = some transaction)
    (message : VoteMessage) :
    DecidesCommit surroundings id coordinator message ↔
      transaction.state = .preparing ∧ (transaction.receive message).state = .committing := by
  obtain ⟨entries, isLog, decided⟩ :=
    (handleVote_handled surroundings found message).log
  rw [DecidesCommit, isLog, List.drop_left]
  exact decided

end Coordinator

/-! ## Many votes -/

/-- The votes that a coordinator has recorded after some messages. -/
def votesOf (messages : List VoteMessage) : FiniteMap ParticipantId Vote :=
  messages.foldl (fun votes message => votes.insert message.1 message.2) ∅

section Messages

variable {messages : List VoteMessage} {message : VoteMessage} {sender : ParticipantId}

theorem votesOf_concat : votesOf (messages ++ [message]) =
    (votesOf messages).insert message.1 message.2 := by
  rw [votesOf, List.foldl_concat]
  rfl

theorem senders_concat : senders (messages ++ [message]) = insert message.1 (senders messages) := by
  ext sender
  simp [senders]

theorem lastVote_concat : lastVote (messages ++ [message]) sender =
    if sender = message.1 then some message.2 else lastVote messages sender := by
  rw [lastVote, List.reverse_concat, lookup_cons_ite]
  rfl

theorem getElem?_votesOf : (votesOf messages)[sender]? = lastVote messages sender := by
  induction messages using List.reverseRecOn with
  | nil => rfl
  | append_singleton messages message ih =>
      rw [votesOf_concat, lastVote_concat, Std.ExtTreeMap.getElem?_insert, ih]
      by_cases equal : sender = message.1
      · subst equal
        simp
      · rw [if_neg equal, if_neg fun same => equal (Std.LawfulEqCmp.eq_of_compare same).symm]

theorem mem_senders_iff : sender ∈ senders messages ↔ (lastVote messages sender).isSome = true := by
  induction messages using List.reverseRecOn with
  | nil => simp [senders, lastVote]
  | append_singleton messages message ih =>
      rw [senders_concat, Finset.mem_insert, lastVote_concat, ih]
      split
      next equal => simp [equal]
      next other => simp [other]

theorem size_votesOf : (votesOf messages).size = (senders messages).card := by
  induction messages using List.reverseRecOn with
  | nil => rfl
  | append_singleton messages message ih =>
      have known : (votesOf messages).contains message.1 = true ↔ message.1 ∈ senders messages := by
        rw [Std.ExtTreeMap.contains_iff_mem, Std.ExtTreeMap.mem_iff_isSome_getElem?,
          getElem?_votesOf, mem_senders_iff]
      rw [votesOf_concat, senders_concat, Std.ExtTreeMap.size_insert, Finset.card_insert_eq_ite, ih]
      by_cases member : message.1 ∈ senders messages
      · rw [if_pos (known.mpr member), if_pos member]
      · rw [if_neg (mt known.mp member), if_neg member]

end Messages

namespace CoordinatorTransaction

variable {participants : List ParticipantId} {messages : List VoteMessage} {message : VoteMessage}
  {transaction : CoordinatorTransaction}

theorem allVotesReceived_iff (votes : transaction.votes = votesOf messages) :
    transaction.allVotesReceived = true ↔
      (senders messages).card = transaction.participants.length := by
  rw [allVotesReceived, votes, size_votesOf, decide_eq_true_iff]

theorem shouldCommit_iff (votes : transaction.votes = votesOf messages) :
    transaction.shouldCommit = true ↔
      (senders messages).card = transaction.participants.length ∧
        ∀ sender ∈ senders messages, lastVote messages sender = some .commit := by
  rw [shouldCommit, Bool.and_eq_true, allVotesReceived_iff votes, votes, List.all_eq_true]
  refine and_congr_right fun _ => ?_
  constructor
  · intro all sender member
    obtain ⟨vote, isVote⟩ := Option.isSome_iff_exists.mp (mem_senders_iff.mp member)
    rw [← getElem?_votesOf] at isVote
    have commits := all (sender, vote) (Std.ExtTreeMap.mem_toList_iff_getElem?_eq_some.mpr isVote)
    rw [← getElem?_votesOf, isVote]
    exact congrArg some (of_decide_eq_true commits)
  · rintro all ⟨sender, vote⟩ member
    have isVote := Std.ExtTreeMap.mem_toList_iff_getElem?_eq_some.mp member
    rw [getElem?_votesOf] at isVote
    have commits := all sender (mem_senders_iff.mpr (by rw [isVote]; rfl))
    rw [isVote] at commits
    exact decide_eq_true (Option.some.inj commits)

/-- Where a transaction stands after some messages. -/
structure Counts (participants : List ParticipantId) (messages : List VoteMessage)
    (transaction : CoordinatorTransaction) : Prop where
  list : transaction.participants = participants
  votes : transaction.state = .preparing → transaction.votes = votesOf messages
  waiting : transaction.state = .preparing →
    messages = [] ∨ (senders messages).card ≠ participants.length
  decided : transaction.state ≠ .preparing → participants.length ≤ (senders messages).card

/-- A vote on a transaction that is preparing is counted. -/
theorem Counts.voted (counts : transaction.Counts participants messages)
    (preparing : transaction.state = .preparing) (message : VoteMessage) :
    (transaction.withVote message.1 message.2).votes = votesOf (messages ++ [message]) := by
  rw [withVote, votesOf_concat, counts.votes preparing]

theorem Counts.receive (counts : transaction.Counts participants messages) :
    (transaction.receive message).Counts participants (messages ++ [message]) := by
  rw [CoordinatorTransaction.receive]
  by_cases preparing : transaction.state = .preparing
  · rw [if_neg (not_not.mpr preparing)]
    have votes := counts.voted preparing message
    have all := allVotesReceived_iff votes
    dsimp only
    split
    next received =>
      have full := all.mp received
      have decided : (if (transaction.withVote message.1 message.2).shouldCommit = true
          then TransactionState.committing else .aborting) ≠ .preparing := by
        split <;> decide
      exact ⟨counts.list, fun still => absurd still decided, fun still => absurd still decided,
        fun _ => (full.trans (congrArg List.length counts.list)).ge⟩
    next waits =>
      refine ⟨counts.list, fun _ => votes, fun _ => .inr ?_, fun other => absurd preparing other⟩
      rw [← counts.list]
      exact mt all.mpr waits
  · rw [if_pos preparing]
    refine ⟨counts.list, fun still => absurd still preparing, fun still => absurd still preparing,
      fun other => (counts.decided other).trans (Finset.card_le_card ?_)⟩
    rw [senders_concat]
    exact Finset.subset_insert _ _

theorem Counts.commits_iff (counts : transaction.Counts participants messages) :
    transaction.state = .preparing ∧ (transaction.receive message).state = .committing ↔
      (senders messages).card < participants.length ∧
        (senders (messages ++ [message])).card = participants.length ∧
        ∀ sender ∈ senders (messages ++ [message]),
          lastVote (messages ++ [message]) sender = some .commit := by
  have more : (senders messages).card ≤ (senders (messages ++ [message])).card := by
    rw [senders_concat]
    exact Finset.card_le_card (Finset.subset_insert _ _)
  by_cases preparing : transaction.state = .preparing
  · have votes := counts.voted preparing message
    have commits := shouldCommit_iff votes
    have list : (transaction.withVote message.1 message.2).participants = participants :=
      counts.list
    rw [list] at commits
    have decides : (transaction.receive message).state = .committing ↔
        (transaction.withVote message.1 message.2).shouldCommit = true := by
      rw [CoordinatorTransaction.receive, if_neg (not_not.mpr preparing)]
      dsimp only
      split
      next => cases (transaction.withVote message.1 message.2).shouldCommit <;> simp
      next waits =>
        refine iff_of_false (fun isState => ?_) fun should => waits
          (allVotesReceived_of_shouldCommit should)
        exact absurd (preparing.symm.trans isState) (by decide)
    rw [decides, commits]
    constructor
    · rintro ⟨_, full, all⟩
      refine ⟨lt_of_le_of_ne (more.trans full.le) ?_, full, all⟩
      rcases counts.waiting preparing with rfl | other
      · have positive : 0 < (senders ([] ++ [message])).card := by simp [senders]
        rw [full] at positive
        exact positive.ne
      · exact other
    · rintro ⟨_, full, all⟩
      exact ⟨preparing, full, all⟩
  · refine iff_of_false (fun both => preparing both.1) fun few => ?_
    exact absurd few.1 (not_lt.mpr (counts.decided preparing))

end CoordinatorTransaction

/-- A decision to commit takes as many senders as the list of participants is long.  Then no more
of them are outside the list than the list has repetitions. -/
def FewOutsiders (participants : List ParticipantId) (messages : List VoteMessage) : Prop :=
  ∀ front message, front ++ [message] <+: messages →
    (senders front).card < participants.length →
    (senders (front ++ [message])).card = participants.length →
    (∀ sender ∈ senders (front ++ [message]),
      lastVote (front ++ [message]) sender = some .commit) →
    (senders (front ++ [message]) \ participants.toFinset).card ≤
      participants.length - participants.toFinset.card

/-- Every participant is among the senders if few of these are outside the list. -/
theorem every_iff_few {participants : List ParticipantId} {messages : List VoteMessage}
    (full : (senders messages).card = participants.length)
    (all : ∀ sender ∈ senders messages, lastVote messages sender = some .commit) :
    (∀ participant ∈ participants, lastVote messages participant = some .commit) ↔
      (senders messages \ participants.toFinset).card ≤
        participants.length - participants.toFinset.card := by
  have parts := Finset.card_sdiff_add_card_inter (senders messages) participants.toFinset
  have repeated := List.toFinset_card_le participants
  constructor
  · intro every
    have inside : participants.toFinset ⊆ senders messages ∩ participants.toFinset := by
      intro participant member
      refine Finset.mem_inter.mpr ⟨mem_senders_iff.mpr ?_, member⟩
      rw [every participant (List.mem_toFinset.mp member)]
      rfl
    have many := Finset.card_le_card inside
    omega
  · intro few participant member
    have many : participants.toFinset.card ≤
        (senders messages ∩ participants.toFinset).card := by omega
    have inside := Finset.eq_of_subset_of_card_le Finset.inter_subset_right many
    have isMember : participant ∈ senders messages ∩ participants.toFinset := by
      rw [inside]
      exact List.mem_toFinset.mpr member
    exact all participant (Finset.mem_inter.mp isMember).1

namespace Coordinator

variable {surroundings : Surroundings} {id : TransactionId} {coordinator : Coordinator}
  {participants : List ParticipantId} {operations : List TransactionOperation}

/-- A transaction whose prepare phase has started and that has no votes yet. -/
def Prepares (coordinator : Coordinator) (id : TransactionId) (participants : List ParticipantId)
    (operations : List TransactionOperation) : Prop :=
  coordinator.transactions[id]? =
    some { CoordinatorTransaction.new participants operations with state := .preparing }

theorem counts_handleVotes (prepares : coordinator.Prepares id participants operations)
    (messages : List VoteMessage) :
    ∃ transaction, (coordinator.handleVotes surroundings id messages).transactions[id]? =
        some transaction ∧ transaction.Counts participants messages := by
  induction messages using List.reverseRecOn with
  | nil =>
      refine ⟨_, prepares, rfl, fun _ => rfl, fun _ => .inl rfl, fun other => absurd rfl other⟩
  | append_singleton messages message ih =>
      obtain ⟨transaction, found, counts⟩ := ih
      rw [handleVotes, List.foldl_concat]
      exact ⟨_, (handleVote_handled surroundings found message).found, counts.receive⟩

theorem decidesCommit_handleVotes_iff (prepares : coordinator.Prepares id participants operations)
    (front : List VoteMessage) (message : VoteMessage) :
    DecidesCommit surroundings id (coordinator.handleVotes surroundings id front) message ↔
      (senders front).card < participants.length ∧
        (senders (front ++ [message])).card = participants.length ∧
        ∀ sender ∈ senders (front ++ [message]),
          lastVote (front ++ [message]) sender = some .commit := by
  obtain ⟨transaction, found, counts⟩ := counts_handleVotes prepares front
  exact (decidesCommit_iff found message).trans counts.commits_iff

/-- A coordinator decides to commit only when every participant has voted for it, if and only if
no more senders are outside the list of participants than it has repetitions whenever such a
decision is made. -/
theorem needsEveryVote_iff (prepares : coordinator.Prepares id participants operations)
    (messages : List VoteMessage) :
    coordinator.NeedsEveryVote surroundings id participants messages ↔
      FewOutsiders participants messages := by
  constructor
  · intro needs front message isFront waiting full all
    have every := needs front message isFront
      ((decidesCommit_handleVotes_iff prepares front message).mpr ⟨waiting, full, all⟩)
    exact (every_iff_few full all).mp every
  · intro few front message isFront decided
    obtain ⟨waiting, full, all⟩ := (decidesCommit_handleVotes_iff prepares front message).mp decided
    exact (every_iff_few full all).mpr (few front message isFront waiting full all)

/-- A coordinator that prepares one transaction of two participants. -/
def preparingPair : Coordinator :=
  (Coordinator.new "coordinator" 3).put "transaction"
    { CoordinatorTransaction.new ["a", "b"] [] with state := .preparing }

theorem preparingPair_prepares : preparingPair.Prepares "transaction" ["a", "b"] [] :=
  found_put _ _ _

theorem needsEveryVote_iff_pair :
    preparingPair.NeedsEveryVote ⟨0, []⟩ "transaction" ["a", "b"] [("a", .commit), ("b", .commit)] ↔
      FewOutsiders ["a", "b"] [("a", .commit), ("b", .commit)] :=
  needsEveryVote_iff preparingPair_prepares _

/-- A stranger's vote stands for that of a participant. -/
theorem not_needsEveryVote :
    ¬preparingPair.NeedsEveryVote ⟨0, []⟩ "transaction" ["a", "b"]
      [("a", .commit), ("stranger", .commit)] := by
  intro needs
  have voted := needs [("a", .commit)] ("stranger", .commit) (List.prefix_refl _)
    ((decidesCommit_handleVotes_iff preparingPair_prepares _ _).mpr
      ⟨by decide, by decide, by decide⟩) "b" (by decide)
  revert voted
  decide

end Coordinator

end JouleDB.TwoPhase
