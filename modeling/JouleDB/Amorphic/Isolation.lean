import JouleDB.Amorphic.Snapshots

/-!
# How amorphic transactions are isolated

A commit compares nothing with what was committed since the transaction began: write locks are
released by commits, the read set stays empty, and predicate locks vanish with their transactions.
Runs in which no commit comes too late lose no update and are equivalent to running the committed
transactions one at a time, in the order of their commits.
-/

namespace JouleDB.Amorphic

variable {Data Bound : Type}

/-- The records and their data, for transactions that run one at a time. -/
abbrev SerialState (Data : Type) := RecordId → Option Data

namespace Event

/-- The result of a read or write is what running it alone gives. -/
def Agrees (state : SerialState Data) : Event Data → Prop
  | .get record result => result = state record
  | .put _ _ => True
  | .delete record existed => existed = (state record).isSome

/-- The effect of a read or write that runs alone. -/
def apply (state : SerialState Data) : Event Data → SerialState Data
  | .get _ _ => state
  | .put record data => Function.update state record (some data)
  | .delete record _ => Function.update state record none

/-- Records that are not named keep their data. -/
theorem foldl_apply_of_ne {trace : List (Event Data)} {record : RecordId}
    (absent : ∀ event ∈ trace, event.record ≠ record) (state : SerialState Data) :
    trace.foldl apply state record = state record := by
  induction trace generalizing state with
  | nil => rfl
  | cons event trace ih =>
      have apart := absent event List.mem_cons_self
      rw [List.foldl_cons, ih fun other member => absent other (List.mem_cons_of_mem _ member)]
      cases event with
      | get other result => rfl
      | put other data => exact Function.update_of_ne (Ne.symm apart) _ _
      | delete other existed => exact Function.update_of_ne (Ne.symm apart) _ _

theorem allMeet_congr {trace : List (Event Data)} {named : RecordId → Prop}
    (names : ∀ event ∈ trace, named event.record) {first second : SerialState Data}
    (same : ∀ record, named record → first record = second record)
    (agrees : AllMeet apply Agrees first trace) :
    AllMeet apply Agrees second trace ∧
      ∀ record, named record → trace.foldl apply first record = trace.foldl apply second record := by
  induction trace generalizing first second with
  | nil => exact ⟨trivial, same⟩
  | cons event trace ih =>
      have here := same event.record (names event List.mem_cons_self)
      have after : ∀ record, named record → apply first event record = apply second event record := by
        intro record isNamed
        cases event with
        | get other result => exact same record isNamed
        | put other data => simp only [apply, Function.update_apply, same record isNamed]
        | delete other existed => simp only [apply, Function.update_apply, same record isNamed]
      obtain ⟨rest, final⟩ := ih (fun other member => names other (List.mem_cons_of_mem _ member))
        after agrees.2
      refine ⟨⟨?_, rest⟩, final⟩
      cases event with
      | get record result => exact agrees.1.trans here
      | put record data => trivial
      | delete record existed => exact agrees.1.trans (congrArg Option.isSome here)

theorem allMeet_append {front back : List (Event Data)} {state : SerialState Data} :
    AllMeet apply Agrees state (front ++ back) ↔
      AllMeet apply Agrees state front ∧ AllMeet apply Agrees (front.foldl apply state) back := by
  induction front generalizing state with
  | nil => simp [AllMeet]
  | cons event front ih =>
      rw [List.cons_append, AllMeet, AllMeet, ih, List.foldl_cons, and_assoc]

end Event

/-- What a transaction sees of a record: its own write, or else its snapshot. -/
def overlay (writeSet : FiniteMap RecordId (WriteOp Data)) (snapshot : SerialState Data) :
    SerialState Data :=
  fun record =>
    match writeSet[record]? with
    | some (.put data) => some data
    | some .delete => none
    | none => snapshot record

/-- The records as the commits up to a timestamp left them. -/
def snapshotAt (history : List (Commit Data)) (ts : Timestamp) : SerialState Data :=
  fun record => valueAt (writesOf history record) ts

theorem snapshotAt_concat {history : List (Commit Data)} {commit : Commit Data} {ts : Timestamp}
    (later : ts < commit.commitTs) : snapshotAt (history ++ [commit]) ts = snapshotAt history ts := by
  funext record
  unfold snapshotAt
  rw [writesOf_concat]
  cases commit.writeSet[record]? with
  | none => simp
  | some op =>
      rw [Option.map_some, Option.toList_some, valueAt_concat, if_neg later.not_ge]

/-- Two snapshots of a record are the same if no write of it came between. -/
theorem snapshotAt_congr {history : List (Commit Data)} {first second : Timestamp}
    {record : RecordId}
    (same : ∀ commit ∈ history, commit.writeSet[record]?.isSome →
      (commit.commitTs ≤ first ↔ commit.commitTs ≤ second)) :
    snapshotAt history first record = snapshotAt history second record := by
  unfold snapshotAt valueAt
  rw [lastWith_congr]
  rintro ⟨commitTs, op⟩ member
  obtain ⟨commit, inHistory, rfl, held⟩ := mem_writesOf.mp member
  simp [same commit inHistory (by rw [held]; rfl)]

/-- The results of a transaction are those of running it alone on its snapshot. -/
structure Session.Faithful (session : Session Data Bound) (snapshot : SerialState Data) : Prop where
  agrees : AllMeet Event.apply Event.Agrees snapshot session.trace
  state : session.trace.foldl Event.apply snapshot = overlay session.transaction.writeSet snapshot
  named : ∀ record, session.transaction.writeSet[record]?.isSome →
    ∃ event ∈ session.trace, event.record = record

/-- The trace goes on with an event that agrees with what the transaction sees. -/
theorem Session.Faithful.concat {before after : Session Data Bound} {snapshot : SerialState Data}
    (faithful : before.Faithful snapshot) {event : Event Data}
    (trace : after.trace = before.trace ++ [event])
    (agrees : event.Agrees (overlay before.transaction.writeSet snapshot))
    (state : event.apply (overlay before.transaction.writeSet snapshot) =
      overlay after.transaction.writeSet snapshot)
    (named : ∀ record, after.transaction.writeSet[record]?.isSome →
      before.transaction.writeSet[record]?.isSome ∨ event.record = record) :
    after.Faithful snapshot where
  agrees := by
    rw [trace, Event.allMeet_append, faithful.state]
    exact ⟨faithful.agrees, agrees, trivial⟩
  state := by rw [trace, List.foldl_concat, faithful.state, state]
  named := by
    intro record held
    rw [trace]
    rcases named record held with old | same
    · obtain ⟨earlier, member, equal⟩ := faithful.named record old
      exact ⟨earlier, List.mem_append_left _ member, equal⟩
    · exact ⟨event, by simp, same⟩

theorem overlay_insert (writeSet : FiniteMap RecordId (WriteOp Data)) (snapshot : SerialState Data)
    (record : RecordId) (op : WriteOp Data) :
    overlay (writeSet.insert record op) snapshot =
      Function.update (overlay writeSet snapshot) record
        (match op with | .put data => some data | .delete => none) := by
  funext other
  unfold overlay
  by_cases equal : other = record
  · subst equal
    rw [Function.update_self, Std.ExtTreeMap.getElem?_insert_self]
    cases op <;> rfl
  · rw [Function.update_of_ne equal, Std.ExtTreeMap.getElem?_insert,
      if_neg (by simpa using Ne.symm equal)]

/-- A transaction that goes on agrees with its snapshot. -/
theorem Session.Faithful.advances {before after : Session Data Bound}
    {snapshot : SerialState Data} {store : VersionStore Data Bound}
    (faithful : before.Faithful snapshot) (advance : before.Advances store after)
    (reads : ∀ record, before.transaction.getRecord store record =
      .ok (overlay before.transaction.writeSet snapshot record)) : after.Faithful snapshot := by
  have named : ∀ {record op}, after.transaction.writeSet =
      before.transaction.writeSet.insert record op → ∀ other,
      after.transaction.writeSet[other]?.isSome →
        before.transaction.writeSet[other]?.isSome ∨ record = other := by
    intro record op equal other held
    by_cases same : record = other
    · exact .inr same
    · rw [equal, Std.ExtTreeMap.getElem?_insert, if_neg (by simpa using same)] at held
      exact .inl held
  rcases advance.effect with ⟨trace, writes⟩ | ⟨record, result, read, trace, writes⟩ |
    ⟨record, data, trace, writes⟩ | ⟨record, found, read, trace, writes⟩
  · exact ⟨by rw [trace]; exact faithful.agrees, by rw [trace, writes]; exact faithful.state,
      by rw [trace, writes]; exact faithful.named⟩
  · rw [reads] at read
    cases read
    refine faithful.concat trace rfl ?_ ?_
    · rw [writes]
      rfl
    · rw [writes]
      exact fun _ => .inl
  · refine faithful.concat trace trivial ?_ (named writes)
    rw [writes, overlay_insert]
    rfl
  · rw [reads] at read
    cases read
    cases seen : overlay before.transaction.writeSet snapshot record with
    | none =>
        rw [seen] at trace writes
        refine faithful.concat trace (by simp [Event.Agrees, seen]) ?_ ?_
        · rw [writes, Event.apply]
          exact Function.update_eq_self_iff.mpr seen.symm
        · rw [writes]
          exact fun _ => .inl
    | some data =>
        rw [seen] at trace writes
        refine faithful.concat trace (by simp [Event.Agrees, seen]) ?_ (named writes)
        rw [writes, Option.isSome_some, if_pos rfl, overlay_insert]
        rfl

namespace World

variable [LE Bound] [DecidableLE Bound] {world : World Data Bound}

/-- No commit after a timestamp wrote a record. -/
def Unchanged (world : World Data Bound) (record : RecordId) (ts : Timestamp) : Prop :=
  ∀ commit ∈ world.history, commit.writeSet[record]?.isSome → commit.commitTs ≤ ts

/-- No commit comes too late: what it wrote has not been written since its transaction began, and if
the transaction is serializable, neither has what it read, and it deletes last versions only. -/
def Timely (world : World Data Bound) : Action Data Bound → Prop
  | .call txId .commit => ∀ session ∈ world.sessions[txId]?,
      (session.transaction.doCommit world.store).isOk →
        (∀ entry ∈ session.transaction.writeSet.toList,
          world.Unchanged entry.1 session.transaction.readTs) ∧
        (session.transaction.isolation = .serializable →
          world.DeletesLast session ∧
            ∀ event ∈ session.trace, world.Unchanged event.record session.transaction.readTs)
  | _ => True

instance (world : World Data Bound) (record : RecordId) (ts : Timestamp) :
    Decidable (world.Unchanged record ts) :=
  inferInstanceAs (Decidable (∀ _ ∈ _, _))

instance [DecidableEq Data] (world : World Data Bound) (action : Action Data Bound) :
    Decidable (world.Timely action) :=
  match action with
  | .call txId .commit => inferInstanceAs (Decidable (∀ _ ∈ world.sessions[txId]?, _))
  | .begin _ | .gc | .call _ (.getRecord _) | .call _ (.putRecord _ _) | .call _ (.deleteRecord _)
  | .call _ (.recordRangeRead _ _ _ _) | .call _ (.recordRangeWrite _ _ _ _) | .call _ .rollback =>
      .isTrue trivial

/-- Of two commits that wrote the same record, one transaction began after the other had
committed. -/
def NoLostUpdate (history : List (Commit Data)) : Prop :=
  history.Pairwise fun first second => ∀ record : RecordId, first.writeSet[record]?.isSome →
    second.writeSet[record]?.isSome →
      first.commitTs ≤ second.readTs ∨ second.commitTs ≤ first.readTs

theorem noLostUpdate_step (kept : NoLostUpdate world.history) (action : Action Data Bound)
    (timely : world.Timely action) : NoLostUpdate (world.step action).history := by
  have steps := world.steps_step action
  generalize world.step action = after at steps ⊢
  cases steps with
  | nothing => exact kept
  | begins isolation => exact kept
  | advances running same advance => exact kept
  | ends running released => exact kept
  | collects => exact kept
  | @commits txId session store running success =>
      have unchanged := (timely session running (by rw [success]; rfl)).1
      unfold NoLostUpdate committed
      rw [List.pairwise_append]
      refine ⟨kept, List.pairwise_singleton _ _, ?_⟩
      intro first member second isLast record firstWrote secondWrote
      rw [List.mem_singleton.mp isLast] at secondWrote ⊢
      obtain ⟨op, held⟩ := Option.isSome_iff_exists.mp secondWrote
      have entry := Std.ExtTreeMap.mem_toList_iff_getElem?_eq_some.mpr held
      exact .inl (unchanged (record, op) entry first member firstWrote)

/-- Running the committed transactions one at a time, in the order of their commits, gives their
results and what the store holds. -/
structure Serial (world : World Data Bound) : Prop where
  sound : world.Sound
  serializable : ∀ (txId : TxId) session, world.sessions[txId]? = some session →
    session.transaction.isolation = .serializable
  faithful : ∀ (txId : TxId) session, world.sessions[txId]? = some session →
    session.Faithful (snapshotAt world.history session.transaction.readTs)
  agrees : AllMeet Event.apply Event.Agrees (fun _ => none) (world.history.flatMap Commit.trace)
  state : (world.history.flatMap Commit.trace).foldl Event.apply (fun _ => none) =
    snapshotAt world.history world.store.currentTs

omit [LE Bound] [DecidableLE Bound] in
theorem serial_new : (new : World Data Bound).Serial where
  sound := sound_new
  serializable := by simp [new]
  faithful := by simp [new]
  agrees := trivial
  state := rfl

theorem Serial.begins (serial : world.Serial) :
    (world.step (.begin .serializable)).Serial where
  sound := serial.sound.begins .serializable
  serializable := by
    intro txId session running
    simp only [step, AmorphicTransaction.new, VersionStore.beginTransaction,
      Std.ExtTreeMap.getElem?_insert] at running
    split at running
    · cases running
      rfl
    · exact serial.serializable txId session running
  faithful := by
    intro txId session running
    simp only [step, AmorphicTransaction.new, VersionStore.beginTransaction,
      Std.ExtTreeMap.getElem?_insert] at running
    split at running
    · cases running
      exact ⟨trivial, by funext record; simp [overlay], by simp⟩
    · exact serial.faithful txId session running
  agrees := serial.agrees
  state := serial.state

omit [LE Bound] [DecidableLE Bound] in
theorem Serial.advances (serial : world.Serial) {txId : TxId} {session after : Session Data Bound}
    {store : VersionStore Data Bound} (running : world.sessions[txId]? = some session)
    (same : world.store.SameReads store) (advance : session.Advances world.store after) :
    Serial { world with store := store, sessions := world.sessions.insert txId after } where
  sound := serial.sound.advances running same advance
  serializable := by
    intro other found foundRunning
    rw [Std.ExtTreeMap.getElem?_insert] at foundRunning
    split at foundRunning
    · cases foundRunning
      rw [advance.isolation]
      exact serial.serializable txId session running
    · exact serial.serializable other found foundRunning
  faithful := by
    intro other found foundRunning
    rw [Std.ExtTreeMap.getElem?_insert] at foundRunning
    split at foundRunning
    · cases foundRunning
      rw [advance.readTs]
      exact (serial.faithful txId session running).advances advance
        (serial.sound.getRecord_eq running)
    · exact serial.faithful other found foundRunning
  agrees := serial.agrees
  state := by simpa only [same.currentTs] using serial.state

omit [LE Bound] [DecidableLE Bound] in
theorem Serial.ends (serial : world.Serial) {txId : TxId} {session : Session Data Bound}
    {store : VersionStore Data Bound} (running : world.sessions[txId]? = some session)
    (released : store = world.store ∨ store = world.store.endTransaction session.transaction.id) :
    Serial { world with store := store, sessions := world.sessions.erase txId } := by
  have fewer : ∀ (other : TxId) found, (world.sessions.erase txId)[other]? = some found →
      world.sessions[other]? = some found := by
    intro other found held
    rw [Std.ExtTreeMap.getElem?_erase] at held
    split at held
    · cases held
    · exact held
  have currentTs : store.currentTs = world.store.currentTs := by
    rcases released with rfl | rfl <;> rfl
  exact {
    sound := serial.sound.ends running released
    serializable := fun other found held => serial.serializable other found (fewer other found held)
    faithful := fun other found held => serial.faithful other found (fewer other found held)
    agrees := serial.agrees
    state := by simpa only [currentTs] using serial.state }

/-- A commit in time runs as if it ran alone after all earlier ones. -/
theorem Serial.commits (serial : world.Serial) {txId : TxId} {session : Session Data Bound}
    {store : VersionStore Data Bound} (running : world.sessions[txId]? = some session)
    (success : session.transaction.doCommit world.store = .ok store)
    (timely : world.Timely (.call txId .commit)) : (world.committed txId session).Serial := by
  have sound := serial.sound
  obtain ⟨-, timely⟩ := timely session running (by rw [success]; rfl)
  obtain ⟨deletes, unchanged⟩ := timely (serial.serializable txId session running)
  have faithful := serial.faithful txId session running
  have reading := sound.active txId _ (sound.sessions txId session running).2.2
  have fewer : ∀ (other : TxId) found, (world.sessions.erase txId)[other]? = some found →
      world.sessions[other]? = some found := by
    intro other found held
    rw [Std.ExtTreeMap.getElem?_erase] at held
    split at held
    · cases held
    · exact held
  -- The records that the transaction names are as in its snapshot.
  have same : ∀ record, (∃ event ∈ session.trace, event.record = record) →
      snapshotAt world.history session.transaction.readTs record =
        snapshotAt world.history world.store.currentTs record := by
    rintro record ⟨event, member, rfl⟩
    apply snapshotAt_congr
    intro commit inHistory wrote
    have early := unchanged event member commit inHistory wrote
    exact iff_of_true early (early.trans reading)
  obtain ⟨agrees, after⟩ := Event.allMeet_congr (fun event member => ⟨event, member, rfl⟩) same
    faithful.agrees
  constructor
  case sound =>
    exact sound.commits running success fun other held _ => by
      rw [running] at held
      cases held
      exact deletes
  case serializable =>
    exact fun other found held => serial.serializable other found (fewer other found held)
  case faithful =>
    intro other found held
    have running := fewer other found held
    have early := sound.active other _ (sound.sessions other found running).2.2
    rw [committed, snapshotAt_concat (Nat.lt_succ_of_le early)]
    exact serial.faithful other found running
  case agrees =>
    rw [committed, List.flatMap_append, Event.allMeet_append, serial.state]
    exact ⟨serial.agrees, by simpa using agrees⟩
  case state =>
    have current : (world.committed txId session).store.currentTs =
        world.store.currentTs + 1 := by
      rw [committed, VersionStore.foldl_applyWrite]
      rfl
    rw [current, committed, List.flatMap_append, List.foldl_append, serial.state]
    simp only [List.flatMap_cons, List.flatMap_nil, List.append_nil]
    funext record
    rw [snapshotAt, writesOf_concat]
    -- Without a later write the new snapshot of a record is the old one.
    have stays : valueAt (writesOf world.history record) (world.store.currentTs + 1) =
        snapshotAt world.history world.store.currentTs record := by
      refine @snapshotAt_congr _ _ (world.store.currentTs + 1) _ _ ?_
      intro commit member _
      have past := sound.past commit member
      exact iff_of_true (past.trans (Nat.le_succ _)) past
    cases held : session.transaction.writeSet[record]? with
    | some op =>
        have named := faithful.named record (by rw [held]; rfl)
        rw [← after record named, faithful.state, overlay, held]
        rw [Option.map_some, Option.toList_some, valueAt_concat, if_pos le_rfl]
        cases op <;> rfl
    | none =>
        rw [Option.map_none, Option.toList_none, List.append_nil, stays]
        by_cases named : ∃ event ∈ session.trace, event.record = record
        · rw [← after record named, faithful.state, overlay, held]
          exact same record named
        · apply Event.foldl_apply_of_ne
          intro event member equal
          exact named ⟨event, member, equal⟩

theorem serial_step (serial : world.Serial) (action : Action Data Bound)
    (timely : world.Timely action)
    (level : ∀ isolation, action = .begin isolation → isolation = .serializable) :
    (world.step action).Serial := by
  have steps := world.steps_step action
  generalize world.step action = after at steps ⊢
  cases steps with
  | nothing => exact serial
  | begins isolation =>
      rw [level isolation rfl]
      exact serial.begins
  | advances running same advance => exact serial.advances running same advance
  | ends running released => exact serial.ends running released
  | commits running success => exact serial.commits running success timely
  | collects => exact { serial with sound := serial.sound.collects }

/-- The committed transactions did what running them one at a time in some order does: the reads and
writes have the same results and leave the same records. -/
def Serializable (world : World Data Bound) : Prop :=
  ∃ order : List (Commit Data), order.Perm world.history ∧
    AllMeet Event.apply Event.Agrees (fun _ => none) (order.flatMap Commit.trace) ∧
    ∀ record, (order.flatMap Commit.trace).foldl Event.apply (fun _ => none) record =
      (world.store.getVersionAt record world.store.currentTs none).map RecordVersion.data

omit [LE Bound] [DecidableLE Bound] in
theorem Serial.serial (serial : world.Serial) : world.Serializable := by
  refine ⟨world.history, .refl _, serial.agrees, ?_⟩
  intro record
  obtain ⟨floor, low, -, tracks⟩ := serial.sound.tracks
  rw [serial.state, VersionStore.getVersionAt_eq_select]
  exact ((tracks record).map_select low none).symm

/-- All transactions of a run are serializable. -/
def AllSerializable (actions : List (Action Data Bound)) : Prop :=
  ∀ action ∈ actions, ∀ isolation, action = .begin isolation → isolation = .serializable

/-- Two transactions write different records and read what the first of them wrote. -/
def timelyRun : List (Action Nat Nat) :=
  [.begin .serializable, .begin .serializable, .call 1 (.putRecord 1 10),
    .call 1 (.recordRangeWrite "t" "f" 0 5), .call 2 (.putRecord 2 20),
    .call 2 (.recordRangeWrite "t" "f" 5 9), .call 1 .commit, .call 2 .commit,
    .begin .serializable, .call 3 (.getRecord 1), .call 3 (.deleteRecord 2), .call 3 .commit]

/-- Two transactions begin, and both write and commit the same record. -/
def lostUpdateRun : List (Action Nat Nat) :=
  [.begin .serializable, .begin .serializable, .call 1 (.putRecord 1 10), .call 1 .commit,
    .call 2 (.putRecord 1 20), .call 2 .commit]

end World

end JouleDB.Amorphic
