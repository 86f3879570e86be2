import Mathlib.Order.Nat
import JouleDB.Lib.AssocList

/-!
# Group commit

Commit records go through the buffered writer to the operating system, and the LSN of the last
one is published.  A committer then waits until an fsync covers its record; the waiters share
fsyncs through a watermark behind a lock, and a failed fsync is remembered.  The steps of one
writer and of any number of waiters come in any order.
-/

namespace JouleDB.Wal

/-- How far `log_commit` is; the log manager makes one call at a time. -/
inductive Writer where
  | idle
  /-- The commit record is appended, the flush is running. -/
  | flushing (lsn : Nat)
  /-- Everything is flushed, the LSN is not published yet. -/
  | flushed (lsn : Nat)
  deriving DecidableEq, Repr

/-- How far a call of `wait_durable` is. -/
inductive Wait where
  | called (lsn : Nat)
  /-- No failure was seen; the lock is not taken yet. -/
  | queued (lsn : Nat)
  | locked (lsn : Nat)
  /-- No failure was seen under the lock. -/
  | rechecked (lsn : Nat)
  /-- The watermark is below the LSN. -/
  | behind (lsn : Nat)
  /-- The LSN up to which an fsync will make the log durable is loaded. -/
  | aimed (lsn target : Nat)
  | syncing (lsn target : Nat)
  | reported (lsn target : Nat) (ok : Bool)
  | returned
  deriving DecidableEq, Repr

/-- What a run shows. -/
inductive SyncEvent where
  /-- A record has reached the operating system. -/
  | reached (lsn : Nat)
  /-- A call has begun its fsync. -/
  | began (call : Nat)
  /-- The fsync of a call has succeeded or failed. -/
  | completed (call : Nat) (ok : Bool)
  /-- A call has returned. -/
  | returned (call lsn : Nat) (ok : Bool)
  deriving DecidableEq, Repr

/-- The log manager and the group commit handle on its file. -/
structure GroupSync where
  currentLsn : Nat
  /-- Records that the buffered writer holds. -/
  buffered : List Nat
  writer : Writer
  committed : Nat
  /-- LSNs that `log_commit` has returned. -/
  returned : List Nat
  synced : Nat
  /-- The call that holds the lock. -/
  holder : Option Nat
  failed : Bool
  inject : Bool
  /-- Number of calls so far. -/
  calls : Nat
  waits : List (Nat × Wait)

/-- The steps. -/
inductive SyncStep where
  /-- A record of another kind is appended. -/
  | append
  /-- An LSN is used up by a record that could not be appended. -/
  | skip
  | appendCommit
  /-- The buffered writer hands its first record to the operating system. -/
  | spill
  | flushed
  | flushFails
  | publish
  | call (lsn : Nat)
  | check (call : Nat)
  | lock (call : Nat)
  | recheck (call : Nat)
  | compare (call : Nat)
  | aim (call : Nat)
  | begin (call : Nat)
  | complete (call : Nat) (ok : Bool)
  | settle (call : Nat)
  /-- The next fsync is made to fail. -/
  | injectFsyncFailure

namespace GroupSync

/-- The log was opened and has no commits yet. -/
def new (lastLsn : Nat) : GroupSync where
  currentLsn := lastLsn + 1
  buffered := []
  writer := .idle
  committed := 0
  returned := []
  synced := 0
  holder := none
  failed := false
  inject := false
  calls := 0
  waits := []

/-- How far a call is. -/
def wait (group : GroupSync) (call : Nat) : Option Wait := group.waits.lookup call

/-- A call goes on. -/
def move (group : GroupSync) (call : Nat) (wait : Wait) : GroupSync :=
  { group with waits := upsert group.waits call wait }

/-- A call gives the lock back and returns. -/
def leave (group : GroupSync) (call lsn : Nat) (ok : Bool) : GroupSync × Option SyncEvent :=
  ({ group.move call .returned with holder := none }, some (.returned call lsn ok))

/-- A step of `wait_durable`. -/
def waitDurable (group : GroupSync) (call : Nat) (wait : Wait) :
    SyncStep → Option (GroupSync × Option SyncEvent)
  | .check _ =>
      match wait with
      | .called lsn =>
          if group.failed then
            some (group.move call .returned, some (.returned call lsn false))
          else some (group.move call (.queued lsn), none)
      | _ => none
  | .lock _ =>
      match wait with
      | .queued lsn =>
          if group.holder = none then
            some ({ group.move call (.locked lsn) with holder := some call }, none)
          else none
      | _ => none
  | .recheck _ =>
      match wait with
      | .locked lsn =>
          if group.failed then some (group.leave call lsn false)
          else some (group.move call (.rechecked lsn), none)
      | _ => none
  | .compare _ =>
      match wait with
      | .rechecked lsn =>
          if group.synced ≥ lsn then some (group.leave call lsn true)
          else some (group.move call (.behind lsn), none)
      | _ => none
  | .aim _ =>
      match wait with
      | .behind lsn => some (group.move call (.aimed lsn (max group.committed lsn)), none)
      | _ => none
  | .begin _ =>
      match wait with
      | .aimed lsn target => some (group.move call (.syncing lsn target), some (.began call))
      | _ => none
  | .complete _ ok =>
      match wait with
      | .syncing lsn target =>
          let ok := ok && !group.inject
          some ({ group.move call (.reported lsn target ok) with inject := false },
            some (.completed call ok))
      | _ => none
  | .settle _ =>
      match wait with
      | .reported lsn target true => some ({ group with synced := target }.leave call lsn true)
      | .reported lsn _ false => some ({ group with failed := true }.leave call lsn false)
      | _ => none
  | _ => none

/-- The call that takes a step. -/
def caller : SyncStep → Option Nat
  | .check call | .lock call | .recheck call | .compare call | .aim call | .begin call
  | .complete call _ | .settle call => some call
  | _ => none

/-- Take a step, if it can be taken. -/
def step (group : GroupSync) : SyncStep → Option (GroupSync × Option SyncEvent)
  | .append =>
      if group.writer = .idle then
        some ({ group with
          currentLsn := group.currentLsn + 1
          buffered := group.buffered ++ [group.currentLsn] }, none)
      else none
  | .skip =>
      if group.writer = .idle then
        some ({ group with currentLsn := group.currentLsn + 1 }, none)
      else none
  | .appendCommit =>
      if group.writer = .idle then
        some ({ group with
          currentLsn := group.currentLsn + 1
          buffered := group.buffered ++ [group.currentLsn]
          writer := .flushing group.currentLsn }, none)
      else none
  | .spill =>
      match group.buffered with
      | lsn :: rest => some ({ group with buffered := rest }, some (.reached lsn))
      | [] => none
  | .flushed =>
      match group.writer with
      | .flushing lsn =>
          if group.buffered = [] then some ({ group with writer := .flushed lsn }, none) else none
      | _ => none
  | .flushFails =>
      match group.writer with
      | .flushing _ => some ({ group with writer := .idle }, none)
      | _ => none
  | .publish =>
      match group.writer with
      | .flushed lsn =>
          some ({ group with
            writer := .idle
            committed := max group.committed lsn
            returned := group.returned ++ [lsn] }, none)
      | _ => none
  | .call lsn =>
      if lsn ∈ group.returned then
        some ({ group.move group.calls (.called lsn) with calls := group.calls + 1 }, none)
      else none
  | .injectFsyncFailure => some ({ group with inject := true }, none)
  | step => (caller step).bind fun call =>
      (group.wait call).bind fun wait => group.waitDurable call wait step

/-- Take steps one after the other; what they show comes with the last state. -/
def run (group : GroupSync) : List SyncStep → Option (GroupSync × List SyncEvent)
  | [] => some (group, [])
  | step :: steps => (group.step step).bind fun next =>
      (next.1.run steps).map fun last => (last.1, next.2.toList ++ last.2)

/-! ## What a run shows -/

/-- No fsync has failed. -/
def NoFailure (trace : List SyncEvent) : Prop := ∀ call, SyncEvent.completed call false ∉ trace

/-- An fsync that began after the record had reached the operating system has succeeded, and no
fsync had failed before. -/
def Durable (trace : List SyncEvent) (lsn : Nat) : Prop :=
  ∃ before during after call, trace = before ++ .began call :: during ++ .completed call true :: after ∧
    .reached lsn ∈ before ∧ NoFailure (before ++ .began call :: during)

theorem NoFailure.append {trace more : List SyncEvent} (none : NoFailure trace)
    (noneMore : NoFailure more) : NoFailure (trace ++ more) := by
  intro call member
  rcases List.mem_append.mp member with old | new
  · exact none call old
  · exact noneMore call new

theorem Durable.append {trace : List SyncEvent} {lsn : Nat} (durable : Durable trace lsn)
    (more : List SyncEvent) : Durable (trace ++ more) lsn := by
  obtain ⟨before, during, after, call, rfl, reached, none⟩ := durable
  exact ⟨before, during, after ++ more, call, by simp, reached, none⟩

/-- The LSN that a call waits for. -/
def Wait.lsn : Wait → Option Nat
  | .called lsn | .queued lsn | .locked lsn | .rechecked lsn | .behind lsn | .aimed lsn _
  | .syncing lsn _ | .reported lsn _ _ => some lsn
  | .returned => none

/-- The call holds the lock. -/
def Wait.inLock : Wait → Bool
  | .called _ | .queued _ | .returned => false
  | _ => true

/-- What the holder of the lock can rely on. -/
def Locked (committed : Nat) (trace : List SyncEvent) (call : Nat) : Wait → Prop
  | .rechecked _ | .behind _ => NoFailure trace
  | .aimed lsn target => NoFailure trace ∧ lsn ≤ target ∧ target ≤ committed
  | .syncing lsn target => NoFailure trace ∧ lsn ≤ target ∧ target ≤ committed ∧
      ∃ before during, trace = before ++ .began call :: during ∧
        ∀ other, other ≤ target → .reached other ∈ trace → .reached other ∈ before
  | .reported lsn target true => NoFailure trace ∧ lsn ≤ target ∧ target ≤ committed ∧
      ∀ other, other ≤ target → .reached other ∈ trace → Durable trace other
  | _ => True

/-- Every acknowledgement in a trace comes after a successful fsync and before any failure. -/
def Acknowledged (trace : List SyncEvent) : Prop :=
  ∀ front call lsn back, trace = front ++ .returned call lsn true :: back →
    NoFailure front ∧ Durable front lsn

/-- The log side: what is still buffered is above the published LSN, and what is below the
watermark is durable. -/
structure Logged (group : GroupSync) (trace : List SyncEvent) : Prop where
  low : group.committed < group.currentLsn
  synced : group.synced ≤ group.committed
  buffered : ∀ lsn ∈ group.buffered, group.committed < lsn ∧ lsn < group.currentLsn
  flushing : ∀ lsn, group.writer = .flushing lsn →
    lsn < group.currentLsn ∧ (lsn ∈ group.buffered ∨ .reached lsn ∈ trace)
  flushed : ∀ lsn, group.writer = .flushed lsn →
    lsn < group.currentLsn ∧ group.buffered = [] ∧ .reached lsn ∈ trace
  returned : ∀ lsn ∈ group.returned, lsn ≤ group.committed ∧ .reached lsn ∈ trace
  covered : ∀ lsn, lsn ≤ group.synced → .reached lsn ∈ trace → Durable trace lsn

/-- The side of the waiters: one of them holds the lock, and a failure is remembered before it
gives the lock back. -/
structure Waiting (group : GroupSync) (trace : List SyncEvent) : Prop where
  fresh : ∀ call wait, group.wait call = some wait → call < group.calls
  known : ∀ call wait lsn, group.wait call = some wait → Wait.lsn wait = some lsn →
    lsn ≤ group.committed ∧ .reached lsn ∈ trace
  held : ∀ call wait, group.wait call = some wait → Wait.inLock wait = true →
    group.holder = some call
  locked : ∀ call wait, group.holder = some call → group.wait call = some wait →
    Locked group.committed trace call wait
  failures : NoFailure trace ∨ group.failed = true ∨ ∃ call lsn target,
    group.holder = some call ∧ group.wait call = some (.reported lsn target false)

section Frames

variable {group next : GroupSync} {trace more : List SyncEvent} {call lsn : Nat} {wait : Wait}

theorem noFailure_nil : NoFailure [] := fun _ member => nomatch member

theorem noFailure_singleton {event : SyncEvent} (other : ∀ call, event ≠ .completed call false) :
    NoFailure [event] := fun call member => other call (List.mem_singleton.mp member).symm

/-- A trace grows by something that is no acknowledgement. -/
theorem Acknowledged.append (acknowledged : Acknowledged trace)
    (other : ∀ call lsn, SyncEvent.returned call lsn true ∉ more) :
    Acknowledged (trace ++ more) := by
  intro front call lsn back split
  rcases List.append_eq_append_iff.mp split with ⟨extra, rfl, later⟩ | ⟨extra, rfl, earlier⟩
  · exact absurd (later ▸ by simp) (other call lsn)
  · cases extra with
    | nil =>
        rw [List.nil_append] at earlier
        exact absurd (earlier ▸ by simp) (other call lsn)
    | cons event extra =>
        cases earlier
        exact acknowledged front call lsn extra rfl

theorem Acknowledged.concat (acknowledged : Acknowledged trace) (none : NoFailure trace)
    (durable : Durable trace lsn) : Acknowledged (trace ++ [.returned call lsn true]) := by
  intro front other lsn' back split
  rcases List.eq_nil_or_concat back with rfl | ⟨back, last, rfl⟩
  · obtain ⟨rfl, same⟩ := List.append_inj' split rfl
    cases same
    exact ⟨none, durable⟩
  · rw [List.concat_eq_append, ← List.cons_append, ← List.append_assoc] at split
    obtain ⟨rfl, -⟩ := List.append_inj' split rfl
    exact acknowledged front other lsn' back rfl

theorem Locked.extend {committed later : Nat} (locked : Locked committed trace call wait)
    (grows : committed ≤ later) (none : NoFailure more)
    (above : ∀ other, .reached other ∈ more → committed < other) :
    Locked later (trace ++ more) call wait := by
  have old : ∀ {target other : Nat}, target ≤ committed → other ≤ target →
      .reached other ∈ trace ++ more → .reached other ∈ trace := by
    intro target other low below reached
    rcases List.mem_append.mp reached with inTrace | isNew
    · exact inTrace
    · exact absurd (above other isNew) (Nat.not_lt.mpr (below.trans low))
  cases wait with
  | rechecked lsn => exact NoFailure.append locked none
  | behind lsn => exact NoFailure.append locked none
  | aimed lsn target => exact ⟨locked.1.append none, locked.2.1, locked.2.2.trans grows⟩
  | syncing lsn target =>
      obtain ⟨noFailure, aims, low, before, during, rfl, reached⟩ := locked
      refine ⟨noFailure.append none, aims, low.trans grows, before, during ++ more, by simp, ?_⟩
      exact fun other below isReached => reached other below (old low below isReached)
  | reported lsn target ok =>
      cases ok with
      | false => trivial
      | true =>
          obtain ⟨noFailure, aims, low, durable⟩ := locked
          refine ⟨noFailure.append none, aims, low.trans grows, fun other below isReached => ?_⟩
          exact (durable other below (old low below isReached)).append more
  | _ => trivial

/-- The log side when only the trace grows, by no records. -/
theorem Logged.extend (logged : Logged group trace) (none : ∀ lsn, .reached lsn ∉ more)
    (currentLsn : next.currentLsn = group.currentLsn) (committed : next.committed = group.committed)
    (synced : next.synced = group.synced) (buffered : next.buffered = group.buffered)
    (writer : next.writer = group.writer) (returned : next.returned = group.returned) :
    Logged next (trace ++ more) where
  low := by rw [currentLsn, committed]; exact logged.low
  synced := by rw [synced, committed]; exact logged.synced
  buffered := by rw [currentLsn, committed, buffered]; exact logged.buffered
  flushing lsn := by
    rw [writer, currentLsn, buffered]
    exact fun isFlushing => ⟨(logged.flushing lsn isFlushing).1,
      (logged.flushing lsn isFlushing).2.imp_right (List.mem_append_left _)⟩
  flushed lsn := by
    rw [writer, currentLsn, buffered]
    exact fun isFlushed => ⟨(logged.flushed lsn isFlushed).1, (logged.flushed lsn isFlushed).2.1,
      List.mem_append_left _ (logged.flushed lsn isFlushed).2.2⟩
  returned lsn := by
    rw [returned, committed]
    exact fun member => ⟨(logged.returned lsn member).1,
      List.mem_append_left _ (logged.returned lsn member).2⟩
  covered lsn := by
    rw [synced]
    intro below reached
    rcases List.mem_append.mp reached with old | new
    · exact (logged.covered lsn below old).append more
    · exact absurd new (none lsn)

theorem Waiting.extend (waiting : Waiting group trace) (none : NoFailure more)
    (above : ∀ lsn, .reached lsn ∈ more → group.committed < lsn)
    (committed : group.committed ≤ next.committed) (calls : next.calls = group.calls)
    (waits : next.waits = group.waits) (holder : next.holder = group.holder)
    (failed : next.failed = group.failed) : Waiting next (trace ++ more) where
  fresh call wait := by
    rw [GroupSync.wait, waits, calls]
    exact waiting.fresh call wait
  known call wait lsn := by
    rw [GroupSync.wait, waits]
    intro found isLsn
    obtain ⟨below, reached⟩ := waiting.known call wait lsn found isLsn
    exact ⟨below.trans committed, List.mem_append_left _ reached⟩
  held call wait := by
    rw [GroupSync.wait, waits, holder]
    exact waiting.held call wait
  locked call wait := by
    rw [GroupSync.wait, waits, holder]
    exact fun holds found => (waiting.locked call wait holds found).extend committed none above
  failures := by
    rw [failed, holder]
    simp only [GroupSync.wait, waits]
    exact waiting.failures.imp_left fun before => before.append none

end Frames

/-- The invariant of a run. -/
structure Holds (group : GroupSync) (trace : List SyncEvent) : Prop where
  logged : Logged group trace
  waiting : Waiting group trace
  acknowledged : Acknowledged trace

/-! ## Steps of the log -/

section Log

variable {group next : GroupSync} {trace : List SyncEvent} {event : Option SyncEvent}

theorem Logged.append (logged : Logged group trace) {writer : Writer}
    (isWriter : writer = .idle ∨ writer = .flushing group.currentLsn) :
    Logged { group with
      currentLsn := group.currentLsn + 1
      buffered := group.buffered ++ [group.currentLsn]
      writer := writer } trace where
  low := Nat.lt_succ_of_lt logged.low
  synced := logged.synced
  buffered lsn member := by
    rcases List.mem_append.mp member with old | new
    · exact ⟨(logged.buffered lsn old).1, Nat.lt_succ_of_lt (logged.buffered lsn old).2⟩
    · rw [List.mem_singleton.mp new]
      exact ⟨logged.low, Nat.lt_succ_self _⟩
  flushing lsn isFlushing := by
    rcases isWriter with rfl | rfl
    · cases isFlushing
    · cases isFlushing
      exact ⟨Nat.lt_succ_self _, Or.inl (List.mem_append_right _ List.mem_cons_self)⟩
  flushed lsn isFlushed := by
    rcases isWriter with rfl | rfl <;> cases isFlushed
  returned := logged.returned
  covered := logged.covered

/-- A record reaches the operating system; it is above the watermark. -/
theorem Logged.spill (logged : Logged group trace) {lsn : Nat} {rest : List Nat}
    (first : group.buffered = lsn :: rest) :
    Logged { group with buffered := rest } (trace ++ [.reached lsn]) where
  low := logged.low
  synced := logged.synced
  buffered other member := logged.buffered other (first ▸ List.mem_cons_of_mem _ member)
  flushing other isFlushing := by
    obtain ⟨below, inBuffer | reached⟩ := logged.flushing other isFlushing
    · rw [first] at inBuffer
      rcases List.mem_cons.mp inBuffer with rfl | later
      · exact ⟨below, Or.inr (List.mem_append_right _ List.mem_cons_self)⟩
      · exact ⟨below, Or.inl later⟩
    · exact ⟨below, Or.inr (List.mem_append_left _ reached)⟩
  flushed other isFlushed := by
    rw [(logged.flushed other isFlushed).2.1] at first
    cases first
  returned other member := ⟨(logged.returned other member).1,
    List.mem_append_left _ (logged.returned other member).2⟩
  covered other below reached := by
    rcases List.mem_append.mp reached with old | new
    · exact (logged.covered other below old).append _
    · cases List.mem_singleton.mp new
      have above := (logged.buffered lsn (first ▸ List.mem_cons_self)).1
      exact absurd above (Nat.not_lt.mpr (below.trans logged.synced))

/-- The LSN of a commit whose record and everything before it was flushed is published. -/
theorem Logged.publish (logged : Logged group trace) {lsn : Nat}
    (isFlushed : group.writer = .flushed lsn) :
    Logged { group with
      writer := .idle
      committed := max group.committed lsn
      returned := group.returned ++ [lsn] } trace := by
  obtain ⟨below, empty, reached⟩ := logged.flushed lsn isFlushed
  constructor
  · exact Nat.max_lt.mpr ⟨logged.low, below⟩
  · exact logged.synced.trans (Nat.le_max_left _ _)
  · intro other member
    rw [empty] at member
    cases member
  · exact fun _ isFlushing => nomatch isFlushing
  · exact fun _ isFlushed => nomatch isFlushed
  · intro other member
    rcases List.mem_append.mp member with old | new
    · exact ⟨(logged.returned other old).1.trans (Nat.le_max_left _ _), (logged.returned other old).2⟩
    · rw [List.mem_singleton.mp new]
      exact ⟨Nat.le_max_right _ _, reached⟩
  · exact logged.covered

theorem Holds.of_log (holds : Holds group trace) {more : List SyncEvent}
    (logged : Logged next (trace ++ more)) (none : NoFailure more)
    (above : ∀ lsn, .reached lsn ∈ more → group.committed < lsn)
    (quiet : ∀ call lsn, SyncEvent.returned call lsn true ∉ more)
    (committed : group.committed ≤ next.committed) (calls : next.calls = group.calls)
    (waits : next.waits = group.waits) (holder : next.holder = group.holder)
    (failed : next.failed = group.failed) : Holds next (trace ++ more) where
  logged := logged
  waiting := holds.waiting.extend none above committed calls waits holder failed
  acknowledged := holds.acknowledged.append quiet

theorem Holds.of_quiet_log (holds : Holds group trace) (logged : Logged next trace)
    (committed : group.committed ≤ next.committed) (calls : next.calls = group.calls)
    (waits : next.waits = group.waits) (holder : next.holder = group.holder)
    (failed : next.failed = group.failed) : Holds next (trace ++ Option.toList none) := by
  refine holds.of_log ?_ noFailure_nil (fun _ member => nomatch member)
    (fun _ _ member => nomatch member) committed calls waits holder failed
  rw [Option.toList_none, List.append_nil]
  exact logged

end Log

/-! ## Steps of the waiters -/

section Waiters

variable {group next : GroupSync} {trace : List SyncEvent} {call lsn : Nat} {wait after : Wait}

theorem wait_move (other : Nat) :
    (group.move call after).wait other = if other = call then some after else group.wait other := by
  rw [GroupSync.wait, move, lookup_upsert]
  rfl

/-- One call goes on from a wait to another, while no record is added. -/
structure GoesOn (group next : GroupSync) (call : Nat) (wait after : Wait) (more : List SyncEvent) :
    Prop where
  found : group.wait call = some wait
  waits : ∀ other, next.wait other = if other = call then some after else group.wait other
  calls : next.calls = group.calls
  committed : next.committed = group.committed
  sameLsn : ∀ lsn, Wait.lsn after = some lsn → Wait.lsn wait = some lsn
  none : ∀ lsn, .reached lsn ∉ more

theorem Waiting.move {more : List SyncEvent} (waiting : Waiting group trace)
    (goes : GoesOn group next call wait after more)
    (keeps : ∀ other, other ≠ call → group.holder = some other → next.holder = some other)
    (others : ∀ other, other ≠ call → next.holder = some other →
      group.holder = some other ∧ NoFailure more)
    (held : Wait.inLock after = true → next.holder = some call)
    (locked : next.holder = some call → Locked group.committed (trace ++ more) call after)
    (failures : NoFailure (trace ++ more) ∨ next.failed = true ∨ ∃ call lsn target,
      next.holder = some call ∧ next.wait call = some (.reported lsn target false)) :
    Waiting next (trace ++ more) where
  fresh other wait' isWait := by
    rw [goes.calls]
    rw [goes.waits] at isWait
    split at isWait
    next here => exact here ▸ waiting.fresh call wait goes.found
    next => exact waiting.fresh other wait' isWait
  known other wait' lsn isWait isLsn := by
    rw [goes.committed]
    rw [goes.waits] at isWait
    have before : lsn ≤ group.committed ∧ .reached lsn ∈ trace := by
      split at isWait
      next =>
        cases isWait
        exact waiting.known call wait lsn goes.found (goes.sameLsn lsn isLsn)
      next => exact waiting.known other wait' lsn isWait isLsn
    exact ⟨before.1, List.mem_append_left _ before.2⟩
  held other wait' isWait inLock := by
    rw [goes.waits] at isWait
    split at isWait
    next here =>
      cases isWait
      exact here ▸ held inLock
    next apart => exact keeps other apart (waiting.held other wait' isWait inLock)
  locked other wait' holds isWait := by
    rw [goes.committed]
    rw [goes.waits] at isWait
    split at isWait
    next here =>
      subst here
      cases isWait
      exact locked holds
    next apart =>
      obtain ⟨held, noFailure⟩ := others other apart holds
      exact (waiting.locked other wait' held isWait).extend (Nat.le_refl _) noFailure
        (fun lsn member => absurd member (goes.none lsn))
  failures := failures

/-- A call that does not hold the lock goes on. -/
theorem Waiting.outside {more : List SyncEvent} (waiting : Waiting group trace)
    (goes : GoesOn group next call wait after more) (outside : Wait.inLock wait = false)
    (noFailure : NoFailure more) (stays : Wait.inLock after = false) (holder : next.holder = group.holder)
    (failed : next.failed = group.failed) : Waiting next (trace ++ more) := by
  refine waiting.move goes ?_ ?_ ?_ ?_ ?_
  · exact fun other _ held => holder.trans held
  · exact fun other _ held => ⟨holder.symm.trans held, noFailure⟩
  · exact fun inLock => nomatch stays.symm.trans inLock
  · intro held
    cases after with
    | called lsn => trivial
    | queued lsn => trivial
    | returned => trivial
    | _ => cases stays
  · rcases waiting.failures with before | before | ⟨other, lsn, target, held, reported⟩
    · exact Or.inl (before.append noFailure)
    · exact Or.inr (Or.inl (failed.trans before))
    · refine Or.inr (Or.inr ⟨other, lsn, target, holder.trans held, ?_⟩)
      rw [goes.waits, if_neg, reported]
      rintro rfl
      rw [goes.found, Option.some.injEq] at reported
      rw [reported] at outside
      cases outside

theorem Waiting.inside {more : List SyncEvent} (waiting : Waiting group trace)
    (goes : GoesOn group next call wait after more) (holds : group.holder = some call)
    (holder : next.holder = some call ∨ (next.holder = Option.none ∧ Wait.inLock after = false))
    (locked : next.holder = some call → Locked group.committed (trace ++ more) call after)
    (failures : NoFailure (trace ++ more) ∨ next.failed = true ∨ ∃ call lsn target,
      next.holder = some call ∧ next.wait call = some (.reported lsn target false)) :
    Waiting next (trace ++ more) := by
  refine waiting.move goes ?_ ?_ ?_ locked failures
  · exact fun other apart held => absurd (Option.some.inj (held.symm.trans holds)) apart
  · intro other apart held
    rcases holder with same | ⟨left, -⟩
    · exact absurd (Option.some.inj (held.symm.trans same)) apart
    · cases left.symm.trans held
  · intro inLock
    rcases holder with same | ⟨-, outside⟩
    · exact same
    · cases outside.symm.trans inLock

theorem Logged.of_wait {more : List SyncEvent} (logged : Logged group trace)
    (none : ∀ lsn, .reached lsn ∉ more)
    (same : next.currentLsn = group.currentLsn ∧ next.committed = group.committed ∧
      next.synced = group.synced ∧ next.buffered = group.buffered ∧ next.writer = group.writer ∧
      next.returned = group.returned) : Logged next (trace ++ more) :=
  logged.extend none same.1 same.2.1 same.2.2.1 same.2.2.2.1 same.2.2.2.2.1 same.2.2.2.2.2

theorem Holds.check (holds : Holds group trace) (found : group.wait call = some (.called lsn)) :
    Holds (group.move call (.queued lsn)) (trace ++ Option.toList none) where
  logged := holds.logged.of_wait (fun _ member => nomatch member) ⟨rfl, rfl, rfl, rfl, rfl, rfl⟩
  waiting := holds.waiting.outside
    ⟨found, wait_move, rfl, rfl, fun _ isLsn => isLsn, (fun _ member => nomatch member)⟩
    rfl noFailure_nil rfl rfl rfl
  acknowledged := holds.acknowledged.append fun _ _ member => nomatch member

theorem Holds.refuse (holds : Holds group trace) (found : group.wait call = some (.called lsn)) :
    Holds (group.move call .returned) (trace ++ Option.toList (some (.returned call lsn false))) where
  logged := holds.logged.of_wait (by simp) ⟨rfl, rfl, rfl, rfl, rfl, rfl⟩
  waiting := holds.waiting.outside
    ⟨found, wait_move, rfl, rfl, (fun _ isLsn => nomatch isLsn), by simp⟩
    rfl (noFailure_singleton (by simp)) rfl rfl rfl
  acknowledged := holds.acknowledged.append (by simp)

theorem Holds.lock (holds : Holds group trace) (found : group.wait call = some (.queued lsn))
    (free : group.holder = none) :
    Holds { group.move call (.locked lsn) with holder := some call }
      (trace ++ Option.toList none) where
  logged := holds.logged.of_wait (fun _ member => nomatch member) ⟨rfl, rfl, rfl, rfl, rfl, rfl⟩
  waiting := by
    refine holds.waiting.move
      ⟨found, wait_move, rfl, rfl, fun _ isLsn => isLsn, (fun _ member => nomatch member)⟩
      ?_ ?_ (fun _ => rfl) (fun _ => trivial) ?_
    · exact fun other _ held => nomatch free.symm.trans held
    · exact fun other apart held => absurd (Option.some.inj held).symm apart
    · rcases holds.waiting.failures with before | before | ⟨other, _, _, held, -⟩
      · exact Or.inl (before.append noFailure_nil)
      · exact Or.inr (Or.inl before)
      · cases free.symm.trans held
  acknowledged := holds.acknowledged.append fun _ _ member => nomatch member

/-- The holder goes on under the lock; no fsync completes. -/
theorem Holds.within {more : List SyncEvent} (holds : Holds group trace)
    (found : group.wait call = some wait) (inLock : Wait.inLock wait = true)
    (sameLsn : ∀ lsn, Wait.lsn after = some lsn → Wait.lsn wait = some lsn)
    (none : ∀ lsn, .reached lsn ∉ more) (noFailure : NoFailure (trace ++ more))
    (quiet : ∀ call lsn, SyncEvent.returned call lsn true ∉ more)
    (locked : Locked group.committed (trace ++ more) call after) :
    Holds (group.move call after) (trace ++ more) where
  logged := holds.logged.of_wait none ⟨rfl, rfl, rfl, rfl, rfl, rfl⟩
  waiting := by
    have held := holds.waiting.held call wait found inLock
    exact holds.waiting.inside ⟨found, wait_move, rfl, rfl, sameLsn, none⟩ held (Or.inl held)
      (fun _ => locked) (Or.inl noFailure)
  acknowledged := holds.acknowledged.append quiet

/-- Under the lock no failure is hidden: either it is remembered, or there was none. -/
theorem Holds.noFailure_of_locked (holds : Holds group trace)
    (found : group.wait call = some (.locked lsn)) (intact : group.failed = false) :
    NoFailure trace := by
  have held := holds.waiting.held call _ found rfl
  rcases holds.waiting.failures with before | failed | ⟨other, _, _, isHolder, reported⟩
  · exact before
  · cases intact.symm.trans failed
  · cases Option.some.inj (held.symm.trans isHolder)
    cases found.symm.trans reported

/-- The holder gives the lock back and returns. -/
theorem Holds.leave {ok : Bool} (holds : Holds group trace) (found : group.wait call = some wait)
    (inLock : Wait.inLock wait = true)
    (logged : Logged next (trace ++ [.returned call lsn ok]))
    (waits : ∀ other, next.wait other = if other = call then some .returned else group.wait other)
    (calls : next.calls = group.calls) (committed : next.committed = group.committed)
    (holder : next.holder = none)
    (acknowledged : ok = true → NoFailure trace ∧ Durable trace lsn)
    (failures : NoFailure trace ∨ next.failed = true) :
    Holds next (trace ++ [.returned call lsn ok]) where
  logged := logged
  waiting := by
    have held := holds.waiting.held call wait found inLock
    refine holds.waiting.inside
      ⟨found, waits, calls, committed, (fun _ isLsn => nomatch isLsn), by simp⟩
      held (Or.inr ⟨holder, rfl⟩) (fun isHolder => nomatch holder.symm.trans isHolder) ?_
    rcases failures with before | failed
    · exact Or.inl (before.append (noFailure_singleton (by simp)))
    · exact Or.inr (Or.inl failed)
  acknowledged := by
    cases ok with
    | true => exact holds.acknowledged.concat (acknowledged rfl).1 (acknowledged rfl).2
    | false => exact holds.acknowledged.append (by simp)

theorem Holds.compare (holds : Holds group trace) (found : group.wait call = some (.rechecked lsn))
    (covered : lsn ≤ group.synced) :
    Holds (group.leave call lsn true).1 (trace ++ [.returned call lsn true]) := by
  have held := holds.waiting.held call _ found rfl
  have noFailure : NoFailure trace := holds.waiting.locked call _ held found
  have reached := (holds.waiting.known call _ lsn found rfl).2
  refine holds.leave found rfl ?_ wait_move rfl rfl rfl ?_ (Or.inl noFailure)
  · exact holds.logged.of_wait (by simp) ⟨rfl, rfl, rfl, rfl, rfl, rfl⟩
  · exact fun _ => ⟨noFailure, holds.logged.covered lsn covered reached⟩

theorem Holds.complete {target : Nat} (holds : Holds group trace)
    (found : group.wait call = some (.syncing lsn target)) (ok : Bool) :
    Holds { group.move call (.reported lsn target ok) with inject := false }
      (trace ++ [.completed call ok]) where
  logged := holds.logged.of_wait (by simp) ⟨rfl, rfl, rfl, rfl, rfl, rfl⟩
  waiting := by
    have held := holds.waiting.held call _ found rfl
    obtain ⟨noFailure, aims, low, before, during, split, reached⟩ :=
      holds.waiting.locked call _ held found
    refine holds.waiting.inside ⟨found, wait_move, rfl, rfl, fun _ isLsn => isLsn, by simp⟩ held
      (Or.inl held) (fun _ => ?_) ?_
    · cases ok with
      | false => trivial
      | true =>
          refine ⟨noFailure.append (noFailure_singleton (by simp)), aims, low, ?_⟩
          intro other below isReached
          have inTrace : .reached other ∈ trace := by simpa using isReached
          refine ⟨before, during, [], call, by rw [split], reached other below inTrace, ?_⟩
          exact split ▸ noFailure
    · cases ok with
      | false => exact Or.inr (Or.inr ⟨call, lsn, target, held, by
          exact (wait_move call).trans (if_pos rfl)⟩)
      | true => exact Or.inl (noFailure.append (noFailure_singleton (by simp)))
  acknowledged := holds.acknowledged.append (by simp)

theorem Holds.settle {target : Nat} (holds : Holds group trace)
    (found : group.wait call = some (.reported lsn target true)) :
    Holds ({ group with synced := target }.leave call lsn true).1
      (trace ++ [.returned call lsn true]) := by
  have held := holds.waiting.held call _ found rfl
  obtain ⟨noFailure, aims, low, durable⟩ := holds.waiting.locked call _ held found
  have reached := (holds.waiting.known call _ lsn found rfl).2
  refine holds.leave found rfl ?_ wait_move rfl rfl rfl ?_ (Or.inl noFailure)
  · have raised : Logged { group with synced := target } trace :=
      { low := holds.logged.low
        synced := low
        buffered := holds.logged.buffered
        flushing := holds.logged.flushing
        flushed := holds.logged.flushed
        returned := holds.logged.returned
        covered := durable }
    exact raised.of_wait (by simp) ⟨rfl, rfl, rfl, rfl, rfl, rfl⟩
  · exact fun _ => ⟨noFailure, durable lsn aims reached⟩

theorem Holds.fail {target : Nat} (holds : Holds group trace)
    (found : group.wait call = some (.reported lsn target false)) :
    Holds ({ group with failed := true }.leave call lsn false).1
      (trace ++ [.returned call lsn false]) := by
  refine holds.leave found rfl ?_ wait_move rfl rfl rfl (fun ok => nomatch ok) (Or.inr rfl)
  exact holds.logged.of_wait (by simp) ⟨rfl, rfl, rfl, rfl, rfl, rfl⟩

theorem Holds.waitDurable {event : Option SyncEvent} {step : SyncStep} (holds : Holds group trace)
    (found : group.wait call = some wait)
    (taken : group.waitDurable call wait step = some (next, event)) :
    Holds next (trace ++ event.toList) := by
  cases step with
  | check id =>
      dsimp only [GroupSync.waitDurable] at taken
      split at taken
      next lsn =>
        split at taken <;> cases taken
        · exact holds.refuse found
        · exact holds.check found
      next => cases taken
  | lock id =>
      dsimp only [GroupSync.waitDurable] at taken
      split at taken
      next lsn =>
        split at taken
        next free =>
          cases taken
          exact holds.lock found free
        next => cases taken
      next => cases taken
  | recheck id =>
      dsimp only [GroupSync.waitDurable] at taken
      split at taken
      next lsn =>
        split at taken
        next failed =>
          cases taken
          refine holds.leave found rfl ?_ wait_move rfl rfl rfl (fun ok => nomatch ok) (Or.inr failed)
          exact holds.logged.of_wait (by simp) ⟨rfl, rfl, rfl, rfl, rfl, rfl⟩
        next intact =>
          cases taken
          have noFailure := holds.noFailure_of_locked found (Bool.not_eq_true _ ▸ intact)
          rw [Option.toList_none]
          exact holds.within found rfl (fun _ isLsn => isLsn) (by simp)
            (noFailure.append noFailure_nil) (by simp) (noFailure.append noFailure_nil)
      next => cases taken
  | compare id =>
      dsimp only [GroupSync.waitDurable] at taken
      split at taken
      next lsn =>
        split at taken
        next covered =>
          cases taken
          exact holds.compare found covered
        next =>
          cases taken
          have noFailure := holds.waiting.locked call _ (holds.waiting.held call _ found rfl) found
          rw [Option.toList_none]
          exact holds.within found rfl (fun _ isLsn => isLsn) (by simp)
            (NoFailure.append noFailure noFailure_nil) (by simp)
            (NoFailure.append noFailure noFailure_nil)
      next => cases taken
  | aim id =>
      dsimp only [GroupSync.waitDurable] at taken
      split at taken
      next lsn =>
        cases taken
        have noFailure : NoFailure trace :=
          holds.waiting.locked call _ (holds.waiting.held call _ found rfl) found
        have below := (holds.waiting.known call _ lsn found rfl).1
        have none := noFailure.append noFailure_nil
        rw [Option.toList_none]
        exact holds.within found rfl (fun _ isLsn => isLsn) (by simp) none (by simp)
          ⟨none, Nat.le_max_right _ _, Nat.max_le.mpr ⟨Nat.le_refl _, below⟩⟩
      next => cases taken
  | begin id =>
      dsimp only [GroupSync.waitDurable] at taken
      split at taken
      next lsn target =>
        cases taken
        obtain ⟨noFailure, aims, low⟩ :=
          holds.waiting.locked call _ (holds.waiting.held call _ found rfl) found
        have none : NoFailure (trace ++ [.began call]) :=
          noFailure.append (noFailure_singleton (by simp))
        refine holds.within found rfl (fun _ isLsn => isLsn) (by simp) none (by simp)
          ⟨none, aims, low, trace, [], rfl, fun other _ isReached => ?_⟩
        simpa using isReached
      next => cases taken
  | complete id ok =>
      dsimp only [GroupSync.waitDurable] at taken
      split at taken
      next lsn target =>
        cases taken
        exact holds.complete found (ok && !group.inject)
      next => cases taken
  | settle id =>
      dsimp only [GroupSync.waitDurable] at taken
      split at taken
      next lsn target =>
        cases taken
        exact holds.settle found
      next lsn target =>
        cases taken
        exact holds.fail found
      next => cases taken
  | _ => cases taken

end Waiters

/-! ## Runs -/

section Runs

variable {group next : GroupSync} {trace : List SyncEvent}

theorem Holds.call {lsn : Nat} (holds : Holds group trace) (known : lsn ∈ group.returned) :
    Holds { group.move group.calls (.called lsn) with calls := group.calls + 1 }
      (trace ++ Option.toList none) := by
  rw [Option.toList_none, List.append_nil]
  have absent : ∀ wait, group.wait group.calls ≠ some wait := fun wait found =>
    Nat.lt_irrefl _ (holds.waiting.fresh group.calls wait found)
  have waits : ∀ other, ({ group.move group.calls (.called lsn) with
      calls := group.calls + 1 } : GroupSync).wait other =
      if other = group.calls then some (.called lsn) else group.wait other := wait_move
  refine ⟨?_, ?_, holds.acknowledged⟩
  · exact ⟨holds.logged.low, holds.logged.synced, holds.logged.buffered, holds.logged.flushing,
      holds.logged.flushed, holds.logged.returned, holds.logged.covered⟩
  · constructor
    · intro call wait found
      rw [waits] at found
      split at found
      next here => exact here ▸ Nat.lt_succ_self _
      next => exact Nat.lt_succ_of_lt (holds.waiting.fresh call wait found)
    · intro call wait other found isLsn
      rw [waits] at found
      split at found
      next =>
        cases found
        cases isLsn
        exact holds.logged.returned lsn known
      next => exact holds.waiting.known call wait other found isLsn
    · intro call wait found inLock
      rw [waits] at found
      split at found
      next =>
        cases found
        cases inLock
      next => exact holds.waiting.held call wait found inLock
    · intro call wait held found
      rw [waits] at found
      split at found
      next =>
        cases found
        trivial
      next => exact holds.waiting.locked call wait held found
    · refine holds.waiting.failures.imp_right (Or.imp_right ?_)
      rintro ⟨call, other, target, held, reported⟩
      refine ⟨call, other, target, held, ?_⟩
      rw [waits, if_neg, reported]
      rintro rfl
      exact absent _ reported

theorem Holds.step {event : Option SyncEvent} {step : SyncStep} (holds : Holds group trace)
    (taken : group.step step = some (next, event)) : Holds next (trace ++ event.toList) := by
  have waits : ∀ step : SyncStep, ((caller step).bind fun call =>
      (group.wait call).bind fun wait => group.waitDurable call wait step) = some (next, event) →
      Holds next (trace ++ event.toList) := by
    intro step taken
    obtain ⟨call, -, taken⟩ := Option.bind_eq_some_iff.mp taken
    obtain ⟨wait, found, taken⟩ := Option.bind_eq_some_iff.mp taken
    exact holds.waitDurable found taken
  cases step with
  | append =>
      dsimp only [GroupSync.step] at taken
      split at taken
      next idle =>
        cases taken
        have logged := holds.logged.append (Or.inl rfl)
        exact holds.of_quiet_log (idle ▸ logged) (Nat.le_refl _) rfl rfl rfl rfl
      next => cases taken
  | skip =>
      dsimp only [GroupSync.step] at taken
      split at taken
      next idle =>
        cases taken
        refine holds.of_quiet_log ?_ (Nat.le_refl _) rfl rfl rfl rfl
        constructor
        · exact Nat.lt_succ_of_lt holds.logged.low
        · exact holds.logged.synced
        · exact fun lsn member => ⟨(holds.logged.buffered lsn member).1,
            Nat.lt_succ_of_lt (holds.logged.buffered lsn member).2⟩
        · exact fun lsn flushing => nomatch idle.symm.trans flushing
        · exact fun lsn flushed => nomatch idle.symm.trans flushed
        · exact holds.logged.returned
        · exact holds.logged.covered
      next => cases taken
  | appendCommit =>
      dsimp only [GroupSync.step] at taken
      split at taken
      next idle =>
        cases taken
        exact holds.of_quiet_log (holds.logged.append (Or.inr rfl)) (Nat.le_refl _) rfl rfl rfl rfl
      next => cases taken
  | spill =>
      dsimp only [GroupSync.step] at taken
      split at taken
      next lsn rest first =>
        cases taken
        refine holds.of_log (holds.logged.spill first) (noFailure_singleton (by simp)) ?_ (by simp)
          (Nat.le_refl _) rfl rfl rfl rfl
        intro other member
        cases List.mem_singleton.mp member
        exact (holds.logged.buffered lsn (first ▸ List.mem_cons_self)).1
      next => cases taken
  | flushed =>
      dsimp only [GroupSync.step] at taken
      split at taken
      next lsn flushing =>
        split at taken
        next empty =>
          cases taken
          refine holds.of_quiet_log ?_ (Nat.le_refl _) rfl rfl rfl rfl
          obtain ⟨below, inBuffer | reached⟩ := holds.logged.flushing lsn flushing
          · rw [empty] at inBuffer
            cases inBuffer
          · refine ⟨holds.logged.low, holds.logged.synced, holds.logged.buffered,
              (fun _ flushing => nomatch flushing), fun other isFlushed => ?_, holds.logged.returned,
              holds.logged.covered⟩
            cases isFlushed
            exact ⟨below, empty, reached⟩
        next => cases taken
      next => cases taken
  | flushFails =>
      dsimp only [GroupSync.step] at taken
      split at taken
      next =>
        cases taken
        refine holds.of_quiet_log ?_ (Nat.le_refl _) rfl rfl rfl rfl
        exact ⟨holds.logged.low, holds.logged.synced, holds.logged.buffered,
          (fun _ flushing => nomatch flushing), (fun _ flushed => nomatch flushed),
          holds.logged.returned, holds.logged.covered⟩
      next => cases taken
  | publish =>
      dsimp only [GroupSync.step] at taken
      split at taken
      next lsn flushed =>
        cases taken
        exact holds.of_quiet_log (holds.logged.publish flushed) (Nat.le_max_left _ _) rfl rfl rfl rfl
      next => cases taken
  | call lsn =>
      dsimp only [GroupSync.step] at taken
      split at taken
      next known =>
        cases taken
        exact holds.call known
      next => cases taken
  | injectFsyncFailure =>
      cases taken
      refine holds.of_quiet_log ?_ (Nat.le_refl _) rfl rfl rfl rfl
      exact ⟨holds.logged.low, holds.logged.synced, holds.logged.buffered, holds.logged.flushing,
        holds.logged.flushed, holds.logged.returned, holds.logged.covered⟩
  | check call => exact waits (.check call) taken
  | lock call => exact waits (.lock call) taken
  | recheck call => exact waits (.recheck call) taken
  | compare call => exact waits (.compare call) taken
  | aim call => exact waits (.aim call) taken
  | begin call => exact waits (.begin call) taken
  | complete call ok => exact waits (.complete call ok) taken
  | settle call => exact waits (.settle call) taken

theorem Holds.run {steps : List SyncStep} {more : List SyncEvent} (holds : Holds group trace)
    (taken : group.run steps = some (next, more)) : Holds next (trace ++ more) := by
  induction steps generalizing group trace more with
  | nil =>
      cases taken
      rw [List.append_nil]
      exact holds
  | cons step steps ih =>
      obtain ⟨⟨middle, event⟩, first, rest⟩ := Option.bind_eq_some_iff.mp taken
      obtain ⟨⟨last, later⟩, after, same⟩ := Option.map_eq_some_iff.mp rest
      cases same
      rw [← List.append_assoc]
      exact ih (holds.step first) after

theorem Holds.new (lastLsn : Nat) : Holds (GroupSync.new lastLsn) [] where
  logged :=
    { low := Nat.succ_pos lastLsn
      synced := Nat.le_refl 0
      buffered := fun _ member => nomatch member
      flushing := fun _ flushing => nomatch flushing
      flushed := fun _ flushed => nomatch flushed
      returned := fun _ member => nomatch member
      covered := fun _ _ reached => nomatch reached }
  waiting :=
    { fresh := fun _ _ found => nomatch found
      known := fun _ _ _ found => nomatch found
      held := fun _ _ found => nomatch found
      locked := fun _ _ held => nomatch held
      failures := Or.inl noFailure_nil }
  acknowledged := fun front _ _ _ split => by cases front <;> cases split

end Runs

/-- Group commit never acknowledges a commit that is not durable: in every run, a call returns
success only after an fsync that began when its record had reached the operating system has
succeeded and none had failed before, and once an fsync has failed no call returns success. -/
theorem acknowledged_durable (lastLsn : Nat) (steps : List SyncStep) (group : GroupSync)
    (trace : List SyncEvent) (taken : (GroupSync.new lastLsn).run steps = some (group, trace)) :
    (∀ front call lsn back, trace = front ++ .returned call lsn true :: back → Durable front lsn) ∧
    ∀ front failed between call lsn ok back,
      trace = front ++ .completed failed false :: between ++ .returned call lsn ok :: back →
      ok = false := by
  have acknowledged : Acknowledged trace := ((Holds.new lastLsn).run taken).acknowledged
  constructor
  · exact fun front call lsn back split => (acknowledged front call lsn back split).2
  · intro front failed between call lsn ok back split
    cases ok with
    | false => rfl
    | true =>
        have none := (acknowledged _ call lsn back split).1
        exact absurd (by simp) (none failed)

/-- Two commits share the fsync of the second waiter; the next fsync fails, and a third commit is
not acknowledged. -/
theorem acknowledged_durable_shared :
    ∃ group trace, (GroupSync.new 0).run [.appendCommit, .spill, .flushed, .publish, .call 1,
        .appendCommit, .spill, .flushed, .publish, .call 2, .check 1, .lock 1, .recheck 1,
        .compare 1, .aim 1, .begin 1, .check 0, .complete 1 true, .settle 1, .lock 0, .recheck 0,
        .compare 0, .appendCommit, .spill, .flushed, .publish, .call 3, .check 2, .lock 2,
        .recheck 2, .compare 2, .aim 2, .begin 2, .complete 2 false, .settle 2] =
          some (group, trace) ∧
      trace = [.reached 1, .reached 2, .began 1, .completed 1 true, .returned 1 2 true,
        .returned 0 1 true, .reached 3, .began 2, .completed 2 false, .returned 2 3 false] ∧
      Durable [.reached 1, .reached 2, .began 1, .completed 1 true, .returned 1 2 true] 1 := by
  refine ⟨_, _, rfl, rfl, ?_⟩
  exact (acknowledged_durable 0 [.appendCommit, .spill, .flushed, .publish, .call 1,
    .appendCommit, .spill, .flushed, .publish, .call 2, .check 1, .lock 1, .recheck 1, .compare 1,
    .aim 1, .begin 1, .check 0, .complete 1 true, .settle 1, .lock 0, .recheck 0, .compare 0,
    .appendCommit, .spill, .flushed, .publish, .call 3, .check 2, .lock 2, .recheck 2, .compare 2,
    .aim 2, .begin 2, .complete 2 false, .settle 2] _ _ rfl).1 _ 0 1
    [.reached 3, .began 2, .completed 2 false, .returned 2 3 false] rfl

end GroupSync

end JouleDB.Wal
