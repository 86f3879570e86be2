import JouleDB.File.Session

/-!
# Calls and runs

Every call of the backend keeps the session, or stops and leaves the ledger before or after
the call.  A run of calls leaves a possible ledger: the one its replies tell, or that and the
call that was cut short.
-/

namespace JouleDB.File

open Storage Wal FileBackend

section Session

variable {link : Link} {base : U64 → Option Bytes} {old : List WalEntry} {first : U64}
variable {progress : Progress} {ledger : Ledger} {backend : FileBackend}
variable {environment : Environment}

/-! ## Calls -/

/-- How a call of a session ends: it stops with the ledger before or after the call, or the
session goes on with the ledger after the reply. -/
def CallEnds (link : Link) (base : U64 → Option Bytes) (old : List WalEntry) (first : U64)
    (environment : Environment) (ledger : Ledger) (call : Call) (lsn : Nat) :
    Outcome StorageError Unit → FileBackend → List Event → Prop
  | .halt _, final, events =>
      Remains link base old first environment.log (fun committed =>
        committed = ledger.committed ∨ committed = (ledger.after call (.ok ())).committed)
        events final
  | outcome, final, events =>
      ((link.Resets ∧ old = []) ∨ .checkpointed ∉ events) →
        final.wal.currentLsn.val ≤ lsn + 2 ∧
          ∃ progress, Session link base old first progress (ledger.after call outcome) final

/-- The surroundings of a session: no device reports a failure and the old records are whole. -/
structure Surroundings (environment : Environment) (old : List WalEntry) : Prop where
  log : environment.log.Steady
  data : ∀ request, environment.data request ≠ .fail
  oldLogged : ∀ entry ∈ old, entry.Logged

theorem perform_begin (session : Session link base old first progress ledger backend)
    (txRoom : ledger.nextTx.val + 1 < 2 ^ 64) :
    Exec.Ends (Call.beginTransaction.perform environment)
      (CallEnds link base old first environment ledger .beginTransaction
        backend.wal.currentLsn.val) backend := by
  rw [Call.perform, Exec.ends_bind]
  refine (beginTransaction_ends session txRoom).mono ?_
  rintro outcome final events ⟨rfl, wal, -, ended⟩
  cases outcome with
  | ok txId =>
      dsimp only
      rw [Exec.ends_pure]
      exact fun _ => ⟨by rw [wal]; omega, progress, ended.2.2⟩
  | err error => exact fun _ => ⟨by rw [wal]; omega, progress, ended.2⟩
  | halt cause => exact absurd ended id

theorem perform_commit (session : Session link base old first progress ledger backend)
    (around : Surroundings environment old) (room : backend.wal.currentLsn.val + 2 < 2 ^ 64) :
    Exec.Ends (Call.commitTransaction.perform environment)
      (CallEnds link base old first environment ledger .commitTransaction
        backend.wal.currentLsn.val) backend := by
  rw [Call.perform]
  cases found : ledger.active with
  | none =>
      simp only [commitTransaction, Exec.ends_bind, Exec.ends_get,
        if_pos (session.currentTxId_eq_zero found)]
      exact fun _ => ⟨by simp [Exec.fail], progress, session⟩
  | some transaction =>
      have step : (backend.wal.currentLsn + 1).val = backend.wal.currentLsn.val + 1 :=
        u64_val_succ (by omega)
      refine (commitTransaction_ends session around.oldLogged around.log around.data found
        (by omega)).mono ?_
      rintro outcome final events ⟨-, ended⟩
      cases outcome with
      | ok value => exact fun _ => ⟨by rw [ended.1, step]; omega, ended.2⟩
      | err error => exact absurd ended id
      | halt cause => exact ended

theorem perform_rollback (session : Session link base old first progress ledger backend)
    (around : Surroundings environment old) (room : backend.wal.currentLsn.val + 2 < 2 ^ 64) :
    Exec.Ends (Call.rollbackTransaction.perform environment)
      (CallEnds link base old first environment ledger .rollbackTransaction
        backend.wal.currentLsn.val) backend := by
  rw [Call.perform]
  cases found : ledger.active with
  | none =>
      simp only [rollbackTransaction, Exec.ends_bind, Exec.ends_get,
        if_pos (session.currentTxId_eq_zero found)]
      exact fun _ => ⟨by simp [Exec.fail], progress, session⟩
  | some transaction =>
      have step : (backend.wal.currentLsn + 1).val = backend.wal.currentLsn.val + 1 :=
        u64_val_succ (by omega)
      refine (rollbackTransaction_ends session around.oldLogged around.log found
        (by omega)).mono ?_
      rintro outcome final events ⟨rfl, ended⟩
      cases outcome with
      | ok value => exact fun _ => ⟨by rw [ended.1, step]; omega, ended.2⟩
      | err error => exact absurd ended id
      | halt cause => exact ended.mono fun _ same => .inl same

theorem perform_checkpoint (session : Session link base old first progress ledger backend)
    (around : Surroundings environment old) (room : backend.wal.currentLsn.val + 2 < 2 ^ 64) :
    Exec.Ends (Call.checkpoint.perform environment)
      (CallEnds link base old first environment ledger .checkpoint
        backend.wal.currentLsn.val) backend := by
  have step : (backend.wal.currentLsn + 1).val = backend.wal.currentLsn.val + 1 :=
    u64_val_succ (by omega)
  rw [Call.perform, checkpoint, Exec.ends_bind, syncData]
  refine (request_ends session around.data _).mono ?_
  rintro outcome synced log ⟨rfl, ended⟩
  cases outcome with
  | err error => exact absurd ended id
  | halt cause => exact ended.mono fun _ same => .inl same
  | ok value =>
      obtain ⟨syncedWal, session⟩ := ended
      dsimp only
      rw [Exec.ends_bind, FileBackend.saveMetadata]
      refine (request_ends session around.data _).mono ?_
      rintro outcome saved log ⟨rfl, ended⟩
      cases outcome with
      | err error => exact absurd ended id
      | halt cause => exact ended.mono fun _ same => .inl same
      | ok value =>
          obtain ⟨savedWal, session⟩ := ended
          have wal : saved.wal = backend.wal := savedWal.trans syncedWal
          dsimp only
          refine (resetLog_ends session around.oldLogged around.log (by rw [wal]; omega)).mono ?_
          rintro outcome final events ⟨rfl, ended⟩
          cases outcome with
          | err error => exact absurd ended id
          | halt cause => exact ended.mono fun _ same => .inl same
          | ok value =>
              intro allowed
              refine ⟨by rw [ended.1, wal, step]; omega, ?_⟩
              rcases allowed with ⟨resets, isEmpty⟩ | unobserved
              · exact ended.2 resets isEmpty
              · exact absurd (by simp) unobserved

/-- A page written outside a transaction is logged and committed as one of its own. -/
theorem perform_auto {middle : FileBackend}
    (session : Session link base old first progress ledger.opened middle)
    (around : Surroundings environment old) (found : ledger.active = none) {page : Page}
    {bytes : Bytes} (encoded : page.encode defaultPageSize = .ok bytes)
    (wal : middle.wal = backend.wal) (room : backend.wal.currentLsn.val + 2 < 2 ^ 64) :
    Exec.Ends (do
        logAndKeep environment ledger.nextTx page bytes
        commitTransaction environment)
      (CallEnds link base old first environment ledger (.writePage page)
        backend.wal.currentLsn.val) middle := by
  have step : (backend.wal.currentLsn + 1).val = backend.wal.currentLsn.val + 1 :=
    u64_val_succ (by omega)
  have after : ledger.after (.writePage page) (.ok ()) = (ledger.opened.extend page).settle := by
    simp only [Ledger.after, found]
  have openedActive : ledger.opened.active = some (ledger.nextTx, []) := rfl
  rw [Exec.ends_bind]
  refine (logAndKeep_ends session around.oldLogged around.log openedActive encoded
    (by rw [wal]; omega)).mono ?_
  rintro outcome logged events ⟨rfl, ended⟩
  cases outcome with
  | err error => exact absurd ended id
  | halt cause => exact ended.mono fun _ same => .inl same
  | ok value =>
      obtain ⟨lsn, progress', session⟩ := ended
      rw [wal] at lsn
      have active : (ledger.opened.extend page).active =
          some (ledger.nextTx, [] ++ [(page.id, imageOf page)]) := rfl
      refine (commitTransaction_ends session around.oldLogged around.log around.data active
        (by rw [lsn, step]; omega)).mono ?_
      rintro outcome final events ⟨-, ended⟩
      cases outcome with
      | err error => exact absurd ended id
      | halt cause =>
          refine ended.mono fun committed same => same.imp id fun settled => ?_
          rw [after, settled]
      | ok value =>
          obtain ⟨finalLsn, committed⟩ := ended
          have two : (backend.wal.currentLsn + 1 + 1).val = backend.wal.currentLsn.val + 1 + 1 := by
            rw [u64_val_succ (by rw [step]; omega), step]
          refine fun _ => ⟨by rw [finalLsn, lsn, two], ?_⟩
          rw [after]
          exact committed

theorem perform_write (session : Session link base old first progress ledger backend)
    (around : Surroundings environment old) (room : backend.wal.currentLsn.val + 2 < 2 ^ 64)
    (txRoom : ledger.nextTx.val + 1 < 2 ^ 64) (page : Page) :
    Exec.Ends ((Call.writePage page).perform environment)
      (CallEnds link base old first environment ledger (.writePage page)
        backend.wal.currentLsn.val) backend := by
  have step : (backend.wal.currentLsn + 1).val = backend.wal.currentLsn.val + 1 :=
    u64_val_succ (by omega)
  rw [Call.perform, writePage, Exec.ends_bind, Exec.ends_lift]
  cases encoded : page.encode defaultPageSize with
  | err error => exact fun _ => ⟨Nat.le_add_right _ _, progress, session⟩
  | halt cause =>
      exact (session.remains rfl fun _ => rfl).mono fun _ same => .inl same
  | ok bytes =>
      dsimp only
      rw [Exec.ends_bind, transactionForWrite, Exec.ends_bind, Exec.ends_get]
      dsimp only
      cases found : ledger.active with
      | some transaction =>
          obtain ⟨-, active⟩ := session.active transaction found
          have busy : backend.currentTxId ≠ 0 := by
            rw [active.current]
            exact active.nonzero
          rw [if_neg busy, Exec.ends_pure]
          dsimp only
          rw [Exec.ends_bind, active.current]
          refine (logAndKeep_ends session around.oldLogged around.log found encoded
            (by omega)).mono ?_
          rintro outcome final events ⟨rfl, ended⟩
          cases outcome with
          | ok value =>
              obtain ⟨lsn, progress', session⟩ := ended
              have after : ledger.after (.writePage page) (.ok ()) = ledger.extend page := by
                simp only [Ledger.after, found]
              dsimp only
              rw [if_neg Bool.false_ne_true, Exec.ends_pure]
              exact fun _ => ⟨by rw [lsn, step]; omega, progress', after ▸ session⟩
          | err error => exact absurd ended id
          | halt cause => exact ended.mono fun _ same => .inl same
      | none =>
          rw [if_pos (session.currentTxId_eq_zero found), Exec.ends_bind]
          refine (beginTransaction_ends session txRoom).mono ?_
          rintro outcome middle events ⟨rfl, wal, -, ended⟩
          cases outcome with
          | err error => exact absurd ended.1 (by simp [found])
          | halt cause => exact absurd ended id
          | ok txId =>
              obtain ⟨-, rfl, session⟩ := ended
              exact perform_auto session around found encoded wal room

theorem commitPending_ends (session : Session link base old first progress ledger backend)
    (around : Surroundings environment old) (room : backend.wal.currentLsn.val + 1 < 2 ^ 64) :
    Exec.Ends (commitPending environment) (fun outcome final events =>
      .checkpointed ∉ events ∧
      match outcome with
      | .ok _ => final.wal.currentLsn.val ≤ backend.wal.currentLsn.val + 1 ∧
          ∃ progress', Session link base old first progress' ledger.settle final
      | .err _ => False
      | .halt _ => Remains link base old first environment.log
          (fun committed => committed = ledger.committed ∨ committed = ledger.settle.committed)
          events final) backend := by
  rw [commitPending, Exec.ends_bind, Exec.ends_get]
  dsimp only
  cases found : ledger.active with
  | none =>
      have idle : ledger.settle = ledger := by rw [Ledger.settle, found]
      rw [if_neg (not_not.mpr (session.currentTxId_eq_zero found)), Exec.ends_pure, idle]
      exact ⟨by simp, Nat.le_succ _, progress, session⟩
  | some transaction =>
      obtain ⟨-, active⟩ := session.active transaction found
      have busy : backend.currentTxId ≠ 0 := by
        rw [active.current]
        exact active.nonzero
      rw [if_pos busy]
      refine (commitTransaction_ends session around.oldLogged around.log around.data found
        room).mono ?_
      rintro outcome final events ⟨quiet, ended⟩
      refine ⟨quiet, ?_⟩
      cases outcome with
      | ok value => exact ⟨by rw [ended.1, u64_val_succ room], ended.2⟩
      | err error => exact ended
      | halt cause => exact ended

theorem settled_of_unwritten {events : List Event}
    (unwritten : ∀ count, .pageWritten count ∉ events) : Settled events :=
  fun count _ written => absurd written (unwritten count)

theorem perform_sync (session : Session link base old first progress ledger backend)
    (around : Surroundings environment old) (room : backend.wal.currentLsn.val + 2 < 2 ^ 64) :
    Exec.Ends (Call.sync.perform environment)
      (CallEnds link base old first environment ledger .sync backend.wal.currentLsn.val)
      backend := by
  have quiet : Settled [] := settled_of_unwritten fun _ => List.not_mem_nil
  rw [Call.perform, FileBackend.sync, Exec.ends_bind]
  refine (commitPending_ends session around (by omega)).mono ?_
  rintro outcome settledBackend commitEvents ⟨unobserved, ended⟩
  cases outcome with
  | err error => exact absurd ended id
  | halt cause => exact ended
  | ok value =>
      obtain ⟨lsn, progress, session⟩ := ended
      dsimp only
      rw [Exec.ends_bind]
      refine (logSync_ends session around.oldLogged around.log).mono ?_
      rintro outcome flushed log ⟨rfl, ended⟩
      cases outcome with
      | err error => exact absurd ended id
      | halt cause =>
          exact (ended.mono fun _ same => .inr same).more quiet (List.nil_subset _)
      | ok value =>
          obtain ⟨flushedLsn, progress, session⟩ := ended
          dsimp only
          rw [Exec.ends_bind, syncData]
          refine (request_ends session around.data _).mono ?_
          rintro outcome synced log ⟨rfl, ended⟩
          cases outcome with
          | err error => exact absurd ended id
          | halt cause =>
              exact (ended.mono fun _ same => .inr same).more quiet (List.nil_subset _)
          | ok value =>
              obtain ⟨syncedWal, session⟩ := ended
              dsimp only
              rw [Exec.ends_bind, FileBackend.saveMetadata]
              refine (request_ends session around.data _).mono ?_
              rintro outcome saved log ⟨rfl, ended⟩
              cases outcome with
              | err error => exact absurd ended id
              | halt cause =>
                  exact (ended.mono fun _ same => .inr same).more quiet (List.nil_subset _)
              | ok value =>
                  obtain ⟨savedWal, session⟩ := ended
                  have wal : saved.wal.currentLsn = settledBackend.wal.currentLsn := by
                    rw [savedWal, syncedWal, flushedLsn]
                  have small : saved.wal.currentLsn.val + 1 < 2 ^ 64 := by
                    rw [wal]
                    omega
                  dsimp only
                  rw [Exec.ends_bind, Exec.ends_get]
                  dsimp only
                  split
                  next =>
                    refine (resetLog_ends session around.oldLogged around.log small).mono ?_
                    rintro outcome final events ⟨rfl, ended⟩
                    cases outcome with
                    | err error => exact absurd ended id
                    | halt cause =>
                        refine (ended.mono fun _ same => .inr same).more ?_ ?_
                        · exact settled_of_unwritten fun count => by simp
                        · simp
                    | ok value =>
                        intro allowed
                        refine ⟨by rw [ended.1, u64_val_succ small, wal]; omega, ?_⟩
                        rcases allowed with ⟨resets, isEmpty⟩ | unobserved
                        · exact ended.2 resets isEmpty
                        · exact absurd (by simp) unobserved
                  next =>
                    rw [Exec.ends_pure]
                    exact fun _ => ⟨by rw [wal]; omega, progress, session⟩

/-- Every call keeps the session or stops with the ledger before or after it. -/
theorem perform_ends (session : Session link base old first progress ledger backend)
    (around : Surroundings environment old) (room : backend.wal.currentLsn.val + 2 < 2 ^ 64)
    (txRoom : ledger.nextTx.val + 1 < 2 ^ 64) (call : Call) :
    Exec.Ends (call.perform environment)
      (CallEnds link base old first environment ledger call backend.wal.currentLsn.val)
      backend := by
  cases call with
  | beginTransaction => exact perform_begin session txRoom
  | writePage page => exact perform_write session around room txRoom page
  | commitTransaction => exact perform_commit session around room
  | rollbackTransaction => exact perform_rollback session around room
  | checkpoint => exact perform_checkpoint session around room
  | sync => exact perform_sync session around room

/-! ## Runs -/

/-- The committed transactions that a run may have left: those its replies tell, or those
and the effect of the call that was cut short. -/
def Possible (start : Ledger) (replies : List Reply) (committed : List Transaction) : Prop :=
  committed = (ledgerOf start replies).committed ∨
    ∃ front last cause, replies = front ++ [last] ∧ last.outcome = .halt cause ∧
      committed = ((ledgerOf start front).after last.call (.ok ())).committed

theorem Possible.cons {start : Ledger} {reply : Reply} {replies : List Reply}
    {committed : List Transaction}
    (possible : Possible (start.after reply.call reply.outcome) replies committed) :
    Possible start (reply :: replies) committed := by
  rcases possible with same | ⟨front, last, cause, rfl, halted, same⟩
  · exact .inl same
  · exact .inr ⟨reply :: front, last, cause, rfl, halted, same⟩

theorem Ledger.nextTx_after (ledger : Ledger) (call : Call)
    (outcome : Outcome StorageError Unit) (room : ledger.nextTx.val + 1 < 2 ^ 64) :
    (ledger.after call outcome).nextTx.val ≤ ledger.nextTx.val + 1 := by
  have step : (ledger.nextTx + 1).val = ledger.nextTx.val + 1 := u64_val_succ room
  cases outcome with
  | halt cause => exact Nat.le_succ _
  | err error =>
      cases call with
      | beginTransaction => exact step.le
      | writePage | commitTransaction | rollbackTransaction | checkpoint | sync =>
          exact Nat.le_succ _
  | ok value =>
      cases found : ledger.active with
      | none =>
          cases call with
          | beginTransaction | writePage => simp [Ledger.after, Ledger.settle, Ledger.opened,
              Ledger.extend, found, step]
          | commitTransaction | rollbackTransaction | checkpoint | sync =>
              simp [Ledger.after, Ledger.settle, found]
      | some transaction =>
          cases call with
          | beginTransaction => exact step.le
          | writePage | commitTransaction | rollbackTransaction | checkpoint | sync =>
              simp [Ledger.after, Ledger.settle, Ledger.extend, found]

theorem runCalls_halt {call : Call} {calls : List Call} {cause : Halt} {final : FileBackend}
    {events : List Event} (performed : call.perform environment backend = ⟨.halt cause, final, events⟩) :
    runCalls environment (call :: calls) backend = ([⟨call, .halt cause, events⟩], final) := by
  rw [runCalls, performed]

theorem runCalls_next {call : Call} {calls : List Call} {outcome : Outcome StorageError Unit}
    {next : FileBackend} {events : List Event}
    (performed : call.perform environment backend = ⟨outcome, next, events⟩)
    (going : ∀ cause, outcome ≠ .halt cause) :
    runCalls environment (call :: calls) backend =
      (⟨call, outcome, events⟩ :: (runCalls environment calls next).1,
        (runCalls environment calls next).2) := by
  rw [runCalls, performed]
  cases outcome with
  | ok value => rfl
  | err error => rfl
  | halt cause => exact absurd rfl (going cause)

theorem CallEnds.going {call : Call} {lsn : Nat} {outcome : Outcome StorageError Unit}
    {final : FileBackend} {events : List Event}
    (ended : CallEnds link base old first environment ledger call lsn outcome final events)
    (going : ∀ cause, outcome ≠ .halt cause)
    (allowed : (link.Resets ∧ old = []) ∨ .checkpointed ∉ events) :
    final.wal.currentLsn.val ≤ lsn + 2 ∧
      ∃ progress, Session link base old first progress (ledger.after call outcome) final := by
  cases outcome with
  | ok value => exact ended allowed
  | err error => exact ended allowed
  | halt cause => exact absurd rfl (going cause)

theorem runCalls_remains (session : Session link base old first progress ledger backend)
    (around : Surroundings environment old) (calls : List Call)
    (room : backend.wal.currentLsn.val + 2 * calls.length < 2 ^ 64)
    (txRoom : ledger.nextTx.val + calls.length < 2 ^ 64)
    (allowed : (link.Resets ∧ old = []) ∨
      ∀ reply ∈ (runCalls environment calls backend).1, .checkpointed ∉ reply.events) :
    ∃ events, (events = [] ∨ ∃ reply ∈ (runCalls environment calls backend).1,
        reply.events = events) ∧
      Remains link base old first environment.log
        (Possible ledger (runCalls environment calls backend).1) events
        (runCalls environment calls backend).2 := by
  induction calls generalizing backend ledger progress with
  | nil =>
      refine ⟨[], .inl rfl, (session.remains rfl fun _ => rfl).mono fun committed same => ?_⟩
      exact .inl same
  | cons call calls ih =>
      rw [List.length_cons] at room txRoom
      have ended := perform_ends session around (by omega) (by omega) call
      unfold Exec.Ends at ended
      rcases performed : call.perform environment backend with ⟨outcome, next, events⟩
      rw [performed] at ended
      dsimp only at ended
      by_cases going : ∀ cause, outcome ≠ .halt cause
      · rw [runCalls_next performed going] at allowed ⊢
        have allowedHere : (link.Resets ∧ old = []) ∨ .checkpointed ∉ events :=
          allowed.imp_right fun quiet => quiet _ List.mem_cons_self
        have allowedLater := allowed.imp_right fun quiet reply member =>
          quiet reply (List.mem_cons_of_mem _ member)
        obtain ⟨lsn, progress, session⟩ := ended.going going allowedHere
        have fresh := ledger.nextTx_after call outcome (by omega)
        obtain ⟨seen, origin, remains⟩ := ih session (by omega) (by omega) allowedLater
        refine ⟨seen, ?_, remains.mono fun committed possible => possible.cons⟩
        refine origin.imp_right fun ⟨reply, member, same⟩ => ?_
        exact ⟨reply, List.mem_cons_of_mem _ member, same⟩
      · obtain ⟨cause, rfl⟩ : ∃ cause, outcome = .halt cause := by
          simpa using going
        rw [runCalls_halt performed]
        refine ⟨events, .inr ⟨_, List.mem_singleton_self _, rfl⟩, ?_⟩
        refine Remains.mono ended fun committed possible => ?_
        rcases possible with same | completed
        · exact .inl same
        · exact .inr ⟨[], _, cause, rfl, rfl, completed⟩

end Session

end JouleDB.File
