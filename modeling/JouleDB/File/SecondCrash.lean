import JouleDB.File.CrashAtomicity

/-!
# Commits after a crash and the next crash

Recovery leaves the log as it is when nothing has to be applied or rolled back.  Records of
later transactions are then appended after whatever the crash left: after torn bytes they
cannot be read, and since transaction ids start again at 1 they can be mixed up with the
records of an older transaction.  Apart from that, every transaction committed after the
first crash is returned by the second recovery.
-/

namespace JouleDB.File

open Storage Wal FileBackend RecoveryManager WalManager

/-! ## The first recovery -/

/-- The transaction in memory is the same. -/
def SameTransaction (before after : FileBackend) : Prop :=
  after.currentTxId = before.currentTxId ∧ after.nextTxId = before.nextTxId ∧
    after.dirtyPages = before.dirtyPages

/-- Observations do not matter. -/
def anyEvent (_ : Event) : Prop := True

section SameTransaction

variable {α : Type} (environment : Environment)

theorem SameTransaction.trans {first second third : FileBackend}
    (one : SameTransaction first second) (two : SameTransaction second third) :
    SameTransaction first third :=
  ⟨two.1.trans one.1, two.2.1.trans one.2.1, two.2.2.trans one.2.2⟩

theorem SameTransaction.modify {change : FileBackend → FileBackend}
    (keeps : ∀ backend, SameTransaction backend (change backend)) :
    Exec.Respects anyEvent SameTransaction (Exec.modify change : FileM Unit) :=
  fun backend _ => keeps backend

theorem SameTransaction.onLog (call : WalM α) :
    Exec.Respects anyEvent SameTransaction (FileBackend.onLog call) :=
  fun _ _ => ⟨rfl, rfl, rfl⟩

theorem SameTransaction.request (message : String) {effect : FileBackend → FileBackend}
    (keeps : ∀ backend, SameTransaction backend (effect backend)) :
    Exec.Respects anyEvent SameTransaction (FileBackend.request environment message effect) := by
  refine Exec.Respects.bind SameTransaction.trans
    (Exec.Respects.of_unchanged (fun _ => ⟨rfl, rfl, rfl⟩) fun _ => rfl) fun before => ?_
  refine Exec.Respects.bind SameTransaction.trans
    (SameTransaction.modify fun _ => ⟨rfl, rfl, rfl⟩) fun _ => ?_
  cases environment.data before.requests with
  | ok => exact SameTransaction.modify keeps
  | fail => exact Exec.Respects.of_unchanged (fun _ => ⟨rfl, rfl, rfl⟩) fun _ => rfl
  | crash => exact Exec.Respects.of_unchanged (fun _ => ⟨rfl, rfl, rfl⟩) fun _ => rfl

theorem SameTransaction.applyPages (pages : List (U64 × Bytes)) :
    Exec.Respects anyEvent SameTransaction (FileBackend.applyPages environment pages) := by
  induction pages with
  | nil => exact Exec.Respects.of_unchanged (fun _ => ⟨rfl, rfl, rfl⟩) fun _ => rfl
  | cons head rest ih =>
      refine Exec.Respects.bind SameTransaction.trans ?_ fun _ =>
        Exec.Respects.bind SameTransaction.trans
          (SameTransaction.modify fun _ => ⟨rfl, rfl, rfl⟩) fun _ => ih
      refine Exec.Respects.bind SameTransaction.trans ?_ fun _ =>
        SameTransaction.request environment _ fun _ => ⟨rfl, rfl, rfl⟩
      cases pageOffset head.1 <;>
        exact Exec.Respects.of_unchanged (fun _ => ⟨rfl, rfl, rfl⟩) fun _ => rfl

theorem SameTransaction.rollBackAll (txIds : List U64) :
    Exec.Respects anyEvent SameTransaction (FileBackend.rollBackAll environment txIds) := by
  induction txIds with
  | nil => exact Exec.Respects.of_unchanged (fun _ => ⟨rfl, rfl, rfl⟩) fun _ => rfl
  | cons txId rest ih =>
      exact Exec.Respects.bind SameTransaction.trans (SameTransaction.onLog _) fun _ => ih

theorem SameTransaction.recover :
    Exec.Respects anyEvent SameTransaction (FileBackend.recover environment) := by
  refine Exec.Respects.bind SameTransaction.trans
    (Exec.Respects.of_unchanged (fun _ => ⟨rfl, rfl, rfl⟩) fun _ => rfl) fun backend => ?_
  refine Exec.Respects.bind SameTransaction.trans
    (Exec.Respects.of_unchanged (fun _ => ⟨rfl, rfl, rfl⟩) fun _ => rfl) fun result => ?_
  split
  · exact Exec.Respects.of_unchanged (fun _ => ⟨rfl, rfl, rfl⟩) fun _ => rfl
  · refine Exec.Respects.bind SameTransaction.trans (SameTransaction.applyPages _ _) fun _ => ?_
    refine Exec.Respects.bind SameTransaction.trans
      (SameTransaction.request _ _ fun _ => ⟨rfl, rfl, rfl⟩) fun _ => ?_
    refine Exec.Respects.bind SameTransaction.trans (SameTransaction.rollBackAll _ _) fun _ => ?_
    refine Exec.Respects.bind SameTransaction.trans
      (SameTransaction.request _ _ fun _ => ⟨rfl, rfl, rfl⟩) fun _ => ?_
    refine Exec.Respects.bind SameTransaction.trans
      (SameTransaction.request _ _ fun _ => ⟨rfl, rfl, rfl⟩) fun _ => ?_
    exact Exec.Respects.bind SameTransaction.trans (SameTransaction.onLog _) fun _ =>
      SameTransaction.onLog _

end SameTransaction

/-- Emptying the log empties it whatever was in it. -/
theorem truncate_empties (device : LogDevice) (wal : WalManager) :
    Exec.Meets anyEvent True (WalManager.truncate device)
      (fun _ final => final.file = [] ∧ final.buffered = []) wal := by
  refine Exec.Meets.bind Exec.Meets.skip fun _ synced _ => ?_
  refine Exec.Meets.bind Exec.Meets.skip fun before _ _ => ?_
  refine Exec.Meets.bind Exec.Meets.skip fun _ asked _ => ?_
  exact Exec.Runs.answer (fun _ => ⟨rfl, rfl⟩) (fun _ => trivial) trivial

/-- A recovery that returns has found nothing to do, or has emptied the log. -/
theorem recover_log (environment : Environment) (backend : FileBackend) :
    Exec.Meets anyEvent True (FileBackend.recover environment)
      (fun _ final =>
        (final = backend ∧ ∃ result, RecoveryManager.recover backend.wal = .ok result ∧
          result.pagesToApply = [] ∧ result.uncommittedTransactions = []) ∨
        (final.wal.file = [] ∧ final.wal.buffered = [])) backend := by
  refine Exec.Meets.get_bind ?_
  cases found : RecoveryManager.recover backend.wal with
  | err error => exact fun _ => trivial
  | halt cause => exact fun _ => trivial
  | ok result =>
      refine Exec.Meets.lift_bind rfl ?_
      split
      next nothing => exact Exec.Meets.pure (.inl ⟨rfl, _, rfl, nothing⟩)
      next =>
        refine Exec.Meets.bind Exec.Meets.skip fun _ applied _ => ?_
        refine Exec.Meets.bind Exec.Meets.skip fun _ synced _ => ?_
        refine Exec.Meets.bind Exec.Meets.skip fun _ rolled _ => ?_
        refine Exec.Meets.bind Exec.Meets.skip fun _ flushed _ => ?_
        refine Exec.Meets.bind Exec.Meets.skip fun _ saved _ => ?_
        refine Exec.Meets.bind Exec.Meets.skip fun _ marked _ => ?_
        refine Exec.Runs.zoom (Exec.Meets.mono (truncate_empties environment.log marked.wal) ?_)
        exact fun _ final empty => .inr empty

/-! ## The session after it -/

/-- Every transaction of the ledger is in the log as a whole. -/
def exactLink : Link where
  holds lost since committed := lost = [] ∧ since = committed
  commit := by
    rintro lost logged txId since committed ⟨rfl, rfl⟩
    exact ⟨rfl, rfl⟩
  drop := fun ⟨_, same⟩ => ⟨rfl, same⟩
  redo := by
    rintro lost since committed ⟨-, rfl⟩ pageId image found
    exact found

/-- The backend that the first recovery opens over the first `cut` bytes of a log. -/
def afterRecovery (environment : Environment) (dataFile : U64 → Option Bytes)
    (log : List LoggedEntry) (cut : Nat) : FileBackend :=
  (FileBackend.recover environment (load dataFile ((logBytes (records log)).take cut))).state

/-- A first crash that is recovered from, and calls after it up to a second one: the log was
numbered in order, no file reports a failure, the counters do not wrap, and nothing is
checkpointed in between. -/
structure TwoCrashes (environment : Environment) (dataFile : U64 → Option Bytes)
    (log : List LoggedEntry) (cut : Nat) (calls : List Call) : Prop where
  steady : environment.log.Steady
  data : ∀ request, environment.data request ≠ .fail
  increasing : (records log).Pairwise fun earlier later => earlier.lsn < later.lsn
  recovered : (FileBackend.recover environment
    (load dataFile ((logBytes (records log)).take cut))).outcome = .ok ()
  unwrapped : 0 < (afterRecovery environment dataFile log cut).wal.currentLsn
  room : (afterRecovery environment dataFile log cut).wal.currentLsn.val + 2 * calls.length < 2 ^ 64
  noCheckpoint : ∀ reply ∈
    (runCalls environment calls (afterRecovery environment dataFile log cut)).1,
    .checkpointed ∉ reply.events

/-- Recovery returns the committed transactions and, for each of their pages, the last
image. -/
structure Returns (result : RecoveryResult) (committed : List Transaction) : Prop where
  transactions : ∀ transaction ∈ committed, transaction.1 ∈ result.committedTransactions
  pages : ∀ {pageId image}, lastUpdate (allWrites committed) pageId = some image →
    result.pagesToApply.lookup pageId = some image

/-- The second recovery returns what was committed after the first one. -/
def SurvivesSecondCrash (environment : Environment) (dataFile : U64 → Option Bytes)
    (log : List LoggedEntry) (cut : Nat) (calls : List Call) : Prop :=
  ∃ committed result,
    Possible Ledger.start
      (runCalls environment calls (afterRecovery environment dataFile log cut)).1 committed ∧
    RecoveryManager.recover (openFile
      (runCalls environment calls (afterRecovery environment dataFile log cut)).2.wal.file) =
        .ok result ∧
    Returns result committed

/-- Among the records, a later transaction id with a commit record has no write to a page of
a committed transaction, apart from the writes of the committed transaction of that id. -/
def NoStaleReuse (entries : List WalEntry) (committed : List Transaction) : Prop :=
  ∀ transaction ∈ committed, ∀ txId, transaction.1 < txId →
    CommittedIn (relevantEntries entries) txId →
    ∀ write ∈ writesOf (relevantEntries entries) txId, write.1 ∈ transaction.2.map Prod.fst →
      ∃ other ∈ committed, other.1 = txId ∧ write.1 ∈ other.2.map Prod.fst

section TwoCrashes

variable {environment : Environment} {dataFile : U64 → Option Bytes} {log : List LoggedEntry}
variable {cut : Nat} {calls : List Call}

/-- The session starts over the records that the first recovery left in the file. -/
theorem session_afterRecovery {old : List WalEntry}
    (file : (afterRecovery environment dataFile log cut).wal.file = logBytes old)
    (buffered : (afterRecovery environment dataFile log cut).wal.buffered = []) :
    Session exactLink (afterRecovery environment dataFile log cut).dataFile old
      (afterRecovery environment dataFile log cut).wal.currentLsn ⟨[], [], [], []⟩ Ledger.start
      (afterRecovery environment dataFile log cut) := by
  obtain ⟨current, next, dirty⟩ := SameTransaction.recover environment
    (load dataFile ((logBytes (records log)).take cut)) fun _ _ => trivial
  exact {
    journal := ⟨by rw [List.append_nil]; exact file, buffered⟩
    kept := ⟨Commits.nil, by simp, by simp, by simp⟩
    harmless := by simp
    positive := le_rfl
    linked := ⟨rfl, rfl⟩
    data := rfl
    valid := by simp [Ledger.start]
    nextTx := next
    started := by decide
    used := by simp
    idle := fun _ => ⟨current, dirty, rfl⟩
    active := by simp [Ledger.start] }

/-- The first recovery leaves whole records in the file, and none when it had something to
do. -/
theorem TwoCrashes.old (crashes : TwoCrashes environment dataFile log cut calls)
    (bounded : NeedsReplay (wholeEntries (records log) cut) ∨ tornLength (records log) cut = 0) :
    ∃ old, (NeedsReplay (wholeEntries (records log) cut) → old = []) ∧
      (afterRecovery environment dataFile log cut).wal.file = logBytes old ∧
      (afterRecovery environment dataFile log cut).wal.buffered = [] ∧
      (∀ entry ∈ old, entry.Logged) ∧
      ∀ entry ∈ old, entry.lsn < (afterRecovery environment dataFile log cut).wal.currentLsn := by
  have ended := recover_log environment (load dataFile ((logBytes (records log)).take cut))
    fun _ _ => trivial
  rw [crashes.recovered] at ended
  have logged : ∀ entry ∈ wholeEntries (records log) cut, entry.Logged := fun entry member =>
    logged_of_mem_records ((wholeEntries_take _ _).subset member)
  rcases ended with ⟨same, result, returned, noPages, noneOpen⟩ | ⟨file, buffered⟩
  · have quiet : ¬ NeedsReplay (wholeEntries (records log) cut) := by
      intro needs
      have read := readAllEntries_take log cut
      change RecoveryManager.recover (openPrefix log cut) = .ok result at returned
      rw [RecoveryManager.recover, read] at returned
      split at returned
      next =>
        injection returned with replayed
        obtain ⟨pages, -, unfinished⟩ := replay_map_reread (wholeEntries (records log) cut)
        refine needs.nonempty ⟨?_, ?_⟩
        · rw [← pages, replayed, noPages]
        · rw [← unfinished, replayed, noneOpen]
      next => cases returned
    have opened : (afterRecovery environment dataFile log cut).wal =
        openFile (logBytes (wholeEntries (records log) cut)) := by
      rw [afterRecovery, same, ← take_logBytes_whole (bounded.resolve_left quiet)]
      rfl
    refine ⟨_, fun needs => absurd needs quiet, by rw [opened]; rfl, by rw [opened]; rfl, logged, ?_⟩
    rw [opened]
    refine lsn_lt_openFile logged (crashes.increasing.sublist (wholeEntries_take _ _).sublist) ?_
    rw [← opened]
    exact crashes.unwrapped
  · exact ⟨[], fun _ => rfl, file, buffered, by simp, by simp⟩

/-- A log that can be read holds the records before the torn one. -/
theorem same_records {entries left : List WalEntry} {torn file : Bytes} {device : LogDevice}
    (read : (openFile file).readAllEntries = .ok (left.map WalEntry.reread))
    (logged : ∀ entry ∈ entries, entry.Logged) (whole : file = logBytes entries ++ torn)
    (tornOff : TornOff device torn) :
    left.map WalEntry.reread = entries.map WalEntry.reread := by
  have short : torn.length < walHeaderSize := by
    rcases tornOff with rfl | ⟨-, entry, entryLogged, count, inside, rfl⟩
    · simp [walHeaderSize]
    · by_contra long
      rw [List.length_take_of_le inside.le, not_lt] at long
      rw [readAllEntries_torn logged entryLogged long inside whole] at read
      cases read
  rw [readAllEntries_short logged short whole] at read
  injection read with same
  exact same.symm

/-- The relevant records of a log that goes on after older records. -/
theorem relevant_left {old whole left : List WalEntry} {committed : List Transaction}
    {first next : U64} (kept : Kept committed first next whole) (positive : 0 < first)
    (below : ∀ entry ∈ old, entry.lsn < first)
    (same : left.map WalEntry.reread = (old ++ whole).map WalEntry.reread) (txId : U64) :
    (CommittedIn (relevantEntries left) txId ↔
      CommittedIn (relevantEntries old) txId ∨ txId ∈ committed.map Prod.fst) ∧
    writesOf (relevantEntries left) txId =
      writesOf (relevantEntries old) txId ++ writesOf whole txId := by
  have relevant : (relevantEntries left).map WalEntry.reread =
      (relevantEntries old ++ whole).map WalEntry.reread := by
    rw [← relevantEntries_map_reread, same, relevantEntries_map_reread,
      relevantEntries_append positive (fun entry member => (kept.plain entry member).1) below
        fun entry member => (kept.numbered entry member).1]
  constructor
  · rw [← committedIn_map_reread, relevant, committedIn_map_reread, committedIn_append,
      kept.commits.committed]
  · rw [← writesOf_map_reread, relevant, writesOf_map_reread, writesOf_append]

/-- Ids are not in the way in a log that was emptied. -/
theorem noStaleReuse_of_emptied {whole left : List WalEntry} {committed : List Transaction}
    {first next : U64} (kept : Kept committed first next whole) (positive : 0 < first)
    (same : left.map WalEntry.reread = whole.map WalEntry.reread) :
    NoStaleReuse left committed := by
  intro transaction _ txId _ isCommitted write inWrites _
  obtain ⟨commits, writes⟩ := relevant_left kept positive
    (show ∀ entry ∈ ([] : List WalEntry), entry.lsn < first by simp) same txId
  rw [commits, relevantEntries_nil] at isCommitted
  obtain ⟨other, inCommitted, rfl⟩ := List.mem_map.mp
    (isCommitted.resolve_left (by simp [CommittedIn]))
  rw [writes, relevantEntries_nil, kept.commits.writes other inCommitted] at inWrites
  exact ⟨other, inCommitted, rfl, List.mem_map_of_mem inWrites⟩

/-- Whole transactions at the end of a log are returned, unless a later id was used before. -/
theorem returns_replay {old whole left : List WalEntry} {committed : List Transaction}
    {first next : U64} (kept : Kept committed first next whole) (positive : 0 < first)
    (below : ∀ entry ∈ old, entry.lsn < first)
    (same : left.map WalEntry.reread = (old ++ whole).map WalEntry.reread)
    (fresh : NoStaleReuse left committed) :
    Returns (replay (left.map WalEntry.reread)) committed := by
  have relevant := relevant_left kept positive below same
  have isCommitted : ∀ transaction ∈ committed,
      CommittedIn (relevantEntries left) transaction.1 := fun transaction member =>
    (relevant transaction.1).1.mpr (.inr (List.mem_map_of_mem member))
  obtain ⟨samePages, sameCommitted, -⟩ := replay_map_reread left
  obtain ⟨inResult, order, sorted, members, pages⟩ := replay_applies left
  refine ⟨fun transaction member => ?_, fun {pageId image} found => ?_⟩
  · rw [sameCommitted, inResult]
    exact isCommitted transaction member
  · rw [samePages, pages]
    obtain ⟨front, transaction, back, split, here, none⟩ := lastUpdate_flatMap_eq_some.mp found
    have inCommitted : transaction ∈ committed := by simp [split]
    obtain ⟨before, after, splitOrder⟩ :=
      List.append_of_mem ((members _).mpr (isCommitted transaction inCommitted))
    refine lastUpdate_flatMap_eq_some.mpr ⟨before, _, after, splitOrder, ?_, ?_⟩
    · rw [(relevant transaction.1).2, kept.commits.writes transaction inCommitted,
        lastUpdate_append, here, Option.some_or]
    -- A later id with a write to the page is a later transaction of the session.
    · intro txId later
      by_contra some
      obtain ⟨stale, isLast⟩ := Option.ne_none_iff_exists'.mp some
      rw [splitOrder, List.pairwise_append, List.pairwise_cons] at sorted
      have inOrder : txId ∈ order := by simp [splitOrder, later]
      obtain ⟨other, inOther, rfl, touches⟩ := fresh transaction inCommitted txId
        (sorted.2.1.1 txId later) ((members txId).mp inOrder) _ (mem_of_lastUpdate isLast)
        (List.mem_map.mpr ⟨_, mem_of_lastUpdate here, rfl⟩)
      obtain ⟨⟨page, data⟩, inWrites, rfl⟩ := List.mem_map.mp touches
      have inBack : other ∈ back := by
        have ordered := kept.commits.ordered
        rw [List.pairwise_map, split, List.pairwise_append, List.pairwise_cons] at ordered
        have greater := sorted.2.1.1 other.1 later
        rw [split, List.mem_append, List.mem_cons] at inOther
        rcases inOther with inFront | rfl | inBack
        · exact absurd (ordered.2.2 other inFront transaction List.mem_cons_self) greater.asymm
        · exact absurd greater (lt_irrefl _)
        · exact inBack
      obtain ⟨last, isLast⟩ := exists_lastUpdate inWrites
      rw [none other inBack] at isLast
      cases isLast

/-- What the second recovery has to find: the log was emptied by the first one, or it ends
with a whole record and its transaction ids do not get in the way; and the second crash does
not fall into a payload. -/
structure Readable (environment : Environment) (dataFile : U64 → Option Bytes)
    (log : List LoggedEntry) (cut : Nat) (calls : List Call) : Prop where
  bounded : NeedsReplay (wholeEntries (records log) cut) ∨ tornLength (records log) cut = 0
  short : ∃ left torn,
    (runCalls environment calls (afterRecovery environment dataFile log cut)).2.wal.file =
      logBytes left ++ torn ∧ torn.length < walHeaderSize ∧ (∀ entry ∈ left, entry.Logged) ∧
    (NeedsReplay (wholeEntries (records log) cut) ∨ ∀ committed,
      Possible Ledger.start (runCalls environment calls
        (afterRecovery environment dataFile log cut)).1 committed → NoStaleReuse left committed)

/-- Commits after a crash survive the next crash when the log can be read on. -/
theorem survivesSecondCrash (crashes : TwoCrashes environment dataFile log cut calls)
    (readable : Readable environment dataFile log cut calls) :
    SurvivesSecondCrash environment dataFile log cut calls := by
  obtain ⟨old, emptied, file, buffered, oldLogged, below⟩ := crashes.old readable.bounded
  obtain ⟨left, torn, leftFile, short, leftLogged, fresh⟩ := readable.short
  have around : Surroundings environment old := ⟨crashes.steady, crashes.data, oldLogged⟩
  have positive := crashes.unwrapped
  have room := crashes.room
  have txId : Ledger.start.nextTx.val = 1 := rfl
  obtain ⟨events, origin, remains⟩ := runCalls_remains (session_afterRecovery file buffered) around
    calls room (by rw [txId]; rw [Fin.lt_def] at positive; omega) (.inr crashes.noCheckpoint)
  have read : (openFile (runCalls environment calls
      (afterRecovery environment dataFile log cut)).2.wal.file).readAllEntries =
        .ok (left.map WalEntry.reread) := readAllEntries_short leftLogged short leftFile
  cases remains with
  | checkpointed isPossible observed =>
      rcases origin with rfl | ⟨reply, member, rfl⟩
      · cases observed
      · exact absurd observed (crashes.noCheckpoint reply member)
  | @kept lost since committed whole tail next isPossible linked wholeFile tornOff kept =>
      obtain ⟨-, rfl⟩ := linked
      have same := same_records read (fun entry member => (List.mem_append.mp member).elim
        (oldLogged entry) (kept.logged entry)) wholeFile tornOff
      have noStale : NoStaleReuse left since := by
        rcases fresh with needs | fresh
        · rw [emptied needs, List.nil_append] at same
          exact noStaleReuse_of_emptied kept positive same
        · exact fresh since isPossible
      refine ⟨since, replay (left.map WalEntry.reread), isPossible, ?_, ?_⟩
      · rw [RecoveryManager.recover, read]
        rfl
      · exact returns_replay kept positive below same noStale

end TwoCrashes

/-! ## A transaction after a torn log -/

/-- A transaction that writes one page. -/
def onePage : List Call := [.beginTransaction, .writePage (emptyPage 1), .commitTransaction]

/-- What the transaction writes. -/
def onePageCommitted : List Transaction := [(1, [(1, imageOf (emptyPage 1))])]

/-- What a user sees of the transaction. -/
def onePageReplies : List Reply :=
  [⟨.beginTransaction, .ok (), []⟩, ⟨.writePage (emptyPage 1), .ok (), []⟩,
    ⟨.commitTransaction, .ok (), [.pageWritten 1, .commitLogged]⟩]

/-- A commit of one page with nothing in the writer. -/
theorem commit_onePage {backend : FileBackend} (dirty : backend.dirtyPages = [(1, emptyPage 1)])
    (busy : backend.currentTxId = 1) (empty : backend.wal.buffered = []) :
    Exec.Ends (commitTransaction allAnswered) (fun outcome final events =>
      outcome = .ok () ∧ events = [.pageWritten 1, .commitLogged] ∧
        final.wal.file = backend.wal.file ++ logBytes [.commit backend.wal.currentLsn 1]) backend := by
  have offset : pageOffset 1 = some 0 := by decide
  have length : (WalEntry.commit backend.wal.currentLsn 1).image.length = 29 := by
    rw [WalEntry.image_length]
    simp [WalEntry.payloadSize, WalEntry.commit, walHeaderSize]
  have encoded := WalEntry.encode_logged (.commit backend.wal.currentLsn 1)
  have present : (WalEntry.commit backend.wal.currentLsn 1).image ≠ [] := by
    intro none
    rw [none] at length
    cases length
  rw [logBytes_singleton]
  simp [Exec.Ends, commitTransaction, busy, dirty, allAnswered, stopAt, writeDirtyPages, writeImage,
    encode_emptyPage, offset, Exec.expect, request, Exec.answer, Exec.lift, Exec.note, bind,
    Exec.bind, Exec.get, Exec.modify, pure, onLog, Exec.zoom, WalManager.logCommit,
    WalManager.nextLsn, WalManager.appendEntry, WalManager.writeAll, WalManager.flushBuf,
    WalManager.writeOut, encoded, empty, length, bufferCapacity, present]

/-- The backend when its first transaction has begun. -/
def firstBegun (backend : FileBackend) : FileBackend :=
  { backend with nextTxId := 2, currentTxId := 1 }

/-- The transaction is appended to whatever is in the file. -/
theorem runCalls_onePage (dataFile : U64 → Option Bytes) (bytes : Bytes) :
    (runCalls allAnswered onePage (load dataFile bytes)).1 = onePageReplies ∧
      (runCalls allAnswered onePage (load dataFile bytes)).2.wal.file = bytes ++
        logBytes [.pageWrite (openFile bytes).currentLsn 1 1 (imageOf (emptyPage 1)),
          .commit ((openFile bytes).currentLsn + 1) 1] := by
  have going : ∀ cause, (Outcome.ok () : Outcome StorageError Unit) ≠ .halt cause :=
    fun _ => by simp
  have start : Call.beginTransaction.perform allAnswered (load dataFile bytes) =
      ⟨.ok (), firstBegun (load dataFile bytes), []⟩ := rfl
  have busy : (firstBegun (load dataFile bytes)).currentTxId ≠ 0 := by simp [firstBegun]
  have write : (Call.writePage (emptyPage 1)).perform allAnswered
      (firstBegun (load dataFile bytes)) =
        ⟨.ok (), afterWrite (firstBegun (load dataFile bytes)) (emptyPage 1), []⟩ :=
    perform_write_direct rfl rfl busy (encode_emptyPage 1)
  have commit := commit_onePage
    (show (afterWrite (firstBegun (load dataFile bytes)) (emptyPage 1)).dirtyPages = _ from rfl)
    rfl rfl
  rw [afterWrite_file, List.append_assoc, ← logBytes_append] at commit
  rw [onePage, runCalls_next start going, runCalls_next write going]
  rcases performed : commitTransaction allAnswered
    (afterWrite (firstBegun (load dataFile bytes)) (emptyPage 1)) with ⟨outcome, final, events⟩
  rw [Exec.Ends, performed] at commit
  obtain ⟨rfl, rfl, file⟩ := commit
  rw [runCalls_next (show Call.commitTransaction.perform allAnswered _ = _ from performed) going]
  exact ⟨rfl, file⟩

theorem possible_onePage {committed : List Transaction}
    (possible : Possible Ledger.start onePageReplies committed) :
    committed = onePageCommitted := by
  rcases possible with rfl | ⟨front, last, cause, split, halted, -⟩
  · rfl
  · obtain ⟨-, same⟩ := List.append_inj' (show [_, _] ++ [_] = front ++ [last] from split) rfl
    rw [← List.singleton_injective same] at halted
    cases halted

/-- A log with one commit record. -/
def oneCommit : List LoggedEntry := [⟨.commit 1 1, .commit 1 1⟩]

/-- There is nothing to recover in the log, wherever it is cut. -/
theorem afterRecovery_oneCommit {cut : Nat}
    (short : tornLength (records oneCommit) cut < walHeaderSize) :
    (FileBackend.recover allAnswered
      (load (fun _ => none) ((logBytes (records oneCommit)).take cut))).outcome = .ok () ∧
    afterRecovery allAnswered (fun _ => none) oneCommit cut =
      load (fun _ => none) ((logBytes (records oneCommit)).take cut) := by
  have nothing : ∀ entries, entries <+: records oneCommit →
      (replay (entries.map WalEntry.reread)).pagesToApply = [] ∧
        (replay (entries.map WalEntry.reread)).uncommittedTransactions = [] := by
    intro entries isPrefix
    rcases List.prefix_cons_iff.mp isPrefix with rfl | ⟨rest, rfl, rest_nil⟩
    · exact ⟨rfl, rfl⟩
    · rw [List.prefix_nil.mp rest_nil]
      decide
  have read := readAllEntries_take oneCommit cut
  rw [if_pos short] at read
  have recovered : RecoveryManager.recover
      (load (fun _ => none) ((logBytes (records oneCommit)).take cut)).wal =
        .ok (replay ((wholeEntries (records oneCommit) cut).map WalEntry.reread)) := by
    change RecoveryManager.recover (openPrefix oneCommit cut) = _
    rw [RecoveryManager.recover, read]
    rfl
  simp [afterRecovery, FileBackend.recover, recovered, nothing _ (wholeEntries_take _ cut),
    Exec.lift, bind, Exec.bind, Exec.get, pure]

theorem twoCrashes_onePage {cut : Nat}
    (short : tornLength (records oneCommit) cut < walHeaderSize)
    (unwrapped : 0 < (openPrefix oneCommit cut).currentLsn)
    (room : (openPrefix oneCommit cut).currentLsn.val + 6 < 2 ^ 64) :
    TwoCrashes allAnswered (fun _ => none) oneCommit cut onePage := by
  obtain ⟨recovered, opened⟩ := afterRecovery_oneCommit short
  refine ⟨fun _ => Io.noConfusion, fun _ => Io.noConfusion, by simp [records, oneCommit], recovered,
    by rw [opened]; exact unwrapped, by rw [opened]; exact room, ?_⟩
  rw [opened, (runCalls_onePage _ _).1]
  intro reply member
  simp only [onePageReplies, List.mem_cons, List.not_mem_nil, or_false] at member
  rcases member with rfl | rfl | rfl <;> simp

theorem logged_onePage (lsn : U64) : ∀ entry ∈
    [WalEntry.pageWrite lsn 1 1 (imageOf (emptyPage 1)), .commit (lsn + 1) 1], entry.Logged := by
  have size : (imageOf (emptyPage 1)).length = defaultPageSize :=
    Page.encode_length (encode_emptyPage 1)
  intro entry member
  simp only [List.mem_cons, List.not_mem_nil, or_false] at member
  rcases member with rfl | rfl
  · exact .pageWrite _ _ _ _ (by rw [size]; decide)
  · exact .commit _ _

/-- A transaction after a crash at the end of the log survives the next crash. -/
theorem survivesSecondCrash_onePage :
    SurvivesSecondCrash allAnswered (fun _ => none) oneCommit 29 onePage := by
  have length : (WalEntry.commit 1 1).image.length = 29 := by
    rw [WalEntry.image_length]
    simp [WalEntry.payloadSize, WalEntry.commit, walHeaderSize]
  have untorn : tornLength (records oneCommit) 29 = 0 := by
    simp [records, oneCommit, tornLength, length]
  have short : tornLength (records oneCommit) 29 < walHeaderSize := by
    rw [untorn]
    decide
  have whole : (logBytes (records oneCommit)).take 29 = logBytes (records oneCommit) := by
    rw [List.take_of_length_le]
    simp [records, oneCommit, logBytes, length]
  have lsn : (openPrefix oneCommit 29).currentLsn = 2 := by
    have logged : ∀ entry ∈ records oneCommit, entry.Logged := fun _ => logged_of_mem_records
    have last := scanHeaders_logBytes logged (length_le_logBytes (records oneCommit)) 0
    have nonempty : (logBytes (records oneCommit)).length > 0 := by
      simp [records, oneCommit, logBytes, length]
    rw [openPrefix, whole]
    simp only [openFile, if_pos nonempty, findLastLsn, last]
    rfl
  refine survivesSecondCrash (twoCrashes_onePage short (by rw [lsn]; decide)
    (by rw [lsn]; decide)) ⟨.inr untorn, ?_⟩
  obtain ⟨-, opened⟩ := afterRecovery_oneCommit short
  obtain ⟨replies, file⟩ := runCalls_onePage (fun _ => none)
    ((logBytes (records oneCommit)).take 29)
  rw [opened, replies]
  rw [whole, ← logBytes_append] at file
  refine ⟨_, [], by rw [whole, file, List.append_nil], by decide, ?_, .inr ?_⟩
  · intro entry member
    rcases List.mem_append.mp member with old | new
    · exact logged_of_mem_records old
    · exact logged_onePage _ entry new
  · intro committed possible
    rw [possible_onePage possible]
    -- The only id in the log is the one of the transaction itself.
    rintro transaction member txId later ⟨entry, relevant, -, rfl⟩
    rw [List.mem_singleton.mp member] at later
    have inLog := List.mem_of_mem_filter relevant
    simp only [records, oneCommit, List.map_cons, List.map_nil, List.cons_append, List.nil_append,
      List.mem_cons, List.not_mem_nil, or_false] at inLog
    rcases inLog with rfl | rfl | rfl <;> exact absurd later (lt_irrefl _)

/-- A torn byte before the magic number of a record ends the log. -/
theorem readAllEntries_foreign (entry : WalEntry) (entries : List WalEntry) :
    (openFile ([0x57] ++ logBytes (entry :: entries))).readAllEntries = .ok [] := by
  have magic : ([0x57] ++ logBytes (entry :: entries)).take 4 ≠ walMagic := by
    simp [logBytes, WalEntry.image, walMagic]
  change readEntries ((logBytes (entry :: entries)).length + 1)
    ([0x57] ++ logBytes (entry :: entries)) = .ok []
  rw [readEntries, if_pos magic]
  split <;> rfl

/-- A transaction after a crash one byte into a record is lost with the next crash. -/
theorem not_survivesSecondCrash_onePage :
    TwoCrashes allAnswered (fun _ => none) oneCommit 1 onePage ∧
      ¬ SurvivesSecondCrash allAnswered (fun _ => none) oneCommit 1 onePage := by
  have short : tornLength (records oneCommit) 1 < walHeaderSize := by
    simp only [records, oneCommit, List.map_cons, tornLength, WalEntry.image_length, walHeaderSize]
    split <;> decide
  have torn : (logBytes (records oneCommit)).take 1 = [0x57] := by
    simp [records, oneCommit, logBytes, WalEntry.image, walMagic]
  have lsn : (openPrefix oneCommit 1).currentLsn = 1 := by
    rw [openPrefix, torn]
    simp [openFile, findLastLsn, scanHeaders, walHeaderSize]
  refine ⟨twoCrashes_onePage short (by rw [lsn]; decide) (by rw [lsn]; decide), ?_⟩
  rintro ⟨committed, result, possible, recovered, returns⟩
  obtain ⟨-, opened⟩ := afterRecovery_oneCommit short
  obtain ⟨replies, file⟩ := runCalls_onePage (fun _ => none)
    ((logBytes (records oneCommit)).take 1)
  rw [opened, replies] at possible
  rw [possible_onePage possible] at returns
  rw [opened, file, torn] at recovered
  have read : (openFile ([0x57] ++ logBytes
      [.pageWrite (openFile [0x57]).currentLsn 1 1 (imageOf (emptyPage 1)),
        .commit ((openFile [0x57]).currentLsn + 1) 1])).readAllEntries = .ok [] :=
    readAllEntries_foreign _ _
  rw [RecoveryManager.recover, read] at recovered
  injection recovered with nothing
  have member := returns.transactions (1, _) (List.mem_singleton_self _)
  rw [← nothing] at member
  cases member

end JouleDB.File
