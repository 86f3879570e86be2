import JouleDB.File.Calls

/-!
# Crash atomicity of transactions

`commit_transaction` writes the pages of a transaction to the data file before it logs the
commit, and recovery only redoes.  A crash between the two leaves a part of a transaction of
several pages for good; every other crash leaves all of a transaction or none of it.
-/

namespace JouleDB.File

open Storage Wal FileBackend RecoveryManager

/-! ## Recovery -/

/-- Every request is answered. -/
structure Environment.Healthy (environment : Environment) : Prop where
  log : ∀ request, environment.log.answer request = .ok
  data : ∀ request, environment.data request = .ok

section Recovery

variable {environment : Environment} (healthy : environment.Healthy)
include healthy

theorem Environment.Healthy.steady : environment.log.Steady :=
  fun request => by simp [healthy.log request]

/-- A log that answers every request does not stop. -/
theorem LogEnds.of_healthy {α : Type} {flushed all : List WalEntry} {seen : List Event}
    {done : α → WalManager → List Event → Prop} {outcome : Outcome StorageError α}
    {final : WalManager} {events : List Event}
    (ended : LogEnds environment.log flushed all seen done outcome final events) :
    ∃ value, outcome = .ok value ∧ done value final events := by
  cases ended with
  | done holds => exact ⟨_, rfl, holds⟩
  | crash stopped left =>
      obtain ⟨request, crashed⟩ := stopped
      rw [healthy.log] at crashed
      cases crashed

theorem request_healthy (message : String) (effect : FileBackend → FileBackend)
    (backend : FileBackend) :
    Exec.Ends (request environment message effect) (fun outcome final _ => outcome = .ok () ∧
      final = effect { backend with requests := backend.requests + 1 }) backend := by
  simp only [request, Exec.ends_bind, Exec.ends_get, Exec.ends_modify, healthy.data]
  exact ⟨rfl, rfl⟩

theorem applyPages_healthy {pages : List (U64 × Bytes)}
    (valid : ∀ page ∈ pages, (pageOffset page.1).isSome) (backend : FileBackend) :
    Exec.Ends (applyPages environment pages) (fun outcome final _ => outcome = .ok () ∧
      final.wal = backend.wal ∧
      ∀ pageId, final.dataFile pageId = (lastUpdate pages pageId).or (backend.dataFile pageId))
      backend := by
  induction pages generalizing backend with
  | nil => exact ⟨rfl, rfl, fun pageId => rfl⟩
  | cons head rest ih =>
      obtain ⟨page, data⟩ := head
      obtain ⟨here, later⟩ := List.forall_mem_cons.mp valid
      obtain ⟨offset, found⟩ := Option.isSome_iff_exists.mp here
      rw [applyPages, Exec.ends_bind, writeImage, Exec.ends_bind, found, Exec.expect,
        Exec.ends_pure]
      refine (request_healthy healthy _ _ backend).mono ?_
      rintro outcome middle log ⟨rfl, rfl⟩
      simp only [Exec.ends_bind, Exec.ends_modify]
      refine (ih later _).mono ?_
      rintro outcome final log ⟨rfl, wal, contents⟩
      refine ⟨rfl, wal, fun pageId => ?_⟩
      rw [contents, lastUpdate_cons, Option.or_assoc]
      by_cases same : pageId = page <;> simp [same]

theorem rollBackAll_healthy (txIds : List U64) {backend : FileBackend}
    {flushed pending : List WalEntry} (journal : Journal backend.wal flushed pending) :
    Exec.Ends (rollBackAll environment txIds) (fun outcome final _ => outcome = .ok () ∧
      final.dataFile = backend.dataFile ∧
      ∃ flushed pending, Journal final.wal flushed pending) backend := by
  induction txIds generalizing backend flushed pending with
  | nil => exact ⟨rfl, rfl, _, _, journal⟩
  | cons txId rest ih =>
      rw [rollBackAll, Exec.ends_bind, onLog, Exec.ends_zoom]
      refine (logRollback_ends healthy.steady txId journal).mono ?_
      intro outcome middle log ended
      obtain ⟨value, rfl, -, -, flushed, pending, journal, -⟩ := LogEnds.of_healthy healthy ended
      refine (ih journal).mono ?_
      rintro outcome final log ⟨rfl, data, holds⟩
      exact ⟨rfl, data, holds⟩

theorem checkpoint_healthy {backend : FileBackend} {flushed pending : List WalEntry}
    (journal : Journal backend.wal flushed pending) :
    Exec.Ends (checkpoint environment) (fun outcome final _ => outcome = .ok () ∧
      final.dataFile = backend.dataFile) backend := by
  rw [checkpoint, Exec.ends_bind, syncData]
  refine (request_healthy healthy _ _ backend).mono ?_
  rintro outcome synced log ⟨rfl, rfl⟩
  dsimp only
  rw [Exec.ends_bind, FileBackend.saveMetadata]
  refine (request_healthy healthy _ _ _).mono ?_
  rintro outcome saved log ⟨rfl, rfl⟩
  dsimp only
  rw [resetLog, Exec.ends_bind, onLog, Exec.ends_zoom]
  refine (logCheckpoint_ends healthy.steady journal).mono ?_
  intro outcome marked log ended
  obtain ⟨value, rfl, -, journal, -⟩ := LogEnds.of_healthy healthy ended
  dsimp only
  rw [onLog, Exec.ends_zoom]
  refine (truncate_ends healthy.steady journal).mono ?_
  intro outcome final log ended
  obtain ⟨value, rfl, -⟩ := LogEnds.of_healthy healthy ended
  exact ⟨rfl, rfl⟩

/-- Recovery completes the data file with what the log says was committed. -/
theorem recover_healthy (dataFile : U64 → Option Bytes) {entries : List WalEntry}
    (logged : ∀ entry ∈ entries, entry.Logged)
    (plain : ∀ entry ∈ entries, entry.entryType ≠ .extentWrite)
    (valid : ∀ page ∈ (replay entries).pagesToApply, (pageOffset page.1).isSome) :
    Exec.Ends (FileBackend.recover environment) (fun outcome final _ => outcome = .ok () ∧
      ∀ pageId, final.dataFile pageId =
        ((replay entries).pagesToApply.lookup pageId).or (dataFile pageId))
      (load dataFile (logBytes entries)) := by
  have read : RecoveryManager.recover (load dataFile (logBytes entries)).wal =
      .ok (replay entries) := by
    have whole : (load dataFile (logBytes entries)).wal.file = logBytes entries ++ [] := by
      rw [List.append_nil]
      rfl
    rw [RecoveryManager.recover, readAllEntries_short logged (by decide) whole,
      (map_reread_eq_iff logged).mpr plain]
    rfl
  rw [FileBackend.recover, Exec.ends_bind, Exec.ends_get]
  dsimp only
  rw [Exec.ends_bind, Exec.ends_lift, read]
  dsimp only
  split
  next nothing =>
    rw [Exec.ends_pure]
    exact ⟨rfl, fun pageId => by rw [nothing.1]; rfl⟩
  next =>
    rw [Exec.ends_bind]
    refine (applyPages_healthy healthy valid _).mono ?_
    rintro outcome applied log ⟨rfl, wal, data⟩
    dsimp only
    rw [Exec.ends_bind, syncData]
    refine (request_healthy healthy _ _ _).mono ?_
    rintro outcome synced log ⟨rfl, isSynced⟩
    dsimp only
    rw [Exec.ends_bind]
    have journal : Journal synced.wal entries [] := by
      rw [isSynced, id_eq, wal]
      exact ⟨rfl, rfl⟩
    refine (rollBackAll_healthy healthy _ journal).mono ?_
    rintro outcome rolled log ⟨rfl, rolledData, flushed, pending, journal⟩
    refine (checkpoint_healthy healthy journal).mono ?_
    rintro outcome final log ⟨rfl, finalData⟩
    refine ⟨rfl, fun pageId => ?_⟩
    rw [finalData, rolledData, isSynced]
    have single := lookup_perm (List.reverse_perm (replay entries).pagesToApply)
      (by rw [List.map_reverse, List.nodup_reverse]; exact nodup_pagesToApply entries) pageId
    rw [← single]
    exact data pageId

end Recovery

/-! ## All or nothing -/

/-- The transactions in the log are the last of those that were committed; only the first of
them may have lost writes to a checkpoint in the middle of it. -/
def suffixLink : Link where
  holds lost since committed :=
    allWrites since <:+ allWrites committed ∧ (lost = [] ∨ since = [])
  commit := by
    rintro lost logged txId since committed ⟨⟨earlier, suffix⟩, whole⟩
    refine ⟨?_, .inl rfl⟩
    rw [allWrites_append, allWrites_append, allWrites_singleton, allWrites_singleton]
    rcases whole with rfl | rfl
    · exact ⟨earlier, by rw [← List.append_assoc, suffix, List.nil_append]⟩
    · exact ⟨allWrites committed ++ lost, by simp⟩
  drop := fun ⟨suffix, _⟩ => ⟨suffix, .inl rfl⟩
  redo := by
    rintro lost since committed ⟨⟨earlier, suffix⟩, -⟩ pageId image found
    rw [← suffix, lastUpdate_append, found, Option.some_or]

theorem suffixLink_resets : suffixLink.Resets :=
  fun _ _ => ⟨List.nil_suffix, .inr rfl⟩

/-- Reopening the files that a process left gives a data file. -/
def RecoversTo (restart : Environment) (left : FileBackend) (dataFile : U64 → Option Bytes) :
    Prop :=
  (FileBackend.recover restart (load left.dataFile left.wal.file)).outcome = .ok () ∧
    (FileBackend.recover restart (load left.dataFile left.wal.file)).state.dataFile = dataFile

/-- After a run of calls on a backend with an empty log, recovery leaves the data file with
all page writes of the transactions whose commit has returned, of no transaction that was not
committed, and of all or nothing of the one that was cut short. -/
def CrashAtomic (environment restart : Environment) (base : U64 → Option Bytes)
    (calls : List Call) : Prop :=
  ∃ committed, Possible Ledger.start (runCalls environment calls (load base [])).1 committed ∧
    RecoversTo restart (runCalls environment calls (load base [])).2 (contents base committed)

/-- The files only fail by stopping, between two writes. -/
structure Environment.StopsBetweenWrites (environment : Environment) : Prop where
  log : environment.log.Steady
  data : ∀ request, environment.data request ≠ .fail
  untorn : ∀ request, environment.log.torn request = 0

theorem session_load (base : U64 → Option Bytes) :
    Session suffixLink base [] 1 ⟨[], [], [], []⟩ Ledger.start (load base []) where
  journal := ⟨rfl, rfl⟩
  kept := ⟨Commits.nil, by simp, by simp, by simp⟩
  harmless := by simp
  positive := le_rfl
  linked := ⟨List.suffix_rfl, .inl rfl⟩
  data := rfl
  valid := by simp [Ledger.start]
  nextTx := rfl
  started := by decide
  used := by simp
  idle := fun _ => ⟨rfl, rfl, rfl⟩
  active := by simp [Ledger.start]

/-- What remains of a settled run is recovered. -/
theorem Remains.recovers {base : U64 → Option Bytes} {device : LogDevice}
    {possible : List Transaction → Prop} {events : List Event} {final : FileBackend}
    (remains : Remains suffixLink base [] 1 device possible events final)
    (untorn : ∀ request, device.torn request = 0) (settled : Settled events)
    {restart : Environment} (healthy : restart.Healthy) :
    ∃ committed, possible committed ∧ RecoversTo restart final (contents base committed) := by
  cases remains with
  | @kept lost since committed whole torn next isPossible linked file tornOff kept redone valid =>
      have noTorn : torn = [] := by
        rcases tornOff with none | ⟨⟨request, positive⟩, -⟩
        · exact none
        · rw [untorn request] at positive
          cases positive
      rw [noTorn, List.append_nil, List.nil_append] at file
      have first : (0 : U64) < 1 := by decide
      have relevant : relevantEntries ([] ++ whole) = [] ++ whole :=
        relevantEntries_append first (fun entry member => (kept.plain entry member).1) (by simp)
          (fun entry member => (kept.numbered entry member).1)
      rw [List.nil_append] at relevant
      have pages := lookup_replay relevant kept.commits
      have validPages : ∀ page ∈ (replay whole).pagesToApply, (pageOffset page.1).isSome := by
        intro page member
        have found := (lookup_eq_some_iff (nodup_pagesToApply whole)).mpr member
        rw [pages] at found
        exact valid _ (mem_of_lastUpdate (suffixLink.redo linked found))
      obtain ⟨result, isPossible, same⟩ := redone settled
      refine ⟨result, isPossible, ?_⟩
      rw [RecoversTo, file]
      obtain ⟨recovered, contents⟩ := recover_healthy healthy final.dataFile kept.logged
        (fun entry member => (kept.plain entry member).2) validPages
      refine ⟨recovered, funext fun pageId => ?_⟩
      rw [contents, pages, same]
  | @checkpointed since committed whole lsn isPossible observed file kept data =>
      rw [List.nil_append] at file
      have logged : ∀ entry ∈ whole ++ [.checkpoint lsn], entry.Logged := by
        intro entry member
        rcases List.mem_append.mp member with earlier | last
        · exact kept.logged entry earlier
        · rw [List.mem_singleton.mp last]
          exact .checkpoint lsn
      have plain : ∀ entry ∈ whole ++ [.checkpoint lsn], entry.entryType ≠ .extentWrite := by
        intro entry member
        rcases List.mem_append.mp member with earlier | last
        · exact (kept.plain entry earlier).2
        · rw [List.mem_singleton.mp last]
          simp [WalEntry.checkpoint]
      have pages := lookup_replay_none
        (relevantEntries_checkpointed fun entry member => (kept.numbered entry member).2)
      have validPages : ∀ page ∈ (replay (whole ++ [.checkpoint lsn])).pagesToApply,
          (pageOffset page.1).isSome := by
        intro page member
        have found := (lookup_eq_some_iff (nodup_pagesToApply _)).mpr member
        rw [pages] at found
        cases found
      refine ⟨committed, isPossible, ?_⟩
      rw [RecoversTo, file]
      obtain ⟨recovered, contents⟩ :=
        recover_healthy healthy final.dataFile logged plain validPages
      refine ⟨recovered, funext fun pageId => ?_⟩
      rw [contents, pages, data, Option.none_or]

/-- Every settled run is crash-atomic. -/
theorem crashAtomic_of_settled {environment restart : Environment}
    (stops : environment.StopsBetweenWrites) (healthy : restart.Healthy)
    (base : U64 → Option Bytes) {calls : List Call} (room : 2 * calls.length + 1 < 2 ^ 64)
    (settled : ∀ reply ∈ (runCalls environment calls (load base [])).1, Settled reply.events) :
    CrashAtomic environment restart base calls := by
  have around : Surroundings environment [] := ⟨stops.log, stops.data, by simp⟩
  have lsn : (load base []).wal.currentLsn.val = 1 := rfl
  have txId : Ledger.start.nextTx.val = 1 := rfl
  obtain ⟨events, origin, remains⟩ := runCalls_remains (session_load base) around calls
    (by rw [lsn]; omega) (by rw [txId]; omega) (.inl ⟨suffixLink_resets, rfl⟩)
  refine remains.recovers stops.untorn ?_ healthy
  rcases origin with rfl | ⟨reply, member, rfl⟩
  · exact settled_of_unwritten fun _ => List.not_mem_nil
  · exact settled reply member

/-! ## A commit of two pages that is cut short -/

/-- The log answers every request, the data file stops at one. -/
def stopAt (request : Nat) : Environment where
  log := ⟨fun _ => .ok, fun _ => 0⟩
  data := fun asked => if asked < request then .ok else .crash
  drain := fun _ pages => pages
  drain_perm := fun _ _ => List.Perm.refl _

/-- Every file answers every request. -/
def allAnswered : Environment := { stopAt 0 with data := fun _ => .ok }

theorem stopAt_stopsBetweenWrites (request : Nat) : (stopAt request).StopsBetweenWrites where
  log := fun _ => Io.noConfusion
  data := fun asked => by
    simp only [stopAt]
    split <;> exact Io.noConfusion
  untorn := fun _ => rfl

theorem allAnswered_healthy : allAnswered.Healthy := ⟨fun _ => rfl, fun _ => rfl⟩

/-- A leaf page without data. -/
def emptyPage (id : U64) : Page := { pageType := .bTreeLeaf, flags := 0, data := [], id := id }

/-- A transaction that writes two pages. -/
def twoPages : List Call :=
  [.beginTransaction, .writePage (emptyPage 1), .writePage (emptyPage 2), .commitTransaction]

/-- The records of the two writes. -/
def twoWrites : List WalEntry :=
  [.pageWrite 1 1 1 (imageOf (emptyPage 1)), .pageWrite 2 1 2 (imageOf (emptyPage 2))]

theorem encode_emptyPage (id : U64) :
    (emptyPage id).encode defaultPageSize = .ok (imageOf (emptyPage id)) := by
  have fits : ¬ pageHeaderSize + (emptyPage id).data.length > defaultPageSize := by
    simp [emptyPage, pageHeaderSize, defaultPageSize]
  obtain ⟨bytes, encoded⟩ : ∃ bytes, (emptyPage id).encode defaultPageSize = .ok bytes := by
    simp only [Page.encode, if_neg fits]
    exact ⟨_, rfl⟩
  rw [imageOf_eq encoded, encoded]

/-- A page write with nothing in the writer goes straight to the file. -/
theorem logPageWrite_direct {device : LogDevice} {wal : WalManager} (txId pageId : U64)
    {data : Bytes} (answered : device.answer wal.requests = .ok) (empty : wal.buffered = [])
    (size : data.length = defaultPageSize) :
    WalManager.logPageWrite device txId pageId data wal =
      ⟨.ok wal.currentLsn,
        { wal with
          requests := wal.requests + 1
          currentLsn := wal.currentLsn + 1
          file := wal.file ++ (WalEntry.pageWrite wal.currentLsn txId pageId data).image
          filePosition := wal.filePosition +
            (WalEntry.pageWrite wal.currentLsn txId pageId data).image.length }, []⟩ := by
  have length : (WalEntry.pageWrite wal.currentLsn txId pageId data).image.length = 65573 := by
    rw [WalEntry.image_length]
    simp [WalEntry.payloadSize, WalEntry.pageWrite, size, defaultPageSize, walHeaderSize]
  have logged : (WalEntry.pageWrite wal.currentLsn txId pageId data).Logged :=
    .pageWrite _ _ _ _ (by rw [size]; decide)
  simp [WalManager.logPageWrite, WalManager.nextLsn, WalManager.appendEntry, WalManager.writeAll,
    WalManager.makeRoom, WalManager.flushBuf, WalManager.writeOut, bind, Exec.bind, Exec.get,
    Exec.modify, Exec.lift, pure, WalEntry.encode_logged logged, empty, length, bufferCapacity,
    answered]

/-- The backend after a page of the active transaction was written with nothing in the
writer. -/
def afterWrite (backend : FileBackend) (page : Page) : FileBackend :=
  { backend with
    dirtyPages := upsert backend.dirtyPages page.id page
    wal := { backend.wal with
      requests := backend.wal.requests + 1
      currentLsn := backend.wal.currentLsn + 1
      file := backend.wal.file ++
        (WalEntry.pageWrite backend.wal.currentLsn backend.currentTxId page.id (imageOf page)).image
      filePosition := backend.wal.filePosition +
        (WalEntry.pageWrite backend.wal.currentLsn backend.currentTxId page.id
          (imageOf page)).image.length } }

theorem perform_write_direct {environment : Environment} {backend : FileBackend} {page : Page}
    (answered : environment.log.answer backend.wal.requests = .ok)
    (empty : backend.wal.buffered = []) (busy : backend.currentTxId ≠ 0)
    (encoded : page.encode defaultPageSize = .ok (imageOf page)) :
    (Call.writePage page).perform environment backend = ⟨.ok (), afterWrite backend page, []⟩ := by
  have direct := logPageWrite_direct backend.currentTxId page.id answered empty
    (Page.encode_length encoded)
  simp [Call.perform, writePage, transactionForWrite, logAndKeep, onLog, Exec.zoom, Exec.lift,
    direct, bind, Exec.bind, Exec.get, Exec.modify, pure, encoded, busy, afterWrite]

/-- The backend when a transaction has begun. -/
def begun : FileBackend := { load (fun _ => none) [] with currentTxId := 1, nextTxId := 2 }

/-- The backend when the two pages have been written and not committed. -/
def prepared : FileBackend := afterWrite (afterWrite begun (emptyPage 1)) (emptyPage 2)

theorem runCalls_twoPages (request : Nat) {events : List Event} {final : FileBackend}
    (commit : commitTransaction (stopAt request) prepared = ⟨.halt .crash, final, events⟩) :
    runCalls (stopAt request) twoPages (load (fun _ => none) []) =
      ([⟨.beginTransaction, .ok (), []⟩, ⟨.writePage (emptyPage 1), .ok (), []⟩,
        ⟨.writePage (emptyPage 2), .ok (), []⟩, ⟨.commitTransaction, .halt .crash, events⟩],
        final) := by
  have start : Call.beginTransaction.perform (stopAt request) (load (fun _ => none) []) =
      ⟨.ok (), begun, []⟩ := rfl
  have first : (Call.writePage (emptyPage 1)).perform (stopAt request) begun =
      ⟨.ok (), afterWrite begun (emptyPage 1), []⟩ :=
    perform_write_direct rfl rfl (by decide) (encode_emptyPage 1)
  have second : (Call.writePage (emptyPage 2)).perform (stopAt request)
      (afterWrite begun (emptyPage 1)) = ⟨.ok (), prepared, []⟩ :=
    perform_write_direct rfl rfl (by decide) (encode_emptyPage 2)
  have last : Call.commitTransaction.perform (stopAt request) prepared =
      ⟨.halt .crash, final, events⟩ := commit
  have going : ∀ cause, (Outcome.ok () : Outcome StorageError Unit) ≠ .halt cause :=
    fun _ => by simp
  rw [twoPages, runCalls_next start going, runCalls_next first going,
    runCalls_next second going, runCalls_halt last]

theorem prepared_dirtyPages : prepared.dirtyPages = [(1, emptyPage 1), (2, emptyPage 2)] := rfl

theorem afterWrite_file (backend : FileBackend) (page : Page) :
    (afterWrite backend page).wal.file = backend.wal.file ++ logBytes
      [.pageWrite backend.wal.currentLsn backend.currentTxId page.id (imageOf page)] := by
  rw [logBytes_singleton]
  rfl

theorem prepared_file : prepared.wal.file = logBytes twoWrites := by
  have empty : begun.wal.file = [] := rfl
  have first : begun.wal.currentLsn = 1 ∧ begun.currentTxId = 1 := ⟨rfl, rfl⟩
  have second : (afterWrite begun (emptyPage 1)).wal.currentLsn = 2 ∧
      (afterWrite begun (emptyPage 1)).currentTxId = 1 := ⟨rfl, rfl⟩
  have ids : (emptyPage 1).id = 1 ∧ (emptyPage 2).id = 2 := ⟨rfl, rfl⟩
  rw [prepared, afterWrite_file, afterWrite_file, empty, first.1, first.2, second.1, second.2,
    ids.1, ids.2, List.nil_append, ← logBytes_append]
  rfl

theorem commit_stopAt_zero :
    commitTransaction (stopAt 0) prepared =
      ⟨.halt .crash, { prepared with dirtyPages := [], requests := 1 }, []⟩ := by
  have offset : pageOffset 1 = some 0 := by decide
  have busy : prepared.currentTxId ≠ 0 := by decide
  have fresh : prepared.requests = 0 := rfl
  simp [commitTransaction, busy, fresh, prepared_dirtyPages, stopAt, writeDirtyPages, writeImage,
    encode_emptyPage, offset, Exec.expect, request, Exec.answer, Exec.lift, Exec.stop, bind,
    Exec.bind, Exec.get, Exec.modify, pure]

theorem commit_stopAt_one :
    commitTransaction (stopAt 1) prepared =
      ⟨.halt .crash,
        { prepared with
          dirtyPages := []
          requests := 2
          dataFile := Function.update (fun _ => none) 1 (some (imageOf (emptyPage 1))) },
        [.pageWritten 2]⟩ := by
  have offset : pageOffset 1 = some 0 := by decide
  have offset' : pageOffset 2 = some 65536 := by decide
  have busy : prepared.currentTxId ≠ 0 := by decide
  have fresh : prepared.requests = 0 := rfl
  have data : prepared.dataFile = fun _ => none := rfl
  simp [commitTransaction, busy, fresh, data, prepared_dirtyPages, stopAt, writeDirtyPages,
    writeImage, encode_emptyPage, offset, offset', Exec.expect, request, Exec.answer, Exec.lift,
    Exec.stop, Exec.note, bind, Exec.bind, Exec.get, Exec.modify, pure]

/-- A crash before the first page of the commit is recovered from. -/
theorem crashAtomic_stopAt_zero :
    CrashAtomic (stopAt 0) allAnswered (fun _ => none) twoPages := by
  refine crashAtomic_of_settled (stopAt_stopsBetweenWrites 0) allAnswered_healthy _ (by decide) ?_
  rw [runCalls_twoPages 0 commit_stopAt_zero]
  intro reply member
  have quiet : reply.events = [] := by
    simp only [List.mem_cons, List.not_mem_nil, or_false] at member
    rcases member with rfl | rfl | rfl | rfl <;> rfl
  rw [quiet]
  exact settled_of_unwritten fun _ => List.not_mem_nil

/-- The commit that was cut short is the only open question. -/
theorem possible_twoPages {committed : List Transaction} {events : List Event}
    (possible : Possible Ledger.start
      [⟨.beginTransaction, .ok (), []⟩, ⟨.writePage (emptyPage 1), .ok (), []⟩,
        ⟨.writePage (emptyPage 2), .ok (), []⟩, ⟨.commitTransaction, .halt .crash, events⟩]
      committed) :
    committed = [] ∨
      committed = [(1, [(1, imageOf (emptyPage 1)), (2, imageOf (emptyPage 2))])] := by
  rcases possible with rfl | ⟨front, last, cause, split, -, rfl⟩
  · exact .inl rfl
  · refine .inr ?_
    obtain ⟨sameFront, sameLast⟩ := List.append_inj' (show [_, _, _] ++ [_] = front ++ [last]
      from split) rfl
    obtain rfl := List.singleton_injective sameLast
    rw [← sameFront]
    rfl

/-- A crash between the two pages of the commit leaves one of them for good. -/
theorem not_crashAtomic_stopAt_one :
    ¬ CrashAtomic (stopAt 1) allAnswered (fun _ => none) twoPages := by
  rintro ⟨committed, possible, -, data⟩
  rw [runCalls_twoPages 1 commit_stopAt_one] at possible data
  dsimp only at data
  rw [prepared_file] at data
  have commits : Commits twoWrites [] :=
    ⟨List.Pairwise.nil, by simp [CommittedIn, twoWrites, WalEntry.pageWrite], by simp⟩
  have relevant : relevantEntries ([] ++ twoWrites) = [] ++ twoWrites :=
    relevantEntries_append (by decide : (0 : U64) < 1) (by simp [twoWrites, WalEntry.pageWrite])
      (by simp) (by simp [twoWrites, WalEntry.pageWrite])
  have pages : ∀ pageId, (replay twoWrites).pagesToApply.lookup pageId = none :=
    lookup_replay relevant commits
  have logged : ∀ entry ∈ twoWrites, entry.Logged := by
    have size : ∀ id, (imageOf (emptyPage id)).length = defaultPageSize := fun id =>
      Page.encode_length (encode_emptyPage id)
    intro entry member
    simp only [twoWrites, List.mem_cons, List.not_mem_nil, or_false] at member
    rcases member with rfl | rfl <;> exact .pageWrite _ _ _ _ (by rw [size]; decide)
  have valid : ∀ page ∈ (replay twoWrites).pagesToApply, (pageOffset page.1).isSome := by
    intro page member
    have found := (lookup_eq_some_iff (nodup_pagesToApply _)).mpr member
    rw [pages] at found
    cases found
  obtain ⟨-, recovered⟩ := recover_healthy allAnswered_healthy
    (Function.update (fun _ => none) 1 (some (imageOf (emptyPage 1)))) logged
    (by simp [twoWrites, WalEntry.pageWrite]) valid
  have left : ∀ pageId, contents (fun _ => none) committed pageId =
      Function.update (fun _ => none) 1 (some (imageOf (emptyPage 1))) pageId := by
    intro pageId
    have same := recovered pageId
    rw [pages, Option.none_or] at same
    rw [← same, ← data]
  rcases possible_twoPages possible with rfl | rfl
  · have first := left 1
    simp [contents] at first
  · have second := left 2
    simp [contents, allWrites, lastUpdate] at second

end JouleDB.File
