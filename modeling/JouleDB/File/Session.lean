import JouleDB.File.Ledger

/-!
# What the parts of a call do to a session

Each step of the calls, from beginning a transaction to emptying the log, keeps the session
for the ledger it leads to, or stops and leaves what recovery needs.
-/

namespace JouleDB.File

open Storage Wal FileBackend

section Session

variable {link : Link} {base : U64 → Option Bytes} {old : List WalEntry} {first : U64}
variable {progress : Progress} {ledger : Ledger} {backend : FileBackend}
variable {environment : Environment}

/-! ## Transactions -/

theorem beginTransaction_ends (session : Session link base old first progress ledger backend)
    (room : ledger.nextTx.val + 1 < 2 ^ 64) :
    Exec.Ends beginTransaction (fun outcome final events => events = [] ∧
      final.wal = backend.wal ∧ final.nextTxId = ledger.nextTx + 1 ∧
      match outcome with
      | .ok txId => ledger.active = none ∧ txId = ledger.nextTx ∧
          Session link base old first progress ledger.opened final
      | .err _ => ledger.active.isSome ∧
          Session link base old first progress { ledger with nextTx := ledger.nextTx + 1 } final
      | .halt _ => False) backend := by
  have later : ledger.nextTx < ledger.nextTx + 1 := u64_lt_succ room
  have started : ledger.nextTx + 1 ≠ 0 := (lt_of_le_of_lt (Fin.zero_le _) later).ne'
  have used : ∀ entry ∈ progress.flushed ++ progress.pending, entry.txId < ledger.nextTx + 1 :=
    fun entry member => (session.used entry member).trans later
  simp only [beginTransaction, Exec.ends_bind, Exec.ends_get, Exec.ends_modify]
  split
  next idle =>
    have none : ledger.active = none := by
      cases found : ledger.active with
      | none => rfl
      | some transaction =>
          obtain ⟨-, active⟩ := session.active transaction found
          exact absurd (active.current.symm.trans idle) active.nonzero
    obtain ⟨-, dirtyPages, lost⟩ := session.idle none
    simp only [Exec.ends_bind, Exec.ends_modify, Exec.ends_pure]
    refine ⟨rfl, trivial, by rw [session.nextTx], none, session.nextTx, ?_⟩
    refine { session with
      nextTx := congrArg (· + 1) session.nextTx
      started := started
      used := used
      idle := fun absent => absurd absent (by simp [Ledger.opened])
      active := ?_ }
    intro transaction found
    obtain rfl : (ledger.nextTx, []) = transaction := by simpa [Ledger.opened] using found
    refine ⟨later, session.nextTx, session.started, session.since_lt, ?_, ?_⟩
    · rw [lost, writesOf_eq_nil fun entry member => (session.used entry member).ne]
      rfl
    · rw [dirtyPages]
      exact ⟨List.nodup_nil, fun _ => rfl, fun entry member => absurd member List.not_mem_nil⟩
  next busy =>
    have found : ledger.active.isSome := by
      by_contra none
      exact busy (session.idle (by simpa using none)).1
    rw [Exec.ends_fail]
    refine ⟨rfl, rfl, by rw [session.nextTx], found, ?_⟩
    refine { session with
      nextTx := congrArg (· + 1) session.nextTx
      started := started
      used := used
      active := fun transaction found => ?_ }
    obtain ⟨fresh, active⟩ := session.active transaction found
    exact ⟨fresh.trans later, active.current, active.nonzero, active.last, active.writes, active.dirty⟩

theorem imageOf_eq {page : Page} {bytes : Bytes}
    (encoded : page.encode defaultPageSize = .ok bytes) : imageOf page = bytes := by
  rw [imageOf, encoded]

/-- Writing a page extends the transaction in memory. -/
theorem Reflects.upsert {dirtyPages : List (U64 × Page)} {writes : List (U64 × Bytes)}
    (reflects : Reflects dirtyPages writes) {page : Page} {bytes : Bytes}
    (encoded : page.encode defaultPageSize = .ok bytes) :
    Reflects (upsert dirtyPages page.id page) (writes ++ [(page.id, imageOf page)]) where
  nodup := nodup_upsert reflects.nodup _ _
  images := by
    intro pageId
    have single : lastUpdate [(page.id, imageOf page)] pageId =
        if pageId = page.id then some (imageOf page) else none := by
      simp [lastUpdate, lookup_cons_ite]
    rw [lookup_upsert, lastUpdate_append, single, ← reflects.images]
    by_cases same : pageId = page.id <;> simp [same]
  encodes := by
    rintro ⟨pageId, other⟩ member
    have found := (lookup_eq_some_iff (nodup_upsert reflects.nodup _ _)).mpr member
    rw [lookup_upsert] at found
    split at found
    next =>
      injection found with same
      rw [← same, imageOf_eq encoded, encoded]
    next =>
      exact reflects.encodes _ ((lookup_eq_some_iff reflects.nodup).mp found)

/-- A page write of the active transaction is harmless. -/
theorem Session.harmless_write (session : Session link base old first progress ledger backend)
    {transaction : Transaction} (found : ledger.active = some transaction)
    (room : backend.wal.currentLsn.val + 1 < 2 ^ 64) (pageId : U64) {data : Bytes}
    (size : data.length = defaultPageSize) :
    Harmless progress.since first (backend.wal.currentLsn + 1)
      (.pageWrite backend.wal.currentLsn transaction.1 pageId data) where
  quiet := ⟨by simp [WalEntry.pageWrite], fun member =>
    lt_irrefl _ ((session.active transaction found).2.last _ member)⟩
  numbered := ⟨session.positive, u64_lt_succ room⟩
  plain := ⟨by simp [WalEntry.pageWrite], by simp [WalEntry.pageWrite]⟩
  logged := .pageWrite _ _ _ _ (by rw [size]; decide)

theorem logAndKeep_ends (session : Session link base old first progress ledger backend)
    (oldLogged : ∀ entry ∈ old, entry.Logged) (steady : environment.log.Steady)
    {transaction : Transaction} (found : ledger.active = some transaction) {page : Page}
    {bytes : Bytes} (encoded : page.encode defaultPageSize = .ok bytes)
    (room : backend.wal.currentLsn.val + 1 < 2 ^ 64) :
    Exec.Ends (logAndKeep environment transaction.1 page bytes) (fun outcome final events =>
      events = [] ∧
      match outcome with
      | .ok _ => final.wal.currentLsn = backend.wal.currentLsn + 1 ∧
          ∃ progress', Session link base old first progress' (ledger.extend page) final
      | .err _ => False
      | .halt _ =>
          Remains link base old first environment.log (· = ledger.committed) events final)
      backend := by
  obtain ⟨fresh, active⟩ := session.active transaction found
  have harmless := session.harmless_write found room page.id (Page.encode_length encoded)
  have later : backend.wal.currentLsn ≤ backend.wal.currentLsn + 1 := (u64_lt_succ room).le
  have fits : 16 + bytes.length ≤ maxWalPayload := by
    rw [Page.encode_length encoded]
    decide
  rw [logAndKeep, Exec.ends_bind, onLog, Exec.ends_zoom]
  refine (logPageWrite_ends steady transaction.1 page.id fits session.journal).mono ?_
  intro outcome middle log ended
  cases ended with
  | crash stopped left =>
      refine ⟨rfl, ?_⟩
      dsimp only
      apply session.remains_append oldLogged harmless later
      · exact left
      · rfl
  | done holds =>
      obtain ⟨rfl, holds⟩ := holds
      obtain ⟨flushed, pending, journal, whole, kept, safe⟩ :=
        session.records_append harmless later holds
      dsimp only
      rw [Exec.ends_modify]
      refine ⟨rfl, holds.1, { progress with flushed := flushed, pending := pending }, ?_⟩
      refine
        { journal := journal, kept := holds.1 ▸ kept, harmless := holds.1 ▸ safe,
          positive := holds.1 ▸ session.positive.trans later, linked := session.linked,
          data := session.data, valid := session.valid, nextTx := session.nextTx,
          started := session.started, used := ?_, idle := ?_, active := ?_ }
      · intro entry member
        rw [whole] at member
        rcases List.mem_append.mp member with earlier | new
        · exact session.used entry earlier
        · rw [List.mem_singleton.mp new]
          exact fresh
      · exact fun none => absurd none (by simp [Ledger.extend, found])
      · intro extended same
        obtain rfl : (transaction.1, transaction.2 ++ [(page.id, imageOf page)]) = extended := by
          simpa [Ledger.extend, found] using same
        refine ⟨fresh, active.current, active.nonzero, active.last, ?_, ?_⟩
        · simp only [whole, writesOf_append, writesOf_pageWrite, if_true, ← List.append_assoc,
            imageOf_eq encoded]
          rw [List.append_assoc progress.lost, ← writesOf_append, ← active.writes]
        · exact active.dirty.upsert encoded

theorem Remains.mono {device : LogDevice} {possible possible' : List Transaction → Prop}
    {events : List Event} {final : FileBackend}
    (remains : Remains link base old first device possible events final)
    (weaker : ∀ committed, possible committed → possible' committed) :
    Remains link base old first device possible' events final := by
  cases remains with
  | kept isPossible linked file tornOff kept redone valid =>
      refine .kept (weaker _ isPossible) linked file tornOff kept (fun settled => ?_) valid
      obtain ⟨result, isPossible, same⟩ := redone settled
      exact ⟨result, weaker _ isPossible, same⟩
  | checkpointed isPossible observed file kept data =>
      exact .checkpointed (weaker _ isPossible) observed file kept data

/-- What happened before in the same call does not matter to a settled end. -/
theorem Remains.more {device : LogDevice} {possible : List Transaction → Prop}
    {events events' : List Event} {final : FileBackend}
    (remains : Remains link base old first device possible events final)
    (settled : Settled events) (more : events ⊆ events') :
    Remains link base old first device possible events' final := by
  cases remains with
  | kept isPossible linked file tornOff kept redone valid =>
      exact .kept isPossible linked file tornOff kept (fun _ => redone settled) valid
  | checkpointed isPossible observed file kept data =>
      exact .checkpointed isPossible (more observed) file kept data

/-- Writing the pages of a commit to the data file. -/
theorem writeDirtyPages_ends (steady : ∀ request, environment.data request ≠ .fail) (count : Nat)
    (pages : List (U64 × Page))
    (encodes : ∀ entry ∈ pages, entry.2.encode defaultPageSize = .ok (imageOf entry.2))
    (backend : FileBackend) :
    Exec.Ends (writeDirtyPages environment count pages) (fun outcome final events =>
      (∃ dataFile requests,
        final = { backend with dataFile := dataFile, requests := requests }) ∧
      match outcome with
      | .ok _ => events = List.replicate pages.length (.pageWritten count) ∧
          (∀ pageId, final.dataFile pageId =
            (lastUpdate (pages.map fun entry => (entry.1, imageOf entry.2)) pageId).or
              (backend.dataFile pageId)) ∧
          ∀ entry ∈ pages, (pageOffset entry.1).isSome
      | .err _ => False
      | .halt _ => ∃ written < pages.length,
          events = List.replicate written (.pageWritten count) ∧
            (written = 0 → final.dataFile = backend.dataFile)) backend := by
  induction pages generalizing backend with
  | nil => exact ⟨⟨_, _, rfl⟩, rfl, fun pageId => rfl, fun entry member => absurd member List.not_mem_nil⟩
  | cons head rest ih =>
      obtain ⟨pageId, page⟩ := head
      have encoded := encodes (pageId, page) List.mem_cons_self
      have positive : 0 < ((pageId, page) :: rest).length := Nat.succ_pos _
      rw [writeDirtyPages, Exec.ends_bind, Exec.ends_lift, encoded]
      dsimp only
      rw [Exec.ends_bind, writeImage, Exec.ends_bind]
      cases offset : pageOffset pageId with
      | none => exact ⟨⟨_, _, rfl⟩, 0, positive, rfl, fun _ => rfl⟩
      | some place =>
          simp only [Exec.expect, Exec.ends_pure, request, Exec.ends_bind, Exec.ends_get,
            Exec.ends_modify]
          cases answer : environment.data backend.requests with
          | fail => exact absurd answer (steady _)
          | crash => exact ⟨⟨_, _, rfl⟩, 0, positive, rfl, fun _ => rfl⟩
          | ok =>
              simp only [Exec.answer, Exec.ends_modify, Exec.ends_note]
              refine (ih (fun entry member => encodes entry (List.mem_cons_of_mem _ member)) _).mono ?_
              rintro outcome final log ⟨⟨dataFile, requests, rfl⟩, ended⟩
              refine ⟨⟨_, _, rfl⟩, ?_⟩
              cases outcome with
              | ok value =>
                  obtain ⟨rfl, data, valid⟩ := ended
                  refine ⟨rfl, fun other => ?_, ?_⟩
                  · rw [data, List.map_cons, lastUpdate_cons, Option.or_assoc]
                    by_cases same : other = pageId <;> simp [same]
                  · exact List.forall_mem_cons.mpr ⟨by rw [offset]; rfl, valid⟩
              | err error => exact ended
              | halt cause =>
                  obtain ⟨written, fewer, rfl, -⟩ := ended
                  exact ⟨written + 1, Nat.succ_lt_succ fewer, rfl, fun zero => absurd zero (Nat.succ_ne_zero _)⟩

/-- The drained pages are the last writes of the transaction, in any order. -/
theorem Reflects.drained {dirtyPages pages : List (U64 × Page)} {writes : List (U64 × Bytes)}
    (reflects : Reflects dirtyPages writes) (perm : pages.Perm dirtyPages) (pageId : U64) :
    lastUpdate (pages.map fun entry => (entry.1, imageOf entry.2)) pageId =
      lastUpdate writes pageId := by
  have keys : ((pages.map fun entry => (entry.1, imageOf entry.2)).reverse.map Prod.fst).Nodup := by
    rw [List.map_reverse, List.nodup_reverse, List.map_map]
    exact (perm.map Prod.fst).nodup_iff.mpr reflects.nodup
  have same : (pages.map fun entry => (entry.1, imageOf entry.2)).reverse.Perm
      (dirtyPages.map fun entry => (entry.1, imageOf entry.2)) :=
    (List.reverse_perm _).trans (perm.map _)
  rw [lastUpdate, lookup_perm same keys, lookup_map_snd, reflects.images]

theorem Reflects.mem_of_write {dirtyPages : List (U64 × Page)} {writes : List (U64 × Bytes)}
    (reflects : Reflects dirtyPages writes) {write : U64 × Bytes} (member : write ∈ writes) :
    ∃ page, (write.1, page) ∈ dirtyPages := by
  obtain ⟨last, found⟩ := exists_lastUpdate member
  rw [← reflects.images, Option.map_eq_some_iff] at found
  obtain ⟨page, found, -⟩ := found
  exact ⟨page, (lookup_eq_some_iff reflects.nodup).mp found⟩

/-- The records after the commit record of the active transaction. -/
theorem Session.kept_commit (session : Session link base old first progress ledger backend)
    {transaction : Transaction} (found : ledger.active = some transaction)
    (room : backend.wal.currentLsn.val + 1 < 2 ^ 64) :
    Kept (progress.since ++ [(transaction.1,
        writesOf (progress.flushed ++ progress.pending) transaction.1)]) first
      (backend.wal.currentLsn + 1)
      (progress.flushed ++ progress.pending ++
        [.commit backend.wal.currentLsn transaction.1]) := by
  have later := u64_lt_succ room
  have kept := (session.kept.extend session.harmless).later later.le
  obtain ⟨-, active⟩ := session.active transaction found
  refine ⟨kept.commits.commit _ active.last, ?_, ?_, ?_⟩
  all_goals
    intro entry member
    rcases List.mem_append.mp member with earlier | new
  · exact kept.numbered entry earlier
  · rw [List.mem_singleton.mp new]
    exact ⟨session.positive, later⟩
  · exact kept.plain entry earlier
  · rw [List.mem_singleton.mp new]
    simp [WalEntry.commit]
  · exact kept.logged entry earlier
  · rw [List.mem_singleton.mp new]
    exact .commit _ _

theorem contents_append (base : U64 → Option Bytes) (committed : List Transaction)
    (transaction : Transaction) (pageId : U64) :
    contents base (committed ++ [transaction]) pageId =
      (lastUpdate transaction.2 pageId).or (contents base committed pageId) := by
  rw [contents, allWrites_append, lastUpdate_append, allWrites_singleton, Option.or_assoc]
  rfl

theorem Ledger.settle_active {ledger : Ledger} {transaction : Transaction}
    (found : ledger.active = some transaction) :
    ledger.settle =
      { ledger with committed := ledger.committed ++ [transaction], active := none } := by
  rw [Ledger.settle, found]

/-- A transaction with one page in memory writes no other page. -/
theorem Reflects.single {dirtyPages : List (U64 × Page)} {writes : List (U64 × Bytes)}
    (reflects : Reflects dirtyPages writes) (few : dirtyPages.length ≤ 1) :
    ∃ pageId, ∀ other, other ≠ pageId → lastUpdate writes other = none := by
  match dirtyPages, reflects, few with
  | [], reflects, _ => exact ⟨0, fun other _ => by rw [← reflects.images]; rfl⟩
  | [(pageId, page)], reflects, _ =>
      refine ⟨pageId, fun other distinct => ?_⟩
      rw [← reflects.images, lookup_cons_ite, if_neg distinct]
      rfl

/-- A single page that reached the data file without its commit record is either redone away
or is the whole transaction. -/
theorem Session.redone_single (session : Session link base old first progress ledger backend)
    {transaction : Transaction} {page : U64}
    (single : ∀ other, other ≠ page → lastUpdate transaction.2 other = none) :
    ∃ result, (result = ledger.committed ∨ result = ledger.committed ++ [transaction]) ∧
      ∀ pageId, (lastUpdate (allWrites progress.since) pageId).or
        (contents base (ledger.committed ++ [transaction]) pageId) =
          contents base result pageId := by
  have elsewhere : ∀ other, other ≠ page →
      contents base (ledger.committed ++ [transaction]) other =
        contents base ledger.committed other := by
    intro other distinct
    rw [contents_append, single other distinct, Option.none_or]
  have redo := link.redo_contents session.linked base
  cases found : lastUpdate (allWrites progress.since) page with
  | none =>
      refine ⟨_, .inr rfl, fun pageId => ?_⟩
      by_cases same : pageId = page
      · rw [same, found, Option.none_or]
      · rw [elsewhere pageId same, redo]
  | some image =>
      refine ⟨_, .inl rfl, fun pageId => ?_⟩
      by_cases same : pageId = page
      · rw [same, found, Option.some_or, contents, link.redo session.linked found, Option.some_or]
      · rw [elsewhere pageId same, redo]

theorem Session.linked_commit (session : Session link base old first progress ledger backend)
    {transaction : Transaction} (found : ledger.active = some transaction) :
    link.holds [] (progress.since ++ [(transaction.1,
        writesOf (progress.flushed ++ progress.pending) transaction.1)])
      (ledger.committed ++ [transaction]) := by
  obtain ⟨-, active⟩ := session.active transaction found
  have same : transaction = (transaction.1, progress.lost ++
      writesOf (progress.flushed ++ progress.pending) transaction.1) := by
    rw [← active.writes]
  rw [same]
  exact link.commit session.linked

/-- A crash while the commit record was being written, after all pages were. -/
theorem Session.remains_commit (session : Session link base old first progress ledger backend)
    (oldLogged : ∀ entry ∈ old, entry.Logged) {transaction : Transaction}
    (found : ledger.active = some transaction) (room : backend.wal.currentLsn.val + 1 < 2 ^ 64)
    {final : FileBackend}
    (left : LeftBehind environment.log (old ++ progress.flushed)
      (old ++ progress.flushed ++ progress.pending ++
        [.commit backend.wal.currentLsn transaction.1]) final.wal.file)
    (data : final.dataFile = contents base (ledger.committed ++ [transaction]))
    (valid : ∀ write ∈ transaction.2, (pageOffset write.1).isSome) {events : List Event}
    (few : Settled events → backend.dirtyPages.length ≤ 1) :
    Remains link base old first environment.log
      (fun committed => committed = ledger.committed ∨
        committed = ledger.committed ++ [transaction]) events final := by
  obtain ⟨-, active⟩ := session.active transaction found
  obtain ⟨whole, torn, file, tornOff, shape⟩ :=
    session.left_append oldLogged (.commit _ _) left
  rcases shape with ⟨more, rfl, inPending⟩ | ⟨rfl, -⟩
  · have kept := session.kept.extend fun entry member =>
      session.harmless entry (inPending.subset member)
    refine .kept (.inl rfl) session.linked file tornOff kept (fun settled => ?_) session.valid
    obtain ⟨page, single⟩ := active.dirty.single (few settled)
    rw [data]
    exact session.redone_single single
  · have linked := session.linked_commit found
    refine .kept (.inr rfl) linked file tornOff (session.kept_commit found room)
      (fun _ => ⟨_, .inr rfl, fun pageId => ?_⟩) ?_
    · rw [data]
      exact link.redo_contents linked base pageId
    · rw [allWrites_append, allWrites_singleton]
      exact fun write member => (List.mem_append.mp member).elim (session.valid write) (valid write)

/-- Without its commit record, a settled commit has written a page only if that was the only
one. -/
theorem settled_replicate {written count : Nat}
    (settled : Settled (List.replicate written (.pageWritten count))) :
    written = 0 ∨ count ≤ 1 := by
  by_contra several
  have logged := settled count (by omega) (List.mem_replicate.mpr ⟨by omega, rfl⟩)
  exact absurd (List.eq_of_mem_replicate logged) (by simp)

theorem commitTransaction_ends (session : Session link base old first progress ledger backend)
    (oldLogged : ∀ entry ∈ old, entry.Logged) (steadyLog : environment.log.Steady)
    (steadyData : ∀ request, environment.data request ≠ .fail) {transaction : Transaction}
    (found : ledger.active = some transaction) (room : backend.wal.currentLsn.val + 1 < 2 ^ 64) :
    Exec.Ends (commitTransaction environment) (fun outcome final events =>
      .checkpointed ∉ events ∧
      match outcome with
      | .ok _ => final.wal.currentLsn = backend.wal.currentLsn + 1 ∧
          ∃ progress', Session link base old first progress' ledger.settle final
      | .err _ => False
      | .halt _ => Remains link base old first environment.log
          (fun committed => committed = ledger.committed ∨ committed = ledger.settle.committed)
          events final) backend := by
  obtain ⟨fresh, active⟩ := session.active transaction found
  have busy : backend.currentTxId ≠ 0 := by
    rw [active.current]
    exact active.nonzero
  have perm := environment.drain_perm backend.requests backend.dirtyPages
  have encodes : ∀ entry ∈ environment.drain backend.requests backend.dirtyPages,
      entry.2.encode defaultPageSize = .ok (imageOf entry.2) := fun entry member =>
    active.dirty.encodes entry (perm.mem_iff.mp member)
  simp only [commitTransaction, Exec.ends_bind, Exec.ends_get, if_neg busy, Exec.ends_modify]
  rw [Ledger.settle_active found]
  refine (writeDirtyPages_ends steadyData _ _ encodes _).mono ?_
  rintro outcome middle log ⟨⟨dataFile, requests, rfl⟩, ended⟩
  cases outcome with
  | err error => exact absurd ended id
  | halt cause =>
      obtain ⟨written, fewer, rfl, unwritten⟩ := ended
      refine ⟨by simp, ?_⟩
      dsimp only
      refine Remains.mono ?_ fun _ same => Or.inl same
      apply session.remains
      · rfl
      · intro settled
        have none := settled_replicate (by simpa using settled)
        exact unwritten (by omega)
  | ok value =>
      obtain ⟨rfl, data, valid⟩ := ended
      have written : dataFile = contents base (ledger.committed ++ [transaction]) := by
        funext pageId
        rw [contents_append, ← active.dirty.drained perm, ← session.data]
        exact data pageId
      have validWrites : ∀ write ∈ transaction.2, (pageOffset write.1).isSome := by
        intro write member
        obtain ⟨page, inDirty⟩ := active.dirty.mem_of_write member
        exact valid (write.1, page) (perm.mem_iff.mpr inDirty)
      rw [onLog, active.current]
      dsimp only
      rw [Exec.ends_zoom]
      refine (logCommit_ends steadyLog transaction.1 session.journal).mono ?_
      intro outcome final log ended
      cases ended with
      | crash stopped left =>
          refine ⟨by simp, ?_⟩
          dsimp only
          apply session.remains_commit oldLogged found room
          · exact left
          · exact written
          · exact validWrites
          · intro settled
            rw [← perm.length_eq]
            have few := settled_replicate (by simpa using settled)
            omega
      | done holds =>
          obtain ⟨rfl, journal, lsn⟩ := holds
          have later := u64_lt_succ room
          refine ⟨by simp, lsn,
            ⟨[], progress.since ++ [(transaction.1,
                writesOf (progress.flushed ++ progress.pending) transaction.1)],
              progress.flushed ++ progress.pending ++
                [.commit backend.wal.currentLsn transaction.1], []⟩, ?_⟩
          refine
            { journal := ?_, kept := lsn ▸ session.kept_commit found room,
              harmless := fun entry member => absurd member List.not_mem_nil,
              positive := lsn ▸ session.positive.trans later.le,
              linked := session.linked_commit found, data := written, valid := ?_,
              nextTx := session.nextTx, started := session.started, used := ?_,
              idle := fun _ => ⟨rfl, rfl, rfl⟩, active := fun other some => absurd some (by simp) }
          · simpa only [List.append_assoc] using journal
          · rw [allWrites_append, allWrites_singleton]
            exact fun write member =>
              (List.mem_append.mp member).elim (session.valid write) (validWrites write)
          · rw [List.append_nil]
            intro entry member
            rcases List.mem_append.mp member with earlier | new
            · exact session.used entry earlier
            · rw [List.mem_singleton.mp new]
              exact fresh

theorem rollbackTransaction_ends (session : Session link base old first progress ledger backend)
    (oldLogged : ∀ entry ∈ old, entry.Logged) (steady : environment.log.Steady)
    {transaction : Transaction} (found : ledger.active = some transaction)
    (room : backend.wal.currentLsn.val + 1 < 2 ^ 64) :
    Exec.Ends (rollbackTransaction environment) (fun outcome final events =>
      events = [] ∧
      match outcome with
      | .ok _ => final.wal.currentLsn = backend.wal.currentLsn + 1 ∧
          ∃ progress', Session link base old first progress' { ledger with active := none } final
      | .err _ => False
      | .halt _ =>
          Remains link base old first environment.log (· = ledger.committed) events final)
      backend := by
  obtain ⟨fresh, active⟩ := session.active transaction found
  have busy : backend.currentTxId ≠ 0 := by
    rw [active.current]
    exact active.nonzero
  have later := u64_lt_succ room
  have harmless : Harmless progress.since first (backend.wal.currentLsn + 1)
      (.rollback backend.wal.currentLsn transaction.1) :=
    ⟨⟨by simp [WalEntry.rollback], fun member => lt_irrefl _ (active.last _ member)⟩,
      ⟨session.positive, later⟩, by simp [WalEntry.rollback], .rollback _ _⟩
  simp only [rollbackTransaction, Exec.ends_bind, Exec.ends_get, if_neg busy, Exec.ends_modify]
  rw [onLog, active.current, Exec.ends_zoom]
  refine (logRollback_ends steady transaction.1 session.journal).mono ?_
  intro outcome middle log ended
  cases ended with
  | crash stopped left =>
      refine ⟨rfl, ?_⟩
      dsimp only
      apply session.remains_append oldLogged harmless later.le
      · exact left
      · rfl
  | done holds =>
      obtain ⟨rfl, holds⟩ := holds
      obtain ⟨flushed, pending, journal, whole, kept, safe⟩ :=
        session.records_append harmless later.le holds
      refine ⟨rfl, holds.1, ⟨[], progress.since, flushed, pending⟩, ?_⟩
      refine
        { journal := journal, kept := holds.1 ▸ kept, harmless := holds.1 ▸ safe,
          positive := holds.1 ▸ session.positive.trans later.le,
          linked := link.drop session.linked, data := session.data, valid := session.valid,
          nextTx := session.nextTx, started := session.started, used := ?_,
          idle := fun _ => ⟨rfl, rfl, rfl⟩, active := fun other some => absurd some (by simp) }
      intro entry member
      rw [whole] at member
      rcases List.mem_append.mp member with earlier | new
      · exact session.used entry earlier
      · rw [List.mem_singleton.mp new]
        exact fresh

/-- Without an active transaction there is nothing to commit or to roll back. -/
theorem Session.currentTxId_eq_zero (session : Session link base old first progress ledger backend)
    (none : ledger.active = none) : backend.currentTxId = 0 :=
  (session.idle none).1

/-! ## Durability -/

/-- A request that leaves the files as they are. -/
theorem request_ends (session : Session link base old first progress ledger backend)
    (steady : ∀ request, environment.data request ≠ .fail) (message : String) :
    Exec.Ends (request environment message id) (fun outcome final events => events = [] ∧
      match outcome with
      | .ok _ => final.wal = backend.wal ∧ Session link base old first progress ledger final
      | .err _ => False
      | .halt _ =>
          Remains link base old first environment.log (· = ledger.committed) events final)
      backend := by
  have same : Session link base old first progress ledger
      { backend with requests := backend.requests + 1 } := session.congr rfl rfl rfl rfl rfl
  simp only [request, Exec.ends_bind, Exec.ends_get, Exec.ends_modify]
  cases answer : environment.data backend.requests with
  | ok => exact ⟨rfl, rfl, same⟩
  | fail => exact absurd answer (steady _)
  | crash => exact ⟨rfl, same.remains rfl fun _ => rfl⟩

theorem logSync_ends (session : Session link base old first progress ledger backend)
    (oldLogged : ∀ entry ∈ old, entry.Logged) (steady : environment.log.Steady) :
    Exec.Ends (onLog (WalManager.sync environment.log)) (fun outcome final events =>
      events = [] ∧
      match outcome with
      | .ok _ => final.wal.currentLsn = backend.wal.currentLsn ∧
          ∃ progress', Session link base old first progress' ledger final
      | .err _ => False
      | .halt _ =>
          Remains link base old first environment.log (· = ledger.committed) events final)
      backend := by
  rw [onLog, Exec.ends_zoom]
  refine (sync_ends steady session.journal).mono ?_
  intro outcome middle log ended
  cases ended with
  | crash stopped left =>
      refine ⟨rfl, ?_⟩
      dsimp only
      have none : ∀ entry ∈ ([] : List WalEntry), entry.Logged :=
        fun entry member => absurd member List.not_mem_nil
      obtain ⟨more, rest, torn, split, file, -, tornOff⟩ :=
        session.left oldLogged none (by rw [List.append_nil]; exact left)
      rw [List.append_nil] at split
      have kept := session.kept.extend fun entry member =>
        session.harmless entry (split ▸ List.mem_append_left rest member)
      refine .kept rfl session.linked file tornOff kept (fun _ => ⟨_, rfl, fun pageId => ?_⟩)
        session.valid
      dsimp only
      rw [session.data]
      exact link.redo_contents session.linked base pageId
  | done holds =>
      obtain ⟨rfl, journal, lsn⟩ := holds
      refine ⟨rfl, lsn, ⟨progress.lost, progress.since, progress.flushed ++ progress.pending, []⟩, ?_⟩
      refine
        { journal := by simpa only [List.append_assoc] using journal,
          kept := lsn ▸ session.kept.extend session.harmless,
          harmless := fun entry member => absurd member List.not_mem_nil,
          positive := lsn ▸ session.positive, linked := session.linked, data := session.data,
          valid := session.valid, nextTx := session.nextTx, started := session.started,
          used := by simpa using session.used, idle := session.idle, active := ?_ }
      intro transaction found
      obtain ⟨fresh, active⟩ := session.active transaction found
      exact ⟨fresh, active.current, active.nonzero, active.last,
        by simpa using active.writes, active.dirty⟩

/-- Emptying the log; only a session that started on an empty log goes on after it. -/
theorem resetLog_ends (session : Session link base old first progress ledger backend)
    (oldLogged : ∀ entry ∈ old, entry.Logged) (steady : environment.log.Steady)
    (room : backend.wal.currentLsn.val + 1 < 2 ^ 64) :
    Exec.Ends (resetLog environment) (fun outcome final events =>
      events = [.checkpointed] ∧
      match outcome with
      | .ok _ => final.wal.currentLsn = backend.wal.currentLsn + 1 ∧
          (link.Resets → old = [] → ∃ progress', Session link base old first progress' ledger final)
      | .err _ => False
      | .halt _ =>
          Remains link base old first environment.log (· = ledger.committed) events final)
      backend := by
  have later := u64_lt_succ room
  have kept := session.kept.extend session.harmless
  rw [resetLog, Exec.ends_bind, onLog, Exec.ends_zoom]
  refine (logCheckpoint_ends steady session.journal).mono ?_
  intro outcome middle log ended
  cases ended with
  | crash stopped left =>
      refine ⟨rfl, ?_⟩
      dsimp only
      obtain ⟨whole, torn, file, tornOff, shape⟩ := session.left_append oldLogged (.checkpoint _) left
      rcases shape with ⟨more, rfl, inPending⟩ | ⟨rfl, rfl⟩
      · have part := session.kept.extend fun entry member =>
          session.harmless entry (inPending.subset member)
        refine .kept rfl session.linked file tornOff part (fun _ => ⟨_, rfl, fun pageId => ?_⟩)
          session.valid
        dsimp only
        rw [session.data]
        exact link.redo_contents session.linked base pageId
      · refine .checkpointed rfl List.mem_cons_self ?_ kept session.data
        rw [file, List.append_nil, List.append_assoc old]
  | done holds =>
      obtain ⟨rfl, journal, lsn⟩ := holds
      dsimp only
      rw [onLog, Exec.ends_zoom]
      refine (truncate_ends steady journal).mono ?_
      intro outcome final log ended
      cases ended with
      | crash stopped left =>
          refine ⟨rfl, ?_⟩
          dsimp only
          refine .checkpointed rfl List.mem_cons_self ?_ kept session.data
          obtain ⟨records, rest, count, all, ⟨more, rfl⟩, file, -⟩ := left
          have nothing : more = [] ∧ rest = [] := by
            simpa only [List.append_assoc, List.append_nil, List.append_cancel_left_eq,
              List.self_eq_append_right, List.append_eq_nil_iff] using all
          obtain ⟨rfl, rfl⟩ := nothing
          simpa using file
      | done holds =>
          obtain ⟨rfl, emptyJournal, same⟩ := holds
          refine ⟨rfl, same.trans lsn, fun resets isEmpty => ?_⟩
          subst isEmpty
          have current := same.trans lsn
          refine ⟨⟨(ledger.active.map Prod.snd).getD [], [], [], []⟩, ?_⟩
          refine
            { journal := emptyJournal,
              kept := ⟨Commits.nil, by simp, by simp, by simp⟩,
              harmless := fun entry member => absurd member List.not_mem_nil,
              positive := current ▸ session.positive.trans later.le,
              linked := resets _ session.linked, data := session.data, valid := session.valid,
              nextTx := session.nextTx, started := session.started, used := by simp,
              idle := fun none => ?_, active := fun transaction found => ?_ }
          · obtain ⟨idle, dirtyPages, -⟩ := session.idle none
            exact ⟨idle, dirtyPages, by rw [none]; rfl⟩
          · obtain ⟨fresh, active⟩ := session.active transaction found
            refine ⟨fresh, active.current, active.nonzero, by simp, ?_, active.dirty⟩
            simp [found, writesOf]

end Session

end JouleDB.File
