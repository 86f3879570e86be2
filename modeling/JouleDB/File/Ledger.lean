import JouleDB.File.Backend
import JouleDB.Wal.Journal
import JouleDB.Wal.Serial

/-!
# The ledger of a file backend

The ledger is what a user of the backend can know: the transactions whose commit has
returned, and the writes of the active one.  A session ties the ledger to the data file, to
the pages in memory and to the records in the log.  `Remains` is what a process that stops
leaves of it.
-/

namespace JouleDB.File

open Storage Wal FileBackend

/-! ## The ledger -/

/-- The bytes of a page in the data file and in the log. -/
def imageOf (page : Page) : Bytes :=
  match page.encode defaultPageSize with
  | .ok bytes => bytes
  | _ => []

/-- The transactions as the replies tell them. -/
structure Ledger where
  committed : List Transaction
  active : Option Transaction
  nextTx : U64

namespace Ledger

/-- Nothing has been called yet. -/
def start : Ledger := ⟨[], none, 1⟩

/-- The active transaction has been committed. -/
def settle (ledger : Ledger) : Ledger :=
  match ledger.active with
  | some transaction =>
      { ledger with committed := ledger.committed ++ [transaction], active := none }
  | none => ledger

/-- A transaction has begun. -/
def opened (ledger : Ledger) : Ledger :=
  { ledger with active := some (ledger.nextTx, []), nextTx := ledger.nextTx + 1 }

/-- A page has been written by the active transaction. -/
def extend (ledger : Ledger) (page : Page) : Ledger :=
  { ledger with
    active := ledger.active.map fun transaction =>
      (transaction.1, transaction.2 ++ [(page.id, imageOf page)]) }

/-- The ledger after a reply; a page written outside a transaction is a transaction of its
own. -/
def after (ledger : Ledger) (call : Call) : Outcome StorageError Unit → Ledger
  | .ok _ =>
      match call with
      | .beginTransaction => ledger.opened
      | .writePage page =>
          match ledger.active with
          | some _ => ledger.extend page
          | none => (ledger.opened.extend page).settle
      | .commitTransaction => ledger.settle
      | .sync => ledger.settle
      | .rollbackTransaction => { ledger with active := none }
      | .checkpoint => ledger
  | .err _ =>
      match call with
      | .beginTransaction => { ledger with nextTx := ledger.nextTx + 1 }
      | _ => ledger
  | .halt _ => ledger

end Ledger

/-- The ledger after a sequence of replies. -/
def ledgerOf (ledger : Ledger) (replies : List Reply) : Ledger :=
  replies.foldl (fun ledger reply => ledger.after reply.call reply.outcome) ledger

/-- The data file after the committed transactions. -/
def contents (base : U64 → Option Bytes) (committed : List Transaction) : U64 → Option Bytes :=
  fun pageId => (lastUpdate (allWrites committed) pageId).or (base pageId)

/-- A commit of several pages that has written one of them has also reached the log. -/
def Settled (events : List Event) : Prop :=
  ∀ count, 2 ≤ count → .pageWritten count ∈ events → .commitLogged ∈ events

/-! ## The session -/

/-- How the transactions in the log relate to those in the ledger.  `lost` are the writes of
the active transaction that are no longer in the log. -/
structure Link where
  holds : List (U64 × Bytes) → List Transaction → List Transaction → Prop
  commit : ∀ {lost logged txId since committed}, holds lost since committed →
    holds [] (since ++ [(txId, logged)]) (committed ++ [(txId, lost ++ logged)])
  drop : ∀ {lost since committed}, holds lost since committed → holds [] since committed
  redo : ∀ {lost since committed}, holds lost since committed → ∀ {pageId image},
    lastUpdate (allWrites since) pageId = some image →
      lastUpdate (allWrites committed) pageId = some image

/-- The log may be emptied. -/
def Link.Resets (link : Link) : Prop :=
  ∀ {lost since committed} (writes : List (U64 × Bytes)), link.holds lost since committed →
    link.holds writes [] committed

/-- Records with their transactions, numbered from `first` to below `next`. -/
structure Kept (since : List Transaction) (first next : U64) (entries : List WalEntry) : Prop where
  commits : Commits entries since
  numbered : ∀ entry ∈ entries, first ≤ entry.lsn ∧ entry.lsn < next
  plain : ∀ entry ∈ entries, entry.entryType ≠ .checkpoint ∧ entry.entryType ≠ .extentWrite
  logged : ∀ entry ∈ entries, entry.Logged

/-- A record that can follow without changing the transactions. -/
structure Harmless (since : List Transaction) (first next : U64) (entry : WalEntry) : Prop where
  quiet : Quiet since entry
  numbered : first ≤ entry.lsn ∧ entry.lsn < next
  plain : entry.entryType ≠ .checkpoint ∧ entry.entryType ≠ .extentWrite
  logged : entry.Logged

theorem Kept.extend {since : List Transaction} {first next : U64} {entries more : List WalEntry}
    (kept : Kept since first next entries)
    (harmless : ∀ entry ∈ more, Harmless since first next entry) :
    Kept since first next (entries ++ more) where
  commits := kept.commits.quiet fun entry member => (harmless entry member).quiet
  numbered := fun entry member => (List.mem_append.mp member).elim (kept.numbered entry)
    fun inMore => (harmless entry inMore).numbered
  plain := fun entry member => (List.mem_append.mp member).elim (kept.plain entry)
    fun inMore => (harmless entry inMore).plain
  logged := fun entry member => (List.mem_append.mp member).elim (kept.logged entry)
    fun inMore => (harmless entry inMore).logged

theorem Kept.later {since : List Transaction} {first next next' : U64} {entries : List WalEntry}
    (kept : Kept since first next entries) (later : next ≤ next') :
    Kept since first next' entries :=
  { kept with numbered := fun entry member =>
      ⟨(kept.numbered entry member).1, (kept.numbered entry member).2.trans_le later⟩ }

theorem Harmless.later {since : List Transaction} {first next next' : U64} {entry : WalEntry}
    (harmless : Harmless since first next entry) (later : next ≤ next') :
    Harmless since first next' entry :=
  { harmless with numbered := ⟨harmless.numbered.1, harmless.numbered.2.trans_le later⟩ }

/-- The pages in memory are the last writes of the active transaction. -/
structure Reflects (dirtyPages : List (U64 × Page)) (writes : List (U64 × Bytes)) : Prop where
  nodup : (dirtyPages.map Prod.fst).Nodup
  images : ∀ pageId, (dirtyPages.lookup pageId).map imageOf = lastUpdate writes pageId
  encodes : ∀ entry ∈ dirtyPages, entry.2.encode defaultPageSize = .ok (imageOf entry.2)

/-- What a session knows about the log: the writes of the active transaction that have left
it, the committed transactions in it, and its records. -/
structure Progress where
  lost : List (U64 × Bytes)
  since : List Transaction
  flushed : List WalEntry
  pending : List WalEntry

/-- The active transaction in memory and in the log. -/
structure Active (progress : Progress) (transaction : Transaction) (backend : FileBackend) :
    Prop where
  current : backend.currentTxId = transaction.1
  nonzero : transaction.1 ≠ 0
  last : ∀ txId ∈ progress.since.map Prod.fst, txId < transaction.1
  writes : transaction.2 =
    progress.lost ++ writesOf (progress.flushed ++ progress.pending) transaction.1
  dirty : Reflects backend.dirtyPages transaction.2

/-- The backend between two calls.  `old` are the records that were in the file when the
session began. -/
structure Session (link : Link) (base : U64 → Option Bytes) (old : List WalEntry) (first : U64)
    (progress : Progress) (ledger : Ledger) (backend : FileBackend) : Prop where
  journal : Journal backend.wal (old ++ progress.flushed) progress.pending
  kept : Kept progress.since first backend.wal.currentLsn progress.flushed
  harmless : ∀ entry ∈ progress.pending,
    Harmless progress.since first backend.wal.currentLsn entry
  positive : first ≤ backend.wal.currentLsn
  linked : link.holds progress.lost progress.since ledger.committed
  data : backend.dataFile = contents base ledger.committed
  valid : ∀ write ∈ allWrites ledger.committed, (pageOffset write.1).isSome
  nextTx : backend.nextTxId = ledger.nextTx
  started : ledger.nextTx ≠ 0
  used : ∀ entry ∈ progress.flushed ++ progress.pending, entry.txId < ledger.nextTx
  idle : ledger.active = none →
    backend.currentTxId = 0 ∧ backend.dirtyPages = [] ∧ progress.lost = []
  active : ∀ transaction, ledger.active = some transaction →
    transaction.1 < ledger.nextTx ∧ Active progress transaction backend

/-- What is left when the process stops: the records of a possible ledger's transactions, or
a log that was just checkpointed, over a data file that the redo of the log completes to the
contents of a possible ledger. -/
inductive Remains (link : Link) (base : U64 → Option Bytes) (old : List WalEntry) (first : U64)
    (device : LogDevice) (possible : List Transaction → Prop) (events : List Event)
    (final : FileBackend) : Prop where
  | kept {lost : List (U64 × Bytes)} {since committed : List Transaction}
      {whole : List WalEntry} {torn : Bytes} {next : U64} (isPossible : possible committed)
      (linked : link.holds lost since committed)
      (file : final.wal.file = logBytes (old ++ whole) ++ torn) (tornOff : TornOff device torn)
      (kept : Kept since first next whole)
      (redone : Settled events → ∃ result, possible result ∧ ∀ pageId,
        (lastUpdate (allWrites since) pageId).or (final.dataFile pageId) =
          contents base result pageId)
      (valid : ∀ write ∈ allWrites committed, (pageOffset write.1).isSome)
  | checkpointed {since committed : List Transaction} {whole : List WalEntry} {lsn : U64}
      (isPossible : possible committed) (observed : .checkpointed ∈ events)
      (file : final.wal.file = logBytes (old ++ whole ++ [.checkpoint lsn]))
      (kept : Kept since first lsn whole) (data : final.dataFile = contents base committed)

section Session

variable {link : Link} {base : U64 → Option Bytes} {old : List WalEntry} {first : U64}
variable {progress : Progress} {ledger : Ledger} {backend : FileBackend}
variable {environment : Environment}

/-- Redoing transactions that are in the data file changes nothing. -/
theorem Link.redo_contents (link : Link) {lost : List (U64 × Bytes)}
    {since committed : List Transaction} (linked : link.holds lost since committed)
    (base : U64 → Option Bytes) (pageId : U64) :
    (lastUpdate (allWrites since) pageId).or (contents base committed pageId) =
      contents base committed pageId := by
  cases found : lastUpdate (allWrites since) pageId with
  | none => rfl
  | some image => simp [contents, link.redo linked found]

/-- A session only depends on the log, the data file and the transaction in memory. -/
theorem Session.congr (session : Session link base old first progress ledger backend)
    {final : FileBackend} (wal : final.wal = backend.wal)
    (dataFile : final.dataFile = backend.dataFile)
    (currentTxId : final.currentTxId = backend.currentTxId)
    (nextTxId : final.nextTxId = backend.nextTxId)
    (dirtyPages : final.dirtyPages = backend.dirtyPages) :
    Session link base old first progress ledger final where
  journal := wal ▸ session.journal
  kept := wal ▸ session.kept
  harmless := wal ▸ session.harmless
  positive := wal ▸ session.positive
  linked := session.linked
  data := dataFile.trans session.data
  valid := session.valid
  nextTx := nextTxId.trans session.nextTx
  started := session.started
  used := session.used
  idle := fun none => by
    rw [currentTxId, dirtyPages]
    exact session.idle none
  active := fun transaction found => by
    obtain ⟨fresh, active⟩ := session.active transaction found
    exact ⟨fresh, currentTxId.trans active.current, active.nonzero, active.last, active.writes,
      dirtyPages ▸ active.dirty⟩

/-- Stopping between two writes to the log leaves the records in the file. -/
theorem Session.remains (session : Session link base old first progress ledger backend)
    {final : FileBackend} {events : List Event} (file : final.wal.file = backend.wal.file)
    (dataFile : Settled events → final.dataFile = backend.dataFile) :
    Remains link base old first environment.log (· = ledger.committed) events final := by
  have whole : final.wal.file = logBytes (old ++ progress.flushed) ++ [] := by
    rw [file, session.journal.file, List.append_nil]
  refine .kept rfl session.linked whole (.inl rfl) session.kept
    (fun settled => ⟨_, rfl, fun pageId => ?_⟩) session.valid
  rw [dataFile settled, session.data]
  exact link.redo_contents session.linked base pageId

theorem Session.old_logged (session : Session link base old first progress ledger backend)
    (oldLogged : ∀ entry ∈ old, entry.Logged) {extra : List WalEntry}
    (extraLogged : ∀ entry ∈ extra, entry.Logged) :
    ∀ entry ∈ old ++ progress.flushed ++ progress.pending ++ extra, entry.Logged := by
  intro entry member
  simp only [List.mem_append, or_assoc] at member
  rcases member with inOld | inFlushed | inPending | inExtra
  · exact oldLogged entry inOld
  · exact session.kept.logged entry inFlushed
  · exact (session.harmless entry inPending).logged
  · exact extraLogged entry inExtra

/-- The records in the file after a crash while the log was growing. -/
theorem Session.left (session : Session link base old first progress ledger backend)
    (oldLogged : ∀ entry ∈ old, entry.Logged) {extra : List WalEntry}
    (extraLogged : ∀ entry ∈ extra, entry.Logged) {file : Bytes}
    (left : LeftBehind environment.log (old ++ progress.flushed)
      (old ++ progress.flushed ++ progress.pending ++ extra) file) :
    ∃ more rest torn, progress.pending ++ extra = more ++ rest ∧
      file = logBytes (old ++ (progress.flushed ++ more)) ++ torn ∧
      (rest = [] → torn = []) ∧ TornOff environment.log torn := by
  obtain ⟨records, rest, torn, all, ⟨more, rfl⟩, contents, last, tornOff⟩ :=
    left.whole (session.old_logged oldLogged extraLogged)
  refine ⟨more, rest, torn, ?_, by rw [contents, List.append_assoc], last, tornOff⟩
  simpa only [List.append_assoc, List.append_cancel_left_eq] using all

/-- While one record is being appended, the file holds some of those in the writer, or all of
them and the new one. -/
theorem Session.left_append (session : Session link base old first progress ledger backend)
    (oldLogged : ∀ entry ∈ old, entry.Logged) {entry : WalEntry} (logged : entry.Logged)
    {file : Bytes} (left : LeftBehind environment.log (old ++ progress.flushed)
      (old ++ progress.flushed ++ progress.pending ++ [entry]) file) :
    ∃ whole torn, file = logBytes (old ++ whole) ++ torn ∧ TornOff environment.log torn ∧
      ((∃ more, whole = progress.flushed ++ more ∧ more <+: progress.pending) ∨
        (whole = progress.flushed ++ progress.pending ++ [entry] ∧ torn = [])) := by
  obtain ⟨more, rest, torn, split, contents, last, tornOff⟩ :=
    session.left oldLogged (fun other member => List.mem_singleton.mp member ▸ logged) left
  refine ⟨progress.flushed ++ more, torn, contents, tornOff, ?_⟩
  rcases List.eq_nil_or_concat rest with rfl | ⟨front, final, rfl⟩
  · rw [List.append_nil] at split
    exact .inr ⟨by rw [← split, List.append_assoc], last rfl⟩
  · rw [List.concat_eq_append, ← List.append_assoc] at split
    exact .inl ⟨more, rfl, front, (List.append_inj' split rfl).1.symm⟩

/-- Stopping while a harmless record was being appended. -/
theorem Session.remains_append (session : Session link base old first progress ledger backend)
    (oldLogged : ∀ entry ∈ old, entry.Logged) {entry : WalEntry} {next : U64}
    (harmless : Harmless progress.since first next entry)
    (later : backend.wal.currentLsn ≤ next) {final : FileBackend}
    (left : LeftBehind environment.log (old ++ progress.flushed)
      (old ++ progress.flushed ++ progress.pending ++ [entry]) final.wal.file)
    (dataFile : final.dataFile = backend.dataFile) (events : List Event) :
    Remains link base old first environment.log (· = ledger.committed) events final := by
  obtain ⟨whole, torn, file, tornOff, shape⟩ := session.left_append oldLogged harmless.logged left
  have kept : Kept progress.since first next whole := by
    rcases shape with ⟨more, rfl, inPending⟩ | ⟨rfl, -⟩
    · exact (session.kept.later later).extend fun other member =>
        (session.harmless other (inPending.subset member)).later later
    · rw [List.append_assoc]
      refine (session.kept.later later).extend fun other member => ?_
      rcases List.mem_append.mp member with inPending | new
      · exact (session.harmless other inPending).later later
      · rw [List.mem_singleton.mp new]
        exact harmless
  refine .kept rfl session.linked file tornOff kept (fun _ => ⟨_, rfl, fun pageId => ?_⟩)
    session.valid
  rw [dataFile, session.data]
  exact link.redo_contents session.linked base pageId

/-- The records of the log after a harmless one was appended. -/
theorem Session.records_append (session : Session link base old first progress ledger backend)
    {entry : WalEntry} {next : U64} (harmless : Harmless progress.since first next entry)
    (later : backend.wal.currentLsn ≤ next) {wal : WalManager}
    (holds : Holds wal (old ++ progress.flushed)
      (old ++ progress.flushed ++ progress.pending ++ [entry]) next) :
    ∃ flushed pending, Journal wal (old ++ flushed) pending ∧
      flushed ++ pending = progress.flushed ++ progress.pending ++ [entry] ∧
      Kept progress.since first next flushed ∧
      ∀ entry ∈ pending, Harmless progress.since first next entry := by
  obtain ⟨-, records, pending, journal, ⟨more, rfl⟩, whole⟩ := holds
  have split : more ++ pending = progress.pending ++ [entry] := by
    simpa only [List.append_assoc, List.append_cancel_left_eq] using whole
  have safe : ∀ other ∈ more ++ pending, Harmless progress.since first next other := by
    intro other member
    rw [split] at member
    rcases List.mem_append.mp member with inPending | new
    · exact (session.harmless other inPending).later later
    · rw [List.mem_singleton.mp new]
      exact harmless
  refine ⟨progress.flushed ++ more, pending, by rwa [← List.append_assoc], ?_, ?_, ?_⟩
  · rw [List.append_assoc, split, List.append_assoc]
  · exact (session.kept.later later).extend fun other member =>
      safe other (List.mem_append_left _ member)
  · exact fun other member => safe other (List.mem_append_right _ member)

theorem Session.since_lt (session : Session link base old first progress ledger backend) :
    ∀ txId ∈ progress.since.map Prod.fst, txId < ledger.nextTx := by
  intro txId member
  obtain ⟨entry, inFlushed, -, rfl⟩ := (session.kept.commits.committed txId).mpr member
  exact session.used entry (List.mem_append_left _ inFlushed)

end Session

end JouleDB.File
