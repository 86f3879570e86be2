import JouleDB.Wal.Recovery

/-!
# The order in which recovery applies transactions

Recovery applies committed transactions by their ids and takes only what stands behind the last
checkpoint.  Transactions commit in the order of their commit records, and may have written before
a checkpoint.  The two agree at a page when the transaction with the greatest id and the one that
committed last leave the same data there.
-/

namespace JouleDB.Wal

open RecoveryManager

instance (entries : List WalEntry) (txId : U64) : Decidable (RolledBackIn entries txId) :=
  inferInstanceAs (Decidable (∃ entry ∈ entries, entry.entryType = .rollback ∧ entry.txId = txId))

/-- The records behind the last checkpoint record. -/
def sinceCheckpoint (entries : List WalEntry) : List WalEntry :=
  (entries.reverse.takeWhile fun entry => entry.entryType ≠ .checkpoint).reverse

/-- The transactions that committed since the last checkpoint and were not rolled back, in the
order of their commit records. -/
def commitOrder (entries : List WalEntry) : List U64 :=
  (sinceCheckpoint entries).filterMap fun entry =>
    if entry.entryType = .commit ∧ ¬RolledBackIn entries entry.txId then some entry.txId else none

/-- Recovery gives every page what the last transaction to commit wrote there, nothing from other
transactions, and names the transactions that have not ended. -/
structure ReplaysInCommitOrder (entries : List WalEntry) (result : RecoveryResult) : Prop where
  distinct : (result.pagesToApply.map Prod.fst).Nodup
  pages : ∀ pageId, result.pagesToApply.lookup pageId =
    lastUpdate ((commitOrder entries).flatMap (writesOf entries)) pageId
  clean : ∀ write ∈ result.pagesToApply, ∃ txId, write ∈ writesOf entries txId ∧
    CommittedIn (sinceCheckpoint entries) txId ∧ ¬RolledBackIn entries txId
  uncommitted : ∀ txId, txId ∈ result.uncommittedTransactions ↔
    TouchedIn entries txId ∧ ¬CommittedIn entries txId ∧ ¬RolledBackIn entries txId

/-- The transaction with the greatest id among those that recovery takes for committed and that
wrote the page behind the checkpoint. -/
structure GreatestWriter (entries : List WalEntry) (pageId txId : U64) : Prop where
  committed : CommittedIn (relevantEntries entries) txId
  writes : lastUpdate (writesOf (relevantEntries entries) txId) pageId ≠ none
  greatest : ∀ other, CommittedIn (relevantEntries entries) other →
    lastUpdate (writesOf (relevantEntries entries) other) pageId ≠ none → other ≤ txId

/-- The transaction that committed last among those that wrote the page. -/
def LastCommitter (entries : List WalEntry) (pageId txId : U64) : Prop :=
  ∃ front back, commitOrder entries = front ++ txId :: back ∧
    lastUpdate (writesOf entries txId) pageId ≠ none ∧
    ∀ other ∈ back, lastUpdate (writesOf entries other) pageId = none

/-- No transaction writes the page, or the one with the greatest id and the one that committed last
leave the same data there. -/
def AgreesAt (entries : List WalEntry) (pageId : U64) : Prop :=
  ((∀ txId, ¬GreatestWriter entries pageId txId) ∧ ∀ txId, ¬LastCommitter entries pageId txId) ∨
  ∃ greatest last, GreatestWriter entries pageId greatest ∧ LastCommitter entries pageId last ∧
    lastUpdate (writesOf (relevantEntries entries) greatest) pageId =
      lastUpdate (writesOf entries last) pageId

/-- A transaction that has not ended has written behind the checkpoint, and one that has written
there has not ended before it. -/
def EndsBehindCheckpoint (entries : List WalEntry) (txId : U64) : Prop :=
  (TouchedIn entries txId → ¬CommittedIn entries txId → ¬RolledBackIn entries txId →
    TouchedIn (relevantEntries entries) txId) ∧
  (TouchedIn (relevantEntries entries) txId → ¬CommittedIn (relevantEntries entries) txId →
    ¬RolledBackIn (relevantEntries entries) txId →
    ¬CommittedIn entries txId ∧ ¬RolledBackIn entries txId)

variable {entries : List WalEntry} {pageId txId : U64}

/-- What is applied to a page is the last write of the greatest writer. -/
theorem lookup_eq_some_iff_greatest {data : Bytes} :
    (replay entries).pagesToApply.lookup pageId = some data ↔
      ∃ txId, GreatestWriter entries pageId txId ∧
        lastUpdate (writesOf (relevantEntries entries) txId) pageId = some data := by
  obtain ⟨order, sorted, members, pages⟩ := (replay_applies entries).pages
  rw [pages, lastUpdate_flatMap_eq_some]
  constructor
  · rintro ⟨front, txId, back, split, here, later⟩
    refine ⟨txId, ⟨?_, by rw [here]; nofun, fun other committed writes => ?_⟩, here⟩
    · rw [← members, split]
      exact List.mem_append_right _ List.mem_cons_self
    · rw [← members, split] at committed
      rw [split, List.pairwise_append] at sorted
      rcases List.mem_append.mp committed with earlier | behind
      · exact (sorted.2.2 other earlier txId List.mem_cons_self).le
      · rcases List.mem_cons.mp behind with rfl | behind
        · exact le_refl _
        · exact absurd (later other behind) writes
  · rintro ⟨txId, ⟨committed, -, greatest⟩, here⟩
    obtain ⟨front, back, split⟩ := List.append_of_mem ((members txId).mpr committed)
    refine ⟨front, txId, back, split, here, fun other behind => ?_⟩
    by_contra writes
    have isCommitted : CommittedIn (relevantEntries entries) other := by
      rw [← members, split]
      exact List.mem_append_right _ (List.mem_cons_of_mem _ behind)
    rw [split, List.pairwise_append, List.pairwise_cons] at sorted
    exact absurd (sorted.2.1.1 other behind) (not_lt.mpr (greatest other isCommitted writes))

/-- What the commit order leaves of a page is the last write of the last committer. -/
theorem lastUpdate_eq_some_iff_last {data : Bytes} :
    lastUpdate ((commitOrder entries).flatMap (writesOf entries)) pageId = some data ↔
      ∃ txId, LastCommitter entries pageId txId ∧
        lastUpdate (writesOf entries txId) pageId = some data := by
  rw [lastUpdate_flatMap_eq_some]
  constructor
  · rintro ⟨front, txId, back, split, here, later⟩
    exact ⟨txId, ⟨front, back, split, by rw [here]; nofun, later⟩, here⟩
  · rintro ⟨txId, ⟨front, back, split, -, later⟩, here⟩
    exact ⟨front, txId, back, split, here, later⟩

theorem agreesAt_iff :
    AgreesAt entries pageId ↔ (replay entries).pagesToApply.lookup pageId =
      lastUpdate ((commitOrder entries).flatMap (writesOf entries)) pageId := by
  constructor
  · rintro (⟨noGreatest, noLast⟩ | ⟨greatest, last, isGreatest, isLast, same⟩)
    · have left : (replay entries).pagesToApply.lookup pageId = none := by
        by_contra some
        obtain ⟨data, found⟩ := Option.ne_none_iff_exists'.mp some
        obtain ⟨txId, isGreatest, -⟩ := lookup_eq_some_iff_greatest.mp found
        exact noGreatest txId isGreatest
      have right : lastUpdate ((commitOrder entries).flatMap (writesOf entries)) pageId = none := by
        by_contra some
        obtain ⟨data, found⟩ := Option.ne_none_iff_exists'.mp some
        obtain ⟨txId, isLast, -⟩ := lastUpdate_eq_some_iff_last.mp found
        exact noLast txId isLast
      rw [left, right]
    · obtain ⟨data, found⟩ := Option.ne_none_iff_exists'.mp isGreatest.writes
      rw [lookup_eq_some_iff_greatest.mpr ⟨greatest, isGreatest, found⟩,
        lastUpdate_eq_some_iff_last.mpr ⟨last, isLast, same.symm.trans found⟩]
  · intro same
    cases found : (replay entries).pagesToApply.lookup pageId with
    | none =>
        refine .inl ⟨fun txId isGreatest => ?_, fun txId isLast => ?_⟩
        · obtain ⟨data, written⟩ := Option.ne_none_iff_exists'.mp isGreatest.writes
          cases found.symm.trans (lookup_eq_some_iff_greatest.mpr ⟨txId, isGreatest, written⟩)
        · obtain ⟨-, -, -, writes, -⟩ := id isLast
          obtain ⟨data, written⟩ := Option.ne_none_iff_exists'.mp writes
          cases (found.symm.trans same).trans
            (lastUpdate_eq_some_iff_last.mpr ⟨txId, isLast, written⟩)
    | some data =>
        obtain ⟨greatest, isGreatest, left⟩ := lookup_eq_some_iff_greatest.mp found
        obtain ⟨last, isLast, right⟩ := lastUpdate_eq_some_iff_last.mp (same.symm.trans found)
        exact .inr ⟨greatest, last, isGreatest, isLast, left.trans right.symm⟩

/-! ## The transactions that have not ended -/

theorem relevantEntries_subset : relevantEntries entries ⊆ entries := List.filter_sublist.subset

theorem uncommitted_iff :
    (txId ∈ (replay entries).uncommittedTransactions ↔
      TouchedIn entries txId ∧ ¬CommittedIn entries txId ∧ ¬RolledBackIn entries txId) ↔
    EndsBehindCheckpoint entries txId := by
  have touched : TouchedIn (relevantEntries entries) txId → TouchedIn entries txId :=
    fun ⟨entry, member, writes⟩ => ⟨entry, relevantEntries_subset member, writes⟩
  have committed : CommittedIn (relevantEntries entries) txId → CommittedIn entries txId :=
    fun ⟨entry, member, commits⟩ => ⟨entry, relevantEntries_subset member, commits⟩
  have rolledBack : RolledBackIn (relevantEntries entries) txId → RolledBackIn entries txId :=
    fun ⟨entry, member, rolls⟩ => ⟨entry, relevantEntries_subset member, rolls⟩
  rw [mem_uncommitted_iff, EndsBehindCheckpoint]
  tauto

/-- What the commit order leaves of the pages comes from its transactions. -/
theorem mem_commitOrder :
    txId ∈ commitOrder entries ↔
      CommittedIn (sinceCheckpoint entries) txId ∧ ¬RolledBackIn entries txId := by
  rw [commitOrder, List.mem_filterMap]
  constructor
  · rintro ⟨entry, member, taken⟩
    split at taken
    next both =>
      cases taken
      exact ⟨⟨entry, member, both.1, rfl⟩, both.2⟩
    next => cases taken
  · rintro ⟨⟨entry, member, commits, rfl⟩, kept⟩
    exact ⟨entry, member, if_pos ⟨commits, kept⟩⟩

/-- Recovery replays the committed writes in commit order if and only if at every page the
transaction with the greatest id and the last to commit agree, and no transaction ends on the
other side of the checkpoint than it writes. -/
theorem replays_iff (entries : List WalEntry) :
    ReplaysInCommitOrder entries (replay entries) ↔
      (∀ pageId, AgreesAt entries pageId) ∧ ∀ txId, EndsBehindCheckpoint entries txId := by
  constructor
  · rintro ⟨-, pages, -, uncommitted⟩
    exact ⟨fun pageId => agreesAt_iff.mpr (pages pageId),
      fun txId => uncommitted_iff.mp (uncommitted txId)⟩
  · rintro ⟨agrees, ends⟩
    have pages := fun pageId => agreesAt_iff.mp (agrees pageId)
    refine ⟨nodup_pagesToApply entries, pages, fun write member => ?_,
      fun txId => uncommitted_iff.mpr (ends txId)⟩
    have found := (lookup_eq_some_iff (nodup_pagesToApply entries)).mpr
      (show (write.1, write.2) ∈ _ from member)
    obtain ⟨txId, inOrder, written⟩ :=
      List.mem_flatMap.mp (mem_of_lastUpdate ((pages write.1).symm.trans found))
    exact ⟨txId, written, mem_commitOrder.mp inOrder⟩

/-- Transactions 2 and 1 write page 5, and transaction 2 commits first. -/
def crossed : List WalEntry :=
  [.pageWrite 1 2 5 [2], .pageWrite 2 1 5 [1], .commit 3 2, .commit 4 1]

/-- Transaction 1 commits and is rolled back. -/
def retracted : List WalEntry := [.pageWrite 1 1 5 [1], .commit 2 1, .rollback 3 1]

/-- Recovery gives page 5 the data of transaction 2, although transaction 1 committed after it, and
it applies a transaction that was rolled back. -/
theorem not_replays :
    (replay crossed).pagesToApply = [(5, [2])] ∧
      ¬ReplaysInCommitOrder crossed (replay crossed) ∧
      (replay retracted).pagesToApply = [(5, [1])] ∧
      ¬ReplaysInCommitOrder retracted (replay retracted) := by
  have pages : (replay crossed).pagesToApply = [(5, [2])] := by decide +kernel
  have pages' : (replay retracted).pagesToApply = [(5, [1])] := by decide +kernel
  refine ⟨pages, fun replays => ?_, pages', fun replays => ?_⟩
  · have right := replays.pages 5
    rw [pages] at right
    exact absurd right (by decide +kernel)
  · have right := replays.pages 5
    rw [pages'] at right
    exact absurd right (by decide +kernel)

end JouleDB.Wal
