import JouleDB.Wal.Log

/-!
# What recovery applies

`replay` folds the records after the last checkpoint into transaction sets and write
lists.  Seen from outside it applies the committed transactions one after the other, in
the order of their ids, and nothing else.
-/

namespace JouleDB.Wal

open RecoveryManager

/-- The page writes of a transaction, in log order. -/
def writesOf (entries : List WalEntry) (txId : U64) : List (U64 × Bytes) :=
  entries.filterMap fun entry =>
    if entry.entryType = .pageWrite ∧ entry.txId = txId then
      entry.pageId.map fun pageId => (pageId, entry.data)
    else
      none

/-- The log holds a commit record of the transaction. -/
def CommittedIn (entries : List WalEntry) (txId : U64) : Prop :=
  ∃ entry ∈ entries, entry.entryType = .commit ∧ entry.txId = txId

/-- The log holds a rollback record of the transaction. -/
def RolledBackIn (entries : List WalEntry) (txId : U64) : Prop :=
  ∃ entry ∈ entries, entry.entryType = .rollback ∧ entry.txId = txId

/-- The log holds a page or extent write of the transaction. -/
def TouchedIn (entries : List WalEntry) (txId : U64) : Prop :=
  ∃ entry ∈ entries, ((entry.entryType = .pageWrite ∧ entry.pageId.isSome) ∨
    entry.entryType = .extentWrite) ∧ entry.txId = txId

/-- Recovery applies exactly the committed transactions among the records after the last
checkpoint, each with all its page writes, in the order of their ids. -/
structure AppliesCommitted (entries : List WalEntry) (result : RecoveryResult) : Prop where
  committed : ∀ txId,
    txId ∈ result.committedTransactions ↔ CommittedIn (relevantEntries entries) txId
  pages : ∃ order : List U64, order.Pairwise (· < ·) ∧
    (∀ txId, txId ∈ order ↔ CommittedIn (relevantEntries entries) txId) ∧
    ∀ pageId, result.pagesToApply.lookup pageId =
      lastUpdate (order.flatMap (writesOf (relevantEntries entries))) pageId

/-! ## The fold over the records -/

theorem mem_committed_foldl (entries : List WalEntry) (tracked : Tracked) (txId : U64) :
    txId ∈ (entries.foldl track tracked).committed ↔
      txId ∈ tracked.committed ∨ CommittedIn entries txId := by
  induction entries generalizing tracked with
  | nil => simp [CommittedIn]
  | cons entry entries ih =>
      rw [List.foldl_cons, ih]
      have step : txId ∈ (track tracked entry).committed ↔
          txId ∈ tracked.committed ∨ (entry.entryType = .commit ∧ entry.txId = txId) := by
        unfold track
        cases kind : entry.entryType with
        | commit => simp only [List.mem_insert_iff, true_and]; tauto
        | pageWrite => cases entry.pageId <;> simp
        | checkpoint | rollback | extentWrite => simp
      rw [step]
      simp only [CommittedIn, List.mem_cons, exists_eq_or_imp]
      tauto

theorem mem_rolledBack_foldl (entries : List WalEntry) (tracked : Tracked) (txId : U64) :
    txId ∈ (entries.foldl track tracked).rolledBack ↔
      txId ∈ tracked.rolledBack ∨ RolledBackIn entries txId := by
  induction entries generalizing tracked with
  | nil => simp [RolledBackIn]
  | cons entry entries ih =>
      rw [List.foldl_cons, ih]
      have step : txId ∈ (track tracked entry).rolledBack ↔
          txId ∈ tracked.rolledBack ∨ (entry.entryType = .rollback ∧ entry.txId = txId) := by
        unfold track
        cases kind : entry.entryType with
        | rollback => simp only [List.mem_insert_iff, true_and]; tauto
        | pageWrite => cases entry.pageId <;> simp
        | checkpoint | commit | extentWrite => simp
      rw [step]
      simp only [RolledBackIn, List.mem_cons, exists_eq_or_imp]
      tauto

theorem nodup_committed_foldl (entries : List WalEntry) (tracked : Tracked)
    (nodup : tracked.committed.Nodup) : (entries.foldl track tracked).committed.Nodup := by
  induction entries generalizing tracked with
  | nil => exact nodup
  | cons entry entries ih =>
      apply ih
      unfold track
      cases entry.entryType with
      | commit => exact nodup.insert
      | pageWrite => cases entry.pageId <;> exact nodup
      | checkpoint | rollback | extentWrite => exact nodup

/-- The transactions with a write list are those that wrote something. -/
theorem mem_keys_foldl (entries : List WalEntry) (tracked : Tracked) (txId : U64) :
    txId ∈ (entries.foldl track tracked).pageWrites.map Prod.fst ↔
      txId ∈ tracked.pageWrites.map Prod.fst ∨ TouchedIn entries txId := by
  induction entries generalizing tracked with
  | nil => simp [TouchedIn]
  | cons entry entries ih =>
      rw [List.foldl_cons, ih]
      have push : ∀ writes, txId ∈ (pushWrites tracked.pageWrites entry.txId writes).map Prod.fst ↔
          txId ∈ tracked.pageWrites.map Prod.fst ∨ entry.txId = txId := by
        intro writes
        rw [pushWrites, keys_upsert]
        split
        next present =>
          refine ⟨.inl, fun either => either.elim id fun same => same ▸ present⟩
        next => simp only [List.mem_append, List.mem_singleton, eq_comm]
      have step : txId ∈ (track tracked entry).pageWrites.map Prod.fst ↔
          txId ∈ tracked.pageWrites.map Prod.fst ∨
            (((entry.entryType = .pageWrite ∧ entry.pageId.isSome) ∨
              entry.entryType = .extentWrite) ∧ entry.txId = txId) := by
        unfold track
        cases kind : entry.entryType with
        | pageWrite =>
            cases page : entry.pageId with
            | none => simp
            | some pageId => simp only [push]; simp
        | extentWrite => simp only [push]; simp
        | commit | checkpoint | rollback => simp
      rw [step]
      simp only [TouchedIn, List.mem_cons, exists_eq_or_imp]
      exact or_assoc

theorem lookup_pushWrites (pageWrites : List (U64 × List (U64 × Bytes))) (txId other : U64)
    (writes : List (U64 × Bytes)) :
    ((pushWrites pageWrites txId writes).lookup other).getD [] =
      (pageWrites.lookup other).getD [] ++ if txId = other then writes else [] := by
  rw [pushWrites, lookup_upsert]
  by_cases equal : other = txId
  · subst equal
    simp
  · have distinct : txId ≠ other := fun same => equal same.symm
    simp [equal, distinct]

theorem lookup_pageWrites_foldl (entries : List WalEntry) (tracked : Tracked) (txId : U64) :
    (((entries.foldl track tracked).pageWrites.lookup txId).getD []) =
      (tracked.pageWrites.lookup txId).getD [] ++ writesOf entries txId := by
  induction entries generalizing tracked with
  | nil => simp [writesOf]
  | cons entry entries ih =>
      rw [List.foldl_cons, ih]
      have step : ((track tracked entry).pageWrites.lookup txId).getD [] =
          (tracked.pageWrites.lookup txId).getD [] ++ writesOf [entry] txId := by
        unfold track writesOf
        cases kind : entry.entryType with
        | pageWrite =>
            cases page : entry.pageId with
            | none => simp [page]
            | some pageId =>
                simp only [lookup_pushWrites]
                by_cases equal : entry.txId = txId <;> simp [kind, page, equal]
        | extentWrite => simp [lookup_pushWrites, kind]
        | commit | checkpoint | rollback => simp [kind]
      rw [step, List.append_assoc]
      have join : writesOf [entry] txId ++ writesOf entries txId =
          writesOf (entry :: entries) txId := by
        rw [writesOf, writesOf, ← List.filterMap_append]
        rfl
      rw [join]

/-- Applying the write lists of the committed transactions is one pass of updates. -/
theorem foldl_pages (tracked : Tracked) (order : List U64) (pages : List (U64 × Bytes)) :
    order.foldl (fun pages txId =>
      match tracked.pageWrites.lookup txId with
      | some writes => upsertAll pages writes
      | none => pages) pages =
    upsertAll pages (order.flatMap fun txId => (tracked.pageWrites.lookup txId).getD []) := by
  induction order generalizing pages with
  | nil => rfl
  | cons txId order ih =>
      rw [List.foldl_cons, ih, List.flatMap_cons, upsertAll_append]
      cases tracked.pageWrites.lookup txId <;> rfl

theorem relevantEntries_nil : relevantEntries [] = [] := rfl

/-- The fields of `replay`, also for an empty log. -/
theorem replay_eq (entries : List WalEntry) :
    (replay entries).committedTransactions =
        ((relevantEntries entries).foldl track ⟨[], [], []⟩).committed ∧
      (replay entries).rolledBackTransactions =
        ((relevantEntries entries).foldl track ⟨[], [], []⟩).rolledBack ∧
      (replay entries).pagesToApply =
        upsertAll [] ((((relevantEntries entries).foldl track ⟨[], [], []⟩).committed.insertionSort
          (· ≤ ·)).flatMap (writesOf (relevantEntries entries))) := by
  by_cases empty : entries = []
  · subst empty
    simp [replay, relevantEntries_nil, upsertAll]
  · refine ⟨by rw [replay, if_neg empty], by rw [replay, if_neg empty], ?_⟩
    have writes : (fun txId => (((relevantEntries entries).foldl track
        ⟨[], [], []⟩).pageWrites.lookup txId).getD []) = writesOf (relevantEntries entries) := by
      funext txId
      simpa using lookup_pageWrites_foldl (relevantEntries entries) ⟨[], [], []⟩ txId
    rw [replay, if_neg empty]
    refine (foldl_pages _ _ _).trans ?_
    rw [writes]

/-- Recovery has something to do: pages of a committed transaction to write, or a
transaction that was cut short. -/
def NeedsReplay (entries : List WalEntry) : Prop :=
  ∃ txId, (CommittedIn (relevantEntries entries) txId ∧
      writesOf (relevantEntries entries) txId ≠ []) ∨
    (TouchedIn (relevantEntries entries) txId ∧ ¬ CommittedIn (relevantEntries entries) txId ∧
      ¬ RolledBackIn (relevantEntries entries) txId)

theorem mem_uncommitted_iff {entries : List WalEntry} {txId : U64} :
    txId ∈ (replay entries).uncommittedTransactions ↔
      TouchedIn (relevantEntries entries) txId ∧ ¬ CommittedIn (relevantEntries entries) txId ∧
        ¬ RolledBackIn (relevantEntries entries) txId := by
  by_cases empty : entries = []
  · subst empty
    refine iff_of_false List.not_mem_nil ?_
    rintro ⟨⟨entry, member, -⟩, -⟩
    exact absurd member List.not_mem_nil
  · rw [replay, if_neg empty]
    dsimp only
    rw [List.mem_filter, mem_keys_foldl]
    simp only [mem_committed_foldl, mem_rolledBack_foldl, List.map_nil, List.not_mem_nil, false_or,
      decide_eq_true_eq]

theorem nodup_pagesToApply (entries : List WalEntry) :
    ((replay entries).pagesToApply.map Prod.fst).Nodup := by
  obtain ⟨-, -, pages⟩ := replay_eq entries
  rw [pages]
  apply nodup_upsertAll
  exact List.nodup_nil

theorem replay_applies (entries : List WalEntry) : AppliesCommitted entries (replay entries) := by
  obtain ⟨committed, -, pages⟩ := replay_eq entries
  have members : ∀ txId, txId ∈ (replay entries).committedTransactions ↔
      CommittedIn (relevantEntries entries) txId := by
    intro txId
    rw [committed, mem_committed_foldl]
    simp
  refine ⟨members, (replay entries).committedTransactions.insertionSort (· ≤ ·), ?_, ?_, ?_⟩
  · have sorted := List.pairwise_insertionSort (· ≤ ·) (replay entries).committedTransactions
    have nodup : ((replay entries).committedTransactions.insertionSort (· ≤ ·)).Nodup := by
      rw [(List.perm_insertionSort (· ≤ ·) _).nodup_iff, committed]
      exact nodup_committed_foldl _ _ List.nodup_nil
    exact (sorted.and nodup).imp fun both => lt_of_le_of_ne both.1 both.2
  · intro txId
    rw [(List.perm_insertionSort (· ≤ ·) _).mem_iff]
    exact members txId
  · intro pageId
    rw [pages, lookup_upsertAll, committed]
    simp

theorem NeedsReplay.nonempty {entries : List WalEntry} (needs : NeedsReplay entries) :
    ¬ ((replay entries).pagesToApply = [] ∧ (replay entries).uncommittedTransactions = []) := by
  rintro ⟨noPages, noneOpen⟩
  obtain ⟨txId, ⟨committed, writes⟩ | ⟨touched, unfinished, notRolledBack⟩⟩ := needs
  · obtain ⟨order, -, members, pages⟩ := (replay_applies entries).pages
    have inOrder := (members txId).mpr committed
    obtain ⟨write, member⟩ := List.exists_mem_of_ne_nil _ writes
    obtain ⟨last, found⟩ := exists_lastUpdate
      (List.mem_flatMap.mpr ⟨txId, inOrder, (show (write.1, write.2) ∈ _ from member)⟩)
    rw [← pages, noPages] at found
    cases found
  · have member := mem_uncommitted_iff.mpr ⟨touched, unfinished, notRolledBack⟩
    rw [noneOpen] at member
    cases member

/-! ## Extent writes -/

theorem track_reread (tracked : Tracked) (entry : WalEntry) :
    track tracked entry.reread = track tracked entry := by
  cases kind : entry.entryType <;> simp [track, WalEntry.reread, kind]

theorem relevantEntries_map_reread (entries : List WalEntry) :
    relevantEntries (entries.map WalEntry.reread) =
      (relevantEntries entries).map WalEntry.reread := by
  have lsn : ∀ entry : WalEntry, entry.reread.lsn = entry.lsn := fun entry => by
    unfold WalEntry.reread
    split <;> rfl
  have kind : ∀ entry : WalEntry, entry.reread.entryType = entry.entryType := fun entry => by
    unfold WalEntry.reread
    split <;> rfl
  have checkpoint : checkpointLsn (entries.map WalEntry.reread) = checkpointLsn entries := by
    simp [checkpointLsn, List.filter_map, Function.comp_def, kind, lsn]
  simp [relevantEntries, checkpoint, List.filter_map, Function.comp_def, lsn]

theorem committedIn_map_reread (entries : List WalEntry) (txId : U64) :
    CommittedIn (entries.map WalEntry.reread) txId ↔ CommittedIn entries txId := by
  have same : ∀ entry : WalEntry, entry.reread.entryType = entry.entryType ∧
      entry.reread.txId = entry.txId := fun entry => by
    unfold WalEntry.reread
    split <;> exact ⟨rfl, rfl⟩
  simp [CommittedIn, same]

theorem writesOf_map_reread (entries : List WalEntry) (txId : U64) :
    writesOf (entries.map WalEntry.reread) txId = writesOf entries txId := by
  rw [writesOf, List.filterMap_map]
  refine List.filterMap_congr fun entry _ => ?_
  cases kind : entry.entryType <;> simp [WalEntry.reread, kind]

/-- Recovery looks at an extent write only for its transaction, so reading it back with
other data changes nothing that is redone. -/
theorem replay_map_reread (entries : List WalEntry) :
    (replay (entries.map WalEntry.reread)).pagesToApply = (replay entries).pagesToApply ∧
      (replay (entries.map WalEntry.reread)).committedTransactions =
        (replay entries).committedTransactions ∧
      (replay (entries.map WalEntry.reread)).uncommittedTransactions =
        (replay entries).uncommittedTransactions := by
  by_cases empty : entries = []
  · subst empty
    exact ⟨rfl, rfl, rfl⟩
  · have nonempty : entries.map WalEntry.reread ≠ [] := by simpa using empty
    have tracked : (relevantEntries (entries.map WalEntry.reread)).foldl track ⟨[], [], []⟩ =
        (relevantEntries entries).foldl track ⟨[], [], []⟩ := by
      rw [relevantEntries_map_reread, List.foldl_map]
      simp only [track_reread]
    simp only [replay, if_neg nonempty, if_neg empty, tracked, and_self]

end JouleDB.Wal
