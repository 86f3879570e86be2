import JouleDB.Wal.Recovery

/-!
# Logs of transactions that run one after the other

When the transactions in a log have increasing ids, redoing the committed ones in the
order of their ids is redoing them in the order of the log.  Records that neither commit
nor belong to a committed transaction do not change what is redone.
-/

namespace JouleDB.Wal

open RecoveryManager

/-- A transaction: its id and its page writes in order. -/
abbrev Transaction := U64 × List (U64 × Bytes)

/-- The page writes of a list of transactions, in order. -/
def allWrites (transactions : List Transaction) : List (U64 × Bytes) :=
  transactions.flatMap Prod.snd

/-- The committed transactions of a log, by increasing id, with their page writes. -/
structure Commits (entries : List WalEntry) (transactions : List Transaction) : Prop where
  ordered : (transactions.map Prod.fst).Pairwise (· < ·)
  committed : ∀ txId, CommittedIn entries txId ↔ txId ∈ transactions.map Prod.fst
  writes : ∀ transaction ∈ transactions, writesOf entries transaction.1 = transaction.2

/-- A record that changes nothing about the transactions. -/
def Quiet (transactions : List Transaction) (entry : WalEntry) : Prop :=
  entry.entryType ≠ .commit ∧ entry.txId ∉ transactions.map Prod.fst

@[simp] theorem allWrites_nil : allWrites [] = [] := rfl

theorem allWrites_append (front back : List Transaction) :
    allWrites (front ++ back) = allWrites front ++ allWrites back := by
  simp [allWrites]

theorem allWrites_singleton (transaction : Transaction) :
    allWrites [transaction] = transaction.2 := by
  simp [allWrites]

theorem committedIn_append (front back : List WalEntry) (txId : U64) :
    CommittedIn (front ++ back) txId ↔ CommittedIn front txId ∨ CommittedIn back txId := by
  simp only [CommittedIn, List.mem_append, or_and_right, exists_or]

theorem writesOf_append (front back : List WalEntry) (txId : U64) :
    writesOf (front ++ back) txId = writesOf front txId ++ writesOf back txId :=
  List.filterMap_append

/-- A transaction without records has no writes. -/
theorem writesOf_eq_nil {entries : List WalEntry} {txId : U64}
    (absent : ∀ entry ∈ entries, entry.txId ≠ txId) : writesOf entries txId = [] := by
  rw [writesOf, List.filterMap_eq_nil_iff]
  intro entry member
  rw [if_neg fun both => absent entry member both.2]

theorem writesOf_pageWrite (lsn txId other pageId : U64) (data : Bytes) :
    writesOf [.pageWrite lsn txId pageId data] other =
      if txId = other then [(pageId, data)] else [] := by
  by_cases same : txId = other <;> simp [writesOf, WalEntry.pageWrite, same]

theorem writesOf_of_ne_pageWrite {entry : WalEntry} (kind : entry.entryType ≠ .pageWrite)
    (txId : U64) : writesOf [entry] txId = [] := by
  simp [writesOf, kind]

theorem Commits.nil : Commits [] [] where
  ordered := List.Pairwise.nil
  committed := by simp [CommittedIn]
  writes := by simp

/-- Quiet records leave the committed transactions as they are. -/
theorem Commits.quiet {entries more : List WalEntry} {transactions : List Transaction}
    (commits : Commits entries transactions) (quiet : ∀ entry ∈ more, Quiet transactions entry) :
    Commits (entries ++ more) transactions where
  ordered := commits.ordered
  committed := by
    intro txId
    have none : ¬ CommittedIn more txId := by
      rintro ⟨entry, member, kind, -⟩
      exact (quiet entry member).1 kind
    rw [committedIn_append, commits.committed]
    simp [none]
  writes := by
    intro transaction member
    have none : writesOf more transaction.1 = [] := by
      refine writesOf_eq_nil fun entry inMore same => (quiet entry inMore).2 ?_
      rw [same]
      exact List.mem_map_of_mem member
    rw [writesOf_append, none, List.append_nil, commits.writes transaction member]

theorem Commits.commit {entries : List WalEntry} {transactions : List Transaction}
    (commits : Commits entries transactions) (lsn : U64) {txId : U64}
    (last : ∀ other ∈ transactions.map Prod.fst, other < txId) :
    Commits (entries ++ [.commit lsn txId]) (transactions ++ [(txId, writesOf entries txId)]) where
  ordered := by
    rw [List.map_append, List.pairwise_append]
    refine ⟨commits.ordered, List.pairwise_singleton _ _, ?_⟩
    intro other member new isNew
    rw [List.mem_singleton.mp isNew]
    exact last other member
  committed := by
    intro other
    have single : CommittedIn [.commit lsn txId] other ↔ other = txId := by
      simp [CommittedIn, WalEntry.commit, eq_comm]
    rw [committedIn_append, commits.committed, single, List.map_append, List.mem_append]
    simp
  writes := by
    intro transaction member
    have none : writesOf [.commit lsn txId] transaction.1 = [] :=
      writesOf_of_ne_pageWrite (by simp [WalEntry.commit]) _
    rw [writesOf_append, none, List.append_nil]
    rcases List.mem_append.mp member with earlier | new
    · exact commits.writes transaction earlier
    · rw [List.mem_singleton.mp new]

/-! ## Checkpoints -/

theorem foldl_max_bounds (values : List U64) (start : U64) :
    start ≤ values.foldl max start ∧ (∀ value ∈ values, value ≤ values.foldl max start) ∧
      (values.foldl max start = start ∨ values.foldl max start ∈ values) := by
  induction values generalizing start with
  | nil => simp
  | cons value values ih =>
      obtain ⟨above, bounds, attained⟩ := ih (max start value)
      rw [List.foldl_cons]
      refine ⟨(le_max_left _ _).trans above, ?_, ?_⟩
      · intro other member
        rcases List.mem_cons.mp member with rfl | member
        · exact (le_max_right _ _).trans above
        · exact bounds other member
      · rcases attained with same | member
        · rcases max_choice start value with first | second
          · exact .inl (same.trans first)
          · exact .inr (by rw [same, second]; exact List.mem_cons_self)
        · exact .inr (List.mem_cons_of_mem _ member)

theorem checkpointLsn_append {old new : List WalEntry}
    (plain : ∀ entry ∈ new, entry.entryType ≠ .checkpoint) :
    checkpointLsn (old ++ new) = checkpointLsn old := by
  have none : new.filter (fun entry => entry.entryType = .checkpoint) = [] := by
    rw [List.filter_eq_nil_iff]
    intro entry member
    simpa using plain entry member
  rw [checkpointLsn, checkpointLsn, List.filter_append, none, List.append_nil]

theorem checkpointLsn_lt {entries : List WalEntry} {bound : U64} (positive : 0 < bound)
    (below : ∀ entry ∈ entries, entry.lsn < bound) : checkpointLsn entries < bound := by
  rw [checkpointLsn]
  rcases (foldl_max_bounds ((entries.filter fun entry => entry.entryType = .checkpoint).map
    WalEntry.lsn) 0).2.2 with zero | attained
  · rw [zero]
    exact positive
  · obtain ⟨entry, member, same⟩ := List.mem_map.mp attained
    rw [← same]
    exact below entry (List.mem_of_mem_filter member)

/-- Records without a checkpoint that follow the others are all relevant. -/
theorem relevantEntries_append {old new : List WalEntry} {first : U64} (positive : 0 < first)
    (plain : ∀ entry ∈ new, entry.entryType ≠ .checkpoint)
    (below : ∀ entry ∈ old, entry.lsn < first) (above : ∀ entry ∈ new, first ≤ entry.lsn) :
    relevantEntries (old ++ new) = relevantEntries old ++ new := by
  have kept : new.filter (fun entry => checkpointLsn old < entry.lsn) = new := by
    rw [List.filter_eq_self]
    intro entry member
    have later := lt_of_lt_of_le (checkpointLsn_lt positive below) (above entry member)
    simpa using later
  rw [relevantEntries, checkpointLsn_append plain, List.filter_append, kept]
  rfl

theorem relevantEntries_checkpointed {entries : List WalEntry} {lsn : U64}
    (below : ∀ entry ∈ entries, entry.lsn < lsn) :
    relevantEntries (entries ++ [.checkpoint lsn]) = [] := by
  have bound : lsn ≤ checkpointLsn (entries ++ [.checkpoint lsn]) := by
    refine (foldl_max_bounds _ 0).2.1 lsn ?_
    simp [WalEntry.checkpoint]
  rw [relevantEntries, List.filter_eq_nil_iff]
  intro entry member
  have atMost : entry.lsn ≤ lsn := by
    rcases List.mem_append.mp member with earlier | last
    · exact (below entry earlier).le
    · rw [List.mem_singleton.mp last]
      exact le_rfl
  simpa using atMost.trans bound

/-! ## What is redone -/

theorem flatMap_writesOf {entries : List WalEntry} {transactions : List Transaction}
    (writes : ∀ transaction ∈ transactions, writesOf entries transaction.1 = transaction.2) :
    (transactions.map Prod.fst).flatMap (writesOf entries) = allWrites transactions := by
  rw [List.flatMap_map, allWrites]
  exact List.flatMap_congr writes

/-- Recovery from a log of serial transactions redoes their writes in log order. -/
theorem lookup_replay {entries : List WalEntry} {transactions : List Transaction}
    (relevant : relevantEntries entries = entries) (commits : Commits entries transactions)
    (pageId : U64) :
    (replay entries).pagesToApply.lookup pageId = lastUpdate (allWrites transactions) pageId := by
  obtain ⟨order, sorted, members, pages⟩ := (replay_applies entries).pages
  rw [relevant] at members pages
  have same : order = transactions.map Prod.fst :=
    sorted.eq_of_mem_iff commits.ordered fun txId => by rw [members, commits.committed]
  rw [pages, same, flatMap_writesOf commits.writes]

/-- Nothing is redone when no record is relevant. -/
theorem lookup_replay_none {entries : List WalEntry} (nothing : relevantEntries entries = [])
    (pageId : U64) : (replay entries).pagesToApply.lookup pageId = none := by
  obtain ⟨order, -, -, pages⟩ := (replay_applies entries).pages
  have empty : order.flatMap (writesOf (relevantEntries entries)) = [] := by
    rw [nothing, List.flatMap_eq_nil_iff]
    exact fun txId _ => rfl
  rw [pages, empty]
  rfl

end JouleDB.Wal
