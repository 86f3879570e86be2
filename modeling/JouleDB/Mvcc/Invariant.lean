import JouleDB.Mvcc.Transaction

/-!
# The invariant of the version store

What holds between whole calls, in three layers.  The registry knows every active transaction
and a bound below all of them.  In a chain only the last version may be uncommitted, and it
belongs to the transaction whose write set has it.  For every active reader, and for every
reader still to come, the last visible version is the one that its snapshot asks for.
-/

namespace JouleDB.Mvcc

/-! ## Transactions by id -/

/-- Transactions by id. -/
abbrev Txns := TxId → Option MvccTransaction

namespace Txns

variable {txns : Txns} {txId : TxId} {txn : MvccTransaction}

/-- Replace a transaction. -/
def revise (txns : Txns) (txn : MvccTransaction) : Txns :=
  fun id => if id = txn.id then some txn else txns id

/-- A transaction committed a write of a key at a timestamp. -/
def Wrote (txns : Txns) (key : Bytes) (commitTs : Nat) (value : Option Bytes) : Prop :=
  ∃ id txn, txns id = some txn ∧ txn.state = .committed ∧ txn.commitTs = some commitTs ∧
    txn.writeSet.lookup key = some value

/-- The value of a key in the snapshot at a timestamp: what the transaction with the largest
commit timestamp up to there wrote, and nothing when there is no such transaction. -/
def Snapshot (txns : Txns) (readTs : Nat) (key : Bytes) (value : Option Bytes) : Prop :=
  (∃ commitTs, commitTs ≤ readTs ∧ txns.Wrote key commitTs value ∧
    ∀ other data, txns.Wrote key other data → other ≤ readTs → other ≤ commitTs) ∨
  (value = none ∧ ∀ other data, txns.Wrote key other data → readTs < other)

/-- Of two transactions that committed a write of one key, one read what the other wrote. -/
def FirstWins (txns : Txns) : Prop :=
  ∀ (first second : TxId) (one two : MvccTransaction) (key : Bytes) (oneTs twoTs : Nat),
    first ≠ second → txns first = some one → txns second = some two →
    one.state = .committed → two.state = .committed →
    one.commitTs = some oneTs → two.commitTs = some twoTs →
    (one.writeSet.lookup key).isSome → (two.writeSet.lookup key).isSome →
    oneTs ≤ two.readTs ∨ twoTs ≤ one.readTs

theorem revise_self : txns.revise txn txn.id = some txn := if_pos rfl

theorem revise_of_ne (other : txId ≠ txn.id) : txns.revise txn txId = txns txId := if_neg other

/-- Replacing a transaction by itself does nothing. -/
theorem revise_eq_self (known : txns txn.id = some txn) : txns.revise txn = txns := by
  funext id
  rw [revise]
  split
  next here => rw [here, known]
  next => rfl

theorem revise_cases {found : MvccTransaction} (known : txns.revise txn txId = some found) :
    (txId = txn.id ∧ found = txn) ∨ (txId ≠ txn.id ∧ txns txId = some found) := by
  by_cases here : txId = txn.id
  · subst here
    rw [revise_self, Option.some.injEq] at known
    exact Or.inl ⟨rfl, known.symm⟩
  · rw [revise_of_ne here] at known
    exact Or.inr ⟨here, known⟩

/-- A transaction that is not committed wrote nothing yet. -/
theorem wrote_revise_of_not_committed
    (before : ∀ old, txns txn.id = some old → old.state ≠ .committed)
    (after : txn.state ≠ .committed) : (txns.revise txn).Wrote = txns.Wrote := by
  funext key commitTs value
  apply propext
  constructor
  · rintro ⟨id, found, known, committed, at_, wrote⟩
    rcases revise_cases known with ⟨rfl, rfl⟩ | ⟨-, known⟩
    · exact absurd committed after
    · exact ⟨id, found, known, committed, at_, wrote⟩
  · rintro ⟨id, found, known, committed, at_, wrote⟩
    by_cases here : id = txn.id
    · subst here
      exact absurd committed (before found known)
    · exact ⟨id, found, by rw [revise_of_ne here, known], committed, at_, wrote⟩

theorem wrote_revise_of_committed {commitTs : Nat}
    (before : ∀ old, txns txn.id = some old → old.state ≠ .committed)
    (committed : txn.state = .committed) (drawn : txn.commitTs = some commitTs) {key : Bytes}
    {ts : Nat} {value : Option Bytes} :
    (txns.revise txn).Wrote key ts value ↔
      txns.Wrote key ts value ∨ (ts = commitTs ∧ txn.writeSet.lookup key = some value) := by
  constructor
  · rintro ⟨id, found, known, isCommitted, isDrawn, wrote⟩
    rcases revise_cases known with ⟨rfl, rfl⟩ | ⟨-, known⟩
    · rw [drawn, Option.some.injEq] at isDrawn
      exact Or.inr ⟨isDrawn.symm, wrote⟩
    · exact Or.inl ⟨id, found, known, isCommitted, isDrawn, wrote⟩
  · rintro (⟨id, found, known, isCommitted, isDrawn, wrote⟩ | ⟨rfl, wrote⟩)
    · refine ⟨id, found, ?_, isCommitted, isDrawn, wrote⟩
      rw [revise_of_ne, known]
      intro same
      exact before found (same ▸ known) isCommitted
    · exact ⟨txn.id, txn, revise_self, committed, drawn, wrote⟩

theorem firstWins_revise (wins : txns.FirstWins) (after : txn.state ≠ .committed) :
    (txns.revise txn).FirstWins := by
  intro first second one two key oneTs twoTs apart isOne isTwo oneCommitted twoCommitted
  rcases revise_cases isOne with ⟨-, rfl⟩ | ⟨-, isOne⟩
  · exact absurd oneCommitted after
  · rcases revise_cases isTwo with ⟨-, rfl⟩ | ⟨-, isTwo⟩
    · exact absurd twoCommitted after
    · exact wins first second one two key oneTs twoTs apart isOne isTwo oneCommitted twoCommitted

theorem snapshot_congr {other : Txns} (same : other.Wrote = txns.Wrote) :
    other.Snapshot = txns.Snapshot := by
  funext readTs key value
  rw [Snapshot, Snapshot, same]

/-- A snapshot depends only on what was committed up to its timestamp. -/
theorem Snapshot.of_agree {other : Txns} {readTs : Nat} {key : Bytes} {value : Option Bytes}
    (snapshot : txns.Snapshot readTs key value)
    (agree : ∀ ts data, ts ≤ readTs → (other.Wrote key ts data ↔ txns.Wrote key ts data)) :
    other.Snapshot readTs key value := by
  rcases snapshot with ⟨commitTs, early, wrote, largest⟩ | ⟨isNone, none⟩
  · refine Or.inl ⟨commitTs, early, (agree commitTs value early).mpr wrote, ?_⟩
    intro ts data hasWritten isEarly
    exact largest ts data ((agree ts data isEarly).mp hasWritten) isEarly
  · refine Or.inr ⟨isNone, fun ts data hasWritten => ?_⟩
    by_contra isEarly
    exact isEarly (none ts data ((agree ts data (Nat.le_of_not_lt isEarly)).mp hasWritten))

end Txns

/-! ## The registry -/

/-- The registry knows the active transactions and a bound below their timestamps. -/
structure Registry (oracle : Nat) (store : MvccStore) (txns : Txns) : Prop where
  known : ∀ id txn, txns id = some txn → txn.id = id ∧ txn.readTs = id ∧ id < oracle
  drawn : ∀ key commitTs value, txns.Wrote key commitTs value → commitTs < oracle
  later : ∀ id txn commitTs, txns id = some txn → txn.commitTs = some commitTs → id < commitTs
  nodup : ∀ id txn, txns id = some txn → (txn.writeSet.map Prod.fst).Nodup
  registered : ∀ id txn, txns id = some txn → txn.state = .active → id ∈ store.activeTxns
  live : ∀ id ∈ store.activeTxns, 0 < id ∧ id < oracle
  bound : ∀ id ∈ store.activeTxns, 0 < store.oldestActiveTs ∧ store.oldestActiveTs ≤ id
  low : store.oldestActiveTs < oracle

namespace Registry

variable {oracle : Nat} {store : MvccStore} {txns : Txns} {txn : MvccTransaction}

theorem congr {other : MvccStore} (registry : Registry oracle store txns)
    (active : other.activeTxns = store.activeTxns)
    (oldest : other.oldestActiveTs = store.oldestActiveTs) : Registry oracle other txns where
  known := registry.known
  drawn := registry.drawn
  later := registry.later
  nodup := registry.nodup
  registered := by rw [active]; exact registry.registered
  live := by rw [active]; exact registry.live
  bound := by rw [active, oldest]; exact registry.bound
  low := by rw [oldest]; exact registry.low

theorem tick (registry : Registry oracle store txns) : Registry (oracle + 1) store txns where
  known id txn found := by
    obtain ⟨isId, isTs, below⟩ := registry.known id txn found
    exact ⟨isId, isTs, Nat.lt_succ_of_lt below⟩
  drawn key commitTs value wrote := Nat.lt_succ_of_lt (registry.drawn key commitTs value wrote)
  later := registry.later
  nodup := registry.nodup
  registered := registry.registered
  live id member := ⟨(registry.live id member).1, Nat.lt_succ_of_lt (registry.live id member).2⟩
  bound := registry.bound
  low := Nat.lt_succ_of_lt registry.low

/-- A transaction changes, without becoming active again. -/
theorem revise (registry : Registry oracle store txns) {old : MvccTransaction}
    (found : txns txn.id = some old) (readTs : txn.readTs = old.readTs)
    (active : txn.state = .active → old.state = .active)
    (drawn : ∀ key commitTs value, (txns.revise txn).Wrote key commitTs value → commitTs < oracle)
    (later : ∀ commitTs, txn.commitTs = some commitTs → txn.id < commitTs)
    (nodup : (txn.writeSet.map Prod.fst).Nodup) :
    Registry oracle store (txns.revise txn) where
  known id txn' known := by
    rcases Txns.revise_cases known with ⟨rfl, rfl⟩ | ⟨-, known⟩
    · obtain ⟨-, isTs, below⟩ := registry.known _ old found
      exact ⟨rfl, readTs.trans isTs, below⟩
    · exact registry.known id txn' known
  drawn := drawn
  later id txn' commitTs known isDrawn := by
    rcases Txns.revise_cases known with ⟨rfl, rfl⟩ | ⟨-, known⟩
    · exact later commitTs isDrawn
    · exact registry.later id txn' commitTs known isDrawn
  nodup id txn' known := by
    rcases Txns.revise_cases known with ⟨-, rfl⟩ | ⟨-, known⟩
    · exact nodup
    · exact registry.nodup id txn' known
  registered id txn' known isActive := by
    rcases Txns.revise_cases known with ⟨rfl, rfl⟩ | ⟨-, known⟩
    · exact registry.registered _ old found (active isActive)
    · exact registry.registered id txn' known isActive
  live := registry.live
  bound := registry.bound
  low := registry.low

theorem register (registry : Registry oracle store txns) :
    Registry (oracle + 1) (store.registerActive oracle) (txns.revise (.new oracle)) where
  known id txn found := by
    rcases Txns.revise_cases found with ⟨rfl, rfl⟩ | ⟨-, found⟩
    · exact ⟨rfl, rfl, Nat.lt_succ_self _⟩
    · exact registry.tick.known id txn found
  drawn key commitTs value wrote := by
    rw [Txns.wrote_revise_of_not_committed] at wrote
    · exact registry.tick.drawn key commitTs value wrote
    · intro old found
      exact absurd (registry.known oracle old found).2.2 (Nat.lt_irrefl oracle)
    · exact TxState.noConfusion
  later id txn commitTs found isDrawn := by
    rcases Txns.revise_cases found with ⟨-, rfl⟩ | ⟨-, found⟩
    · cases isDrawn
    · exact registry.later id txn commitTs found isDrawn
  nodup id txn found := by
    rcases Txns.revise_cases found with ⟨-, rfl⟩ | ⟨-, found⟩
    · exact List.nodup_nil
    · exact registry.nodup id txn found
  registered id txn found isActive := by
    rw [MvccStore.mem_registerActive]
    rcases Txns.revise_cases found with ⟨rfl, -⟩ | ⟨-, found⟩
    · exact Or.inr rfl
    · exact Or.inl (registry.registered id txn found isActive)
  live id member := by
    rcases MvccStore.mem_registerActive.mp member with old | rfl
    · exact registry.tick.live id old
    · exact ⟨Nat.lt_of_le_of_lt (Nat.zero_le _) registry.low, Nat.lt_succ_self id⟩
  bound id member := by
    have positive := Nat.lt_of_le_of_lt (Nat.zero_le _) registry.low
    rw [MvccStore.registerActive]
    dsimp only
    rcases MvccStore.mem_registerActive.mp member with old | rfl
    · obtain ⟨above, below⟩ := registry.bound id old
      rw [if_neg]
      · exact ⟨above, below⟩
      · exact fun lower => lower.elim (Nat.ne_of_gt above) (Nat.lt_asymm registry.low)
    · split
      next => exact ⟨positive, Nat.le_refl id⟩
      next kept =>
        rw [not_or] at kept
        exact ⟨Nat.pos_of_ne_zero kept.1, Nat.le_of_lt registry.low⟩
  low := by
    rw [MvccStore.registerActive]
    dsimp only
    split
    next => exact Nat.lt_succ_self oracle
    next => exact Nat.lt_succ_of_lt registry.low

/-- A transaction that is not active any more leaves. -/
theorem unregister (registry : Registry oracle store txns) {txId : TxId}
    (ended : ∀ txn, txns txId = some txn → txn.state ≠ .active) :
    Registry oracle (store.unregisterActive txId) txns where
  known := registry.known
  drawn := registry.drawn
  later := registry.later
  nodup := registry.nodup
  registered id txn found isActive := by
    refine MvccStore.mem_unregisterActive.mpr ⟨registry.registered id txn found isActive, ?_⟩
    intro same
    exact ended txn (same ▸ found) isActive
  live id member := registry.live id (MvccStore.mem_unregisterActive.mp member).1
  bound id member := by
    cases least : (store.unregisterActive txId).activeTxns.min? with
    | none =>
        rw [List.min?_eq_none_iff.mp least] at member
        cases member
    | some oldest =>
        have isOldest : (store.unregisterActive txId).oldestActiveTs = oldest := by
          exact congrArg (fun first => first.getD 0) least
        obtain ⟨present, smallest⟩ := List.min?_eq_some_iff.mp least
        rw [isOldest]
        exact ⟨(registry.live oldest (MvccStore.mem_unregisterActive.mp present).1).1,
          smallest id member⟩
  low := by
    cases least : (store.unregisterActive txId).activeTxns.min? with
    | none =>
        have isOldest : (store.unregisterActive txId).oldestActiveTs = 0 := by
          exact congrArg (fun first => first.getD 0) least
        rw [isOldest]
        exact Nat.lt_of_le_of_lt (Nat.zero_le _) registry.low
    | some oldest =>
        have isOldest : (store.unregisterActive txId).oldestActiveTs = oldest := by
          exact congrArg (fun first => first.getD 0) least
        rw [isOldest]
        have present := (List.min?_eq_some_iff.mp least).1
        exact (registry.live oldest (MvccStore.mem_unregisterActive.mp present).1).2

/-- The bound is not above any active reader, nor above a reader still to come. -/
theorem bound_le (registry : Registry oracle store txns) {readTs : Nat}
    (reader : readTs ∈ store.activeTxns ∨ oracle ≤ readTs) : store.oldestActiveTs ≤ readTs := by
  rcases reader with active | later
  · exact (registry.bound readTs active).2
  · exact (Nat.le_of_lt registry.low).trans later

end Registry

/-! ## The chains -/

/-- The uncommitted version that a transaction has for a value. -/
def ownVersion (txId : TxId) (value : Option Bytes) : Version := ⟨value, txId, txId, false⟩

/-- The version that a write set has in the chain of a key. -/
def MvccTransaction.ownAt (txn : MvccTransaction) (key : Bytes) : Option Version :=
  (txn.writeSet.lookup key).map (ownVersion txn.id)

theorem MvccTransaction.ownAt_write (txn : MvccTransaction) (key other : Bytes)
    (value : Option Bytes) :
    ({ txn with writeSet := upsert txn.writeSet key value } : MvccTransaction).ownAt other =
      if other = key then some (ownVersion txn.id value) else txn.ownAt other := by
  rw [ownAt, lookup_upsert]
  split <;> rfl

/-- At most the last version of a chain is uncommitted; it belongs to a registered
transaction.  An active transaction has the versions of its write set and no others. -/
structure Chains (store : MvccStore) (txns : Txns) : Prop where
  nodup : (store.chains.map Prod.fst).Nodup
  ordered : ∀ key, (store.versions key).Pairwise fun earlier _ => earlier.committed = true
  authored : ∀ key, ∀ version ∈ store.versions key, version.committed = true →
    ∃ txn, txns version.createdBy = some txn ∧ txn.state = .committed
  pending : ∀ key, ∀ version ∈ store.versions key, version.committed = false →
    version.createdBy ∈ store.activeTxns
  owned : ∀ txn, txns txn.id = some txn → txn.state = .active → ∀ key,
    lastWith (VersionChain.isBy txn.id) (store.versions key) = txn.ownAt key
  covered : ∀ key, ∀ version ∈ store.versions key, version.committed = true →
    store.Covers key version.writeTs

/-- The version at the end of a chain is exchanged; everything before it is committed by other
transactions. -/
def Exchanged (txId : TxId) (old new : Option Version) (before after : List Version) : Prop :=
  ∃ front, before = front ++ old.toList ∧ after = front ++ new.toList ∧
    ∀ version ∈ front, version.committed = true ∧ version.createdBy ≠ txId

namespace Exchanged

variable {txId : TxId} {old new : Option Version} {before after : List Version}

theorem ordered (exchanged : Exchanged txId old new before after) :
    after.Pairwise fun earlier _ => earlier.committed = true := by
  obtain ⟨front, -, rfl, settled⟩ := exchanged
  rw [List.pairwise_append]
  refine ⟨?_, ?_, fun earlier member _ _ => (settled earlier member).1⟩
  · exact List.pairwise_of_forall_mem_list fun earlier member _ _ => (settled earlier member).1
  · cases new <;> simp

theorem mem_after (exchanged : Exchanged txId old new before after) {version : Version}
    (member : version ∈ after) :
    (version ∈ before ∧ version.committed = true ∧ version.createdBy ≠ txId) ∨
      new = some version := by
  obtain ⟨front, rfl, rfl, settled⟩ := exchanged
  rcases List.mem_append.mp member with inFront | isNew
  · exact Or.inl ⟨List.mem_append_left _ inFront, settled version inFront⟩
  · exact Or.inr (Option.mem_toList.mp isNew)

theorem mem_after_of_ne (exchanged : Exchanged txId old new before after) {version : Version}
    (member : version ∈ before) (notOld : old ≠ some version) : version ∈ after := by
  obtain ⟨front, rfl, rfl, -⟩ := exchanged
  rcases List.mem_append.mp member with inFront | isOld
  · exact List.mem_append_left _ inFront
  · exact absurd (Option.mem_toList.mp isOld) notOld

/-- A search that finds neither version finds the same as before. -/
theorem lastWith_eq (exchanged : Exchanged txId old new before after) {property : Version → Bool}
    (notOld : ∀ version, old = some version → property version = false)
    (notNew : ∀ version, new = some version → property version = false) :
    lastWith property after = lastWith property before := by
  obtain ⟨front, rfl, rfl, -⟩ := exchanged
  have noneOld : lastWith property old.toList = none := by
    rw [lastWith_eq_none]
    exact fun version member => notOld version (Option.mem_toList.mp member)
  have noneNew : lastWith property new.toList = none := by
    rw [lastWith_eq_none]
    exact fun version member => notNew version (Option.mem_toList.mp member)
  rw [lastWith_append, lastWith_append, noneOld, noneNew]

theorem lastWith_new (exchanged : Exchanged txId old new before after) {property : Version → Bool}
    {version : Version} (isNew : new = some version) (holds : property version = true) :
    lastWith property after = some version := by
  obtain ⟨front, -, rfl, -⟩ := exchanged
  rw [isNew, Option.toList_some, lastWith_concat, if_pos holds]

theorem lastWith_own (exchanged : Exchanged txId old new before after)
    (byTxn : ∀ version, new = some version → version.createdBy = txId) :
    lastWith (VersionChain.isBy txId) after = new := by
  cases isNew : new with
  | some version =>
      exact exchanged.lastWith_new isNew (by simp [VersionChain.isBy, byTxn version isNew])
  | none =>
      obtain ⟨front, -, rfl, settled⟩ := exchanged
      rw [isNew, Option.toList_none, List.append_nil, lastWith_eq_none]
      intro version member
      simp [VersionChain.isBy, (settled version member).2]

end Exchanged

/-- What a turn of a transaction does to the chains: at each key its version is exchanged, or it
has none there before and after. -/
structure Turn (txId : TxId) (old new : Bytes → Option Version) (before after : MvccStore) :
    Prop where
  nodup : (after.chains.map Prod.fst).Nodup
  tails : ∀ key, (old key = none ∧ new key = none ∧ after.versions key = before.versions key) ∨
    Exchanged txId (old key) (new key) (before.versions key) (after.versions key)
  covers : ∀ key ts, before.Covers key ts → after.Covers key ts
  active : ∀ id, id ≠ txId → (id ∈ after.activeTxns ↔ id ∈ before.activeTxns)

namespace Chains

variable {store after : MvccStore} {txns : Txns} {txn : MvccTransaction} {key : Bytes}

/-- An active transaction has no committed versions. -/
theorem not_committed (chains : Chains store txns) (found : txns txn.id = some txn)
    (active : txn.state = .active) {version : Version} (member : version ∈ store.versions key)
    (committed : version.committed = true) : version.createdBy ≠ txn.id := by
  intro same
  obtain ⟨author, known, isCommitted⟩ := chains.authored key version member committed
  rw [same, found, Option.some.injEq] at known
  rw [← known, active] at isCommitted
  cases isCommitted

/-- The version that an active transaction has is at the end of the chain. -/
theorem ends_with_own (chains : Chains store txns) (found : txns txn.id = some txn)
    (active : txn.state = .active) {version : Version} (own : txn.ownAt key = some version) :
    ∃ front, store.versions key = front ++ [version] ∧
      ∀ earlier ∈ front, earlier.committed = true ∧ earlier.createdBy ≠ txn.id := by
  obtain ⟨front, back, split, -, -⟩ :=
    lastWith_eq_some ((chains.owned txn found active key).trans own)
  obtain ⟨value, -, rfl⟩ := Option.map_eq_some_iff.mp own
  have ordered := chains.ordered key
  rw [split, List.pairwise_append, List.pairwise_cons] at ordered
  obtain ⟨-, ⟨last, -⟩, settled⟩ := ordered
  have noBack : back = [] := by
    cases back with
    | nil => rfl
    | cons later rest => cases last later List.mem_cons_self
  subst noBack
  refine ⟨front, split, fun earlier member => ?_⟩
  have committed := settled earlier member _ List.mem_cons_self
  have inChain : earlier ∈ store.versions key := by
    rw [split]
    exact List.mem_append_left _ member
  exact ⟨committed, chains.not_committed found active inChain committed⟩

theorem not_own (chains : Chains store txns) (found : txns txn.id = some txn)
    (active : txn.state = .active) (noOwn : txn.ownAt key = none) {version : Version}
    (member : version ∈ store.versions key) : version.createdBy ≠ txn.id := by
  have none := lastWith_eq_none.mp ((chains.owned txn found active key).trans noOwn)
  simpa [VersionChain.isBy] using none version member

/-- The chains after a turn of an active transaction. -/
theorem turn (chains : Chains store txns) {old : MvccTransaction} {new : Bytes → Option Version}
    (found : txns old.id = some old) (active : old.state = .active) (same : txn.id = old.id)
    (turn : Turn old.id old.ownAt new store after)
    (byTxn : ∀ key version, new key = some version → version.createdBy = old.id)
    (committed : ∀ key version, new key = some version → version.committed = true →
      txn.state = .committed ∧ after.Covers key version.writeTs)
    (pending : ∀ key version, new key = some version → version.committed = false →
      old.id ∈ after.activeTxns)
    (owned : txn.state = .active → ∀ key, new key = txn.ownAt key) :
    Chains after (txns.revise txn) where
  nodup := turn.nodup
  ordered key := by
    rcases turn.tails key with ⟨-, -, unchanged⟩ | exchanged
    · rw [unchanged]
      exact chains.ordered key
    · exact exchanged.ordered
  authored key version member isCommitted := by
    have before : version ∈ store.versions key → version.createdBy ≠ old.id →
        ∃ author, txns.revise txn version.createdBy = some author ∧ author.state = .committed := by
      intro member other
      rw [Txns.revise_of_ne (same ▸ other)]
      exact chains.authored key version member isCommitted
    rcases turn.tails key with ⟨-, -, unchanged⟩ | exchanged
    · rw [unchanged] at member
      exact before member (chains.not_committed found active member isCommitted)
    · rcases exchanged.mem_after member with ⟨member, -, other⟩ | isNew
      · exact before member other
      · refine ⟨txn, ?_, (committed key version isNew isCommitted).1⟩
        rw [byTxn key version isNew, ← same, Txns.revise_self]
  pending key version member isPending := by
    rcases turn.tails key with ⟨noOld, -, unchanged⟩ | exchanged
    · rw [unchanged] at member
      rw [turn.active _ (chains.not_own found active noOld member)]
      exact chains.pending key version member isPending
    · rcases exchanged.mem_after member with ⟨-, isCommitted, -⟩ | isNew
      · rw [isPending] at isCommitted
        cases isCommitted
      · rw [byTxn key version isNew]
        exact pending key version isNew isPending
  owned reader known isActive key := by
    rcases Txns.revise_cases known with ⟨-, rfl⟩ | ⟨other, known⟩
    · rcases turn.tails key with ⟨noOld, noNew, unchanged⟩ | exchanged
      · rw [unchanged, same, chains.owned old found active, noOld, ← owned isActive, noNew]
      · rw [same, exchanged.lastWith_own (byTxn key), owned isActive]
    · rw [← chains.owned reader known isActive key]
      rcases turn.tails key with ⟨-, -, unchanged⟩ | exchanged
      · rw [unchanged]
      · rw [same] at other
        refine exchanged.lastWith_eq ?_ ?_
        · intro version isOld
          obtain ⟨value, -, rfl⟩ := Option.map_eq_some_iff.mp isOld
          exact decide_eq_false other.symm
        · intro version isNew
          rw [VersionChain.isBy, byTxn key version isNew]
          exact decide_eq_false other.symm
  covered key version member isCommitted := by
    rcases turn.tails key with ⟨-, -, unchanged⟩ | exchanged
    · rw [unchanged] at member
      exact turn.covers _ _ (chains.covered key version member isCommitted)
    · rcases exchanged.mem_after member with ⟨member, -, -⟩ | isNew
      · exact turn.covers _ _ (chains.covered key version member isCommitted)
      · exact (committed key version isNew isCommitted).2

theorem unchanged (chains : Chains store txns) (found : txns txn.id = some txn)
    (active : txn.state = .active) (same : after.versions key = store.versions key) :
    (txn.ownAt key = none ∧ txn.ownAt key = none ∧ after.versions key = store.versions key) ∨
      Exchanged txn.id (txn.ownAt key) (txn.ownAt key) (store.versions key)
        (after.versions key) := by
  cases own : txn.ownAt key with
  | none => exact Or.inl ⟨rfl, rfl, same⟩
  | some version =>
      obtain ⟨front, split, settled⟩ := chains.ends_with_own found active own
      exact Or.inr ⟨front, split, same.trans split, settled⟩

/-- Without a conflict every other version of the key is committed. -/
theorem committed_of_no_conflict
    (free : store.checkWriteConflictDetailed key txn.id = none) {version : Version}
    (member : version ∈ store.versions key) (other : version.createdBy ≠ txn.id) :
    version.committed = true := by
  rw [MvccStore.checkWriteConflictDetailed] at free
  rw [MvccStore.versions] at member
  cases present : store.chain key with
  | none => simp [present] at member
  | some chain =>
      rw [present, Option.map_some, Option.getD_some] at member
      rw [present, Option.bind_some, Option.map_eq_none_iff, lastWith_eq_none] at free
      have notForeign := free version member
      simpa [MvccStore.isForeign, other] using notForeign

theorem turn_write (chains : Chains store txns) (found : txns txn.id = some txn)
    (active : txn.state = .active) (free : store.checkWriteConflictDetailed key txn.id = none)
    (value : Option Bytes) :
    Turn txn.id txn.ownAt
      (fun other => if other = key then some (ownVersion txn.id value) else txn.ownAt other)
      store (store.writeIntent key value txn.id txn.id).1 where
  nodup := (MvccStore.writeIntent_keeps chains.nodup value txn.id).1
  covers other ts := MvccStore.covers_writeIntent
  active id _ := by rw [(MvccStore.writeIntent_keeps chains.nodup value txn.id).2.1]
  tails other := by
    have versions : (store.writeIntent key value txn.id txn.id).1.versions other = _ :=
      MvccStore.versions_writeIntent value txn.id
    by_cases here : other = key
    · subst here
      rw [if_pos rfl, chains.owned txn found active] at versions
      rw [if_pos rfl]
      refine Or.inr ?_
      cases own : txn.ownAt other with
      | none =>
          refine ⟨store.versions other, by simp, ?_, fun version member => ?_⟩
          · rw [versions, own, if_pos rfl]
            rfl
          · have notOwn := chains.not_own found active own member
            exact ⟨committed_of_no_conflict free member notOwn, notOwn⟩
      | some version =>
          obtain ⟨front, split, settled⟩ := chains.ends_with_own found active own
          obtain ⟨data, -, rfl⟩ := Option.map_eq_some_iff.mp own
          refine ⟨front, split, ?_, settled⟩
          rw [versions, own, if_neg (Option.some_ne_none _), split]
          exact modifyLast_append (decide_eq_true rfl) (fun _ later => nomatch later)
    · rw [if_neg here] at versions ⊢
      exact chains.unchanged found active versions

theorem mem_keys_iff : key ∈ txn.keys ↔ txn.ownAt key ≠ none := by
  rw [MvccTransaction.keys, ← isSome_lookup_iff, MvccTransaction.ownAt]
  cases txn.writeSet.lookup key <;> simp

theorem turn_commit (chains : Chains store txns) (found : txns txn.id = some txn)
    (active : txn.state = .active) (commitTs : Nat) :
    Turn txn.id txn.ownAt (fun key => (txn.ownAt key).map (Version.mark commitTs)) store
      ((store.commitTransactionWithTsKeys txn.id commitTs txn.keys).unregisterActive txn.id) where
  nodup := (MvccStore.commitTransactionWithTsKeys_keeps chains.nodup commitTs txn.keys).1
  covers other ts := MvccStore.covers_commitTransactionWithTsKeys
  active id other := by
    rw [MvccStore.mem_unregisterActive,
      (MvccStore.commitTransactionWithTsKeys_keeps chains.nodup commitTs txn.keys).2.1]
    exact and_iff_left other
  tails key := by
    rw [MvccStore.versions_unregisterActive, MvccStore.versions_commitTransactionWithTsKeys]
    cases own : txn.ownAt key with
    | none => exact Or.inl ⟨rfl, rfl, if_neg fun member => mem_keys_iff.mp member own⟩
    | some version =>
        obtain ⟨front, split, settled⟩ := chains.ends_with_own found active own
        have member : key ∈ txn.keys := mem_keys_iff.mpr (own ▸ Option.some_ne_none version)
        obtain ⟨data, -, rfl⟩ := Option.map_eq_some_iff.mp own
        refine Or.inr ⟨front, split, ?_, settled⟩
        rw [if_pos member, split]
        exact modifyLast_append (decide_eq_true rfl) (fun _ later => nomatch later)

theorem turn_discard (chains : Chains store txns) (found : txns txn.id = some txn)
    (active : txn.state = .active) :
    Turn txn.id txn.ownAt (fun _ => none) store
      ((store.abortTransactionKeys txn.id txn.keys).unregisterActive txn.id) where
  nodup := (MvccStore.abortTransactionKeys_keeps chains.nodup txn.keys).1
  covers other ts := MvccStore.covers_abortTransactionKeys
  active id other := by
    rw [MvccStore.mem_unregisterActive,
      (MvccStore.abortTransactionKeys_keeps chains.nodup txn.keys).2.1]
    exact and_iff_left other
  tails key := by
    rw [MvccStore.versions_unregisterActive, MvccStore.versions_abortTransactionKeys]
    cases own : txn.ownAt key with
    | none => exact Or.inl ⟨rfl, rfl, if_neg fun member => mem_keys_iff.mp member own⟩
    | some version =>
        obtain ⟨front, split, settled⟩ := chains.ends_with_own found active own
        have member : key ∈ txn.keys := mem_keys_iff.mpr (own ▸ Option.some_ne_none version)
        obtain ⟨data, -, rfl⟩ := Option.map_eq_some_iff.mp own
        refine Or.inr ⟨front, split, ?_, settled⟩
        have kept : front.filter (fun version =>
            version.createdBy ≠ txn.id || version.committed) = front :=
          List.filter_eq_self.mpr fun version member => by simp [(settled version member).1]
        rw [if_pos member, split, List.filter_append, kept]
        simp [ownVersion]

end Chains

/-! ## The reads -/

/-- What readers see: for each of them the last visible version is the one of its snapshot, and
the versions that are too new for it are still there. -/
structure Reads (oracle : Nat) (store : MvccStore) (txns : Txns) : Prop where
  snapshot : ∀ key readTs, readTs ∈ store.activeTxns ∨ oracle ≤ readTs →
    txns.Snapshot readTs key
      ((lastWith (VersionChain.isVisible readTs) (store.versions key)).bind Version.data)
  kept : ∀ key commitTs value, txns.Wrote key commitTs value → ∀ readTs ∈ store.activeTxns,
    readTs < commitTs →
    ∃ version ∈ store.versions key, version.committed = true ∧ version.writeTs = commitTs
  firstWins : txns.FirstWins

theorem not_visible_of_pending {version : Version} (pending : version.committed = false)
    (readTs : Nat) : VersionChain.isVisible readTs version = false := by
  rw [VersionChain.isVisible, pending, Bool.false_and]

theorem pending_of_ownAt {txn : MvccTransaction} {key : Bytes} {version : Version}
    (own : txn.ownAt key = some version) : version.committed = false := by
  obtain ⟨value, -, rfl⟩ := Option.map_eq_some_iff.mp own
  rfl

namespace Reads

variable {oracle : Nat} {store after : MvccStore} {txns : Txns} {txn : MvccTransaction}

/-- A search for visible versions after a turn whose new versions are not visible. -/
theorem lastWith_visible {old : MvccTransaction} {new : Bytes → Option Version}
    (turn : Turn old.id old.ownAt new store after) {key : Bytes} {readTs : Nat}
    (hidden : ∀ version, new key = some version → VersionChain.isVisible readTs version = false) :
    lastWith (VersionChain.isVisible readTs) (after.versions key) =
      lastWith (VersionChain.isVisible readTs) (store.versions key) := by
  rcases turn.tails key with ⟨-, -, same⟩ | exchanged
  · rw [same]
  · refine exchanged.lastWith_eq (fun version own => ?_) hidden
    exact not_visible_of_pending (pending_of_ownAt own) readTs

theorem mem_turn {old : MvccTransaction} {new : Bytes → Option Version}
    (turn : Turn old.id old.ownAt new store after) {key : Bytes} {version : Version}
    (member : version ∈ store.versions key) (committed : version.committed = true) :
    version ∈ after.versions key := by
  rcases turn.tails key with ⟨-, -, same⟩ | exchanged
  · rw [same]
    exact member
  · refine exchanged.mem_after_of_ne member fun own => ?_
    rw [pending_of_ownAt own] at committed
    cases committed

theorem turn (reads : Reads oracle store txns) {old : MvccTransaction}
    {new : Bytes → Option Version} (turn : Turn old.id old.ownAt new store after)
    (pending : ∀ key version, new key = some version → version.committed = false)
    (fewer : ∀ id ∈ after.activeTxns, id ∈ store.activeTxns)
    (wrote : (txns.revise txn).Wrote = txns.Wrote) (open_ : txn.state ≠ .committed) :
    Reads oracle after (txns.revise txn) where
  snapshot key readTs reader := by
    rw [Txns.snapshot_congr wrote, lastWith_visible turn fun version isNew =>
      not_visible_of_pending (pending key version isNew) readTs]
    exact reads.snapshot key readTs (reader.imp_left (fewer readTs))
  kept key commitTs value hasWritten readTs member earlier := by
    rw [wrote] at hasWritten
    obtain ⟨version, inChain, committed, isTs⟩ :=
      reads.kept key commitTs value hasWritten readTs (fewer readTs member) earlier
    exact ⟨version, mem_turn turn inChain committed, committed, isTs⟩
  firstWins := Txns.firstWins_revise reads.firstWins open_

end Reads

/-- The invariant between whole calls. -/
structure Sound (oracle : Nat) (store : MvccStore) (txns : Txns) : Prop where
  registry : Registry oracle store txns
  chains : Chains store txns
  reads : Reads oracle store txns

end JouleDB.Mvcc
