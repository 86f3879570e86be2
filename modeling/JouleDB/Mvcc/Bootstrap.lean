import JouleDB.Mvcc.Calls

/-!
# Bootstrap rows and savepoints

A store may be seeded with committed rows, which carry the transaction id 0.  A transaction may
take a copy of its writes and put it back later; the versions in the store are not touched by that.
Whatever is called, a chain has its committed versions first, and those of transactions stand in
the order of their commits.
-/

namespace JouleDB.Mvcc

/-! ## Definitions -/

namespace MvccStore

/-- Insert a committed version directly into the store. -/
def insertCommitted (store : MvccStore) (key value : Bytes) (commitTs : Nat) : MvccStore :=
  let chain := ((store.chain key).getD VersionChain.new).addVersion ⟨some value, commitTs, 0, true⟩
  let chain := match chain.cachedLatestCommittedTs with
    | some cached =>
        if cached ≥ commitTs then chain
        else { chain with cachedLatestCommittedTs := some commitTs }
    | none => { chain with cachedLatestCommittedTs := some commitTs }
  { store with chains := upsert store.chains key chain }

/-- A row to seed a store with. -/
structure Row where
  key : Bytes
  value : Bytes
  commitTs : Nat
  deriving DecidableEq, Repr

/-- Insert rows one after the other. -/
def seed (store : MvccStore) (rows : List Row) : MvccStore :=
  rows.foldl (fun store row => store.insertCommitted row.key row.value row.commitTs) store

end MvccStore

namespace MvccTransaction

/-- A copy of the writes. -/
def writeSetSnapshot (txn : MvccTransaction) : List (Bytes × Option Bytes) := txn.writeSet

/-- Put a copy of the writes back. -/
def restoreWriteSet (txn : MvccTransaction) (snapshot : List (Bytes × Option Bytes)) :
    MvccTransaction :=
  { txn with writeSet := upsertAll [] snapshot }

end MvccTransaction

/-- A call, or a transaction puts a copy of its writes back. -/
inductive SavepointCall where
  | call (call : Call)
  | restoreWriteSet (txId : TxId) (snapshot : List (Bytes × Option Bytes))

namespace World

/-- A store with some rows. -/
def seeded (gcThreshold drawn : Nat) (rows : List MvccStore.Row) : World :=
  { World.new gcThreshold drawn with store := (MvccStore.withGcThreshold gcThreshold).seed rows }

/-- Make a call. -/
def savepointStep (world : World) : SavepointCall → Reply × World
  | .call call => world.step call
  | .restoreWriteSet txId snapshot => world.onTxn txId fun txn =>
      (.nothing, world.record (txn.restoreWriteSet snapshot) world.store)

/-- The world after some calls. -/
def afterSavepoints (world : World) (calls : List SavepointCall) : World :=
  calls.foldl (fun world call => (world.savepointStep call).2) world

end World

/-! ## The order of a chain -/

/-- What holds of the chains whether or not savepoints are used: at most the last version of a
chain is uncommitted, the versions of an active transaction are uncommitted, and commits stand in
their order. -/
structure Tidy (oracle : Nat) (store : MvccStore) (txns : Txns) : Prop where
  nodup : (store.chains.map Prod.fst).Nodup
  known : ∀ id txn, txns id = some txn → txn.id = id ∧ txn.readTs = id ∧ 0 < id ∧ id < oracle
  distinct : ∀ id txn, txns id = some txn → (txn.writeSet.map Prod.fst).Nodup
  positive : 0 < oracle
  ordered : ∀ key, (store.versions key).Pairwise fun earlier _ => earlier.committed = true
  begun : ∀ key, ∀ version ∈ store.versions key, version.createdBy < oracle
  open_ : ∀ key, ∀ version ∈ store.versions key, ∀ txn, txns version.createdBy = some txn →
    txn.state = .active → version.committed = false
  seeds : ∀ key, ∀ version ∈ store.versions key, version.createdBy = 0 →
    version.committed = true ∧ version.data ≠ none
  timed : ∀ key, (store.versions key).Pairwise fun earlier later =>
    0 < earlier.createdBy → 0 < later.createdBy → later.committed = true →
      earlier.writeTs < later.writeTs
  drawn : ∀ key, ∀ version ∈ store.versions key, 0 < version.createdBy →
    version.committed = true → version.writeTs < oracle

namespace Tidy

variable {oracle : Nat} {store : MvccStore} {txns : Txns} {txn : MvccTransaction}

/-- How a chain may change: versions are dropped, or the committed versions get a new one behind
them. -/
inductive Tail (oracle oracle' : Nat) (txns' : Txns) (before after : List Version) : Prop where
  | dropped (fewer : after.Sublist before)
  | added (front : List Version) (new : Version) (split : after = front ++ [new])
      (fewer : front.Sublist before) (settled : ∀ version ∈ front, version.committed = true)
      (positive : 0 < new.createdBy) (begun : new.createdBy < oracle')
      (open_ : ∀ txn, txns' new.createdBy = some txn → txn.state = .active →
        new.committed = false)
      (drawn : new.committed = true → oracle ≤ new.writeTs ∧ new.writeTs < oracle')

/-- The chains stay tidy when each of them changes in that way. -/
theorem rebuild (tidy : Tidy oracle store txns) {oracle' : Nat} {after : MvccStore} {txns' : Txns}
    (later : oracle ≤ oracle') (nodup : (after.chains.map Prod.fst).Nodup)
    (known : ∀ id txn, txns' id = some txn → txn.id = id ∧ txn.readTs = id ∧ 0 < id ∧ id < oracle')
    (distinct : ∀ id txn, txns' id = some txn → (txn.writeSet.map Prod.fst).Nodup)
    (active : ∀ id txn, txns' id = some txn → txn.state = .active → id < oracle →
      ∃ txn, txns id = some txn ∧ txn.state = .active)
    (tails : ∀ key, Tail oracle oracle' txns' (store.versions key) (after.versions key)) :
    Tidy oracle' after txns' where
  nodup := nodup
  known := known
  distinct := distinct
  positive := tidy.positive.trans_le later
  ordered key := by
    cases tails key with
    | dropped fewer => exact (tidy.ordered key).sublist fewer
    | added front new split fewer settled =>
        rw [split, List.pairwise_append]
        exact ⟨(tidy.ordered key).sublist fewer, List.pairwise_singleton _ _,
          fun earlier member _ _ => settled earlier member⟩
  begun key version member := by
    cases tails key with
    | dropped fewer => exact (tidy.begun key version (fewer.subset member)).trans_le later
    | added front new split fewer settled positive begun =>
        rw [split, List.mem_append, List.mem_singleton] at member
        rcases member with member | rfl
        · exact (tidy.begun key version (fewer.subset member)).trans_le later
        · exact begun
  open_ key version member txn found isActive := by
    have old : version ∈ store.versions key → version.committed = false := by
      intro member
      obtain ⟨before, known, wasActive⟩ :=
        active _ txn found isActive (tidy.begun key version member)
      exact tidy.open_ key version member before known wasActive
    cases tails key with
    | dropped fewer => exact old (fewer.subset member)
    | added front new split fewer settled positive begun open_ =>
        rw [split, List.mem_append, List.mem_singleton] at member
        rcases member with member | rfl
        · exact old (fewer.subset member)
        · exact open_ txn found isActive
  seeds key version member isSeed := by
    cases tails key with
    | dropped fewer => exact tidy.seeds key version (fewer.subset member) isSeed
    | added front new split fewer settled positive =>
        rw [split, List.mem_append, List.mem_singleton] at member
        rcases member with member | rfl
        · exact tidy.seeds key version (fewer.subset member) isSeed
        · exact absurd isSeed (Nat.ne_of_gt positive)
  timed key := by
    cases tails key with
    | dropped fewer => exact (tidy.timed key).sublist fewer
    | added front new split fewer settled positive begun open_ drawn =>
        rw [split, List.pairwise_append]
        refine ⟨(tidy.timed key).sublist fewer, List.pairwise_singleton _ _, ?_⟩
        intro earlier member version isNew isTxn _ committed
        cases List.mem_singleton.mp isNew
        exact (tidy.drawn key earlier (fewer.subset member) isTxn
          (settled earlier member)).trans_le (drawn committed).1
  drawn key version member isTxn committed := by
    cases tails key with
    | dropped fewer =>
        exact (tidy.drawn key version (fewer.subset member) isTxn committed).trans_le later
    | added front new split fewer settled positive begun open_ drawn =>
        rw [split, List.mem_append, List.mem_singleton] at member
        rcases member with member | rfl
        · exact (tidy.drawn key version (fewer.subset member) isTxn committed).trans_le later
        · exact (drawn committed).2

/-- The version of an active transaction is uncommitted and stands behind the committed ones. -/
theorem ends_with_own (tidy : Tidy oracle store txns) (found : txns txn.id = some txn)
    (active : txn.state = .active) {key : Bytes} {version : Version}
    (own : lastWith (VersionChain.isBy txn.id) (store.versions key) = some version) :
    version.createdBy = txn.id ∧ version.committed = false ∧
      ∃ front, store.versions key = front ++ [version] ∧
        ∀ earlier ∈ front, earlier.committed = true ∧ earlier.createdBy ≠ txn.id := by
  obtain ⟨front, back, split, holds, -⟩ := lastWith_eq_some own
  have isOwn : version.createdBy = txn.id := of_decide_eq_true holds
  have pending : ∀ other ∈ store.versions key, other.createdBy = txn.id →
      other.committed = false :=
    fun other member same => tidy.open_ key other member txn (same ▸ found) active
  have open_ : version.committed = false := by
    refine pending version ?_ isOwn
    rw [split]
    exact List.mem_append_right _ List.mem_cons_self
  have ordered := tidy.ordered key
  rw [split, List.pairwise_append, List.pairwise_cons] at ordered
  obtain ⟨-, ⟨last, -⟩, settled⟩ := ordered
  have noBack : back = [] := by
    cases back with
    | nil => rfl
    | cons next rest => cases open_.symm.trans (last next List.mem_cons_self)
  subst noBack
  refine ⟨isOwn, open_, front, split, fun earlier member => ?_⟩
  have committed := settled earlier member version List.mem_cons_self
  refine ⟨committed, fun same => ?_⟩
  have inChain : earlier ∈ store.versions key := by
    rw [split]
    exact List.mem_append_left _ member
  cases committed.symm.trans (pending earlier inChain same)

/-- A transaction changes, without becoming active again, and so do the chains. -/
theorem revise (tidy : Tidy oracle store txns) {old : MvccTransaction} {oracle' : Nat}
    {after : MvccStore} (found : txns old.id = some old) (same : txn.id = old.id)
    (readTs : txn.readTs = old.readTs) (active : txn.state = .active → old.state = .active)
    (distinct : (txn.writeSet.map Prod.fst).Nodup) (later : oracle ≤ oracle')
    (nodup : (after.chains.map Prod.fst).Nodup)
    (tails : ∀ key, Tail oracle oracle' (txns.revise txn) (store.versions key)
      (after.versions key)) :
    Tidy oracle' after (txns.revise txn) := by
  refine tidy.rebuild later nodup ?_ ?_ ?_ tails
  · intro id txn' known
    rcases Txns.revise_cases known with ⟨rfl, rfl⟩ | ⟨-, known⟩
    · obtain ⟨-, isTs, positive, below⟩ := tidy.known old.id old found
      rw [same]
      exact ⟨rfl, readTs.trans isTs, positive, below.trans_le later⟩
    · obtain ⟨isId, isTs, positive, below⟩ := tidy.known id txn' known
      exact ⟨isId, isTs, positive, below.trans_le later⟩
  · intro id txn' known
    rcases Txns.revise_cases known with ⟨-, rfl⟩ | ⟨-, known⟩
    · exact distinct
    · exact tidy.distinct id txn' known
  · intro id txn' known isActive _
    rcases Txns.revise_cases known with ⟨rfl, rfl⟩ | ⟨-, known⟩
    · exact ⟨old, same ▸ found, active isActive⟩
    · exact ⟨txn', known, isActive⟩

theorem tick (tidy : Tidy oracle store txns) : Tidy (oracle + 1) store txns := by
  refine tidy.rebuild (Nat.le_succ oracle) tidy.nodup ?_ tidy.distinct ?_ ?_
  · intro id txn found
    obtain ⟨isId, isTs, positive, below⟩ := tidy.known id txn found
    exact ⟨isId, isTs, positive, Nat.lt_succ_of_lt below⟩
  · exact fun id txn found active _ => ⟨txn, found, active⟩
  · exact fun key => .dropped (List.Sublist.refl _)

theorem begin (tidy : Tidy oracle store txns) :
    Tidy (oracle + 1) (store.registerActive oracle) (txns.revise (.new oracle)) := by
  refine tidy.rebuild (Nat.le_succ oracle) tidy.nodup ?_ ?_ ?_ fun key =>
    .dropped (List.Sublist.refl _)
  · intro id txn found
    rcases Txns.revise_cases found with ⟨rfl, rfl⟩ | ⟨-, found⟩
    · exact ⟨rfl, rfl, tidy.positive, Nat.lt_succ_self _⟩
    · obtain ⟨isId, isTs, positive, below⟩ := tidy.known id txn found
      exact ⟨isId, isTs, positive, Nat.lt_succ_of_lt below⟩
  · intro id txn found
    rcases Txns.revise_cases found with ⟨-, rfl⟩ | ⟨-, found⟩
    · exact List.nodup_nil
    · exact tidy.distinct id txn found
  · intro id txn found active old
    rcases Txns.revise_cases found with ⟨rfl, -⟩ | ⟨-, found⟩
    · exact absurd old (Nat.lt_irrefl _)
    · exact ⟨txn, found, active⟩

theorem runGc (tidy : Tidy oracle store txns) : Tidy oracle store.runGc txns := by
  rw [MvccStore.runGc]
  split
  next => exact tidy
  next =>
    refine tidy.rebuild (le_refl oracle) (MvccStore.nodup_sweep tidy.nodup _) tidy.known
      tidy.distinct (fun _ txn found active _ => ⟨txn, found, active⟩) fun key => .dropped ?_
    rw [MvccStore.versions_sweep tidy.nodup]
    exact keepLast_sublist _

theorem write (tidy : Tidy oracle store txns) (found : txns txn.id = some txn)
    (active : txn.state = .active) {key : Bytes}
    (free : store.checkWriteConflictDetailed key txn.id = none) (value : Option Bytes) :
    Tidy oracle (store.writeIntent key value txn.id txn.id).1
      (txns.revise { txn with writeSet := upsert txn.writeSet key value }) := by
  obtain ⟨-, -, positive, below⟩ := tidy.known txn.id txn found
  refine tidy.revise found rfl rfl id (nodup_upsert (tidy.distinct txn.id txn found) key value)
    (le_refl oracle) (MvccStore.writeIntent_keeps tidy.nodup value txn.id).1 fun other => ?_
  have versions : (store.writeIntent key value txn.id txn.id).1.versions other = _ :=
    MvccStore.versions_writeIntent value txn.id
  rw [versions]
  split
  next here =>
    subst here
    split
    next noOwn =>
      refine .added _ _ rfl (List.Sublist.refl _) (fun version member => ?_) positive below
        (fun _ _ _ => rfl) nofun
      refine Chains.committed_of_no_conflict free member ?_
      exact of_decide_eq_false (lastWith_eq_none.mp noOwn version member)
    next hasOwn =>
      obtain ⟨version, own⟩ := Option.ne_none_iff_exists'.mp hasOwn
      obtain ⟨isOwn, open_, front, split, settled⟩ := tidy.ends_with_own found active own
      refine .added front { version with data := value, writeTs := txn.id } ?_ ?_
        (fun earlier member => (settled earlier member).1) (lt_of_lt_of_eq positive isOwn.symm)
        (lt_of_eq_of_lt isOwn below) (fun _ _ _ => open_) fun committed => ?_
      · rw [split]
        exact modifyLast_append (decide_eq_true isOwn) (fun _ later => nomatch later)
      · rw [split]
        exact List.sublist_append_left _ _
      · cases open_.symm.trans committed
  next => exact .dropped (List.Sublist.refl _)

/-- The chains stay as they are, and the transaction does not become active again. -/
theorem settle (tidy : Tidy oracle store txns) {old : MvccTransaction}
    (found : txns old.id = some old) (same : txn.id = old.id) (readTs : txn.readTs = old.readTs)
    (active : txn.state = .active → old.state = .active)
    (distinct : (txn.writeSet.map Prod.fst).Nodup) : Tidy oracle store (txns.revise txn) :=
  tidy.revise found same readTs active distinct (le_refl oracle) tidy.nodup
    fun _ => .dropped (List.Sublist.refl _)

theorem discard (tidy : Tidy oracle store txns) (found : txns txn.id = some txn) :
    Tidy oracle ((store.abortTransactionKeys txn.id txn.keys).unregisterActive txn.id)
      (txns.revise { txn with state := .aborted }) := by
  refine tidy.revise found rfl rfl nofun (tidy.distinct txn.id txn found) (le_refl oracle)
    (MvccStore.abortTransactionKeys_keeps tidy.nodup txn.keys).1 fun key => .dropped ?_
  rw [MvccStore.versions_unregisterActive, MvccStore.versions_abortTransactionKeys]
  split
  next => exact List.filter_sublist
  next => exact List.Sublist.refl _

theorem commit (tidy : Tidy oracle store txns) (found : txns txn.id = some txn)
    (active : txn.state = .active) :
    Tidy (oracle + 1)
      ((store.commitTransactionWithTsKeys txn.id oracle txn.keys).unregisterActive txn.id)
      (txns.revise { txn with commitTs := some oracle, state := .committed }) := by
  obtain ⟨-, -, positive, below⟩ := tidy.known txn.id txn found
  refine tidy.revise found rfl rfl nofun (tidy.distinct txn.id txn found) (Nat.le_succ oracle)
    (MvccStore.commitTransactionWithTsKeys_keeps tidy.nodup oracle txn.keys).1 fun key => ?_
  rw [MvccStore.versions_unregisterActive, MvccStore.versions_commitTransactionWithTsKeys]
  split
  next =>
    cases own : lastWith (VersionChain.isBy txn.id) (store.versions key) with
    | none =>
        rw [modifyLast_eq_self (lastWith_eq_none.mp own)]
        exact .dropped (List.Sublist.refl _)
    | some version =>
        obtain ⟨isOwn, -, front, split, settled⟩ := tidy.ends_with_own found active own
        refine .added front (version.mark oracle) ?_ ?_
          (fun earlier member => (settled earlier member).1) (lt_of_lt_of_eq positive isOwn.symm)
          (lt_of_eq_of_lt isOwn (Nat.lt_succ_of_lt below)) ?_
          fun _ => ⟨le_refl oracle, Nat.lt_succ_self oracle⟩
        · rw [split]
          exact modifyLast_append (decide_eq_true isOwn) (fun _ later => nomatch later)
        · rw [split]
          exact List.sublist_append_left _ _
        · intro after known isActive
          have isId : (version.mark oracle).createdBy = txn.id := isOwn
          rw [isId] at known
          cases Txns.revise_self.symm.trans known
          cases isActive
  next => exact .dropped (List.Sublist.refl _)

theorem stable : Stable (fun _ _ _ => True) Tidy where
  known tidy _ _ found := ⟨(tidy.known _ _ found).1, (tidy.known _ _ found).2.1⟩
  tick := tick
  begin := begin
  runGc := runGc
  write tidy found active _ free value _ := tidy.write found active free value
  block {_ _ _ txn} tidy found _ :=
    tidy.settle found rfl rfl nofun (tidy.distinct txn.id txn found)
  discard tidy found _ := tidy.discard found
  commit tidy found active _ := tidy.commit found active

end Tidy

/-! ## Runs -/

namespace MvccStore

theorem versions_insertCommitted (store : MvccStore) (key value : Bytes) (commitTs : Nat)
    (other : Bytes) :
    (store.insertCommitted key value commitTs).versions other =
      if other = key then store.versions key ++ [⟨some value, commitTs, 0, true⟩]
      else store.versions other := by
  have known : store.versions key = ((store.chain key).getD VersionChain.new).versions := by
    rw [versions]
    cases store.chain key <;> rfl
  rw [versions, chain, insertCommitted, lookup_upsert, known]
  split
  · dsimp only [Option.map_some, Option.getD_some]
    split
    · split <;> rfl
    · rfl
  · rfl

theorem nodup_insertCommitted {store : MvccStore} (nodup : (store.chains.map Prod.fst).Nodup)
    (key value : Bytes) (commitTs : Nat) :
    ((store.insertCommitted key value commitTs).chains.map Prod.fst).Nodup :=
  nodup_upsert nodup _ _

/-- A store with nothing but rows: every version is a committed row. -/
def OnlyRows (store : MvccStore) : Prop :=
  (store.chains.map Prod.fst).Nodup ∧ ∀ key, ∀ version ∈ store.versions key,
    version.createdBy = 0 ∧ version.committed = true ∧ version.data ≠ none

theorem OnlyRows.seed {store : MvccStore} (only : store.OnlyRows) (rows : List Row) :
    (store.seed rows).OnlyRows := by
  induction rows generalizing store with
  | nil => exact only
  | cons row rows ih =>
      refine ih ⟨nodup_insertCommitted only.1 _ _ _, fun key version member => ?_⟩
      rw [versions_insertCommitted] at member
      split at member
      next =>
        rcases List.mem_append.mp member with old | new
        · exact only.2 row.key version old
        · cases List.mem_singleton.mp new
          exact ⟨rfl, rfl, nofun⟩
      next => exact only.2 key version member

end MvccStore

namespace World

theorem tidy_seeded (gcThreshold drawn : Nat) (rows : List MvccStore.Row) :
    (seeded gcThreshold drawn rows).Has Tidy := by
  have empty : (MvccStore.withGcThreshold gcThreshold).OnlyRows :=
    ⟨List.nodup_nil, fun _ _ member => nomatch member⟩
  obtain ⟨nodup, only⟩ := empty.seed rows
  exact
    { nodup := nodup
      known := fun _ _ found => nomatch found
      distinct := fun _ _ found => nomatch found
      positive := Nat.succ_pos drawn
      ordered := fun key => List.pairwise_of_forall_mem_list
        fun earlier member _ _ => (only key earlier member).2.1
      begun := fun key version member => by
        rw [(only key version member).1]
        exact Nat.succ_pos drawn
      open_ := fun _ _ _ _ found => nomatch found
      seeds := fun key version member _ => (only key version member).2
      timed := fun key => List.pairwise_of_forall_mem_list fun earlier member _ _ positive =>
        absurd (only key earlier member).1 (Nat.ne_of_gt positive)
      drawn := fun key version member positive =>
        absurd (only key version member).1 (Nat.ne_of_gt positive) }

theorem Has.restore {world : World} (tidy : world.Has Tidy) {txId : TxId} {txn : MvccTransaction}
    (found : world.txn txId = some txn) (snapshot : List (Bytes × Option Bytes)) :
    (world.record (txn.restoreWriteSet snapshot) world.store).Has Tidy := by
  rw [Has, look_record]
  have empty : (([] : List (Bytes × Option Bytes)).map Prod.fst).Nodup := List.nodup_nil
  exact Tidy.settle tidy (Tidy.stable.look_seen tidy found) rfl rfl id
    (nodup_upsertAll empty snapshot)

theorem tidy_savepointStep {world : World} (tidy : world.Has Tidy) (call : SavepointCall) :
    (world.savepointStep call).2.Has Tidy := by
  cases call with
  | call call => exact Tidy.stable.step tidy call fun _ _ _ _ => trivial
  | restoreWriteSet txId snapshot =>
      exact Stable.onTxn tidy fun txn found => tidy.restore found snapshot

theorem tidy_afterSavepoints {world : World} (tidy : world.Has Tidy) (calls : List SavepointCall) :
    (world.afterSavepoints calls).Has Tidy := by
  induction calls generalizing world with
  | nil => exact tidy
  | cons call calls ih => exact ih (tidy_savepointStep tidy call)

end World

end JouleDB.Mvcc
