import JouleDB.Mvcc.Bootstrap

/-!
# Rolling back to a savepoint

A savepoint copies the write set, and rolling back puts the copy back.  The uncommitted versions in
the store stay as they are, so a commit takes the last value written to a key whatever the copy
says, and versions of keys that are not in the copy stay uncommitted for good.
-/

namespace JouleDB.Mvcc

/-! ## Definitions -/

namespace MvccStore

/-- The value that a transaction has written last to a key, by its version in the store. -/
def intent (store : MvccStore) (txId : TxId) (key : Bytes) : Option (Option Bytes) :=
  (lastWith (VersionChain.isBy txId) (store.versions key)).map Version.data

/-- The committed value of a key. -/
def committedValue (store : MvccStore) (key : Bytes) : Option Bytes :=
  (lastWith Version.committed (store.versions key)).bind Version.data

/-- A commit leaves the writes of a savepoint over what was committed before, and no version of
the transaction at any other key. -/
structure RollsBack (before after : MvccStore) (txId : TxId)
    (snapshot : List (Bytes × Option Bytes)) : Prop where
  values : ∀ key,
    after.committedValue key = (snapshot.lookup key).getD (before.committedValue key)
  leftovers : ∀ key, snapshot.lookup key = none →
    ∀ version ∈ after.versions key, version.createdBy ≠ txId

end MvccStore

namespace SavepointCall

/-- The transaction puts a copy of its writes back. -/
def Restores (txId : TxId) : SavepointCall → Prop
  | .call _ => False
  | .restoreWriteSet id _ => id = txId

/-- The transaction writes. -/
def Writes (txId : TxId) : SavepointCall → Prop
  | .call made => made.writes.map Prod.fst = some txId
  | .restoreWriteSet _ _ => False

instance (txId : TxId) (call : SavepointCall) : Decidable (call.Restores txId) :=
  match call with
  | .call _ => .isFalse id
  | .restoreWriteSet id _ => inferInstanceAs (Decidable (id = txId))

instance (txId : TxId) (call : SavepointCall) : Decidable (call.Writes txId) :=
  match call with
  | .call made => inferInstanceAs (Decidable (made.writes.map Prod.fst = some txId))
  | .restoreWriteSet _ _ => .isFalse id

end SavepointCall

/-- A run around a savepoint: what happens before the transaction begins, then up to its savepoint,
up to its rollback, and up to its commit. -/
structure SavepointRun where
  gcThreshold : Nat
  drawn : Nat
  rows : List MvccStore.Row
  front : List SavepointCall
  before : List SavepointCall
  after : List SavepointCall
  between : List SavepointCall

namespace SavepointRun

/-- The world in which the transaction begins. -/
def start (run : SavepointRun) : World :=
  (World.seeded run.gcThreshold run.drawn run.rows).afterSavepoints run.front

/-- The id of the transaction. -/
def txId (run : SavepointRun) : TxId := run.start.oracle

/-- The world in which the savepoint is set. -/
def saved (run : SavepointRun) : World := (run.start.step .begin).2.afterSavepoints run.before

/-- The write set of the transaction in a world. -/
def writeSetIn (run : SavepointRun) (world : World) : List (Bytes × Option Bytes) :=
  ((world.txn run.txId).map MvccTransaction.writeSetSnapshot).getD []

/-- The savepoint. -/
def snapshot (run : SavepointRun) : List (Bytes × Option Bytes) := run.writeSetIn run.saved

/-- The world in which the transaction is rolled back. -/
def changed (run : SavepointRun) : World := run.saved.afterSavepoints run.after

/-- The world in which the transaction commits. -/
def restored (run : SavepointRun) : World :=
  (run.changed.savepointStep (.restoreWriteSet run.txId run.snapshot)).2.afterSavepoints
    run.between

/-- The world after the commit. -/
def committed (run : SavepointRun) : World := (run.restored.step (.commit run.txId)).2

/-- The transaction rolls back once, writes nothing after that, and commits. -/
structure Valid (run : SavepointRun) : Prop where
  before : ∀ call ∈ run.before, ¬call.Restores run.txId
  after : ∀ call ∈ run.after, ¬call.Restores run.txId
  between : ∀ call ∈ run.between, ¬call.Restores run.txId ∧ ¬call.Writes run.txId
  succeeds : (run.restored.step (.commit run.txId)).1 = .done (.ok ())

end SavepointRun

/-! ## What a transaction has written -/

section Intents

variable {oracle : Nat} {store : MvccStore} {txns : Txns} {txn : MvccTransaction} {txId : TxId}

namespace MvccStore

theorem intent_congr {before after : MvccStore} {key : Bytes}
    (same : lastWith (VersionChain.isBy txId) (after.versions key) =
      lastWith (VersionChain.isBy txId) (before.versions key)) :
    after.intent txId key = before.intent txId key := congrArg (Option.map Version.data) same

theorem isBy_of_isBy {id : TxId} (other : id ≠ txId) {version : Version}
    (isOther : VersionChain.isBy id version = true) : VersionChain.isBy txId version = false :=
  decide_eq_false fun same => other ((of_decide_eq_true isOther).symm.trans same)

theorem intent_commit_other {id : TxId} (other : id ≠ txId) (commitTs : Nat) (keys : List Bytes)
    (key : Bytes) :
    ((store.commitTransactionWithTsKeys id commitTs keys).unregisterActive id).intent txId key =
      store.intent txId key := by
  apply intent_congr
  rw [versions_unregisterActive, versions_commitTransactionWithTsKeys]
  split
  · exact lastWith_modifyLast (fun _ _ => isBy_of_isBy other) fun _ _ => isBy_of_isBy other
  · rfl

theorem intent_abort_other {id : TxId} (other : id ≠ txId) (keys : List Bytes) (key : Bytes) :
    ((store.abortTransactionKeys id keys).unregisterActive id).intent txId key =
      store.intent txId key := by
  apply intent_congr
  rw [versions_unregisterActive, versions_abortTransactionKeys]
  split
  · apply lastWith_filter
    intro version _ own
    have isOwn : version.createdBy = txId := of_decide_eq_true own
    simp [isOwn, other.symm]
  · rfl

theorem intent_writeIntent (value : Option Bytes) (writeTs : Nat) (key other : Bytes) :
    (store.writeIntent key value writeTs txId).1.intent txId other =
      if other = key then some value else store.intent txId other := by
  rw [intent, versions_writeIntent]
  split
  next =>
    split
    next =>
      have isOwn : VersionChain.isBy txId ⟨value, writeTs, txId, false⟩ = true :=
        decide_eq_true rfl
      rw [lastWith_concat, if_pos isOwn]
      rfl
    next hasOwn =>
      obtain ⟨version, own⟩ := Option.ne_none_iff_exists'.mp hasOwn
      obtain ⟨front, back, split, holds, none⟩ := lastWith_eq_some own
      have isOwn : VersionChain.isBy txId { version with data := value, writeTs := writeTs } =
          true := holds
      rw [split, modifyLast_append holds none, lastWith_append, lastWith_cons,
        lastWith_eq_none.mpr none, if_pos isOwn]
      rfl
  next => rfl

theorem intent_writeIntent_other {id : TxId} (other : id ≠ txId) (value : Option Bytes)
    (writeTs : Nat) (key written : Bytes) :
    (store.writeIntent written value writeTs id).1.intent txId key = store.intent txId key := by
  apply intent_congr
  rw [versions_writeIntent]
  split
  next here =>
    subst here
    split
    next =>
      rw [lastWith_concat, if_neg]
      exact fun own => other (of_decide_eq_true own)
    next =>
      exact lastWith_modifyLast (fun _ _ => isBy_of_isBy other) fun _ _ => isBy_of_isBy other
  next => rfl

end MvccStore

theorem Tidy.intent_runGc (tidy : Tidy oracle store txns) (found : txns txId = some txn)
    (active : txn.state = .active) (key : Bytes) :
    store.runGc.intent txId key = store.intent txId key := by
  rw [MvccStore.runGc]
  split
  next => rfl
  next =>
    apply MvccStore.intent_congr
    rw [MvccStore.versions_sweep tidy.nodup]
    apply lastWith_keepLast_of_apart
    intro version member own
    have isOwn : version.createdBy = txId := of_decide_eq_true own
    rw [VersionChain.isOld, tidy.open_ key version member txn (isOwn ▸ found) active]
    rfl

/-- A transaction is known, and while it is active it is related to what it has written. -/
structure Intends (txId : TxId)
    (related : MvccTransaction → (Bytes → Option (Option Bytes)) → Prop) (oracle : Nat)
    (store : MvccStore) (txns : Txns) : Prop where
  tidy : Tidy oracle store txns
  known : ∃ txn, txns txId = some txn
  active : ∀ txn, txns txId = some txn → txn.state = .active → related txn (store.intent txId)

namespace Intends

variable {related : MvccTransaction → (Bytes → Option (Option Bytes)) → Prop}

/-- A transaction changes.  If it is the one in question and stays active, its relation to what it
has written stays too. -/
theorem revise (intends : Intends txId related oracle store txns) {oracle' : Nat}
    {after : MvccStore} (tidy : Tidy oracle' after (txns.revise txn))
    (frame : txn.id ≠ txId → ∀ key, after.intent txId key = store.intent txId key)
    (own : txn.id = txId → txn.state = .active → related txn (after.intent txId)) :
    Intends txId related oracle' after (txns.revise txn) where
  tidy := tidy
  known := by
    by_cases here : txId = txn.id
    · exact ⟨txn, here ▸ Txns.revise_self⟩
    · rw [Txns.revise_of_ne here]
      exact intends.known
  active reader found isActive := by
    rcases Txns.revise_cases found with ⟨rfl, rfl⟩ | ⟨other, found⟩
    · exact own rfl isActive
    · rw [funext (frame (Ne.symm other))]
      exact intends.active reader found isActive

/-- Every call keeps the relation, if the allowed writes of the transaction do. -/
theorem stable {allowed : TxId → Bytes → Option Bytes → Prop}
    (writes : ∀ key value, allowed txId key value → ∀ txn intents, related txn intents →
      related { txn with writeSet := upsert txn.writeSet key value }
        fun other => if other = key then some value else intents other) :
    Stable allowed (Intends txId related) where
  known intends _ _ found :=
    ⟨(intends.tidy.known _ _ found).1, (intends.tidy.known _ _ found).2.1⟩
  tick intends := ⟨intends.tidy.tick, intends.known, intends.active⟩
  begin {oracle _ _} intends := by
    obtain ⟨txn, found⟩ := intends.known
    have old : txId ≠ oracle := Nat.ne_of_lt (intends.tidy.known txId txn found).2.2.2
    exact intends.revise intends.tidy.begin (fun _ _ => rfl) fun same => absurd same.symm old
  runGc intends := by
    refine ⟨intends.tidy.runGc, intends.known, fun txn found active => ?_⟩
    rw [funext (intends.tidy.intent_runGc found active)]
    exact intends.active txn found active
  write {_ _ _ txn} intends found active key free value may := by
    refine intends.revise (intends.tidy.write found active free value)
      (fun other key => MvccStore.intent_writeIntent_other other value txn.id key _) ?_
    rintro rfl -
    rw [funext (MvccStore.intent_writeIntent value txn.id key)]
    exact writes key value may txn _ (intends.active txn found active)
  block {_ _ _ txn} intends found _ :=
    intends.revise (intends.tidy.settle found rfl rfl nofun (intends.tidy.distinct txn.id txn found))
      (fun _ _ => rfl) nofun
  discard {_ _ _ txn} intends found _ :=
    intends.revise (intends.tidy.discard found)
      (fun other => MvccStore.intent_abort_other other txn.keys) nofun
  commit {oracle _ _ txn} intends found active _ :=
    intends.revise (intends.tidy.commit found active)
      (fun other => MvccStore.intent_commit_other other oracle txn.keys) nofun

variable {world : World}

/-- A rollback to a savepoint of another transaction. -/
theorem restore_other (intends : world.Has (Intends txId related)) {id : TxId} (other : id ≠ txId)
    (snapshot : List (Bytes × Option Bytes)) :
    (world.savepointStep (.restoreWriteSet id snapshot)).2.Has (Intends txId related) := by
  refine Stable.onTxn intends fun txn found => ?_
  have tidy : (world.record (txn.restoreWriteSet snapshot) world.store).Has Tidy :=
    World.Has.restore intends.tidy found snapshot
  have isId : txn.id = id :=
    (intends.tidy.known id txn.seen (Option.map_eq_some_iff.mpr ⟨txn, found, rfl⟩)).1
  rw [World.Has, World.look_record] at tidy ⊢
  exact Intends.revise intends tidy (fun _ _ => rfl) fun same =>
    absurd (isId.symm.trans same) other

theorem run {allowed : TxId → Bytes → Option Bytes → Prop}
    (stable : Stable allowed (Intends txId related))
    (intends : world.Has (Intends txId related)) {calls : List SavepointCall}
    (plain : ∀ call ∈ calls, ¬call.Restores txId)
    (may : ∀ call, SavepointCall.call call ∈ calls → ∀ id key value,
      call.writes = some (id, key, value) → allowed id key value) :
    (world.afterSavepoints calls).Has (Intends txId related) := by
  induction calls generalizing world with
  | nil => exact intends
  | cons call calls ih =>
      have later : (world.savepointStep call).2.Has (Intends txId related) := by
        have notRestores := plain call List.mem_cons_self
        cases call with
        | call call => exact stable.step intends call (may call List.mem_cons_self)
        | restoreWriteSet id snapshot => exact restore_other intends notRestores snapshot
      exact ih later (fun call member => plain call (List.mem_cons_of_mem _ member))
        fun call member => may call (List.mem_cons_of_mem _ member)

end Intends

/-- The write set is what the transaction has written, and has the keys of an earlier one. -/
def Written (base : List (Bytes × Option Bytes)) (txn : MvccTransaction)
    (intents : Bytes → Option (Option Bytes)) : Prop :=
  (∀ key, intents key = txn.writeSet.lookup key) ∧
    ∀ key, base.lookup key ≠ none → txn.writeSet.lookup key ≠ none

theorem Written.upsert {base : List (Bytes × Option Bytes)}
    {intents : Bytes → Option (Option Bytes)} (written : Written base txn intents) (key : Bytes)
    (value : Option Bytes) :
    Written base { txn with writeSet := upsert txn.writeSet key value }
      fun other => if other = key then some value else intents other := by
  constructor
  · intro other
    dsimp only
    rw [lookup_upsert, written.1]
  · intro other present
    rw [lookup_upsert]
    split
    · nofun
    · exact written.2 other present

/-- The write set is a copy, and what the transaction has written is what it was when its write
set was another one. -/
def Restored (snapshot : List (Bytes × Option Bytes)) (last : MvccTransaction)
    (txn : MvccTransaction) (intents : Bytes → Option (Option Bytes)) : Prop :=
  txn.writeSet = upsertAll [] snapshot ∧ Written snapshot last intents

end Intents

/-! ## The commit -/

section Commit

variable {oracle : Nat} {store : MvccStore} {txns : Txns} {txn : MvccTransaction}

/-- What a commit does at a key: a written key of the write set gets the written value, and every
other chain stays as it is. -/
theorem Tidy.commit_key (tidy : Tidy oracle store txns) (found : txns txn.id = some txn)
    (active : txn.state = .active) (key : Bytes) {after : MvccStore}
    (isAfter : after =
      (store.commitTransactionWithTsKeys txn.id oracle txn.keys).unregisterActive txn.id) :
    (∃ data, txn.writeSet.lookup key ≠ none ∧ store.intent txn.id key = some data ∧
      after.committedValue key = data) ∨
    ((txn.writeSet.lookup key = none ∨ store.intent txn.id key = none) ∧
      after.versions key = store.versions key) := by
  subst isAfter
  have isKey : key ∈ txn.keys ↔ (txn.writeSet.lookup key).isSome :=
    (isSome_lookup_iff txn.writeSet key).symm
  rw [MvccStore.committedValue, MvccStore.versions_unregisterActive,
    MvccStore.versions_commitTransactionWithTsKeys]
  split
  next member =>
    cases own : lastWith (VersionChain.isBy txn.id) (store.versions key) with
    | none =>
        refine Or.inr ⟨Or.inr ?_, modifyLast_eq_self (lastWith_eq_none.mp own)⟩
        rw [MvccStore.intent, own]
        rfl
    | some version =>
        obtain ⟨isOwn, -, front, split, -⟩ := tidy.ends_with_own found active own
        refine Or.inl ⟨version.data, Option.isSome_iff_ne_none.mp (isKey.mp member), ?_, ?_⟩
        · rw [MvccStore.intent, own]
          rfl
        · have marked : modifyLast (VersionChain.isBy txn.id) (Version.mark oracle)
              (front ++ [version]) = front ++ [version.mark oracle] :=
            modifyLast_append (decide_eq_true isOwn) (fun _ later => nomatch later)
          have isCommitted : (version.mark oracle).committed = true := rfl
          rw [split, marked, lastWith_concat, if_pos isCommitted]
          rfl
  next absent =>
    rw [isKey, Option.not_isSome_iff_eq_none] at absent
    exact Or.inr ⟨Or.inl absent, rfl⟩

theorem MvccStore.not_by_iff (txId : TxId) (key : Bytes) :
    (∀ version ∈ store.versions key, version.createdBy ≠ txId) ↔ store.intent txId key = none := by
  rw [intent, Option.map_eq_none_iff, lastWith_eq_none]
  exact forall₂_congr fun version _ => (decide_eq_false_iff_not).symm

/-- A commit rolls back to the copy that is its write set if and only if the copy is what the
transaction has written. -/
theorem Tidy.rolledBack_iff (tidy : Tidy oracle store txns) (found : txns txn.id = some txn)
    (active : txn.state = .active)
    (kept : ∀ key, txn.writeSet.lookup key ≠ none → store.intent txn.id key ≠ none)
    {after : MvccStore} (isAfter : after =
      (store.commitTransactionWithTsKeys txn.id oracle txn.keys).unregisterActive txn.id) :
    store.RollsBack after txn.id txn.writeSet ↔
      ∀ key, store.intent txn.id key = txn.writeSet.lookup key := by
  constructor
  · rintro ⟨values, leftovers⟩ key
    rcases tidy.commit_key found active key isAfter with ⟨data, present, isData, value⟩ | ⟨away, same⟩
    · obtain ⟨saved, isSaved⟩ := Option.ne_none_iff_exists'.mp present
      have right := values key
      rw [value, isSaved, Option.getD_some] at right
      rw [isData, isSaved, right]
    · rcases away with absent | unwritten
      · rw [absent, ← MvccStore.not_by_iff, ← same]
        exact leftovers key absent
      · rw [unwritten]
        by_contra present
        exact kept key (Ne.symm present) unwritten
  · intro agree
    constructor
    · intro key
      rcases tidy.commit_key found active key isAfter with ⟨data, -, isData, value⟩ | ⟨away, same⟩
      · rw [value, ← agree, isData]
        rfl
      · have absent : txn.writeSet.lookup key = none := by
          rcases away with absent | unwritten
          · exact absent
          · rw [← agree, unwritten]
        rw [absent, Option.getD_none, MvccStore.committedValue, same]
        rfl
    · intro key absent
      rcases tidy.commit_key found active key isAfter with ⟨data, present, -⟩ | ⟨-, same⟩
      · exact absurd absent present
      · rw [same, MvccStore.not_by_iff, agree, absent]

end Commit

/-! ## Runs -/

namespace World

variable {world : World} {txId : TxId}

/-- A commit that succeeds is one of an active transaction. -/
theorem commit_ok (succeeds : (world.step (.commit txId)).1 = .done (.ok ())) :
    ∃ txn, world.txn txId = some txn ∧ txn.state = .active ∧
      (world.step (.commit txId)).2.store =
        (world.store.commitTransactionWithTsKeys txn.id world.oracle txn.keys).unregisterActive
          txn.id := by
  rw [step, onTxn] at succeeds ⊢
  split at succeeds
  next txn found =>
    rw [found]
    dsimp only at succeeds ⊢
    rw [MvccTransaction.commit] at succeeds ⊢
    split at succeeds
    next => cases succeeds
    next active =>
      split at succeeds
      next => cases succeeds
      next valid =>
        rw [if_neg active, if_neg valid]
        exact ⟨txn, rfl, not_not.mp active, rfl⟩
  next => cases succeeds

end World

namespace SavepointRun

variable {run : SavepointRun}

theorem tidy_start (run : SavepointRun) : run.start.Has Tidy :=
  World.tidy_afterSavepoints (World.tidy_seeded run.gcThreshold run.drawn run.rows) run.front

/-- Every write keeps the write set what the transaction has written. -/
theorem stable_written (txId : TxId) (base : List (Bytes × Option Bytes)) :
    Stable (fun _ _ _ => True) (Intends txId (Written base)) :=
  Intends.stable fun key value _ _ _ written => written.upsert key value

theorem written_saved (valid : run.Valid) :
    run.saved.Has (Intends run.txId (Written [])) := by
  have begun : (run.start.step .begin).2.Has (Intends run.txId (Written [])) := by
    have tidy : (run.start.step .begin).2.Has Tidy :=
      Tidy.stable.step run.tidy_start .begin fun _ _ _ _ => trivial
    have isNew : (run.start.step .begin).2.look run.txId = some (.new run.txId) := by
      rw [World.look, World.txn]
      dsimp only [World.step]
      rw [lookup_upsert, if_pos (show run.txId = run.start.oracle from rfl)]
      rfl
    refine ⟨tidy, ⟨_, isNew⟩, fun txn found _ => ?_⟩
    cases isNew.symm.trans found
    refine ⟨fun key => ?_, fun _ present => absurd rfl present⟩
    refine (MvccStore.not_by_iff run.txId key).mp fun version member => Nat.ne_of_lt ?_
    exact run.tidy_start.begun key version member
  exact Intends.run (stable_written run.txId []) begun valid.before fun _ _ _ _ _ _ => trivial

/-- The write set of the transaction, as the invariants see it. -/
theorem writeSetIn_eq {world : World} {txn : MvccTransaction}
    (found : world.look run.txId = some txn) : run.writeSetIn world = txn.writeSet := by
  obtain ⟨whole, known, rfl⟩ := Option.map_eq_some_iff.mp found
  rw [writeSetIn, known]
  rfl

theorem written_changed (valid : run.Valid) :
    run.changed.Has (Intends run.txId (Written run.snapshot)) := by
  have saved := written_saved valid
  refine Intends.run (stable_written run.txId run.snapshot) ⟨saved.tidy, saved.known, ?_⟩ valid.after
    fun _ _ _ _ _ _ => trivial
  intro txn found active
  refine ⟨(saved.active txn found active).1, fun key present => ?_⟩
  rw [snapshot, writeSetIn_eq found] at present
  exact present

/-- Up to its commit the transaction has the copy as its write set, and what it had written. -/
theorem restored_intents (valid : run.Valid) {last : MvccTransaction}
    (isLast : run.changed.look run.txId = some last) :
    run.restored.Has (Intends run.txId (Restored run.snapshot last)) := by
  have changed := written_changed valid
  have restores : (run.changed.savepointStep (.restoreWriteSet run.txId run.snapshot)).2.Has
      (Intends run.txId (Restored run.snapshot last)) := by
    obtain ⟨txn, found, rfl⟩ := Option.map_eq_some_iff.mp isLast
    have isId : txn.id = run.txId := (changed.tidy.known _ _ isLast).1
    have tidy : (run.changed.record (txn.restoreWriteSet run.snapshot) run.changed.store).Has
        Tidy := World.Has.restore changed.tidy found run.snapshot
    rw [World.savepointStep, World.onTxn, found]
    dsimp only
    rw [World.Has, World.look_record] at tidy ⊢
    have isNow : run.changed.look.revise (txn.restoreWriteSet run.snapshot).seen run.txId =
        some (txn.restoreWriteSet run.snapshot).seen := by
      rw [← isId]
      exact Txns.revise_self
    refine ⟨tidy, ⟨_, isNow⟩, fun restored isRestored active => ?_⟩
    cases isNow.symm.trans isRestored
    exact ⟨rfl, changed.active txn.seen isLast active⟩
  have stable : Stable (fun id _ _ => id ≠ run.txId)
      (Intends run.txId (Restored run.snapshot last)) :=
    Intends.stable fun _ _ other => absurd rfl other
  refine Intends.run stable restores (fun call member => (valid.between call member).1)
    fun call member id key value writes => ?_
  rintro rfl
  exact (valid.between _ member).2 (congrArg (Option.map Prod.fst) writes)

/-- A run rolls back to its savepoint if and only if the write set at the rollback is still the one
of the savepoint. -/
theorem rollsBack_iff (valid : run.Valid) :
    run.restored.store.RollsBack run.committed.store run.txId run.snapshot ↔
      ∀ key, (run.writeSetIn run.changed).lookup key = run.snapshot.lookup key := by
  have saved := written_saved valid
  have changed := written_changed valid
  obtain ⟨last, isLast⟩ := changed.known
  have restored := restored_intents valid isLast
  obtain ⟨txn, found, active, isCommitted⟩ := World.commit_ok valid.succeeds
  have seen : run.restored.look run.txId = some txn.seen :=
    Option.map_eq_some_iff.mpr ⟨txn, found, rfl⟩
  have isId : txn.id = run.txId := (restored.tidy.known _ _ seen).1
  obtain ⟨writeSet, intents, grown⟩ := restored.active txn.seen seen active
  have isCopy : ∀ key, txn.writeSet.lookup key = run.snapshot.lookup key := by
    obtain ⟨first, isFirst⟩ := saved.known
    intro key
    have distinct : (run.snapshot.map Prod.fst).Nodup := by
      rw [snapshot, writeSetIn_eq isFirst]
      exact saved.tidy.distinct _ first isFirst
    rw [show txn.writeSet = upsertAll [] run.snapshot from writeSet, lookup_upsertAll,
      lastUpdate_eq_lookup distinct, List.lookup_nil, Option.or_none]
  have same : run.restored.store.RollsBack run.committed.store run.txId run.snapshot ↔
      run.restored.store.RollsBack run.committed.store run.txId txn.writeSet := by
    constructor
    · rintro ⟨values, leftovers⟩
      exact ⟨fun key => isCopy key ▸ values key, fun key => isCopy key ▸ leftovers key⟩
    · rintro ⟨values, leftovers⟩
      exact ⟨fun key => isCopy key ▸ values key, fun key => isCopy key ▸ leftovers key⟩
  have kept : ∀ key, txn.writeSet.lookup key ≠ none →
      run.restored.store.intent txn.id key ≠ none := by
    intro key present
    rw [isCopy] at present
    rw [isId, intents]
    exact grown key present
  have known : run.restored.look txn.seen.id = some txn.seen := by
    rw [show txn.seen.id = run.txId from isId]
    exact seen
  have rolls : run.restored.store.RollsBack run.committed.store txn.id txn.writeSet ↔
      ∀ key, run.restored.store.intent txn.id key = txn.writeSet.lookup key :=
    restored.tidy.rolledBack_iff known active kept isCommitted
  rw [isId] at rolls
  rw [same, writeSetIn_eq isLast]
  refine rolls.trans (forall_congr' fun key => ?_)
  rw [intents, isCopy]

/-- A transaction writes key 1, sets a savepoint, writes the same value again, rolls back to the
savepoint and commits. -/
def repeated : SavepointRun where
  gcThreshold := 100
  drawn := 0
  rows := []
  front := []
  before := [.call (.put 1 [1] [10])]
  after := [.call (.put 1 [1] [10])]
  between := []

theorem rollsBack_iff_repeated :
    repeated.restored.store.RollsBack repeated.committed.store repeated.txId repeated.snapshot ↔
      ∀ key, (repeated.writeSetIn repeated.changed).lookup key = repeated.snapshot.lookup key :=
  rollsBack_iff ⟨by decide, by decide, by decide, rfl⟩

/-- A transaction writes keys 1 and 2, sets a savepoint, writes key 1 again and key 3, rolls back to
the savepoint and commits. -/
def leftover : SavepointRun where
  gcThreshold := 100
  drawn := 0
  rows := []
  front := []
  before := [.call (.put 1 [1] [10]), .call (.put 1 [2] [20])]
  after := [.call (.put 1 [1] [11]), .call (.put 1 [3] [30])]
  between := []

/-- The value from after the savepoint is committed, and the version of the key that was written
only then stays. -/
theorem not_rollsBack :
    leftover.Valid ∧ leftover.snapshot = [([1], some [10]), ([2], some [20])] ∧
      leftover.committed.store.committedValue [1] = some [11] ∧
      leftover.committed.store.versions [3] = [⟨some [30], 1, 1, false⟩] ∧
      ¬leftover.restored.store.RollsBack leftover.committed.store leftover.txId
        leftover.snapshot := by
  have isSnapshot : leftover.snapshot = [([1], some [10]), ([2], some [20])] := by decide +kernel
  have value : leftover.committed.store.committedValue [1] = some [11] := by decide +kernel
  refine ⟨⟨by decide, by decide, by decide, rfl⟩, isSnapshot, value, by decide +kernel,
    fun rolls => ?_⟩
  have right := rolls.values [1]
  rw [value, isSnapshot] at right
  exact absurd right (by decide)

end SavepointRun

end JouleDB.Mvcc
