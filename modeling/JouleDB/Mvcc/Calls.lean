import JouleDB.Mvcc.Invariant

/-!
# What every call keeps

A call draws a timestamp, begins a transaction, collects garbage, or does one of four things for
an active transaction: it writes, or the transaction is blocked, discarded or committed.  A
property that all of these keep is kept by every call.
-/

namespace JouleDB.Mvcc

namespace MvccTransaction

/-- The transaction without its reads, which no other call depends on. -/
def seen (txn : MvccTransaction) : MvccTransaction := { txn with readSet := [] }

theorem get_seen (txn : MvccTransaction) (store : MvccStore) (key : Bytes) :
    (txn.get store key).2.seen = txn.seen := by
  rw [get]
  split
  next => rfl
  next =>
    split
    next => rfl
    next => split <;> rfl

theorem get_ok (txn : MvccTransaction) (store : MvccStore) (key : Bytes)
    (active : txn.state = .active) : ∃ value, (txn.get store key).1 = .ok value := by
  rw [get, if_neg (not_not_intro active)]
  split
  next value _ => exact ⟨value, rfl⟩
  next =>
    split
    next value _ _ => exact ⟨value, rfl⟩
    next value _ => exact ⟨value, rfl⟩

theorem delete_eq_write (txn : MvccTransaction) (store : MvccStore) (key : Bytes)
    (active : txn.state = .active) :
    (txn.delete store key).2 = ((txn.get store key).2.write store key none).2 := by
  obtain ⟨value, read⟩ := txn.get_ok store key active
  rw [delete, if_neg (not_not_intro active)]
  split
  next error reader failed =>
    rw [failed] at read
    cases read
  next reader done =>
    rw [done]
    split
    next written => rw [written]
    next written => rw [written]

end MvccTransaction

/-- The write that a call makes. -/
def Call.writes : Call → Option (TxId × Bytes × Option Bytes)
  | .put txId key value => some (txId, key, some value)
  | .delete txId key => some (txId, key, none)
  | _ => none

/-- What a world is about: the next timestamp, the store and its transactions. -/
abbrev Property := Nat → MvccStore → Txns → Prop

/-- A property is kept by everything that a call can do, with the writes that are allowed. -/
structure Stable (allowed : TxId → Bytes → Option Bytes → Prop) (property : Property) : Prop where
  known : ∀ {oracle store txns}, property oracle store txns → ∀ {id txn},
    txns id = some txn → txn.id = id ∧ txn.readTs = id
  tick : ∀ {oracle store txns}, property oracle store txns → property (oracle + 1) store txns
  begin : ∀ {oracle store txns}, property oracle store txns →
    property (oracle + 1) (store.registerActive oracle) (txns.revise (.new oracle))
  runGc : ∀ {oracle store txns}, property oracle store txns → property oracle store.runGc txns
  write : ∀ {oracle store txns txn}, property oracle store txns → txns txn.id = some txn →
    txn.state = .active → ∀ {key}, store.checkWriteConflictDetailed key txn.id = none →
    ∀ {value}, allowed txn.id key value →
    property oracle (store.writeIntent key value txn.id txn.id).1
      (txns.revise { txn with writeSet := upsert txn.writeSet key value })
  block : ∀ {oracle store txns txn}, property oracle store txns → txns txn.id = some txn →
    txn.state = .active → property oracle store (txns.revise { txn with state := .aborted })
  discard : ∀ {oracle store txns txn}, property oracle store txns → txns txn.id = some txn →
    txn.state = .active →
    property oracle ((store.abortTransactionKeys txn.id txn.keys).unregisterActive txn.id)
      (txns.revise { txn with state := .aborted })
  commit : ∀ {oracle store txns txn}, property oracle store txns → txns txn.id = some txn →
    txn.state = .active → txn.validate store = true →
    property (oracle + 1)
      ((store.commitTransactionWithTsKeys txn.id oracle txn.keys).unregisterActive txn.id)
      (txns.revise { txn with commitTs := some oracle, state := .committed })

namespace World

/-- The transactions without their reads. -/
def look (world : World) : Txns := fun id => (world.txn id).map MvccTransaction.seen

/-- A world has a property. -/
def Has (world : World) (property : Property) : Prop :=
  property world.oracle world.store world.look

theorem look_record (world : World) (txn : MvccTransaction) (store : MvccStore) :
    (world.record txn store).look = world.look.revise txn.seen := by
  funext id
  rw [look, World.txn, record, lookup_upsert]
  by_cases here : id = txn.id
  · subst here
    rw [if_pos rfl]
    exact Txns.revise_self.symm
  · have other : id ≠ txn.seen.id := here
    rw [if_neg here, Txns.revise_of_ne other]
    rfl

end World

namespace Stable

variable {allowed : TxId → Bytes → Option Bytes → Prop} {property : Property}
  {oracle : Nat} {store : MvccStore} {txns : Txns} {txn : MvccTransaction}

/-- A write call: the transaction is aborted, or it writes. -/
theorem writeCall (stable : Stable allowed property) (holds : property oracle store txns)
    (found : txns txn.seen.id = some txn.seen) (active : txn.state = .active) {key : Bytes}
    {value : Option Bytes} (may : allowed txn.id key value) :
    property oracle (txn.write store key value).2.2
      (txns.revise (txn.write store key value).2.1.seen) := by
  rw [MvccTransaction.write]
  split
  next => exact stable.block holds found active
  next free =>
    have stamped : store.writeIntent key value txn.readTs txn.id =
        store.writeIntent key value txn.id txn.id := by
      rw [show txn.readTs = txn.id from (stable.known holds found).2]
    have written := stable.write holds found active free may
    rw [stamped]
    dsimp only
    split
    next => exact stable.runGc written
    next => exact written

theorem putCall (stable : Stable allowed property) (holds : property oracle store txns)
    (found : txns txn.seen.id = some txn.seen) {key value : Bytes}
    (may : allowed txn.id key (some value)) :
    property oracle (txn.put store key value).2.2
      (txns.revise (txn.put store key value).2.1.seen) := by
  rw [MvccTransaction.put]
  split
  next =>
    rw [Txns.revise_eq_self found]
    exact holds
  next active => exact stable.writeCall holds found (not_not.mp active) may

theorem deleteCall (stable : Stable allowed property) (holds : property oracle store txns)
    (found : txns txn.seen.id = some txn.seen) {key : Bytes} (may : allowed txn.id key none) :
    property oracle (txn.delete store key).2.2
      (txns.revise (txn.delete store key).2.1.seen) := by
  by_cases active : txn.state = .active
  · have same := txn.get_seen store key
    have known : txns (txn.get store key).2.seen.id = some (txn.get store key).2.seen := by
      rw [same]
      exact found
    have isActive : (txn.get store key).2.seen.state = .active := by
      rw [same]
      exact active
    have isId : (txn.get store key).2.seen.id = txn.seen.id := by rw [same]
    rw [txn.delete_eq_write store key active]
    exact stable.writeCall holds known isActive (isId.symm ▸ may)
  · rw [MvccTransaction.delete, if_pos active, Txns.revise_eq_self found]
    exact holds

theorem commitCall (stable : Stable allowed property) (holds : property oracle store txns)
    (found : txns txn.seen.id = some txn.seen) :
    property (txn.commit store oracle).2.2.2 (txn.commit store oracle).2.2.1
      (txns.revise (txn.commit store oracle).2.1.seen) := by
  rw [MvccTransaction.commit]
  split
  next =>
    rw [Txns.revise_eq_self found]
    exact holds
  next active =>
    rw [not_not] at active
    split
    next =>
      rw [MvccStore.abortTransactionKeys_unregisterActive]
      exact stable.discard holds found active
    next valid =>
      rw [Bool.not_eq_true', Bool.not_eq_false] at valid
      exact stable.commit holds found active valid

theorem rollbackCall (stable : Stable allowed property) (holds : property oracle store txns)
    (found : txns txn.seen.id = some txn.seen) :
    property oracle (txn.rollback store).2.2 (txns.revise (txn.rollback store).2.1.seen) := by
  rw [MvccTransaction.rollback]
  split
  next =>
    rw [Txns.revise_eq_self found]
    exact holds
  next active => exact stable.discard holds found (not_not.mp active)

variable {world : World}

theorem look_seen (stable : Stable allowed property) (holds : world.Has property) {txId : TxId}
    {txn : MvccTransaction} (found : world.txn txId = some txn) :
    world.look txn.seen.id = some txn.seen := by
  have known : world.look txId = some txn.seen := Option.map_eq_some_iff.mpr ⟨txn, found, rfl⟩
  have isId : txn.seen.id = txId := (stable.known holds known).1
  rw [isId]
  exact known

/-- A call on a transaction keeps a property if it does so when there is one. -/
theorem onTxn (holds : world.Has property) {txId : TxId} {call : MvccTransaction → Reply × World}
    (keeps : ∀ txn, world.txn txId = some txn → (call txn).2.Has property) :
    (world.onTxn txId call).2.Has property := by
  rw [World.onTxn]
  split
  next txn found => exact keeps txn found
  next => exact holds

theorem step (stable : Stable allowed property) (holds : world.Has property) (call : Call)
    (may : ∀ txId key value, call.writes = some (txId, key, value) → allowed txId key value) :
    (world.step call).2.Has property := by
  cases call with
  | begin =>
      have begun := stable.begin holds
      rw [show MvccTransaction.new world.oracle = (MvccTransaction.new world.oracle).seen from rfl,
        ← World.look_record world _ (world.store.registerActive world.oracle)] at begun
      exact begun
  | get txId key =>
      refine onTxn holds fun txn found => ?_
      rw [World.Has, World.look_record, MvccTransaction.get_seen,
        Txns.revise_eq_self (stable.look_seen holds found)]
      exact holds
  | put txId key value =>
      refine onTxn holds fun txn found => ?_
      rw [World.Has, World.look_record]
      have isId : txn.id = txId :=
        (stable.known holds (Option.map_eq_some_iff.mpr ⟨txn, found, rfl⟩)).1
      exact stable.putCall holds (stable.look_seen holds found) (isId ▸ may txId key _ rfl)
  | delete txId key =>
      refine onTxn holds fun txn found => ?_
      rw [World.Has, World.look_record]
      have isId : txn.id = txId :=
        (stable.known holds (Option.map_eq_some_iff.mpr ⟨txn, found, rfl⟩)).1
      exact stable.deleteCall holds (stable.look_seen holds found) (isId ▸ may txId key _ rfl)
  | scanPrefix txId stem => exact onTxn holds fun _ _ => holds
  | commit txId =>
      refine onTxn holds fun txn found => ?_
      have committed := stable.commitCall holds (stable.look_seen holds found)
      rw [← World.look_record world _ (txn.commit world.store world.oracle).2.2.1] at committed
      exact committed
  | rollback txId =>
      refine onTxn holds fun txn found => ?_
      rw [World.Has, World.look_record]
      exact stable.rollbackCall holds (stable.look_seen holds found)
  | gc => exact stable.runGc holds
  | tick => exact stable.tick holds

end Stable

end JouleDB.Mvcc
