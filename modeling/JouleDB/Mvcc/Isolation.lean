import JouleDB.Mvcc.WholeCalls

/-!
# Isolation

In every run of whole calls a transaction reads its snapshot, and of two transactions that
write one key the second to commit has read the first.  A transaction that ends leaves
nothing behind, unless it ends because another one holds a key that it writes.
-/

namespace JouleDB.Mvcc

/-! ## Scans -/

namespace MvccStore

theorem lookup_scanPrefix {store : MvccStore} (nodup : (store.chains.map Prod.fst).Nodup)
    (stem : Bytes) (readTs : Nat) (txId : TxId) :
    ((store.scanPrefix stem readTs txId).map Prod.fst).Nodup ∧
      ∀ key, (store.scanPrefix stem readTs txId).lookup key =
        if stem.isPrefixOf key then store.sight key readTs txId else none := by
  have keeps : ∀ entry out, store.scanChain stem readTs txId entry = some out →
      out.1 = entry.1 := by
    intro entry out found
    rw [scanChain] at found
    split at found
    next =>
      split at found
      next => exact (Option.some.inj found) ▸ rfl
      next =>
        obtain ⟨version, -, rfl⟩ := Option.map_eq_some_iff.mp found
        rfl
    next => cases found
  constructor
  · exact nodup.sublist (keys_filterMap_sublist keeps store.chains)
  · intro key
    rw [scanPrefix, lookup_filterMap keeps nodup, sight, versions, chain]
    cases store.chains.lookup key with
    | none => simp
    | some chain =>
        dsimp only [Option.bind_some, Option.map_some, Option.getD_some, scanChain]
        rw [VersionChain.findByTxn, VersionChain.findVisible_eq]
        split
        next =>
          cases lastWith (VersionChain.isBy txId) chain.versions with
          | some version => rfl
          | none => cases lastWith (VersionChain.isVisible readTs) chain.versions <;> rfl
        next => rfl

end MvccStore

/-! ## Snapshots -/

theorem Sound.snapshot_unique {oracle : Nat} {store : MvccStore} {txns : Txns}
    (sound : Sound oracle store txns) {readTs : Nat} {key : Bytes} {value other : Option Bytes}
    (one : txns.Snapshot readTs key value) (two : txns.Snapshot readTs key other) :
    value = other := by
  rcases one with ⟨ts, early, wrote, largest⟩ | ⟨rfl, none⟩
  · rcases two with ⟨ts', early', wrote', largest'⟩ | ⟨-, none⟩
    · have same : ts = ts' :=
        Nat.le_antisymm (largest' ts value wrote early) (largest ts' other wrote' early')
      subst same
      obtain ⟨first, one, isOne, oneCommitted, oneDrawn, oneWrote⟩ := wrote
      obtain ⟨second, two, isTwo, twoCommitted, twoDrawn, twoWrote⟩ := wrote'
      by_cases apart : first = second
      · subst apart
        rw [isOne, Option.some.injEq] at isTwo
        subst isTwo
        exact Option.some.inj (oneWrote.symm.trans twoWrote)
      · have oneLater := sound.registry.later first one ts isOne oneDrawn
        have twoLater := sound.registry.later second two ts isTwo twoDrawn
        rw [← (sound.registry.known first one isOne).2.1] at oneLater
        rw [← (sound.registry.known second two isTwo).2.1] at twoLater
        rcases sound.reads.firstWins first second one two key ts ts apart isOne isTwo oneCommitted
          twoCommitted oneDrawn twoDrawn (by simp [oneWrote]) (by simp [twoWrote]) with seen | seen
        · exact absurd twoLater (Nat.not_lt.mpr seen)
        · exact absurd oneLater (Nat.not_lt.mpr seen)
    · exact absurd (none ts value wrote) (Nat.not_lt.mpr early)
  · rcases two with ⟨ts', early', wrote', -⟩ | ⟨rfl, -⟩
    · exact absurd (none ts' other wrote') (Nat.not_lt.mpr early')
    · rfl

namespace World

/-- Every run of whole calls keeps the invariant. -/
theorem invariant_run {world : World} (invariant : world.Invariant) (calls : List Call) :
    (world.after calls).Invariant := by
  induction calls generalizing world with
  | nil => exact invariant
  | cons call calls ih => exact ih (invariant.step call)

theorem invariant_after (gcThreshold drawn : Nat) (calls : List Call) :
    ((World.new gcThreshold drawn).after calls).Invariant :=
  invariant_run (Invariant.new gcThreshold drawn) calls

section Reader

variable {world : World} {txId : TxId} {txn : MvccTransaction}

/-- What an active transaction finds at a key that it has not written is its snapshot. -/
theorem Invariant.snapshot_sight (invariant : world.Invariant) (found : world.txn txId = some txn)
    (active : txn.state = .active) {key : Bytes} (unwritten : txn.writeSet.lookup key = none) :
    Txns.Snapshot world.txn txn.readTs key
      (world.store.sight key txn.readTs txn.id).join := by
  have look := invariant.look_seen found
  obtain ⟨isId, isTs, -⟩ := invariant.known found
  have registered : txn.readTs ∈ world.store.activeTxns := by
    rw [isTs, ← isId]
    exact invariant.registry.registered txn.seen.id txn.seen look active
  have noOwn : lastWith (VersionChain.isBy txn.id) (world.store.versions key) = none := by
    have owned := invariant.chains.owned txn.seen look active key
    rw [MvccTransaction.ownAt, show txn.seen.writeSet = txn.writeSet from rfl, unwritten] at owned
    exact owned
  have snapshot := invariant.reads.snapshot key txn.readTs (Or.inl registered)
  rw [Txns.snapshot_congr (wrote_look world)] at snapshot
  rw [MvccStore.sight, noOwn, Option.none_or]
  cases visible : lastWith (VersionChain.isVisible txn.readTs) (world.store.versions key) with
  | none =>
      rw [visible] at snapshot
      exact snapshot
  | some version =>
      rw [visible] at snapshot
      exact snapshot

end Reader

theorem Invariant.snapshot_value_unique {world : World} (invariant : world.Invariant)
    {readTs : Nat} {key : Bytes} {value other : Option Bytes}
    (one : Txns.Snapshot world.txn readTs key value)
    (two : Txns.Snapshot world.txn readTs key other) : value = other := by
  rw [← Txns.snapshot_congr (wrote_look world)] at one two
  exact invariant.snapshot_unique one two

/-- What an active transaction sees at a key: its own write, else the value of its snapshot. -/
def Sees (world : World) (txn : MvccTransaction) (key data : Bytes) : Prop :=
  match txn.writeSet.lookup key with
  | some own => own = some data
  | none => Txns.Snapshot world.txn txn.readTs key (some data)

theorem Invariant.get_snapshot {world : World} {txId : TxId} {txn : MvccTransaction}
    (invariant : world.Invariant) (found : world.txn txId = some txn)
    (active : txn.state = .active) {key : Bytes} (unwritten : txn.writeSet.lookup key = none) :
    ∃ value, (txn.get world.store key).1 = .ok value ∧
      Txns.Snapshot world.txn txn.readTs key value := by
  refine ⟨_, ?_, invariant.snapshot_sight found active unwritten⟩
  rw [← MvccStore.read_eq_sight, MvccTransaction.get, if_neg (not_not_intro active)]
  simp only [unwritten]
  split
  next value ts read => rw [read]
  next value read => rw [read]

theorem Invariant.lookup_scan {world : World} {txId : TxId} {txn : MvccTransaction}
    (invariant : world.Invariant) (found : world.txn txId = some txn) (stem key : Bytes) :
    (upsertAll (world.store.scanPrefix stem txn.readTs txn.id)
        (txn.writeSet.filter fun entry => stem.isPrefixOf entry.1)).lookup key =
      if stem.isPrefixOf key then
        (txn.writeSet.lookup key).or (world.store.sight key txn.readTs txn.id)
      else none := by
  have nodup : (txn.writeSet.map Prod.fst).Nodup :=
    invariant.registry.nodup txn.seen.id txn.seen (invariant.look_seen found)
  have nodup' : ((txn.writeSet.filter fun entry => stem.isPrefixOf entry.1).map
      Prod.fst).Nodup := nodup.sublist (List.filter_sublist.map Prod.fst)
  rw [lookup_upsertAll, lastUpdate_eq_lookup nodup', lookup_filter nodup,
    (MvccStore.lookup_scanPrefix invariant.chains.nodup stem txn.readTs txn.id).2]
  dsimp only
  cases starts : stem.isPrefixOf key with
  | true =>
      simp only [if_true]
      cases txn.writeSet.lookup key <;> rfl
  | false => cases txn.writeSet.lookup key <;> rfl

theorem Invariant.scan_snapshot {world : World} {txId : TxId} {txn : MvccTransaction}
    (invariant : world.Invariant) (found : world.txn txId = some txn)
    (active : txn.state = .active) (stem : Bytes) :
    ∃ pairs, txn.scanPrefix world.store stem = .ok pairs ∧ (pairs.map Prod.fst).Nodup ∧
      ∀ key data, (key, data) ∈ pairs ↔ stem.isPrefixOf key = true ∧ world.Sees txn key data := by
  have keeps : ∀ (entry : Bytes × Option Bytes) (out : Bytes × Bytes),
      (entry.2.map fun data => (entry.1, data)) = some out → out.1 = entry.1 := by
    intro entry out isOut
    obtain ⟨data, -, rfl⟩ := Option.map_eq_some_iff.mp isOut
    rfl
  have nodup : ((upsertAll (world.store.scanPrefix stem txn.readTs txn.id)
      (txn.writeSet.filter fun entry => stem.isPrefixOf entry.1)).map Prod.fst).Nodup :=
    nodup_upsertAll (MvccStore.lookup_scanPrefix invariant.chains.nodup stem txn.readTs txn.id).1 _
  refine ⟨_, by rw [MvccTransaction.scanPrefix, if_neg (not_not_intro active)],
    nodup.sublist (keys_filterMap_sublist keeps _), fun key data => ?_⟩
  rw [← lookup_eq_some_iff (nodup.sublist (keys_filterMap_sublist keeps _)),
    lookup_filterMap keeps nodup, invariant.lookup_scan found]
  cases starts : stem.isPrefixOf key with
  | false => simp
  | true =>
      rw [if_pos rfl, Sees]
      cases own : txn.writeSet.lookup key with
      | some value =>
          simp
      | none =>
          have snapshot := invariant.snapshot_sight found active own
          have isSeen : ((world.store.sight key txn.readTs txn.id).bind fun value =>
              (value.map fun data => (key, data)).map Prod.snd) =
              (world.store.sight key txn.readTs txn.id).join := by
            cases world.store.sight key txn.readTs txn.id with
            | none => rfl
            | some value => cases value <;> rfl
          rw [Option.none_or, isSeen]
          constructor
          · intro seen
            rw [seen] at snapshot
            exact ⟨rfl, snapshot⟩
          · intro sees
            exact invariant.snapshot_value_unique snapshot sees.2

/-- No lost update: in every run of whole calls, of two transactions that commit a write of one
key the commit timestamp of one is not above the read timestamp of the other. -/
theorem no_lost_update (gcThreshold drawn : Nat) (calls : List Call) :
    Txns.FirstWins ((World.new gcThreshold drawn).after calls).txn := by
  have wins := (invariant_after gcThreshold drawn calls).reads.firstWins
  intro first second one two key oneTs twoTs apart isOne isTwo
  exact wins first second one.seen two.seen key oneTs twoTs apart
    (Option.map_eq_some_iff.mpr ⟨one, isOne, rfl⟩) (Option.map_eq_some_iff.mpr ⟨two, isTwo, rfl⟩)

/-! ## Ended transactions -/

/-- The call is a write of an active transaction to a key that another one holds. -/
def Blocked (world : World) (txId : TxId) : Call → Prop
  | .put id key _ | .delete id key =>
      id = txId ∧ (∃ txn, world.txn id = some txn ∧ txn.state = .active) ∧
        world.store.checkWriteConflictDetailed key id ≠ none
  | _ => False

/-- The state of a transaction. -/
def stateOf (world : World) (txId : TxId) : Option TxState :=
  (world.txn txId).map MvccTransaction.state

/-- What a call does to the registry: nothing; or a transaction begins; or an active one is
blocked and stays registered; or an active one ends and leaves. -/
inductive Registers (world : World) (call : Call) (after : World) : Prop where
  | quiet (unblocked : ∀ id, ¬ world.Blocked id call)
      (states : ∀ id, after.stateOf id = world.stateOf id)
      (active : ∀ id, id ∈ after.store.activeTxns ↔ id ∈ world.store.activeTxns)
  | begins (unblocked : ∀ id, ¬ world.Blocked id call)
      (states : ∀ id, after.stateOf id = if id = world.oracle then some .active else world.stateOf id)
      (active : ∀ id, id ∈ after.store.activeTxns ↔ id ∈ world.store.activeTxns ∨ id = world.oracle)
  | blocks (txId : TxId) (blocked : ∀ id, world.Blocked id call ↔ id = txId)
      (states : ∀ id, after.stateOf id = if id = txId then some .aborted else world.stateOf id)
      (active : ∀ id, id ∈ after.store.activeTxns ↔ id ∈ world.store.activeTxns)
  | ends (txId : TxId) (unblocked : ∀ id, ¬ world.Blocked id call)
      (wasActive : world.stateOf txId = some .active) (state : TxState) (ended : state ≠ .active)
      (states : ∀ id, after.stateOf id = if id = txId then some state else world.stateOf id)
      (active : ∀ id, id ∈ after.store.activeTxns ↔ id ∈ world.store.activeTxns ∧ id ≠ txId)

theorem stateOf_record (world : World) (txn : MvccTransaction) (store : MvccStore) (id : TxId) :
    (world.record txn store).stateOf id =
      if id = txn.id then some txn.state else world.stateOf id := by
  rw [stateOf, World.txn, record, lookup_upsert]
  split <;> rfl

theorem activeTxns_runGc (store : MvccStore) : store.runGc.activeTxns = store.activeTxns := by
  rw [MvccStore.runGc]
  split <;> rfl

section Registers

variable {world : World} {txId : TxId} {txn : MvccTransaction}

/-- A call that keeps the state of its transaction. -/
theorem Registers.of_record {call : Call} (unblocked : ∀ id, ¬ world.Blocked id call)
    {after : MvccTransaction} {store : MvccStore} (found : world.txn after.id = some txn)
    (state : after.state = txn.state) (active : store.activeTxns = world.store.activeTxns) :
    Registers world call (world.record after store) := by
  refine .quiet unblocked (fun id => ?_) (fun id => by rw [record, active])
  rw [stateOf_record]
  split
  next here => rw [here, stateOf, found, state, Option.map_some]
  next => rfl

/-- A write: the transaction is blocked, or it goes on. -/
theorem Registers.write (invariant : world.Invariant) {call : Call} {key : Bytes}
    (known : world.txn txId = some txn)
    (blocked : ∀ id, world.Blocked id call ↔
      id = txId ∧ world.store.checkWriteConflictDetailed key txId ≠ none)
    {writer : MvccTransaction} (same : writer.seen = txn.seen) (value : Option Bytes) :
    Registers world call (world.record (writer.write world.store key value).2.1
      (writer.write world.store key value).2.2) := by
  have writerId : writer.id = txId := by
    rw [show writer.id = writer.seen.id from rfl, same]
    exact (invariant.known known).1
  have writerState : writer.state = txn.state := by
    rw [show writer.state = writer.seen.state from rfl, same]
    rfl
  rw [MvccTransaction.write]
  split
  next holder held =>
    rw [writerId] at held
    refine .blocks txId (fun id => ?_) (fun id => ?_) (fun id => Iff.rfl)
    · rw [blocked id, held]
      simp
    · rw [stateOf_record]
      simp only [writerId]
  next free =>
    rw [writerId] at free
    have kept : (world.store.writeIntent key value writer.readTs writer.id).1.activeTxns =
        world.store.activeTxns :=
      (MvccStore.writeIntent_keeps invariant.chains.nodup value writer.readTs).2.1
    refine .of_record (fun id isBlocked => ?_) (writerId ▸ known) writerState ?_
    · exact ((blocked id).mp isBlocked).2 free
    · dsimp only
      split
      next => rw [activeTxns_runGc, kept]
      next => exact kept

theorem Registers.of_ended (invariant : world.Invariant) {call : Call}
    (unblocked : ∀ id, ¬ world.Blocked id call) (known : world.txn txId = some txn)
    (active : txn.state = .active) {after : MvccTransaction} {store : MvccStore}
    (same : after.id = txn.id) (ended : after.state ≠ .active)
    (leaves : ∀ id, id ∈ store.activeTxns ↔ id ∈ world.store.activeTxns ∧ id ≠ txn.id) {oracle : Nat} :
    Registers world call { world.record after store with oracle := oracle } := by
  have isId := (invariant.known known).1
  refine .ends txn.id unblocked ?_ after.state ended (fun id => ?_) leaves
  · rw [isId, stateOf, known, Option.map_some, active]
  · rw [← same]
    exact stateOf_record world after store id

theorem Registers.same {call : Call} (unblocked : ∀ id, ¬ world.Blocked id call) :
    Registers world call world :=
  .quiet unblocked (fun _ => rfl) (fun _ => Iff.rfl)

/-- A call on a transaction, when there is one. -/
theorem Registers.onTxn {call : Call} {act : MvccTransaction → Reply × World}
    (unblocked : world.txn txId = none → ∀ id, ¬ world.Blocked id call)
    (acts : ∀ txn, world.txn txId = some txn → Registers world call (act txn).2) :
    Registers world call (world.onTxn txId act).2 := by
  rw [World.onTxn]
  split
  next txn known => exact acts txn known
  next unknown => exact .same (unblocked unknown)

/-- A write is blocked exactly when another transaction holds its key. -/
theorem blocked_iff (known : world.txn txId = some txn) (active : txn.state = .active)
    {key : Bytes} (id : TxId) :
    (txId = id ∧ (∃ txn, world.txn txId = some txn ∧ txn.state = .active) ∧
        world.store.checkWriteConflictDetailed key txId ≠ none) ↔
      id = txId ∧ world.store.checkWriteConflictDetailed key txId ≠ none := by
  constructor
  · rintro ⟨rfl, -, held⟩
    exact ⟨rfl, held⟩
  · rintro ⟨rfl, held⟩
    exact ⟨rfl, ⟨txn, known, active⟩, held⟩

/-- A put or delete of a transaction that is not active is not blocked. -/
theorem not_blocked_of_ended (known : world.txn txId = some txn) (ended : txn.state ≠ .active)
    {id : TxId} {held : Prop} :
    ¬ (txId = id ∧ (∃ txn, world.txn txId = some txn ∧ txn.state = .active) ∧ held) := by
  rintro ⟨-, ⟨other, isOther, active⟩, -⟩
  rw [known, Option.some.injEq] at isOther
  exact ended (isOther ▸ active)

theorem not_blocked_of_unknown (unknown : world.txn txId = none) {id : TxId} {held : Prop} :
    ¬ (txId = id ∧ (∃ txn, world.txn txId = some txn ∧ txn.state = .active) ∧ held) := by
  rintro ⟨-, ⟨other, isOther, -⟩, -⟩
  cases unknown.symm.trans isOther

theorem step_registers (invariant : world.Invariant) (call : Call) :
    Registers world call (world.step call).2 := by
  cases call with
  | begin =>
      refine .begins (fun _ blocked => blocked) (fun id => ?_) (fun id => ?_)
      · exact stateOf_record world (.new world.oracle) (world.store.registerActive world.oracle) id
      · exact MvccStore.mem_registerActive
  | get txId key =>
      have unblocked : ∀ id, ¬ world.Blocked id (.get txId key) := fun _ blocked => blocked
      refine .onTxn (fun _ => unblocked) fun txn known => ?_
      have same := txn.get_seen world.store key
      have isId : (txn.get world.store key).2.seen.id = txId := by
        rw [same]
        exact (invariant.known known).1
      have isState : (txn.get world.store key).2.seen.state = txn.state := by
        rw [same]
        rfl
      exact .of_record unblocked (isId.symm ▸ known) isState rfl
  | put txId key value =>
      refine .onTxn (fun unknown _ => not_blocked_of_unknown unknown) fun txn known => ?_
      have isId := (invariant.known known).1
      dsimp only [MvccTransaction.put]
      split
      next ended =>
        have unblocked : ∀ id, ¬ world.Blocked id (.put txId key value) :=
          fun _ => not_blocked_of_ended known ended
        exact .of_record unblocked (isId.symm ▸ known) rfl rfl
      next active =>
        have blocked : ∀ id, world.Blocked id (.put txId key value) ↔ _ :=
          blocked_iff known (not_not.mp active)
        exact .write invariant known blocked rfl (some value)
  | delete txId key =>
      refine .onTxn (fun unknown _ => not_blocked_of_unknown unknown) fun txn known => ?_
      have isId := (invariant.known known).1
      by_cases active : txn.state = .active
      · have blocked : ∀ id, world.Blocked id (.delete txId key) ↔ _ := blocked_iff known active
        have written := Registers.write invariant known blocked (txn.get_seen world.store key) none
        rw [← txn.delete_eq_write world.store key active] at written
        exact written
      · dsimp only [MvccTransaction.delete]
        rw [if_pos active]
        have unblocked : ∀ id, ¬ world.Blocked id (.delete txId key) :=
          fun _ => not_blocked_of_ended known active
        exact .of_record unblocked (isId.symm ▸ known) rfl rfl
  | scanPrefix txId stem =>
      have unblocked : ∀ id, ¬ world.Blocked id (.scanPrefix txId stem) := fun _ blocked => blocked
      exact .onTxn (fun _ => unblocked) fun _ _ => .same unblocked
  | commit txId =>
      have unblocked : ∀ id, ¬ world.Blocked id (.commit txId) := fun _ blocked => blocked
      refine .onTxn (fun _ => unblocked) fun txn known => ?_
      have isId := (invariant.known known).1
      dsimp only [MvccTransaction.commit]
      split
      next => exact .of_record unblocked (isId.symm ▸ known) rfl rfl
      next active =>
        rw [not_not] at active
        split
        next =>
          refine .of_ended invariant unblocked known active ?_ ?_ fun id => ?_
          · rfl
          · exact TxState.noConfusion
          · rw [MvccStore.abortTransactionKeys_unregisterActive, MvccStore.mem_unregisterActive,
              (MvccStore.abortTransactionKeys_keeps invariant.chains.nodup _).2.1]
        next =>
          refine .of_ended invariant unblocked known active ?_ ?_ fun id => ?_
          · rfl
          · exact TxState.noConfusion
          · rw [MvccStore.mem_unregisterActive,
              (MvccStore.commitTransactionWithTsKeys_keeps invariant.chains.nodup _ _).2.1]
  | rollback txId =>
      have unblocked : ∀ id, ¬ world.Blocked id (.rollback txId) := fun _ blocked => blocked
      refine .onTxn (fun _ => unblocked) fun txn known => ?_
      have isId := (invariant.known known).1
      dsimp only [MvccTransaction.rollback]
      split
      next => exact .of_record unblocked (isId.symm ▸ known) rfl rfl
      next active =>
        refine .of_ended invariant unblocked known (not_not.mp active) ?_ ?_ fun id => ?_
        · rfl
        · exact TxState.noConfusion
        · rw [MvccStore.mem_unregisterActive,
            (MvccStore.abortTransactionKeys_keeps invariant.chains.nodup _).2.1]
  | gc =>
      refine .quiet (fun _ blocked => blocked) (fun _ => rfl) (fun id => ?_)
      rw [step, activeTxns_runGc]
  | tick =>
      have unblocked : ∀ id, ¬ world.Blocked id .tick := fun _ blocked => blocked
      exact .quiet unblocked (fun _ => rfl) (fun _ => Iff.rfl)

end Registers

/-- Some call of a run was blocked. -/
def BlockedIn (world : World) (calls : List Call) (txId : TxId) : Prop :=
  ∃ front call back, calls = front ++ call :: back ∧ (world.after front).Blocked txId call

/-- The transaction has no uncommitted versions and is not registered, and no later call is told
that it holds a key. -/
def LeavesNothing (world : World) (txId : TxId) : Prop :=
  (∀ key, ∀ version ∈ world.store.versions key, version.createdBy = txId →
    version.committed = true) ∧
  txId ∉ world.store.activeTxns ∧
  ∀ more call, ¬ ((world.after more).step call).1.NamesHolder txId

section Ended

variable {world : World} {txId : TxId} {call : Call}

theorem not_blockedIn_nil : ¬ world.BlockedIn [] txId := by
  rintro ⟨front, call, back, split, -⟩
  cases front <;> cases split

theorem blockedIn_cons {calls : List Call} :
    world.BlockedIn (call :: calls) txId ↔
      world.Blocked txId call ∨ (world.step call).2.BlockedIn calls txId := by
  constructor
  · rintro ⟨front, other, back, split, blocked⟩
    rcases List.cons_eq_append_iff.mp split with ⟨rfl, same⟩ | ⟨front, rfl, rfl⟩
    · cases same
      exact Or.inl blocked
    · exact Or.inr ⟨front, other, back, rfl, blocked⟩
  · rintro (blocked | ⟨front, other, back, rfl, blocked⟩)
    · exact ⟨[], call, calls, rfl, blocked⟩
    · exact ⟨call :: front, other, back, rfl, blocked⟩

theorem stateOf_of_blocked (blocked : world.Blocked txId call) :
    world.stateOf txId = some .active := by
  have active : ∀ {id : TxId} {held : Prop},
      id = txId ∧ (∃ txn, world.txn id = some txn ∧ txn.state = .active) ∧ held →
      world.stateOf txId = some .active := by
    rintro id held ⟨rfl, ⟨txn, known, isActive⟩, -⟩
    rw [stateOf, known, Option.map_some, isActive]
  cases call with
  | put id key value => exact active blocked
  | delete id key => exact active blocked
  | _ => exact blocked.elim

theorem Invariant.stateOf_oracle (invariant : world.Invariant) :
    world.stateOf world.oracle = none := by
  cases known : world.txn world.oracle with
  | none => rw [stateOf, known, Option.map_none]
  | some txn => exact absurd (invariant.known known).2.2 (Nat.lt_irrefl _)

theorem Invariant.stateOf_step (invariant : world.Invariant) {state : TxState}
    (known : world.stateOf txId = some state) (ended : state ≠ .active) (call : Call) :
    (world.step call).2.stateOf txId = some state := by
  have apart : ∀ {other : TxId}, world.stateOf other = some .active → txId ≠ other := by
    rintro other active rfl
    rw [known, Option.some.injEq] at active
    exact ended active
  cases step_registers invariant call with
  | quiet unblocked states active => rw [states, known]
  | begins unblocked states active =>
      rw [states, if_neg, known]
      rintro rfl
      cases invariant.stateOf_oracle.symm.trans known
  | blocks other blocked states active =>
      rw [states, if_neg (apart (stateOf_of_blocked ((blocked other).mpr rfl))), known]
  | ends other unblocked wasActive final isFinal states active =>
      rw [states, if_neg (apart wasActive), known]

/-- The transactions that were blocked have ended, and a transaction is registered exactly when
it is active or was blocked. -/
structure Tracks (world : World) (blocked : TxId → Prop) : Prop where
  ended : ∀ id, blocked id → ∃ state, world.stateOf id = some state ∧ state ≠ .active
  registered : ∀ id state, world.stateOf id = some state →
    (id ∈ world.store.activeTxns ↔ state = .active ∨ blocked id)

theorem Tracks.step {blocked : TxId → Prop} (tracks : world.Tracks blocked)
    (invariant : world.Invariant) (call : Call) :
    (world.step call).2.Tracks fun id => blocked id ∨ world.Blocked id call where
  ended id was := by
    rcases was with before | now
    · obtain ⟨state, known, isEnded⟩ := tracks.ended id before
      exact ⟨state, invariant.stateOf_step known isEnded call, isEnded⟩
    · cases step_registers invariant call with
      | quiet unblocked states active => exact absurd now (unblocked id)
      | begins unblocked states active => exact absurd now (unblocked id)
      | blocks other isBlocked states active =>
          exact ⟨.aborted, by rw [states, if_pos ((isBlocked id).mp now)], TxState.noConfusion⟩
      | ends other unblocked wasActive final isFinal states active => exact absurd now (unblocked id)
  registered id state known := by
    cases step_registers invariant call with
    | quiet unblocked states active =>
        rw [states] at known
        rw [active, tracks.registered id state known]
        simp [unblocked id]
    | begins unblocked states active =>
        rw [states] at known
        rw [active]
        split at known
        next here =>
          cases known
          simp [here]
        next other =>
          rw [tracks.registered id state known]
          simp [unblocked id, other]
    | blocks other isBlocked states active =>
        rw [states] at known
        rw [active, isBlocked]
        split at known
        next here =>
          have wasActive := stateOf_of_blocked ((isBlocked id).mpr here)
          have member := (tracks.registered id .active wasActive).mpr (Or.inl rfl)
          simp [here, here ▸ member]
        next apart =>
          rw [tracks.registered id state known]
          simp [apart]
    | ends other unblocked wasActive final isFinal states active =>
        rw [states] at known
        rw [active]
        split at known
        next here =>
          cases known
          have notBlocked : ¬ blocked id := by
            intro was
            obtain ⟨state, isState, isEnded⟩ := tracks.ended id was
            rw [here, wasActive, Option.some.injEq] at isState
            exact isEnded isState.symm
          simp [here, isFinal, here ▸ notBlocked, unblocked other]
        next apart =>
          rw [tracks.registered id state known]
          simp [unblocked id, apart]

theorem Tracks.after {blocked : TxId → Prop} (tracks : world.Tracks blocked)
    (invariant : world.Invariant) (calls : List Call) :
    (world.after calls).Tracks fun id => blocked id ∨ world.BlockedIn calls id := by
  induction calls generalizing world blocked with
  | nil =>
      simp only [not_blockedIn_nil, or_false]
      exact tracks
  | cons call calls ih =>
      have later := ih (tracks.step invariant call) (invariant.step call)
      simp only [blockedIn_cons, ← or_assoc]
      exact later

/-- A conflict names the transaction of an uncommitted version. -/
theorem checkWriteConflictDetailed_eq_some {store : MvccStore} {key : Bytes} {holder : TxId}
    (held : store.checkWriteConflictDetailed key txId = some holder) :
    ∃ version ∈ store.versions key, version.createdBy = holder ∧ version.committed = false := by
  obtain ⟨chain, present, found⟩ := Option.bind_eq_some_iff.mp held
  obtain ⟨version, isLast, rfl⟩ := Option.map_eq_some_iff.mp found
  obtain ⟨member, foreign⟩ := mem_of_lastWith isLast
  refine ⟨version, ?_, rfl, ?_⟩
  · rw [MvccStore.versions, present]
    exact member
  · rw [MvccStore.isForeign, Bool.and_eq_true, Bool.not_eq_true'] at foreign
    exact foreign.1

theorem conflict_of_write {txn : MvccTransaction} {store : MvccStore} {key other : Bytes}
    {value : Option Bytes}
    (failed : (txn.write store key value).1 = .error (.writeConflict other txId)) :
    store.checkWriteConflictDetailed key txn.id = some txId := by
  rw [MvccTransaction.write] at failed
  split at failed
  next holder held =>
    cases failed
    exact held
  next => cases failed

theorem conflict_of_put {txn : MvccTransaction} {store : MvccStore} {key other value : Bytes}
    (failed : (txn.put store key value).1 = .error (.writeConflict other txId)) :
    store.checkWriteConflictDetailed key txn.id = some txId := by
  rw [MvccTransaction.put] at failed
  split at failed
  next => cases failed
  next => exact conflict_of_write failed

theorem conflict_of_delete {txn : MvccTransaction} {store : MvccStore} {key other : Bytes}
    (failed : (txn.delete store key).1 = .error (.writeConflict other txId)) :
    ∃ id, store.checkWriteConflictDetailed key id = some txId := by
  rw [MvccTransaction.delete] at failed
  split at failed
  next => cases failed
  next active =>
    obtain ⟨value, read⟩ := txn.get_ok store key (not_not.mp active)
    split at failed
    next unread =>
      rw [unread] at read
      cases read
    next reader _ =>
      split at failed
      next written =>
        cases failed
        exact ⟨reader.id, conflict_of_write (congrArg Prod.fst written)⟩
      next => cases failed

theorem eq_writeConflict_of_done {result : Except TransactionError Unit}
    (named : (Reply.done result).NamesHolder txId) :
    ∃ key, result = .error (.writeConflict key txId) := by
  unfold Reply.NamesHolder at named
  split at named
  next key holder same =>
    cases same
    exact ⟨key, by rw [named]⟩
  next same => cases same
  next => exact named.elim

theorem eq_writeConflict_of_existed {result : Except TransactionError Bool}
    (named : (Reply.existed result).NamesHolder txId) :
    ∃ key, result = .error (.writeConflict key txId) := by
  unfold Reply.NamesHolder at named
  split at named
  next same => cases same
  next key holder same =>
    cases same
    exact ⟨key, by rw [named]⟩
  next => exact named.elim

theorem named_onTxn {id : TxId} {act : MvccTransaction → Reply × World}
    (named : (world.onTxn id act).1.NamesHolder txId) :
    ∃ txn, (act txn).1.NamesHolder txId := by
  rw [onTxn] at named
  split at named
  next txn known => exact ⟨txn, named⟩
  next => exact named.elim

/-- A transaction that is named as a holder is registered. -/
theorem Invariant.registered_of_named (invariant : world.Invariant)
    (named : (world.step call).1.NamesHolder txId) : txId ∈ world.store.activeTxns := by
  have held : ∃ key id, world.store.checkWriteConflictDetailed key id = some txId := by
    cases call with
    | put id key value =>
        obtain ⟨txn, named⟩ := named_onTxn named
        obtain ⟨other, failed⟩ := eq_writeConflict_of_done named
        exact ⟨key, txn.id, conflict_of_put failed⟩
    | delete id key =>
        obtain ⟨txn, named⟩ := named_onTxn named
        obtain ⟨other, failed⟩ := eq_writeConflict_of_existed named
        exact ⟨key, conflict_of_delete failed⟩
    | commit id =>
        obtain ⟨txn, named⟩ := named_onTxn named
        dsimp only [MvccTransaction.commit] at named
        split at named
        next => exact named.elim
        next => split at named <;> exact named.elim
    | rollback id =>
        obtain ⟨txn, named⟩ := named_onTxn named
        dsimp only [MvccTransaction.rollback] at named
        split at named <;> exact named.elim
    | get id key =>
        obtain ⟨txn, named⟩ := named_onTxn named
        exact named.elim
    | scanPrefix id stem =>
        obtain ⟨txn, named⟩ := named_onTxn named
        exact named.elim
    | begin => exact named.elim
    | gc => exact named.elim
    | tick => exact named.elim
  obtain ⟨key, id, held⟩ := held
  obtain ⟨version, member, rfl, pending⟩ := checkWriteConflictDetailed_eq_some held
  exact invariant.chains.pending key version member pending

/-- An ended transaction stays so in a run, and no call of it is blocked any more. -/
theorem Invariant.stateOf_after (invariant : world.Invariant) {state : TxState}
    (known : world.stateOf txId = some state) (ended : state ≠ .active) (calls : List Call) :
    (world.after calls).stateOf txId = some state ∧ ¬ world.BlockedIn calls txId := by
  induction calls generalizing world with
  | nil => exact ⟨known, not_blockedIn_nil⟩
  | cons call calls ih =>
      obtain ⟨later, unblocked⟩ :=
        ih (invariant.step call) (invariant.stateOf_step known ended call)
      refine ⟨later, fun blocked => ?_⟩
      rcases blockedIn_cons.mp blocked with now | after
      · rw [stateOf_of_blocked now, Option.some.injEq] at known
        exact ended known.symm
      · exact unblocked after

end Ended

/-- In every run of whole calls an ended transaction leaves nothing behind if and only if none of
its writes met a key that another transaction held. -/
theorem ended_leaves_nothing_iff (gcThreshold drawn : Nat) (calls : List Call) (txId : TxId)
    (txn : MvccTransaction)
    (found : ((World.new gcThreshold drawn).after calls).txn txId = some txn)
    (ended : txn.state ≠ .active) :
    ((World.new gcThreshold drawn).after calls).LeavesNothing txId ↔
      ¬ (World.new gcThreshold drawn).BlockedIn calls txId := by
  have invariant := invariant_after gcThreshold drawn calls
  have start : (World.new gcThreshold drawn).Tracks fun _ => False :=
    ⟨fun _ blocked => blocked.elim, fun _ _ known => nomatch known⟩
  have tracks := start.after (Invariant.new gcThreshold drawn) calls
  have known : ((World.new gcThreshold drawn).after calls).stateOf txId = some txn.state := by
    rw [stateOf, found, Option.map_some]
  have registered := tracks.registered txId txn.state known
  simp only [ended, false_or] at registered
  constructor
  · rintro ⟨-, absent, -⟩ blocked
    exact absent (registered.mpr blocked)
  · intro unblocked
    have absent := fun member => unblocked (registered.mp member)
    refine ⟨fun key version member created => ?_, absent, fun more call named => ?_⟩
    · by_contra pending
      rw [Bool.not_eq_true] at pending
      exact absent (created ▸ invariant.chains.pending key version member pending)
    · obtain ⟨later, stillUnblocked⟩ := invariant.stateOf_after known ended more
      have laterTracks := tracks.after invariant more
      have member := (invariant_run invariant more).registered_of_named named
      rcases (laterTracks.registered txId txn.state later).mp member with active | (none | before) | after
      · exact ended active
      · exact none
      · exact unblocked before
      · exact stillUnblocked after

/-- A transaction that commits leaves nothing behind. -/
theorem ended_leaves_nothing_committed :
    ((World.new 0 0).after [.begin, .put 1 [7] [1], .commit 1]).LeavesNothing 1 := by
  refine (ended_leaves_nothing_iff 0 0 [.begin, .put 1 [7] [1], .commit 1] 1 _ rfl
    TxState.noConfusion).mpr ?_
  rw [blockedIn_cons, blockedIn_cons, blockedIn_cons]
  rintro (none | ⟨-, -, held⟩ | none | blocked)
  · exact none
  · exact held rfl
  · exact none
  · exact not_blockedIn_nil blocked

/-- The second transaction writes a key and is then blocked by the first one.  It has ended, but
its version is still uncommitted, it is still registered, and a third transaction is told that
it holds the key. -/
theorem blocked_transaction_stays :
    ∃ world txn, world = (World.new 10000 0).after [.begin, .begin, .put 1 [1] [0], .put 2 [2] [0],
        .put 2 [1] [0], .begin] ∧
      world.txn 2 = some txn ∧ txn.state = .aborted ∧
      ⟨some [0], 2, 2, false⟩ ∈ world.store.versions [2] ∧ 2 ∈ world.store.activeTxns ∧
      (world.step (.put 3 [2] [0])).1 = .done (.error (.writeConflict [2] 2)) ∧
      ¬ world.LeavesNothing 2 := by
  refine ⟨_, _, rfl, rfl, rfl, by decide, by decide, rfl, ?_⟩
  rintro ⟨-, absent, -⟩
  exact absurd (by decide) absent

end World

end JouleDB.Mvcc
