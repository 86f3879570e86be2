import JouleDB.Mvcc.Calls

/-!
# Whole calls

Every call keeps the invariant of the version store.  Snapshot reads, the absence of lost
updates, and what an ended transaction leaves behind follow from it.
-/

namespace JouleDB.Mvcc

namespace Sound

variable {oracle : Nat} {store : MvccStore} {txns : Txns} {txn : MvccTransaction}

theorem tick (sound : Sound oracle store txns) : Sound (oracle + 1) store txns where
  registry := sound.registry.tick
  chains := sound.chains
  reads :=
    { snapshot := fun key readTs reader =>
        sound.reads.snapshot key readTs (reader.imp_right Nat.le_of_succ_le)
      kept := sound.reads.kept
      firstWins := sound.reads.firstWins }

/-- No transaction has the next timestamp as its id. -/
theorem fresh (sound : Sound oracle store txns) : txns oracle = none := by
  cases found : txns oracle with
  | none => rfl
  | some txn => exact absurd (sound.registry.known oracle txn found).2.2 (Nat.lt_irrefl oracle)

/-- No version is by a transaction that has not begun. -/
theorem not_by_fresh (sound : Sound oracle store txns) {key : Bytes} {version : Version}
    (member : version ∈ store.versions key) : version.createdBy ≠ oracle := by
  intro same
  cases committed : version.committed with
  | true =>
      obtain ⟨txn, found, -⟩ := sound.chains.authored key version member committed
      rw [same, sound.fresh] at found
      cases found
  | false =>
      have registered := sound.chains.pending key version member committed
      exact absurd (same ▸ (sound.registry.live _ registered).2) (Nat.lt_irrefl _)

theorem begin (sound : Sound oracle store txns) :
    Sound (oracle + 1) (store.registerActive oracle) (txns.revise (.new oracle)) := by
  have wrote : (txns.revise (.new oracle)).Wrote = txns.Wrote := by
    apply Txns.wrote_revise_of_not_committed
    · intro old found
      cases sound.fresh.symm.trans found
    · exact TxState.noConfusion
  constructor
  · exact sound.registry.register
  · constructor
    · exact sound.chains.nodup
    · exact sound.chains.ordered
    · intro key version member committed
      rw [Txns.revise_of_ne (sound.not_by_fresh member)]
      exact sound.chains.authored key version member committed
    · intro key version member pending
      exact MvccStore.mem_registerActive.mpr
        (Or.inl (sound.chains.pending key version member pending))
    · intro reader found active key
      rcases Txns.revise_cases found with ⟨-, rfl⟩ | ⟨-, found⟩
      · refine lastWith_eq_none.mpr fun version member => ?_
        exact decide_eq_false (sound.not_by_fresh member)
      · exact sound.chains.owned reader found active key
    · exact sound.chains.covered
  · constructor
    · intro key readTs reader
      rw [Txns.snapshot_congr wrote]
      apply sound.reads.snapshot
      rcases reader with member | later
      · rcases MvccStore.mem_registerActive.mp member with old | rfl
        · exact Or.inl old
        · exact Or.inr (Nat.le_refl readTs)
      · exact Or.inr (Nat.le_of_succ_le later)
    · intro key commitTs value hasWritten readTs member earlier
      rw [wrote] at hasWritten
      rcases MvccStore.mem_registerActive.mp member with old | rfl
      · exact sound.reads.kept key commitTs value hasWritten readTs old earlier
      · exact absurd (sound.registry.drawn key commitTs value hasWritten) (Nat.lt_asymm earlier)
    · exact Txns.firstWins_revise sound.reads.firstWins TxState.noConfusion

theorem runGc (sound : Sound oracle store txns) : Sound oracle store.runGc txns := by
  rw [MvccStore.runGc]
  split
  next => exact sound
  next =>
    have nodup := sound.chains.nodup
    have sublist : ∀ key, ((store.sweep store.oldestActiveTs).versions key).Sublist
        (store.versions key) := by
      intro key
      rw [MvccStore.versions_sweep nodup]
      exact keepLast_sublist _
    constructor
    · exact sound.registry.congr rfl rfl
    · constructor
      · exact MvccStore.nodup_sweep nodup _
      · exact fun key => (sound.chains.ordered key).sublist (sublist key)
      · exact fun key version member =>
          sound.chains.authored key version ((sublist key).subset member)
      · exact fun key version member =>
          sound.chains.pending key version ((sublist key).subset member)
      · intro reader found active key
        rw [← sound.chains.owned reader found active key, MvccStore.versions_sweep nodup]
        apply lastWith_keepLast_of_apart
        intro version member own
        cases committed : version.committed with
        | true =>
            have other := sound.chains.not_committed found active member committed
            exact absurd (of_decide_eq_true own) other
        | false => simp [VersionChain.isOld, committed]
      · exact fun key version => MvccStore.covers_sweep nodup
    · constructor
      · intro key readTs reader
        rw [MvccStore.versions_sweep nodup, lastWith_keepLast]
        · exact sound.reads.snapshot key readTs reader
        · intro version _ old
          have low := sound.registry.bound_le reader
          simp only [VersionChain.isOld, Bool.and_eq_true, decide_eq_true_eq] at old
          simp only [VersionChain.isVisible, old.1, Bool.true_and, decide_eq_true_eq]
          exact (Nat.le_of_lt old.2).trans low
      · intro key commitTs value hasWritten readTs member earlier
        obtain ⟨version, inChain, committed, isTs⟩ :=
          sound.reads.kept key commitTs value hasWritten readTs member earlier
        refine ⟨version, ?_, committed, isTs⟩
        rw [MvccStore.versions_sweep nodup]
        apply mem_keepLast inChain
        have low := sound.registry.bound_le (Or.inl member)
        simp only [VersionChain.isOld, isTs, Bool.and_eq_false_iff, decide_eq_false_iff_not]
        exact Or.inr (Nat.not_lt.mpr (low.trans (Nat.le_of_lt earlier)))
      · exact sound.reads.firstWins

theorem not_committed_of_active {txId : TxId} (found : txns txId = some txn)
    (active : txn.state = .active) (old : MvccTransaction) (isOld : txns txId = some old) :
    old.state ≠ .committed := by
  rw [← Option.some.inj (found.symm.trans isOld), active]
  exact TxState.noConfusion

/-- A transaction writes a key that no other one holds. -/
theorem write (sound : Sound oracle store txns) (found : txns txn.id = some txn)
    (active : txn.state = .active) {key : Bytes}
    (free : store.checkWriteConflictDetailed key txn.id = none) (value : Option Bytes) :
    Sound oracle (store.writeIntent key value txn.id txn.id).1
      (txns.revise { txn with writeSet := upsert txn.writeSet key value }) := by
  have same : store.SameActive (store.writeIntent key value txn.id txn.id).1 :=
    (MvccStore.writeIntent_keeps sound.chains.nodup value txn.id).2
  have turn := sound.chains.turn_write found active free value
  have open_ : txn.state ≠ .committed := by
    rw [active]
    exact TxState.noConfusion
  have wrote : (txns.revise { txn with writeSet := upsert txn.writeSet key value }).Wrote =
      txns.Wrote :=
    Txns.wrote_revise_of_not_committed (not_committed_of_active found active) open_
  have pending : ∀ other version, (if other = key then some (ownVersion txn.id value)
      else txn.ownAt other) = some version →
      version.createdBy = txn.id ∧ version.committed = false := by
    intro other version isNew
    split at isNew
    next =>
      cases isNew
      exact ⟨rfl, rfl⟩
    next =>
      obtain ⟨data, -, rfl⟩ := Option.map_eq_some_iff.mp isNew
      exact ⟨rfl, rfl⟩
  constructor
  · refine (sound.registry.congr same.1 same.2).revise found rfl id ?_ ?_ ?_
    · rw [wrote]
      exact sound.registry.drawn
    · exact fun commitTs => sound.registry.later txn.id txn commitTs found
    · exact nodup_upsert (sound.registry.nodup txn.id txn found) key value
  · refine sound.chains.turn found active rfl turn ?_ ?_ ?_ ?_
    · exact fun other version isNew => (pending other version isNew).1
    · intro other version isNew committed
      rw [(pending other version isNew).2] at committed
      cases committed
    · intro _ _ _ _
      rw [same.1]
      exact sound.registry.registered txn.id txn found active
    · exact fun _ other => (txn.ownAt_write key other value).symm
  · refine sound.reads.turn turn ?_ ?_ wrote open_
    · exact fun other version isNew => (pending other version isNew).2
    · rw [same.1]
      exact fun _ member => member

/-- A transaction is aborted and leaves the store as it is. -/
theorem block (sound : Sound oracle store txns) (found : txns txn.id = some txn)
    (active : txn.state = .active) :
    Sound oracle store (txns.revise { txn with state := .aborted }) := by
  have turn : Turn txn.id txn.ownAt txn.ownAt store store :=
    { nodup := sound.chains.nodup
      tails := fun _ => sound.chains.unchanged found active rfl
      covers := fun _ _ covered => covered
      active := fun _ _ => Iff.rfl }
  have wrote : (txns.revise { txn with state := .aborted }).Wrote = txns.Wrote :=
    Txns.wrote_revise_of_not_committed (not_committed_of_active found active) TxState.noConfusion
  constructor
  · refine sound.registry.revise found rfl (fun isActive => nomatch isActive) ?_ ?_ ?_
    · rw [wrote]
      exact sound.registry.drawn
    · exact fun commitTs => sound.registry.later txn.id txn commitTs found
    · exact sound.registry.nodup txn.id txn found
  · refine sound.chains.turn found active rfl turn ?_ ?_ ?_ ?_
    · intro key version own
      obtain ⟨data, -, rfl⟩ := Option.map_eq_some_iff.mp own
      rfl
    · intro key version own committed
      rw [pending_of_ownAt own] at committed
      cases committed
    · exact fun _ _ _ _ => sound.registry.registered txn.id txn found active
    · exact fun isActive => nomatch isActive
  · exact sound.reads.turn turn (fun _ _ => pending_of_ownAt) (fun _ member => member) wrote
      TxState.noConfusion

/-- A transaction is aborted and its versions are removed. -/
theorem discard (sound : Sound oracle store txns) (found : txns txn.id = some txn)
    (active : txn.state = .active) :
    Sound oracle ((store.abortTransactionKeys txn.id txn.keys).unregisterActive txn.id)
      (txns.revise { txn with state := .aborted }) := by
  have turn := sound.chains.turn_discard found active
  have wrote : (txns.revise { txn with state := .aborted }).Wrote = txns.Wrote :=
    Txns.wrote_revise_of_not_committed (not_committed_of_active found active) TxState.noConfusion
  have same : store.SameActive (store.abortTransactionKeys txn.id txn.keys) :=
    (MvccStore.abortTransactionKeys_keeps sound.chains.nodup txn.keys).2
  constructor
  · apply ((sound.block found active).registry.congr same.1 same.2).unregister
    intro ended isEnded
    rw [← Option.some.inj (Txns.revise_self.symm.trans isEnded)]
    exact TxState.noConfusion
  · refine sound.chains.turn found active rfl turn ?_ ?_ ?_ ?_
    · exact fun _ _ isNew => nomatch isNew
    · exact fun _ _ isNew => nomatch isNew
    · exact fun _ _ isNew => nomatch isNew
    · exact fun isActive => nomatch isActive
  · refine sound.reads.turn turn (fun _ _ isNew => nomatch isNew) ?_ wrote TxState.noConfusion
    intro id member
    rw [MvccStore.mem_unregisterActive, same.1] at member
    exact member.1

/-- A validated key has no commit after the read timestamp. -/
theorem le_of_validate (sound : Sound oracle store txns) (found : txns txn.id = some txn)
    (active : txn.state = .active) (valid : txn.validate store = true) {key : Bytes}
    (member : key ∈ txn.keys) {commitTs : Nat} {value : Option Bytes}
    (wrote : txns.Wrote key commitTs value) : commitTs ≤ txn.readTs := by
  have isTs : txn.readTs = txn.id := (sound.registry.known txn.id txn found).2.1
  rw [isTs]
  by_contra late
  rw [Nat.not_le] at late
  obtain ⟨version, inChain, committed, rfl⟩ := sound.reads.kept key commitTs value wrote txn.id
    (sound.registry.registered txn.id txn found active) late
  obtain ⟨cached, known, covers⟩ := sound.chains.covered key version inChain committed
  obtain ⟨entry, inSet, rfl⟩ := List.mem_map.mp member
  rw [MvccTransaction.validate, List.all_eq_true] at valid
  have checked := valid entry inSet
  rw [known] at checked
  simp only [decide_eq_true_eq, isTs] at checked
  exact absurd late (Nat.not_lt.mpr (covers.trans checked))

/-- The first committer wins: what was committed of the written keys was read. -/
theorem firstWins_commit (sound : Sound oracle store txns) (found : txns txn.id = some txn)
    (active : txn.state = .active) (valid : txn.validate store = true) :
    (txns.revise { txn with commitTs := some oracle, state := .committed }).FirstWins := by
  have read : ∀ {id : TxId} {other : MvccTransaction} {key : Bytes} {ts : Nat},
      txns id = some other → other.state = .committed → other.commitTs = some ts →
      (other.writeSet.lookup key).isSome → (txn.writeSet.lookup key).isSome → ts ≤ txn.readTs := by
    intro id other key ts isOther committed drawn wrote own
    obtain ⟨value, isValue⟩ := Option.isSome_iff_exists.mp wrote
    exact sound.le_of_validate found active valid ((isSome_lookup_iff _ _).mp own)
      ⟨id, other, isOther, committed, drawn, isValue⟩
  intro first second one two key oneTs twoTs apart isOne isTwo oneCommitted twoCommitted oneDrawn
    twoDrawn oneWrote twoWrote
  rcases Txns.revise_cases isOne with ⟨rfl, rfl⟩ | ⟨-, isOne⟩
  · rcases Txns.revise_cases isTwo with ⟨rfl, -⟩ | ⟨-, isTwo⟩
    · exact absurd rfl apart
    · exact Or.inr (read isTwo twoCommitted twoDrawn twoWrote oneWrote)
  · rcases Txns.revise_cases isTwo with ⟨-, rfl⟩ | ⟨-, isTwo⟩
    · exact Or.inl (read isOne oneCommitted oneDrawn oneWrote twoWrote)
    · exact sound.reads.firstWins first second one two key oneTs twoTs apart isOne isTwo
        oneCommitted twoCommitted oneDrawn twoDrawn oneWrote twoWrote

/-- The last version of a written key after the commit. -/
theorem exchanged_commit (sound : Sound oracle store txns) (found : txns txn.id = some txn)
    (active : txn.state = .active) {key : Bytes} {value : Option Bytes}
    (own : txn.writeSet.lookup key = some value) :
    Exchanged txn.id (txn.ownAt key) (some ((ownVersion txn.id value).mark oracle))
      (store.versions key) (((store.commitTransactionWithTsKeys txn.id oracle
        txn.keys).unregisterActive txn.id).versions key) := by
  have isOwn : txn.ownAt key = some (ownVersion txn.id value) := by
    rw [MvccTransaction.ownAt, own, Option.map_some]
  rcases (sound.chains.turn_commit found active oracle).tails key with ⟨noOwn, -, -⟩ | exchanged
  · rw [isOwn] at noOwn
    cases noOwn
  · rw [isOwn] at exchanged ⊢
    exact exchanged

theorem wrote_commit (found : txns txn.id = some txn) (active : txn.state = .active)
    {key : Bytes} {ts : Nat} {value : Option Bytes} :
    (txns.revise { txn with commitTs := some oracle, state := .committed }).Wrote key ts value ↔
      txns.Wrote key ts value ∨ (ts = oracle ∧ txn.writeSet.lookup key = some value) := by
  apply Txns.wrote_revise_of_committed _ rfl rfl
  exact not_committed_of_active found active

/-- A commit is seen by the readers still to come and by no others. -/
theorem snapshot_commit (sound : Sound oracle store txns) (found : txns txn.id = some txn)
    (active : txn.state = .active) {key : Bytes} {readTs : Nat}
    (reader : readTs ∈ store.activeTxns ∨ oracle + 1 ≤ readTs) :
    (txns.revise { txn with commitTs := some oracle, state := .committed }).Snapshot readTs key
      ((lastWith (VersionChain.isVisible readTs) (((store.commitTransactionWithTsKeys txn.id oracle
        txn.keys).unregisterActive txn.id).versions key)).bind Version.data) := by
  have turn := sound.chains.turn_commit found active oracle
  cases own : txn.writeSet.lookup key with
  | none =>
      rw [Reads.lastWith_visible turn]
      · refine (sound.reads.snapshot key readTs
          (reader.imp_right Nat.le_of_succ_le)).of_agree fun ts data _ => ?_
        rw [wrote_commit found active, own]
        simp
      · intro version isNew
        rw [MvccTransaction.ownAt, own] at isNew
        cases isNew
  | some value =>
      rcases reader with member | later
      · have early := (sound.registry.live readTs member).2
        rw [Reads.lastWith_visible turn]
        · refine (sound.reads.snapshot key readTs (Or.inl member)).of_agree fun ts data isEarly => ?_
          rw [wrote_commit found active]
          refine or_iff_left fun now => ?_
          exact absurd (now.1 ▸ isEarly) (Nat.not_le.mpr early)
        · intro version isNew
          obtain ⟨own, -, rfl⟩ := Option.map_eq_some_iff.mp isNew
          exact decide_eq_false (Nat.not_le.mpr early)
      · have visible : VersionChain.isVisible readTs
            ((ownVersion txn.id value).mark oracle) = true := by
          simp [VersionChain.isVisible, Version.mark, Nat.le_of_succ_le later]
        rw [(sound.exchanged_commit found active own).lastWith_new rfl visible]
        refine Or.inl ⟨oracle, Nat.le_of_succ_le later, ?_, ?_⟩
        · exact (wrote_commit found active).mpr (Or.inr ⟨rfl, own⟩)
        · intro ts data hasWritten _
          rcases (wrote_commit found active).mp hasWritten with before | ⟨rfl, -⟩
          · exact Nat.le_of_lt (sound.registry.drawn key ts data before)
          · exact Nat.le_refl ts

theorem commit (sound : Sound oracle store txns) (found : txns txn.id = some txn)
    (active : txn.state = .active) (valid : txn.validate store = true) :
    Sound (oracle + 1)
      ((store.commitTransactionWithTsKeys txn.id oracle txn.keys).unregisterActive txn.id)
      (txns.revise { txn with commitTs := some oracle, state := .committed }) := by
  have turn := sound.chains.turn_commit found active oracle
  have same : store.SameActive (store.commitTransactionWithTsKeys txn.id oracle txn.keys) :=
    (MvccStore.commitTransactionWithTsKeys_keeps sound.chains.nodup oracle txn.keys).2
  constructor
  · apply Registry.unregister
    · refine (sound.registry.tick.congr same.1 same.2).revise found rfl
        (fun isActive => nomatch isActive) ?_ ?_ (sound.registry.nodup txn.id txn found)
      · intro key ts value hasWritten
        rcases (wrote_commit found active).mp hasWritten with before | ⟨rfl, -⟩
        · exact sound.registry.tick.drawn key ts value before
        · exact Nat.lt_succ_self ts
      · intro commitTs isDrawn
        cases isDrawn
        exact (sound.registry.known txn.id txn found).2.2
    · intro ended isEnded
      rw [← Option.some.inj (Txns.revise_self.symm.trans isEnded)]
      exact TxState.noConfusion
  · refine sound.chains.turn found active rfl turn ?_ ?_ ?_ ?_
    · intro key version isNew
      obtain ⟨own, isOwn, rfl⟩ := Option.map_eq_some_iff.mp isNew
      obtain ⟨data, -, rfl⟩ := Option.map_eq_some_iff.mp isOwn
      rfl
    · intro key version isNew _
      obtain ⟨own, isOwn, rfl⟩ := Option.map_eq_some_iff.mp isNew
      refine ⟨rfl, MvccStore.covers_commitTs ?_ ?_⟩
      · exact Chains.mem_keys_iff.mpr (isOwn ▸ Option.some_ne_none own)
      · obtain ⟨front, split, -⟩ := sound.chains.ends_with_own found active isOwn
        rw [split]
        exact List.append_ne_nil_of_right_ne_nil front (List.cons_ne_nil _ _)
    · intro key version isNew pending
      obtain ⟨own, -, rfl⟩ := Option.map_eq_some_iff.mp isNew
      cases pending
    · exact fun isActive => nomatch isActive
  · have fewer : ∀ id ∈ ((store.commitTransactionWithTsKeys txn.id oracle txn.keys).unregisterActive
        txn.id).activeTxns, id ∈ store.activeTxns := by
      intro id member
      rw [MvccStore.mem_unregisterActive, same.1] at member
      exact member.1
    constructor
    · exact fun key readTs reader => sound.snapshot_commit found active (reader.imp_left (fewer readTs))
    · intro key ts value hasWritten readTs member earlier
      rcases (wrote_commit found active).mp hasWritten with before | ⟨rfl, own⟩
      · obtain ⟨version, inChain, committed, isTs⟩ :=
          sound.reads.kept key ts value before readTs (fewer readTs member) earlier
        exact ⟨version, Reads.mem_turn turn inChain committed, committed, isTs⟩
      · obtain ⟨front, -, after, -⟩ := sound.exchanged_commit found active own
        refine ⟨(ownVersion txn.id value).mark ts, ?_, rfl, rfl⟩
        rw [after]
        exact List.mem_append_right _ List.mem_cons_self
    · exact sound.firstWins_commit found active valid

theorem stable : Stable (fun _ _ _ => True) Sound where
  known sound _ _ found :=
    ⟨(sound.registry.known _ _ found).1, (sound.registry.known _ _ found).2.1⟩
  tick := tick
  begin := begin
  runGc := runGc
  write sound found active _ free value _ := sound.write found active free value
  block := block
  discard := discard
  commit := commit

end Sound

/-! ## Runs -/

namespace World

/-- The invariant of a world. -/
def Invariant (world : World) : Prop := Sound world.oracle world.store world.look

theorem wrote_look (world : World) : world.look.Wrote = Txns.Wrote world.txn := by
  funext key commitTs value
  apply propext
  constructor
  · rintro ⟨id, seen, known, committed, drawn, wrote⟩
    obtain ⟨txn, found, rfl⟩ := Option.map_eq_some_iff.mp known
    exact ⟨id, txn, found, committed, drawn, wrote⟩
  · rintro ⟨id, txn, found, committed, drawn, wrote⟩
    exact ⟨id, txn.seen, Option.map_eq_some_iff.mpr ⟨txn, found, rfl⟩, committed, drawn, wrote⟩

theorem Invariant.new (gcThreshold drawn : Nat) : (World.new gcThreshold drawn).Invariant where
  registry :=
    { known := fun _ _ found => nomatch found
      drawn := fun _ _ _ ⟨_, _, found, _⟩ => nomatch found
      later := fun _ _ _ found => nomatch found
      nodup := fun _ _ found => nomatch found
      registered := fun _ _ found => nomatch found
      live := fun _ member => nomatch member
      bound := fun _ member => nomatch member
      low := Nat.succ_pos drawn }
  chains :=
    { nodup := List.nodup_nil
      ordered := fun _ => List.Pairwise.nil
      authored := fun _ _ member => nomatch member
      pending := fun _ _ member => nomatch member
      owned := fun _ found => nomatch found
      covered := fun _ _ member => nomatch member }
  reads :=
    { snapshot := fun _ _ _ => Or.inr ⟨rfl, fun _ _ ⟨_, _, found, _⟩ => nomatch found⟩
      kept := fun _ _ _ ⟨_, _, found, _⟩ => nomatch found
      firstWins := fun _ _ _ _ _ _ _ _ found => nomatch found }

section Step

variable {world : World}

theorem Invariant.known (invariant : world.Invariant) {txId : TxId} {txn : MvccTransaction}
    (found : world.txn txId = some txn) : txn.id = txId ∧ txn.readTs = txId ∧ txId < world.oracle :=
  invariant.registry.known txId txn.seen (Option.map_eq_some_iff.mpr ⟨txn, found, rfl⟩)

theorem Invariant.look_seen (invariant : world.Invariant) {txId : TxId} {txn : MvccTransaction}
    (found : world.txn txId = some txn) : world.look txn.seen.id = some txn.seen :=
  Sound.stable.look_seen invariant found

theorem Invariant.step (invariant : world.Invariant) (call : Call) :
    (world.step call).2.Invariant :=
  Sound.stable.step invariant call fun _ _ _ _ => trivial

end Step

end World

end JouleDB.Mvcc
