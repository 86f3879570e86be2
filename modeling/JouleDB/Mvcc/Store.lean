import JouleDB.Lib.AssocList
import JouleDB.Mvcc.Chain

/-!
# The version store

The version chains of all keys, the ids of the active transactions and the bound for garbage
collection.  Each function here is what the code does under one lock; a transaction calls
them one after the other.
-/

namespace JouleDB.Mvcc

/-- The version store. -/
structure MvccStore where
  chains : List (Bytes × VersionChain)
  activeTxns : List TxId
  oldestActiveTs : Nat
  gcThreshold : Nat
  versionCount : Nat

namespace MvccStore

/-- An empty store. -/
def withGcThreshold (gcThreshold : Nat) : MvccStore := ⟨[], [], 0, gcThreshold, 0⟩

/-- The chain of a key. -/
def chain (store : MvccStore) (key : Bytes) : Option VersionChain := store.chains.lookup key

/-- Change the chain of a key, if it has one. -/
def modifyChain (store : MvccStore) (key : Bytes) (change : VersionChain → VersionChain) :
    MvccStore :=
  match store.chain key with
  | some chain => { store with chains := upsert store.chains key (change chain) }
  | none => store

/-! ## Active transactions -/

/-- Register an active transaction; its id is also its read timestamp. -/
def registerActive (store : MvccStore) (txId : TxId) : MvccStore :=
  { store with
    activeTxns := if store.activeTxns.contains txId then store.activeTxns else store.activeTxns ++ [txId]
    oldestActiveTs :=
      if store.oldestActiveTs = 0 ∨ txId < store.oldestActiveTs then txId else store.oldestActiveTs }

/-- Unregister an active transaction. -/
def unregisterActive (store : MvccStore) (txId : TxId) : MvccStore :=
  let activeTxns := store.activeTxns.filter fun other => other ≠ txId
  { store with activeTxns := activeTxns, oldestActiveTs := activeTxns.min?.getD 0 }

/-! ## Reads -/

/-- Read a value at a timestamp: an own version first, then the visible one. -/
def read (store : MvccStore) (key : Bytes) (readTs : Nat) (txId : TxId) :
    Option Bytes × Option Nat :=
  match store.chain key with
  | some chain =>
      match chain.findByTxn txId with
      | some version => (version.data, some version.writeTs)
      | none =>
          match chain.findVisible readTs store.activeTxns with
          | some version => (version.data, some version.writeTs)
          | none => (none, none)
  | none => (none, none)

/-- What is visible of a chain to a scan of the keys that start with some bytes. -/
def scanChain (store : MvccStore) (stem : Bytes) (readTs : Nat) (txId : TxId)
    (entry : Bytes × VersionChain) : Option (Bytes × Option Bytes) :=
  if stem.isPrefixOf entry.1 then
    match entry.2.findByTxn txId with
    | some version => some (entry.1, version.data)
    | none =>
        (entry.2.findVisible readTs store.activeTxns).map fun version => (entry.1, version.data)
  else
    none

/-- All keys that start with some bytes, with what is visible of them. -/
def scanPrefix (store : MvccStore) (stem : Bytes) (readTs : Nat) (txId : TxId) :
    List (Bytes × Option Bytes) :=
  store.chains.filterMap (store.scanChain stem readTs txId)

/-- Latest committed timestamp of a key. -/
def getLatestCommittedTs (store : MvccStore) (key : Bytes) : Option Nat :=
  (store.chain key).bind VersionChain.latestCommittedTs

/-! ## Writes -/

/-- The version is an uncommitted one of another transaction. -/
def isForeign (txId : TxId) (version : Version) : Bool :=
  !version.committed && version.createdBy ≠ txId

/-- The transaction that holds a key by an uncommitted version, if there is another one. -/
def checkWriteConflictDetailed (store : MvccStore) (key : Bytes) (txId : TxId) : Option TxId :=
  (store.chain key).bind fun chain =>
    (lastWith (isForeign txId) chain.versions).map Version.createdBy

/-- Write an uncommitted version, or change the one that is there.  Also tells whether garbage
collection is due. -/
def writeIntent (store : MvccStore) (key : Bytes) (value : Option Bytes) (writeTs : Nat)
    (txId : TxId) : MvccStore × Bool :=
  let chain := (store.chain key).getD VersionChain.new
  match chain.findByTxn txId with
  | some _ =>
      let chain := chain.changeByTxn txId fun version =>
        { version with data := value, writeTs := writeTs }
      ({ store with chains := upsert store.chains key chain }, false)
  | none =>
      let chain := chain.addVersion ⟨value, writeTs, txId, false⟩
      ({ store with
          chains := upsert store.chains key chain
          versionCount := store.versionCount + 1 },
        store.versionCount > store.gcThreshold)

/-- Commit the versions of a transaction for some keys. -/
def commitTransactionWithTsKeys (store : MvccStore) (txId : TxId) (commitTs : Nat) :
    List Bytes → MvccStore
  | [] => store
  | key :: keys =>
      (store.modifyChain key fun chain => chain.commitVersionWithTs txId commitTs)
        |>.commitTransactionWithTsKeys txId commitTs keys

/-- Remove the uncommitted versions of a transaction for some keys. -/
def abortTransactionKeys (store : MvccStore) (txId : TxId) : List Bytes → MvccStore
  | [] => store
  | key :: keys =>
      (store.modifyChain key fun chain => chain.abortVersion txId).abortTransactionKeys txId keys

/-! ## Garbage collection -/

/-- Collect garbage below a bound and drop the chains that are empty then. -/
def sweep (store : MvccStore) (oldestTs : Nat) : MvccStore :=
  let chains := store.chains.map fun entry => (entry.1, entry.2.gc oldestTs)
  { store with
    chains := chains.filter fun entry => !entry.2.isEmpty
    versionCount := (chains.map fun entry => entry.2.len).sum }

/-- Run garbage collection; without active transactions nothing is done. -/
def runGc (store : MvccStore) : MvccStore :=
  if store.oldestActiveTs = 0 then store else store.sweep store.oldestActiveTs

/-! ## What the sections do to a chain -/

/-- The versions of a key. -/
def versions (store : MvccStore) (key : Bytes) : List Version :=
  ((store.chain key).map VersionChain.versions).getD []

/-- The latest committed timestamp of a key is at least the given one. -/
def Covers (store : MvccStore) (key : Bytes) (ts : Nat) : Prop :=
  ∃ cached, store.getLatestCommittedTs key = some cached ∧ ts ≤ cached

section Sections

variable {store : MvccStore} {key other : Bytes} {txId : TxId}

@[simp] theorem versions_registerActive :
    (store.registerActive txId).versions key = store.versions key := rfl

@[simp] theorem versions_unregisterActive :
    (store.unregisterActive txId).versions key = store.versions key := rfl

theorem mem_registerActive {id : TxId} :
    id ∈ (store.registerActive txId).activeTxns ↔ id ∈ store.activeTxns ∨ id = txId := by
  rw [registerActive]
  dsimp only
  split
  next present =>
    rw [List.contains_iff_mem] at present
    constructor
    · exact Or.inl
    · rintro (member | rfl)
      · exact member
      · exact present
  next => simp

theorem mem_unregisterActive {id : TxId} :
    id ∈ (store.unregisterActive txId).activeTxns ↔ id ∈ store.activeTxns ∧ id ≠ txId := by
  simp [unregisterActive]

theorem chain_modifyChain (change : VersionChain → VersionChain) :
    (store.modifyChain key change).chain other =
      if other = key then (store.chain key).map change else store.chain other := by
  rw [modifyChain]
  split
  next found present =>
    rw [present]
    exact lookup_upsert store.chains key other (change found)
  next absent =>
    split
    next same => rw [same, absent]; rfl
    next => rfl

theorem versions_modifyChain {change : VersionChain → VersionChain}
    {update : List Version → List Version}
    (updates : ∀ chain, (change chain).versions = update chain.versions) (nil : update [] = []) :
    (store.modifyChain key change).versions other =
      if other = key then update (store.versions key) else store.versions other := by
  rw [versions, chain_modifyChain]
  split
  · rw [versions]
    cases store.chain key with
    | none => exact nil.symm
    | some chain => exact updates chain
  · rfl

theorem versions_commitTransactionWithTsKeys (commitTs : Nat) (keys : List Bytes) :
    (store.commitTransactionWithTsKeys txId commitTs keys).versions other =
      if other ∈ keys then
        modifyLast (VersionChain.isBy txId) (Version.mark commitTs) (store.versions other)
      else store.versions other := by
  induction keys generalizing store with
  | nil => simp [commitTransactionWithTsKeys]
  | cons key keys ih =>
      rw [commitTransactionWithTsKeys, ih, versions_modifyChain
        (VersionChain.commitVersionWithTs_versions txId commitTs) rfl]
      by_cases here : other = key
      · subst here
        simp only [if_true, List.mem_cons, true_or]
        split
        · exact modifyLast_modifyLast (VersionChain.isBy_mark txId commitTs)
            (Version.mark_mark commitTs) _
        · rfl
      · simp [here]

theorem versions_abortTransactionKeys (keys : List Bytes) :
    (store.abortTransactionKeys txId keys).versions other =
      if other ∈ keys then
        (store.versions other).filter fun version => version.createdBy ≠ txId || version.committed
      else store.versions other := by
  induction keys generalizing store with
  | nil => simp [abortTransactionKeys]
  | cons key keys ih =>
      rw [abortTransactionKeys, ih, versions_modifyChain (fun _ => rfl) rfl]
      by_cases here : other = key
      · subst here
        simp only [if_true, List.mem_cons, true_or, List.filter_filter, Bool.and_self, ite_self]
      · simp [here]

/-- What a write leaves of the versions of its key. -/
theorem versions_writeIntent (value : Option Bytes) (writeTs : Nat) :
    (store.writeIntent key value writeTs txId).1.versions other =
      if other = key then
        if lastWith (VersionChain.isBy txId) (store.versions key) = none then
          store.versions key ++ [⟨value, writeTs, txId, false⟩]
        else
          modifyLast (VersionChain.isBy txId)
            (fun version => { version with data := value, writeTs := writeTs }) (store.versions key)
      else store.versions other := by
  have known : store.versions key = ((store.chain key).getD VersionChain.new).versions := by
    rw [versions]
    cases store.chain key <;> rfl
  rw [writeIntent, known]
  dsimp only [VersionChain.findByTxn]
  split
  next found =>
    rw [versions, chain, lookup_upsert]
    split
    · simp [found, VersionChain.changeByTxn]
    · rfl
  next found =>
    rw [versions, chain, lookup_upsert]
    split
    · simp [VersionChain.addVersion]
    · rfl

theorem nodup_sweep (nodup : (store.chains.map Prod.fst).Nodup) (oldestTs : Nat) :
    ((store.sweep oldestTs).chains.map Prod.fst).Nodup := by
  refine List.Nodup.sublist (List.filter_sublist.map Prod.fst) ?_
  simpa [List.map_map, Function.comp_def] using nodup

theorem versions_sweep (nodup : (store.chains.map Prod.fst).Nodup) (oldestTs : Nat) :
    (store.sweep oldestTs).versions key =
      keepLast (VersionChain.isOld oldestTs) (store.versions key) := by
  have nodup' : ((store.chains.map fun entry => (entry.1, entry.2.gc oldestTs)).map
      Prod.fst).Nodup := by
    simpa [List.map_map, Function.comp_def] using nodup
  rw [versions, chain, sweep]
  dsimp only
  rw [lookup_filter nodup', lookup_map_snd (fun chain : VersionChain => chain.gc oldestTs),
    versions, chain]
  cases store.chains.lookup key with
  | none => rfl
  | some found =>
      rw [Option.map_some, Option.map_some, Option.getD_some, ← VersionChain.gc_versions,
        Option.filter_some]
      split
      next => rfl
      next empty =>
        have nil : (found.gc oldestTs).versions = [] := by
          simpa [VersionChain.isEmpty] using empty
        simp [nil]

/-! ## What the sections leave alone -/

/-- Two stores with the same active transactions and bound. -/
def SameActive (before after : MvccStore) : Prop :=
  after.activeTxns = before.activeTxns ∧ after.oldestActiveTs = before.oldestActiveTs

theorem modifyChain_keeps (nodup : (store.chains.map Prod.fst).Nodup)
    (change : VersionChain → VersionChain) :
    ((store.modifyChain key change).chains.map Prod.fst).Nodup ∧
      SameActive store (store.modifyChain key change) := by
  rw [modifyChain]
  split
  · exact ⟨nodup_upsert nodup _ _, rfl, rfl⟩
  · exact ⟨nodup, rfl, rfl⟩

theorem writeIntent_keeps (nodup : (store.chains.map Prod.fst).Nodup) (value : Option Bytes)
    (writeTs : Nat) :
    ((store.writeIntent key value writeTs txId).1.chains.map Prod.fst).Nodup ∧
      SameActive store (store.writeIntent key value writeTs txId).1 := by
  rw [writeIntent]
  dsimp only
  split
  · exact ⟨nodup_upsert nodup _ _, rfl, rfl⟩
  · exact ⟨nodup_upsert nodup _ _, rfl, rfl⟩

theorem commitTransactionWithTsKeys_keeps (nodup : (store.chains.map Prod.fst).Nodup)
    (commitTs : Nat) (keys : List Bytes) :
    ((store.commitTransactionWithTsKeys txId commitTs keys).chains.map Prod.fst).Nodup ∧
      SameActive store (store.commitTransactionWithTsKeys txId commitTs keys) := by
  induction keys generalizing store with
  | nil => exact ⟨nodup, rfl, rfl⟩
  | cons key keys ih =>
      obtain ⟨nodup', active, oldest⟩ := modifyChain_keeps nodup
        fun chain => chain.commitVersionWithTs txId commitTs
      obtain ⟨nodup', later⟩ := ih nodup'
      exact ⟨nodup', later.1.trans active, later.2.trans oldest⟩

theorem abortTransactionKeys_keeps (nodup : (store.chains.map Prod.fst).Nodup)
    (keys : List Bytes) :
    ((store.abortTransactionKeys txId keys).chains.map Prod.fst).Nodup ∧
      SameActive store (store.abortTransactionKeys txId keys) := by
  induction keys generalizing store with
  | nil => exact ⟨nodup, rfl, rfl⟩
  | cons key keys ih =>
      obtain ⟨nodup', active, oldest⟩ := modifyChain_keeps nodup
        fun chain => chain.abortVersion txId
      obtain ⟨nodup', later⟩ := ih nodup'
      exact ⟨nodup', later.1.trans active, later.2.trans oldest⟩

/-- Leaving the registry and removing versions can be done in any order. -/
theorem abortTransactionKeys_unregisterActive (keys : List Bytes) :
    (store.unregisterActive txId).abortTransactionKeys txId keys =
      (store.abortTransactionKeys txId keys).unregisterActive txId := by
  induction keys generalizing store with
  | nil => rfl
  | cons key keys ih =>
      have single : (store.unregisterActive txId).modifyChain key
          (fun chain => chain.abortVersion txId) =
          (store.modifyChain key fun chain => chain.abortVersion txId).unregisterActive txId := by
        rw [modifyChain, modifyChain, show (store.unregisterActive txId).chain key =
          store.chain key from rfl]
        cases store.chain key <;> rfl
      rw [abortTransactionKeys, single, ih, abortTransactionKeys]

/-! ## The latest committed timestamp -/

@[simp] theorem covers_registerActive {ts : Nat} :
    (store.registerActive txId).Covers key ts ↔ store.Covers key ts := Iff.rfl

@[simp] theorem covers_unregisterActive {ts : Nat} :
    (store.unregisterActive txId).Covers key ts ↔ store.Covers key ts := Iff.rfl

theorem covers_modifyChain {change : VersionChain → VersionChain} {ts : Nat}
    (keeps : ∀ chain cached, chain.latestCommittedTs = some cached →
      ∃ later, (change chain).latestCommittedTs = some later ∧ cached ≤ later)
    (covered : store.Covers other ts) : (store.modifyChain key change).Covers other ts := by
  obtain ⟨cached, known, early⟩ := covered
  by_cases here : other = key
  · subst here
    obtain ⟨chain, present, isCached⟩ := Option.bind_eq_some_iff.mp known
    obtain ⟨later, isLater, after⟩ := keeps chain cached isCached
    refine ⟨later, ?_, early.trans after⟩
    rw [getLatestCommittedTs, chain_modifyChain, if_pos rfl, present]
    exact isLater
  · refine ⟨cached, ?_, early⟩
    rw [getLatestCommittedTs, chain_modifyChain, if_neg here]
    exact known

theorem covers_abortTransactionKeys {ts : Nat} {keys : List Bytes} (covered : store.Covers other ts) :
    (store.abortTransactionKeys txId keys).Covers other ts := by
  induction keys generalizing store with
  | nil => exact covered
  | cons key keys ih =>
      refine ih (covers_modifyChain (fun chain cached known => ?_) covered)
      exact ⟨cached, known, Nat.le_refl cached⟩

theorem covers_commitVersion {ts commitTs : Nat} (covered : store.Covers other ts) :
    (store.modifyChain key fun chain => chain.commitVersionWithTs txId commitTs).Covers other ts := by
  refine covers_modifyChain (fun chain cached known => ?_) covered
  refine ⟨_, VersionChain.commitVersionWithTs_latest txId commitTs chain, ?_⟩
  rw [known]
  exact Nat.le_max_left _ _

theorem covers_commitTransactionWithTsKeys {ts commitTs : Nat} {keys : List Bytes}
    (covered : store.Covers other ts) :
    (store.commitTransactionWithTsKeys txId commitTs keys).Covers other ts := by
  induction keys generalizing store with
  | nil => exact covered
  | cons key keys ih => exact ih (covers_commitVersion covered)

/-- A commit covers its own timestamp at the keys that it marks. -/
theorem covers_commitTs {commitTs : Nat} {keys : List Bytes} (member : other ∈ keys)
    (present : store.versions other ≠ []) :
    (store.commitTransactionWithTsKeys txId commitTs keys).Covers other commitTs := by
  induction keys generalizing store with
  | nil => cases member
  | cons key keys ih =>
      rw [commitTransactionWithTsKeys]
      by_cases here : other = key
      · subst here
        apply covers_commitTransactionWithTsKeys
        obtain ⟨chain, known⟩ : ∃ chain, store.chain other = some chain := by
          cases known : store.chain other with
          | none => exact absurd (by rw [versions, known]; rfl) present
          | some chain => exact ⟨chain, rfl⟩
        refine ⟨_, ?_, Nat.le_max_right (chain.latestCommittedTs.getD 0) commitTs⟩
        rw [getLatestCommittedTs, chain_modifyChain, if_pos rfl, known]
        exact VersionChain.commitVersionWithTs_latest txId commitTs chain
      · apply ih ((List.mem_cons.mp member).resolve_left here)
        rw [versions, chain_modifyChain, if_neg here]
        exact present

theorem covers_writeIntent {ts writeTs : Nat} {value : Option Bytes}
    (covered : store.Covers other ts) :
    (store.writeIntent key value writeTs txId).1.Covers other ts := by
  obtain ⟨cached, known, early⟩ := covered
  refine ⟨cached, ?_, early⟩
  obtain ⟨chain, present, isCached⟩ := Option.bind_eq_some_iff.mp known
  rw [writeIntent]
  dsimp only
  split
  all_goals
    rw [getLatestCommittedTs, MvccStore.chain, lookup_upsert]
    split
    next here =>
      subst here
      rw [present]
      exact isCached
    next => exact known

/-- Garbage collection computes the latest timestamp of what it keeps. -/
theorem covers_sweep (nodup : (store.chains.map Prod.fst).Nodup) {oldestTs : Nat}
    {version : Version} (member : version ∈ (store.sweep oldestTs).versions key)
    (committed : version.committed = true) : (store.sweep oldestTs).Covers key version.writeTs := by
  obtain ⟨found, present, inFound⟩ : ∃ chain, (store.sweep oldestTs).chain key = some chain ∧
      version ∈ chain.versions := by
    rw [versions] at member
    cases present : (store.sweep oldestTs).chain key with
    | none => simp [present] at member
    | some chain => exact ⟨chain, rfl, by simpa [present] using member⟩
  have entry : (key, found) ∈ (store.sweep oldestTs).chains := by
    have nodup' : ((store.sweep oldestTs).chains.map Prod.fst).Nodup := nodup_sweep nodup oldestTs
    exact (lookup_eq_some_iff nodup').mp present
  obtain ⟨collected, -⟩ := List.mem_filter.mp entry
  obtain ⟨⟨_, chain⟩, -, same⟩ := List.mem_map.mp collected
  cases same
  have listed : version.writeTs ∈ (((chain.gc oldestTs).versions.filter Version.committed).map
      Version.writeTs) :=
    List.mem_map.mpr ⟨version, List.mem_filter.mpr ⟨inFound, committed⟩, rfl⟩
  cases largest : (((chain.gc oldestTs).versions.filter Version.committed).map
      Version.writeTs).max? with
  | none =>
      rw [List.max?_eq_none_iff.mp largest] at listed
      cases listed
  | some cached =>
      refine ⟨cached, ?_, (List.max?_eq_some_iff.mp largest).2 _ listed⟩
      rw [getLatestCommittedTs, present]
      exact largest

end Sections

/-! ## What a reader finds in the store -/

/-- The version data that a reader finds for a key: of its own version, else of the last visible
one. -/
def sight (store : MvccStore) (key : Bytes) (readTs : Nat) (txId : TxId) : Option (Option Bytes) :=
  ((lastWith (VersionChain.isBy txId) (store.versions key)).or
    (lastWith (VersionChain.isVisible readTs) (store.versions key))).map Version.data

theorem read_eq_sight (store : MvccStore) (key : Bytes) (readTs : Nat) (txId : TxId) :
    (store.read key readTs txId).1 = (store.sight key readTs txId).join := by
  rw [read, sight, versions]
  cases store.chain key with
  | none => rfl
  | some chain =>
      dsimp only [Option.map_some, Option.getD_some]
      rw [VersionChain.findByTxn, VersionChain.findVisible_eq]
      cases lastWith (VersionChain.isBy txId) chain.versions with
      | some version => rfl
      | none => cases lastWith (VersionChain.isVisible readTs) chain.versions <;> rfl

end MvccStore

end JouleDB.Mvcc
