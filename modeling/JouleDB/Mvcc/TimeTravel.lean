import JouleDB.Mvcc.Bootstrap
import JouleDB.Mvcc.Isolation

/-!
# Scans of the past

A scan at a timestamp asks for the versions that the transaction 0 may see, which is meant to be
no transaction.  The bootstrap rows carry the same id, so they are found as its own writes, at
whatever timestamp and whatever was committed over them.
-/

namespace JouleDB.Mvcc

/-- What a version at a timestamp has to be: committed up to there, and none after it. -/
structure Newest (versions : List Version) (ts : Nat) (version : Version) : Prop where
  member : version ∈ versions
  committed : version.committed = true
  early : version.writeTs ≤ ts
  largest : ∀ other ∈ versions, other.committed = true → other.writeTs ≤ ts →
    other.writeTs ≤ version.writeTs

namespace MvccStore

/-- Time-travel scan: the committed versions that are visible at a timestamp. -/
def scanPrefixAt (store : MvccStore) (stem : Bytes) (ts : Nat) : List (Bytes × Bytes) :=
  (store.scanPrefix stem ts 0).filterMap fun entry => entry.2.map fun data => (entry.1, data)

/-- A scan returns for every key with the stem the value of its newest version at the timestamp,
and nothing else. -/
def ScansAt (store : MvccStore) (stem : Bytes) (ts : Nat) : Prop :=
  ((store.scanPrefixAt stem ts).map Prod.fst).Nodup ∧ ∀ key,
    if stem.isPrefixOf key then
      (∃ version, Newest (store.versions key) ts version ∧
        (store.scanPrefixAt stem ts).lookup key = version.data) ∨
      ((∀ version, ¬Newest (store.versions key) ts version) ∧
        (store.scanPrefixAt stem ts).lookup key = none)
    else (store.scanPrefixAt stem ts).lookup key = none

/-- The bootstrap row of a key that was inserted last. -/
def lastSeed (store : MvccStore) (key : Bytes) : Option Version :=
  lastWith (VersionChain.isBy 0) (store.versions key)

theorem lookup_scanPrefixAt {store : MvccStore} (nodup : (store.chains.map Prod.fst).Nodup)
    (stem : Bytes) (ts : Nat) :
    ((store.scanPrefixAt stem ts).map Prod.fst).Nodup ∧
      ∀ key, (store.scanPrefixAt stem ts).lookup key =
        if stem.isPrefixOf key then (store.sight key ts 0).join else none := by
  have keeps : ∀ (entry : Bytes × Option Bytes) (out : Bytes × Bytes),
      (entry.2.map fun data => (entry.1, data)) = some out → out.1 = entry.1 := by
    intro entry out isOut
    obtain ⟨data, -, rfl⟩ := Option.map_eq_some_iff.mp isOut
    rfl
  obtain ⟨distinct, lookups⟩ := lookup_scanPrefix nodup stem ts 0
  refine ⟨distinct.sublist (keys_filterMap_sublist keeps _), fun key => ?_⟩
  rw [scanPrefixAt, lookup_filterMap keeps distinct, lookups]
  split
  · cases store.sight key ts 0 with
    | none => rfl
    | some value => cases value <;> rfl
  · rfl

end MvccStore

namespace Tidy

variable {oracle : Nat} {store : MvccStore} {txns : Txns} {key : Bytes}

/-- Without bootstrap rows the last visible version is the newest one. -/
theorem newest_of_visible (tidy : Tidy oracle store txns) (unseeded : store.lastSeed key = none)
    {ts : Nat} {version : Version}
    (visible : lastWith (VersionChain.isVisible ts) (store.versions key) = some version) :
    Newest (store.versions key) ts version := by
  have positive : ∀ other ∈ store.versions key, 0 < other.createdBy := fun other member =>
    Nat.pos_of_ne_zero (of_decide_eq_false (lastWith_eq_none.mp unseeded other member))
  obtain ⟨front, back, split, holds, later⟩ := lastWith_eq_some visible
  have isVisible : version.committed = true ∧ version.writeTs ≤ ts := by
    simpa [VersionChain.isVisible] using holds
  have timed := tidy.timed key
  rw [split] at timed positive ⊢
  refine ⟨List.mem_append_right _ List.mem_cons_self, isVisible.1, isVisible.2,
    fun other member committed early => ?_⟩
  rcases List.mem_append.mp member with earlier | behind
  · exact Nat.le_of_lt ((List.pairwise_append.mp timed).2.2 other earlier version
      List.mem_cons_self (positive other member)
      (positive version (List.mem_append_right _ List.mem_cons_self)) isVisible.1)
  · rcases List.mem_cons.mp behind with rfl | behind
    · exact le_refl _
    · have hidden := later other behind
      simp [VersionChain.isVisible, committed, early] at hidden

theorem not_newest {ts : Nat}
    (hidden : lastWith (VersionChain.isVisible ts) (store.versions key) = none)
    (version : Version) : ¬Newest (store.versions key) ts version := by
  intro newest
  have invisible := lastWith_eq_none.mp hidden version newest.member
  simp [VersionChain.isVisible, newest.committed, newest.early] at invisible

/-- A scan is right if and only if, at every key with a bootstrap row, the newest version holds
what the last row holds. -/
theorem scansAt_iff (tidy : Tidy oracle store txns) (stem : Bytes) (ts : Nat) :
    store.ScansAt stem ts ↔ ∀ key seed, stem.isPrefixOf key = true →
      store.lastSeed key = some seed →
      ∃ version, Newest (store.versions key) ts version ∧ version.data = seed.data := by
  obtain ⟨nodup, lookups⟩ := MvccStore.lookup_scanPrefixAt tidy.nodup stem ts
  constructor
  · rintro ⟨-, scans⟩ key seed starts seeded
    have right := scans key
    have sight : store.sight key ts 0 = some seed.data := by
      rw [MvccStore.sight, show lastWith _ _ = some seed from seeded]
      rfl
    rw [if_pos starts, lookups, if_pos starts, sight, Option.join_some] at right
    rcases right with ⟨version, newest, same⟩ | ⟨-, absent⟩
    · exact ⟨version, newest, same.symm⟩
    · obtain ⟨member, holds⟩ := mem_of_lastWith seeded
      exact absurd absent (tidy.seeds key seed member (of_decide_eq_true holds)).2
  · intro agree
    refine ⟨nodup, fun key => ?_⟩
    rw [lookups]
    split
    next starts =>
      cases seeded : store.lastSeed key with
      | some seed =>
          obtain ⟨version, newest, same⟩ := agree key seed starts seeded
          refine Or.inl ⟨version, newest, ?_⟩
          rw [MvccStore.sight, show lastWith _ _ = some seed from seeded, same]
          rfl
      | none =>
          rw [MvccStore.sight, show lastWith (VersionChain.isBy 0) _ = none from seeded,
            Option.none_or]
          cases visible : lastWith (VersionChain.isVisible ts) (store.versions key) with
          | some version =>
              exact Or.inl ⟨version, tidy.newest_of_visible seeded visible, rfl⟩
          | none => exact Or.inr ⟨not_newest visible, rfl⟩
    next => rfl

end Tidy

/-- Whatever rows a store is seeded with and whatever is called then, a scan at a timestamp is
right if and only if, at every key with a bootstrap row, the newest version up to the timestamp
holds what the last row holds. -/
theorem time_travel_iff (gcThreshold drawn : Nat) (rows : List MvccStore.Row)
    (calls : List SavepointCall) (stem : Bytes) (ts : Nat) :
    ((World.seeded gcThreshold drawn rows).afterSavepoints calls).store.ScansAt stem ts ↔
      ∀ key seed, stem.isPrefixOf key = true →
        ((World.seeded gcThreshold drawn rows).afterSavepoints calls).store.lastSeed key =
          some seed →
        ∃ version, Newest
          (((World.seeded gcThreshold drawn rows).afterSavepoints calls).store.versions key) ts
          version ∧ version.data = seed.data :=
  (World.tidy_afterSavepoints (World.tidy_seeded gcThreshold drawn rows) calls).scansAt_iff stem ts

/-- A store with a row of key 7 from timestamp 1; transaction 1 has changed it at timestamp 2. -/
def overwritten : MvccStore :=
  ((World.seeded 100 0 [⟨[7], [1], 1⟩]).afterSavepoints
    [.call .begin, .call (.put 1 [7] [2]), .call (.commit 1)]).store

/-- Scans of an overwritten row still return it, and so do scans of a time before it. -/
theorem not_scansAt :
    overwritten.scanPrefixAt [] 5 = [([7], [1])] ∧ ¬overwritten.ScansAt [] 5 ∧
      overwritten.scanPrefixAt [] 0 = [([7], [1])] ∧ ¬overwritten.ScansAt [] 0 := by
  have tidy := World.tidy_afterSavepoints (World.tidy_seeded 100 0 [⟨[7], [1], 1⟩])
    [.call .begin, .call (.put 1 [7] [2]), .call (.commit 1)]
  have seeded : overwritten.lastSeed [7] = some ⟨some [1], 1, 0, true⟩ := by decide +kernel
  have versions : overwritten.versions [7] =
      [⟨some [1], 1, 0, true⟩, ⟨some [2], 2, 1, true⟩] := by decide +kernel
  have right : ∀ ts, overwritten.ScansAt [] ts →
      ∃ version, Newest (overwritten.versions [7]) ts version ∧ version.data = some [1] :=
    fun ts scans => (tidy.scansAt_iff [] ts).mp scans [7] _ (by decide) seeded
  rw [versions] at right
  refine ⟨by decide +kernel, fun scans => ?_, by decide +kernel, fun scans => ?_⟩
  · obtain ⟨version, newest, same⟩ := right 5 scans
    have later := newest.largest ⟨some [2], 2, 1, true⟩ (by decide) rfl (by decide)
    rcases List.mem_cons.mp newest.member with rfl | member
    · exact absurd later (by decide)
    · rw [List.mem_singleton.mp member] at same
      exact absurd same (by decide)
  · obtain ⟨version, newest, -⟩ := right 0 scans
    have early := newest.early
    rcases List.mem_cons.mp newest.member with rfl | member
    · exact absurd early (by decide)
    · rw [List.mem_singleton.mp member] at early
      exact absurd early (by decide)

end JouleDB.Mvcc
