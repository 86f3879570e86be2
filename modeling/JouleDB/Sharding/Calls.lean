import JouleDB.Sharding.Router

/-!
# Successful calls of the router

What the shards and the ring of a router are after a successful call: the shards of a split or a
merge replace others, and no call changes the configuration.
-/

namespace JouleDB.Sharding

namespace ShardRouter

/-- Keys are owned by ranges, not by hashes. -/
def Ranged (config : ShardingConfig) : Prop :=
  config.strategy = .range ∨ config.strategy = .directory

/-- A shard is registered under an id. -/
def Registered (router : ShardRouter) (id : String) : Prop := id ∈ router.shards.map Prod.fst

/-- Two active shards are registered under two ids. -/
def BothActive (router : ShardRouter) (id₁ id₂ : String) (shard₁ shard₂ : Shard) : Prop :=
  router.shards.lookup id₁ = some shard₁ ∧ router.shards.lookup id₂ = some shard₂ ∧
    shard₁.state = .active ∧ shard₂.state = .active

/-- A router by key ranges with a number of initial shards. -/
def rangeConfig (initialShards : Nat) : ShardingConfig :=
  ⟨.range, initialShards, 3, 1⟩

variable {router after : ShardRouter} {parts : List Shard}

/-! ## One call -/

theorem splitShard_eq_ok {id : String} (ranged : router.config.strategy ≠ .consistentHash)
    (splits : router.splitShard id = .ok (after, parts)) :
    ∃ shard left right, router.shards.lookup id = some shard ∧ shard.state = .active ∧
      shard.keyRange.split = .ok (left, right) ∧
      after = { router with
        shards := upsert (upsert (remove router.shards id) (id ++ "_L")
          (partOf shard (id ++ "_L") left)) (id ++ "_R") (partOf shard (id ++ "_R") right) } ∧
      parts = [partOf shard (id ++ "_L") left, partOf shard (id ++ "_R") right] := by
  unfold splitShard at splits
  split at splits
  next => cases splits
  next shard found =>
    split at splits
    next => cases splits
    next active =>
      cases halves : shard.keyRange.split with
      | error error => rw [halves] at splits; cases splits
      | ok pair =>
          rw [halves] at splits
          cases splits
          exact ⟨shard, pair.1, pair.2, found, not_not.mp active, halves, rfl, rfl⟩

theorem splitShard_hashed_eq_ok {id : String} (hashed : router.config.strategy = .consistentHash)
    (splits : router.splitShard id = .ok (after, parts)) :
    ∃ shard, router.shards.lookup id = some shard ∧ shard.state = .active ∧
      after = router.addShard (partOf shard (id ++ "_split") .unbounded) ∧
      parts = [shard, partOf shard (id ++ "_split") .unbounded] := by
  unfold splitShard at splits
  split at splits
  next => cases splits
  next shard found =>
    split at splits
    next => cases splits
    next active =>
      cases splits
      exact ⟨shard, found, not_not.mp active, rfl, rfl⟩

theorem mergeShards_eq_ok {id₁ id₂ : String}
    (merges : router.mergeShards id₁ id₂ = .ok (after, parts)) :
    ∃ shard₁ shard₂, router.shards.lookup id₁ = some shard₁ ∧
      router.shards.lookup id₂ = some shard₂ ∧ shard₁.state = .active ∧ shard₂.state = .active ∧
      after.config = router.config ∧
      after.shards = upsert (remove (remove router.shards id₁) id₂)
        (mergedShard id₁ id₂ shard₁ shard₂).id (mergedShard id₁ id₂ shard₁ shard₂) ∧
      (router.config.strategy = .consistentHash → after.hashRing =
        ((router.hashRing.removeShard id₁).removeShard id₂).addShard
          (mergedShard id₁ id₂ shard₁ shard₂).id) ∧
      parts = [mergedShard id₁ id₂ shard₁ shard₂] := by
  unfold mergeShards at merges
  split at merges
  next => cases merges
  next => cases merges
  next shard₁ shard₂ found₁ found₂ =>
    split at merges
    next => cases merges
    next active =>
      rw [not_or, not_not, not_not] at active
      cases merges
      exact ⟨shard₁, shard₂, found₁, found₂, active.1, active.2, rfl, rfl, fun isHash => if_pos isHash,
        rfl⟩

theorem shards_foldl_addShard (created : List Shard) (router : ShardRouter) :
    (created.foldl addShard router).shards =
      upsertAll router.shards (created.map fun shard => (shard.id, shard)) := by
  induction created generalizing router with
  | nil => rfl
  | cons shard created ih => exact ih (router.addShard shard)

/-! ## The configuration -/

theorem config_foldl_addShard (created : List Shard) (router : ShardRouter) :
    (created.foldl addShard router).config = router.config := by
  induction created generalizing router with
  | nil => rfl
  | cons shard created ih => exact ih (router.addShard shard)

theorem initializeShards_eq_ok {nodeIds : List String}
    (initializes : router.initializeShards nodeIds = .ok (after, parts)) :
    after = (createdShards router.config nodeIds).foldl addShard router := by
  unfold initializeShards at initializes
  split at initializes
  next => cases initializes
  next =>
    cases initializes
    rfl

/-- No successful call changes the configuration. -/
theorem config_call {action : Call} (succeeds : router.call action = .ok (after, parts)) :
    after.config = router.config := by
  cases action with
  | initializeShards nodeIds => rw [initializeShards_eq_ok succeeds, config_foldl_addShard]
  | addShard shard =>
      cases succeeds
      rfl
  | splitShard id =>
      by_cases hashed : router.config.strategy = .consistentHash
      · obtain ⟨shard, -, -, rfl, -⟩ := splitShard_hashed_eq_ok hashed succeeds
        rfl
      · obtain ⟨shard, left, right, -, -, -, rfl, -⟩ := splitShard_eq_ok hashed succeeds
        rfl
  | mergeShards id₁ id₂ =>
      obtain ⟨shard₁, shard₂, -, -, -, -, config, -⟩ := mergeShards_eq_ok succeeds
      exact config

end ShardRouter

end JouleDB.Sharding
