import JouleDB.Lib.Run
import JouleDB.Sharding.Calls

/-!
# Migrations

A router also keeps an index of the starts of key ranges and a table of migrations.  A migration
makes its source send and its target receive until it is completed or fails.  Calls that fail
should change nothing, and shards should stay with the migrations that are running.
-/

namespace JouleDB.Sharding

/-! ## Tasks -/

/-- The progress of a migration. -/
inductive MigrationStatus where
  | pending
  | copying
  | verifying
  | switching
  | completed
  | failed
  | cancelled
  deriving DecidableEq, Repr

/-- A migration is running. -/
def MigrationStatus.isActive : MigrationStatus → Bool
  | .pending | .copying | .verifying | .switching => true
  | .completed | .failed | .cancelled => false

/-- A migration of keys from one shard to another. -/
structure MigrationTask where
  id : String
  sourceShard : String
  targetShard : String
  status : MigrationStatus
  recordsMigrated : Nat
  bytesMigrated : Nat
  error : Option String
  deriving DecidableEq, Repr

/-! ## Routers with migrations -/

/-- All that a router keeps: its shards and its ring, the starts of key ranges, and migrations. -/
structure RouterState where
  router : ShardRouter
  rangeIndex : List (Bytes × String)
  migrations : List (String × MigrationTask)
  deriving DecidableEq, Repr

/-- Note the start of the range of a shard. -/
def indexShard (index : List (Bytes × String)) (shard : Shard) : List (Bytes × String) :=
  match shard.keyRange.start with
  | some start => upsert index start shard.id
  | none => index

/-- Forget the start of the range of a shard. -/
def unindexShard (index : List (Bytes × String)) (shard : Shard) : List (Bytes × String) :=
  match shard.keyRange.start with
  | some start => remove index start
  | none => index

/-- A shard with counters of 64 bits. -/
def Shard.wrapped (shard : Shard) : Shard :=
  { shard with
    recordCount := shard.recordCount % 2 ^ 64
    sizeBytes := shard.sizeBytes % 2 ^ 64 }

namespace RouterState

/-- What a call does and returns. -/
abbrev Outcome := RouterState × Except ShardingError (List Shard)

/-- A router without shards. -/
def new (config : ShardingConfig) : RouterState := ⟨.new config, [], []⟩

/-- Go on after a call unless it failed. -/
def Outcome.andThen (outcome : Outcome) (next : RouterState → Outcome) : Outcome :=
  match outcome with
  | (state, .error error) => (state, .error error)
  | (state, .ok _) => next state

/-- Initialize the shards of a new cluster. -/
def initializeShards (state : RouterState) (nodeIds : List String) : Outcome :=
  match state.router.initializeShards nodeIds with
  | .error error => (state, .error error)
  | .ok (router, created) =>
      ({ state with
        router := router
        rangeIndex := created.foldl indexShard state.rangeIndex }, .ok created)

/-- Add a shard. -/
def addShard (state : RouterState) (shard : Shard) : Outcome :=
  ({ state with
    router := state.router.addShard shard
    rangeIndex := indexShard state.rangeIndex shard }, .ok [])

/-- Remove a shard. -/
def removeShard (state : RouterState) (id : String) : Outcome :=
  match state.router.shards.lookup id with
  | none => (state, .ok [])
  | some shard =>
      ({ state with
        router := { state.router with
          shards := remove state.router.shards id
          hashRing := state.router.hashRing.removeShard id }
        rangeIndex := unindexShard state.rangeIndex shard }, .ok [shard])

/-- Update the state of a shard. -/
def updateShardState (state : RouterState) (id : String) (shardState : ShardState) : Outcome :=
  match state.router.shards.lookup id with
  | none => (state, .error (.shardNotFound id))
  | some shard =>
      ({ state with
        router := { state.router with
          shards := upsert state.router.shards id { shard with state := shardState } } }, .ok [])

/-- Split a shard into two. -/
def splitShard (state : RouterState) (id : String) : Outcome :=
  match state.router.splitShard id with
  | .error error => (state, .error error)
  | .ok (router, parts) =>
      let rest := match state.router.shards.lookup id with
        | some shard => unindexShard state.rangeIndex shard
        | none => state.rangeIndex
      ({ state with
        router := router
        rangeIndex :=
          if state.router.config.strategy = .consistentHash then state.rangeIndex
          else parts.foldl indexShard rest }, .ok parts)

/-- Merge two shards into one. -/
def mergeShards (state : RouterState) (id₁ id₂ : String) : Outcome :=
  match state.router.mergeShards id₁ id₂ with
  | .error error => (state, .error error)
  | .ok (router, parts) =>
      let merged := parts.map Shard.wrapped
      ({ state with
        router := { router with
          shards := merged.foldl (fun shards shard => upsert shards shard.id shard) router.shards } },
        .ok merged)

/-- Start a migration. -/
def startMigration (state : RouterState) (task : MigrationTask) : Outcome :=
  if state.migrations.any fun entry =>
      decide (entry.2.sourceShard = task.sourceShard) && entry.2.status.isActive then
    (state, .error (.migrationInProgress task.sourceShard))
  else
    (state.updateShardState task.sourceShard .sending).andThen fun state =>
      (state.updateShardState task.targetShard .receiving).andThen fun state =>
        ({ state with migrations := upsert state.migrations task.id task }, .ok [])

/-- The error about a migration that is not in the table. -/
def migrationNotFound (id : String) : ShardingError := .internal ("Migration " ++ id ++ " not found")

/-- Update the progress of a migration. -/
def updateMigration (state : RouterState) (id : String) (records bytes : Nat) : Outcome :=
  match state.migrations.lookup id with
  | none => (state, .error (migrationNotFound id))
  | some task =>
      ({ state with
        migrations := upsert state.migrations id { task with
          recordsMigrated := records
          bytesMigrated := bytes
          status := .copying } }, .ok [])

/-- Finish a migration and make its shards active. -/
def finishMigration (state : RouterState) (id : String) (finish : MigrationTask → MigrationTask) :
    Outcome :=
  match state.migrations.lookup id with
  | none => (state, .error (migrationNotFound id))
  | some task =>
      let state := { state with migrations := upsert state.migrations id (finish task) }
      (state.updateShardState task.sourceShard .active).andThen fun state =>
        state.updateShardState task.targetShard .active

/-- Complete a migration. -/
def completeMigration (state : RouterState) (id : String) : Outcome :=
  state.finishMigration id fun task => { task with status := .completed }

/-- Fail a migration. -/
def failMigration (state : RouterState) (id error : String) : Outcome :=
  state.finishMigration id fun task => { task with status := .failed, error := some error }

/-- The public operations. -/
inductive Call where
  | initializeShards (nodeIds : List String)
  | addShard (shard : Shard)
  | removeShard (id : String)
  | updateShardState (id : String) (shardState : ShardState)
  | splitShard (id : String)
  | mergeShards (id₁ id₂ : String)
  | startMigration (task : MigrationTask)
  | updateMigration (id : String) (records bytes : Nat)
  | completeMigration (id : String)
  | failMigration (id error : String)
  deriving DecidableEq, Repr

/-- What an operation does and returns. -/
def call (state : RouterState) : Call → Outcome
  | .initializeShards nodeIds => state.initializeShards nodeIds
  | .addShard shard => state.addShard shard
  | .removeShard id => state.removeShard id
  | .updateShardState id shardState => state.updateShardState id shardState
  | .splitShard id => state.splitShard id
  | .mergeShards id₁ id₂ => state.mergeShards id₁ id₂
  | .startMigration task => state.startMigration task
  | .updateMigration id records bytes => state.updateMigration id records bytes
  | .completeMigration id => state.completeMigration id
  | .failMigration id error => state.failMigration id error

/-- The state after an operation. -/
def step (state : RouterState) (action : Call) : RouterState := (state.call action).1

/-! ## What is claimed -/

/-- The state of a shard, if it is registered. -/
def stateOf (state : RouterState) (id : String) : Option ShardState :=
  (state.router.shards.lookup id).map Shard.state

/-- While a migration runs, its source sends and its target receives. -/
def Owned (state : RouterState) : Prop :=
  ∀ id task, state.migrations.lookup id = some task → task.status.isActive →
    state.stateOf task.sourceShard = some .sending ∧
      state.stateOf task.targetShard = some .receiving

instance (router : ShardRouter) (id : String) : Decidable (router.Registered id) :=
  inferInstanceAs (Decidable (id ∈ _))

/-- The records of a table of shards. -/
def recordTotal (shards : List (String × Shard)) : Nat :=
  (shards.map fun entry => entry.2.recordCount).sum

/-- The records of a shard, if there is one. -/
def recordCountOf (shard : Option Shard) : Nat := (shard.map Shard.recordCount).getD 0

/-- What every operation has to fulfil: it changes nothing if it fails, a merge keeps the number of
records, and shards stay with their migrations. -/
structure Faithful (state : RouterState) (action : Call) : Prop where
  unchanged : ∀ error, (state.call action).2 = .error error → state.step action = state
  records : ∀ id₁ id₂, action = .mergeShards id₁ id₂ →
    ∀ parts, (state.call action).2 = .ok parts →
      recordTotal (state.step action).router.shards = recordTotal state.router.shards
  owned : (state.step action).Owned

/-! ## When it holds -/

/-- No running migration needs a shard in another state than a given one. -/
def Suits (state : RouterState) (id : String) (shardState : Option ShardState) : Prop :=
  ∀ other task, state.migrations.lookup other = some task → task.status.isActive →
    (task.sourceShard = id → shardState = some .sending) ∧
      (task.targetShard = id → shardState = some .receiving)

/-- The ids of the shards that a split makes. -/
def splitIds (config : ShardingConfig) (id : String) : List String :=
  if config.strategy = .consistentHash then [id ++ "_split"] else [id ++ "_L", id ++ "_R"]

/-- The id of a merged shard. -/
def mergedId (id₁ id₂ : String) : String := id₁ ++ "_" ++ id₂ ++ "_merged"

/-- The records of the shard under an id, if there is one. -/
def recordsOf (state : RouterState) (id : String) : Nat :=
  recordCountOf (state.router.shards.lookup id)

/-- Merging neither overflows the number of records nor drops or doubles any: the merged shard
overwrites no records, or as many as are counted twice. -/
def KeepsRecords (state : RouterState) (id₁ id₂ : String) : Prop :=
  state.recordsOf id₁ + state.recordsOf id₂ < 2 ^ 64 ∧
    state.recordsOf (mergedId id₁ id₂) = if id₁ = id₂ then state.recordsOf id₁ else 0

/-- No running migration other than a given one needs a shard. -/
def Spares (state : RouterState) (migration id : String) : Prop :=
  ∀ other task, other ≠ migration → state.migrations.lookup other = some task →
    task.status.isActive → task.sourceShard ≠ id ∧ task.targetShard ≠ id

/-- A running migration has a shard as its source. -/
def Busy (state : RouterState) (id : String) : Prop :=
  ∃ other task, state.migrations.lookup other = some task ∧ task.sourceShard = id ∧
    task.status.isActive

/-- A migration can be started: its target is registered, it does not run from a shard to itself,
and no other migration has its target as the source or its source as the target. -/
structure Startable (state : RouterState) (task : MigrationTask) : Prop where
  registered : state.router.Registered task.targetShard
  apart : task.status.isActive → task.sourceShard ≠ task.targetShard
  others : ∀ other running, other ≠ task.id → state.migrations.lookup other = some running →
    running.status.isActive → running.sourceShard ≠ task.targetShard ∧
      (running.targetShard = task.sourceShard → task.sourceShard = task.targetShard)

/-- A migration can be finished: its shards are registered, and no other migration needs them. -/
def Finishable (state : RouterState) (id : String) : Prop :=
  ∀ task, state.migrations.lookup id = some task →
    ∀ shard, shard = task.sourceShard ∨ shard = task.targetShard →
      state.router.Registered shard ∧ state.Spares id shard

/-- The condition on an operation. -/
def Clean (state : RouterState) : Call → Prop
  | .initializeShards nodeIds =>
      nodeIds ≠ [] → ∀ shard ∈ ShardRouter.createdShards state.router.config nodeIds,
        state.Suits shard.id (some .active)
  | .addShard shard => state.Suits shard.id (some shard.state)
  | .removeShard id => state.Suits id none
  | .updateShardState id shardState =>
      state.router.Registered id → state.Suits id (some shardState)
  | .splitShard id =>
      ∀ shard, state.router.shards.lookup id = some shard → shard.state = .active →
        state.router.config.strategy = .consistentHash ∨ shard.keyRange ≠ .unbounded →
          ∀ part ∈ splitIds state.router.config id, state.Suits part (some .active)
  | .mergeShards id₁ id₂ =>
      ∀ shard₁ shard₂, state.router.BothActive id₁ id₂ shard₁ shard₂ →
        state.KeepsRecords id₁ id₂ ∧ state.Suits (mergedId id₁ id₂) (some .active)
  | .startMigration task =>
      ¬state.Busy task.sourceShard → state.router.Registered task.sourceShard →
        state.Startable task
  | .updateMigration id _ _ =>
      ∀ task, state.migrations.lookup id = some task →
        state.stateOf task.sourceShard = some .sending ∧
          state.stateOf task.targetShard = some .receiving
  | .completeMigration id | .failMigration id _ => state.Finishable id

/-! ## Tables of shards -/

/-- A table has one shard for each id, which knows the id. -/
structure Tabled (shards : List (String × Shard)) : Prop where
  once : (shards.map Prod.fst).Nodup
  named : ∀ entry ∈ shards, entry.2.id = entry.1

variable {shards : List (String × Shard)}

theorem Tabled.upsert (tabled : Tabled shards) {id : String} {shard : Shard}
    (named : shard.id = id) : Tabled (upsert shards id shard) where
  once := nodup_upsert tabled.once _ _
  named entry member := by
    rcases mem_of_mem_upsert member with rfl | before
    · exact named
    · exact tabled.named entry before

theorem Tabled.remove (tabled : Tabled shards) (id : String) : Tabled (remove shards id) where
  once := nodup_remove tabled.once _
  named entry member := tabled.named entry (mem_remove.mp member).1

theorem Tabled.foldl_addShard {router : ShardRouter} (tabled : Tabled router.shards)
    (created : List Shard) : Tabled (created.foldl ShardRouter.addShard router).shards := by
  induction created generalizing router with
  | nil => exact tabled
  | cons shard created ih => exact @ih (router.addShard shard) (tabled.upsert rfl)

theorem recordTotal_remove (once : (shards.map Prod.fst).Nodup) (id : String) :
    recordTotal shards = recordTotal (remove shards id) + recordCountOf (shards.lookup id) := by
  induction shards with
  | nil => rfl
  | cons head rest ih =>
      rw [List.map_cons, List.nodup_cons] at once
      rw [lookup_cons_ite, remove, List.filter_cons]
      by_cases same : id = head.1
      · have gone : remove rest id = rest := by
          refine List.filter_eq_self.mpr fun entry member => decide_eq_true ?_
          exact fun equal => once.1 (List.mem_map.mpr ⟨entry, member, equal.trans same⟩)
        have dropped : ¬decide (head.1 ≠ id) = true := by simp [same]
        rw [remove] at gone
        rw [if_pos same, if_neg dropped, gone, recordTotal, List.map_cons, List.sum_cons,
          Nat.add_comm]
        rfl
      · have kept : decide (head.1 ≠ id) = true := decide_eq_true (Ne.symm same)
        have later := ih once.2
        rw [remove] at later
        rw [if_neg same, if_pos kept, recordTotal, List.map_cons, List.sum_cons, ← recordTotal, later,
          ← Nat.add_assoc]
        rfl

theorem recordTotal_upsert (once : (shards.map Prod.fst).Nodup) (id : String) (shard : Shard) :
    recordTotal (upsert shards id shard) + recordCountOf (shards.lookup id) =
      recordTotal shards + shard.recordCount := by
  have gone : ∀ shards : List (String × Shard),
      remove (upsert shards id shard) id = remove shards id := by
    intro shards
    induction shards with
    | nil => simp [upsert, remove]
    | cons head rest ih =>
        rw [remove, remove] at ih
        rw [upsert]
        split
        next same => simp [remove, same]
        next apart => rw [remove, remove, List.filter_cons, List.filter_cons, ih]
  have after := recordTotal_remove (nodup_upsert once id shard) id
  rw [gone, lookup_upsert, if_pos rfl] at after
  have before := recordTotal_remove once id
  have mine : recordCountOf (some shard) = shard.recordCount := rfl
  omega

/-! ## What all operations keep -/

variable {state after : RouterState} {config : ShardingConfig} {id : String}

/-- The configuration stays, and there is one shard and one migration for each id. -/
structure WellKept (config : ShardingConfig) (state : RouterState) : Prop where
  config : state.router.config = config
  shards : Tabled state.router.shards
  migrations : (state.migrations.map Prod.fst).Nodup

theorem wellKept_new (config : ShardingConfig) : (new config).WellKept config :=
  ⟨rfl, ⟨List.nodup_nil, nofun⟩, List.nodup_nil⟩

namespace WellKept

theorem initializeShards (kept : state.WellKept config) (nodeIds : List String) :
    (state.initializeShards nodeIds).1.WellKept config := by
  rw [RouterState.initializeShards]
  split
  next => exact kept
  next router created initializes =>
    rw [ShardRouter.initializeShards_eq_ok initializes]
    exact ⟨(ShardRouter.config_foldl_addShard _ _).trans kept.config,
      kept.shards.foldl_addShard _, kept.migrations⟩

theorem removeShard (kept : state.WellKept config) (id : String) :
    (state.removeShard id).1.WellKept config := by
  rw [RouterState.removeShard]
  split
  next => exact kept
  next => exact ⟨kept.config, kept.shards.remove id, kept.migrations⟩

theorem updateShardState (kept : state.WellKept config) (id : String) (shardState : ShardState) :
    (state.updateShardState id shardState).1.WellKept config := by
  rw [RouterState.updateShardState]
  split
  next => exact kept
  next shard found =>
    have named : shard.id = id :=
      kept.shards.named _ ((lookup_eq_some_iff kept.shards.once).mp found)
    exact ⟨kept.config, kept.shards.upsert named, kept.migrations⟩

theorem splitShard (kept : state.WellKept config) (id : String) :
    (state.splitShard id).1.WellKept config := by
  rw [RouterState.splitShard]
  split
  next => exact kept
  next router parts splits =>
    refine ⟨(@ShardRouter.config_call _ _ _ (.splitShard id) splits).trans kept.config, ?_,
      kept.migrations⟩
    change Tabled router.shards
    by_cases hashed : state.router.config.strategy = .consistentHash
    · obtain ⟨shard, -, -, rfl, -⟩ := ShardRouter.splitShard_hashed_eq_ok hashed splits
      exact kept.shards.upsert rfl
    · obtain ⟨shard, left, right, -, -, -, rfl, -⟩ := ShardRouter.splitShard_eq_ok hashed splits
      refine .upsert (.upsert (kept.shards.remove id) ?_) ?_ <;> rfl

theorem mergeShards (kept : state.WellKept config) (id₁ id₂ : String) :
    (state.mergeShards id₁ id₂).1.WellKept config := by
  rw [RouterState.mergeShards]
  split
  next => exact kept
  next router parts merges =>
    obtain ⟨shard₁, shard₂, -, -, -, -, same, shards, -, rfl⟩ :=
      ShardRouter.mergeShards_eq_ok merges
    have tabled : Tabled router.shards := by
      rw [shards]
      exact ((kept.shards.remove id₁).remove id₂).upsert rfl
    exact ⟨same.trans kept.config, tabled.upsert rfl, kept.migrations⟩

theorem andThen {outcome : Outcome} (kept : outcome.1.WellKept config)
    {next : RouterState → Outcome}
    (keeps : ∀ state : RouterState, state.WellKept config → (next state).1.WellKept config) :
    (outcome.andThen next).1.WellKept config := by
  obtain ⟨state, result⟩ := outcome
  cases result with
  | error error => exact kept
  | ok parts => exact keeps state kept

theorem record (kept : state.WellKept config) (id : String) (task : MigrationTask) :
    ({ state with migrations := upsert state.migrations id task } : RouterState).WellKept config :=
  ⟨kept.config, kept.shards, nodup_upsert kept.migrations _ _⟩

theorem startMigration (kept : state.WellKept config) (task : MigrationTask) :
    (state.startMigration task).1.WellKept config := by
  rw [RouterState.startMigration]
  split
  next => exact kept
  next =>
    refine (kept.updateShardState _ _).andThen fun state kept => ?_
    exact (kept.updateShardState _ _).andThen fun state kept => kept.record _ _

theorem updateMigration (kept : state.WellKept config) (id : String) (records bytes : Nat) :
    (state.updateMigration id records bytes).1.WellKept config := by
  rw [RouterState.updateMigration]
  split
  next => exact kept
  next => exact kept.record _ _

theorem finishMigration (kept : state.WellKept config) (id : String)
    (finish : MigrationTask → MigrationTask) :
    (state.finishMigration id finish).1.WellKept config := by
  rw [RouterState.finishMigration]
  split
  next => exact kept
  next =>
    refine ((kept.record _ _).updateShardState _ _).andThen fun state kept => ?_
    exact kept.updateShardState _ _

theorem step (kept : state.WellKept config) (action : Call) :
    (state.step action).WellKept config := by
  cases action with
  | initializeShards nodeIds => exact kept.initializeShards nodeIds
  | addShard shard => exact ⟨kept.config, kept.shards.upsert rfl, kept.migrations⟩
  | removeShard id => exact kept.removeShard id
  | updateShardState id shardState => exact kept.updateShardState id shardState
  | splitShard id => exact kept.splitShard id
  | mergeShards id₁ id₂ => exact kept.mergeShards id₁ id₂
  | startMigration task => exact kept.startMigration task
  | updateMigration id records bytes => exact kept.updateMigration id records bytes
  | completeMigration id => exact kept.finishMigration id _
  | failMigration id error => exact kept.finishMigration id _

theorem run (config : ShardingConfig) (actions : List Call) :
    (actions.foldl RouterState.step (new config)).WellKept config := by
  suffices kept : ∀ state : RouterState, state.WellKept config →
      (actions.foldl RouterState.step state).WellKept config from kept _ (wellKept_new config)
  induction actions with
  | nil => exact fun state kept => kept
  | cons action actions ih => exact fun state kept => ih _ (kept.step action)

end WellKept

/-! ## Running migrations -/

/-- Shards stay with their migrations if none that a running one needs changes its state. -/
theorem Owned.of_states (owned : state.Owned) (same : after.migrations = state.migrations)
    (changes : ∀ id, after.stateOf id = state.stateOf id ∨ state.Suits id (after.stateOf id)) :
    after.Owned := by
  intro other task found active
  rw [same] at found
  obtain ⟨source, target⟩ := owned other task found active
  constructor
  · rcases changes task.sourceShard with kept | suits
    · exact kept.trans source
    · exact (suits other task found active).1 rfl
  · rcases changes task.targetShard with kept | suits
    · exact kept.trans target
    · exact (suits other task found active).2 rfl

theorem stateOf_upsert {shard : Shard}
    (shards : after.router.shards = upsert state.router.shards id shard) (other : String) :
    after.stateOf other = if other = id then some shard.state else state.stateOf other := by
  rw [stateOf, shards, lookup_upsert]
  split <;> rfl

theorem stateOf_remove (shards : after.router.shards = remove state.router.shards id)
    (other : String) : after.stateOf other = if other = id then none else state.stateOf other := by
  rw [stateOf, shards, lookup_remove]
  split <;> rfl

/-- Storing a shard in a state that suits the running migrations. -/
theorem Owned.upsert (owned : state.Owned) {shard : Shard}
    (suits : state.Suits id (some shard.state))
    (shards : after.router.shards = JouleDB.upsert state.router.shards id shard)
    (same : after.migrations = state.migrations) : after.Owned := by
  refine owned.of_states same fun other => ?_
  rw [stateOf_upsert shards]
  split
  next equal => exact .inr (equal ▸ suits)
  next => exact .inl rfl

theorem updateShardState_spec (state : RouterState) (id : String) (shardState : ShardState) :
    ¬state.router.Registered id ∧
        state.updateShardState id shardState = (state, .error (.shardNotFound id)) ∨
      state.router.Registered id ∧ ∃ after, state.updateShardState id shardState = (after, .ok []) ∧
        after.migrations = state.migrations ∧
        (∀ other, after.router.Registered other ↔ state.router.Registered other) ∧
        ∀ other, after.stateOf other = if other = id then some shardState else state.stateOf other := by
  have registered := isSome_lookup_iff state.router.shards id
  rw [updateShardState]
  split
  next absent =>
    rw [absent] at registered
    exact .inl ⟨fun present => absurd (registered.mpr present) Bool.false_ne_true, rfl⟩
  next shard found =>
    rw [found] at registered
    refine .inr ⟨registered.mp rfl, _, rfl, rfl, fun other => ?_, fun other => ?_⟩
    · rw [ShardRouter.Registered, keys_upsert, if_pos (registered.mp rfl), ShardRouter.Registered]
    · exact @stateOf_upsert state _ id { shard with state := shardState } rfl other

/-! ## Faithful operations -/

/-- What makes an operation other than a merge faithful when it succeeds. -/
theorem faithful_of_ok {action : Call} {parts : List Shard}
    (succeeds : (state.call action).2 = .ok parts) (notMerge : ∀ id₁ id₂, action ≠ .mergeShards id₁ id₂)
    (owned : (state.step action).Owned) : state.Faithful action where
  unchanged error fails := by
    rw [succeeds] at fails
    cases fails
  records id₁ id₂ same := absurd same (notMerge id₁ id₂)
  owned := owned

/-- What makes an operation faithful when it changes nothing. -/
theorem faithful_of_same {action : Call} (owned : state.Owned) (same : state.step action = state) :
    state.Faithful action where
  unchanged _ _ := same
  records _ _ _ _ _ := by rw [same]
  owned := by rwa [same]

theorem state_createdShards {nodeIds : List String} {shard : Shard}
    (member : shard ∈ ShardRouter.createdShards config nodeIds) : shard.state = .active := by
  rw [ShardRouter.createdShards] at member
  split at member <;> obtain ⟨number, -, rfl⟩ := List.mem_map.mp member <;> rfl

theorem stateOf_foldl_addShard {created : List Shard} (active : ∀ shard ∈ created, shard.state = .active)
    (shards : after.router.shards = (created.foldl ShardRouter.addShard state.router).shards)
    (other : String) :
    after.stateOf other = state.stateOf other ∨
      (∃ shard ∈ created, shard.id = other) ∧ after.stateOf other = some .active := by
  rw [stateOf, shards, ShardRouter.shards_foldl_addShard, lookup_upsertAll]
  cases found : lastUpdate (created.map fun shard => (shard.id, shard)) other with
  | none => exact .inl rfl
  | some last =>
      obtain ⟨shard, member, same⟩ := List.mem_map.mp (mem_of_lastUpdate found)
      cases same
      exact .inr ⟨⟨last, member, rfl⟩, congrArg some (active last member)⟩

theorem faithful_initializeShards (owned : state.Owned) {nodeIds : List String}
    (clean : state.Clean (.initializeShards nodeIds)) :
    state.Faithful (.initializeShards nodeIds) := by
  cases initializes : state.router.initializeShards nodeIds with
  | error error =>
      refine faithful_of_same owned ?_
      rw [step, call, initializeShards, initializes]
  | ok pair =>
      obtain ⟨router, created⟩ := pair
      have nodes : nodeIds ≠ [] := by
        rintro rfl
        cases initializes
      have isCreated : created = ShardRouter.createdShards state.router.config nodeIds := by
        rw [ShardRouter.initializeShards, if_neg (by rwa [List.isEmpty_iff])] at initializes
        cases initializes
        rfl
      have shards : (state.step (.initializeShards nodeIds)).router.shards =
          (created.foldl ShardRouter.addShard state.router).shards := by
        rw [step, call, initializeShards, initializes, isCreated]
        exact congrArg _ (ShardRouter.initializeShards_eq_ok initializes)
      have succeeds : (state.call (.initializeShards nodeIds)).2 = .ok created := by
        rw [call, initializeShards, initializes]
      refine faithful_of_ok succeeds nofun (owned.of_states ?_ fun other => ?_)
      · rw [step, call, initializeShards, initializes]
      · have active : ∀ shard ∈ created, shard.state = .active := fun shard member =>
          state_createdShards (isCreated ▸ member)
        rcases stateOf_foldl_addShard active shards other with kept | ⟨⟨shard, member, rfl⟩, now⟩
        · exact .inl kept
        · rw [now]
          exact .inr (clean nodes shard (isCreated ▸ member))

theorem faithful_removeShard (owned : state.Owned) (clean : state.Clean (.removeShard id)) :
    state.Faithful (.removeShard id) := by
  cases found : state.router.shards.lookup id with
  | none =>
      refine faithful_of_same owned ?_
      rw [step, call, removeShard, found]
  | some shard =>
      have removes : state.call (.removeShard id) = ((state.removeShard id).1, .ok [shard]) := by
        rw [call, removeShard, found]
      refine faithful_of_ok (congrArg Prod.snd removes) nofun (owned.of_states ?_ fun other => ?_)
      · rw [step, call, removeShard, found]
      · have shards : (state.step (.removeShard id)).router.shards =
            remove state.router.shards id := by
          rw [step, call, removeShard, found]
        rw [stateOf_remove shards]
        split
        next equal => exact .inr (equal ▸ clean)
        next => exact .inl rfl

theorem faithful_updateShardState (owned : state.Owned) {shardState : ShardState}
    (clean : state.Clean (.updateShardState id shardState)) :
    state.Faithful (.updateShardState id shardState) := by
  rcases updateShardState_spec state id shardState with ⟨-, fails⟩ |
    ⟨registered, after, succeeds, migrations, -, states⟩
  · exact faithful_of_same owned (congrArg Prod.fst fails)
  · have updates : state.step (.updateShardState id shardState) = after :=
      congrArg Prod.fst succeeds
    refine faithful_of_ok (congrArg Prod.snd succeeds) nofun ?_
    rw [updates]
    refine owned.of_states migrations fun other => ?_
    rw [states]
    split
    next equal => exact .inr (equal ▸ clean registered)
    next => exact .inl rfl

theorem faithful_updateMigration (owned : state.Owned) {records bytes : Nat}
    (clean : state.Clean (.updateMigration id records bytes)) :
    state.Faithful (.updateMigration id records bytes) := by
  cases found : state.migrations.lookup id with
  | none =>
      refine faithful_of_same owned ?_
      rw [step, call, updateMigration, found]
  | some task =>
      have succeeds : (state.call (.updateMigration id records bytes)).2 = .ok [] := by
        rw [call, updateMigration, found]
      refine faithful_of_ok succeeds nofun ?_
      rw [step, call, updateMigration, found]
      intro other running isRunning active
      rw [lookup_upsert] at isRunning
      split at isRunning
      next =>
        cases isRunning
        exact clean task found
      next => exact owned other running isRunning active

/-- No running migration needs an active shard. -/
theorem Owned.suits_of_active (owned : state.Owned) (active : state.stateOf id = some .active)
    (shardState : Option ShardState) : state.Suits id shardState := by
  intro other task found running
  obtain ⟨source, target⟩ := owned other task found running
  constructor
  · rintro rfl
    cases active.symm.trans source
  · rintro rfl
    cases active.symm.trans target

theorem faithful_splitShard (owned : state.Owned) (clean : state.Clean (.splitShard id)) :
    state.Faithful (.splitShard id) := by
  cases splits : state.router.splitShard id with
  | error error =>
      refine faithful_of_same owned ?_
      rw [step, call, splitShard, splits]
  | ok pair =>
      obtain ⟨router, parts⟩ := pair
      have succeeds : (state.call (.splitShard id)).2 = .ok parts := by
        rw [call, splitShard, splits]
      have shards : (state.step (.splitShard id)).router.shards = router.shards := by
        rw [step, call, splitShard, splits]
      have migrations : (state.step (.splitShard id)).migrations = state.migrations := by
        rw [step, call, splitShard, splits]
      refine faithful_of_ok succeeds nofun ?_
      by_cases hashed : state.router.config.strategy = .consistentHash
      · obtain ⟨shard, found, active, rfl, -⟩ := ShardRouter.splitShard_hashed_eq_ok hashed splits
        have suits := clean shard found active (.inl hashed)
        rw [splitIds, if_pos hashed] at suits
        have new : state.Suits (id ++ "_split")
            (some (ShardRouter.partOf shard (id ++ "_split") .unbounded).state) :=
          suits _ (List.mem_singleton.mpr rfl)
        exact owned.upsert new shards migrations
      · obtain ⟨shard, left, right, found, active, halves, rfl, -⟩ :=
          ShardRouter.splitShard_eq_ok hashed splits
        have bounded : shard.keyRange ≠ .unbounded := by
          intro unbounded
          rw [unbounded] at halves
          cases halves
        have suits := clean shard found active (.inr bounded)
        rw [splitIds, if_neg hashed] at suits
        have newLeft := suits (id ++ "_L") List.mem_cons_self
        have newRight := suits (id ++ "_R") (List.mem_cons_of_mem _ List.mem_cons_self)
        refine owned.of_states migrations fun other => ?_
        rw [stateOf, shards, lookup_upsert]
        split
        next equal => exact .inr (equal ▸ newRight)
        next =>
          rw [lookup_upsert]
          split
          next equal => exact .inr (equal ▸ newLeft)
          next =>
            rw [lookup_remove]
            split
            next equal =>
              have isActive : state.stateOf id = some .active := by
                rw [stateOf, found]
                exact congrArg some active
              exact .inr (equal ▸ owned.suits_of_active isActive _)
            next => exact .inl rfl

theorem mergedId_ne (id₁ id₂ : String) : mergedId id₁ id₂ ≠ id₁ ∧ mergedId id₁ id₂ ≠ id₂ := by
  constructor <;>
  · intro same
    have lengths := congrArg String.length same
    simp only [mergedId, String.length_append] at lengths
    have letters : "_merged".length = 7 := rfl
    omega

/-- The records after two shards are removed and the merged shard is stored. -/
theorem recordTotal_merge {shards : List (String × Shard)} (once : (shards.map Prod.fst).Nodup)
    {id₁ id₂ : String} {shard₁ shard₂ : Shard} (found₁ : shards.lookup id₁ = some shard₁)
    (found₂ : shards.lookup id₂ = some shard₂) {merged : Shard}
    (sum : merged.recordCount = shard₁.recordCount + shard₂.recordCount)
    (replaced : recordCountOf (shards.lookup (mergedId id₁ id₂)) =
      if id₁ = id₂ then shard₁.recordCount else 0) :
    recordTotal (upsert (remove (remove shards id₁) id₂) (mergedId id₁ id₂) merged) =
      recordTotal shards := by
  have once₁ := nodup_remove once id₁
  have first := recordTotal_remove once id₁
  have second := recordTotal_remove once₁ id₂
  have stored := recordTotal_upsert (nodup_remove once₁ id₂) (mergedId id₁ id₂) merged
  rw [lookup_remove, if_neg (mergedId_ne id₁ id₂).2, lookup_remove,
    if_neg (mergedId_ne id₁ id₂).1, replaced, sum] at stored
  rw [found₁] at first
  rw [lookup_remove, found₂] at second
  have one : recordCountOf (some shard₁) = shard₁.recordCount := rfl
  have two : recordCountOf (some shard₂) = shard₂.recordCount := rfl
  have none : recordCountOf none = 0 := rfl
  by_cases same : id₁ = id₂
  · subst same
    cases found₁.symm.trans found₂
    rw [if_pos rfl] at second stored
    omega
  · rw [if_neg (Ne.symm same)] at second
    rw [if_neg same] at stored
    omega

theorem faithful_mergeShards (kept : state.WellKept config) (owned : state.Owned) {id₁ id₂ : String}
    (clean : state.Clean (.mergeShards id₁ id₂)) : state.Faithful (.mergeShards id₁ id₂) := by
  cases merges : state.router.mergeShards id₁ id₂ with
  | error error =>
      refine faithful_of_same owned ?_
      rw [step, call, mergeShards, merges]
  | ok pair =>
      obtain ⟨router, parts⟩ := pair
      obtain ⟨shard₁, shard₂, found₁, found₂, active₁, active₂, -, shards, -, rfl⟩ :=
        ShardRouter.mergeShards_eq_ok merges
      obtain ⟨⟨fits, replaced⟩, suits⟩ := clean shard₁ shard₂ ⟨found₁, found₂, active₁, active₂⟩
      have succeeds : (state.call (.mergeShards id₁ id₂)).2 =
          .ok [(ShardRouter.mergedShard id₁ id₂ shard₁ shard₂).wrapped] := by
        rw [call, mergeShards, merges]
        rfl
      have migrations : (state.step (.mergeShards id₁ id₂)).migrations = state.migrations := by
        rw [step, call, mergeShards, merges]
      have stored : (state.step (.mergeShards id₁ id₂)).router.shards =
          upsert (remove (remove state.router.shards id₁) id₂) (mergedId id₁ id₂)
            (ShardRouter.mergedShard id₁ id₂ shard₁ shard₂).wrapped := by
        rw [step, call, mergeShards, merges]
        change upsert router.shards _ _ = _
        rw [shards]
        exact upsert_upsert _ _ _ _
      rw [recordsOf, recordsOf, found₁, found₂] at fits
      rw [recordsOf, recordsOf, found₁] at replaced
      constructor
      · intro error fails
        rw [succeeds] at fails
        cases fails
      · rintro other₁ other₂ ⟨⟩ parts -
        rw [stored]
        exact recordTotal_merge kept.shards.once found₁ found₂ (Nat.mod_eq_of_lt fits) replaced
      · have isActive : ∀ id shard, state.router.shards.lookup id = some shard →
            shard.state = .active → state.stateOf id = some .active := by
          intro id shard found active
          rw [stateOf, found]
          exact congrArg some active
        refine owned.of_states migrations fun other => ?_
        rw [stateOf, stored, lookup_upsert]
        split
        next equal => exact .inr (equal ▸ suits)
        next =>
          rw [lookup_remove]
          split
          next equal =>
            exact .inr (equal ▸ owned.suits_of_active (isActive _ _ found₂ active₂) _)
          next =>
            rw [lookup_remove]
            split
            next equal =>
              exact .inr (equal ▸ owned.suits_of_active (isActive _ _ found₁ active₁) _)
            next => exact .inl rfl

theorem busy_iff (kept : state.WellKept config) :
    (state.migrations.any fun entry =>
      decide (entry.2.sourceShard = id) && entry.2.status.isActive) = true ↔ state.Busy id := by
  rw [List.any_eq_true]
  constructor
  · rintro ⟨⟨other, task⟩, member, test⟩
    rw [Bool.and_eq_true, decide_eq_true_iff] at test
    exact ⟨other, task, (lookup_eq_some_iff kept.migrations).mpr member, test.1, test.2⟩
  · rintro ⟨other, task, found, same, active⟩
    refine ⟨(other, task), (lookup_eq_some_iff kept.migrations).mp found, ?_⟩
    rw [Bool.and_eq_true, decide_eq_true_iff]
    exact ⟨same, active⟩

theorem faithful_startMigration (kept : state.WellKept config) (owned : state.Owned)
    {task : MigrationTask} (clean : state.Clean (.startMigration task)) :
    state.Faithful (.startMigration task) := by
  by_cases busy : state.Busy task.sourceShard
  · refine faithful_of_same owned ?_
    rw [step, call, startMigration, if_pos ((busy_iff kept).mpr busy)]
  have idle : ¬(state.migrations.any fun entry =>
      decide (entry.2.sourceShard = task.sourceShard) && entry.2.status.isActive) = true :=
    fun wrong => busy ((busy_iff kept).mp wrong)
  rcases updateShardState_spec state task.sourceShard .sending with ⟨-, fails⟩ |
    ⟨registered, sending, sends, migrations, registers, states⟩
  · refine faithful_of_same owned ?_
    rw [step, call, startMigration, if_neg idle, fails]
    rfl
  have startable := clean busy registered
  rcases updateShardState_spec sending task.targetShard .receiving with ⟨unknown, -⟩ |
    ⟨-, receiving, receives, migrations', -, states'⟩
  · exact absurd ((registers _).mpr startable.registered) unknown
  have starts : state.call (.startMigration task) =
      ({ receiving with migrations := upsert receiving.migrations task.id task }, .ok []) := by
    rw [call, startMigration, if_neg idle, sends]
    change (sending.updateShardState task.targetShard .receiving).andThen _ = _
    rw [receives]
    rfl
  refine faithful_of_ok (congrArg Prod.snd starts) nofun ?_
  rw [step, starts]
  intro other running found active
  rw [migrations', migrations, lookup_upsert] at found
  have after : ∀ id, stateOf { receiving with migrations := upsert receiving.migrations task.id task } id =
      if id = task.targetShard then some .receiving
      else if id = task.sourceShard then some .sending else state.stateOf id := by
    intro id
    change receiving.stateOf id = _
    rw [states', states]
  rw [after, after]
  split at found
  next =>
    cases found
    rw [if_neg (startable.apart active), if_pos rfl, if_pos rfl]
    exact ⟨rfl, rfl⟩
  next apart =>
    obtain ⟨source, target⟩ := owned other running found active
    obtain ⟨free, through⟩ := startable.others other running apart found active
    constructor
    · rw [if_neg free]
      split
      next => rfl
      next => exact source
    · split
      next => rfl
      next differs =>
        rw [if_neg fun same => differs (same.trans (through same))]
        exact target

theorem owned_finishMigration (owned : state.Owned) {task : MigrationTask}
    (found : state.migrations.lookup id = some task) (finishable : state.Finishable id)
    {finish : MigrationTask → MigrationTask} (finished : (finish task).status.isActive = false) :
    (state.finishMigration id finish).2 = .ok [] ∧ (state.finishMigration id finish).1.Owned := by
  obtain ⟨source, spared⟩ := finishable task found task.sourceShard (.inl rfl)
  obtain ⟨target, spared'⟩ := finishable task found task.targetShard (.inr rfl)
  rw [finishMigration, found]
  rcases updateShardState_spec { state with migrations := upsert state.migrations id (finish task) }
      task.sourceShard .active with ⟨unknown, -⟩ | ⟨-, first, sets, migrations, registers, states⟩
  · exact absurd source unknown
  rcases updateShardState_spec first task.targetShard .active with ⟨unknown, -⟩ |
    ⟨-, second, sets', migrations', -, states'⟩
  · exact absurd ((registers _).mpr target) unknown
  dsimp only
  rw [sets, Outcome.andThen, sets']
  refine ⟨rfl, fun other running isRunning active => ?_⟩
  rw [migrations', migrations, lookup_upsert] at isRunning
  split at isRunning
  next =>
    cases isRunning
    rw [finished] at active
    cases active
  next apart =>
    have kept : ∀ shard, shard ≠ task.sourceShard → shard ≠ task.targetShard →
        second.stateOf shard = state.stateOf shard := by
      intro shard notSource notTarget
      rw [states', if_neg notTarget, states, if_neg notSource]
      rfl
    obtain ⟨sends, receives⟩ := owned other running isRunning active
    obtain ⟨source₁, target₁⟩ := spared other running apart isRunning active
    obtain ⟨source₂, target₂⟩ := spared' other running apart isRunning active
    rw [kept _ source₁ source₂, kept _ target₁ target₂]
    exact ⟨sends, receives⟩

theorem faithful_finishMigration (owned : state.Owned) (finishable : state.Finishable id)
    {finish : MigrationTask → MigrationTask}
    (finished : ∀ task, (finish task).status.isActive = false) {action : Call}
    (notMerge : ∀ id₁ id₂, action ≠ .mergeShards id₁ id₂)
    (calls : state.call action = state.finishMigration id finish) : state.Faithful action := by
  cases found : state.migrations.lookup id with
  | none =>
      refine faithful_of_same owned ?_
      rw [step, calls, finishMigration, found]
  | some task =>
      obtain ⟨succeeds, after⟩ := owned_finishMigration owned found finishable (finished task)
      refine faithful_of_ok ((congrArg Prod.snd calls).trans succeeds) notMerge ?_
      rw [step, calls]
      exact after

/-! ## Runs -/

theorem faithful_step (kept : state.WellKept config) (owned : state.Owned) {action : Call}
    (clean : state.Clean action) : state.Faithful action := by
  cases action with
  | initializeShards nodeIds => exact faithful_initializeShards owned clean
  | addShard shard => exact faithful_of_ok rfl nofun (owned.upsert clean rfl rfl)
  | removeShard id => exact faithful_removeShard owned clean
  | updateShardState id shardState => exact faithful_updateShardState owned clean
  | splitShard id => exact faithful_splitShard owned clean
  | mergeShards id₁ id₂ => exact faithful_mergeShards kept owned clean
  | startMigration task => exact faithful_startMigration kept owned clean
  | updateMigration id records bytes => exact faithful_updateMigration owned clean
  | completeMigration id => exact faithful_finishMigration owned clean (fun _ => rfl) nofun rfl
  | failMigration id error => exact faithful_finishMigration owned clean (fun _ => rfl) nofun rfl

/-- In a run whose operations all meet the condition, operations that fail change nothing, merges
keep the number of records, and shards stay with their migrations. -/
theorem migrations_faithful {config : ShardingConfig} {actions : List Call}
    (clean : AllMeet step Clean (new config) actions) :
    AllMeet step Faithful (new config) actions := by
  suffices faithful : ∀ state : RouterState, state.WellKept config → state.Owned →
      AllMeet step Clean state actions → AllMeet step Faithful state actions from
    faithful _ (wellKept_new config) nofun clean
  clear clean
  induction actions with
  | nil => exact fun _ _ _ _ => trivial
  | cons action actions ih =>
      rintro state kept owned ⟨now, later⟩
      have faithful := faithful_step kept owned now
      exact ⟨faithful, ih _ (kept.step action) faithful.owned later⟩

/-- A migration from the first of the initial shards. -/
def migrationTo (target : String) : MigrationTask :=
  ⟨"m1", "shard_0000", target, .pending, 0, 0, none⟩

/-- A migration between the initial shards is started and completed. -/
def migrateOnce : List Call :=
  [.initializeShards ["n1"], .startMigration (migrationTo "shard_0001"), .completeMigration "m1"]

/-- The state when the migration runs. -/
def migrating : RouterState :=
  ((new (ShardRouter.rangeConfig 2)).step (.initializeShards ["n1"])).step
    (.startMigration (migrationTo "shard_0001"))

theorem migrations_migrating : migrating.migrations = [("m1", migrationTo "shard_0001")] := by
  decide +kernel

theorem finishable_migrating : migrating.Finishable "m1" := by
  intro task found shard isShard
  rw [migrations_migrating] at found
  cases found
  constructor
  · rcases isShard with rfl | rfl <;> decide +kernel
  · intro other running apart isRunning
    rw [migrations_migrating, lookup_cons_ite, if_neg apart] at isRunning
    cases isRunning

theorem clean_migrateOnce : AllMeet step Clean (new (ShardRouter.rangeConfig 2)) migrateOnce := by
  refine ⟨?_, fun _ _ => ⟨by decide +kernel, by decide, ?_⟩, finishable_migrating, trivial⟩
  · intro _ _ _ other running found
    cases found
  intro other running _ found
  have before : ((new (ShardRouter.rangeConfig 2)).step (.initializeShards ["n1"])).migrations =
      [] := by
    decide +kernel
  rw [before] at found
  cases found

theorem migrations_faithful_migrateOnce :
    AllMeet step Faithful (new (ShardRouter.rangeConfig 2)) migrateOnce :=
  migrations_faithful clean_migrateOnce

/-- A migration to a shard that is not registered fails after its source was made to send. -/
theorem not_faithful_migrateAway :
    ¬AllMeet step Faithful (new (ShardRouter.rangeConfig 2))
      [.initializeShards ["n1"], .startMigration (migrationTo "gone")] := by
  rintro ⟨-, ⟨unchanged, -, -⟩, -⟩
  have same := unchanged (.shardNotFound "gone") (by decide +kernel)
  exact absurd (congrArg (fun state => state.stateOf "shard_0000") same) (by decide +kernel)

end RouterState

end JouleDB.Sharding
