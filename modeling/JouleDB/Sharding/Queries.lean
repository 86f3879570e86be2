import JouleDB.Sharding.Migration

/-!
# Queries over several shards

A range query goes to the shards whose ranges overlap the range of the query.  Shards that cannot
be read are left out, although their keys are routed to them.
-/

namespace JouleDB.Sharding

/-! ## Ranges that overlap -/

namespace KeyRange

/-- A range ends before another one starts. -/
def endsBefore (range other : KeyRange) : Bool :=
  match range.stop, other.start with
  | some stop, some start => decide (stop ≤ start)
  | _, _ => false

/-- Check if a range overlaps with another one. -/
def overlaps (range other : KeyRange) : Bool :=
  !range.endsBefore other && !other.endsBefore range

variable {range other : KeyRange} {key : Bytes}

theorem not_endsBefore (inside : range.contains key = true) (inside' : other.contains key = true) :
    range.endsBefore other = false := by
  obtain ⟨-, before⟩ := contains_iff.mp inside
  obtain ⟨after, -⟩ := contains_iff.mp inside'
  rw [endsBefore]
  split
  next stop start isStop isStart =>
    exact decide_eq_false (not_le.mpr ((after start isStart).trans_lt (before stop isStop)))
  next => rfl

theorem overlaps_of_contains (inside : range.contains key = true)
    (inside' : other.contains key = true) : range.overlaps other = true := by
  rw [overlaps, not_endsBefore inside inside', not_endsBefore inside' inside]
  rfl

end KeyRange

/-! ## Queries -/

/-- The text of an error. -/
def ShardingError.text : ShardingError → String
  | .shardNotFound id => "Shard not found: " ++ id
  | .nodeNotFound id => "Node not found: " ++ id
  | .noAvailableShards => "No available shards"
  | .migrationInProgress id => "Migration in progress for shard: " ++ id
  | .splitFailed reason => "Shard split failed: " ++ reason
  | .mergeFailed reason => "Shard merge failed: " ++ reason
  | .invalidKeyRange => "Invalid key range"
  | .crossShardQueryFailed reason => "Cross-shard query failed: " ++ reason
  | .internal reason => "Internal error: " ++ reason

/-- Check if a shard can accept reads. -/
def Shard.canRead (shard : Shard) : Bool :=
  match shard.state with
  | .active | .readOnly | .sending => true
  | _ => false

namespace ShardRouter

variable {α : Type}

/-- Get all shards for a range query, when the hash map of shards is iterated in some order. -/
def routeRange (order : List (String × Shard)) (start stop : Bytes) :
    Except ShardingError (List Shard) :=
  let matching := (order.map Prod.snd).filter fun shard =>
    shard.keyRange.overlaps (.new start stop) && shard.canRead
  if matching.isEmpty then .error .noAvailableShards else .ok matching

/-- Query all shards that can be read, and leave out those whose query fails. -/
def scatterGather (order : List (String × Shard)) (query : Shard → Except ShardingError α) :
    Except ShardingError (List (String × α)) :=
  .ok ((order.map Prod.snd).filterMap fun shard =>
    if shard.canRead then
      match query shard with
      | .ok result => some (shard.id, result)
      | .error _ => none
    else none)

/-- Query specific shards, as far as they can be read. -/
def targetedQuery (router : ShardRouter) (query : Shard → Except ShardingError α) :
    List String → Except ShardingError (List (String × α))
  | [] => .ok []
  | id :: ids =>
      match router.shards.lookup id with
      | none => .error (.shardNotFound id)
      | some shard =>
          if shard.canRead then
            match query shard with
            | .error error =>
                .error (.crossShardQueryFailed ("Shard " ++ id ++ " failed: " ++ error.text))
            | .ok result => (router.targetedQuery query ids).map ((shard.id, result) :: ·)
          else router.targetedQuery query ids

/-- Query the shards of a range. -/
def rangeQuery (router : ShardRouter) (order : List (String × Shard)) (start stop : Bytes)
    (query : Shard → Except ShardingError α) : Except ShardingError (List (String × α)) := do
  let shards ← routeRange order start stop
  router.targetedQuery query (shards.map Shard.id)

/-! ## Shards that are reached -/

variable {router : ShardRouter} {order : List (String × Shard)} {start stop key : Bytes}
  {shard : Shard}

/-- A registered shard owns a key. -/
def Owns (router : ShardRouter) (shard : Shard) (key : Bytes) : Prop :=
  shard ∈ router.shards.map Prod.snd ∧ shard.ownsKey key = true

theorem mem_routeRange {shards : List Shard} (routes : routeRange order start stop = .ok shards) :
    shard ∈ shards ↔ shard ∈ order.map Prod.snd ∧
      shard.keyRange.overlaps (.new start stop) = true ∧ shard.canRead = true := by
  rw [routeRange] at routes
  split at routes
  next => cases routes
  next =>
    cases routes
    rw [List.mem_filter, Bool.and_eq_true]

theorem mem_scatterGather {query : Shard → Except ShardingError α} {results : List (String × α)}
    (gathers : scatterGather order query = .ok results) (member : shard ∈ order.map Prod.snd)
    (readable : shard.canRead = true) {result : α} (answers : query shard = .ok result) :
    (shard.id, result) ∈ results := by
  cases gathers
  refine List.mem_filterMap.mpr ⟨shard, member, ?_⟩
  rw [if_pos readable, answers]

/-- A query that succeeds has the results of all its shards that can be read. -/
theorem mem_targetedQuery {query : Shard → Except ShardingError α} {ids : List String}
    {results : List (String × α)} (succeeds : router.targetedQuery query ids = .ok results)
    {id : String} (member : id ∈ ids) (found : router.shards.lookup id = some shard)
    (readable : shard.canRead = true) :
    ∃ result, query shard = .ok result ∧ (shard.id, result) ∈ results := by
  induction ids generalizing results with
  | nil => cases member
  | cons first ids ih =>
      rw [targetedQuery] at succeeds
      split at succeeds
      next => cases succeeds
      next other isOther =>
        split at succeeds
        next =>
          split at succeeds
          next => cases succeeds
          next result answers =>
            cases rest : router.targetedQuery query ids with
            | error error =>
                rw [rest] at succeeds
                cases succeeds
            | ok later =>
                rw [rest] at succeeds
                cases succeeds
                rcases List.mem_cons.mp member with rfl | isLater
                · cases found.symm.trans isOther
                  exact ⟨result, answers, List.mem_cons_self⟩
                · obtain ⟨answer, answered, inside⟩ := ih rest isLater
                  exact ⟨answer, answered, List.mem_cons_of_mem _ inside⟩
        next unreadable =>
          rcases List.mem_cons.mp member with rfl | isLater
          · cases found.symm.trans isOther
            exact absurd readable unreadable
          · exact ih succeeds isLater

theorem owns_of_routeKey (ranged : Ranged router.config) (perm : order.Perm router.shards)
    (routes : router.routeKey order key = .ok shard) : router.Owns shard key := by
  have found : (order.find? fun entry => entry.2.ownsKey key).map Prod.snd = some shard := by
    rcases ranged with strategy | strategy
    all_goals
      rw [routeKey, strategy] at routes
      dsimp only at routes
      split at routes
      next entry found =>
        cases routes
        rw [found]
        rfl
      next => cases routes
  obtain ⟨entry, first, rfl⟩ := Option.map_eq_some_iff.mp found
  have owned := List.find?_some first
  exact ⟨List.mem_map_of_mem (perm.mem_iff.mp (List.mem_of_find?_eq_some first)), owned⟩

end ShardRouter

/-! ## What is claimed -/

open ShardRouter RouterState

/-- After any run under a range strategy, the shards of a range query include every shard that can
be read and that a key of the range is routed to, and queries that succeed have a result of every
shard that can be read and owns such a key, unless a query of all shards fails on it. -/
theorem readable_owners_reached {config : ShardingConfig} (ranged : Ranged config)
    (actions : List RouterState.Call) {router : ShardRouter}
    (reached : (actions.foldl RouterState.step (RouterState.new config)).router = router)
    {order : List (String × Shard)} (perm : order.Perm router.shards) {start stop key : Bytes}
    (after : start ≤ key) (before : key < stop) :
    (∀ shards, routeRange order start stop = .ok shards →
        ∀ shard, router.routeKey order key = .ok shard → shard.canRead = true → shard ∈ shards) ∧
      ∀ (α : Type) (query : Shard → Except ShardingError α) (shard : Shard),
        router.Owns shard key → shard.canRead = true →
          (∀ results, router.rangeQuery order start stop query = .ok results →
            ∃ result, query shard = .ok result ∧ (shard.id, result) ∈ results) ∧
          ∀ results, scatterGather order query = .ok results →
            ∀ result, query shard = .ok result → (shard.id, result) ∈ results := by
  have kept := WellKept.run config actions
  have inside : (KeyRange.new start stop).contains key = true :=
    KeyRange.contains_iff.mpr ⟨by rintro _ ⟨⟩; exact after, by rintro _ ⟨⟩; exact before⟩
  have listed : ∀ shards, routeRange order start stop = .ok shards →
      ∀ shard, router.Owns shard key → shard.canRead = true → shard ∈ shards := by
    intro shards routes shard owns readable
    refine (mem_routeRange routes).mpr ⟨(perm.map Prod.snd).mem_iff.mpr owns.1, ?_, readable⟩
    exact KeyRange.overlaps_of_contains owns.2 inside
  constructor
  · intro shards routes shard routed readable
    have isRanged : Ranged router.config := by
      rw [← reached, kept.config]
      exact ranged
    exact listed shards routes shard (owns_of_routeKey isRanged perm routed) readable
  · intro α query shard owns readable
    constructor
    · intro results succeeds
      rw [rangeQuery] at succeeds
      cases routes : routeRange order start stop with
      | error error =>
          rw [routes] at succeeds
          cases succeeds
      | ok shards =>
          rw [routes] at succeeds
          obtain ⟨entry, member, rfl⟩ := List.mem_map.mp owns.1
          rw [← reached] at member
          have found : router.shards.lookup entry.2.id = some entry.2 := by
            rw [← reached, lookup_eq_some_iff kept.shards.once, kept.shards.named entry member]
            exact member
          exact mem_targetedQuery succeeds
            (List.mem_map_of_mem (listed shards routes entry.2 owns readable)) found readable
    · intro results gathers result answers
      exact mem_scatterGather gathers ((perm.map Prod.snd).mem_iff.mpr owns.1) readable answers

/-- The second of two shards is made to send, and the first to receive. -/
def sendAndReceive : List RouterState.Call :=
  [.initializeShards ["n1"], .updateShardState "shard_0000" .receiving,
    .updateShardState "shard_0001" .sending]

/-- The router after that. -/
def sending : ShardRouter :=
  (sendAndReceive.foldl RouterState.step (RouterState.new (rangeConfig 2))).router

theorem readable_owners_reached_sending :
    ∃ shard, sending.routeKey sending.shards [200] = .ok shard ∧ shard.canRead = true ∧
      ∀ shards, routeRange sending.shards [0] [255] = .ok shards → shard ∈ shards :=
  have after : ([0] : Bytes) ≤ [200] := by decide
  have before : ([200] : Bytes) < [255] := by decide
  have routed : sending.routeKey sending.shards [200] =
      .ok ⟨"shard_0001", .fromStart [128], .sending, "n1", [], 0, 0⟩ := by decide +kernel
  have reaches := readable_owners_reached (.inl rfl) sendAndReceive rfl (.refl _) after before
  ⟨_, routed, rfl, fun shards routes => reaches.1 shards routes _ routed rfl⟩

/-- A range query does not reach the shard that receives, which a key of the range is routed to,
and it and the query of all shards succeed without a result of it. -/
theorem not_owners_reached :
    ∃ shard shards, sending.routeKey sending.shards [5] = .ok shard ∧
      routeRange sending.shards [0] [255] = .ok shards ∧ shard ∉ shards ∧
      sending.rangeQuery sending.shards [0] [255] (fun shard => .ok shard.recordCount) =
        .ok [("shard_0001", 0)] ∧
      scatterGather sending.shards (fun shard => .ok shard.recordCount) =
        .ok [("shard_0001", 0)] :=
  ⟨⟨"shard_0000", .untilEnd [128], .receiving, "n1", [], 0, 0⟩,
    [⟨"shard_0001", .fromStart [128], .sending, "n1", [], 0, 0⟩], by decide +kernel,
    by decide +kernel, by decide +kernel, by decide +kernel, by decide +kernel⟩

end JouleDB.Sharding
