import JouleDB.Sharding.KeyRange
import JouleDB.Lib.AssocList

/-!
# The shard router

Shards are kept in a hash map by id.  Keys are routed by a consistent hash ring, by a hash modulo
the number of shards, or by the key ranges of the shards.  A run is a sequence of calls that
initialize, add, split and merge shards.
-/

namespace JouleDB.Sharding

/-! ## Consistent hashing -/

/-- The bytes of a text. -/
def utf8 (text : String) : Bytes := text.toUTF8.toList.map UInt8.toFin

/-- Hash bytes with FNV-1a. -/
def hashBytes (bytes : Bytes) : Nat :=
  bytes.foldl (fun hash byte => (hash ^^^ byte.val) * 0x100000001b3 % 2 ^ 64) 0xcbf29ce484222325

/-- Insert into an ordered map from positions to shard ids. -/
def insertAt : List (Nat × String) → Nat → String → List (Nat × String)
  | [], position, id => [(position, id)]
  | (first, other) :: rest, position, id =>
      if position < first then (position, id) :: (first, other) :: rest
      else if position = first then (position, id) :: rest
      else (first, other) :: insertAt rest position id

/-- A ring of positions that belong to shards. -/
structure ConsistentHashRing where
  virtualNodes : Nat
  ring : List (Nat × String)
  shardPositions : List (String × List Nat)
  deriving DecidableEq, Repr

namespace ConsistentHashRing

/-- A ring without shards. -/
def new (virtualNodes : Nat) : ConsistentHashRing := ⟨virtualNodes, [], []⟩

/-- The positions of a shard. -/
def positions (ring : ConsistentHashRing) (shardId : String) : List Nat :=
  (List.range ring.virtualNodes).map fun node => hashBytes (utf8 (shardId ++ "#" ++ toString node))

/-- Add a shard to the ring. -/
def addShard (ring : ConsistentHashRing) (shardId : String) : ConsistentHashRing :=
  { ring with
    ring := (ring.positions shardId).foldl (fun ring position => insertAt ring position shardId)
      ring.ring
    shardPositions := upsert ring.shardPositions shardId (ring.positions shardId) }

/-- Remove a shard from the ring. -/
def removeShard (ring : ConsistentHashRing) (shardId : String) : ConsistentHashRing :=
  match ring.shardPositions.lookup shardId with
  | some positions =>
      { ring with
        ring := positions.foldl remove ring.ring
        shardPositions := remove ring.shardPositions shardId }
  | none => ring

/-- The shard responsible for a key: the one at the first position from the hash of the key on,
around the ring. -/
def getShard (ring : ConsistentHashRing) (key : Bytes) : Option String :=
  match ring.ring.find? fun entry => decide (hashBytes key ≤ entry.1) with
  | some entry => some entry.2
  | none => ring.ring.head?.map Prod.snd

end ConsistentHashRing

/-! ## Shards -/

/-- States of shards. -/
inductive ShardState where
  | active
  | creating
  | receiving
  | sending
  | splitting
  | merging
  | readOnly
  | offline
  | deleting
  deriving DecidableEq, Repr

/-- The name of a state in error texts. -/
def ShardState.name : ShardState → String
  | .active => "Active"
  | .creating => "Creating"
  | .receiving => "Receiving"
  | .sending => "Sending"
  | .splitting => "Splitting"
  | .merging => "Merging"
  | .readOnly => "ReadOnly"
  | .offline => "Offline"
  | .deleting => "Deleting"

/-- A shard. -/
structure Shard where
  id : String
  keyRange : KeyRange
  state : ShardState
  primaryNode : String
  replicaNodes : List String
  recordCount : Nat
  sizeBytes : Nat
  deriving DecidableEq, Repr

namespace Shard

/-- A new shard. -/
def new (id : String) (keyRange : KeyRange) (primaryNode : String) : Shard :=
  ⟨id, keyRange, .creating, primaryNode, [], 0, 0⟩

/-- Check if a key belongs to a shard. -/
def ownsKey (shard : Shard) (key : Bytes) : Bool := shard.keyRange.contains key

end Shard

/-! ## Routers -/

/-- Sharding strategies. -/
inductive ShardingStrategy where
  | consistentHash
  | range
  | hashMod
  | directory
  deriving DecidableEq, Repr

/-- The configuration of a router. -/
structure ShardingConfig where
  strategy : ShardingStrategy
  initialShards : Nat
  replicationFactor : Nat
  virtualNodes : Nat
  deriving DecidableEq, Repr

/-- A router. -/
structure ShardRouter where
  config : ShardingConfig
  shards : List (String × Shard)
  hashRing : ConsistentHashRing
  deriving DecidableEq, Repr

/-- The id of the shard with a number, which is padded to four digits. -/
def shardId (number : Nat) : String :=
  "shard_" ++ String.ofList (List.replicate (4 - number.repr.length) '0') ++ number.repr

/-- The bound of key ranges at a byte. -/
def cutAt (value : Nat) : Bytes := [Fin.ofNat 256 value]

namespace ShardRouter

/-- A router without shards. -/
def new (config : ShardingConfig) : ShardRouter := ⟨config, [], .new config.virtualNodes⟩

/-- Add a shard. -/
def addShard (router : ShardRouter) (shard : Shard) : ShardRouter :=
  { router with
    shards := upsert router.shards shard.id shard
    hashRing := router.hashRing.addShard shard.id }

/-- The node of the shard with a number. -/
def nodeOf (nodeIds : List String) (number : Nat) : String :=
  nodeIds[number % nodeIds.length]?.getD ""

/-- The initial shard with a number under the hash strategies. -/
def hashedShard (config : ShardingConfig) (nodeIds : List String) (number : Nat) : Shard :=
  { Shard.new (shardId number) .unbounded (nodeOf nodeIds number) with
    state := .active
    replicaNodes := (List.range' 1 (config.replicationFactor - 1)).filterMap fun offset =>
      if (number + offset) % nodeIds.length ≠ number % nodeIds.length then
        some (nodeOf nodeIds (number + offset))
      else none }

/-- The range of the initial shard with a number under the range strategies. -/
def initialRange (numShards number : Nat) : KeyRange :=
  let step := 256 / numShards
  if number = 0 then .untilEnd (cutAt (step * (number + 1)))
  else if number = numShards - 1 then .fromStart (cutAt (step * number))
  else .new (cutAt (step * number)) (cutAt (step * (number + 1)))

/-- The initial shard with a number under the range strategies. -/
def rangedShard (config : ShardingConfig) (nodeIds : List String) (number : Nat) : Shard :=
  { Shard.new (shardId number) (initialRange config.initialShards number)
      (nodeOf nodeIds number) with
    state := .active }

/-- The initial shards. -/
def createdShards (config : ShardingConfig) (nodeIds : List String) : List Shard :=
  match config.strategy with
  | .consistentHash | .hashMod =>
      (List.range config.initialShards).map (hashedShard config nodeIds)
  | .range | .directory => (List.range config.initialShards).map (rangedShard config nodeIds)

/-- Initialize the shards of a new cluster. -/
def initializeShards (router : ShardRouter) (nodeIds : List String) :
    Except ShardingError (ShardRouter × List Shard) :=
  if nodeIds.isEmpty then .error .noAvailableShards
  else
    let created := createdShards router.config nodeIds
    .ok (created.foldl addShard router, created)

/-- A part of a shard that is split. -/
def partOf (shard : Shard) (id : String) (keyRange : KeyRange) : Shard :=
  { Shard.new id keyRange shard.primaryNode with
    state := .active
    replicaNodes := shard.replicaNodes }

/-- Split a shard into two. -/
def splitShard (router : ShardRouter) (id : String) :
    Except ShardingError (ShardRouter × List Shard) :=
  match router.shards.lookup id with
  | none => .error (.shardNotFound id)
  | some shard =>
      if shard.state ≠ .active then
        .error (.splitFailed
          ("Shard " ++ id ++ " is not active (state: " ++ shard.state.name ++ ")"))
      else if router.config.strategy = .consistentHash then
        let newShard := partOf shard (id ++ "_split") .unbounded
        .ok (router.addShard newShard, [shard, newShard])
      else do
        let (left, right) ← shard.keyRange.split
        let leftShard := partOf shard (id ++ "_L") left
        let rightShard := partOf shard (id ++ "_R") right
        return ({ router with
            shards := upsert (upsert (remove router.shards id) leftShard.id leftShard)
              rightShard.id rightShard }, [leftShard, rightShard])

/-- The shard that two shards become.  The source collects the replicas in a hash set; their order
does not matter. -/
def mergedShard (id₁ id₂ : String) (shard₁ shard₂ : Shard) : Shard where
  id := id₁ ++ "_" ++ id₂ ++ "_merged"
  keyRange := shard₁.keyRange.merge shard₂.keyRange
  state := .active
  primaryNode := shard₁.primaryNode
  replicaNodes := (shard₁.replicaNodes ++ shard₂.replicaNodes).dedup
  recordCount := shard₁.recordCount + shard₂.recordCount
  sizeBytes := shard₁.sizeBytes + shard₂.sizeBytes

/-- Merge two shards into one. -/
def mergeShards (router : ShardRouter) (id₁ id₂ : String) :
    Except ShardingError (ShardRouter × List Shard) :=
  match router.shards.lookup id₁, router.shards.lookup id₂ with
  | none, _ => .error (.shardNotFound id₁)
  | some _, none => .error (.shardNotFound id₂)
  | some shard₁, some shard₂ =>
      if shard₁.state ≠ .active ∨ shard₂.state ≠ .active then
        .error (.mergeFailed "Shards must be active")
      else
        let merged := mergedShard id₁ id₂ shard₁ shard₂
        .ok ({ router with
            shards := upsert (remove (remove router.shards id₁) id₂) merged.id merged
            hashRing :=
              if router.config.strategy = .consistentHash then
                ((router.hashRing.removeShard id₁).removeShard id₂).addShard merged.id
              else router.hashRing }, [merged])

/-- Route a key to its shard, when the hash map of shards is iterated in some order. -/
def routeKey (router : ShardRouter) (order : List (String × Shard)) (key : Bytes) :
    Except ShardingError Shard :=
  match router.config.strategy with
  | .consistentHash =>
      match router.hashRing.getShard key with
      | none => .error .noAvailableShards
      | some id =>
          match router.shards.lookup id with
          | some shard => .ok shard
          | none => .error (.shardNotFound id)
  | .hashMod =>
      if router.shards.length = 0 then .error .noAvailableShards
      else
        let id := shardId (hashBytes key % router.shards.length)
        match router.shards.lookup id with
        | some shard => .ok shard
        | none => .error (.shardNotFound id)
  | .range | .directory =>
      match order.find? fun entry => entry.2.ownsKey key with
      | some entry => .ok entry.2
      | none => .error .noAvailableShards

/-! ## Runs -/

/-- Calls that change the shards. -/
inductive Call where
  | initializeShards (nodeIds : List String)
  | addShard (shard : Shard)
  | splitShard (id : String)
  | mergeShards (id₁ id₂ : String)
  deriving DecidableEq, Repr

/-- The outcome of a call: the router after it and the shards that it returns. -/
def call (router : ShardRouter) : Call → Except ShardingError (ShardRouter × List Shard)
  | .initializeShards nodeIds => router.initializeShards nodeIds
  | .addShard shard => .ok (router.addShard shard, [])
  | .splitShard id => router.splitShard id
  | .mergeShards id₁ id₂ => router.mergeShards id₁ id₂

end ShardRouter

end JouleDB.Sharding
