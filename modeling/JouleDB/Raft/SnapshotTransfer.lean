import JouleDB.Raft.Calls
import JouleDB.Raft.ErasureCode
import JouleDB.Raft.Snapshot

/-!
# Receiving a snapshot

A follower gets a snapshot in chunks, each from the offset that it has asked for, or in
erasure-coded shards.  Each part comes with one call of InstallSnapshot.
-/

namespace JouleDB.Raft

/-- What the two nodes rely on: the configuration of erasure coding, the coder, the format of
shards, and whether the follower's state machine can restore bytes. -/
structure Courier where
  erasureConfig : Option ErasureConfig
  coder : ReedSolomon
  encodeShard : ErasureShard → Except String Bytes
  decodeShard : Bytes → Option ErasureShard
  restore : List MachineCall → Bytes → Bool

/-- What the follower relies on. -/
def Courier.host (courier : Courier) : Host where
  restore := courier.restore
  decodeShard := courier.decodeShard
  decode := fun shards => (courier.coder.decode shards).toOption

/-- The parts of a snapshot that a node has collected. -/
structure Parts where
  shards : List (Option ErasureShard)
  offset : Nat
  pending : Bytes

/-- What comes of a part. -/
inductive Outcome where
  | reply (success : Bool) (nextOffset : Nat)
  | complete (data : Bytes)
  | panic

/-- The progress of a call, given the term of the response. -/
def Outcome.progress (term : Nat) : Outcome → RaftNode.Progress
  | .reply success nextOffset => .response ⟨term, success, nextOffset⟩
  | .complete data => .complete data
  | .panic => .panic

/-- A request is taken for an erasure-coded shard. -/
def InstallSnapshotRequest.Marked (request : InstallSnapshotRequest) : Prop :=
  erasureShardMagic.isPrefixOf request.data = true

namespace Parts

/-- Take in a shard. -/
def collectShard (host : Host) (parts : Parts) (request : InstallSnapshotRequest) :
    Parts × Outcome :=
  match host.decodeShard (request.data.drop erasureShardMagic.length) with
  | none => (parts, .reply false 0)
  | some shard =>
      let shards :=
        if parts.shards.length ≠ shard.totalShards then List.replicate shard.totalShards none
        else parts.shards
      if shard.index < shards.length then
        let shards := shards.set shard.index (some shard)
        if shard.dataShards ≤ shards.countP Option.isSome then
          ({ parts with shards := [] },
            match host.decode shards with
            | some data => .complete data
            | none => .reply false 0)
        else
          ({ parts with shards := shards }, .reply true (shard.index + 1))
      else
        ({ parts with shards := shards }, .panic)

/-- Take in a chunk. -/
def collectChunk (parts : Parts) (request : InstallSnapshotRequest) : Parts × Outcome :=
  let parts := if request.offset = 0 then { parts with offset := 0, pending := [] } else parts
  if request.offset ≠ parts.offset then
    (parts, .reply false parts.offset)
  else
    let pending := parts.pending ++ request.data
    if request.done then
      ({ parts with offset := 0, pending := [] }, .complete pending)
    else
      let offset := parts.offset + request.data.length
      ({ parts with offset := offset, pending := pending }, .reply true offset)

/-- Take in a shard or a chunk. -/
def collect (host : Host) (parts : Parts) (request : InstallSnapshotRequest) : Parts × Outcome :=
  if erasureShardMagic.isPrefixOf request.data then parts.collectShard host request
  else parts.collectChunk request

theorem collect_of_marked {host : Host} {parts : Parts} {request : InstallSnapshotRequest}
    (marked : request.Marked) : parts.collect host request = parts.collectShard host request :=
  if_pos marked

end Parts

namespace RaftNode

variable {host : Host} {node : RaftNode} {request : InstallSnapshotRequest}

/-- The parts that a node has collected. -/
def parts (node : RaftNode) : Parts :=
  ⟨node.pendingErasureShards, node.snapshotOffset, node.pendingSnapshot⟩

/-- A node with other parts. -/
def withParts (node : RaftNode) (parts : Parts) : RaftNode :=
  { node with
    pendingErasureShards := parts.shards
    snapshotOffset := parts.offset
    pendingSnapshot := parts.pending }

/-- A node takes in a part as its collected parts do. -/
theorem collect_eq_parts : node.collect host request =
    (node.withParts (node.parts.collect host request).1,
      (node.parts.collect host request).2.progress node.persistent.currentTerm) := by
  rw [collect, Parts.collect]
  split
  · simp only [collectShard, Parts.collectShard, parts]
    cases host.decodeShard (request.data.drop erasureShardMagic.length) with
    | none => rfl
    | some shard =>
        by_cases known : node.pendingErasureShards.length = shard.totalShards
        · simp only [known, ne_eq, not_true, ↓reduceIte]
          split_ifs
          · cases host.decode (node.pendingErasureShards.set shard.index (some shard)) <;> rfl
          · rfl
          · rfl
        · simp only [known, ne_eq, not_false_eq_true, ↓reduceIte]
          split_ifs
          · cases host.decode ((List.replicate shard.totalShards none).set shard.index
              (some shard)) <;> rfl
          · rfl
          · rfl
  · simp only [collectChunk, Parts.collectChunk, parts]
    by_cases first : request.offset = 0
    · simp only [first, ↓reduceIte]
      split_ifs <;> rfl
    · simp only [first, ↓reduceIte]
      split_ifs <;> rfl

theorem parts_catchUp (term : Nat) (leaderId : Option NodeId) :
    (node.catchUp term leaderId).parts = node.parts := by
  rw [catchUp]
  split
  · rw [follow_eq]
    rfl
  · rfl

theorem stateMachine_catchUp (term : Nat) (leaderId : Option NodeId) :
    (node.catchUp term leaderId).stateMachine = node.stateMachine := by
  rw [catchUp]
  split
  · rw [follow_eq]
  · rfl

section Handling

variable {parts : Parts}

/-- A node that has caught up with a request and holds other parts. -/
def received (node : RaftNode) (request : InstallSnapshotRequest) (parts : Parts) : RaftNode :=
  (node.catchUp request.term (some request.leaderId)).withParts parts

theorem handleInstallSnapshot_of_le (recent : node.persistent.currentTerm ≤ request.term) :
    node.handleInstallSnapshot host request =
      match node.parts.collect host request with
      | (parts, .reply success nextOffset) =>
          (node.received request parts, some ⟨request.term, success, nextOffset⟩)
      | (parts, .panic) => (node.received request parts, none)
      | (parts, .complete data) =>
          (((node.received request parts).applySnapshotData host data request).1,
            some ((node.received request parts).applySnapshotData host data request).2) := by
  have caught := (node.persistent_catchUp (some request.leaderId) recent).1
  rw [handleInstallSnapshot, if_neg (not_lt.mpr recent), collect_eq_parts, parts_catchUp, caught]
  cases collected : node.parts.collect host request with
  | mk parts outcome => cases outcome <;> rfl

theorem stateMachine_received :
    (node.received request parts).stateMachine = node.stateMachine :=
  stateMachine_catchUp _ _

/-- The log that replaces the old one can be persisted. -/
def Saves (node : RaftNode) (lastIncludedIndex lastIncludedTerm : Nat) : Prop :=
  (node.storage.persistStateSync
    { node.persistent with log := [⟨lastIncludedTerm, lastIncludedIndex, .noop⟩] } 1).1 = .ok ()

theorem applySnapshotData_spec (host : Host) (node : RaftNode) (request : InstallSnapshotRequest)
    (data : Bytes) :
    (node.applySnapshotData host data request).1.parts = node.parts ∧
      (node.applySnapshotData host data request).1.persistent.currentTerm =
        node.persistent.currentTerm ∧
      (node.applySnapshotData host data request).1.stateMachine =
        (if host.restore node.stateMachine data then node.stateMachine ++ [.restore data]
        else node.stateMachine) ∧
      (node.applySnapshotData host data request).2.term = node.persistent.currentTerm ∧
      (node.applySnapshotData host data request).2.nextOffset = 0 ∧
      ((node.applySnapshotData host data request).2.success = true ↔
        host.restore node.stateMachine data = true ∧
          node.Saves request.lastIncludedIndex request.lastIncludedTerm) := by
  rw [applySnapshotData, Saves, placeholderLog]
  split
  next accepted =>
    dsimp only
    generalize node.storage.persistStateSync _ 1 = result
    obtain ⟨persisted, storage⟩ := result
    cases persisted <;> simp [accepted, parts]
  next rejected => simp [rejected]

end Handling

end RaftNode

end JouleDB.Raft
