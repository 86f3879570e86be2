import JouleDB.Raft.Node

/-!
# Installing snapshots

The handler of InstallSnapshot: chunks are collected until the last one, erasure-coded shards
until enough of them are there; then the state machine is restored and the log is replaced by
a placeholder for the last entry that the snapshot covers.
-/

namespace JouleDB.Raft

/-- Arguments of InstallSnapshot. -/
structure InstallSnapshotRequest where
  term : Nat
  leaderId : NodeId
  lastIncludedIndex : Nat
  lastIncludedTerm : Nat
  offset : Nat
  data : Bytes
  done : Bool
  config : ClusterConfig
  deriving DecidableEq

/-- Response to InstallSnapshot. -/
structure InstallSnapshotResponse where
  term : Nat
  success : Bool
  nextOffset : Nat
  deriving DecidableEq

/-- What the node calls and does not see into: whether the state machine can restore bytes, and
the decoding of shards and of their payload. -/
structure Host where
  restore : List MachineCall → Bytes → Bool
  decodeShard : Bytes → Option ErasureShard
  decode : List (Option ErasureShard) → Option Bytes

/-- The bytes `ECSH` that mark an erasure-coded shard. -/
def erasureShardMagic : Bytes := [69, 67, 83, 72]

namespace RaftNode

/-- The log after a snapshot was installed. -/
def placeholderLog (request : InstallSnapshotRequest) : List LogEntry :=
  [⟨request.lastIncludedTerm, request.lastIncludedIndex, .noop⟩]

/-- Restore the state machine and replace the log. -/
def applySnapshotData (host : Host) (node : RaftNode) (data : Bytes)
    (request : InstallSnapshotRequest) : RaftNode × InstallSnapshotResponse :=
  if host.restore node.stateMachine data then
    let persistent := { node.persistent with log := placeholderLog request }
    let (persisted, storage) := node.storage.persistStateSync persistent 1
    let node := { node with
      stateMachine := node.stateMachine ++ [.restore data]
      persistent := persistent
      storage := storage }
    match persisted with
    | .error _ => (node, ⟨node.persistent.currentTerm, false, 0⟩)
    | .ok _ =>
        ({ node with
            commitIndex := request.lastIncludedIndex
            lastApplied := request.lastIncludedIndex
            clusterConfig := request.config
            snapshot := some ⟨request.lastIncludedIndex, request.lastIncludedTerm,
              request.config, data.length, data⟩ },
          ⟨node.persistent.currentTerm, true, 0⟩)
  else
    (node, ⟨node.persistent.currentTerm, false, 0⟩)

/-- How far a call has brought a snapshot. -/
inductive Progress where
  /-- The call ends with a response. -/
  | response (response : InstallSnapshotResponse)
  /-- The snapshot is complete. -/
  | complete (data : Bytes)
  /-- The call panics. -/
  | panic
  deriving DecidableEq

/-- Take in an erasure-coded shard; its index is not checked before it is used. -/
def collectShard (host : Host) (node : RaftNode) (request : InstallSnapshotRequest) :
    RaftNode × Progress :=
  match host.decodeShard (request.data.drop erasureShardMagic.length) with
  | none => (node, .response ⟨node.persistent.currentTerm, false, 0⟩)
  | some shard =>
      let pending :=
        if node.pendingErasureShards.length ≠ shard.totalShards then
          List.replicate shard.totalShards none
        else
          node.pendingErasureShards
      if shard.index < pending.length then
        let pending := pending.set shard.index (some shard)
        if shard.dataShards ≤ pending.countP Option.isSome then
          ({ node with pendingErasureShards := [] },
            match host.decode pending with
            | some data => .complete data
            | none => .response ⟨node.persistent.currentTerm, false, 0⟩)
        else
          ({ node with pendingErasureShards := pending },
            .response ⟨node.persistent.currentTerm, true, shard.index + 1⟩)
      else
        ({ node with pendingErasureShards := pending }, .panic)

/-- Take in a chunk. -/
def collectChunk (node : RaftNode) (request : InstallSnapshotRequest) : RaftNode × Progress :=
  let node :=
    if request.offset = 0 then { node with snapshotOffset := 0, pendingSnapshot := [] } else node
  if request.offset ≠ node.snapshotOffset then
    (node, .response ⟨node.persistent.currentTerm, false, node.snapshotOffset⟩)
  else
    let pending := node.pendingSnapshot ++ request.data
    if request.done then
      ({ node with snapshotOffset := 0, pendingSnapshot := [] }, .complete pending)
    else
      let offset := node.snapshotOffset + request.data.length
      ({ node with snapshotOffset := offset, pendingSnapshot := pending },
        .response ⟨node.persistent.currentTerm, true, offset⟩)

/-- Take in a shard or a chunk; shards are told by their first bytes. -/
def collect (host : Host) (node : RaftNode) (request : InstallSnapshotRequest) :
    RaftNode × Progress :=
  if erasureShardMagic.isPrefixOf request.data then node.collectShard host request
  else node.collectChunk request

/-- Handle an InstallSnapshot call; a call that panics has no response. -/
def handleInstallSnapshot (host : Host) (node : RaftNode) (request : InstallSnapshotRequest) :
    RaftNode × Option InstallSnapshotResponse :=
  if request.term < node.persistent.currentTerm then
    (node, some ⟨node.persistent.currentTerm, false, 0⟩)
  else
    match (node.catchUp request.term (some request.leaderId)).collect host request with
    | (node, .response response) => (node, some response)
    | (node, .panic) => (node, none)
    | (node, .complete data) =>
        let (node, response) := node.applySnapshotData host data request
        (node, some response)

/-- Taking in a part of a snapshot leaves the persistent state and the state machine alone. -/
theorem collect_eq (host : Host) (node : RaftNode) (request : InstallSnapshotRequest) :
    ∃ offset pending shards, (node.collect host request).1 =
      { node with
        snapshotOffset := offset, pendingSnapshot := pending, pendingErasureShards := shards } := by
  rw [collect]
  split
  · rw [collectShard]
    split
    · exact ⟨_, _, _, rfl⟩
    next shard _ =>
      dsimp only
      generalize (if node.pendingErasureShards.length ≠ shard.totalShards then
        List.replicate shard.totalShards none else node.pendingErasureShards) = pending
      split
      · split <;> exact ⟨_, _, _, rfl⟩
      · exact ⟨_, _, _, rfl⟩
  · rw [collectChunk]
    dsimp only
    by_cases first : request.offset = 0
    · rw [if_pos first]
      split
      · exact ⟨_, _, _, rfl⟩
      · split <;> exact ⟨_, _, _, rfl⟩
    · rw [if_neg first]
      split
      · exact ⟨_, _, _, rfl⟩
      · split <;> exact ⟨_, _, _, rfl⟩

end RaftNode

end JouleDB.Raft
