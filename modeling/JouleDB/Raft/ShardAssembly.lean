import JouleDB.Lib.Run
import JouleDB.Raft.Progress
import JouleDB.Raft.SnapshotShards

/-!
# Assembling shards of several snapshots

Shards wait at their positions, whichever snapshot they belong to, and as soon as there are enough
of them they are decoded together.  A snapshot that has been assembled leaves its last shards for
the next one.
-/

namespace JouleDB.Raft

open ErasureConfig

/-- A shard of a snapshot on its way to a node, with all shards of the snapshot. -/
structure Delivery where
  term : Nat
  leaderId : NodeId
  snapshot : Snapshot
  shards : List ErasureShard
  shard : ErasureShard
  encoded : Bytes
  deriving DecidableEq

namespace Delivery

/-- The request that carries the shard. -/
def request (delivery : Delivery) : InstallSnapshotRequest where
  term := delivery.term
  leaderId := delivery.leaderId
  lastIncludedIndex := delivery.snapshot.lastIncludedIndex
  lastIncludedTerm := delivery.snapshot.lastIncludedTerm
  offset := delivery.shard.index
  data := erasureShardMagic ++ delivery.encoded
  done := delivery.shard.index + 1 = delivery.shards.length
  config := delivery.snapshot.config

/-- The snapshot was encoded into the shards, and one of them is delivered. -/
structure Genuine (courier : Courier) (config : ErasureConfig) (delivery : Delivery) : Prop where
  encodes : config.encode courier.coder delivery.snapshot.data = .ok delivery.shards
  member : delivery.shard ∈ delivery.shards
  serialized : courier.encodeShard delivery.shard = .ok delivery.encoded

/-- A genuine delivery can be read, and its shard stands at its index. -/
theorem Genuine.readable {courier : Courier} {config : ErasureConfig} {delivery : Delivery}
    (genuine : delivery.Genuine courier config)
    (reliable : courier.Reliable config delivery.snapshot.data) :
    Sent courier config delivery.snapshot.data delivery.shards ∧
      courier.decodeShard delivery.encoded = some delivery.shard := by
  have nonempty : delivery.snapshot.data ≠ [] := by
    intro empty
    have encodes := genuine.encodes
    rw [ErasureConfig.encode, empty] at encodes
    exact absurd encodes (by simp)
  rcases encode_eq nonempty reliable with
    ⟨_, _, _, shards, encodes, sent⟩ | ⟨_, error, encodes⟩
  · rw [genuine.encodes] at encodes
    cases encodes
    obtain ⟨encoded, serialized, decodes⟩ := sent.readable _ genuine.member
    rw [genuine.serialized] at serialized
    cases serialized
    exact ⟨sent, decodes⟩
  · rw [genuine.encodes] at encodes
    exact absurd encodes (by simp)

/-- The shards that wait at a node, together with the delivered one. -/
def collected (delivery : Delivery) (node : RaftNode) : List (Option ErasureShard) :=
  (if node.pendingErasureShards.length ≠ delivery.shard.totalShards then
    List.replicate delivery.shard.totalShards none
  else node.pendingErasureShards).set delivery.shard.index (some delivery.shard)

/-- With the delivered shard there are enough. -/
def Enough (delivery : Delivery) (node : RaftNode) : Prop :=
  delivery.shard.dataShards ≤ (delivery.collected node).countP Option.isSome

end Delivery

namespace RaftNode

/-- The node after a delivery. -/
def receive (courier : Courier) (node : RaftNode) (delivery : Delivery) : RaftNode :=
  (node.handleInstallSnapshot courier.host delivery.request).1

/-- If the delivered shard makes them enough, the shards that wait belong to its snapshot. -/
def Unmixed (node : RaftNode) (delivery : Delivery) : Prop :=
  node.persistent.currentTerm ≤ delivery.term → delivery.Enough node →
    Arrived (delivery.collected node) delivery.shards

/-- A delivery is answered, and what it restores, if anything, are the bytes of one of the snapshots,
with the index of that snapshot. -/
structure Assembles (courier : Courier) (snapshots : List Snapshot) (node : RaftNode)
    (delivery : Delivery) : Prop where
  answered : (node.handleInstallSnapshot courier.host delivery.request).2 ≠ none
  restored : (node.receive courier delivery).stateMachine = node.stateMachine ∨
    ∃ snapshot ∈ snapshots,
      (node.receive courier delivery).stateMachine =
        node.stateMachine ++ [.restore snapshot.data] ∧
      (node.receive courier delivery).persistent.log =
        [⟨snapshot.lastIncludedTerm, snapshot.lastIncludedIndex, .noop⟩] ∧
      ∀ response, (node.handleInstallSnapshot courier.host delivery.request).2 = some response →
        response.success = true →
        (node.receive courier delivery).commitIndex = snapshot.lastIncludedIndex ∧
          (node.receive courier delivery).lastApplied = snapshot.lastIncludedIndex

section Receiving

variable {courier : Courier} {config : ErasureConfig} {node : RaftNode} {delivery : Delivery}

theorem outcome_toOption (decoded : Except ErasureError Bytes) :
    (match decoded.toOption with
      | some data => Outcome.complete data
      | none => Outcome.reply false 0) =
      match decoded with
      | .ok data => .complete data
      | .error _ => .reply false 0 := by
  cases decoded <;> rfl

/-- What comes of a delivered shard: it waits, or all that wait are decoded. -/
theorem collect_delivery (node : RaftNode)
    (sent : Sent courier config delivery.snapshot.data delivery.shards)
    (member : delivery.shard ∈ delivery.shards)
    (decodes : courier.decodeShard delivery.encoded = some delivery.shard) :
    (delivery.Enough node →
        (node.parts.collect courier.host delivery.request).2 =
          match courier.coder.decode (delivery.collected node) with
          | .ok data => .complete data
          | .error _ => .reply false 0) ∧
      (¬delivery.Enough node →
        (node.parts.collect courier.host delivery.request).2 =
          .reply true (delivery.shard.index + 1)) := by
  obtain ⟨position, found⟩ := List.mem_iff_getElem?.mp member
  obtain ⟨isIndex, isTotal, _⟩ := sent.getElem? found
  have inside : delivery.shard.index < delivery.shard.totalShards := by
    rw [isIndex, isTotal]
    exact (List.getElem?_eq_some_iff.mp found).1
  have marked : delivery.request.Marked := by
    rw [InstallSnapshotRequest.Marked, Delivery.request, List.isPrefixOf_iff_prefix]
    exact List.prefix_append _ _
  have shown : courier.host.decodeShard
      (delivery.request.data.drop erasureShardMagic.length) = some delivery.shard := by
    rw [Delivery.request, List.drop_left]
    exact decodes
  rw [Parts.collect_of_marked marked, Parts.collectShard, shown, Delivery.Enough,
    Delivery.collected]
  dsimp only [parts, Courier.host]
  by_cases same : node.pendingErasureShards.length = delivery.shard.totalShards
  · simp only [same, ne_eq, not_true, ↓reduceIte, inside]
    exact ⟨fun enough => by rw [if_pos enough]; exact outcome_toOption _,
      fun few => by rw [if_neg few]⟩
  · simp only [same, ne_eq, not_false_eq_true, ↓reduceIte, List.length_replicate, inside]
    exact ⟨fun enough => by rw [if_pos enough]; exact outcome_toOption _,
      fun few => by rw [if_neg few]⟩

/-- A complete snapshot that is restored leaves its placeholder in the log. -/
theorem log_applySnapshotData (host : Host) (request : InstallSnapshotRequest) (data : Bytes)
    (restores : host.restore node.stateMachine data = true) :
    (node.applySnapshotData host data request).1.persistent.log = placeholderLog request := by
  rw [applySnapshotData, if_pos restores]
  dsimp only
  split <;> rfl

/-- A delivery with which no snapshot is complete leaves the state machine alone. -/
theorem assembles_of_reply (courier : Courier) (snapshots : List Snapshot) {success : Bool}
    {nextOffset : Nat} (recent : node.persistent.currentTerm ≤ delivery.term)
    (waits : (node.parts.collect courier.host delivery.request).2 = .reply success nextOffset) :
    node.Assembles courier snapshots delivery := by
  have handled : node.handleInstallSnapshot courier.host delivery.request = _ :=
    handleInstallSnapshot_of_le recent
  obtain ⟨parts, collected⟩ : ∃ parts, node.parts.collect courier.host delivery.request =
      (parts, .reply success nextOffset) := ⟨_, Prod.ext rfl waits⟩
  rw [collected] at handled
  refine ⟨by rw [handled]; simp, .inl ?_⟩
  rw [receive, handled]
  exact stateMachine_received

/-- A delivery that completes the bytes of one of the snapshots, with its index. -/
theorem assembles_of_complete (courier : Courier) {snapshots : List Snapshot}
    (recent : node.persistent.currentTerm ≤ delivery.term)
    (complete : (node.parts.collect courier.host delivery.request).2 =
      .complete delivery.snapshot.data)
    (listed : delivery.snapshot ∈ snapshots) : node.Assembles courier snapshots delivery := by
  have handled : node.handleInstallSnapshot courier.host delivery.request = _ :=
    handleInstallSnapshot_of_le recent
  obtain ⟨parts, collected⟩ : ∃ parts, node.parts.collect courier.host delivery.request =
      (parts, .complete delivery.snapshot.data) := ⟨_, Prod.ext rfl complete⟩
  rw [collected] at handled
  dsimp only at handled
  obtain ⟨_, _, machine, _, _, succeeds⟩ := applySnapshotData_spec courier.host
    (node.received delivery.request parts) delivery.request delivery.snapshot.data
  obtain ⟨_, installed⟩ := applySnapshotData_progress courier.host
    (node.received delivery.request parts) delivery.request delivery.snapshot.data
  rw [stateMachine_received] at machine
  refine ⟨by rw [handled]; simp, ?_⟩
  rw [receive, handled]
  by_cases restores : courier.host.restore node.stateMachine delivery.snapshot.data = true
  · rw [if_pos restores] at machine
    refine .inr ⟨delivery.snapshot, listed, machine, ?_, ?_⟩
    · exact log_applySnapshotData courier.host delivery.request delivery.snapshot.data
        (by rw [stateMachine_received]; exact restores)
    · rintro response ⟨⟩ success
      exact installed (succeeds.mp success)
  · rw [if_neg restores] at machine
    exact .inl machine

/-- A genuine delivery assembles one of the snapshots, if anything, when the shards that wait belong
to its own. -/
theorem assembles_of_unmixed {snapshots : List Snapshot} (genuine : delivery.Genuine courier config)
    (reliable : courier.Reliable config delivery.snapshot.data)
    (listed : delivery.snapshot ∈ snapshots) (unmixed : node.Unmixed delivery) :
    node.Assembles courier snapshots delivery := by
  obtain ⟨sent, decodes⟩ := genuine.readable reliable
  by_cases recent : node.persistent.currentTerm ≤ delivery.term
  · obtain ⟨enough, few⟩ := collect_delivery node sent genuine.member decodes
    by_cases isEnough : delivery.Enough node
    · obtain ⟨position, found⟩ := List.mem_iff_getElem?.mp genuine.member
      have isCount := (sent.getElem? found).2.2
      have decoded : courier.coder.decode (delivery.collected node) =
          .ok delivery.snapshot.data := by
        obtain ⟨coded, codes, isWrapped⟩ := sent.coded
        have arrived := unmixed recent isEnough
        rw [isWrapped] at arrived
        exact decode_of_arrived sent.positive sent.accepted codes arrived (isCount ▸ isEnough)
      have complete := enough isEnough
      rw [decoded] at complete
      exact assembles_of_complete courier recent complete listed
    · exact assembles_of_reply courier snapshots recent (few isEnough)
  · have stale : node.handleInstallSnapshot courier.host delivery.request =
        (node, some ⟨node.persistent.currentTerm, false, 0⟩) := by
      rw [handleInstallSnapshot]
      exact if_pos (not_le.mp recent)
    refine ⟨by rw [stale]; simp, .inl ?_⟩
    rw [receive, stale]

/-- No genuine delivery makes a node panic, whichever shards wait there. -/
theorem answered_of_genuine (genuine : delivery.Genuine courier config)
    (reliable : courier.Reliable config delivery.snapshot.data) :
    (node.handleInstallSnapshot courier.host delivery.request).2 ≠ none := by
  obtain ⟨sent, decodes⟩ := genuine.readable reliable
  by_cases recent : node.persistent.currentTerm ≤ delivery.term
  · obtain ⟨enough, few⟩ := collect_delivery node sent genuine.member decodes
    have handled : node.handleInstallSnapshot courier.host delivery.request = _ :=
      handleInstallSnapshot_of_le recent
    cases collected : node.parts.collect courier.host delivery.request with
    | mk parts outcome =>
        rw [collected] at enough few handled
        cases outcome with
        | reply success nextOffset =>
            rw [handled]
            simp
        | complete data =>
            rw [handled]
            simp
        | panic =>
            by_cases isEnough : delivery.Enough node
            · have decoded := enough isEnough
              cases result : courier.coder.decode (delivery.collected node) <;>
                simp [result] at decoded
            · exact absurd (few isEnough) (by simp)
  · rw [handleInstallSnapshot, if_pos]
    · simp
    · exact not_le.mp recent

end Receiving

/-- Every delivery of a run assembles one of the snapshots that were delivered, if anything, when no
delivery completes the shards of another snapshot. -/
theorem assembles_run (courier : Courier) (config : ErasureConfig) (node : RaftNode)
    (deliveries : List Delivery)
    (genuine : ∀ delivery ∈ deliveries, delivery.Genuine courier config)
    (reliable : ∀ delivery ∈ deliveries, courier.Reliable config delivery.snapshot.data)
    (unmixed : AllMeet (receive courier) Unmixed node deliveries) :
    AllMeet (receive courier) (Assembles courier (deliveries.map (·.snapshot))) node
      deliveries := by
  have listed : ∀ delivery ∈ deliveries, delivery.snapshot ∈ deliveries.map (·.snapshot) :=
    fun delivery member => List.mem_map_of_mem member
  generalize deliveries.map (·.snapshot) = snapshots at listed ⊢
  induction deliveries generalizing node with
  | nil => trivial
  | cons delivery deliveries ih =>
      obtain ⟨now, later⟩ := unmixed
      have here : delivery ∈ delivery :: deliveries := List.mem_cons_self
      have there : ∀ other ∈ deliveries, other ∈ delivery :: deliveries :=
        fun other member => List.mem_cons_of_mem _ member
      exact ⟨assembles_of_unmixed (genuine _ here) (reliable _ here) (listed _ here) now,
        ih _ (fun other member => genuine other (there other member))
          (fun other member => reliable other (there other member)) later
          fun other member => listed other (there other member)⟩

end RaftNode

/-- The shards of two snapshots of three bytes, at the indices 4 and 9. -/
def pairDelivery (second : Bool) (index : Nat) : Delivery :=
  let data : Bytes := if second then [8, 9, 10] else [5, 6, 7]
  let shards := ErasureConfig.wrap ⟨2, 1, 2⟩ data
    (if second then [[8, 9], [10, 0], [12, 27]] else [[5, 6], [7, 0], [1, 10]])
  let shard := (shards[index]?).getD ⟨0, [], 0, 0, 0, 0⟩
  { term := 1
    leaderId := "a"
    snapshot := ⟨if second then 9 else 4, 1, .new {"a", "b"}, 3, data⟩
    shards := shards
    shard := shard
    encoded := (pairCourier.encodeShard shard).toOption.getD [] }

theorem pairDelivery_reliable (second : Bool) (index : Nat) :
    pairCourier.Reliable ⟨2, 1, 2⟩ (pairDelivery second index).snapshot.data := by
  cases second with
  | false => exact pairCourier_reliable
  | true =>
      have second : pairCourier.Reliable ⟨2, 1, 2⟩ [8, 9, 10] := by
        apply pairCourier_reliable_of [8, 9] [10, 0] [12, 27] <;> decide
      exact second

theorem pairDelivery_genuine (second : Bool) {index : Nat} (inside : index < 3) :
    (pairDelivery second index).Genuine pairCourier ⟨2, 1, 2⟩ := by
  obtain rfl | rfl | rfl : index = 0 ∨ index = 1 ∨ index = 2 := by omega
  all_goals cases second <;> exact ⟨by decide, by decide, rfl⟩

/-- A shard of another snapshot arrives where the shards of one are left. -/
theorem answered_of_genuine_pair :
    (([pairDelivery false 0, pairDelivery false 1, pairDelivery false 2].foldl
      (RaftNode.receive pairCourier) receiver).handleInstallSnapshot pairCourier.host
        (pairDelivery true 0).request).2 ≠ none :=
  RaftNode.answered_of_genuine (pairDelivery_genuine true (by decide))
    (pairDelivery_reliable true 0)

/-- The first shard twice, and then the second. -/
theorem assembles_run_pair :
    AllMeet (RaftNode.receive pairCourier) (RaftNode.Assembles pairCourier
      ([pairDelivery false 0, pairDelivery false 0, pairDelivery false 1].map (·.snapshot)))
      receiver [pairDelivery false 0, pairDelivery false 0, pairDelivery false 1] := by
  apply RaftNode.assembles_run pairCourier ⟨2, 1, 2⟩ receiver
  · simp [pairDelivery_genuine]
  · simp [pairDelivery_reliable]
  · refine ⟨?_, ?_, ?_, trivial⟩
    · exact fun _ enough => absurd enough (by unfold Delivery.Enough; decide)
    · exact fun _ enough => absurd enough (by unfold Delivery.Enough; decide)
    · intro _ _
      exact .cons (.inr rfl) (.cons (.inr rfl) (.cons (.inl rfl) .nil))

/-- All shards of one snapshot arrive in order, and then the first one of another: the last shard
of the one completes the other. -/
theorem not_assembles :
    let deliveries := [pairDelivery false 0, pairDelivery false 1, pairDelivery false 2,
      pairDelivery true 0]
    (∀ delivery ∈ deliveries, delivery.Genuine pairCourier ⟨2, 1, 2⟩ ∧
      pairCourier.Reliable ⟨2, 1, 2⟩ delivery.snapshot.data) ∧
    ¬AllMeet (RaftNode.receive pairCourier)
      (RaftNode.Assembles pairCourier (deliveries.map (·.snapshot))) receiver deliveries := by
  refine ⟨by simp [pairDelivery_genuine, pairDelivery_reliable], ?_⟩
  rintro ⟨_, _, _, ⟨_, same | ⟨snapshot, member, restored, _⟩⟩, _⟩
  · exact absurd same (by decide)
  · simp only [List.map_cons, List.map_nil, List.mem_cons, List.not_mem_nil, or_false] at member
    rcases member with rfl | rfl | rfl | rfl <;> exact absurd restored (by decide)

end JouleDB.Raft
