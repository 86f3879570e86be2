import Mathlib.Algebra.Order.BigOperators.Group.List
import Mathlib.Algebra.Order.Floor.Div
import Mathlib.Data.List.MinMax
import JouleDB.Lib.Run
import JouleDB.Sharding.Router

/-!
# Assigning shards to nodes

Shards are assigned to the nodes with the least load.  Rebalancing moves shards from the nodes that
have more than their share to those that have less.  Hash maps of nodes and of assignments are
iterated in some order, on which nothing depends.
-/

namespace JouleDB.Sharding

/-! ## Assignments -/

/-- The nodes of a shard. -/
structure ShardAssignment where
  shardId : String
  primaryNode : String
  replicaNodes : List String
  deriving DecidableEq, Repr

/-- Limits of an assignment. -/
structure ShardAssigner where
  maxShardsPerNode : Nat
  replicationFactor : Nat
  deriving DecidableEq, Repr

/-- Count one more shard for a node. -/
def addLoad (loads : List (String × Nat)) (node : String) : List (String × Nat) :=
  loads.map fun entry => if entry.1 = node then (entry.1, entry.2 + 1) else entry

namespace ShardAssigner

/-- The first node with the least load among those that have room and are not taken. -/
def leastLoaded (assigner : ShardAssigner) (taken : List String) (loads : List (String × Nat)) :
    Option String :=
  ((loads.filter fun entry =>
    decide (entry.1 ∉ taken ∧ entry.2 < assigner.maxShardsPerNode)).argmin Prod.snd).map Prod.fst

/-- Select a number of replicas, or fewer if there is no node left. -/
def selectReplicas (assigner : ShardAssigner) (primary : String) :
    Nat → List (String × Nat) → List String → List (String × Nat) × List String
  | 0, loads, replicas => (loads, replicas)
  | count + 1, loads, replicas =>
      match assigner.leastLoaded (primary :: replicas) loads with
      | some node => assigner.selectReplicas primary count (addLoad loads node) (replicas ++ [node])
      | none => assigner.selectReplicas primary count loads replicas

/-- Assign one shard. -/
def assignShard (assigner : ShardAssigner) (loads : List (String × Nat)) (shard : Shard) :
    Except ShardingError (List (String × Nat) × ShardAssignment) :=
  match assigner.leastLoaded [] loads with
  | none => .error .noAvailableShards
  | some primary =>
      let (loads, replicas) := assigner.selectReplicas primary (assigner.replicationFactor - 1)
        (addLoad loads primary) []
      .ok (loads, ⟨shard.id, primary, replicas⟩)

/-- Assign shards one after the other. -/
def assignAll (assigner : ShardAssigner) :
    List (String × Nat) → List Shard → List (String × ShardAssignment) →
      Except ShardingError (List (String × ShardAssignment))
  | _, [], assignments => .ok assignments
  | loads, shard :: shards, assignments => do
      let (loads, assignment) ← assigner.assignShard loads shard
      assigner.assignAll loads shards (upsert assignments shard.id assignment)

/-- Assign shards to nodes, which are given once each in the order of the hash map of loads. -/
def assign (assigner : ShardAssigner) (shards : List Shard) (nodes : List String) :
    Except ShardingError (List (String × ShardAssignment)) :=
  if nodes.isEmpty then .error (.nodeNotFound "No nodes available")
  else assigner.assignAll (nodes.map fun node => (node, 0)) shards []

end ShardAssigner

/-! ## Moves -/

/-- A shard moves from a node to another one. -/
structure RebalanceMove where
  shardId : String
  fromNode : String
  toNode : String
  deriving DecidableEq, Repr

/-- Note a shard for a node, if the node is known. -/
def noteShard (loads : List (String × List String)) (entry : String × ShardAssignment) :
    List (String × List String) :=
  loads.map fun load =>
    if load.1 = entry.2.primaryNode then (load.1, load.2 ++ [entry.1]) else load

/-- The shards of each node. -/
def nodeLoads (current : List (String × ShardAssignment)) (nodes : List String) :
    List (String × List String) :=
  current.foldl noteShard (nodes.map fun node => (node, []))

/-- The shards that a node has beyond its share. -/
def overload (share : Nat) (load : String × List String) : Option (String × List String) :=
  if share < load.2.length then some (load.1, load.2.take (load.2.length - share)) else none

/-- How many shards a node lacks of its share. -/
def underload (share : Nat) (load : String × List String) : Option (String × Nat) :=
  if share < load.2.length then none
  else if load.2.length < share then some (load.1, share - load.2.length)
  else none

/-- Use up room of the first node that has some. -/
def takeRoom : List (String × Nat) → Option (String × List (String × Nat))
  | [] => none
  | (node, room) :: rest =>
      if 0 < room then some (node, (node, room - 1) :: rest)
      else (takeRoom rest).map fun (target, rest) => (target, (node, room) :: rest)

/-- Move a shard to a node with room, if there is one. -/
def moveShard (source : String) (state : List RebalanceMove × List (String × Nat))
    (shard : String) : List RebalanceMove × List (String × Nat) :=
  match takeRoom state.2 with
  | some (target, rest) => (state.1 ++ [⟨shard, source, target⟩], rest)
  | none => state

/-- Move the shards of overloaded nodes to underloaded ones. -/
def generateMoves (overloaded : List (String × List String)) (underloaded : List (String × Nat)) :
    List RebalanceMove :=
  (overloaded.foldl (fun state load => load.2.foldl (moveShard load.1) state) ([], underloaded)).1

/-- The moves that rebalance an assignment over nodes, which are given once each. -/
def rebalance (current : List (String × ShardAssignment)) (nodes : List String) :
    List RebalanceMove :=
  let loads := nodeLoads current nodes
  let share := (current.length + nodes.length - 1) / nodes.length
  generateMoves (loads.filterMap (overload share)) (loads.filterMap (underload share))

/-! ## Loads -/

/-- The nodes that carry a shard. -/
def ShardAssignment.nodes (assignment : ShardAssignment) : List String :=
  assignment.primaryNode :: assignment.replicaNodes

/-- All nodes that carry shards, once for each shard. -/
def carriers (assignments : List (String × ShardAssignment)) : List String :=
  assignments.flatMap fun entry => entry.2.nodes

/-- Add the shards of a list of nodes to their loads. -/
def addLoads (loads : List (String × Nat)) (nodes : List String) : List (String × Nat) :=
  loads.map fun entry => (entry.1, entry.2 + nodes.count entry.1)

theorem addLoad_eq (loads : List (String × Nat)) (node : String) :
    addLoad loads node = addLoads loads [node] := by
  refine List.map_congr_left fun entry _ => ?_
  rw [List.count_singleton']
  by_cases same : entry.1 = node
  · rw [if_pos same, if_pos same.symm]
  · rw [if_neg same, if_neg (Ne.symm same)]
    rfl

theorem addLoads_addLoads (loads : List (String × Nat)) (front back : List String) :
    addLoads (addLoads loads front) back = addLoads loads (front ++ back) := by
  simp only [addLoads, List.map_map, Function.comp_def, List.count_append, Nat.add_assoc]

theorem addLoads_nil (loads : List (String × Nat)) : addLoads loads [] = loads := by
  simp [addLoads]

theorem keys_addLoads (loads : List (String × Nat)) (nodes : List String) :
    (addLoads loads nodes).map Prod.fst = loads.map Prod.fst := by
  simp [addLoads]

namespace ShardAssigner

variable {assigner : ShardAssigner} {loads : List (String × Nat)}

/-- No load exceeds the limit. -/
def Fits (assigner : ShardAssigner) (loads : List (String × Nat)) : Prop :=
  ∀ entry ∈ loads, entry.2 ≤ assigner.maxShardsPerNode

theorem leastLoaded_spec {taken : List String} {node : String}
    (least : assigner.leastLoaded taken loads = some node) :
    node ∉ taken ∧ ∃ load < assigner.maxShardsPerNode, (node, load) ∈ loads := by
  obtain ⟨entry, found, rfl⟩ := Option.map_eq_some_iff.mp least
  obtain ⟨member, test⟩ := List.mem_filter.mp (List.argmin_mem found)
  obtain ⟨isFree, room⟩ := of_decide_eq_true test
  exact ⟨isFree, entry.2, room, member⟩

theorem Fits.addLoad (fits : assigner.Fits loads) (once : (loads.map Prod.fst).Nodup)
    {node : String} {load : Nat} (room : load < assigner.maxShardsPerNode)
    (member : (node, load) ∈ loads) : assigner.Fits (addLoads loads [node]) := by
  intro entry inside
  obtain ⟨⟨other, before⟩, isBefore, rfl⟩ := List.mem_map.mp inside
  rw [List.count_singleton']
  split
  next same =>
    subst same
    have loadSame : before = load := by
      have first := (lookup_eq_some_iff once).mpr isBefore
      have second := (lookup_eq_some_iff once).mpr member
      exact Option.some.inj (first.symm.trans second)
    rw [loadSame]
    exact room
  next => exact fits _ isBefore

/-- What selecting replicas does: it adds nodes with room, none of them twice. -/
theorem selectReplicas_spec {primary : String} {count : Nat} {replicas : List String}
    (fits : assigner.Fits loads) (once : (loads.map Prod.fst).Nodup)
    (apart : (primary :: replicas).Nodup) :
    ∃ added, assigner.selectReplicas primary count loads replicas =
        (addLoads loads added, replicas ++ added) ∧ added.length ≤ count ∧
      (primary :: (replicas ++ added)).Nodup ∧ (∀ node ∈ added, node ∈ loads.map Prod.fst) ∧
        assigner.Fits (addLoads loads added) := by
  induction count generalizing loads replicas with
  | zero =>
      refine ⟨[], ?_, Nat.le_refl 0, ?_, nofun, ?_⟩
      · rw [selectReplicas, addLoads_nil, List.append_nil]
      · rwa [List.append_nil]
      · rwa [addLoads_nil]
  | succ count ih =>
      rw [selectReplicas]
      split
      next node least =>
        obtain ⟨isFree, load, room, member⟩ := leastLoaded_spec least
        have longer : (primary :: (replicas ++ [node])).Nodup :=
          apart.append (List.nodup_singleton node) (List.disjoint_singleton.mpr isFree)
        have once' : ((addLoads loads [node]).map Prod.fst).Nodup := by rwa [keys_addLoads]
        obtain ⟨added, result, few, nodup, known, fits'⟩ :=
          ih (fits.addLoad once room member) once' longer
        rw [addLoads_addLoads] at result fits'
        rw [keys_addLoads] at known
        rw [List.append_assoc] at result nodup
        refine ⟨[node] ++ added, by rw [addLoad_eq, result], Nat.succ_le_succ few, nodup, ?_, fits'⟩
        intro other inside
        rcases List.mem_cons.mp inside with rfl | later
        · exact List.mem_map_of_mem member
        · exact known other later
      next =>
        obtain ⟨added, result, few, rest⟩ := ih fits once apart
        exact ⟨added, result, Nat.le_succ_of_le few, rest⟩

/-- A shard is on different known nodes, and has no more replicas than wanted. -/
structure Placed (assigner : ShardAssigner) (nodes : List String) (id : String)
    (assignment : ShardAssignment) : Prop where
  shard : assignment.shardId = id
  apart : assignment.nodes.Nodup
  known : ∀ node ∈ assignment.nodes, node ∈ nodes
  replicas : assignment.replicaNodes.length ≤ assigner.replicationFactor - 1

theorem assignShard_spec {shard : Shard} {loads' : List (String × Nat)}
    {assignment : ShardAssignment} (fits : assigner.Fits loads)
    (once : (loads.map Prod.fst).Nodup)
    (assigns : assigner.assignShard loads shard = .ok (loads', assignment)) :
    loads' = addLoads loads assignment.nodes ∧
      assigner.Placed (loads.map Prod.fst) shard.id assignment ∧ assigner.Fits loads' := by
  rw [assignShard] at assigns
  split at assigns
  next => cases assigns
  next primary least =>
    obtain ⟨-, load, room, member⟩ := leastLoaded_spec least
    have once' : ((addLoads loads [primary]).map Prod.fst).Nodup := by rwa [keys_addLoads]
    obtain ⟨added, result, few, nodup, known, fits'⟩ :=
      @selectReplicas_spec assigner _ primary (assigner.replicationFactor - 1) []
        (fits.addLoad once room member) once' (List.nodup_singleton primary)
    rw [addLoads_addLoads] at result fits'
    rw [addLoad_eq, result] at assigns
    cases assigns
    rw [keys_addLoads] at known
    refine ⟨rfl, ⟨rfl, nodup, fun node inside => ?_, few⟩, fits'⟩
    rcases List.mem_cons.mp inside with rfl | later
    · exact List.mem_map_of_mem member
    · exact known node later

/-- What holds of the shards that are assigned and of the loads of the nodes. -/
structure Assigned (assigner : ShardAssigner) (nodes : List String) (loads : List (String × Nat))
    (assignments : List (String × ShardAssignment)) : Prop where
  counted : loads = addLoads (nodes.map fun node => (node, 0)) (carriers assignments)
  fits : assigner.Fits loads
  placed : ∀ entry ∈ assignments, assigner.Placed nodes entry.1 entry.2

theorem assignAll_spec {nodes : List String} (distinct : nodes.Nodup) {shards : List Shard}
    {assignments result : List (String × ShardAssignment)}
    (assigned : assigner.Assigned nodes loads assignments)
    (ids : (assignments.map Prod.fst ++ shards.map Shard.id).Nodup)
    (assigns : assigner.assignAll loads shards assignments = .ok result) :
    (∃ loads', assigner.Assigned nodes loads' result) ∧
      result.map Prod.fst = assignments.map Prod.fst ++ shards.map Shard.id := by
  induction shards generalizing loads assignments with
  | nil =>
      cases assigns
      exact ⟨⟨loads, assigned⟩, (List.append_nil _).symm⟩
  | cons shard shards ih =>
      rw [assignAll] at assigns
      cases one : assigner.assignShard loads shard with
      | error error =>
          rw [one] at assigns
          cases assigns
      | ok pair =>
          rw [one] at assigns
          have keys : loads.map Prod.fst = nodes := by
            rw [assigned.counted, keys_addLoads, List.map_map]
            exact List.map_id nodes
          obtain ⟨loads', placed, fits⟩ :=
            assignShard_spec assigned.fits (keys.symm ▸ distinct) one
          rw [keys] at placed
          rw [List.map_cons, List.append_cons] at ids
          have absent : shard.id ∉ assignments.map Prod.fst := by
            have front := (List.nodup_append.mp ids).1
            exact fun member => (List.nodup_append.mp front).2.2 _ member _
              (List.mem_singleton.mpr rfl) rfl
          have joined : upsert assignments shard.id pair.2 = assignments ++ [(shard.id, pair.2)] :=
            upsert_of_not_mem absent pair.2
          have keys' : (assignments ++ [(shard.id, pair.2)]).map Prod.fst =
              assignments.map Prod.fst ++ [shard.id] := List.map_append
          have assigned' : assigner.Assigned nodes pair.1
              (assignments ++ [(shard.id, pair.2)]) := by
            refine ⟨?_, fits, fun entry member => ?_⟩
            · rw [loads', assigned.counted, addLoads_addLoads]
              simp [carriers]
            · rcases List.mem_append.mp member with before | now
              · exact assigned.placed entry before
              · rw [List.mem_singleton.mp now]
                exact placed
          rw [List.map_cons, List.append_cons, ← keys']
          refine ih assigned' (by rwa [keys']) ?_
          rw [← joined]
          exact assigns

/-- Shards are assigned within limits: each to different nodes, no more replicas than wanted, and
no node carrying more than it may. -/
structure WithinLimits (assigner : ShardAssigner) (shards : List Shard) (nodes : List String)
    (assignments : List (String × ShardAssignment)) : Prop where
  all : assignments.map Prod.fst = shards.map Shard.id
  placed : ∀ entry ∈ assignments, assigner.Placed nodes entry.1 entry.2
  limited : ∀ node, (carriers assignments).count node ≤ assigner.maxShardsPerNode

theorem assign_withinLimits {shards : List Shard} {nodes : List String} (distinct : nodes.Nodup)
    (ids : (shards.map Shard.id).Nodup) {assignments : List (String × ShardAssignment)}
    (assigns : assigner.assign shards nodes = .ok assignments) :
    assigner.WithinLimits shards nodes assignments := by
  rw [assign] at assigns
  split at assigns
  next => cases assigns
  next =>
    have start : assigner.Assigned nodes (nodes.map fun node => (node, 0)) [] := by
      refine ⟨(addLoads_nil _).symm, fun entry member => ?_, nofun⟩
      obtain ⟨node, -, rfl⟩ := List.mem_map.mp member
      exact Nat.zero_le _
    obtain ⟨⟨loads, assigned⟩, all⟩ := assignAll_spec distinct start ids assigns
    refine ⟨all, assigned.placed, fun node => ?_⟩
    by_cases known : node ∈ nodes
    · have inside : (node, 0 + (carriers assignments).count node) ∈ loads := by
        rw [assigned.counted]
        exact List.mem_map_of_mem (List.mem_map_of_mem known)
      have fits := assigned.fits _ inside
      rwa [Nat.zero_add] at fits
    · have absent : node ∉ carriers assignments := by
        intro member
        obtain ⟨entry, isEntry, carries⟩ := List.mem_flatMap.mp member
        exact known ((assigned.placed entry isEntry).known node carries)
      rw [List.count_eq_zero_of_not_mem absent]
      exact Nat.zero_le _

end ShardAssigner

/-! ## Shards of nodes -/

variable {current : List (String × ShardAssignment)} {nodes : List String}

/-- The shards whose primary is a node. -/
def shardsOf (current : List (String × ShardAssignment)) (node : String) : List String :=
  (current.filter fun entry => decide (node = entry.2.primaryNode)).map Prod.fst

theorem foldl_noteShard (loads : List (String × List String)) :
    current.foldl noteShard loads =
      loads.map fun load => (load.1, load.2 ++ shardsOf current load.1) := by
  induction current generalizing loads with
  | nil => simp [shardsOf]
  | cons entry current ih =>
      rw [List.foldl_cons, ih, noteShard, List.map_map]
      refine List.map_congr_left fun load _ => ?_
      by_cases same : load.1 = entry.2.primaryNode
      · simp [shardsOf, same]
      · simp [shardsOf, same]

theorem nodeLoads_eq : nodeLoads current nodes = nodes.map fun node => (node, shardsOf current node) := by
  rw [nodeLoads, foldl_noteShard, List.map_map]
  refine List.map_congr_left fun node _ => ?_
  rw [Function.comp_apply, List.nil_append]

/-- How many shards a node is the primary of. -/
def primaries (current : List (String × ShardAssignment)) (node : String) : Nat :=
  current.countP fun entry => decide (node = entry.2.primaryNode)

theorem length_shardsOf (node : String) : (shardsOf current node).length = primaries current node := by
  rw [shardsOf, List.length_map, primaries, List.countP_eq_length_filter]

theorem sum_indicators (node : String) :
    (nodes.map fun other => if other = node then 1 else 0).sum = nodes.count node := by
  induction nodes with
  | nil => rfl
  | cons head rest ih =>
      rw [List.map_cons, List.sum_cons, ih, List.count_cons, Nat.add_comm]
      simp only [beq_iff_eq]

theorem sum_primaries (distinct : nodes.Nodup)
    (known : ∀ entry ∈ current, entry.2.primaryNode ∈ nodes) :
    (nodes.map (primaries current)).sum = current.length := by
  induction current with
  | nil =>
      refine List.sum_eq_zero fun count member => ?_
      obtain ⟨node, -, rfl⟩ := List.mem_map.mp member
      rfl
  | cons entry current ih =>
      have one : (nodes.map fun node => if node = entry.2.primaryNode then 1 else 0).sum = 1 := by
        rw [sum_indicators, distinct.count, if_pos (known entry List.mem_cons_self)]
      have later := ih fun other member => known other (List.mem_cons_of_mem _ member)
      have step : primaries (entry :: current) = fun node =>
          primaries current node + if node = entry.2.primaryNode then 1 else 0 := by
        funext node
        rw [primaries, List.countP_cons, primaries]
        simp only [decide_eq_true_eq]
      rw [step, List.sum_map_add, later, one, List.length_cons]

/-! ## Excess and room -/

variable {share : Nat} {loads : List (String × List String)}

/-- The shards beyond the shares of their nodes. -/
def excess (share : Nat) (loads : List (String × List String)) : List (String × String) :=
  loads.flatMap fun load =>
    (load.2.take (load.2.length - share)).map fun shard => (load.1, shard)

/-- The moves of a list of shards and the room that is left. -/
def moveAll (state : List RebalanceMove × List (String × Nat)) (shards : List (String × String)) :
    List RebalanceMove × List (String × Nat) :=
  shards.foldl (fun state shard => moveShard shard.1 state shard.2) state

theorem generateMoves_eq (underloaded : List (String × Nat)) :
    generateMoves (loads.filterMap (overload share)) underloaded =
      (moveAll ([], underloaded) (excess share loads)).1 := by
  suffices same : ∀ state : List RebalanceMove × List (String × Nat),
      (loads.filterMap (overload share)).foldl
          (fun state load => load.2.foldl (moveShard load.1) state) state =
        moveAll state (excess share loads) by rw [generateMoves, same]
  induction loads with
  | nil => exact fun state => rfl
  | cons load loads ih =>
      intro state
      have first : moveAll state (excess share (load :: loads)) =
          moveAll ((load.2.take (load.2.length - share)).foldl (moveShard load.1) state)
            (excess share loads) := by
        rw [excess, List.flatMap_cons, moveAll, List.foldl_append, List.foldl_map]
        rfl
      rw [first, ← ih]
      by_cases over_ : share < load.2.length
      · rw [List.filterMap_cons, overload, if_pos over_, List.foldl_cons]
      · rw [List.filterMap_cons, overload, if_neg over_, Nat.sub_eq_zero_of_le (not_lt.mp over_)]
        rfl

/-- The room of the nodes that pass a test. -/
def roomWhere (test : String → Bool) (rooms : List (String × Nat)) : Nat :=
  (rooms.map fun entry => if test entry.1 then entry.2 else 0).sum

theorem takeRoom_spec {rooms : List (String × Nat)} (left : 0 < roomWhere (fun _ => true) rooms) :
    ∃ target rest, takeRoom rooms = some (target, rest) ∧ ∀ test : String → Bool,
      roomWhere test rest + (if test target then 1 else 0) = roomWhere test rooms := by
  induction rooms with
  | nil => cases left
  | cons entry rooms ih =>
      obtain ⟨node, room⟩ := entry
      rw [takeRoom]
      by_cases positive : 0 < room
      · rw [if_pos positive]
        refine ⟨node, _, rfl, fun test => ?_⟩
        simp only [roomWhere, List.map_cons, List.sum_cons]
        split <;> omega
      · rw [if_neg positive]
        have later : 0 < roomWhere (fun _ => true) rooms := by
          simp only [roomWhere, List.map_cons, List.sum_cons, if_true] at left ⊢
          omega
        obtain ⟨target, rest, taken, used⟩ := ih later
        refine ⟨target, (node, room) :: rest, by rw [taken]; rfl, fun test => ?_⟩
        have used := used test
        simp only [roomWhere, List.map_cons, List.sum_cons] at used ⊢
        omega

/-- While there is room for all of them, every shard of a list moves. -/
theorem moveAll_spec {shards : List (String × String)} {moves : List RebalanceMove}
    {rooms : List (String × Nat)} (enough : shards.length ≤ roomWhere (fun _ => true) rooms) :
    ∃ added rest, moveAll (moves, rooms) shards = (moves ++ added, rest) ∧
      (added.map fun move => (move.fromNode, move.shardId)) = shards ∧ ∀ test : String → Bool,
        roomWhere test rest + added.countP (fun move => test move.toNode) =
          roomWhere test rooms := by
  induction shards generalizing moves rooms with
  | nil => exact ⟨[], rooms, by rw [List.append_nil]; rfl, rfl, fun _ => rfl⟩
  | cons shard shards ih =>
      rw [List.length_cons] at enough
      obtain ⟨target, rest, taken, used⟩ := takeRoom_spec (Nat.zero_lt_of_lt enough)
      have left : shards.length ≤ roomWhere (fun _ => true) rest := by
        have one := used fun _ => true
        rw [if_pos rfl] at one
        omega
      obtain ⟨added, rest', moved, pairs, used'⟩ :=
        @ih (moves ++ [⟨shard.2, shard.1, target⟩]) rest left
      refine ⟨⟨shard.2, shard.1, target⟩ :: added, rest', ?_, ?_, fun test => ?_⟩
      · rw [List.append_cons, ← moved, moveAll, List.foldl_cons, moveShard, taken]
        rfl
      · rw [List.map_cons, pairs]
      · rw [List.countP_cons, ← used, ← used', Nat.add_assoc]

theorem roomWhere_underload (test : String → Bool) :
    roomWhere test (loads.filterMap (underload share)) =
      (loads.map fun load => if test load.1 then share - load.2.length else 0).sum := by
  induction loads with
  | nil => rfl
  | cons load loads ih =>
      rw [List.map_cons, List.sum_cons, ← ih, List.filterMap_cons, underload]
      by_cases more : share < load.2.length
      · rw [if_pos more, Nat.sub_eq_zero_of_le more.le, ite_self, Nat.zero_add]
      · by_cases less : load.2.length < share
        · rw [if_neg more, if_pos less]
          rfl
        · rw [if_neg more, if_neg less, Nat.sub_eq_zero_of_le (not_lt.mp less), ite_self,
            Nat.zero_add]

/-- The loads and the room are the excess and the shares. -/
theorem sum_add_room :
    (loads.map fun load => load.2.length).sum +
        (loads.map fun load => share - load.2.length).sum =
      (excess share loads).length + share * loads.length := by
  induction loads with
  | nil => rfl
  | cons load loads ih =>
      have first : (excess share (load :: loads)).length =
          load.2.length - share + (excess share loads).length := by
        rw [excess, List.flatMap_cons, List.length_append, List.length_map, List.length_take,
          min_eq_left (Nat.sub_le _ _)]
        rfl
      rw [List.map_cons, List.sum_cons, List.map_cons, List.sum_cons, first, List.length_cons,
        Nat.mul_succ]
      omega

/-! ## Applying moves -/

/-- Make the target of a move the primary of its shard. -/
def applyMove (current : List (String × ShardAssignment)) (move : RebalanceMove) :
    List (String × ShardAssignment) :=
  current.map fun entry =>
    if entry.1 = move.shardId then (entry.1, { entry.2 with primaryNode := move.toNode }) else entry

/-- A move starts from the primary of its shard. -/
def Starts (current : List (String × ShardAssignment)) (move : RebalanceMove) : Prop :=
  ∃ assignment, current.lookup move.shardId = some assignment ∧
    assignment.primaryNode = move.fromNode

theorem keys_applyMove (move : RebalanceMove) :
    (applyMove current move).map Prod.fst = current.map Prod.fst := by
  rw [applyMove, List.map_map]
  refine List.map_congr_left fun entry _ => ?_
  rw [Function.comp_apply]
  split <;> rfl

theorem lookup_applyMove {move : RebalanceMove} {id : String} (apart : id ≠ move.shardId) :
    (applyMove current move).lookup id = current.lookup id := by
  induction current with
  | nil => rfl
  | cons entry current ih =>
      rw [applyMove, List.map_cons, lookup_cons_ite, lookup_cons_ite]
      rw [applyMove] at ih
      rw [ih]
      by_cases same : entry.1 = move.shardId
      · rw [if_pos same, if_neg (same ▸ apart), if_neg (same ▸ apart)]
      · rw [if_neg same]

theorem primaries_applyMove (ids : (current.map Prod.fst).Nodup) {move : RebalanceMove}
    (starts : Starts current move) (node : String) :
    primaries (applyMove current move) node + (if node = move.fromNode then 1 else 0) =
      primaries current node + (if node = move.toNode then 1 else 0) := by
  obtain ⟨assignment, found, source⟩ := starts
  obtain ⟨front, back, rfl⟩ := List.append_of_mem ((lookup_eq_some_iff ids).mp found)
  have kept : ∀ part : List (String × ShardAssignment), (∀ entry ∈ part, entry.1 ≠ move.shardId) →
      applyMove part move = part := fun part apart => by
    refine (List.map_congr_left fun entry member => ?_).trans (List.map_id part)
    exact if_neg (apart entry member)
  rw [List.map_append, List.map_cons] at ids
  have distinct := List.nodup_middle.mp ids
  rw [List.nodup_cons, List.mem_append, not_or] at distinct
  obtain ⟨⟨before, after⟩, -⟩ := distinct
  have front_kept := kept front fun entry member same =>
    before (List.mem_map.mpr ⟨entry, member, same⟩)
  have back_kept := kept back fun entry member same =>
    after (List.mem_map.mpr ⟨entry, member, same⟩)
  have moved : applyMove (front ++ (move.shardId, assignment) :: back) move =
      front ++ (move.shardId, { assignment with primaryNode := move.toNode }) :: back := by
    rw [applyMove] at front_kept back_kept
    rw [applyMove, List.map_append, List.map_cons, front_kept, back_kept, if_pos rfl]
  rw [moved, primaries, primaries, List.countP_append, List.countP_append, List.countP_cons,
    List.countP_cons, source]
  simp only [decide_eq_true_eq]
  omega

/-- Moves of different shards start from the current primaries if they start from the original
ones. -/
theorem starts_all {moves : List RebalanceMove} (shards : (moves.map RebalanceMove.shardId).Nodup)
    (starts : ∀ move ∈ moves, Starts current move) : AllMeet applyMove Starts current moves := by
  induction moves generalizing current with
  | nil => trivial
  | cons move moves ih =>
      rw [List.map_cons, List.nodup_cons] at shards
      refine ⟨starts move List.mem_cons_self, ih shards.2 fun later member => ?_⟩
      obtain ⟨assignment, found, source⟩ := starts later (List.mem_cons_of_mem _ member)
      have apart : later.shardId ≠ move.shardId := fun same =>
        shards.1 (same ▸ List.mem_map_of_mem member)
      exact ⟨assignment, (lookup_applyMove apart).trans found, source⟩

theorem primaries_applyMoves {moves : List RebalanceMove} (ids : (current.map Prod.fst).Nodup)
    (starts : AllMeet applyMove Starts current moves) (node : String) :
    primaries (moves.foldl applyMove current) node +
        moves.countP (fun move => decide (node = move.fromNode)) =
      primaries current node + moves.countP fun move => decide (node = move.toNode) := by
  induction moves generalizing current with
  | nil => rfl
  | cons move moves ih =>
      have first := primaries_applyMove ids starts.1 node
      have later := ih (by rwa [keys_applyMove]) starts.2
      rw [List.foldl_cons, List.countP_cons, List.countP_cons]
      simp only [decide_eq_true_eq]
      omega

/-! ## What is claimed -/

theorem mem_shardsOf {node id : String} :
    id ∈ shardsOf current node ↔
      ∃ assignment, (id, assignment) ∈ current ∧ node = assignment.primaryNode := by
  simp [shardsOf]

theorem nodup_shardsOf (ids : (current.map Prod.fst).Nodup) (node : String) :
    (shardsOf current node).Nodup :=
  ids.sublist (List.filter_sublist.map Prod.fst)

theorem mem_excess {node id : String} (member : (node, id) ∈ excess share (nodeLoads current nodes)) :
    id ∈ shardsOf current node := by
  rw [nodeLoads_eq, excess, List.mem_flatMap] at member
  obtain ⟨load, isLoad, inside⟩ := member
  obtain ⟨other, -, rfl⟩ := List.mem_map.mp isLoad
  obtain ⟨shard, taken, same⟩ := List.mem_map.mp inside
  cases same
  exact List.mem_of_mem_take taken

/-- No shard is beyond the share of two nodes, or twice beyond the share of one. -/
theorem nodup_excess (distinct : nodes.Nodup) (ids : (current.map Prod.fst).Nodup) :
    ((excess share (nodeLoads current nodes)).map Prod.snd).Nodup := by
  rw [nodeLoads_eq, excess, List.flatMap_map, List.map_flatMap]
  simp only [List.map_map, Function.comp_def, List.map_id']
  refine List.nodup_flatMap.mpr ⟨fun node _ => ?_, ?_⟩
  · exact (nodup_shardsOf ids node).sublist (List.take_sublist _ _)
  · refine distinct.imp fun apart => ?_
    intro id first second
    obtain ⟨one, isOne, same⟩ := mem_shardsOf.mp (List.mem_of_mem_take first)
    obtain ⟨two, isTwo, same'⟩ := mem_shardsOf.mp (List.mem_of_mem_take second)
    have both := ((lookup_eq_some_iff ids).mpr isOne).symm.trans ((lookup_eq_some_iff ids).mpr isTwo)
    cases both
    exact apart (same.trans same'.symm)

theorem sum_single (distinct : nodes.Nodup) {node : String} (known : node ∈ nodes)
    (count : String → Nat) :
    (nodes.map fun other => if node = other then count other else 0).sum = count node := by
  rw [List.sum_map_eq_nsmul_single node, distinct.count, if_pos known, if_pos rfl, one_nsmul]
  exact fun other apart _ => if_neg (Ne.symm apart)

theorem countP_excess (distinct : nodes.Nodup) {node : String} (known : node ∈ nodes) :
    (excess share (nodeLoads current nodes)).countP (fun shard => decide (node = shard.1)) =
      primaries current node - share := by
  rw [excess, List.countP_flatMap, nodeLoads_eq, List.map_map,
    ← sum_single distinct known fun other => primaries current other - share]
  refine congrArg List.sum (List.map_congr_left fun other _ => ?_)
  rw [Function.comp_apply, Function.comp_apply, List.countP_map, Function.comp_def]
  simp only [length_shardsOf]
  split
  next same =>
    subst same
    simp [length_shardsOf]
  next apart => simp [apart]

/-- The excess of all nodes has room on the others. -/
theorem length_excess_le (distinct : nodes.Nodup) (some : nodes ≠ [])
    (known : ∀ entry ∈ current, entry.2.primaryNode ∈ nodes)
    (isShare : share = (current.length + nodes.length - 1) / nodes.length) :
    (excess share (nodeLoads current nodes)).length ≤
      roomWhere (fun _ => true) ((nodeLoads current nodes).filterMap (underload share)) := by
  have sums := @sum_add_room share (nodeLoads current nodes)
  have total : ((nodeLoads current nodes).map fun load => load.2.length).sum = current.length := by
    rw [nodeLoads_eq, List.map_map, ← sum_primaries distinct known]
    exact congrArg List.sum (List.map_congr_left fun node _ => length_shardsOf node)
  have size : (nodeLoads current nodes).length = nodes.length := by
    rw [nodeLoads_eq, List.length_map]
  have enough : current.length ≤ share * nodes.length := by
    rw [isShare, ← Nat.ceilDiv_eq_add_pred_div, Nat.mul_comm]
    exact le_smul_ceilDiv (List.length_pos_iff.mpr some)
  rw [roomWhere_underload]
  simp only [if_true]
  rw [total, size] at sums
  omega

/-- Moves level an assignment: no shard moves twice, every move starts from the current primary of
its shard, and in the end no node has more primaries than its share. -/
structure Levels (current : List (String × ShardAssignment)) (nodes : List String)
    (moves : List RebalanceMove) : Prop where
  once : (moves.map RebalanceMove.shardId).Nodup
  starts : AllMeet applyMove Starts current moves
  shares : ∀ node ∈ nodes,
    primaries (moves.foldl applyMove current) node ≤ current.length ⌈/⌉ nodes.length

theorem rebalance_levels (distinct : nodes.Nodup) (some : nodes ≠ [])
    (ids : (current.map Prod.fst).Nodup)
    (known : ∀ entry ∈ current, entry.2.primaryNode ∈ nodes) :
    Levels current nodes (rebalance current nodes) := by
  rw [rebalance]
  generalize isShare : (current.length + nodes.length - 1) / nodes.length = share
  have fits := length_excess_le distinct some known isShare.symm
  obtain ⟨moves, rest, moved, pairs, used⟩ := @moveAll_spec _ [] _ fits
  rw [generateMoves_eq, moved, List.nil_append]
  change Levels current nodes moves
  have sources : ∀ move ∈ moves, Starts current move := by
    intro move member
    have isPair : (move.fromNode, move.shardId) ∈ excess share (nodeLoads current nodes) := by
      rw [← pairs]
      exact List.mem_map_of_mem member
    obtain ⟨assignment, present, source⟩ := mem_shardsOf.mp (mem_excess isPair)
    exact ⟨assignment, (lookup_eq_some_iff ids).mpr present, source.symm⟩
  have once : (moves.map RebalanceMove.shardId).Nodup := by
    have nodup := @nodup_excess current nodes share distinct ids
    rwa [← pairs, List.map_map] at nodup
  have starts := starts_all once sources
  refine ⟨once, starts, fun node isNode => ?_⟩
  have levelled := primaries_applyMoves ids starts node
  have left : moves.countP (fun move => decide (node = move.fromNode)) =
      primaries current node - share := by
    rw [← countP_excess distinct isNode, ← pairs, List.countP_map]
    rfl
  have arrived := used fun other => decide (node = other)
  have room : roomWhere (fun other => decide (node = other))
      ((nodeLoads current nodes).filterMap (underload share)) = share - primaries current node := by
    rw [roomWhere_underload, nodeLoads_eq, List.map_map,
      ← sum_single distinct isNode fun other => share - primaries current other]
    refine congrArg List.sum (List.map_congr_left fun other _ => ?_)
    rw [Function.comp_apply, length_shardsOf]
    simp only [decide_eq_true_eq]
  rw [Nat.ceilDiv_eq_add_pred_div, isShare]
  omega

/-- Shards are assigned within the limits, and the moves that rebalance an assignment level it. -/
theorem assigner_respects_limits (distinct : nodes.Nodup) (some : nodes ≠ []) :
    (∀ (assigner : ShardAssigner) (shards : List Shard), (shards.map Shard.id).Nodup →
      ∀ assignments, assigner.assign shards nodes = .ok assignments →
        assigner.WithinLimits shards nodes assignments) ∧
      ∀ current : List (String × ShardAssignment), (current.map Prod.fst).Nodup →
        (∀ entry ∈ current, entry.2.primaryNode ∈ nodes) →
          Levels current nodes (rebalance current nodes) :=
  ⟨fun _ _ ids _ assigns => ShardAssigner.assign_withinLimits distinct ids assigns,
    fun _ ids known => rebalance_levels distinct some ids known⟩

/-- All shards are on the first of two nodes. -/
def lopsided : List (String × ShardAssignment) :=
  [("s1", ⟨"s1", "n1", []⟩), ("s2", ⟨"s2", "n1", []⟩), ("s3", ⟨"s3", "n1", ["n2"]⟩)]

theorem assigner_respects_limits_lopsided :
    ["n1", "n2"].Nodup ∧ ["n1", "n2"] ≠ [] ∧
      rebalance lopsided ["n1", "n2"] = [⟨"s1", "n1", "n2"⟩] ∧
      Levels lopsided ["n1", "n2"] (rebalance lopsided ["n1", "n2"]) :=
  ⟨by decide, by decide, by decide,
    (assigner_respects_limits (by decide) (by decide)).2 lopsided (by decide) (by decide)⟩

end JouleDB.Sharding
