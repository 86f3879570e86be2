import Mathlib.Data.Finset.Card
import Mathlib.Tactic.Tauto
import JouleDB.Sharding.Calls

/-!
# Consistent hashing moves only what it must

Adding a shard to a ring takes keys from other shards for it alone, and removing a shard moves its
keys alone.  A ring is determined by the set of its shards, and lists as many shards for the
replicas of a key as there are or are asked for.
-/

namespace JouleDB.Sharding

/-! ## Replicas of keys -/

/-- The greatest number of texts, of 24 bytes each, that a vector reserves room for. -/
def maxCapacity : Nat := (2 ^ 63 - 1) / 24

namespace ConsistentHashRing

/-- Collect the unique shards of a list until there are enough. -/
def collectShards (count : Nat) : List String → List String → List String
  | result, [] => result
  | result, id :: rest =>
      if id ∈ result then collectShards count result rest
      else if count ≤ result.length + 1 then result ++ [id]
      else collectShards count (result ++ [id]) rest

/-- The shards of the positions from the hash of a key on, and of all positions. -/
def onward (ring : ConsistentHashRing) (key : Bytes) : List String :=
  ((ring.ring.filter fun entry => decide (hashBytes key ≤ entry.1)) ++ ring.ring).map Prod.snd

/-- Get the shards responsible for the replicas of a key.  Reserving room for too many shards
panics. -/
def getReplicaShards (ring : ConsistentHashRing) (key : Bytes) (count : Nat) :
    Option (List String) :=
  if ring.ring.isEmpty then some []
  else if maxCapacity < count then none
  else some (collectShards count [] (ring.onward key))

/-- Get all shards in the ring. -/
def ids (ring : ConsistentHashRing) : List String := ring.shardPositions.map Prod.fst

/-- Get the number of shards. -/
def length (ring : ConsistentHashRing) : Nat := ring.shardPositions.length

/-- The changes of a ring. -/
inductive Change where
  | addShard (id : String)
  | removeShard (id : String)
  deriving DecidableEq, Repr

/-- The shard that a change is about. -/
def Change.shard : Change → String
  | .addShard id => id
  | .removeShard id => id

/-- The ring after a change. -/
def change (ring : ConsistentHashRing) : Change → ConsistentHashRing
  | .addShard id => ring.addShard id
  | .removeShard id => ring.removeShard id

/-- The ring that changes lead to. -/
def reached (virtualNodes : Nat) (changes : List Change) : ConsistentHashRing :=
  changes.foldl change (.new virtualNodes)

/-! ## Ordered positions -/

theorem mem_insertAt_iff {ring : List (Nat × String)} (sorted : ring.Pairwise fun a b => a.1 < b.1)
    {position : Nat} {id : String} {entry : Nat × String} :
    entry ∈ insertAt ring position id ↔
      entry = (position, id) ∨ entry ∈ ring ∧ entry.1 ≠ position := by
  induction ring with
  | nil => simp [insertAt]
  | cons head rest ih =>
      obtain ⟨first, other⟩ := head
      obtain ⟨above, later⟩ := List.pairwise_cons.mp sorted
      rw [insertAt]
      split
      next before =>
        have apart : ∀ entry ∈ (first, other) :: rest, entry.1 ≠ position := by
          intro entry member
          rcases List.mem_cons.mp member with rfl | member
          · exact before.ne'
          · exact (before.trans (above entry member)).ne'
        rw [List.mem_cons]
        exact or_congr_right (and_iff_left_of_imp (apart entry)).symm
      next =>
        split
        next same =>
          subst same
          rw [List.mem_cons, List.mem_cons]
          have apart : entry ∈ rest → entry.1 ≠ position := fun member => (above entry member).ne'
          constructor
          · rintro (rfl | member)
            · exact .inl rfl
            · exact .inr ⟨.inr member, apart member⟩
          · rintro (rfl | ⟨rfl | member, differs⟩)
            · exact .inl rfl
            · exact absurd rfl differs
            · exact .inr member
        next apart =>
          rw [List.mem_cons, List.mem_cons, ih later]
          constructor
          · rintro (rfl | rfl | ⟨member, differs⟩)
            · exact .inr ⟨.inl rfl, Ne.symm apart⟩
            · exact .inl rfl
            · exact .inr ⟨.inr member, differs⟩
          · rintro (rfl | ⟨rfl | member, differs⟩)
            · exact .inr (.inl rfl)
            · exact .inl rfl
            · exact .inr (.inr ⟨member, differs⟩)

theorem sorted_insertAt {ring : List (Nat × String)} (sorted : ring.Pairwise fun a b => a.1 < b.1)
    (position : Nat) (id : String) :
    (insertAt ring position id).Pairwise fun a b => a.1 < b.1 := by
  induction ring with
  | nil => exact List.pairwise_singleton _ _
  | cons head rest ih =>
      obtain ⟨first, other⟩ := head
      obtain ⟨above, later⟩ := List.pairwise_cons.mp sorted
      rw [insertAt]
      split
      next before =>
        refine List.pairwise_cons.mpr ⟨fun entry member => ?_, sorted⟩
        rcases List.mem_cons.mp member with rfl | member
        · exact before
        · exact before.trans (above entry member)
      next notBefore =>
        split
        next same => exact List.pairwise_cons.mpr ⟨fun entry member => same ▸ above entry member, later⟩
        next apart =>
          refine List.pairwise_cons.mpr ⟨fun entry member => ?_, ih later⟩
          rcases (mem_insertAt_iff later).mp member with rfl | ⟨member, -⟩
          · change first < position
            omega
          · exact above entry member

theorem sorted_foldl_insertAt {positions : List Nat} {start : List (Nat × String)}
    (sorted : start.Pairwise fun a b => a.1 < b.1) (id : String) :
    (positions.foldl (fun ring position => insertAt ring position id) start).Pairwise
      fun a b => a.1 < b.1 := by
  induction positions generalizing start with
  | nil => exact sorted
  | cons position positions ih => exact ih (sorted_insertAt sorted position id)

theorem mem_foldl_insertAt_iff {positions : List Nat} {start : List (Nat × String)}
    (sorted : start.Pairwise fun a b => a.1 < b.1) {id : String} {entry : Nat × String} :
    entry ∈ positions.foldl (fun ring position => insertAt ring position id) start ↔
      entry.2 = id ∧ entry.1 ∈ positions ∨ entry ∈ start ∧ entry.1 ∉ positions := by
  induction positions generalizing start with
  | nil => simp
  | cons position positions ih =>
      rw [List.foldl_cons, ih (sorted_insertAt sorted position id), mem_insertAt_iff sorted,
        List.mem_cons, Prod.ext_iff]
      tauto

/-- Ordered lists of positions with the same entries are the same. -/
theorem eq_of_mem_iff {ring ring' : List (Nat × String)}
    (sorted : ring.Pairwise fun a b => a.1 < b.1) (sorted' : ring'.Pairwise fun a b => a.1 < b.1)
    (same : ∀ entry, entry ∈ ring ↔ entry ∈ ring') : ring = ring' := by
  have distinct : ∀ {ring : List (Nat × String)}, ring.Pairwise (fun a b => a.1 < b.1) →
      ring.Nodup := fun sorted => sorted.imp fun less same => less.ne (congrArg Prod.fst same)
  refine ((List.perm_ext_iff_of_nodup (distinct sorted) (distinct sorted')).mpr same).eq_of_pairwise
    ?_ sorted sorted'
  intro first second _ _ less more
  exact absurd less more.asymm

/-! ## What a ring holds -/

variable {virtualNodes : Nat} {known : String → Prop} {ring : ConsistentHashRing}

/-- The position of a virtual node. -/
def position (id : String) (node : Nat) : Nat := hashBytes (utf8 (id ++ "#" ++ toString node))

/-- The virtual nodes of known shards have positions of their own. -/
def Distinct (virtualNodes : Nat) (known : String → Prop) : Prop :=
  ∀ id id', known id → known id' → ∀ node < virtualNodes, ∀ node' < virtualNodes,
    position id node = position id' node' → id = id' ∧ node = node'

/-- The positions of a ring are ordered and are those of its shards, all of which are known. -/
structure Placed (ring : ConsistentHashRing) (virtualNodes : Nat) (known : String → Prop) :
    Prop where
  nodes : ring.virtualNodes = virtualNodes
  sorted : ring.ring.Pairwise fun a b => a.1 < b.1
  member : ∀ entry, entry ∈ ring.ring ↔ entry.2 ∈ ring.ids ∧ entry.1 ∈ ring.positions entry.2
  stored : ∀ id positions, ring.shardPositions.lookup id = some positions →
    positions = ring.positions id
  known : ∀ id ∈ ring.ids, known id
  once : ring.ids.Nodup

theorem mem_positions {id : String} {place : Nat} :
    place ∈ ring.positions id ↔ ∃ node < ring.virtualNodes, position id node = place := by
  simp [positions, position]

theorem Distinct.eq_of_mem_positions (distinct : Distinct ring.virtualNodes known) {id id' : String}
    (isKnown : known id) (isKnown' : known id') {place : Nat} (mine : place ∈ ring.positions id)
    (yours : place ∈ ring.positions id') : id = id' := by
  obtain ⟨node, inside, rfl⟩ := mem_positions.mp mine
  obtain ⟨node', inside', same⟩ := mem_positions.mp yours
  exact (distinct id id' isKnown isKnown' node inside node' inside' same.symm).1

theorem placed_new (virtualNodes : Nat) (known : String → Prop) :
    (new virtualNodes).Placed virtualNodes known where
  nodes := rfl
  sorted := List.Pairwise.nil
  member entry := by simp [new, ids]
  stored id positions found := by cases found
  known id member := absurd member List.not_mem_nil
  once := List.nodup_nil

theorem mem_ids_addShard {id other : String} :
    other ∈ (ring.addShard id).ids ↔ other = id ∨ other ∈ ring.ids := by
  rw [ids, addShard, keys_upsert]
  split
  next present => exact ⟨.inr, Or.rec (fun same => same ▸ present) fun member => member⟩
  next => rw [List.mem_append, List.mem_singleton, or_comm, ids]

theorem Placed.addShard (placed : ring.Placed virtualNodes known)
    (distinct : Distinct virtualNodes known) {id : String} (isKnown : known id) :
    (ring.addShard id).Placed virtualNodes known where
  nodes := placed.nodes
  sorted := sorted_foldl_insertAt placed.sorted id
  member entry := by
    have distinct' : Distinct ring.virtualNodes known := placed.nodes ▸ distinct
    change entry ∈ (ring.positions id).foldl _ ring.ring ↔ _ ∧ entry.1 ∈ ring.positions entry.2
    rw [mem_foldl_insertAt_iff placed.sorted, placed.member, mem_ids_addShard]
    constructor
    · rintro (⟨same, inside⟩ | ⟨⟨present, inside⟩, -⟩)
      · exact ⟨.inl same, same ▸ inside⟩
      · exact ⟨.inr present, inside⟩
    · rintro ⟨present, inside⟩
      by_cases same : entry.2 = id
      · exact .inl ⟨same, same ▸ inside⟩
      · have present := present.resolve_left same
        refine .inr ⟨⟨present, inside⟩, fun taken => same ?_⟩
        exact distinct'.eq_of_mem_positions (placed.known _ present) isKnown inside taken
  stored other positions found := by
    change (upsert ring.shardPositions id (ring.positions id)).lookup other = _ at found
    rw [lookup_upsert] at found
    split at found
    next same =>
      cases found
      rw [same]
      rfl
    next => exact placed.stored other positions found
  known other member := by
    rcases mem_ids_addShard.mp member with rfl | before
    · exact isKnown
    · exact placed.known other before
  once := nodup_upsert placed.once _ _

theorem Placed.ring_removeShard (placed : ring.Placed virtualNodes known)
    (distinct : Distinct virtualNodes known) (id : String) :
    (ring.removeShard id).ring = ring.ring.filter fun entry => decide (entry.2 ≠ id) := by
  have dropped : ∀ positions : List Nat, ∀ start : List (Nat × String),
      positions.foldl remove start = start.filter fun entry => decide (entry.1 ∉ positions) := by
    intro positions
    induction positions with
    | nil => simp
    | cons position positions ih =>
        intro start
        rw [List.foldl_cons, ih, remove, List.filter_filter]
        refine List.filter_congr fun entry _ => ?_
        rw [Bool.eq_iff_iff]
        simp [and_comm]
  rw [removeShard]
  split
  next positions found =>
    have present : id ∈ ring.ids := (isSome_lookup_iff _ _).mp (by rw [found]; rfl)
    have distinct' : Distinct ring.virtualNodes known := placed.nodes ▸ distinct
    rw [placed.stored id positions found]
    change (ring.positions id).foldl remove ring.ring = _
    rw [dropped]
    refine List.filter_congr fun entry member => ?_
    obtain ⟨owner, inside⟩ := (placed.member entry).mp member
    refine decide_eq_decide.mpr (not_congr ⟨fun taken => ?_, fun same => same ▸ inside⟩)
    exact distinct'.eq_of_mem_positions (placed.known _ owner) (placed.known _ present) inside taken
  next absent =>
    have apart : ∀ entry ∈ ring.ring, entry.2 ≠ id := by
      intro entry member same
      have present := (isSome_lookup_iff _ _).mpr ((placed.member entry).mp member).1
      rw [same, absent] at present
      cases present
    exact (List.filter_eq_self.mpr fun entry member => decide_eq_true (apart entry member)).symm

theorem ids_removeShard (ring : ConsistentHashRing) (id : String) :
    (ring.removeShard id).ids = ring.ids.filter fun other => decide (other ≠ id) := by
  rw [removeShard]
  split
  next =>
    rw [ids, ids, List.filter_map]
    rfl
  next absent =>
    have apart : ∀ other ∈ ring.ids, other ≠ id := by
      rintro _ member rfl
      have present := (isSome_lookup_iff _ _).mpr member
      rw [absent] at present
      cases present
    exact (List.filter_eq_self.mpr fun other member => decide_eq_true (apart other member)).symm

theorem virtualNodes_removeShard (id : String) :
    (ring.removeShard id).virtualNodes = ring.virtualNodes := by
  rw [removeShard]
  split <;> rfl

theorem Placed.removeShard (placed : ring.Placed virtualNodes known)
    (distinct : Distinct virtualNodes known) (id : String) :
    (ring.removeShard id).Placed virtualNodes known := by
  have nodes : (ring.removeShard id).virtualNodes = ring.virtualNodes := virtualNodes_removeShard id
  have positions : ∀ other, (ring.removeShard id).positions other = ring.positions other :=
    fun other => by rw [ConsistentHashRing.positions, nodes, ConsistentHashRing.positions]
  have sublist : ∀ other ∈ (ring.removeShard id).ids, other ∈ ring.ids := by
    intro other member
    rw [ids_removeShard] at member
    exact List.mem_of_mem_filter member
  constructor
  · exact nodes.trans placed.nodes
  · rw [placed.ring_removeShard distinct]
    exact placed.sorted.filter _
  · intro entry
    rw [placed.ring_removeShard distinct, List.mem_filter, placed.member, positions,
      ids_removeShard, List.mem_filter, and_right_comm]
  · intro other stored found
    rw [positions]
    refine placed.stored other stored ?_
    rw [ConsistentHashRing.removeShard] at found
    split at found
    next =>
      rw [lookup_remove] at found
      split at found
      next => cases found
      next => exact found
    next => exact found
  · exact fun other member => placed.known other (sublist other member)
  · rw [ids_removeShard]
    exact placed.once.filter _

theorem placed_reached (distinct : Distinct virtualNodes known) {changes : List Change}
    (within : ∀ change ∈ changes, known change.shard) :
    (reached virtualNodes changes).Placed virtualNodes known := by
  suffices placed : ∀ ring : ConsistentHashRing, ring.Placed virtualNodes known →
      (changes.foldl change ring).Placed virtualNodes known from placed _ (placed_new _ _)
  induction changes with
  | nil => exact fun ring placed => placed
  | cons first changes ih =>
      intro ring placed
      refine ih (fun change member => within change (List.mem_cons_of_mem _ member)) _ ?_
      cases first with
      | addShard id => exact placed.addShard distinct (within _ List.mem_cons_self)
      | removeShard id => exact placed.removeShard distinct id

/-- A ring is determined by the set of its shards. -/
theorem Placed.ring_eq {ring' : ConsistentHashRing} (placed : ring.Placed virtualNodes known)
    (placed' : ring'.Placed virtualNodes known) (same : ∀ id, id ∈ ring.ids ↔ id ∈ ring'.ids) :
    ring.ring = ring'.ring := by
  have nodes : ring.virtualNodes = ring'.virtualNodes := placed.nodes.trans placed'.nodes.symm
  refine eq_of_mem_iff placed.sorted placed'.sorted fun entry => ?_
  rw [placed.member, placed'.member, same, positions, nodes, positions]

/-! ## Keys that move -/

/-- What the first entry that passes a test is does not depend on entries that are dropped. -/
theorem find?_filter_of_find? {α : Type} {keep test : α → Bool} {entries : List α} {entry : α}
    (found : entries.find? test = some entry) (kept : keep entry = true) :
    (entries.filter keep).find? test = some entry := by
  induction entries with
  | nil => cases found
  | cons head rest ih =>
      rw [List.find?_cons] at found
      split at found
      next passes =>
        cases found
        rw [List.filter_cons_of_pos kept, List.find?_cons_of_pos passes]
      next fails =>
        rw [List.filter_cons]
        split
        next => rw [List.find?_cons, fails, ih found]
        next => exact ih found

/-- Dropping the positions of a shard changes nothing for the keys of the others. -/
theorem getShard_of_filter {ring' : ConsistentHashRing} {id : String}
    (dropped : ring.ring = ring'.ring.filter fun entry => decide (entry.2 ≠ id)) {key : Bytes}
    (others : ring'.getShard key ≠ some id) : ring.getShard key = ring'.getShard key := by
  rw [getShard, getShard, dropped]
  rw [getShard] at others
  cases found : ring'.ring.find? fun entry => decide (hashBytes key ≤ entry.1) with
  | some entry =>
      rw [found] at others
      have apart : entry.2 ≠ id := fun same => others (congrArg some same)
      rw [find?_filter_of_find? found (decide_eq_true apart)]
  | none =>
      rw [found] at others
      have absent : (ring'.ring.filter fun entry => decide (entry.2 ≠ id)).find?
          (fun entry => decide (hashBytes key ≤ entry.1)) = none := by
        rw [List.find?_eq_none] at found ⊢
        exact fun entry member => found entry (List.mem_of_mem_filter member)
      rw [absent]
      change _ = Option.map Prod.snd ring'.ring.head?
      cases shape : ring'.ring with
      | nil => rfl
      | cons first rest =>
          rw [shape] at others
          have apart : first.2 ≠ id := fun same => others (congrArg some same)
          have kept : decide (first.2 ≠ id) = true := decide_eq_true apart
          rw [List.filter_cons, if_pos kept]
          rfl

theorem getShard_congr {ring' : ConsistentHashRing} (same : ring.ring = ring'.ring) (key : Bytes) :
    ring.getShard key = ring'.getShard key := by
  rw [getShard, getShard, same]

theorem Placed.getShard_addShard (placed : ring.Placed virtualNodes known)
    (distinct : Distinct virtualNodes known) {id : String} (isKnown : known id)
    (absent : id ∉ ring.ids) (key : Bytes) :
    (ring.addShard id).getShard key = ring.getShard key ∨
      (ring.addShard id).getShard key = some id := by
  have added := placed.addShard distinct isKnown
  have dropped : ring.ring =
      (ring.addShard id).ring.filter fun entry => decide (entry.2 ≠ id) := by
    refine eq_of_mem_iff placed.sorted (added.sorted.filter _) fun entry => ?_
    rw [List.mem_filter, added.member, placed.member, mem_ids_addShard, decide_eq_true_iff]
    constructor
    · rintro ⟨present, inside⟩
      exact ⟨⟨.inr present, inside⟩, fun same => absent (same ▸ present)⟩
    · rintro ⟨⟨present, inside⟩, apart⟩
      exact ⟨present.resolve_left apart, inside⟩
  by_cases mine : (ring.addShard id).getShard key = some id
  · exact .inr mine
  · exact .inl (getShard_of_filter dropped mine).symm

/-! ## Numbers of replicas -/

/-- Collecting keeps what is there, and stops with enough shards or with all of a list. -/
theorem collectShards_spec {count : Nat} {result ids : List String} (few : result.length < count)
    (unique : result.Nodup) :
    (collectShards count result ids).Nodup ∧
      (collectShards count result ids).length = min count (result ++ ids).toFinset.card ∧
      result <+: collectShards count result ids ∧
      ∀ id ∈ collectShards count result ids, id ∈ result ++ ids := by
  induction ids generalizing result with
  | nil =>
      rw [collectShards, List.append_nil, List.toFinset_card_of_nodup unique, min_eq_right few.le]
      exact ⟨unique, rfl, List.prefix_rfl, fun _ member => member⟩
  | cons id rest ih =>
      rw [collectShards]
      split
      next seen =>
        obtain ⟨nodup, length, isPrefix, inside⟩ := ih few unique
        have same : (result ++ id :: rest).toFinset = (result ++ rest).toFinset := by
          ext other
          simp only [List.mem_toFinset, List.mem_append, List.mem_cons]
          constructor
          · rintro (early | rfl | late)
            · exact .inl early
            · exact .inl seen
            · exact .inr late
          · rintro (early | late)
            · exact .inl early
            · exact .inr (.inr late)
        rw [same]
        refine ⟨nodup, length, isPrefix, fun other member => ?_⟩
        rcases List.mem_append.mp (inside other member) with early | late
        · exact List.mem_append_left _ early
        · exact List.mem_append_right _ (List.mem_cons_of_mem _ late)
      next isNew =>
        have longer : (result ++ [id]).Nodup :=
          unique.append (List.nodup_singleton id) (List.disjoint_singleton.mpr isNew)
        have joined : result ++ id :: rest = (result ++ [id]) ++ rest :=
          List.append_cons result id rest
        have size : (result ++ [id]).length = result.length + 1 := List.length_append
        rw [joined]
        split
        next enough =>
          have all : count ≤ ((result ++ [id]) ++ rest).toFinset.card := by
            have within : (result ++ [id]).toFinset ⊆ ((result ++ [id]) ++ rest).toFinset := by
              intro other member
              exact List.mem_toFinset.mpr (List.mem_append_left _ (List.mem_toFinset.mp member))
            have cards := Finset.card_le_card within
            rw [List.toFinset_card_of_nodup longer] at cards
            omega
          refine ⟨longer, ?_, List.prefix_append _ _, fun _ => List.mem_append_left _⟩
          rw [min_eq_left all]
          omega
        next few' =>
          obtain ⟨nodup, length, isPrefix, inside⟩ := ih (by omega) longer
          exact ⟨nodup, length, (List.prefix_append _ _).trans isPrefix, inside⟩

/-- The replicas of a key: as many shards as there are or are asked for, and first the one that is
responsible for the key. -/
def Replicates (ring : ConsistentHashRing) (key : Bytes) (count : Nat) : Prop :=
  ∃ replicas, ring.getReplicaShards key count = some replicas ∧
    replicas.length = min count ring.length ∧ replicas.Nodup ∧ (∀ id ∈ replicas, id ∈ ring.ids) ∧
      replicas.head? = ring.getShard key

theorem head?_onward (ring : ConsistentHashRing) (key : Bytes) :
    (ring.onward key).head? = ring.getShard key := by
  rw [onward, List.head?_map, List.head?_append, List.head?_filter, getShard]
  cases ring.ring.find? fun entry => decide (hashBytes key ≤ entry.1) <;> rfl

theorem head?_collectShards (count : Nat) (order : List String) :
    (collectShards count [] order).head? = order.head? := by
  cases order with
  | nil => rfl
  | cons first rest =>
      rw [collectShards, if_neg List.not_mem_nil]
      split
      next => rfl
      next more =>
        have few : ([first] : List String).length < count := Nat.lt_of_not_le more
        obtain ⟨-, -, ⟨rest', starts⟩, -⟩ :=
          @collectShards_spec count [first] rest few (List.nodup_singleton first)
        rw [List.nil_append, ← starts]
        rfl

/-- With virtual nodes every shard of a ring has a position. -/
theorem Placed.exists_entry (placed : ring.Placed virtualNodes known) (some : 1 ≤ virtualNodes)
    {id : String} (member : id ∈ ring.ids) : ∃ entry ∈ ring.ring, entry.2 = id := by
  have first : position id 0 ∈ ring.positions id := mem_positions.mpr ⟨0, placed.nodes ▸ some, rfl⟩
  exact ⟨(position id 0, id), (placed.member _).mpr ⟨member, first⟩, rfl⟩

theorem Placed.mem_onward (placed : ring.Placed virtualNodes known) (some : 1 ≤ virtualNodes)
    (key : Bytes) (id : String) : id ∈ ring.onward key ↔ id ∈ ring.ids := by
  rw [onward, List.mem_map]
  constructor
  · rintro ⟨entry, member, rfl⟩
    refine ((placed.member entry).mp ?_).1
    rcases List.mem_append.mp member with early | late
    · exact List.mem_of_mem_filter early
    · exact late
  · intro member
    obtain ⟨entry, inside, same⟩ := placed.exists_entry some member
    exact ⟨entry, List.mem_append_right _ inside, same⟩

theorem Placed.card_onward (placed : ring.Placed virtualNodes known) (some : 1 ≤ virtualNodes)
    (key : Bytes) : (ring.onward key).toFinset.card = ring.length := by
  have same : (ring.onward key).toFinset = ring.ids.toFinset := by
    ext id
    rw [List.mem_toFinset, List.mem_toFinset, placed.mem_onward some]
  rw [same, List.toFinset_card_of_nodup placed.once, ids, List.length_map, length]

theorem Placed.replicates (placed : ring.Placed virtualNodes known) (some : 1 ≤ virtualNodes)
    (key : Bytes) {count : Nat} (positive : 1 ≤ count) (fits : count ≤ maxCapacity) :
    ring.Replicates key count := by
  rw [Replicates, getReplicaShards]
  by_cases none : ring.ring = []
  · have noShards : ring.length = 0 := by
      rw [← placed.card_onward some key, onward, none]
      rfl
    refine ⟨[], by rw [none]; rfl, ?_, List.nodup_nil, nofun, ?_⟩
    · rw [noShards, Nat.min_zero, List.length_nil]
    · rw [getShard, none]
      rfl
  · rw [if_neg (by rw [List.isEmpty_iff]; exact none), if_neg (not_lt.mpr fits)]
    obtain ⟨nodup, size, -, inside⟩ :=
      @collectShards_spec count [] (ring.onward key) positive List.nodup_nil
    rw [List.nil_append, placed.card_onward some] at size
    refine ⟨_, rfl, size, nodup, fun id member => ?_, ?_⟩
    · exact (placed.mem_onward some key id).mp (inside id member)
    · rw [head?_collectShards, head?_onward]

/-! ## What is claimed -/

/-- Adding a known shard to a ring moves keys to it alone, removing one moves its keys alone, the
keys depend on the set of the shards, and with virtual nodes every key has its replicas. -/
theorem moves_only_needed (distinct : Distinct virtualNodes known) {changes : List Change}
    (within : ∀ change ∈ changes, known change.shard) :
    (∀ id, known id → id ∉ (reached virtualNodes changes).ids → ∀ key,
        ((reached virtualNodes changes).addShard id).getShard key =
            (reached virtualNodes changes).getShard key ∨
          ((reached virtualNodes changes).addShard id).getShard key = some id) ∧
      (∀ id key, (reached virtualNodes changes).getShard key ≠ some id →
        ((reached virtualNodes changes).removeShard id).getShard key =
          (reached virtualNodes changes).getShard key) ∧
      (∀ others : List Change, (∀ change ∈ others, known change.shard) →
        (∀ id, id ∈ (reached virtualNodes changes).ids ↔ id ∈ (reached virtualNodes others).ids) →
        ∀ key, (reached virtualNodes changes).getShard key =
          (reached virtualNodes others).getShard key) ∧
      (1 ≤ virtualNodes → ∀ key count, 1 ≤ count → count ≤ maxCapacity →
        (reached virtualNodes changes).Replicates key count) := by
  have placed := placed_reached distinct within
  refine ⟨fun id isKnown absent key => placed.getShard_addShard distinct isKnown absent key,
    fun id key others => getShard_of_filter (placed.ring_removeShard distinct id) others,
    fun others within' same key => ?_,
    fun some key count positive fits => placed.replicates some key positive fits⟩
  exact getShard_congr (placed.ring_eq (placed_reached distinct within') same) key

/-- One of two shards. -/
def eitherShard (id : String) : Prop := id = "a" ∨ id = "b"

theorem distinct_eitherShard : Distinct 2 eitherShard := by
  rintro id id' (rfl | rfl) (rfl | rfl) <;> decide +kernel

/-- Two shards are added. -/
def addBoth : List Change := [.addShard "a", .addShard "b"]

theorem within_addBoth : ∀ change ∈ addBoth, eitherShard change.shard := by
  simp [addBoth, eitherShard, Change.shard]

theorem moves_only_needed_addBoth :
    (∀ key, (reached 2 addBoth).getShard key ≠ some "b" →
        ((reached 2 addBoth).removeShard "b").getShard key = (reached 2 addBoth).getShard key) ∧
      (reached 2 addBoth).Replicates [7] 2 :=
  have moves := moves_only_needed distinct_eitherShard within_addBoth
  ⟨moves.2.1 "b", moves.2.2.2 (by decide) [7] 2 (by decide) (by decide)⟩

/-- A ring without virtual nodes has shards but no replicas, and reserving room for a great number
of replicas panics. -/
theorem not_replicates :
    ¬(reached 0 [.addShard "a"]).Replicates [] 1 ∧
      ¬(reached 1 [.addShard "a"]).Replicates [] (2 ^ 64 - 1) := by
  constructor
  · rintro ⟨replicas, found, size, -⟩
    cases found.symm.trans (show _ = some [] from rfl)
    cases size
  · rintro ⟨replicas, found, -⟩
    have panics : (reached 1 [.addShard "a"]).getReplicaShards [] (2 ^ 64 - 1) = none := by
      decide +kernel
    cases found.symm.trans panics

end ConsistentHashRing

end JouleDB.Sharding
