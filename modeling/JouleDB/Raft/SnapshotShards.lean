import JouleDB.Raft.SnapshotTransfer

/-!
# Sending a snapshot in shards

The leader sends a payload as shards, if the coder supports the configuration.  The small coder and
the format of shards at the end are those of two data shards and one parity shard.
-/

namespace JouleDB.Raft

open ErasureConfig

section Collecting

variable {shards : List ErasureShard} {next : Nat} {shard : ErasureShard}

/-- The shards of a payload, which the coder has made and the follower can read. -/
structure Sent (courier : Courier) (config : ErasureConfig) (data : Bytes)
    (shards : List ErasureShard) : Prop where
  positive : 0 < config.dataShards
  accepted : courier.coder.new config.dataShards config.parityShards = .ok ()
  coded : ∃ coded, courier.coder.Codes config.dataShards config.parityShards (config.split data)
    coded ∧ shards = config.wrap data coded
  readable : ∀ shard ∈ shards, ∃ encoded, courier.encodeShard shard = .ok encoded ∧
    courier.decodeShard encoded = some shard

variable {courier : Courier} {config : ErasureConfig} {data : Bytes}

theorem Sent.length (sent : Sent courier config data shards) :
    shards.length = config.dataShards + config.parityShards := by
  obtain ⟨coded, codes, rfl⟩ := sent.coded
  rw [wrap, List.length_mapIdx, codes.length]

/-- A shard stands at its index and knows how many there are. -/
theorem Sent.getElem? (sent : Sent courier config data shards) (found : shards[next]? = some shard) :
    shard.index = next ∧ shard.totalShards = shards.length ∧
      shard.dataShards = config.dataShards := by
  have length := sent.length
  obtain ⟨coded, codes, rfl⟩ := sent.coded
  have fields := mem_wrap (List.mem_of_getElem? found)
  refine ⟨?_, fields.2.2.1.trans length.symm, fields.1⟩
  rw [wrap, List.getElem?_mapIdx, Option.map_eq_some_iff] at found
  obtain ⟨piece, _, rfl⟩ := found
  rfl

end Collecting

section Delivery

variable {courier : Courier}

/-- The coder and the format of shards do for a payload what they are for. -/
def Courier.Reliable (courier : Courier) (config : ErasureConfig) (data : Bytes) : Prop :=
  courier.coder.new config.dataShards config.parityShards = .ok () →
    ∃ coded, courier.coder.Codes config.dataShards config.parityShards (config.split data) coded ∧
      ∀ shard ∈ config.wrap data coded, ∃ encoded, courier.encodeShard shard = .ok encoded ∧
        courier.decodeShard encoded = some shard

theorem encode_eq {config : ErasureConfig} {data : Bytes} (nonempty : data ≠ [])
    (reliable : courier.Reliable config data) :
    (0 < config.dataShards ∧ 0 < config.parityShards ∧
        courier.coder.new config.dataShards config.parityShards = .ok () ∧
        ∃ shards, config.encode courier.coder data = .ok shards ∧
          Sent courier config data shards) ∨
      ¬(0 < config.dataShards ∧ 0 < config.parityShards ∧
        courier.coder.new config.dataShards config.parityShards = .ok ()) ∧
        ∃ error, config.encode courier.coder data = .error error := by
  have filled : data.isEmpty = false := List.isEmpty_eq_false_iff.mpr nonempty
  rw [encode, filled, if_neg (by simp)]
  by_cases invalid : config.dataShards = 0 ∨ config.parityShards = 0
  · right
    rw [if_pos invalid]
    refine ⟨fun good => ?_, _, rfl⟩
    omega
  · rw [if_neg invalid]
    cases supported : courier.coder.new config.dataShards config.parityShards with
    | error error => exact .inr ⟨fun good => absurd good.2.2 (by simp), _, rfl⟩
    | ok _ =>
        left
        obtain ⟨coded, codes, readable⟩ := reliable supported
        refine ⟨by omega, by omega, rfl, ?_⟩
        dsimp only
        rw [codes.encode]
        exact ⟨_, rfl, ⟨by omega, supported, ⟨coded, codes, rfl⟩, readable⟩⟩

/-- A follower that has nothing yet. -/
def receiver : RaftNode := .new "b" 100 (.new {"a", "b"}) .new .memory

/-- Twice a number in the field with 256 elements. -/
def double (value : Byte) : Byte :=
  Fin.ofNat 256 (if value.val < 128 then 2 * value.val else (2 * value.val - 256) ^^^ 29)

/-- The sum of two numbers in the field. -/
def sum (first second : Byte) : Byte := Fin.ofNat 256 (first.val ^^^ second.val)

/-- The product of two numbers in the field. -/
def product (first second : Byte) : Byte :=
  ((List.range 8).foldl (fun (total, power) bit =>
    (if first.val.testBit bit then sum total power else total, double power)) (0, second)).1

/-- A coder for two data shards and one parity shard: three times the first data shard and twice
the second. -/
def pairCoder : ReedSolomon where
  new := fun dataShards parityShards =>
    if dataShards = 2 ∧ parityShards = 1 then .ok () else .error "not supported"
  encode := fun _ _ shards =>
    match shards with
    | [first, second, _] =>
        .ok [first, second, List.zipWith sum (first.map (product 3)) (second.map (product 2))]
    | _ => .error "TooFewShards"
  reconstruct := fun _ _ parts =>
    match parts with
    | [some first, some second, _] =>
        .ok [some first, some second,
          some (List.zipWith sum (first.map (product 3)) (second.map (product 2)))]
    | [some first, none, some parity] =>
        .ok [some first,
          some ((List.zipWith sum parity (first.map (product 3))).map (product 142)), some parity]
    | [none, some second, some parity] =>
        .ok [some ((List.zipWith sum parity (second.map (product 2))).map (product 244)),
          some second, some parity]
    | _ => .error "TooFewShardsPresent"

/-- Shards of small numbers, one byte for each. -/
def pairCourier : Courier where
  erasureConfig := some ⟨2, 1, 2⟩
  coder := pairCoder
  encodeShard := fun shard =>
    .ok ([Fin.ofNat 256 shard.index, Fin.ofNat 256 shard.data.length] ++ shard.data ++
      [Fin.ofNat 256 shard.totalShards, Fin.ofNat 256 shard.originalLen,
        Fin.ofNat 256 shard.dataShards, Fin.ofNat 256 shard.parityShards])
  decodeShard := fun bytes =>
    match bytes with
    | index :: length :: rest =>
        match rest.drop length.val with
        | [totalShards, originalLen, dataShards, parityShards] =>
            some ⟨index.val, rest.take length.val, totalShards.val, originalLen.val,
              dataShards.val, parityShards.val⟩
        | _ => none
    | _ => none
  restore := fun _ _ => true

/-- Three shards of which any two give the others, and which can be read. -/
theorem pairCourier_reliable_of {data : Bytes} (first second parity : Bytes)
    (codes : pairCoder.encode 2 1 (ErasureConfig.split ⟨2, 1, 2⟩ data) = .ok [first, second, parity])
    (kept : (ErasureConfig.split ⟨2, 1, 2⟩ data).take 2 = [first, second])
    (reconstructs : ∀ parts ∈ [[some first, some second, none], [some first, none, some parity],
      [none, some second, some parity], [some first, some second, some parity]],
      pairCoder.reconstruct 2 1 parts = .ok [some first, some second, some parity])
    (readable : ∀ shard ∈ ErasureConfig.wrap ⟨2, 1, 2⟩ data [first, second, parity],
      (pairCourier.encodeShard shard).toOption.bind pairCourier.decodeShard = some shard) :
    pairCourier.Reliable ⟨2, 1, 2⟩ data := by
  intro _
  refine ⟨[first, second, parity], ⟨codes, rfl, kept.symm, ?_⟩,
    fun shard member => ⟨_, rfl, readable shard member⟩⟩
  intro parts arrived enough
  change 2 ≤ parts.countP Option.isSome at enough
  cases arrived with
  | cons one rest =>
      cases rest with
      | cons two rest =>
          cases rest with
          | cons three rest =>
              cases rest
              rcases one with rfl | rfl <;> rcases two with rfl | rfl <;>
                rcases three with rfl | rfl <;> first
                  | simp at enough; done
                  | exact reconstructs _ (by simp)

theorem pairCourier_reliable : pairCourier.Reliable ⟨2, 1, 2⟩ [5, 6, 7] := by
  apply pairCourier_reliable_of [5, 6] [7, 0] [1, 10] <;> decide

end Delivery

end JouleDB.Raft
