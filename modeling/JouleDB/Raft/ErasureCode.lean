import JouleDB.Raft.Node

/-!
# Erasure coding of snapshots

A payload is cut into data shards of one size, the last ones padded with zeros, and a
Reed–Solomon coder adds parity shards.  The coder itself is a parameter.
-/

namespace JouleDB.Raft

/-- Configuration of erasure coding. -/
structure ErasureConfig where
  dataShards : Nat
  parityShards : Nat
  thresholdBytes : Nat
  deriving DecidableEq

/-- Errors of erasure coding. -/
inductive ErasureError where
  | emptyPayload
  | invalidConfig (message : String)
  | insufficientShards (available required : Nat)
  | internal (message : String)
  deriving DecidableEq

/-- The Reed–Solomon coder for given numbers of data and parity shards. -/
structure ReedSolomon where
  new : Nat → Nat → Except String Unit
  encode : Nat → Nat → List Bytes → Except String (List Bytes)
  reconstruct : Nat → Nat → List (Option Bytes) → Except String (List (Option Bytes))

namespace ErasureConfig

/-- The size of a shard. -/
def shardSize (config : ErasureConfig) (data : Bytes) : Nat :=
  (data.length + config.dataShards - 1) / config.dataShards

/-- A data shard, padded with zeros. -/
def dataShard (config : ErasureConfig) (data : Bytes) (index : Nat) : Bytes :=
  let start := index * config.shardSize data
  let stop := min (start + config.shardSize data) data.length
  let shard := if start < data.length then (data.take stop).drop start else []
  shard ++ List.replicate (config.shardSize data - shard.length) 0

/-- The data shards and empty parity shards. -/
def split (config : ErasureConfig) (data : Bytes) : List Bytes :=
  (List.range config.dataShards).map (config.dataShard data) ++
    List.replicate config.parityShards (List.replicate (config.shardSize data) 0)

/-- The shards with what is needed to reconstruct the payload. -/
def wrap (config : ErasureConfig) (data : Bytes) (shards : List Bytes) : List ErasureShard :=
  shards.mapIdx fun index shard =>
    { index := index
      data := shard
      totalShards := config.dataShards + config.parityShards
      originalLen := data.length
      dataShards := config.dataShards
      parityShards := config.parityShards }

/-- Encode a payload into shards. -/
def encode (config : ErasureConfig) (coder : ReedSolomon) (data : Bytes) :
    Except ErasureError (List ErasureShard) :=
  if data.isEmpty then
    .error .emptyPayload
  else if config.dataShards = 0 ∨ config.parityShards = 0 then
    .error (.invalidConfig "data_shards and parity_shards must be > 0")
  else
    match coder.new config.dataShards config.parityShards with
    | .error error => .error (.internal ("ReedSolomon::new: " ++ error))
    | .ok _ =>
        match coder.encode config.dataShards config.parityShards (config.split data) with
        | .error error => .error (.internal ("encode: " ++ error))
        | .ok shards => .ok (config.wrap data shards)

end ErasureConfig

/-- Reconstruct a payload from its shards, each at its position or missing. -/
def ReedSolomon.decode (coder : ReedSolomon) (shards : List (Option ErasureShard)) :
    Except ErasureError Bytes :=
  if shards.isEmpty then
    .error .emptyPayload
  else
    match shards.findSome? id with
    | none => .error (.insufficientShards 0 0)
    | some first =>
        let total := first.dataShards + first.parityShards
        if shards.length ≠ total then
          .error (.invalidConfig ("expected " ++ toString total ++ " shard slots, got " ++
            toString shards.length))
        else
          let available := shards.countP Option.isSome
          if available < first.dataShards then
            .error (.insufficientShards available first.dataShards)
          else
            match coder.new first.dataShards first.parityShards with
            | .error error => .error (.internal ("ReedSolomon::new: " ++ error))
            | .ok _ =>
                match coder.reconstruct first.dataShards first.parityShards
                    (shards.map fun shard => shard.map (·.data)) with
                | .error error => .error (.internal ("reconstruct: " ++ error))
                | .ok parts =>
                    .ok (((parts.take first.dataShards).filterMap id).flatten.take
                      first.originalLen)

/-- What a coder does for given shards: it keeps the data shards, and reconstructs all shards from
any of them that are as many as the data shards. -/
structure ReedSolomon.Codes (coder : ReedSolomon) (dataShards parityShards : Nat)
    (shards coded : List Bytes) : Prop where
  encode : coder.encode dataShards parityShards shards = .ok coded
  length : coded.length = dataShards + parityShards
  kept : coded.take dataShards = shards.take dataShards
  reconstruct : ∀ parts : List (Option Bytes),
    List.Forall₂ (fun part shard => part = none ∨ part = some shard) parts coded →
    dataShards ≤ parts.countP Option.isSome →
    coder.reconstruct dataShards parityShards parts = .ok (coded.map some)

namespace ErasureConfig

variable {config : ErasureConfig} {data : Bytes}

theorem le_dataShards_mul_shardSize (positive : 0 < config.dataShards) :
    data.length ≤ config.dataShards * config.shardSize data := by
  rw [shardSize]
  have remainder := Nat.mod_lt (data.length + config.dataShards - 1) positive
  have division := Nat.div_add_mod (data.length + config.dataShards - 1) config.dataShards
  omega

/-- The payload, padded with zeros to fill the data shards. -/
def padded (config : ErasureConfig) (data : Bytes) : Bytes :=
  data ++ List.replicate (config.dataShards * config.shardSize data - data.length) 0

/-- A data shard is a piece of the padded payload. -/
theorem dataShard_eq {index : Nat} (inside : index < config.dataShards) :
    config.dataShard data index =
      ((config.padded data).drop (index * config.shardSize data)).take
        (config.shardSize data) := by
  have room : (index + 1) * config.shardSize data ≤ config.dataShards * config.shardSize data :=
    Nat.mul_le_mul_right _ inside
  rw [Nat.succ_mul] at room
  rw [dataShard, padded]
  generalize config.shardSize data = size at room ⊢
  generalize index * size = start at room ⊢
  generalize config.dataShards * size = total at room ⊢
  split
  next before =>
    have piece : (data.take (min (start + size) data.length)).drop start =
        (data.drop start).take size := by
      rw [List.drop_take, List.take_eq_take_iff, List.length_drop]
      omega
    rw [piece, List.drop_append_of_le_length before.le, List.take_append, List.take_replicate,
      List.length_take, List.length_drop]
    congr 2
    omega
  next beyond =>
    rw [List.drop_append, List.drop_eq_nil_of_le (not_lt.mp beyond), List.nil_append,
      List.nil_append, List.drop_replicate, List.take_replicate, List.length_nil]
    congr 1
    omega

theorem flatten_pieces {α : Type} (list : List α) (size count : Nat) :
    ((List.range count).map fun index => (list.drop (index * size)).take size).flatten =
      list.take (count * size) := by
  induction count with
  | zero => simp
  | succ count ih =>
      rw [List.range_succ, List.map_append, List.flatten_append, ih, List.map_singleton,
        List.flatten_singleton, Nat.succ_mul, List.take_add]

/-- The data shards one after the other are the payload and the padding. -/
theorem flatten_dataShards (positive : 0 < config.dataShards) :
    (((List.range config.dataShards).map (config.dataShard data)).flatten).take data.length =
      data := by
  have pieces : (List.range config.dataShards).map (config.dataShard data) =
      (List.range config.dataShards).map fun index =>
        ((config.padded data).drop (index * config.shardSize data)).take
          (config.shardSize data) := by
    apply List.map_congr_left
    intro index member
    exact dataShard_eq (List.mem_range.mp member)
  rw [pieces, flatten_pieces, List.take_take,
    min_eq_left (le_dataShards_mul_shardSize positive), padded, List.take_left]

/-- The parts that have arrived of a list of shards, each at its position. -/
def Arrived {α : Type} (parts : List (Option α)) (shards : List α) : Prop :=
  List.Forall₂ (fun part shard => part = none ∨ part = some shard) parts shards

variable {coder : ReedSolomon} {coded : List Bytes} {parts : List (Option ErasureShard)}

theorem mem_wrap {shard : ErasureShard} (member : shard ∈ config.wrap data coded) :
    shard.dataShards = config.dataShards ∧ shard.parityShards = config.parityShards ∧
      shard.totalShards = config.dataShards + config.parityShards ∧
      shard.originalLen = data.length := by
  obtain ⟨index, _, rfl⟩ := List.mem_mapIdx.mp member
  exact ⟨rfl, rfl, rfl, rfl⟩

theorem Arrived.mem {α : Type} {parts : List (Option α)} {shards : List α}
    (arrived : Arrived parts shards) {shard : α} (member : some shard ∈ parts) :
    shard ∈ shards := by
  induction arrived with
  | nil => exact absurd member List.not_mem_nil
  | cons here _ ih =>
      rcases List.mem_cons.mp member with isHere | later
      · rw [← isHere] at here
        rcases here with missing | found
        · exact absurd missing (by simp)
        · exact List.mem_cons.mpr (.inl (Option.some.inj found))
      · exact List.mem_cons_of_mem _ (ih later)

/-- What has arrived of the wrapped shards, without the wrapping. -/
theorem Arrived.map_data (arrived : Arrived parts (config.wrap data coded)) :
    Arrived (parts.map fun part => part.map (·.data)) coded := by
  have unwrapped : (config.wrap data coded).map (·.data) = coded := by
    apply List.ext_getElem?
    intro index
    simp [wrap, Function.comp_def]
  rw [← unwrapped]
  apply List.forall₂_map_left_iff.mpr
  apply List.forall₂_map_right_iff.mpr
  apply arrived.imp
  rintro part shard (rfl | rfl)
  · exact .inl rfl
  · exact .inr rfl

theorem decode_of_arrived (positive : 0 < config.dataShards)
    (accepted : coder.new config.dataShards config.parityShards = .ok ())
    (codes : coder.Codes config.dataShards config.parityShards (config.split data) coded)
    (arrived : Arrived parts (config.wrap data coded))
    (enough : config.dataShards ≤ parts.countP Option.isSome) : coder.decode parts = .ok data := by
  have length : parts.length = config.dataShards + config.parityShards := by
    rw [arrived.length_eq, wrap, List.length_mapIdx, codes.length]
  obtain ⟨first, found⟩ : ∃ first, parts.findSome? id = some first := by
    obtain ⟨part, member, isSome⟩ := List.countP_pos_iff.mp (positive.trans_le enough)
    rw [← Option.isSome_iff_exists, List.findSome?_isSome_iff]
    exact ⟨part, member, isSome⟩
  have member : some first ∈ parts := by
    obtain ⟨part, there, isFirst⟩ := List.exists_of_findSome?_eq_some found
    rwa [← (isFirst : part = some first)]
  obtain ⟨isData, isParity, _, isLength⟩ := mem_wrap (arrived.mem member)
  have nonempty : parts.isEmpty = false := by
    rw [List.isEmpty_eq_false_iff]
    exact List.ne_nil_of_mem member
  have reconstructed := codes.reconstruct _ arrived.map_data (by
    rw [List.countP_map]
    apply enough.trans_eq
    apply List.countP_congr
    intro part _
    cases part <;> simp)
  have split : (config.split data).take config.dataShards =
      (List.range config.dataShards).map (config.dataShard data) := by
    rw [ErasureConfig.split, List.take_left' (by simp)]
  rw [ReedSolomon.decode, nonempty, found]
  dsimp only
  rw [isData, isParity, isLength, if_neg (by simp), if_neg (not_not.mpr length),
    if_neg (not_lt.mpr enough), accepted, reconstructed]
  dsimp only
  rw [← List.map_take, codes.kept, split]
  congr 1
  rw [List.filterMap_map]
  simpa using flatten_dataShards positive

end ErasureConfig

end JouleDB.Raft
