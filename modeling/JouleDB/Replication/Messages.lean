import JouleDB.Error
import JouleDB.Lib.Slices
import JouleDB.Replication.Stream

/-!
# Messages of the base protocol and of replication

The base protocol has a header of nine bytes, and replication one of sixteen.  Both are read with a
header of nine bytes, in which no length of a replication message stands.
-/

namespace JouleDB.Replication

/-! ## Messages of the base protocol -/

inductive OpCode where
  | ping
  | pong
  | auth
  | close
  | get
  | put
  | delete
  | exists
  | mget
  | mput
  | mdelete
  | scan
  | txBegin
  | txCommit
  | txRollback
  | txSavepoint
  | txRollbackTo
  | createIndex
  | dropIndex
  | indexGet
  | indexRange
  | info
  | flush
  | checkpoint
  | snapshot
  | compact
  | gpuBatchQuery
  | gpuVectorSearch
  | gpuAggregate
  | replStream
  | replData
  | replAck
  deriving DecidableEq, Repr

namespace OpCode

def toU16 : OpCode → Nat
  | .ping => 0x0001
  | .pong => 0x0002
  | .auth => 0x0003
  | .close => 0x0004
  | .get => 0x0101
  | .put => 0x0102
  | .delete => 0x0103
  | .exists => 0x0104
  | .mget => 0x0105
  | .mput => 0x0106
  | .mdelete => 0x0107
  | .scan => 0x0108
  | .txBegin => 0x0201
  | .txCommit => 0x0202
  | .txRollback => 0x0203
  | .txSavepoint => 0x0204
  | .txRollbackTo => 0x0205
  | .createIndex => 0x0301
  | .dropIndex => 0x0302
  | .indexGet => 0x0303
  | .indexRange => 0x0304
  | .info => 0x0401
  | .flush => 0x0402
  | .checkpoint => 0x0403
  | .snapshot => 0x0404
  | .compact => 0x0405
  | .gpuBatchQuery => 0x0501
  | .gpuVectorSearch => 0x0502
  | .gpuAggregate => 0x0503
  | .replStream => 0x0601
  | .replData => 0x0602
  | .replAck => 0x0603

def tryFrom : Nat → Option OpCode
  | 0x0001 => some .ping
  | 0x0002 => some .pong
  | 0x0003 => some .auth
  | 0x0004 => some .close
  | 0x0101 => some .get
  | 0x0102 => some .put
  | 0x0103 => some .delete
  | 0x0104 => some .exists
  | 0x0105 => some .mget
  | 0x0106 => some .mput
  | 0x0107 => some .mdelete
  | 0x0108 => some .scan
  | 0x0201 => some .txBegin
  | 0x0202 => some .txCommit
  | 0x0203 => some .txRollback
  | 0x0204 => some .txSavepoint
  | 0x0205 => some .txRollbackTo
  | 0x0301 => some .createIndex
  | 0x0302 => some .dropIndex
  | 0x0303 => some .indexGet
  | 0x0304 => some .indexRange
  | 0x0401 => some .info
  | 0x0402 => some .flush
  | 0x0403 => some .checkpoint
  | 0x0404 => some .snapshot
  | 0x0405 => some .compact
  | 0x0501 => some .gpuBatchQuery
  | 0x0502 => some .gpuVectorSearch
  | 0x0503 => some .gpuAggregate
  | 0x0601 => some .replStream
  | 0x0602 => some .replData
  | 0x0603 => some .replAck
  | _ => none

@[simp] theorem tryFrom_toU16 (code : OpCode) : tryFrom code.toU16 = some code := by
  cases code <;> rfl

theorem toU16_lt (code : OpCode) : code.toU16 < 256 ^ 2 := by
  cases code <;> decide

end OpCode

def maxMessageSize : Nat := 16 * 1024 * 1024

/-- A message of the base protocol. -/
structure Message where
  flags : Byte
  opcode : OpCode
  requestId : Fin (2 ^ 32)
  payload : Bytes
  deriving DecidableEq, Repr

namespace Message

/-- A response with the flag of responses. -/
def response (requestId : Fin (2 ^ 32)) (opcode : OpCode) (payload : Bytes) : Message :=
  ⟨1, opcode, requestId, payload⟩

def encode (message : Message) : Bytes :=
  protocolMagic ++ [message.flags] ++ toLe 4 (message.payload.length + 4) ++
    toLe 2 message.opcode.toU16 ++ toLe 4 message.requestId.val ++ message.payload

/-- A number of 16 bits in four hexadecimal digits. -/
def hex16 (value : Nat) : String :=
  "0x" ++ String.ofList ((Nat.toDigits 16 value).leftpad 4 '0')

def decode (buf : Bytes) : Outcome StorageError Message :=
  if buf.length < headerSize then
    .err (.backend "Message too short")
  else do
    let magic ← Slices.slice buf 0 2
    if magic ≠ protocolMagic then
      .err (.backend "Invalid protocol magic")
    else
      let flags ← Slices.byteAt buf 2
      let length ← Slices.numberAt buf 3 4
      if maxMessageSize < length then
        .err (.backend ("Message too large: " ++ toString length ++ " > " ++
          toString maxMessageSize))
      else
        let opcodeRaw ← Slices.numberAt buf 7 2
        match OpCode.tryFrom opcodeRaw with
        | none => .err (.backend ("Unknown opcode: " ++ hex16 opcodeRaw))
        | some opcode =>
            if buf.length < headerSize + length then
              .err (.backend "Message truncated")
            else
              let requestId ← Slices.numberAt buf 9 4
              let payload ← Slices.slice buf (headerSize + 4) (headerSize + length)
              .ok ⟨flags, opcode, Fin.ofNat _ requestId, payload⟩

/-- The length that a header has. -/
def lengthIn (buf : Bytes) : Nat := ofLe (Slices.part buf 3 4)

/-- A header is accepted whose length leaves no room for the request id. -/
def TooShort (buf : Bytes) : Prop :=
  headerSize + lengthIn buf ≤ buf.length ∧ Slices.part buf 0 2 = protocolMagic ∧
    (OpCode.tryFrom (ofLe (Slices.part buf 7 2))).isSome ∧ lengthIn buf < 4

open Slices (part Stands)

variable {buf : Bytes}

/-- What is decoded from bytes that have a header. -/
theorem decode_eq (header : headerSize ≤ buf.length) (two : 2 < buf.length) :
    decode buf =
      if part buf 0 2 ≠ protocolMagic then .err (.backend "Invalid protocol magic")
      else if maxMessageSize < lengthIn buf then
        .err (.backend ("Message too large: " ++ toString (lengthIn buf) ++ " > " ++
          toString maxMessageSize))
      else match OpCode.tryFrom (ofLe (part buf 7 2)) with
        | none => .err (.backend ("Unknown opcode: " ++ hex16 (ofLe (part buf 7 2))))
        | some opcode =>
            if buf.length < headerSize + lengthIn buf then .err (.backend "Message truncated")
            else if lengthIn buf < 4 then .halt .panic
            else .ok ⟨buf[2], opcode, Fin.ofNat _ (ofLe (part buf 9 4)),
              part buf 13 (lengthIn buf - 4)⟩ := by
  have nine : 9 ≤ buf.length := header
  have magic : (Slices.slice buf 0 2 : Outcome StorageError Bytes) = .ok (part buf 0 2) :=
    @Slices.slice_eq _ buf 0 2 (by omega)
  rw [decode, if_neg (not_lt.mpr header), magic, Outcome.ok_bind]
  refine if_congr Iff.rfl rfl ?_
  rw [Slices.byteAt_eq two, Outcome.ok_bind, Slices.numberAt_eq (by omega), Outcome.ok_bind]
  refine if_congr Iff.rfl rfl ?_
  rw [Slices.numberAt_eq (by omega), Outcome.ok_bind]
  cases OpCode.tryFrom (ofLe (part buf 7 2)) with
  | none => rfl
  | some opcode =>
      refine if_ctx_congr Iff.rfl (fun _ => rfl) fun whole => ?_
      change ¬ buf.length < 9 + lengthIn buf at whole
      change (Slices.numberAt buf 9 4 >>= fun requestId =>
        Slices.slice buf 13 (9 + lengthIn buf) >>= fun payload => .ok _) = _
      split
      next short =>
        have outside : (Slices.slice buf 13 (9 + lengthIn buf) : Outcome StorageError Bytes) =
            .halt .panic := Slices.slice_panics (.inl (by omega))
        rw [outside]
        by_cases room : 13 ≤ buf.length
        · rw [Slices.numberAt_eq (by omega)]
          rfl
        · rw [Slices.numberAt_panics (by omega)]
          rfl
      next filled =>
        have stop : 9 + lengthIn buf = 13 + (lengthIn buf - 4) := by omega
        rw [Slices.numberAt_eq (by omega), Outcome.ok_bind, stop, Slices.slice_eq (by omega)]
        rfl

/-- Decoding panics exactly at a header whose length leaves no room for the request id. -/
theorem returns_iff (buf : Bytes) : (∀ cause, decode buf ≠ .halt cause) ↔ ¬ TooShort buf := by
  by_cases header : headerSize ≤ buf.length
  · have two : 2 < buf.length := lt_of_lt_of_le (by decide) header
    rw [decode_eq header two, TooShort]
    split
    next wrong => exact iff_of_true (fun _ => nofun) fun short => wrong short.2.1
    next magic =>
      split
      next large =>
        refine iff_of_true (fun _ => nofun) fun short => ?_
        have most := large.trans short.2.2.2
        exact absurd most (by decide)
      next =>
        cases known : OpCode.tryFrom (ofLe (part buf 7 2)) with
        | none => exact iff_of_true (fun _ => nofun) fun short => nomatch short.2.2.1
        | some opcode =>
            dsimp only
            split
            next truncated =>
              exact iff_of_true (fun _ => nofun) fun short => absurd short.1 (not_le.mpr truncated)
            next whole =>
              split
              next few =>
                refine iff_of_false (fun returns => returns _ rfl) (not_not.mpr ?_)
                exact ⟨not_lt.mp whole, not_not.mp magic, rfl, few⟩
              next enough => exact iff_of_true (fun _ => nofun) fun short => enough short.2.2.2
  · rw [decode, if_pos (not_le.mp header)]
    refine iff_of_true (fun _ => nofun) fun short => header ?_
    have room := short.1
    omega

theorem decode_encode {message : Message}
    (small : message.payload.length ≤ maxMessageSize - 4) :
    decode message.encode = .ok message := by
  obtain ⟨flags, opcode, requestId, payload⟩ := message
  have most : payload.length + 4 ≤ maxMessageSize := by
    unfold maxMessageSize at small ⊢
    dsimp only at small
    omega
  generalize whole : encode ⟨flags, opcode, requestId, payload⟩ = buf
  rw [encode] at whole
  have size : buf.length = 13 + payload.length := by
    rw [← whole]
    simp [protocolMagic]
    omega
  have magic : Stands buf 0 protocolMagic := ⟨[], _, by rw [← whole]; simp; rfl, rfl⟩
  have mark : Stands buf 2 [flags] := ⟨protocolMagic, _, by rw [← whole]; simp; rfl, rfl⟩
  have length : Stands buf 3 (toLe 4 (payload.length + 4)) :=
    ⟨protocolMagic ++ [flags], _, by rw [← whole]; simp; rfl, rfl⟩
  have code : Stands buf 7 (toLe 2 opcode.toU16) :=
    ⟨protocolMagic ++ [flags] ++ toLe 4 (payload.length + 4), _, by rw [← whole]; simp; rfl, rfl⟩
  have request : Stands buf 9 (toLe 4 requestId.val) :=
    ⟨protocolMagic ++ [flags] ++ toLe 4 (payload.length + 4) ++ toLe 2 opcode.toU16, payload,
      by rw [← whole], rfl⟩
  have rest : Stands buf 13 payload := ⟨_, [], by rw [← whole, List.append_nil], rfl⟩
  have lengthIn_eq : lengthIn buf = payload.length + 4 :=
    length.number_eq (lt_of_le_of_lt most (by decide))
  have two : 2 < buf.length := by omega
  have magic_eq : part buf 0 2 = protocolMagic := magic.part_eq
  rw [decode_eq (by rw [size]; exact le_trans (by decide) (Nat.le_add_right 13 _)) two,
    if_neg (not_not.mpr magic_eq), lengthIn_eq, if_neg (not_lt.mpr most),
    code.number_eq opcode.toU16_lt, OpCode.tryFrom_toU16]
  dsimp only
  rw [if_neg (by rw [size, headerSize]; omega), if_neg (by omega), mark.getElem_eq two,
    request.number_eq requestId.isLt, Nat.add_sub_cancel, rest.part_eq, Fin.ofNat_val_eq_self]

end Message

/-! ## Log entries -/

theorem slice_eq : slice = @Slices.slice ReplicationError := rfl

theorem byteAt_eq : byteAt = @Slices.byteAt ReplicationError := rfl

theorem numberAt_eq : numberAt = @Slices.numberAt ReplicationError := rfl

theorem ReplicationOp.decodeOp_code (op : ReplicationOp) :
    ReplicationWalEntry.decodeOp op.code = .ok op := by
  cases op <;> rfl

namespace ReplicationWalEntry

open Slices (part Stands)

/-- The numbers of an entry fit their bytes. -/
structure Fits (entry : ReplicationWalEntry) : Prop where
  lsn : entry.lsn < 2 ^ 64
  timestamp : entry.timestamp < 2 ^ 64
  key : entry.key.length < 2 ^ 32
  value : ∀ value, entry.value = some value → value.length < 2 ^ 32

/-- The length of the key that an entry has. -/
def keyLengthIn (data : Bytes) : Nat := ofLe (part data 17 4)

/-- The length of the value that an entry has. -/
def valueLengthIn (data : Bytes) : Nat := ofLe (part data (21 + keyLengthIn data) 4)

/-- The key or the value of an entry goes on after its last byte. -/
def Truncated (data : Bytes) : Prop :=
  21 ≤ data.length ∧ (∃ op : ReplicationOp, data[8]? = some op.code) ∧
    data.length < 25 + keyLengthIn data + valueLengthIn data

variable {data : Bytes}

/-- What is decoded from bytes that have a header. -/
theorem decode_eq (long : 21 ≤ data.length) (eight : 8 < data.length) :
    decode data = decodeOp data[8] >>= fun opType =>
      if data.length < 25 + keyLengthIn data + valueLengthIn data then .halt .panic
      else .ok ⟨ofLe (part data 0 8), opType, part data 21 (keyLengthIn data),
        if valueLengthIn data = 0 then none
        else some (part data (25 + keyLengthIn data) (valueLengthIn data)),
        ofLe (part data 9 8)⟩ := by
  have lsn : (Slices.numberAt data 0 8 : Attempt Nat) = .ok (ofLe (part data 0 8)) :=
    Slices.numberAt_eq (by omega)
  rw [decode, if_neg (not_lt.mpr long), slice_eq, byteAt_eq, numberAt_eq, lsn, Outcome.ok_bind,
    Slices.byteAt_eq eight, Outcome.ok_bind]
  cases decodeOp data[8] with
  | err error => rfl
  | halt cause => rfl
  | ok opType =>
      rw [Outcome.ok_bind, Outcome.ok_bind, Slices.numberAt_eq (by omega), Outcome.ok_bind,
        Slices.numberAt_eq (by omega), Outcome.ok_bind]
      change (Slices.slice data 21 (21 + keyLengthIn data) >>= fun key =>
        Slices.numberAt data (21 + keyLengthIn data) 4 >>= fun valueLen => _) = _
      by_cases key : 21 + keyLengthIn data ≤ data.length
      · rw [Slices.slice_eq key, Outcome.ok_bind]
        by_cases length : 21 + keyLengthIn data + 4 ≤ data.length
        · rw [Slices.numberAt_eq length, Outcome.ok_bind]
          change (if 0 < valueLengthIn data then
            Slices.slice data (21 + keyLengthIn data + 4)
              (21 + keyLengthIn data + 4 + valueLengthIn data) >>= fun value => .ok _
            else _) = _
          have after : 21 + keyLengthIn data + 4 = 25 + keyLengthIn data := by omega
          rw [after] at length ⊢
          split
          next filled =>
            by_cases value : 25 + keyLengthIn data + valueLengthIn data ≤ data.length
            · rw [Slices.slice_eq value, Outcome.ok_bind, if_neg (not_lt.mpr value),
                if_neg (Nat.ne_of_gt filled)]
            · rw [Slices.slice_panics (.inr (not_le.mp value)), if_pos (not_le.mp value)]
              rfl
          next empty =>
            have none : valueLengthIn data = 0 := by omega
            rw [none, Nat.add_zero, if_neg (not_lt.mpr length), if_pos rfl]
        · rw [Slices.numberAt_panics (by omega), if_pos (by omega)]
          rfl
      · rw [Slices.slice_panics (.inr (by omega)), if_pos (by omega)]
        rfl

/-- Decoding panics exactly at a header whose key or value goes on after the last byte. -/
theorem returns_iff (data : Bytes) : (∀ cause, decode data ≠ .halt cause) ↔ ¬ Truncated data := by
  by_cases long : 21 ≤ data.length
  · have eight : 8 < data.length := by omega
    have known : ∀ op, decodeOp data[8] = .ok op ↔ data[8]? = some op.code := by
      intro op
      rw [List.getElem?_eq_getElem eight, Option.some.injEq]
      constructor
      · intro decoded
        unfold decodeOp at decoded
        split at decoded
        next same => cases decoded; exact same
        next =>
          split at decoded
          next same => cases decoded; exact same
          next =>
            split at decoded
            next same => cases decoded; exact same
            next => cases decoded
      · exact fun same => same ▸ op.decodeOp_code
    rw [decode_eq long eight, Truncated]
    cases decoded : decodeOp data[8] with
    | err error =>
        refine iff_of_true (fun _ => nofun) fun truncated => ?_
        obtain ⟨op, same⟩ := truncated.2.1
        exact nomatch decoded.symm.trans ((known op).mpr same)
    | halt cause =>
        unfold decodeOp at decoded
        split_ifs at decoded
    | ok op =>
        rw [Outcome.ok_bind]
        split
        next short =>
          exact iff_of_false (fun returns => returns _ rfl)
            (not_not.mpr ⟨long, ⟨op, (known op).mp decoded⟩, short⟩)
        next whole => exact iff_of_true (fun _ => nofun) fun truncated => whole truncated.2.2
  · rw [decode, if_pos (not_le.mp long)]
    exact iff_of_true (fun _ => nofun) fun truncated => long truncated.1

/-- An entry is read back, except that an empty value is taken for none. -/
theorem decode_encode {entry : ReplicationWalEntry} (fits : entry.Fits) :
    decode entry.encode = .ok { entry with value := entry.value.filter (· ≠ []) } := by
  obtain ⟨lsn, opType, key, value, timestamp⟩ := entry
  have code : encode ⟨lsn, opType, key, value, timestamp⟩ =
      toLe 8 lsn ++ [opType.code] ++ toLe 8 timestamp ++ toLe 4 key.length ++ key ++
        toLe 4 (value.getD []).length ++ value.getD [] := by
    cases value with
    | none => exact (List.append_nil _).symm
    | some value => exact (List.append_assoc _ _ _).symm
  have valueFits : (value.getD []).length < 256 ^ 4 := by
    cases value with
    | none => exact Nat.zero_lt_succ _
    | some value => exact fits.value value rfl
  rw [code]
  generalize whole : toLe 8 lsn ++ [opType.code] ++ toLe 8 timestamp ++ toLe 4 key.length ++ key ++
    toLe 4 (value.getD []).length ++ value.getD [] = data
  have size : data.length = 25 + key.length + (value.getD []).length := by
    rw [← whole]
    simp only [List.length_append, toLe_length, List.length_singleton]
    omega
  have lsnStands : Stands data 0 (toLe 8 lsn) := ⟨[], _, by rw [← whole]; simp; rfl, rfl⟩
  have opStands : Stands data 8 [opType.code] := ⟨toLe 8 lsn, _, by rw [← whole]; simp; rfl, rfl⟩
  have timeStands : Stands data 9 (toLe 8 timestamp) :=
    ⟨toLe 8 lsn ++ [opType.code], _, by rw [← whole]; simp; rfl, rfl⟩
  have lengthStands : Stands data 17 (toLe 4 key.length) :=
    ⟨toLe 8 lsn ++ [opType.code] ++ toLe 8 timestamp, _, by rw [← whole]; simp; rfl, rfl⟩
  have keyStands : Stands data 21 key :=
    ⟨toLe 8 lsn ++ [opType.code] ++ toLe 8 timestamp ++ toLe 4 key.length, _,
      by rw [← whole]; simp; rfl, rfl⟩
  have valueLengthStands : Stands data (21 + key.length) (toLe 4 (value.getD []).length) :=
    ⟨toLe 8 lsn ++ [opType.code] ++ toLe 8 timestamp ++ toLe 4 key.length ++ key, value.getD [],
      by rw [← whole], by simp; omega⟩
  have valueStands : Stands data (25 + key.length) (value.getD []) :=
    ⟨_, [], by rw [← whole, List.append_nil], by simp; omega⟩
  have eight : 8 < data.length := by omega
  have keyLength : keyLengthIn data = key.length := lengthStands.number_eq fits.key
  have valueLength : valueLengthIn data = (value.getD []).length := by
    rw [valueLengthIn, keyLength, valueLengthStands.number_eq valueFits]
  rw [decode_eq (by omega) eight, opStands.getElem_eq eight, opType.decodeOp_code, Outcome.ok_bind,
    keyLength, valueLength, if_neg (by omega), lsnStands.number_eq fits.lsn, keyStands.part_eq,
    valueStands.part_eq, timeStands.number_eq fits.timestamp]
  cases value with
  | none => rfl
  | some value =>
      cases value with
      | nil => rfl
      | cons byte value => rfl

end ReplicationWalEntry

/-! ## Readers -/

/-- The answer to a handshake is a response of the base protocol. -/
theorem responseMessage_eq (requestId : Fin (2 ^ 32)) (payload : Bytes) :
    responseMessage requestId.val payload = (Message.response requestId .ping payload).encode := rfl

/-- The handler comes to the payload of a handshake. -/
def ReadsHandshake (connection : Connection) (handler : Handler) (requestId : Nat)
    (payload rest : Bytes) : Prop :=
  ReplicationServer.readHandshake connection handler =
    { connection with toLeader := payload ++ rest }.waits handler
      (.registering requestId payload.length)

/-- The handler comes to the payload of a message of its follower. -/
def ReplicationServer.ReadsMessage (server : ReplicationServer) (connection : Connection)
    (handler : Handler) (nodeId : Bytes) (startLsn : Nat) (code : Byte) (payload rest : Bytes) :
    Prop :=
  server.stream connection handler nodeId startLsn .read =
    (server, { connection with toLeader := payload ++ rest }.waits handler
      (.message nodeId startLsn code payload.length))

/-- The follower comes to the payload of a message of the leader. -/
def ReplicationClient.ReadsMessage (client : ReplicationClient) (number : Nat)
    (connection : Connection) (code : Byte) (payload rest : Bytes) : Prop :=
  client.readHeader number connection =
    ({ client with stage := .message number code payload.length },
      { connection with toFollower := payload ++ rest })

section Readers

variable {connection : Connection} {handler : Handler} {payload rest : Bytes} {code : Byte}

/-- A header is read from a message of replication, and it begins with the magic number. -/
theorem readExact_createMessage {stream : Bytes} {requestId : Nat}
    (starts : stream = createMessage code requestId payload ++ rest) (writerOpen : Bool) :
    ∃ header left, readExact headerSize stream writerOpen = some (.ok (header, left)) ∧
      hasMagic header = true ∧ header.length = headerSize := by
  have size : headerSize ≤ stream.length := by
    rw [starts, createMessage, headerSize]
    simp [protocolMagic]
    omega
  refine ⟨_, _, if_pos size, ?_, by rw [List.length_take, Nat.min_eq_left size]⟩
  rw [starts]
  rfl

/-- Reading a handshake panics at the length of its payload. -/
theorem not_readsHandshake {requestId : Nat} {nodeId : Bytes} {startLsn : Nat}
    (starts : connection.toLeader = createReplicateRequest nodeId startLsn ++ rest) :
    ¬ ReadsHandshake connection handler requestId payload rest := by
  obtain ⟨header, left, read, magic, length⟩ :=
    readExact_createMessage starts connection.followerOpen
  have request : numberAt header 4 4 = .ok (ofLe (Slices.part header 4 4)) :=
    Slices.numberAt_eq (by rw [length, headerSize]; omega)
  intro reads
  rw [ReadsHandshake, ReplicationServer.readHandshake, read] at reads
  dsimp only at reads
  rw [if_neg (by rw [magic]; decide), request, Outcome.ok_bind,
    payloadLength_panics length] at reads
  cases congrArg Connection.handler reads

/-- Reading a message of a follower panics at the length of its payload. -/
theorem ReplicationServer.not_readsMessage {server : ReplicationServer} {nodeId : Bytes}
    {startLsn appliedLsn : Nat}
    (starts : connection.toLeader = createAckMessage appliedLsn ++ rest) :
    ¬ server.ReadsMessage connection handler nodeId startLsn code payload rest := by
  obtain ⟨header, left, read, magic, length⟩ :=
    readExact_createMessage starts connection.followerOpen
  have marked : 2 < header.length := by rw [length]; decide
  have mark : byteAt header 2 = .ok header[2] := Slices.byteAt_eq marked
  intro reads
  rw [ReplicationServer.ReadsMessage, ReplicationServer.stream, read] at reads
  dsimp only at reads
  rw [if_neg (by rw [magic]; decide), mark, Outcome.ok_bind, payloadLength_panics length] at reads
  cases congrArg (Connection.handler ∘ Prod.snd) reads

/-- Reading a message of the leader panics at the length of its payload. -/
theorem ReplicationClient.not_readsMessage {client : ReplicationClient} {number requestId : Nat}
    {sent : Bytes} {mark : Byte}
    (starts : connection.toFollower = createMessage mark requestId sent ++ rest) :
    ¬ client.ReadsMessage number connection code payload rest := by
  obtain ⟨header, left, read, magic, length⟩ :=
    readExact_createMessage starts connection.leaderOpen
  have marked : 2 < header.length := by rw [length]; decide
  have mark : byteAt header 2 = .ok header[2] := Slices.byteAt_eq marked
  intro reads
  rw [ReplicationClient.ReadsMessage, ReplicationClient.readHeader, read] at reads
  dsimp only at reads
  rw [if_neg (by rw [magic]; decide), mark, Outcome.ok_bind, payloadLength_panics length] at reads
  cases congrArg (ReplicationClient.stage ∘ Prod.fst) reads

/-- Of the response to a handshake only a part is read. -/
theorem ReplicationClient.advance_response {client : ReplicationClient} {number awaited : Nat}
    {message : Message} (fails : Bool) (waits : client.stage = .awaiting awaited)
    (starts : connection.toFollower = message.encode ++ rest) :
    (client.advance number connection fails).2.toFollower =
      toLe 4 message.requestId.val ++ message.payload ++ rest := by
  have split : message.encode ++ rest =
      (protocolMagic ++ [message.flags] ++ toLe 4 (message.payload.length + 4) ++
        toLe 2 message.opcode.toU16) ++
          (toLe 4 message.requestId.val ++ message.payload ++ rest) := by
    simp only [Message.encode, List.append_assoc]
  have size : (protocolMagic ++ [message.flags] ++ toLe 4 (message.payload.length + 4) ++
      toLe 2 message.opcode.toU16).length = headerSize := by
    simp only [List.length_append, toLe_length]
    rfl
  have room : headerSize ≤ connection.toFollower.length := by
    rw [starts, split, List.length_append, size]
    exact Nat.le_add_right _ _
  rw [ReplicationClient.advance, waits]
  dsimp only
  rw [readExact, if_pos room]
  dsimp only
  rw [starts, split, List.drop_left' size]

end Readers

/-- An entry is read back if and only if its value is not empty; a message of the base protocol is
always read back; no header that one side of replication writes is read back by the other; and
decoding panics exactly at lengths that the bytes do not bear out. -/
theorem codecs {entry : ReplicationWalEntry} (fits : entry.Fits) {message : Message}
    (small : message.payload.length ≤ maxMessageSize - 4) (data buf : Bytes) :
    (ReplicationWalEntry.decode entry.encode = .ok entry ↔ entry.value ≠ some []) ∧
    Message.decode message.encode = .ok message ∧
    ((∀ connection handler nodeId startLsn rest,
        connection.toLeader = createReplicateRequest nodeId startLsn ++ rest →
          ¬ ReadsHandshake connection handler 1 (toLe 4 nodeId.length ++ nodeId ++ toLe 8 startLsn)
            rest) ∧
      (∀ (client : ReplicationClient) number connection entry rest,
        connection.toFollower = createWalEntryMessage entry ++ rest →
          ¬ client.ReadsMessage number connection walEntryCode entry.encode rest) ∧
      (∀ (client : ReplicationClient) number connection currentLsn rest,
        connection.toFollower = createHeartbeatMessage currentLsn ++ rest →
          ¬ client.ReadsMessage number connection heartbeatCode (toLe 8 currentLsn) rest) ∧
      (∀ (server : ReplicationServer) connection handler nodeId startLsn appliedLsn rest,
        connection.toLeader = createAckMessage appliedLsn ++ rest →
          ¬ server.ReadsMessage connection handler nodeId startLsn ackCode (toLe 8 appliedLsn)
            rest) ∧
      (∀ (client : ReplicationClient) number awaited connection fails (message : Message) rest,
        client.stage = .awaiting awaited → connection.toFollower = message.encode ++ rest →
          (client.advance number connection fails).2.toFollower ≠ rest)) ∧
    ((∀ cause, ReplicationWalEntry.decode data ≠ .halt cause) ↔
      ¬ ReplicationWalEntry.Truncated data) ∧
    ((∀ cause, Message.decode buf ≠ .halt cause) ↔ ¬ Message.TooShort buf) := by
  refine ⟨?_, Message.decode_encode small, ⟨?_, ?_, ?_, ?_, ?_⟩,
    ReplicationWalEntry.returns_iff data, Message.returns_iff buf⟩
  · rw [ReplicationWalEntry.decode_encode fits]
    obtain ⟨lsn, opType, key, value, timestamp⟩ := entry
    cases value with
    | none => simp
    | some value => simp
  · exact fun _ _ _ _ _ => not_readsHandshake
  · exact fun _ _ _ _ _ => ReplicationClient.not_readsMessage
  · exact fun _ _ _ _ _ => ReplicationClient.not_readsMessage
  · exact fun _ _ _ _ _ _ _ => ReplicationServer.not_readsMessage
  · intro client number awaited connection fails message rest waits starts left
    rw [ReplicationClient.advance_response fails waits starts] at left
    have lengths := congrArg List.length left
    rw [List.length_append, List.length_append, toLe_length] at lengths
    omega

/-- A put of a key of one byte with a value of one byte. -/
def sampleEntry : ReplicationWalEntry := ⟨1, .put, [107], some [118], 2⟩

theorem fits_sampleEntry : sampleEntry.Fits :=
  ⟨by decide, by decide, by decide, fun value same => by
    cases same
    decide⟩

/-- A response of two bytes. -/
def sampleMessage : Message := .response 7 .get [1, 2]

theorem codecs_sample :
    ReplicationWalEntry.decode sampleEntry.encode = .ok sampleEntry ∧
      Message.decode (Message.encode sampleMessage) = .ok sampleMessage :=
  have ⟨entry, message, _⟩ := @codecs _ fits_sampleEntry sampleMessage (by decide) [] []
  ⟨entry.mpr (by decide), message⟩

/-- A connection on which the leader has sent a heartbeat. -/
def heartbeatSent : Connection := ⟨[], createHeartbeatMessage 7, true, true, none⟩

/-- A follower that waits for the next message. -/
def waiting : ReplicationClient := ⟨[102], 0, .streaming 0, [], []⟩

/-- An empty value is read back as none, the follower panics at the header of a heartbeat, and both
decoders panic at a length. -/
theorem not_codecs_heartbeat :
    ReplicationWalEntry.decode (ReplicationWalEntry.encode ⟨1, .put, [107], some [], 2⟩) =
      .ok ⟨1, .put, [107], none, 2⟩ ∧
    (waiting.readHeader 0 heartbeatSent).1.stage = .stopped .panicked ∧
    ReplicationWalEntry.decode (toLe 8 1 ++ [1] ++ toLe 8 0 ++ toLe 4 1) = .halt .panic ∧
    Message.decode (protocolMagic ++ [0] ++ toLe 4 0 ++ toLe 2 1) = .halt .panic := by
  decide

end JouleDB.Replication
