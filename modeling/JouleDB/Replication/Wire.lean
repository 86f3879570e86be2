import JouleDB.Lib.Bytes
import JouleDB.Lib.Exec

/-!
# Replication messages

Log entries and the messages between a leader and its followers.  A replication message starts with
sixteen bytes: magic, operation code, flags, request id, payload length and four reserved bytes.  Both
sides read headers of the length that the base protocol uses, nine bytes.
-/

namespace JouleDB.Replication

/-! ## Bytes at fixed places -/

/-- An error of replication. -/
inductive ReplicationError where
  | connectionFailed (reason : String)
  | protocolError (reason : String)
  | ioError (reason : String)
  deriving DecidableEq, Repr

/-- Code that fails with an error of replication or panics. -/
abbrev Attempt := Outcome ReplicationError

/-- The bytes between two indices; an index past the end is a panic. -/
def slice (data : Bytes) (start stop : Nat) : Attempt Bytes :=
  if start ≤ stop ∧ stop ≤ data.length then .ok ((data.drop start).take (stop - start))
  else .halt .panic

/-- The byte at an index. -/
def byteAt (data : Bytes) (index : Nat) : Attempt Byte :=
  match data[index]? with
  | some byte => .ok byte
  | none => .halt .panic

/-- The number in the bytes from an index on. -/
def numberAt (data : Bytes) (start width : Nat) : Attempt Nat := do
  let bytes ← slice data start (start + width)
  .ok (ofLe bytes)

/-! ## Log entries -/

/-- Operations of log entries. -/
inductive ReplicationOp where
  | put
  | delete
  | checkpoint
  deriving DecidableEq, Repr

/-- The byte of an operation. -/
def ReplicationOp.code : ReplicationOp → Byte
  | .put => 1
  | .delete => 2
  | .checkpoint => 3

/-- A log entry. -/
structure ReplicationWalEntry where
  lsn : Nat
  opType : ReplicationOp
  key : Bytes
  value : Option Bytes
  timestamp : Nat
  deriving DecidableEq, Repr

namespace ReplicationWalEntry

/-- Encode an entry. -/
def encode (entry : ReplicationWalEntry) : Bytes :=
  toLe 8 entry.lsn ++ [entry.opType.code] ++ toLe 8 entry.timestamp ++
    toLe 4 entry.key.length ++ entry.key ++
    match entry.value with
    | some value => toLe 4 value.length ++ value
    | none => toLe 4 0

/-- Decode an operation. -/
def decodeOp (byte : Byte) : Attempt ReplicationOp :=
  if byte = 1 then .ok .put
  else if byte = 2 then .ok .delete
  else if byte = 3 then .ok .checkpoint
  else .err (.protocolError "Invalid op type")

/-- Decode an entry. -/
def decode (data : Bytes) : Attempt ReplicationWalEntry :=
  if data.length < 21 then
    .err (.protocolError "Entry too short")
  else do
    let lsn ← numberAt data 0 8
    let opType ← decodeOp (← byteAt data 8)
    let timestamp ← numberAt data 9 8
    let keyLen ← numberAt data 17 4
    let key ← slice data 21 (21 + keyLen)
    let valueOffset := 21 + keyLen
    let valueLen ← numberAt data valueOffset 4
    if 0 < valueLen then
      let value ← slice data (valueOffset + 4) (valueOffset + 4 + valueLen)
      .ok ⟨lsn, opType, key, some value, timestamp⟩
    else
      .ok ⟨lsn, opType, key, none, timestamp⟩

end ReplicationWalEntry

/-! ## Messages -/

/-- Protocol magic number: `WD`. -/
def protocolMagic : Bytes := [0x57, 0x44]

/-- Length of the header of the base protocol: magic, flags, length and operation code. -/
def headerSize : Nat := 9

/-- Request a replication stream. -/
def replicateCode : Byte := 0x20

/-- A log entry from the leader. -/
def walEntryCode : Byte := 0x21

/-- An acknowledgment from a follower. -/
def ackCode : Byte := 0x22

/-- A sign of life. -/
def heartbeatCode : Byte := 0x23

/-- A message with the header of replication. -/
def createMessage (code : Byte) (requestId : Nat) (payload : Bytes) : Bytes :=
  protocolMagic ++ [code, 0] ++ toLe 4 requestId ++ toLe 4 payload.length ++ toLe 4 0 ++ payload

/-- The handshake of a follower: its name and the position after which it needs entries. -/
def createReplicateRequest (nodeId : Bytes) (startLsn : Nat) : Bytes :=
  createMessage replicateCode 1 (toLe 4 nodeId.length ++ nodeId ++ toLe 8 startLsn)

/-- A log entry as a message. -/
def createWalEntryMessage (entry : ReplicationWalEntry) : Bytes :=
  createMessage walEntryCode entry.lsn entry.encode

/-- A sign of life of the leader. -/
def createHeartbeatMessage (currentLsn : Nat) : Bytes :=
  createMessage heartbeatCode 0 (toLe 8 currentLsn)

/-- An acknowledgment. -/
def createAckMessage (appliedLsn : Nat) : Bytes := createMessage ackCode 0 (toLe 8 appliedLsn)

/-- A response of the base protocol with the code of a ping, which the leader answers a handshake
with. -/
def responseMessage (requestId : Nat) (payload : Bytes) : Bytes :=
  protocolMagic ++ [1] ++ toLe 4 (payload.length + 4) ++ toLe 2 1 ++ toLe 4 requestId ++ payload

/-- The header of a message starts with the magic number. -/
def hasMagic (header : Bytes) : Bool := header.take 2 = protocolMagic

/-- The payload length that a header of replication has at index 8. -/
def payloadLength (header : Bytes) : Attempt Nat := numberAt header 8 4

/-- What a handshake says. -/
structure Handshake where
  nodeId : Bytes
  startLsn : Nat

/-- Decode the payload of a handshake. -/
def Handshake.decode (payload : Bytes) : Attempt Handshake := do
  let nodeIdLen ← numberAt payload 0 4
  let nodeId ← slice payload 4 (4 + nodeIdLen)
  let startLsn ← numberAt payload (4 + nodeIdLen) 8
  .ok ⟨nodeId, startLsn⟩

/-- A header that is read ends before the payload length does. -/
theorem payloadLength_panics {header : Bytes} (length : header.length = headerSize) :
    payloadLength header = .halt .panic := by
  have outside : ¬ (8 ≤ 8 + 4 ∧ 8 + 4 ≤ header.length) := by
    rw [length, headerSize]
    omega
  rw [payloadLength, numberAt, slice, if_neg outside]
  rfl

end JouleDB.Replication
