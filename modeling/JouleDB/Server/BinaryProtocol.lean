import JouleDB.Lib.Leb128
import JouleDB.Types.Value

/-!
# The binary protocol of the server

A message is a header of sixteen bytes and a payload.  The payload of a request or a response is a
sequence of fixed-width numbers, byte strings and texts after their lengths, and parts that are
there or not as the byte before them says.

The lengths in a payload are chosen by the peer.  The parts of a payload that a parse function reads
are listed by its layout, and the layout says which lengths are reached.
-/

namespace JouleDB.BinaryProtocol

open JouleDB.Types (utf8 fromUtf8 fromUtf8_utf8)

/-- An unsigned 32-bit number. -/
abbrev U32 := Fin (2 ^ 32)

inductive MessageType where
  | get
  | set
  | delete
  | query
  | batch
  | ping
  | subscribe
  | unsubscribe
  | auth
  | beginTx
  | commit
  | rollback
  | savepoint
  | prepare
  | execute
  | getResponse
  | setResponse
  | deleteResponse
  | queryResponse
  | batchResponse
  | pong
  | notification
  | authResponse
  | beginTxResponse
  | commitResponse
  | rollbackResponse
  | savepointResponse
  | prepareResponse
  | executeResponse
  | error
  deriving DecidableEq

namespace MessageType

def toU16 : MessageType → Nat
  | .get => 0x0001
  | .set => 0x0002
  | .delete => 0x0003
  | .query => 0x0004
  | .batch => 0x0005
  | .ping => 0x0006
  | .subscribe => 0x0007
  | .unsubscribe => 0x0008
  | .auth => 0x0009
  | .beginTx => 0x0010
  | .commit => 0x0011
  | .rollback => 0x0012
  | .savepoint => 0x0013
  | .prepare => 0x0014
  | .execute => 0x0015
  | .getResponse => 0x8001
  | .setResponse => 0x8002
  | .deleteResponse => 0x8003
  | .queryResponse => 0x8004
  | .batchResponse => 0x8005
  | .pong => 0x8006
  | .notification => 0x8007
  | .authResponse => 0x8008
  | .beginTxResponse => 0x8010
  | .commitResponse => 0x8011
  | .rollbackResponse => 0x8012
  | .savepointResponse => 0x8013
  | .prepareResponse => 0x8014
  | .executeResponse => 0x8015
  | .error => 0x80FF

def fromU16 : Nat → Option MessageType
  | 0x0001 => some .get
  | 0x0002 => some .set
  | 0x0003 => some .delete
  | 0x0004 => some .query
  | 0x0005 => some .batch
  | 0x0006 => some .ping
  | 0x0007 => some .subscribe
  | 0x0008 => some .unsubscribe
  | 0x0009 => some .auth
  | 0x0010 => some .beginTx
  | 0x0011 => some .commit
  | 0x0012 => some .rollback
  | 0x0013 => some .savepoint
  | 0x0014 => some .prepare
  | 0x0015 => some .execute
  | 0x8001 => some .getResponse
  | 0x8002 => some .setResponse
  | 0x8003 => some .deleteResponse
  | 0x8004 => some .queryResponse
  | 0x8005 => some .batchResponse
  | 0x8006 => some .pong
  | 0x8007 => some .notification
  | 0x8008 => some .authResponse
  | 0x8010 => some .beginTxResponse
  | 0x8011 => some .commitResponse
  | 0x8012 => some .rollbackResponse
  | 0x8013 => some .savepointResponse
  | 0x8014 => some .prepareResponse
  | 0x8015 => some .executeResponse
  | 0x80FF => some .error
  | _ => none

@[simp] theorem fromU16_toU16 (type : MessageType) : fromU16 type.toU16 = some type := by
  cases type <;> rfl

theorem toU16_lt (type : MessageType) : type.toU16 < 256 ^ 2 := by
  cases type <;> decide

end MessageType

structure BinaryMessage where
  msgType : MessageType
  requestId : U32
  flags : Byte
  payload : Bytes
  deriving DecidableEq

inductive BinaryProtocolError where
  | invalidMagic
  | unsupportedVersion (version : Byte)
  | unknownMessageType (raw : Nat)
  | payloadTooLarge (size : Nat)
  | truncatedMessage
  | invalidPayload (reason : String)
  deriving DecidableEq

def magic : Bytes := [0x57, 0x56, 0x44, 0x42]

def version : Byte := 1

def headerSize : Nat := 16

def maxPayloadSize : Nat := 16 * 1024 * 1024

/-! ## Building messages -/

def writeVarint (value : Nat) : Bytes := Leb128.encode value

/-- A byte string after its length. -/
def writeBytes (data : Bytes) : Bytes := writeVarint data.length ++ data

def writeString (s : String) : Bytes := writeBytes (utf8 s)

/-- A byte that says whether something follows, and what follows. -/
def writeOption {α : Type} (write : α → Bytes) : Option α → Bytes
  | some value => 1 :: write value
  | none => [0]

def writeU64 (value : U64) : Bytes := toLe 8 value.val

inductive BatchOp where
  | set (key value : Bytes) (ttl : Option U64)
  | delete (key : Bytes)

def BatchOp.write : BatchOp → Bytes
  | .set key value ttl => 1 :: (writeBytes key ++ writeBytes value ++ writeOption writeU64 ttl)
  | .delete key => 2 :: writeBytes key

namespace BinaryMessage

def new (msgType : MessageType) (requestId : U32) (payload : Bytes) : BinaryMessage :=
  ⟨msgType, requestId, 0, payload⟩

def get (requestId : U32) (key : Bytes) : BinaryMessage := new .get requestId (writeBytes key)

def set (requestId : U32) (key value : Bytes) (ttl : Option U64) : BinaryMessage :=
  new .set requestId (writeBytes key ++ writeBytes value ++ writeOption writeU64 ttl)

def delete (requestId : U32) (key : Bytes) : BinaryMessage :=
  new .delete requestId (writeBytes key)

def getResponse (requestId : U32) (value : Option Bytes) : BinaryMessage :=
  new .getResponse requestId (writeOption writeBytes value)

def error (requestId : U32) (code message : String) : BinaryMessage :=
  new .error requestId (writeString code ++ writeString message)

def subscribe (requestId : U32) (pattern : String) : BinaryMessage :=
  new .subscribe requestId (writeString pattern)

def unsubscribe (requestId : U32) (subscriptionId : U64) : BinaryMessage :=
  new .unsubscribe requestId (writeU64 subscriptionId)

def auth (requestId : U32) (token : String) : BinaryMessage :=
  new .auth requestId (writeString token)

def notification (requestId : U32) (subscriptionId : U64) (operation : Byte) (key : String)
    (newValue oldValue : Option Bytes) (timestamp : U64) : BinaryMessage :=
  new .notification requestId (writeU64 subscriptionId ++ operation :: (writeString key ++
    writeOption writeBytes newValue ++ writeOption writeBytes oldValue ++ writeU64 timestamp))

def query (requestId : U32) (query : String) (params : Option Bytes) : BinaryMessage :=
  new .query requestId (writeString query ++ writeOption writeBytes params)

def batch (requestId : U32) (operations : List BatchOp) : BinaryMessage :=
  new .batch requestId (writeVarint operations.length ++ operations.flatMap BatchOp.write)

end BinaryMessage

/-! ## Messages as bytes -/

open Decoder

def encode (message : BinaryMessage) : Outcome BinaryProtocolError Bytes :=
  -- The length is cut to 32 bits before it is compared.
  let payloadLen := message.payload.length % 2 ^ 32
  if maxPayloadSize < payloadLen then
    .err (.payloadTooLarge payloadLen)
  else
    .ok (magic ++ [version] ++ [message.flags] ++ toLe 2 message.msgType.toU16 ++
      toLe 4 message.requestId.val ++ toLe 4 payloadLen ++ message.payload)

/-- The next byte, which is taken to be there. -/
def index : Decoder BinaryProtocolError Byte := do
  let byte ← slice 1
  pure (byte.headD 0)

/-- The next bytes as a number, which are taken to be there. -/
def number (width : Nat) : Decoder BinaryProtocolError Nat := do
  let bytes ← slice width
  pure (ofLe bytes)

/-- Check that there is a header, and its first five bytes. -/
def checkHeader : Decoder BinaryProtocolError Unit := do
  let len ← remaining
  if len < headerSize then
    fail .truncatedMessage
  else
    let start ← slice 4
    if start ≠ magic then
      fail .invalidMagic
    else
      let found ← index
      if found ≠ version then fail (.unsupportedVersion found) else pure ()

def messageType (raw : Nat) : Decoder BinaryProtocolError MessageType :=
  match MessageType.fromU16 raw with
  | some msgType => pure msgType
  | none => fail (.unknownMessageType raw)

/-- Read what follows the first five bytes. -/
def decodeFields : Decoder BinaryProtocolError BinaryMessage := do
  let flags ← index
  let msgTypeRaw ← number 2
  let requestId ← number 4
  let payloadLen ← number 4
  let msgType ← messageType msgTypeRaw
  if maxPayloadSize < payloadLen then
    fail (.payloadTooLarge payloadLen)
  else
    let payload ← read (fun _ => .truncatedMessage) payloadLen
    pure ⟨msgType, Fin.ofNat _ requestId, flags, payload⟩

def decodeMessage : Decoder BinaryProtocolError BinaryMessage := do
  checkHeader
  decodeFields

/-- The type, the request id and the length of the payload. -/
def header : Decoder BinaryProtocolError (MessageType × U32 × U32) := do
  checkHeader
  let _flags ← index
  let msgTypeRaw ← number 2
  let msgType ← messageType msgTypeRaw
  let requestId ← number 4
  let payloadLen ← number 4
  pure (msgType, Fin.ofNat _ requestId, Fin.ofNat _ payloadLen)

def decode (data : Bytes) : Outcome BinaryProtocolError BinaryMessage :=
  (decodeMessage data 0).outcome

def parseHeader (data : Bytes) : Outcome BinaryProtocolError (MessageType × U32 × U32) :=
  (header data 0).outcome

/-! ## Parsing payloads -/

section Parse

variable {ε : Type}

/-- Read a byte string after its length.  A length of more than ten bytes is missing. -/
def readBytes (missing : ε) : Decoder ε Bytes := Leb128.prefixed missing (fail missing)

def readString (missing : ε) : Decoder ε String := do
  let bytes ← readBytes missing
  match fromUtf8 bytes with
  | some text => pure text
  | none => fail missing

def readU64 (missing : ε) : Decoder ε U64 := do
  let bytes ← read (fun _ => missing) 8
  pure (Fin.ofNat _ (ofLe bytes))

end Parse

def getKey : Decoder BinaryProtocolError Bytes := readBytes (.invalidPayload "Missing key")

def setFields : Decoder BinaryProtocolError (Bytes × Bytes × Option U64) := do
  let key ← readBytes (.invalidPayload "Missing key")
  let value ← readBytes (.invalidPayload "Missing value")
  let hasTtl ← byte (.invalidPayload "Missing TTL flag")
  if hasTtl ≠ 0 then
    let ttl ← readU64 (.invalidPayload "Missing TTL value")
    pure (key, value, some ttl)
  else
    pure (key, value, none)

def deleteKey : Decoder BinaryProtocolError Bytes := readBytes (.invalidPayload "Missing key")

def getResponseValue : Decoder BinaryProtocolError (Option Bytes) := do
  let found ← byte (.invalidPayload "Empty payload")
  if found = 0 then
    pure none
  else
    let value ← readBytes (.invalidPayload "Missing value")
    pure (some value)

def subscribePattern : Decoder BinaryProtocolError String :=
  readString (.invalidPayload "Missing pattern")

def subscriptionId : Decoder BinaryProtocolError U64 :=
  readU64 (.invalidPayload "Missing subscription_id")

/-- The token, or nothing. -/
def authToken : Decoder Unit String := readString ()

/-- A value after a byte that is one if it is there. -/
def notificationValue (missingFlag missingData : String) :
    Decoder BinaryProtocolError (Option Bytes) := do
  let flag ← byte (.invalidPayload missingFlag)
  if flag = 1 then
    let value ← readBytes (.invalidPayload missingData)
    pure (some value)
  else
    pure none

def notificationBody : Decoder BinaryProtocolError
    (U64 × Byte × String × Option Bytes × Option Bytes × U64) := do
  let subId ← number 8
  let operation ← index
  let key ← readString (.invalidPayload "Missing key")
  let newValue ← notificationValue "Missing new_value flag" "Missing new_value data"
  let oldValue ← notificationValue "Missing old_value flag" "Missing old_value data"
  let timestamp ← readU64 (.invalidPayload "Missing timestamp")
  pure (Fin.ofNat _ subId, operation, key, newValue, oldValue, timestamp)

def notificationFields : Decoder BinaryProtocolError
    (U64 × Byte × String × Option Bytes × Option Bytes × U64) := do
  let len ← remaining
  if len < 9 then
    fail (.invalidPayload "Notification too short")
  else
    notificationBody

def errorFields : Decoder BinaryProtocolError (String × String) := do
  let code ← readString (.invalidPayload "Missing error code")
  let message ← readString (.invalidPayload "Missing error message")
  pure (code, message)

def parseGet (payload : Bytes) : Outcome BinaryProtocolError Bytes := (getKey payload 0).outcome

def parseSet (payload : Bytes) : Outcome BinaryProtocolError (Bytes × Bytes × Option U64) :=
  (setFields payload 0).outcome

def parseDelete (payload : Bytes) : Outcome BinaryProtocolError Bytes :=
  (deleteKey payload 0).outcome

def parseGetResponse (payload : Bytes) : Outcome BinaryProtocolError (Option Bytes) :=
  (getResponseValue payload 0).outcome

def parseSubscribe (payload : Bytes) : Outcome BinaryProtocolError String :=
  (subscribePattern payload 0).outcome

def parseUnsubscribe (payload : Bytes) : Outcome BinaryProtocolError U64 :=
  (subscriptionId payload 0).outcome

def parseAuthToken (payload : Bytes) : Outcome Unit String := (authToken payload 0).outcome

def parseNotification (payload : Bytes) : Outcome BinaryProtocolError
    (U64 × Byte × String × Option Bytes × Option Bytes × U64) :=
  (notificationFields payload 0).outcome

def parseError (payload : Bytes) : Outcome BinaryProtocolError (String × String) :=
  (errorFields payload 0).outcome

/-! ## What is built -/

/-- What the constructors of messages are given. -/
inductive Content where
  | get (key : Bytes)
  | set (key value : Bytes) (ttl : Option U64)
  | delete (key : Bytes)
  | query (query : String) (params : Option Bytes)
  | batch (operations : List BatchOp)
  | subscribe (pattern : String)
  | unsubscribe (subscriptionId : U64)
  | auth (token : String)
  | notification (subscriptionId : U64) (operation : Byte) (key : String)
      (newValue oldValue : Option Bytes) (timestamp : U64)
  | getResponse (value : Option Bytes)
  | error (code message : String)

namespace Content

def message (requestId : U32) : Content → BinaryMessage
  | .get key => .get requestId key
  | .set key value ttl => .set requestId key value ttl
  | .delete key => .delete requestId key
  | .query sql params => .query requestId sql params
  | .batch operations => .batch requestId operations
  | .subscribe pattern => .subscribe requestId pattern
  | .unsubscribe subscriptionId => .unsubscribe requestId subscriptionId
  | .auth token => .auth requestId token
  | .notification subscriptionId operation key newValue oldValue timestamp =>
      .notification requestId subscriptionId operation key newValue oldValue timestamp
  | .getResponse value => .getResponse requestId value
  | .error code text => .error requestId code text

/-- The parse function for this kind of message returns what the message was built from.  Queries
and batches have no parse function. -/
def ParsedFrom (payload : Bytes) : Content → Prop
  | .get key => parseGet payload = .ok key
  | .set key value ttl => parseSet payload = .ok (key, value, ttl)
  | .delete key => parseDelete payload = .ok key
  | .query _ _ => True
  | .batch _ => True
  | .subscribe pattern => parseSubscribe payload = .ok pattern
  | .unsubscribe subscriptionId => parseUnsubscribe payload = .ok subscriptionId
  | .auth token => parseAuthToken payload = .ok token
  | .notification subscriptionId operation key newValue oldValue timestamp =>
      parseNotification payload = .ok (subscriptionId, operation, key, newValue, oldValue, timestamp)
  | .getResponse value => parseGetResponse payload = .ok value
  | .error code text => parseError payload = .ok (code, text)

end Content

/-! ## Messages are read back -/

theorem index_parses (byte : Byte) : index.Parses [byte] byte :=
  (slice_parses [byte]).bind_pure (Parses.pure byte)

theorem number_parses {width value : Nat} (fits : value < 256 ^ width) :
    (number width).Parses (toLe width value) value := by
  have bytes := @slice_parses BinaryProtocolError (toLe width value)
  rw [toLe_length] at bytes
  refine bytes.bind_pure ?_
  rw [ofLe_toLe_of_lt fits]
  exact Parses.pure value

theorem messageType_parses (msgType : MessageType) :
    (messageType msgType.toU16).Parses [] msgType := by
  rw [messageType, MessageType.fromU16_toU16]
  exact Parses.pure msgType

/-- What follows the first five bytes of a message is read back. -/
theorem decodeFields_parses {message : BinaryMessage}
    (small : message.payload.length ≤ maxPayloadSize) :
    decodeFields.Parses ([message.flags] ++ (toLe 2 message.msgType.toU16 ++
      (toLe 4 message.requestId.val ++ (toLe 4 message.payload.length ++ message.payload))))
      message := by
  have bounded : message.payload.length < 256 ^ 4 := small.trans_lt (by decide)
  refine (index_parses _).bind ((number_parses message.msgType.toU16_lt).bind
    ((number_parses message.requestId.isLt).bind ((number_parses bounded).bind ?_)))
  have rest : (if maxPayloadSize < message.payload.length then
      fail (.payloadTooLarge message.payload.length)
    else do
      let payload ← read (fun _ => BinaryProtocolError.truncatedMessage) message.payload.length
      pure ⟨message.msgType, Fin.ofNat _ message.requestId.val, message.flags, payload⟩ :
        Decoder BinaryProtocolError BinaryMessage).Parses message.payload message := by
    rw [if_neg (not_lt.mpr small), Fin.ofNat_val_eq_self]
    exact (read_parses _ _).bind_pure (Parses.pure message)
  exact (messageType_parses message.msgType).bind rest

theorem remaining_bind_ok {α : Type} {next : Nat → Decoder BinaryProtocolError α} (bytes : Bytes) :
    (remaining >>= next) bytes 0 = next bytes.length bytes 0 :=
  bind_ok (remaining_eq (Nat.zero_le _))

/-- Sixteen bytes that start as messages do are a header. -/
theorem checkHeader_eq {rest : Bytes} (enough : 11 ≤ rest.length) :
    checkHeader (magic ++ [version] ++ rest) 0 = ⟨.ok (), 5, []⟩ := by
  have size : (magic ++ [version] ++ rest).length = rest.length + 5 := by
    simp [magic]
  have long : ¬ (magic ++ [version] ++ rest).length < headerSize := by
    rw [size, headerSize]
    omega
  have start : (slice 4 : Decoder BinaryProtocolError Bytes) (magic ++ [version] ++ rest) 0 =
      ⟨.ok magic, 4, []⟩ := by
    have reads := @slice_parses BinaryProtocolError magic [] ([version] ++ rest)
    rw [List.nil_append, ← List.append_assoc] at reads
    exact reads
  have found : index (magic ++ [version] ++ rest) 4 = ⟨.ok version, 5, []⟩ :=
    index_parses version magic rest
  rw [checkHeader, remaining_bind_ok, if_neg long, bind_ok start, if_neg (not_not.mpr rfl),
    bind_ok found]
  rfl

/-- A message is read back from its bytes whatever follows them. -/
theorem decode_encode {message : BinaryMessage} (small : message.payload.length ≤ maxPayloadSize)
    (suffix : Bytes) :
    ∃ code, encode message = .ok code ∧ decode (code ++ suffix) = .ok message := by
  have short : message.payload.length < 2 ^ 32 := small.trans_lt (by decide)
  refine ⟨_, if_neg (by rw [Nat.mod_eq_of_lt short]; exact not_lt.mpr small), ?_⟩
  rw [Nat.mod_eq_of_lt short]
  have fields := decodeFields_parses small (magic ++ [version]) suffix
  have enough : 11 ≤ ([message.flags] ++ (toLe 2 message.msgType.toU16 ++
      (toLe 4 message.requestId.val ++ (toLe 4 message.payload.length ++ message.payload))) ++
        suffix).length := by
    simp only [List.length_append, toLe_length, List.length_singleton]
    omega
  have checked := checkHeader_eq enough
  rw [← List.append_assoc (magic ++ [version])] at checked
  have same : magic ++ [version] ++ [message.flags] ++ toLe 2 message.msgType.toU16 ++
      toLe 4 message.requestId.val ++ toLe 4 message.payload.length ++ message.payload ++ suffix =
        magic ++ [version] ++ ([message.flags] ++ (toLe 2 message.msgType.toU16 ++
          (toLe 4 message.requestId.val ++ (toLe 4 message.payload.length ++ message.payload)))) ++
            suffix := by
    simp only [List.append_assoc]
  have place : (magic ++ [version]).length = 5 := rfl
  rw [place] at fields
  rw [decode, decodeMessage, same, bind_ok checked, fields]

/-! ## Payloads are read back -/

section Payload

variable {ε : Type} (missing : ε)

theorem readBytes_parses (data : Bytes) :
    (readBytes missing).ParsesIff True (writeBytes data) data :=
  Leb128.prefixed_parses data

theorem readString_parses (s : String) :
    (readString missing).ParsesIff True (writeString s) s := by
  refine (readBytes_parses missing (utf8 s)).bind_pure ?_
  rw [fromUtf8_utf8]
  exact Parses.pure s

theorem readU64_parses (value : U64) : (readU64 missing).Parses (writeU64 value) value := by
  have bytes := read_parses (fun _ => missing) (writeU64 value)
  rw [writeU64, toLe_length] at bytes
  refine bytes.bind_pure ?_
  rw [ofLe_toLe_u64, Fin.ofNat_val_eq_self]
  exact Parses.pure value

end Payload

/-- What is read back wherever it stands is parsed from a payload that starts with it. -/
theorem outcome_of_parses {ε α : Type} {decoder : Decoder ε α} {code : Bytes} {value : α}
    (small : code.length ≤ maxPayloadSize) (parses : decoder.ParsesIff True code value) :
    (decoder code 0).outcome = .ok value := by
  have ends := parses [] [] (by
    rw [List.nil_append, List.append_nil]
    exact small.trans_lt (by decide))
  rw [List.nil_append, List.append_nil] at ends
  exact congrArg Result.outcome (ends.1 trivial)

theorem notificationValue_parses (missingFlag missingData : String) (value : Option Bytes) :
    (notificationValue missingFlag missingData).ParsesIff True (writeOption writeBytes value)
      value := by
  cases value with
  | none => exact ((byte_parses _ 0).bind_pure (Parses.pure none)).parsesIn
  | some data =>
      refine ((byte_parses _ 1).parsesIn.bind ((readBytes_parses _ data).bind_pure
        (Parses.pure (some data)))).congr and_self_iff

theorem getResponseValue_parses (value : Option Bytes) :
    getResponseValue.ParsesIff True (writeOption writeBytes value) value := by
  cases value with
  | none => exact ((byte_parses _ 0).bind_pure (Parses.pure none)).parsesIn
  | some data =>
      refine ((byte_parses _ 1).parsesIn.bind ((readBytes_parses _ data).bind_pure
        (Parses.pure (some data)))).congr and_self_iff

theorem setFields_parses (key value : Bytes) (ttl : Option U64) :
    setFields.ParsesIff True (writeBytes key ++ writeBytes value ++ writeOption writeU64 ttl)
      (key, value, ttl) := by
  rw [List.append_assoc]
  refine ((readBytes_parses _ key).bind (((readBytes_parses _ value).bind ?_).congr
    and_self_iff)).congr and_self_iff
  cases ttl with
  | none => exact ((byte_parses _ 0).bind_pure (Parses.pure (key, value, none))).parsesIn
  | some time =>
      exact ((byte_parses _ 1).bind ((readU64_parses _ time).bind_pure
        (Parses.pure (key, value, some time)))).parsesIn

theorem errorFields_parses (code message : String) :
    errorFields.ParsesIff True (writeString code ++ writeString message) (code, message) :=
  ((readString_parses _ code).bind ((readString_parses _ message).bind_pure
    (Parses.pure (code, message)))).congr and_self_iff

theorem notificationFields_parses (subId : U64) (operation : Byte) (key : String)
    (newValue oldValue : Option Bytes) (timestamp : U64) :
    notificationFields.ParsesIff True (writeU64 subId ++ operation :: (writeString key ++
      writeOption writeBytes newValue ++ writeOption writeBytes oldValue ++ writeU64 timestamp))
      (subId, operation, key, newValue, oldValue, timestamp) := by
  refine remaining_bind_parsesIn fun left enough => ?_
  have long : ¬ left < 9 := by
    rw [List.length_append, writeU64, toLe_length, List.length_cons] at enough
    omega
  rw [if_neg long]
  rw [List.append_assoc (writeString key), List.append_assoc (writeString key),
    List.append_assoc (writeOption writeBytes newValue)]
  have id : (number 8).Parses (writeU64 subId) subId.val := number_parses subId.isLt
  refine (id.parsesIn.bind ((index_parses operation).parsesIn.bind ((readString_parses _ key).bind
    ((notificationValue_parses _ _ newValue).bind ((notificationValue_parses _ _ oldValue).bind
      (((readU64_parses _ timestamp).bind_pure ?_).parsesIn)))))).congr (by simp)
  rw [Fin.ofNat_val_eq_self]
  exact Parses.pure _

theorem parsedFrom_message (requestId : U32) (content : Content)
    (small : (content.message requestId).payload.length ≤ maxPayloadSize) :
    content.ParsedFrom (content.message requestId).payload := by
  cases content with
  | get key => exact outcome_of_parses small (readBytes_parses _ key)
  | set key value ttl => exact outcome_of_parses small (setFields_parses key value ttl)
  | delete key => exact outcome_of_parses small (readBytes_parses _ key)
  | query sql params => trivial
  | batch operations => trivial
  | subscribe pattern => exact outcome_of_parses small (readString_parses _ pattern)
  | unsubscribe subscriptionId =>
      exact outcome_of_parses small (readU64_parses _ subscriptionId).parsesIn
  | auth token => exact outcome_of_parses small (readString_parses _ token)
  | notification subscriptionId operation key newValue oldValue timestamp =>
      exact outcome_of_parses small
        (notificationFields_parses subscriptionId operation key newValue oldValue timestamp)
  | getResponse value => exact outcome_of_parses small (getResponseValue_parses value)
  | error code text => exact outcome_of_parses small (errorFields_parses code text)

/-! ## Any bytes -/

section Anything

variable {ε α β : Type} {bytes : Bytes} {cursor : Nat}

theorem index_bind_safe {next : Byte → Decoder BinaryProtocolError α} (room : cursor < bytes.length)
    (rest : ∀ value, (next value).Safe bytes (cursor + 1)) :
    (index >>= next).Safe bytes cursor := by
  have reads : index bytes cursor = ⟨.ok _, cursor + 1, []⟩ := bind_ok (slice_eq room)
  exact Safe.bind_ok reads (Nat.le_succ cursor) (rest _)

theorem number_bind_safe {next : Nat → Decoder BinaryProtocolError α} {width : Nat}
    (room : cursor + width ≤ bytes.length)
    (rest : ∀ value, (next value).Safe bytes (cursor + width)) :
    (number width >>= next).Safe bytes cursor := by
  have reads : number width bytes cursor = ⟨.ok _, cursor + width, []⟩ := bind_ok (slice_eq room)
  exact Safe.bind_ok reads (Nat.le_add_right cursor width) (rest _)

theorem fail_bind_safe {next : β → Decoder BinaryProtocolError α} (error : BinaryProtocolError)
    (within : cursor ≤ bytes.length) : (fail error >>= next).Safe bytes cursor :=
  fun _ => within

theorem messageType_bind_safe {next : MessageType → Decoder BinaryProtocolError α} {raw : Nat}
    (within : cursor ≤ bytes.length) (rest : ∀ msgType, (next msgType).Safe bytes cursor) :
    (messageType raw >>= next).Safe bytes cursor := by
  unfold messageType
  cases MessageType.fromU16 raw with
  | none => exact fail_bind_safe _ within
  | some msgType => exact Safe.bind_ok rfl le_rfl (rest msgType)

/-- After its check there are eleven more bytes of a header. -/
theorem checkHeader_bind_safe {next : Unit → Decoder BinaryProtocolError α}
    (rest : headerSize ≤ bytes.length → (next ()).Safe bytes 5) :
    (checkHeader >>= next).Safe bytes 0 := by
  rw [checkHeader, bind_assoc]
  refine Safe.bind_ok (remaining_eq (Nat.zero_le _)) le_rfl ?_
  split
  next => exact fail_bind_safe _ (Nat.zero_le _)
  next long =>
    have enough : headerSize ≤ bytes.length := not_lt.mp long
    have room := enough
    unfold headerSize at room
    rw [bind_assoc]
    refine Safe.bind_ok (slice_eq (by omega)) (Nat.zero_le _) ?_
    split
    next => exact fail_bind_safe _ (by omega)
    next =>
      rw [bind_assoc]
      refine index_bind_safe (by omega) fun found => ?_
      split
      next => exact fail_bind_safe _ (by omega)
      next => exact Safe.bind_ok rfl le_rfl (rest enough)

theorem decode_returns (data : Bytes) (cause : Halt) : decode data ≠ .halt cause := by
  have safe : decodeMessage.Safe data 0 := by
    refine checkHeader_bind_safe fun enough => ?_
    unfold headerSize at enough
    refine index_bind_safe (by omega) fun flags => number_bind_safe (by omega) fun msgTypeRaw =>
      number_bind_safe (by omega) fun requestId => number_bind_safe (by omega) fun payloadLen =>
        messageType_bind_safe (by omega) fun msgType => ?_
    split
    next => exact Safe.fail _ (by omega)
    next =>
      exact (read_safe _ _ (by omega)).bind fun payload final _ within => Safe.pure _ within
  exact fun halted => safe.not_halts ⟨cause, halted⟩

theorem parseHeader_returns (data : Bytes) (cause : Halt) : parseHeader data ≠ .halt cause := by
  have safe : header.Safe data 0 := by
    refine checkHeader_bind_safe fun enough => ?_
    unfold headerSize at enough
    exact index_bind_safe (by omega) fun flags => number_bind_safe (by omega) fun msgTypeRaw =>
      messageType_bind_safe (by omega) fun msgType => number_bind_safe (by omega) fun requestId =>
        number_bind_safe (by omega) fun payloadLen => Safe.pure _ (by omega)
  exact fun halted => safe.not_halts ⟨cause, halted⟩

/-! ## Layouts of payloads -/

/-- A part of a payload, as far as a parse function reads it. -/
inductive Part where
  | bytes
  | text
  | fixed (count : Nat)
  | optional (there : Byte → Bool)

/-- The byte string after its length at the front, and what follows it, if the length has at most
ten bytes. -/
def shortField (bytes : Bytes) : Option (Bytes × Bytes) :=
  if Leb128.Continues 10 bytes then none else Leb128.field bytes

/-- Reading the parts at the end of so many bytes comes to a length that leads out of the address
space. -/
def Overruns (size : Nat) : List Part → Bytes → Prop
  | [], _ => False
  | .bytes :: parts, rest => Leb128.Overflows size rest ∨
      ∃ code after, shortField rest = some (code, after) ∧ Overruns size parts after
  | .text :: parts, rest => Leb128.Overflows size rest ∨
      ∃ code after, shortField rest = some (code, after) ∧ (fromUtf8 code).isSome ∧
        Overruns size parts after
  | .fixed count :: parts, rest => count ≤ rest.length ∧ Overruns size parts (rest.drop count)
  | .optional _ :: _, [] => False
  | .optional there :: parts, flag :: rest =>
      if there flag then
        Leb128.Overflows size rest ∨
          ∃ code after, shortField rest = some (code, after) ∧ Overruns size parts after
      else
        Overruns size parts rest

/-- The decoder stops the process exactly if the lengths of these parts do. -/
def Stops (decoder : Decoder ε α) (parts : List Part) : Prop :=
  ∀ bytes cursor, cursor ≤ bytes.length →
    (decoder.Halts bytes cursor ↔ Overruns bytes.length parts (bytes.drop cursor))

theorem Stops.safe {decoder : Decoder ε α}
    (safe : ∀ bytes cursor, cursor ≤ bytes.length → decoder.Safe bytes cursor) :
    Stops decoder [] :=
  fun bytes cursor within => iff_of_false (safe bytes cursor within).not_halts id

theorem Stops.pure (value : α) : Stops (Pure.pure value : Decoder ε α) [] :=
  Stops.safe fun _ _ within => Safe.pure value within

/-- What follows a byte string stands where its decoder ends. -/
theorem suffix_of_shortField {code after : Bytes}
    (found : shortField (bytes.drop cursor) = some (code, after)) : after <:+ bytes := by
  unfold shortField at found
  split at found
  next => cases found
  next => exact (Leb128.suffix_of_field found).trans (List.drop_suffix cursor bytes)

/-- A byte string is read, its length leads out of the address space, or it is missing. -/
theorem readBytes_bind_halts {missing : ε} {next : Bytes → Decoder ε α}
    (within : cursor ≤ bytes.length) :
    (readBytes missing >>= next).Halts bytes cursor ↔
      Leb128.Overflows bytes.length (bytes.drop cursor) ∨
        ∃ code after, shortField (bytes.drop cursor) = some (code, after) ∧
          (next code).Halts bytes (bytes.length - after.length) := by
  by_cases continues : Leb128.Continues 10 (bytes.drop cursor)
  · have fails : readBytes missing bytes cursor = ⟨.err missing, cursor + 10, []⟩ := by
      rw [readBytes, Leb128.prefixed_long continues]
      rfl
    refine iff_of_false (not_halts_of_err (bind_err fails)) ?_
    rintro (overflows | ⟨code, after, found, -⟩)
    · unfold Leb128.Overflows at overflows
      split at overflows
      next => exact overflows
      next => exact overflows.1 continues
    · rw [shortField, if_pos continues] at found
      cases found
  · by_cases overflows : Leb128.Overflows bytes.length (bytes.drop cursor)
    · exact iff_of_true (Halts.bind ⟨.panic, Leb128.prefixed_overflows overflows⟩) (.inl overflows)
    · have ends := @Leb128.prefixed_eq _ missing (fail missing) _ _ within continues overflows
      rw [or_iff_right overflows, shortField, if_neg continues]
      split at ends
      next code after found =>
        rw [readBytes, halts_bind_ok ends.1, found]
        constructor
        · exact fun halts => ⟨code, after, rfl, halts⟩
        · rintro ⟨_, _, ⟨⟩, halts⟩
          exact halts
      next none =>
        obtain ⟨final, read⟩ := ends
        refine iff_of_false (not_halts_of_err (bind_err read)) ?_
        rintro ⟨code, after, found, -⟩
        rw [none] at found
        cases found

section Next

variable {missing : ε} {parts : List Part}

theorem Stops.at_suffix {decoder : Decoder ε α} (stops : Stops decoder parts) {after : Bytes}
    (suffix : after <:+ bytes) : decoder.Halts bytes (bytes.length - after.length) ↔
      Overruns bytes.length parts after := by
  have there := stops bytes (bytes.length - after.length) (Nat.sub_le _ _)
  rwa [← List.suffix_iff_eq_drop.mp suffix] at there

theorem Stops.readBytes {next : Bytes → Decoder ε α} (rest : ∀ code, Stops (next code) parts) :
    Stops (readBytes missing >>= next) (.bytes :: parts) := by
  intro bytes cursor within
  rw [readBytes_bind_halts within, Overruns]
  refine or_congr_right (exists_congr fun code => exists_congr fun after => and_congr_right ?_)
  exact fun found => (rest code).at_suffix (suffix_of_shortField found)

theorem Stops.readString {next : String → Decoder ε α} (rest : ∀ text, Stops (next text) parts) :
    Stops (readString missing >>= next) (.text :: parts) := by
  intro bytes cursor within
  rw [BinaryProtocol.readString, bind_assoc, readBytes_bind_halts within, Overruns]
  refine or_congr_right (exists_congr fun code => exists_congr fun after => and_congr_right ?_)
  intro found
  cases fromUtf8 code with
  | none => exact iff_of_false (not_halts_of_err (bind_err rfl)) (fun valid => nomatch valid.1)
  | some text =>
      rw [halts_bind_ok rfl]
      exact ((rest text).at_suffix (suffix_of_shortField found)).trans (and_iff_right rfl).symm

theorem Stops.byte {next : Byte → Decoder ε α} {there : Byte → Bool}
    (rest : ∀ flag, Stops (next flag) (if there flag then .bytes :: parts else parts)) :
    Stops (byte missing >>= next) (.optional there :: parts) := by
  intro bytes cursor within
  by_cases room : cursor < bytes.length
  · rw [halts_bind_ok (byte_eq room), List.drop_eq_getElem_cons room, Overruns,
      rest _ bytes (cursor + 1) room]
    split
    next => rw [Overruns]
    next => exact Iff.rfl
  · rw [List.drop_of_length_le (not_lt.mp room), Overruns]
    exact iff_of_false (not_halts_of_err (bind_err (byte_eq_err (not_lt.mp room)))) id

end Next

/-! The parse functions, by their layouts. -/

theorem getKey_stops : Stops getKey [.bytes] := by
  rw [getKey, ← bind_pure (readBytes _)]
  exact Stops.readBytes fun key => Stops.pure key

theorem setFields_stops : Stops setFields [.bytes, .bytes] := by
  refine Stops.readBytes fun key => Stops.readBytes fun value => Stops.safe ?_
  intro bytes cursor within
  refine byte_bind_safe within fun hasTtl room => ?_
  split
  next =>
    rw [readU64, bind_assoc]
    exact (read_safe _ 8 room).bind fun _ _ _ within => Safe.pure _ within
  next => exact Safe.pure _ room

theorem notificationValue_stops {next : Option Bytes → Decoder BinaryProtocolError α}
    {missingFlag missingData : String} {parts : List Part}
    (rest : ∀ value, Stops (next value) parts) :
    Stops (notificationValue missingFlag missingData >>= next)
      (.optional (· = 1) :: parts) := by
  rw [notificationValue, bind_assoc]
  refine Stops.byte fun flag => ?_
  by_cases there : flag = 1
  · simp only [there, if_true, decide_true]
    rw [bind_assoc]
    exact Stops.readBytes fun value => rest _
  · simp only [there, if_false, decide_false, Bool.false_eq_true]
    exact rest none

theorem getResponseValue_stops : Stops getResponseValue [.optional (· ≠ 0)] := by
  refine Stops.byte fun found => ?_
  by_cases missing : found = 0
  · simp only [missing, if_true, ne_eq, not_true_eq_false, decide_false, Bool.false_eq_true,
      if_false]
    exact Stops.pure none
  · simp only [missing, if_false, ne_eq, not_false_eq_true, decide_true, if_true]
    exact Stops.readBytes fun value => Stops.pure (some value)

theorem readString_stops (missing : ε) : Stops (readString missing) [.text] := by
  rw [← bind_pure (readString missing)]
  exact Stops.readString fun text => Stops.pure text

theorem subscriptionId_stops : Stops subscriptionId [] :=
  Stops.safe fun _ _ within =>
    (read_safe _ 8 within).bind fun _ _ _ within => Safe.pure _ within

theorem errorFields_stops : Stops errorFields [.text, .text] :=
  Stops.readString fun code => Stops.readString fun message => Stops.pure (code, message)

theorem slice_bind_halts {next : Bytes → Decoder ε α} {count : Nat}
    (room : cursor + count ≤ bytes.length) : (slice count >>= next).Halts bytes cursor ↔
      (next ((bytes.drop cursor).take count)).Halts bytes (cursor + count) :=
  halts_bind_ok (slice_eq room)

theorem notificationFields_stops :
    Stops notificationFields [.fixed 9, .text, .optional (· = 1), .optional (· = 1)] := by
  intro bytes cursor within
  rw [notificationFields, halts_bind_ok (remaining_eq within), Overruns, List.length_drop]
  split
  next short =>
    exact iff_of_false (not_halts_of_err rfl) fun long => absurd long.1 (not_le.mpr short)
  next long =>
    have room : cursor + 9 ≤ bytes.length := by omega
    rw [notificationBody, number, bind_assoc, slice_bind_halts (by omega), halts_bind_ok rfl, index,
      bind_assoc, slice_bind_halts (by omega), halts_bind_ok rfl, and_iff_right (not_lt.mp long),
      List.drop_drop]
    have rest : ∀ subId operation, Stops (do
        let key ← readString (.invalidPayload "Missing key")
        let newValue ← notificationValue "Missing new_value flag" "Missing new_value data"
        let oldValue ← notificationValue "Missing old_value flag" "Missing old_value data"
        let timestamp ← readU64 (.invalidPayload "Missing timestamp")
        pure (Fin.ofNat _ subId, operation, key, newValue, oldValue, timestamp) :
          Decoder BinaryProtocolError (U64 × Byte × String × Option Bytes × Option Bytes × U64))
        [.text, .optional (· = 1), .optional (· = 1)] := by
      intro subId operation
      refine Stops.readString fun key => notificationValue_stops fun newValue =>
        notificationValue_stops fun oldValue => Stops.safe fun bytes cursor within => ?_
      rw [readU64, bind_assoc]
      exact (read_safe _ 8 within).bind fun _ _ _ within => Safe.pure _ within
    exact rest _ _ bytes (cursor + 9) room

end Anything

/-- The parse functions. -/
inductive Parser where
  | get
  | set
  | delete
  | getResponse
  | subscribe
  | unsubscribe
  | authToken
  | notification
  | error

namespace Parser

/-- The parts with lengths that a parse function reads, one after the other. -/
def layout : Parser → List Part
  | .get => [.bytes]
  | .set => [.bytes, .bytes]
  | .delete => [.bytes]
  | .getResponse => [.optional (· ≠ 0)]
  | .subscribe => [.text]
  | .unsubscribe => []
  | .authToken => [.text]
  | .notification => [.fixed 9, .text, .optional (· = 1), .optional (· = 1)]
  | .error => [.text, .text]

/-- The parse function returns a value or an error. -/
def Returns (payload : Bytes) : Parser → Prop
  | .get => ∀ cause, parseGet payload ≠ .halt cause
  | .set => ∀ cause, parseSet payload ≠ .halt cause
  | .delete => ∀ cause, parseDelete payload ≠ .halt cause
  | .getResponse => ∀ cause, parseGetResponse payload ≠ .halt cause
  | .subscribe => ∀ cause, parseSubscribe payload ≠ .halt cause
  | .unsubscribe => ∀ cause, parseUnsubscribe payload ≠ .halt cause
  | .authToken => ∀ cause, parseAuthToken payload ≠ .halt cause
  | .notification => ∀ cause, parseNotification payload ≠ .halt cause
  | .error => ∀ cause, parseError payload ≠ .halt cause

theorem returns_of_stops {ε α : Type} {decoder : Decoder ε α} {parts : List Part}
    (stops : Stops decoder parts) (payload : Bytes) :
    (∀ cause, (decoder payload 0).outcome ≠ .halt cause) ↔
      ¬ Overruns payload.length parts payload := by
  have there := stops payload 0 (Nat.zero_le _)
  rw [List.drop_zero] at there
  rw [← there, Halts, not_exists]

/-- A parse function returns exactly if none of the lengths it reads leads out of the address
space. -/
theorem returns_iff (parser : Parser) (payload : Bytes) :
    parser.Returns payload ↔ ¬ Overruns payload.length parser.layout payload := by
  cases parser with
  | get => exact returns_of_stops getKey_stops payload
  | set => exact returns_of_stops setFields_stops payload
  | delete => exact returns_of_stops getKey_stops payload
  | getResponse => exact returns_of_stops getResponseValue_stops payload
  | subscribe => exact returns_of_stops (readString_stops _) payload
  | unsubscribe => exact returns_of_stops subscriptionId_stops payload
  | authToken => exact returns_of_stops (readString_stops _) payload
  | notification => exact returns_of_stops notificationFields_stops payload
  | error => exact returns_of_stops errorFields_stops payload

end Parser

/-- A message whose payload is within its limit is read back whatever follows it, and is parsed as
it was built; the header of any bytes is read or rejected; and any payload is parsed or rejected if
and only if none of the lengths that are reached in it leads out of the address space. -/
theorem codec (requestId : U32) :
    (∀ content : Content, (content.message requestId).payload.length ≤ maxPayloadSize →
      (∀ suffix, ∃ code, encode (content.message requestId) = .ok code ∧
        decode (code ++ suffix) = .ok (content.message requestId)) ∧
      content.ParsedFrom (content.message requestId).payload) ∧
    (∀ data cause, decode data ≠ .halt cause ∧ parseHeader data ≠ .halt cause) ∧
    ∀ (parser : Parser) (payload : Bytes),
      parser.Returns payload ↔ ¬ Overruns payload.length parser.layout payload :=
  ⟨fun content small => ⟨decode_encode small, parsedFrom_message requestId content small⟩,
    fun data cause => ⟨decode_returns data cause, parseHeader_returns data cause⟩,
    Parser.returns_iff⟩

/-- A key whose length is the largest number. -/
def longKey : Bytes := List.replicate 9 0xFF ++ [1]

/-- The end of a key may lie outside of the address space. -/
theorem not_returns_longKey : ¬ ∀ (parser : Parser) (payload : Bytes), parser.Returns payload :=
  fun returns => returns .get longKey .panic rfl

theorem codec_set :
    (∃ code, encode (.set 7 [1] [2, 3] (some 9)) = .ok code ∧
        decode (code ++ [0]) = .ok (.set 7 [1] [2, 3] (some 9))) ∧
      parseSet (BinaryMessage.set 7 [1] [2, 3] (some 9)).payload = .ok ([1], [2, 3], some 9) := by
  have sent := (codec 7).1 (.set [1] [2, 3] (some 9)) (by decide +kernel)
  exact ⟨sent.1 [0], sent.2⟩

end JouleDB.BinaryProtocol
