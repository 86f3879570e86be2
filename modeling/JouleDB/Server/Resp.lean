import JouleDB.Lib.Walk
import JouleDB.Types.Value

/-!
# The RESP server

A value is one line, a line and so many bytes, or a line and so many values.  Lines end with a line
break, so a text in a line must not contain one.

The parser reads line by line.  What it runs into on arbitrary bytes is told by a second reader that
builds no value.  A command is answered with one value, whose texts may come from the client or from
the executor of its queries.
-/

namespace JouleDB.Resp

open JouleDB.Types (I64 utf8 fromUtf8 fromUtf8_utf8)

/-- A value of the protocol. -/
inductive RespValue where
  | simpleString (s : String)
  | error (s : String)
  | integer (n : I64)
  | bulkString (data : Option Bytes)
  | nullArray
  | array (items : List RespValue)

namespace RespValue

mutual

/-- Encode to the wire format. -/
def encode : RespValue → Bytes
  | .simpleString s => utf8 ("+" ++ s ++ "\r\n")
  | .error s => utf8 ("-" ++ s ++ "\r\n")
  | .integer n => utf8 (":" ++ toString n.toInt ++ "\r\n")
  | .bulkString none => utf8 "$-1\r\n"
  | .bulkString (some data) => utf8 ("$" ++ toString data.length ++ "\r\n") ++ data ++ utf8 "\r\n"
  | .nullArray => utf8 "*-1\r\n"
  | .array items => utf8 ("*" ++ toString items.length ++ "\r\n") ++ encodeItems items

def encodeItems : List RespValue → Bytes
  | [] => []
  | item :: items => encode item ++ encodeItems items

end

def bulk (s : String) : RespValue := .bulkString (some (utf8 s))

def ok : RespValue := .simpleString "OK"

def pong : RespValue := .simpleString "PONG"

def err (msg : String) : RespValue := .error ("ERR " ++ msg)

end RespValue

/-! ## Parsing -/

inductive IoKind where
  | unexpectedEof
  | invalidData
  deriving DecidableEq

inductive RespError where
  | io (kind : IoKind)
  | protocol (reason : String)
  deriving DecidableEq

open Decoder

/-- The bytes up to the end of the line. -/
def takeLine : Bytes → Bytes
  | [] => []
  | byte :: rest => if byte = 10 then [10] else byte :: takeLine rest

/-- Read a line. -/
def readLine : Decoder RespError String := fun bytes => do
  let cursor ← Exec.get
  let line := takeLine (bytes.drop cursor)
  Exec.modify (· + line.length)
  match fromUtf8 line with
  | none => Exec.fail (.io .invalidData)
  | some text => if line = [] then Exec.fail (.io .unexpectedEof) else pure text

/-- Remove every pair of a carriage return and a line feed at the front of a reversed line. -/
def dropCrLf : List Char → List Char
  | '\n' :: '\r' :: rest => dropCrLf rest
  | rest => rest

/-- The line without the line break at its end. -/
def trimEnd (line : List Char) : List Char :=
  ((dropCrLf line.reverse).dropWhile (· = '\n')).reverse

/-- The number of some decimal digits. -/
def parseDigits (digits : List Char) : Option Nat :=
  if digits ≠ [] ∧ digits.all Char.isDigit then some (Nat.ofDigitChars 10 digits 0) else none

/-- Parse an integer of 64 bits. -/
def parseI64 : List Char → Option I64
  | '-' :: digits =>
      (parseDigits digits).bind fun n => if n ≤ 2 ^ 63 then some (BitVec.ofInt 64 (-n)) else none
  | '+' :: digits =>
      (parseDigits digits).bind fun n => if n < 2 ^ 63 then some (BitVec.ofInt 64 n) else none
  | digits =>
      (parseDigits digits).bind fun n => if n < 2 ^ 63 then some (BitVec.ofInt 64 n) else none

/-- White space of Unicode. -/
def isWhitespace (c : Char) : Bool :=
  (9 ≤ c.toNat && c.toNat ≤ 13) || c.toNat = 0x20 || c.toNat = 0x85 || c.toNat = 0xA0 ||
    c.toNat = 0x1680 || (0x2000 ≤ c.toNat && c.toNat ≤ 0x200A) || c.toNat = 0x2028 ||
    c.toNat = 0x2029 || c.toNat = 0x202F || c.toNat = 0x205F || c.toNat = 0x3000

/-- The words of a line. -/
def splitWhitespace (line : List Char) : List (List Char) :=
  (line.splitOnP isWhitespace).filter (· ≠ [])

def maxBulkLen : Int := 16 * 1024 * 1024

def maxArrayLen : Int := 10000

def parseInteger (payload : List Char) : Decoder RespError RespValue :=
  match parseI64 payload with
  | none => fail (.protocol "invalid integer")
  | some n => pure (.integer n)

def parseBulk (payload : List Char) : Decoder RespError RespValue :=
  match parseI64 payload with
  | none => fail (.protocol "invalid bulk length")
  | some len =>
      if len.toInt < 0 then
        pure (.bulkString none)
      else if maxBulkLen < len.toInt then
        fail (.protocol ("bulk string length " ++ toString len.toInt ++ " exceeds maximum " ++
          toString maxBulkLen))
      else do
        let buf ← read (fun _ => .io .unexpectedEof) (len.toNat + 2)
        pure (.bulkString (some (buf.take len.toNat)))

/-- Read an array with a parser of the values in it. -/
def parseArray (value : Decoder RespError RespValue) (payload : List Char) :
    Decoder RespError RespValue :=
  match parseI64 payload with
  | none => fail (.protocol "invalid array length")
  | some count =>
      if count.toInt < 0 then
        pure .nullArray
      else if maxArrayLen < count.toInt then
        fail (.protocol ("array length " ++ toString count.toInt ++ " exceeds maximum " ++
          toString maxArrayLen))
      else do
        let items ← times value count.toNat
        pure (.array items)

/-- A line of words is a command. -/
def parseInline (line : List Char) : Decoder RespError RespValue :=
  let parts := splitWhitespace line
  if parts = [] then
    fail (.protocol "empty inline command")
  else
    pure (.array (parts.map fun part => .bulkString (some (utf8 (String.ofList part)))))

/-- Read what a line announces. -/
def parseMarked (value : Decoder RespError RespValue) (first : Char) (payload : List Char) :
    Decoder RespError RespValue :=
  match first with
  | '+' => pure (.simpleString (String.ofList payload))
  | '-' => pure (.error (String.ofList payload))
  | ':' => parseInteger payload
  | '$' => parseBulk payload
  | '*' => parseArray value payload
  | _ => parseInline (first :: payload)

/-- Parse a value with room for so many nested calls. -/
def parseResp : Nat → Decoder RespError RespValue
  | 0 => stop .crash
  | frames + 1 => do
      let line ← readLine
      match trimEnd line.toList with
      | [] => fail (.protocol "empty line")
      | first :: payload =>
          -- The line is cut after its first byte, which must be its first character.
          if first.utf8Size ≠ 1 then stop .panic else parseMarked (parseResp frames) first payload

/-! ## Commands -/

/-- A value in a row, as it is shown. -/
inductive Cell where
  | string (s : String)
  | null
  | other (text : String) (asI64 : Option I64)

structure QueryRequest where
  sql : String
  limit : Option Nat

structure QueryResponse where
  rows : List (List Cell)
  affectedRows : Option Nat

structure ConnectionState where
  authenticated : Bool
  selectedDb : Nat

/-- The connection and the database behind the executor. -/
structure Session (σ : Type) where
  connection : ConnectionState
  database : σ

inductive Command where
  | ping
  | auth
  | select
  | quit
  | hello
  | command
  | set
  | get
  | del
  | exists
  | incr
  | decr
  | hset
  | hget
  | hgetall
  | info
  | dbsize
  deriving DecidableEq

def Command.ofName : String → Option Command
  | "PING" => some .ping
  | "AUTH" => some .auth
  | "SELECT" => some .select
  | "QUIT" => some .quit
  | "HELLO" => some .hello
  | "COMMAND" => some .command
  | "SET" => some .set
  | "GET" => some .get
  | "DEL" => some .del
  | "EXISTS" => some .exists
  | "INCR" => some .incr
  | "DECR" => some .decr
  | "HSET" => some .hset
  | "HGET" => some .hget
  | "HGETALL" => some .hgetall
  | "INFO" => some .info
  | "DBSIZE" => some .dbsize
  | _ => none

/-- Double every single quote. -/
def escapeSql (s : String) : String :=
  String.ofList (s.toList.flatMap fun c => if c.toNat = 39 then [c, c] else [c])

/-- An unsigned number of 32 bits. -/
def parseU32 (text : List Char) : Option Nat :=
  (parseDigits (match text with
    | '+' :: digits => digits
    | digits => digits)).bind fun n => if n < 2 ^ 32 then some n else none

section Dispatch

-- The text of some bytes, with replacements for what is not text.
variable (lossy : Bytes → String)

def setRequest (key value : Bytes) : QueryRequest where
  sql := "INSERT INTO _kv (key, value) VALUES ('" ++ escapeSql (lossy key) ++ "', '" ++
    escapeSql (lossy value) ++ "') ON CONFLICT (key) DO UPDATE SET value = '" ++
      escapeSql (lossy value) ++ "'"
  limit := none

def getRequest (key : Bytes) : QueryRequest where
  sql := "SELECT value FROM _kv WHERE key = '" ++ escapeSql (lossy key) ++ "'"
  limit := some 1

def delRequest (key : Bytes) : QueryRequest where
  sql := "DELETE FROM _kv WHERE key = '" ++ escapeSql (lossy key) ++ "'"
  limit := none

def existsRequest (key : Bytes) : QueryRequest where
  sql := "SELECT 1 FROM _kv WHERE key = '" ++ escapeSql (lossy key) ++ "'"
  limit := some 1

def addRequest (key : Bytes) (delta : Int) : QueryRequest where
  sql := "INSERT INTO _kv (key, value) VALUES ('" ++ escapeSql (lossy key) ++ "', '" ++
    toString delta ++ "') ON CONFLICT (key) DO UPDATE SET value = CAST(CAST(value AS INTEGER) + " ++
      toString delta ++ " AS TEXT)"
  limit := none

def numberRequest (key : Bytes) : QueryRequest where
  sql := "SELECT CAST(value AS INTEGER) FROM _kv WHERE key = '" ++ escapeSql (lossy key) ++ "'"
  limit := some 1

def hsetRequest (hashKey field value : Bytes) : QueryRequest where
  sql := "INSERT INTO _hash (hash_key, field, value) VALUES ('" ++ escapeSql (lossy hashKey) ++
    "', '" ++ escapeSql (lossy field) ++ "', '" ++ escapeSql (lossy value) ++
      "') ON CONFLICT (hash_key, field) DO UPDATE SET value = '" ++ escapeSql (lossy value) ++ "'"
  limit := none

def hgetRequest (hashKey field : Bytes) : QueryRequest where
  sql := "SELECT value FROM _hash WHERE hash_key = '" ++ escapeSql (lossy hashKey) ++
    "' AND field = '" ++ escapeSql (lossy field) ++ "'"
  limit := some 1

def hgetallRequest (hashKey : Bytes) : QueryRequest where
  sql := "SELECT field, value FROM _hash WHERE hash_key = '" ++ escapeSql (lossy hashKey) ++
    "' ORDER BY field"
  limit := none

def dbsizeRequest : QueryRequest where
  sql := "SELECT COUNT(*) FROM _kv"
  limit := some 1

/-- How many rows an answer says were affected, as a signed number. -/
def QueryResponse.affected (response : QueryResponse) : Int :=
  (BitVec.ofNat 64 (response.affectedRows.getD 0)).toInt

/-- The first value of the first row. -/
def QueryResponse.firstCell (response : QueryResponse) : Option Cell :=
  response.rows.head?.bind List.head?

def Cell.asI64 : Cell → Option I64
  | .other _ asI64 => asI64
  | _ => none

def Cell.asStr : Cell → Option String
  | .string s => some s
  | _ => none

def getReply (response : QueryResponse) : RespValue :=
  match response.firstCell with
  | some (.string s) => .bulkString (some (utf8 s))
  | some (.other text _) => .bulkString (some (utf8 text))
  | some .null => .bulkString none
  | none => .bulkString none

def hgetReply (response : QueryResponse) : RespValue :=
  match response.firstCell with
  | some (.string s) => .bulkString (some (utf8 s))
  | _ => .bulkString none

def hgetallReply (response : QueryResponse) : RespValue :=
  .array (response.rows.flatMap fun row =>
    match row with
    | field :: value :: _ =>
        [RespValue.bulk (field.asStr.getD ""), RespValue.bulk (value.asStr.getD "")]
    | _ => [])

def numberReply (delta : Int) (response : QueryResponse) : RespValue :=
  match response.firstCell with
  | some cell => .integer (cell.asI64.getD 0)
  | none => .integer (BitVec.ofInt 64 delta)

def dbsizeReply (response : QueryResponse) : RespValue :=
  .integer ((response.firstCell.bind Cell.asI64).getD 0)

def helloReply : RespValue :=
  .array [.bulk "server", .bulk "jouledb", .bulk "version", .bulk "0.1.0", .bulk "proto",
    .integer 2, .bulk "mode", .bulk "standalone"]

def infoReply : RespValue :=
  .bulk ("# Server\r\njouledb_version:0.1.0\r\nredis_mode:standalone\r\n# Energy\r\n" ++
    "energy_aware:true\r\n")

def wrongArity (name : String) : RespValue :=
  .err ("wrong number of arguments for '" ++ name ++ "' command")

variable {σ : Type}

-- The executor of queries over a database, and the password that is configured.
variable (execute : QueryRequest → σ → Except String QueryResponse × σ)
variable (authPassword : Option String)

/-- A command on a connection. -/
abbrev Handler (σ α : Type) := Exec (Session σ) Empty Empty α

/-- Execute a query. -/
def ask (request : QueryRequest) : Handler σ (Except String QueryResponse) := fun session =>
  let answer := execute request session.database
  ⟨.ok answer.1, { session with database := answer.2 }, []⟩

/-- Execute a query and reply with its result or its error. -/
def askFor (request : QueryRequest) (reply : QueryResponse → RespValue) : Handler σ RespValue := do
  let answer ← ask execute request
  match answer with
  | .ok response => pure (reply response)
  | .error message => pure (.err message)

/-- Delete one key after the other, and count the rows. -/
def delAll : List Bytes → Int → Handler σ RespValue
  | [], deleted => pure (.integer (BitVec.ofInt 64 deleted))
  | key :: keys, deleted => do
      let answer ← ask execute (delRequest lossy key)
      match answer with
      | .ok response =>
          let total := deleted + response.affected
          if -2 ^ 63 ≤ total ∧ total < 2 ^ 63 then delAll keys total else Exec.stop .panic
      | .error _ => delAll keys deleted

/-- Count the keys that are there. -/
def existsAll : List Bytes → Int → Handler σ RespValue
  | [], count => pure (.integer (BitVec.ofInt 64 count))
  | key :: keys, count => do
      let answer ← ask execute (existsRequest lossy key)
      match answer with
      | .ok response => existsAll keys (if response.rows = [] then count else count + 1)
      | .error _ => existsAll keys count

/-- Set one field after the other, and count them. -/
def hsetAll (hashKey : Bytes) : List Bytes → Int → Handler σ RespValue
  | field :: value :: rest, count => do
      let answer ← ask execute (hsetRequest lossy hashKey field value)
      match answer with
      | .ok _ => hsetAll hashKey rest (count + 1)
      | .error _ => hsetAll hashKey rest count
  | _, count => pure (.integer (BitVec.ofInt 64 count))

def addTo (name : String) (delta : Int) : List Bytes → Handler σ RespValue
  | [] => pure (wrongArity name)
  | key :: _ => do
      let answer ← ask execute (addRequest lossy key delta)
      match answer with
      | .ok _ => askFor execute (numberRequest lossy key) (numberReply delta)
      | .error message => pure (.err message)

/-- Change the connection. -/
def changeConnection (change : ConnectionState → ConnectionState) : Handler σ Unit :=
  Exec.modify fun session => { session with connection := change session.connection }

def authenticate : List Bytes → Handler σ RespValue
  | [] => pure (wrongArity "auth")
  | password :: _ =>
      match authPassword with
      | some expected =>
          if lossy password = expected then do
            changeConnection fun state => { state with authenticated := true }
            pure .ok
          else
            pure (.error "WRONGPASS invalid password")
      | none => pure .ok

def selectDb : List Bytes → Handler σ RespValue
  | [] => pure (wrongArity "select")
  | name :: _ => do
      changeConnection fun state =>
        { state with selectedDb := (parseU32 (lossy name).toList).getD 0 }
      pure .ok

def run : Command → List Bytes → Handler σ RespValue
  | .ping, [] => pure .pong
  | .ping, message :: _ => pure (.bulkString (some message))
  | .auth, args => authenticate lossy authPassword args
  | .select, args => selectDb lossy args
  | .quit, _ => pure .ok
  | .hello, _ => pure helloReply
  | .command, _ => pure (.array [])
  | .set, key :: value :: _ => askFor execute (setRequest lossy key value) fun _ => .ok
  | .set, _ => pure (wrongArity "set")
  | .get, key :: _ => askFor execute (getRequest lossy key) getReply
  | .get, [] => pure (wrongArity "get")
  | .del, [] => pure (wrongArity "del")
  | .del, keys => delAll lossy execute keys 0
  | .exists, [] => pure (wrongArity "exists")
  | .exists, keys => existsAll lossy execute keys 0
  | .incr, args => addTo lossy execute "incr" 1 args
  | .decr, args => addTo lossy execute "decr" (-1) args
  | .hset, args =>
      if args.length < 3 ∨ args.length % 2 = 0 then
        pure (wrongArity "hset")
      else
        hsetAll lossy execute (args.headD []) args.tail 0
  | .hget, hashKey :: field :: _ => askFor execute (hgetRequest lossy hashKey field) hgetReply
  | .hget, _ => pure (wrongArity "hget")
  | .hgetall, hashKey :: _ => askFor execute (hgetallRequest lossy hashKey) hgetallReply
  | .hgetall, [] => pure (wrongArity "hgetall")
  | .info, _ => pure infoReply
  | .dbsize, _ => do
      let answer ← ask execute dbsizeRequest
      match answer with
      | .ok response => pure (dbsizeReply response)
      | .error _ => pure (.integer 0)

/-- Reply to a command. -/
def dispatchCommand (cmd : String) (args : List Bytes) : Handler σ RespValue :=
  match Command.ofName cmd with
  | some known => run lossy execute authPassword known args
  | none => pure (.err ("unknown command '" ++ cmd ++ "', with args beginning with: "))

end Dispatch

/-! ## Texts as bytes -/

/-- A text that does not contain a line break. -/
def NoBreak (s : String) : Prop := '\r' ∉ s.toList ∧ '\n' ∉ s.toList

instance (s : String) : Decidable (NoBreak s) := inferInstanceAs (Decidable (_ ∧ _))

theorem utf8_append (a b : String) : utf8 (a ++ b) = utf8 a ++ utf8 b := by
  unfold utf8
  rw [String.toUTF8, String.toByteArray_append, ByteArray.data_append, Array.toList_append,
    List.map_append]
  rfl

theorem utf8_eq (s : String) :
    utf8 s = (s.toList.flatMap String.utf8EncodeChar).map UInt8.toFin := by
  unfold utf8
  rw [String.toUTF8, ← String.utf8Encode_toList, List.utf8Encode]
  simp

/-- The bytes of other characters are not those of the first 128 ones. -/
theorem mem_utf8EncodeChar {byte : Byte} (ascii : byte.val < 128) (c : Char) :
    byte ∈ (String.utf8EncodeChar c).map UInt8.toFin ↔ c.toNat = byte.val := by
  have high : ∀ n : Nat, 128 ≤ n % 256 → byte ≠ (UInt8.ofNat n).toFin := by
    intro n large same
    have value : byte.val = n % 256 := by
      rw [same]
      rfl
    omega
  have size : c.toNat = c.val.toNat := rfl
  unfold String.utf8EncodeChar
  dsimp only
  split
  next low =>
    rw [List.map_cons, List.map_nil, List.mem_singleton, size]
    constructor
    · rintro rfl
      exact (Nat.mod_eq_of_lt (by omega)).symm
    · intro same
      refine Fin.ext ?_
      change byte.val = c.val.toNat % 256
      omega
  next large =>
    refine iff_of_false (fun member => ?_) (by omega)
    split at member
    next =>
      simp only [List.map_cons, List.map_nil, List.mem_cons, List.not_mem_nil, or_false] at member
      rcases member with same | same <;> exact high _ (by omega) same
    next =>
      split at member
      next =>
        simp only [List.map_cons, List.map_nil, List.mem_cons, List.not_mem_nil, or_false] at member
        rcases member with same | same | same <;> exact high _ (by omega) same
      next =>
        simp only [List.map_cons, List.map_nil, List.mem_cons, List.not_mem_nil, or_false] at member
        rcases member with same | same | same | same <;> exact high _ (by omega) same

/-- One of the first 128 characters is in a text if and only if its byte is. -/
theorem mem_utf8 {c : Char} {byte : Byte} (ascii : byte.val < 128) (same : c.toNat = byte.val)
    (s : String) : byte ∈ utf8 s ↔ c ∈ s.toList := by
  rw [utf8_eq, List.map_flatMap, List.mem_flatMap]
  constructor
  · rintro ⟨other, member, encoded⟩
    have equal := (mem_utf8EncodeChar ascii other).mp encoded
    rwa [← Char.toNat_inj.mp (equal.trans same.symm)]
  · exact fun member => ⟨c, member, (mem_utf8EncodeChar ascii c).mpr same⟩

theorem cr_mem_utf8 (s : String) : (13 : Byte) ∈ utf8 s ↔ '\r' ∈ s.toList :=
  mem_utf8 (by decide) rfl s

theorem lf_mem_utf8 (s : String) : (10 : Byte) ∈ utf8 s ↔ '\n' ∈ s.toList :=
  mem_utf8 (by decide) rfl s

/-! ## Lines -/

theorem takeLine_append {line : Bytes} (noLf : 10 ∉ line) (rest : Bytes) :
    takeLine (line ++ 10 :: rest) = line ++ [10] := by
  induction line with
  | nil => rfl
  | cons byte line ih =>
      rw [List.mem_cons, not_or] at noLf
      rw [List.cons_append, takeLine, if_neg (Ne.symm noLf.1), ih noLf.2, List.cons_append]

theorem readLine_parses {text : String} (noLf : '\n' ∉ text.toList) :
    readLine.Parses (utf8 (text ++ "\n")) (text ++ "\n") := by
  intro front back
  have line : utf8 (text ++ "\n") = utf8 text ++ [10] := utf8_append text "\n"
  have rest : (front ++ utf8 (text ++ "\n") ++ back).drop front.length =
      utf8 text ++ 10 :: back := by
    rw [line, List.append_assoc, List.drop_left, List.append_assoc, List.singleton_append]
  have read : takeLine ((front ++ utf8 (text ++ "\n") ++ back).drop front.length) =
      utf8 (text ++ "\n") := by
    rw [rest, takeLine_append (fun member => noLf ((lf_mem_utf8 text).mp member)), line]
  have filled : utf8 (text ++ "\n") ≠ [] := by
    rw [line]
    exact List.append_ne_nil_of_right_ne_nil _ (List.cons_ne_nil _ _)
  unfold readLine
  rw [Exec.get_bind, Exec.modify_bind, read, fromUtf8_utf8]
  exact congrFun (if_neg filled) _

theorem trimEnd_append {first : Char} {text : List Char} (noBreak : '\n' ∉ first :: text) :
    trimEnd (first :: text ++ ['\r', '\n']) = first :: text := by
  have stays : ∀ {line : List Char}, '\n' ∉ line → dropCrLf line = line := by
    intro line noLf
    unfold dropCrLf
    split
    next => exact absurd List.mem_cons_self noLf
    next => rfl
  have back : '\n' ∉ (first :: text).reverse := fun member => noBreak (List.mem_reverse.mp member)
  have drops : dropCrLf (first :: text ++ ['\r', '\n']).reverse = (first :: text).reverse := by
    rw [List.reverse_append]
    exact stays back
  have keeps : ∀ {line : List Char}, '\n' ∉ line → line.dropWhile (· = '\n') = line := by
    intro line noLf
    cases line with
    | nil => rfl
    | cons c rest =>
        have apart : c ≠ '\n' := fun same => noLf (same ▸ List.mem_cons_self)
        rw [List.dropWhile_cons_of_neg (by simpa using apart)]
  rw [trimEnd, drops, keeps back, List.reverse_reverse]


/-! ## Numbers -/

theorem parseDigits_toString (n : Nat) : parseDigits (toString n).toList = some n := by
  rw [Nat.toString_eq_repr, Nat.toList_repr, parseDigits]
  have filled : Nat.toDigits 10 n ≠ [] := by
    rw [Nat.toDigits_eq_if (by decide)]
    split
    · exact List.cons_ne_nil _ _
    · exact List.append_ne_nil_of_right_ne_nil _ (List.cons_ne_nil _ _)
  have digits : (Nat.toDigits 10 n).all Char.isDigit := by
    rw [List.all_eq_true]
    exact fun c member => Nat.isDigit_of_mem_toDigits (by decide) (by decide) member
  rw [if_pos ⟨filled, digits⟩, Nat.ofDigitChars_ten_toDigits]

theorem noBreak_toString (n : Nat) : '\r' ∉ (toString n).toList ∧ '\n' ∉ (toString n).toList := by
  rw [Nat.toString_eq_repr, Nat.toList_repr]
  constructor <;> intro member <;>
    exact absurd (Nat.isDigit_of_mem_toDigits (by decide) (by decide) member) (by decide)

theorem parseI64_toString {n : Nat} (fits : n < 2 ^ 63) :
    parseI64 (toString n).toList = some (BitVec.ofInt 64 n) := by
  have digits := parseDigits_toString n
  have digit : ∀ c ∈ (toString n).toList, c.isDigit := by
    rw [Nat.toString_eq_repr, Nat.toList_repr]
    exact fun c member => Nat.isDigit_of_mem_toDigits (by decide) (by decide) member
  unfold parseI64
  split
  next same => exact absurd (digit '-' (same ▸ List.mem_cons_self)) (by decide)
  next same => exact absurd (digit '+' (same ▸ List.mem_cons_self)) (by decide)
  next => rw [digits, Option.bind_some, if_pos fits]

theorem toString_negative {n : Int} (negative : n < 0) :
    (toString n).toList = '-' :: (toString (-n).toNat).toList := by
  rw [Int.toString_eq_repr, Int.repr_eq_if, if_neg (not_le.mpr negative), String.toList_append]
  rfl

theorem toString_natural {n : Int} (natural : 0 ≤ n) : toString n = toString n.toNat := by
  rw [Int.toString_eq_repr, Int.repr_eq_if, if_pos natural]
  rfl

theorem parseI64_toString_toInt (n : I64) : parseI64 (toString n.toInt).toList = some n := by
  have low := BitVec.le_two_mul_toInt (x := n)
  have high := BitVec.two_mul_toInt_lt (x := n)
  by_cases negative : n.toInt < 0
  · rw [toString_negative negative, parseI64, parseDigits_toString, Option.bind_some,
      if_pos (by omega), Int.toNat_of_nonneg (by omega), Int.neg_neg, BitVec.ofInt_toInt]
  · rw [toString_natural (not_lt.mp negative), parseI64_toString (by omega),
      Int.toNat_of_nonneg (not_lt.mp negative), BitVec.ofInt_toInt]

theorem noLf_toString (n : Int) : '\n' ∉ (toString n).toList := by
  by_cases negative : n < 0
  · rw [toString_negative negative, List.mem_cons, not_or]
    exact ⟨by decide, (noBreak_toString _).2⟩
  · rw [toString_natural (not_lt.mp negative)]
    exact (noBreak_toString _).2

/-! ## Values are read back -/

/-- A value whose texts do not break their line, and whose parts are not longer than the parser
allows. -/
inductive Plain : RespValue → Prop
  | simpleString {s : String} (noBreak : NoBreak s) : Plain (.simpleString s)
  | error {s : String} (noBreak : NoBreak s) : Plain (.error s)
  | integer (n : I64) : Plain (.integer n)
  | nullBulk : Plain (.bulkString none)
  | bulkString {data : Bytes} (short : (data.length : Int) ≤ maxBulkLen) :
      Plain (.bulkString (some data))
  | nullArray : Plain .nullArray
  | array {items : List RespValue} (few : (items.length : Int) ≤ maxArrayLen)
      (plain : ∀ item ∈ items, Plain item) : Plain (.array items)

/-- The process has room for the depth of the value. -/
def Fits : Nat → RespValue → Prop
  | 0, _ => False
  | frames + 1, .array items => ∀ item ∈ items, Fits frames item
  | _ + 1, _ => True

theorem encodeItems_eq (items : List RespValue) :
    RespValue.encodeItems items = items.flatMap RespValue.encode := by
  induction items with
  | nil => rfl
  | cons item items ih => rw [RespValue.encodeItems, ih, List.flatMap_cons]

section ReadBack

variable {frames : Nat} {kept : Prop} {code : Bytes} {value : RespValue}

/-- A line and what it announces are read back. -/
theorem parseResp_parses {first : Char} {payload : String} (ascii : first.utf8Size = 1)
    (noLf : '\n' ∉ first :: payload.toList)
    (rest : (parseMarked (parseResp frames) first payload.toList).ParsesIn (fun _ => True) kept code
      value) :
    (parseResp (frames + 1)).ParsesIn (fun _ => True) kept
      (utf8 (String.singleton first ++ payload ++ "\r\n") ++ code) value := by
  have chars : (String.singleton first ++ payload ++ "\r\n").toList =
      first :: payload.toList ++ ['\r', '\n'] := by
    simp [String.toList_append]
  have line : readLine.Parses (utf8 (String.singleton first ++ payload ++ "\r\n"))
      (String.singleton first ++ payload ++ "\r\n") := by
    have split : String.singleton first ++ payload ++ "\r\n" =
        String.singleton first ++ payload ++ "\r" ++ "\n" := by
      rw [@String.append_assoc _ "\r" "\n"]
      rfl
    rw [split]
    refine readLine_parses ?_
    have line : (String.singleton first ++ payload ++ "\r").toList =
        first :: payload.toList ++ ['\r'] := by
      simp [String.toList_append]
    rw [line, List.mem_append, not_or]
    exact ⟨noLf, by decide⟩
  refine (line.parsesIn.bind ?_).congr (and_iff_right trivial)
  rw [chars, trimEnd_append noLf]
  change ParsesIn _ _ (if first.utf8Size ≠ 1 then _ else _) _ _
  rw [if_neg (not_not.mpr ascii)]
  exact rest

/-- A line that is the whole value is read back. -/
theorem parseResp_line {first : Char} {payload : String} (ascii : first.utf8Size = 1)
    (noLf : '\n' ∉ first :: payload.toList)
    (rest : parseMarked (parseResp frames) first payload.toList = pure value) :
    (parseResp (frames + 1)).ParsesIn (fun _ => True) True
      (utf8 (String.singleton first ++ payload ++ "\r\n")) value := by
  have whole := @parseResp_parses frames True [] value first payload ascii noLf
    (rest ▸ (Parses.pure value).parsesIn)
  rwa [List.append_nil] at whole

theorem parseI64_length {length : Nat} {most : Int} (short : (length : Int) ≤ most)
    (most_lt : most < 2 ^ 63) : ∃ len : I64, parseI64 (toString length).toList = some len ∧
      len.toInt = length ∧ len.toNat = length := by
  have small : length < 2 ^ 63 := by omega
  refine ⟨_, parseI64_toString small, ?_, ?_⟩
  · rw [BitVec.toInt_ofInt]
    exact Int.bmod_eq_of_le (by omega) (by omega)
  · rw [BitVec.toNat_ofInt]
    omega

theorem parseBulk_parses {data : Bytes} (short : (data.length : Int) ≤ maxBulkLen) :
    (parseBulk (toString data.length).toList).Parses (data ++ utf8 "\r\n")
      (.bulkString (some data)) := by
  obtain ⟨len, found, toInt, toNat⟩ := parseI64_length short (by decide)
  have size : (data ++ utf8 "\r\n").length = data.length + 2 := by
    rw [List.length_append]
    rfl
  have bytes := read_parses (fun _ => RespError.io .unexpectedEof) (data ++ utf8 "\r\n")
  rw [size] at bytes
  rw [parseBulk, found]
  dsimp only
  rw [if_neg (by omega), if_neg (by omega), toNat]
  refine bytes.bind_pure ?_
  rw [List.take_left]
  exact Parses.pure _

theorem parseArray_parses {items : List RespValue} {kept : RespValue → Prop}
    (few : (items.length : Int) ≤ maxArrayLen)
    (parses : ∀ item ∈ items, (parseResp frames).ParsesIn (fun _ => True) (kept item)
      item.encode item) :
    (parseArray (parseResp frames) (toString items.length).toList).ParsesIn (fun _ => True)
      (∀ item ∈ items, kept item) (items.flatMap RespValue.encode) (.array items) := by
  obtain ⟨len, found, toInt, toNat⟩ := parseI64_length few (by decide)
  rw [parseArray, found]
  dsimp only
  rw [if_neg (by omega), if_neg (by omega), toNat]
  have reads : (times (parseResp frames) items.length).ParsesIn (fun _ => True)
      (∀ item ∈ items, kept item) (items.flatMap RespValue.encode) items := times_parsesIn parses
  exact reads.bind_pure (Parses.pure (RespValue.array items))

/-- A value is read back wherever it stands if the process has room for its depth, and else it
stops. -/
theorem encode_parses (frames : Nat) {value : RespValue} (plain : Plain value) :
    (parseResp frames).ParsesIn (fun _ => True) (Fits frames value) value.encode value := by
  induction frames generalizing value with
  | zero => exact fun front back _ => ⟨fun kept => kept.elim, fun _ => ⟨.crash, rfl⟩⟩
  | succ frames ih =>
      cases plain with
      | @simpleString s noBreak =>
          rw [RespValue.encode, show "+" = String.singleton '+' from rfl]
          refine parseResp_line rfl ?_ ?_
          · exact List.not_mem_cons_of_ne_of_not_mem (by decide) noBreak.2
          · change pure (RespValue.simpleString _) = _
            rw [String.ofList_toList]
      | @error s noBreak =>
          rw [RespValue.encode, show "-" = String.singleton '-' from rfl]
          refine parseResp_line rfl ?_ ?_
          · exact List.not_mem_cons_of_ne_of_not_mem (by decide) noBreak.2
          · change pure (RespValue.error _) = _
            rw [String.ofList_toList]
      | integer n =>
          rw [RespValue.encode, show ":" = String.singleton ':' from rfl]
          refine parseResp_line rfl ?_ ?_
          · exact List.not_mem_cons_of_ne_of_not_mem (by decide) (noLf_toString _)
          · change parseInteger _ = _
            rw [parseInteger, parseI64_toString_toInt]
      | nullBulk => exact @parseResp_line _ _ '$' "-1" rfl (by decide) rfl
      | nullArray => exact @parseResp_line _ _ '*' "-1" rfl (by decide) rfl
      | @bulkString data short =>
          rw [RespValue.encode, List.append_assoc, show "$" = String.singleton '$' from rfl]
          refine parseResp_parses rfl ?_ (parseBulk_parses short).parsesIn
          exact List.not_mem_cons_of_ne_of_not_mem (by decide) (noLf_toString data.length)
      | @array items few plain =>
          rw [RespValue.encode, encodeItems_eq, show "*" = String.singleton '*' from rfl]
          refine parseResp_parses rfl ?_
            (parseArray_parses few fun item member => ih (plain item member))
          exact List.not_mem_cons_of_ne_of_not_mem (by decide) (noLf_toString items.length)

end ReadBack

/-! ## Arbitrary bytes -/

/-- What a line announces: nothing, so many bytes, or so many values. -/
inductive Announced where
  | nothing
  | bytes (count : Nat)
  | values (count : Nat)

/-- What the line with this mark announces, if it is a line of the protocol. -/
def announced (first : Char) (payload : List Char) : Option Announced :=
  match first with
  | '+' => some .nothing
  | '-' => some .nothing
  | ':' => (parseI64 payload).map fun _ => .nothing
  | '$' => (parseI64 payload).bind fun len =>
      if len.toInt < 0 then some .nothing
      else if maxBulkLen < len.toInt then none
      else some (.bytes (len.toNat + 2))
  | '*' => (parseI64 payload).bind fun count =>
      if count.toInt < 0 then some .nothing
      else if maxArrayLen < count.toInt then none
      else some (.values count.toNat)
  | _ => if splitWhitespace (first :: payload) = [] then none else some .nothing

/-- The characters of the first line, without its line break. -/
def firstLine (rest : Bytes) : Option (List Char) :=
  (fromUtf8 (takeLine rest)).map fun text => trimEnd text.toList

/-- Where to go on after what a line announces. -/
def follow (frames : Nat) (pending : List Nat) (rest : Bytes) :
    Announced → Option (Position Nat)
  | .nothing => some ⟨pending, rest⟩
  | .bytes count => if count ≤ rest.length then some ⟨pending, rest.drop count⟩ else none
  | .values count => some ⟨List.replicate count frames ++ pending, rest⟩

/-- The first line and what it announces are passed over. -/
def passLine (frames : Nat) (pending : List Nat) (rest : Bytes) : Option (Position Nat) :=
  (firstLine rest).bind fun
    | [] => none
    | first :: payload => (announced first payload).bind
        (follow frames pending (rest.drop (takeLine rest).length))

/-- The first line begins with a character of several bytes. -/
def SplitsCharacter (rest : Bytes) : Prop :=
  ∃ first payload, firstLine rest = some (first :: payload) ∧ first.utf8Size ≠ 1

/-- The walk over a stream, where a value is to be read with room for so many nested calls. -/
def walk : Walk Nat where
  next
    | ⟨(frames + 1) :: pending, rest⟩ => passLine frames pending rest
    | _ => none
  Bad
    | ⟨0 :: _, _⟩ => True
    | ⟨(_ + 1) :: _, rest⟩ => SplitsCharacter rest
    | _ => False

section Follow

open Walk

variable {bytes : Bytes} {start : Position Nat} {pending : List Nat} {cursor frames : Nat}

theorem length_takeLine_le (bytes : Bytes) : (takeLine bytes).length ≤ bytes.length := by
  induction bytes with
  | nil => exact le_rfl
  | cons byte bytes ih =>
      unfold takeLine
      split
      · exact Nat.succ_le_succ (Nat.zero_le _)
      · exact Nat.succ_le_succ ih

theorem parseBulk_follows {payload : List Char} (within : cursor ≤ bytes.length)
    (good : ¬ walk.Bad start)
    (moves : walk.next start = (announced '$' payload).bind
      (follow frames pending (bytes.drop cursor))) :
    walk.Follows bytes start pending (parseBulk payload) cursor := by
  change _ = ((parseI64 payload).bind _).bind _ at moves
  unfold parseBulk
  split
  next unread =>
    rw [unread] at moves
    exact Follows.of_err rfl ⟨good, moves⟩
  next len read =>
    rw [read, Option.bind_some] at moves
    split
    next negative =>
      rw [if_pos negative] at moves
      exact (Follows.pure within _).head ⟨good, moves⟩
    next natural =>
      rw [if_neg natural] at moves
      split
      next long =>
        rw [if_pos long] at moves
        exact Follows.of_err rfl ⟨good, moves⟩
      next short =>
        rw [if_neg short, Option.bind_some, follow, List.length_drop] at moves
        split at moves
        next room =>
          have fits : cursor + (len.toNat + 2) ≤ bytes.length := by omega
          rw [List.drop_drop] at moves
          refine Follows.of_ok (read_eq fits) ?_
          exact (Follows.pure fits _).head ⟨good, moves⟩
        next missing =>
          exact Follows.of_err (bind_err (read_eq_err (by omega) within)) ⟨good, moves⟩

theorem parseArray_follows {payload : List Char} {value : Decoder RespError RespValue}
    (reads : walk.Reads bytes [frames] value) (within : cursor ≤ bytes.length)
    (good : ¬ walk.Bad start)
    (moves : walk.next start = (announced '*' payload).bind
      (follow frames pending (bytes.drop cursor))) :
    walk.Follows bytes start pending (parseArray value payload) cursor := by
  change _ = ((parseI64 payload).bind _).bind _ at moves
  unfold parseArray
  split
  next unread =>
    rw [unread] at moves
    exact Follows.of_err rfl ⟨good, moves⟩
  next count read =>
    rw [read, Option.bind_some] at moves
    split
    next negative =>
      rw [if_pos negative] at moves
      exact (Follows.pure within _).head ⟨good, moves⟩
    next natural =>
      rw [if_neg natural] at moves
      split
      next long =>
        rw [if_pos long] at moves
        exact Follows.of_err rfl ⟨good, moves⟩
      next short =>
        rw [if_neg short, Option.bind_some, follow] at moves
        have all := reads.times count.toNat
        rw [List.flatten_replicate_singleton] at all
        refine Follows.head ⟨good, moves⟩ ?_
        refine (all cursor within pending).bind fun items middle within => ?_
        exact Follows.pure within _

/-- What a line announces is read as it is passed over. -/
theorem parseMarked_follows {first : Char} {payload : List Char}
    {value : Decoder RespError RespValue}
    (reads : walk.Reads bytes [frames] value) (within : cursor ≤ bytes.length)
    (good : ¬ walk.Bad start)
    (moves : walk.next start = (announced first payload).bind
      (follow frames pending (bytes.drop cursor))) :
    walk.Follows bytes start pending (parseMarked value first payload) cursor := by
  unfold parseMarked
  split
  next => exact (Follows.pure within _).head ⟨good, moves⟩
  next => exact (Follows.pure within _).head ⟨good, moves⟩
  next =>
    change _ = ((parseI64 payload).map _).bind _ at moves
    unfold parseInteger
    split
    next unread =>
      rw [unread] at moves
      exact Follows.of_err rfl ⟨good, moves⟩
    next n read =>
      rw [read] at moves
      exact (Follows.pure within _).head ⟨good, moves⟩
  next => exact parseBulk_follows within good moves
  next => exact parseArray_follows reads within good moves
  next simple error integer bulk array =>
    have inline : announced first payload =
        if splitWhitespace (first :: payload) = [] then none else some .nothing := by
      unfold announced
      split
      next => exact (simple rfl).elim
      next => exact (error rfl).elim
      next => exact (integer rfl).elim
      next => exact (bulk rfl).elim
      next => exact (array rfl).elim
      next => rfl
    rw [inline] at moves
    unfold parseInline
    dsimp only
    split
    next empty =>
      rw [if_pos empty] at moves
      exact Follows.of_err rfl ⟨good, moves⟩
    next words =>
      rw [if_neg words] at moves
      exact (Follows.pure within _).head ⟨good, moves⟩

theorem parseResp_reads (frames : Nat) : walk.Reads bytes [frames] (parseResp frames) := by
  induction frames with
  | zero => exact fun cursor _ pending => Follows.of_halt rfl trivial
  | succ frames ih =>
      intro cursor within pending
      have bad : walk.Bad ⟨[frames + 1] ++ pending, bytes.drop cursor⟩ ↔
        SplitsCharacter (bytes.drop cursor) := Iff.rfl
      have moves : walk.next ⟨[frames + 1] ++ pending, bytes.drop cursor⟩ =
        passLine frames pending (bytes.drop cursor) := rfl
      have length := length_takeLine_le (bytes.drop cursor)
      rw [List.length_drop] at length
      have room : cursor + (takeLine (bytes.drop cursor)).length ≤ bytes.length := by omega
      generalize line : takeLine (bytes.drop cursor) = taken at length room
      cases known : fromUtf8 taken with
      | none =>
          have none : firstLine (bytes.drop cursor) = none := by
            rw [firstLine, line, known, Option.map_none]
          have read : readLine bytes cursor =
              ⟨.err (.io .invalidData), cursor + taken.length, []⟩ := by
            unfold readLine
            rw [Exec.get_bind, Exec.modify_bind, line, known]
            rfl
          refine Follows.of_err (bind_err read) ⟨?_, by rw [moves, passLine, none]; rfl⟩
          rw [bad]
          rintro ⟨first, payload, found, -⟩
          cases none.symm.trans found
      | some text =>
          have found : firstLine (bytes.drop cursor) = some (trimEnd text.toList) := by
            rw [firstLine, line, known, Option.map_some]
          by_cases empty : taken = []
          · have read : readLine bytes cursor =
                ⟨.err (.io .unexpectedEof), cursor + taken.length, []⟩ := by
              unfold readLine
              rw [Exec.get_bind, Exec.modify_bind, line, known]
              dsimp only
              rw [if_pos empty]
              rfl
            have nothing : text = "" := by
              rw [empty] at known
              exact Option.some.inj (known.symm.trans (fromUtf8_utf8 ""))
            rw [nothing] at found
            refine Follows.of_err (bind_err read) ⟨?_, by rw [moves, passLine, found]; rfl⟩
            rw [bad]
            rintro ⟨first, payload, other, -⟩
            cases found.symm.trans other
          · have read : readLine bytes cursor = ⟨.ok text, cursor + taken.length, []⟩ := by
              unfold readLine
              rw [Exec.get_bind, Exec.modify_bind, line, known]
              dsimp only
              rw [if_neg empty]
              rfl
            refine Follows.of_ok read ?_
            split
            next noText =>
              refine Follows.of_err rfl ⟨?_, ?_⟩
              · rw [bad]
                rintro ⟨first, payload, other, -⟩
                rw [found, noText] at other
                cases other
              · rw [moves, passLine, found, noText]
                rfl
            next first payload starts =>
              rw [starts] at found
              split
              next several =>
                exact Follows.of_halt rfl (bad.mpr ⟨first, payload, found, several⟩)
              next single =>
                refine parseMarked_follows ih room ?_ ?_
                · rw [bad]
                  rintro ⟨other, rest, same, several⟩
                  rw [found] at same
                  cases same
                  exact single several
                · rw [moves, passLine, found, Option.bind_some, line, List.drop_drop]

end Follow

/-- The parser stops the process exactly if the walk comes to a bad position. -/
theorem halts_iff (frames : Nat) (bytes : Bytes) :
    (parseResp frames).Halts bytes 0 ↔ walk.ReachesBad ⟨[frames], bytes⟩ :=
  (parseResp_reads frames).halts_iff fun _ => ⟨id, rfl⟩

/-! ## Replies -/

/-- The bytes of exactly one value, as the protocol frames it. -/
inductive Framed : Bytes → Prop
  | text {mark : Byte} {text : Bytes} (isMark : mark = 43 ∨ mark = 45)
      (noBreak : 13 ∉ text ∧ 10 ∉ text) : Framed (mark :: text ++ [13, 10])
  | integer (n : I64) : Framed (utf8 (":" ++ toString n.toInt ++ "\r\n"))
  | nullBulk : Framed (utf8 "$-1\r\n")
  | bulk (data : Bytes) :
      Framed (utf8 ("$" ++ toString data.length ++ "\r\n") ++ data ++ utf8 "\r\n")
  | nullArray : Framed (utf8 "*-1\r\n")
  | array {items : List Bytes} (framed : ∀ item ∈ items, Framed item) :
      Framed (utf8 ("*" ++ toString items.length ++ "\r\n") ++ items.flatten)

namespace Framed

theorem append_noBreak {a b : String} : NoBreak (a ++ b) ↔ NoBreak a ∧ NoBreak b := by
  simp only [NoBreak, String.toList_append, List.mem_append, not_or]
  tauto

theorem of_simpleString {s : String} (noBreak : NoBreak s) :
    Framed (RespValue.simpleString s).encode := by
  have code : (RespValue.simpleString s).encode = 43 :: utf8 s ++ [13, 10] := by
    rw [RespValue.encode, utf8_append, utf8_append]
    rfl
  rw [code]
  exact .text (.inl rfl) ⟨(cr_mem_utf8 s).not.mpr noBreak.1, (lf_mem_utf8 s).not.mpr noBreak.2⟩

/-- An error is one value if and only if its text does not break the line. -/
theorem error_iff {s : String} : Framed (RespValue.error s).encode ↔ NoBreak s := by
  have code : (RespValue.error s).encode = 45 :: utf8 s ++ [13, 10] := by
    rw [RespValue.encode, utf8_append, utf8_append]
    rfl
  have noBreak : NoBreak s ↔ 13 ∉ utf8 s ∧ 10 ∉ utf8 s := by
    rw [cr_mem_utf8, lf_mem_utf8]
    exact Iff.rfl
  rw [code, noBreak]
  constructor
  · intro framed
    generalize whole : 45 :: utf8 s ++ [13, 10] = bytes at framed
    cases framed with
    | @text mark line isMark noBreak =>
        rw [List.cons_append, List.cons_append] at whole
        obtain ⟨-, same⟩ := List.cons.inj whole
        rwa [List.append_cancel_right same]
    | integer n =>
        rw [utf8_append, utf8_append] at whole
        exact absurd (List.cons.inj whole).1 (by decide)
    | nullBulk => exact absurd (List.cons.inj whole).1 (by decide)
    | bulk data =>
        rw [utf8_append, utf8_append] at whole
        exact absurd (List.cons.inj whole).1 (by decide)
    | nullArray => exact absurd (List.cons.inj whole).1 (by decide)
    | array framed =>
        rw [utf8_append, utf8_append] at whole
        exact absurd (List.cons.inj whole).1 (by decide)
  · exact .text (.inr rfl)

theorem err_iff {message : String} : Framed (RespValue.err message).encode ↔ NoBreak message := by
  rw [RespValue.err, error_iff, append_noBreak]
  exact and_iff_right (by decide)

theorem of_bulkString (data : Option Bytes) : Framed (RespValue.bulkString data).encode := by
  cases data with
  | none => exact .nullBulk
  | some data => exact .bulk data

theorem of_array {items : List RespValue} (framed : ∀ item ∈ items, Framed item.encode) :
    Framed (RespValue.array items).encode := by
  have code := @array (items.map RespValue.encode) fun item member => by
    obtain ⟨value, among, rfl⟩ := List.mem_map.mp member
    exact framed value among
  rwa [List.length_map, ← List.flatMap_def, ← encodeItems_eq] at code

end Framed

section Reply

variable (lossy : Bytes → String) {σ : Type}
variable (execute : QueryRequest → σ → Except String QueryResponse × σ)
variable (authPassword : Option String)

/-- Handling a command ends with a reply that is exactly one value. -/
def WellFramed (handler : Handler σ RespValue) (session : Session σ) : Prop :=
  ∃ reply after, handler session = ⟨.ok reply, after, []⟩ ∧ Framed reply.encode

/-- If the executor rejects the request, its message does not break a line. -/
def Quiet (request : QueryRequest) (database : σ) : Prop :=
  ∀ message, (execute request database).1 = .error message → NoBreak message

/-- Both requests of an increment are quiet. -/
def QuietAdd (key : Bytes) (delta : Int) (database : σ) : Prop :=
  Quiet execute (addRequest lossy key delta) database ∧
    ((execute (addRequest lossy key delta) database).1.toBool →
      Quiet execute (numberRequest lossy key) (execute (addRequest lossy key delta) database).2)

/-- The numbers of rows that are deleted stay in 64 bits as they are added up. -/
def Countable : List Bytes → Int → σ → Prop
  | [], _, _ => True
  | key :: keys, deleted, database =>
      match execute (delRequest lossy key) database with
      | (.ok response, after) =>
          (-2 ^ 63 ≤ deleted + response.affected ∧ deleted + response.affected < 2 ^ 63) ∧
            Countable keys (deleted + response.affected) after
      | (.error _, after) => Countable keys deleted after

/-- What the executor answers to a command keeps the reply in its frame. -/
def QuietRun : Command → List Bytes → σ → Prop
  | .set, key :: value :: _, database => Quiet execute (setRequest lossy key value) database
  | .get, key :: _, database => Quiet execute (getRequest lossy key) database
  | .del, keys, database => Countable lossy execute keys 0 database
  | .incr, key :: _, database => QuietAdd lossy execute key 1 database
  | .decr, key :: _, database => QuietAdd lossy execute key (-1) database
  | .hget, hashKey :: field :: _, database =>
      Quiet execute (hgetRequest lossy hashKey field) database
  | .hgetall, hashKey :: _, database => Quiet execute (hgetallRequest lossy hashKey) database
  | _, _, _ => True

/-- The name of an unknown command, and what the executor answers to a known one, keep the reply in
its frame. -/
def QuietCommand (cmd : String) (args : List Bytes) (database : σ) : Prop :=
  match Command.ofName cmd with
  | some known => QuietRun lossy execute known args database
  | none => NoBreak cmd

variable {lossy execute authPassword} {session : Session σ}

theorem wellFramed_pure {reply : RespValue} :
    WellFramed (pure reply : Handler σ RespValue) session ↔ Framed reply.encode :=
  ⟨fun ⟨_, _, same, framed⟩ => by cases same; exact framed,
    fun framed => ⟨reply, session, rfl, framed⟩⟩

theorem wellFramed_pure_iff_true {reply : RespValue} (framed : Framed reply.encode) :
    WellFramed (pure reply : Handler σ RespValue) session ↔ True :=
  wellFramed_pure.trans (iff_true_intro framed)

theorem wellFramed_change {change : ConnectionState → ConnectionState} {reply : RespValue}
    (framed : Framed reply.encode) :
    WellFramed (changeConnection change >>= fun _ => pure reply : Handler σ RespValue) session ↔
      True :=
  iff_true_intro ⟨reply, _, rfl, framed⟩

theorem wellFramed_ask {request : QueryRequest}
    {next : Except String QueryResponse → Handler σ RespValue} :
    WellFramed (ask execute request >>= next) session ↔
      WellFramed (next (execute request session.database).1)
        { session with database := (execute request session.database).2 } := by
  have run : (ask execute request >>= next) session = next (execute request session.database).1
      { session with database := (execute request session.database).2 } := rfl
  rw [WellFramed, run]
  exact Iff.rfl

theorem noBreak_iff {message : String} :
    (∀ other, (.error message : Except String QueryResponse) = .error other → NoBreak other) ↔
      NoBreak message :=
  ⟨fun quiet => quiet message rfl, fun noBreak _ same => by cases same; exact noBreak⟩

/-- A command that is one query is answered in its frame if the query is quiet. -/
theorem wellFramed_askFor {request : QueryRequest} {reply : QueryResponse → RespValue}
    (framed : ∀ response, Framed (reply response).encode) :
    WellFramed (askFor execute request reply) session ↔
      Quiet execute request session.database := by
  rw [askFor, wellFramed_ask, Quiet]
  cases (execute request session.database).1 with
  | ok response => exact (wellFramed_pure_iff_true (framed response)).trans (by simp)
  | error message =>
      exact wellFramed_pure.trans (Framed.err_iff.trans noBreak_iff.symm)

theorem framed_wrongArity {name : String} (noBreak : NoBreak name) :
    Framed (wrongArity name).encode := by
  rw [wrongArity, Framed.err_iff, Framed.append_noBreak, Framed.append_noBreak]
  exact ⟨⟨by decide, noBreak⟩, by decide⟩

theorem framed_getReply (response : QueryResponse) : Framed (getReply response).encode := by
  unfold getReply
  split <;> exact Framed.of_bulkString _

theorem framed_hgetReply (response : QueryResponse) : Framed (hgetReply response).encode := by
  unfold hgetReply
  split <;> exact Framed.of_bulkString _

theorem framed_hgetallReply (response : QueryResponse) :
    Framed (hgetallReply response).encode := by
  refine Framed.of_array fun item member => ?_
  obtain ⟨row, -, among⟩ := List.mem_flatMap.mp member
  split at among
  next =>
    rcases List.mem_cons.mp among with rfl | rest
    · exact Framed.of_bulkString _
    · obtain rfl := List.mem_singleton.mp rest
      exact Framed.of_bulkString _
  next => exact absurd among List.not_mem_nil

theorem framed_numberReply (delta : Int) (response : QueryResponse) :
    Framed (numberReply delta response).encode := by
  unfold numberReply
  split <;> exact Framed.integer _

theorem framed_helloReply : Framed helloReply.encode := by
  have bulk : ∀ s, Framed (RespValue.bulk s).encode := fun s => Framed.of_bulkString _
  refine Framed.of_array ?_
  simp only [List.forall_mem_cons]
  exact ⟨bulk _, bulk _, bulk _, bulk _, bulk _, Framed.integer 2, bulk _, bulk _,
    fun _ member => nomatch member⟩

theorem wellFramed_delAll (keys : List Bytes) (deleted : Int) (session : Session σ) :
    WellFramed (delAll lossy execute keys deleted) session ↔
      Countable lossy execute keys deleted session.database := by
  induction keys generalizing deleted session with
  | nil => exact wellFramed_pure_iff_true (Framed.integer _)
  | cons key keys ih =>
      rw [delAll, wellFramed_ask, Countable]
      cases execute (delRequest lossy key) session.database with
      | mk answer after =>
          cases answer with
          | ok response =>
              dsimp only
              split
              next within => exact (ih _ _).trans (and_iff_right within).symm
              next beyond =>
                refine iff_of_false ?_ fun counts => beyond counts.1
                rintro ⟨reply, final, ended, -⟩
                cases ended
          | error message => exact ih deleted _

theorem wellFramed_existsAll (keys : List Bytes) (count : Int) (session : Session σ) :
    WellFramed (existsAll lossy execute keys count) session := by
  induction keys generalizing count session with
  | nil => exact wellFramed_pure.mpr (Framed.integer _)
  | cons key keys ih =>
      rw [existsAll, wellFramed_ask]
      split <;> exact ih _ _

theorem wellFramed_hsetAll (hashKey : Bytes) (args : List Bytes) (count : Int)
    (session : Session σ) : WellFramed (hsetAll lossy execute hashKey args count) session := by
  induction args, count using hsetAll.induct generalizing session with
  | case1 field value rest count ih1 ih2 =>
      rw [hsetAll, wellFramed_ask]
      split
      · exact ih1 _
      · exact ih2 _
  | case2 args count short =>
      rw [hsetAll.eq_def]
      split
      next => exact (short _ _ _ rfl).elim
      next => exact wellFramed_pure.mpr (Framed.integer _)

theorem wellFramed_addTo {name : String} (noBreak : NoBreak name) (delta : Int)
    (args : List Bytes) :
    WellFramed (addTo lossy execute name delta args) session ↔
      ∀ key rest, args = key :: rest → QuietAdd lossy execute key delta session.database := by
  cases args with
  | nil => exact (wellFramed_pure_iff_true (framed_wrongArity noBreak)).trans (by simp)
  | cons key rest =>
      have only : (∀ other keys, key :: rest = other :: keys →
          QuietAdd lossy execute other delta session.database) ↔
            QuietAdd lossy execute key delta session.database :=
        ⟨fun quiet => quiet key rest rfl, fun quiet other keys same => by cases same; exact quiet⟩
      rw [only, addTo, wellFramed_ask, QuietAdd, Quiet]
      cases (execute (addRequest lossy key delta) session.database).1 with
      | ok response =>
          refine (wellFramed_askFor (framed_numberReply delta)).trans ?_
          exact ⟨fun quiet => ⟨(fun _ same => nomatch same), fun _ => quiet⟩,
            fun quiet => quiet.2 rfl⟩
      | error message =>
          refine (wellFramed_pure.trans Framed.err_iff).trans ?_
          exact ((and_iff_left fun isOk => nomatch isOk).trans noBreak_iff).symm

/-- A known command is answered with one value if and only if the executor answers quietly. -/
theorem wellFramed_run (known : Command) (args : List Bytes) :
    WellFramed (run lossy execute authPassword known args) session ↔
      QuietRun lossy execute known args session.database := by
  have arity : ∀ {name}, NoBreak name →
      (WellFramed (pure (wrongArity name) : Handler σ RespValue) session ↔ True) :=
    fun noBreak => wellFramed_pure_iff_true (framed_wrongArity noBreak)
  have ok : Framed RespValue.ok.encode := Framed.of_simpleString (by decide)
  cases known with
  | ping =>
      cases args with
      | nil => exact wellFramed_pure_iff_true (Framed.of_simpleString (by decide))
      | cons message rest => exact wellFramed_pure_iff_true (Framed.of_bulkString _)
  | auth =>
      cases args with
      | nil => exact arity (by decide)
      | cons password rest =>
          change WellFramed (authenticate lossy authPassword (password :: rest)) session ↔ True
          cases authPassword with
          | none => exact wellFramed_pure_iff_true ok
          | some expected =>
              change WellFramed (if _ then _ else _) session ↔ True
              split
              · exact wellFramed_change ok
              · exact wellFramed_pure_iff_true (Framed.error_iff.mpr (by decide))
  | select =>
      cases args with
      | nil => exact arity (by decide)
      | cons name rest => exact wellFramed_change ok
  | quit => exact wellFramed_pure_iff_true ok
  | hello => exact wellFramed_pure_iff_true framed_helloReply
  | command =>
      exact wellFramed_pure_iff_true (Framed.of_array fun _ member => nomatch member)
  | set =>
      match args with
      | [] => exact arity (by decide)
      | [_] => exact arity (by decide)
      | key :: value :: _ => exact wellFramed_askFor fun _ => ok
  | get =>
      cases args with
      | nil => exact arity (by decide)
      | cons key rest => exact wellFramed_askFor framed_getReply
  | del =>
      cases args with
      | nil => exact arity (by decide)
      | cons key rest => exact wellFramed_delAll (key :: rest) 0 session
  | «exists» =>
      cases args with
      | nil => exact arity (by decide)
      | cons key rest => exact iff_true_intro (wellFramed_existsAll (key :: rest) 0 session)
  | incr =>
      refine (wellFramed_addTo (by decide) 1 args).trans ?_
      cases args with
      | nil => simp [QuietRun]
      | cons key rest => simp [QuietRun]
  | decr =>
      refine (wellFramed_addTo (by decide) (-1) args).trans ?_
      cases args with
      | nil => simp [QuietRun]
      | cons key rest => simp [QuietRun]
  | hset =>
      change WellFramed (if _ then _ else _) session ↔ True
      split
      · exact arity (by decide)
      · exact iff_true_intro (wellFramed_hsetAll _ _ _ _)
  | hget =>
      match args with
      | [] => exact arity (by decide)
      | [_] => exact arity (by decide)
      | hashKey :: field :: _ => exact wellFramed_askFor framed_hgetReply
  | hgetall =>
      cases args with
      | nil => exact arity (by decide)
      | cons hashKey rest => exact wellFramed_askFor framed_hgetallReply
  | info => exact wellFramed_pure_iff_true (Framed.of_bulkString _)
  | dbsize =>
      refine wellFramed_ask.trans (iff_true_intro ?_)
      split <;> exact wellFramed_pure.mpr (Framed.integer _)

theorem wellFramed_dispatchCommand (cmd : String) (args : List Bytes) :
    WellFramed (dispatchCommand lossy execute authPassword cmd args) session ↔
      QuietCommand lossy execute cmd args session.database := by
  unfold dispatchCommand QuietCommand
  cases Command.ofName cmd with
  | some known => exact wellFramed_run known args
  | none =>
      dsimp only
      rw [wellFramed_pure, Framed.err_iff, Framed.append_noBreak, Framed.append_noBreak]
      exact ⟨fun noBreak => noBreak.1.2, fun noBreak => ⟨⟨by decide, noBreak⟩, by decide⟩⟩

end Reply

/-- A value is read back, and exactly its bytes are read whatever follows them, if and only if the
process has room for its depth; the reply to a command is exactly one value if and only if no line
break comes into it from the name of an unknown command or from the executor; and any bytes are
parsed or rejected if and only if no line is reached that begins with a character of several bytes,
and no value that is nested too deep. -/
theorem framing (lossy : Bytes → String) {σ : Type}
    (execute : QueryRequest → σ → Except String QueryResponse × σ) (authPassword : Option String)
    (frames : Nat) :
    (∀ value, Plain value → ∀ suffix,
      (parseResp frames (value.encode ++ suffix) 0 = ⟨.ok value, value.encode.length, []⟩ ↔
        Fits frames value)) ∧
    (∀ cmd args session,
      WellFramed (dispatchCommand lossy execute authPassword cmd args) session ↔
        QuietCommand lossy execute cmd args session.database) ∧
    ∀ bytes, (∀ cause, (parseResp frames bytes 0).outcome ≠ .halt cause) ↔
      ¬ walk.ReachesBad ⟨[frames], bytes⟩ := by
  refine ⟨fun value plain suffix => ?_, fun cmd args session => wellFramed_dispatchCommand cmd args,
    fun bytes => ?_⟩
  · have reads := encode_parses frames plain [] suffix trivial
    rw [List.nil_append, List.length_nil, Nat.zero_add] at reads
    refine ⟨fun read => ?_, reads.1⟩
    by_contra deep
    obtain ⟨cause, halted⟩ := reads.2 deep
    rw [read] at halted
    cases halted
  · rw [← halts_iff, Decoder.Halts, not_exists]

/-- An executor that rejects every query. -/
def reject (_ : QueryRequest) (database : Unit) : Except String QueryResponse × Unit :=
  (.error "no database", database)

theorem framing_reject :
    (parseResp 1 (RespValue.ok.encode ++ [43]) 0 = ⟨.ok .ok, RespValue.ok.encode.length, []⟩) ∧
    WellFramed (dispatchCommand (fun _ => "") reject none "GET" [[]]) ⟨⟨true, 0⟩, ()⟩ := by
  have holds := framing (fun _ => "") reject none 1
  refine ⟨(holds.1 .ok (.simpleString (by decide)) [43]).mpr trivial, (holds.2.1 _ _ _).mpr ?_⟩
  have known : Command.ofName "GET" = some .get := by decide
  rw [QuietCommand, known]
  intro message same
  cases same
  decide

/-- The name of a command that is not known, with a line break in it. -/
def brokenName : String := "A\r\n+OK"

/-- A line that begins with a character of two bytes. -/
def accented : String := "é\r\n"

/-- The reply to a command that is not known may be several values, and a line may begin with a
character that is cut. -/
theorem not_framing_brokenName :
    ¬ WellFramed (dispatchCommand (fun _ => "") reject none brokenName []) ⟨⟨true, 0⟩, ()⟩ ∧
      (parseResp 64 (utf8 accented) 0).outcome = .halt .panic := by
  constructor
  · rintro ⟨reply, after, ended, framed⟩
    have unknown : Command.ofName brokenName = none := by decide
    rw [dispatchCommand, unknown] at ended
    cases ended
    exact absurd (Framed.err_iff.mp framed) (by decide)
  · have line := @readLine_parses "é\r" (by decide) [] []
    rw [List.nil_append, List.append_nil, List.length_nil] at line
    have starts : trimEnd ("é\r" ++ "\n").toList = 'é' :: [] := by decide
    rw [parseResp, show accented = "é\r" ++ "\n" from rfl, bind_ok line, starts]
    rfl

end JouleDB.Resp
