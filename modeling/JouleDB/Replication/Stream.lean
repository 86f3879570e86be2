import JouleDB.Lib.AssocList
import JouleDB.Replication.Wire
import Mathlib.Logic.Function.Basic

/-!
# A leader and its followers

The leader hands every log entry to a broadcast channel; a handler for each connection forwards what
it gets from the channel.  A follower connects, names its position, and hands the entries that it
reads to a receiver.  Handlers and followers run step by step in any order; a connection is a pair of
byte streams that can be cut at any time.
-/

namespace JouleDB.Replication

/-! ## The leader -/

/-- What the leader knows about a follower. -/
structure FollowerState where
  nodeId : Bytes
  ackedLsn : Nat
  connected : Bool
  lag : Nat
  deriving DecidableEq, Repr

/-- How many entries the broadcast channel retains: the capacity of 10000, rounded up to a power of
two. -/
def channelCapacity : Nat := 16384

/-- How a task came to its end. -/
inductive Ending where
  | returned
  | failed
  | panicked
  deriving DecidableEq, Repr

/-- Where a handler waits. -/
inductive HandlerStage where
  /-- For the header of the handshake. -/
  | handshake
  /-- For the payload of the handshake. -/
  | registering (requestId payloadLen : Nat)
  /-- For an entry, the time of a heartbeat, or the header of a message. -/
  | streaming (nodeId : Bytes) (startLsn : Nat)
  /-- For the payload of a message. -/
  | message (nodeId : Bytes) (startLsn : Nat) (code : Byte) (payloadLen : Nat)
  | ended (how : Ending)
  deriving DecidableEq, Repr

/-- The task that serves a connection, and its place in the broadcast channel. -/
structure Handler where
  stage : HandlerStage
  position : Nat
  deriving DecidableEq, Repr

/-- A connection: the bytes on the way in both directions, which ends are open, and the handler once
the connection is accepted. -/
structure Connection where
  toLeader : Bytes
  toFollower : Bytes
  leaderOpen : Bool
  followerOpen : Bool
  handler : Option Handler
  deriving DecidableEq, Repr

/-- The replication server: the last position, the entries handed to the channel, and the followers by
name. -/
structure ReplicationServer where
  currentLsn : Nat
  broadcasted : List ReplicationWalEntry
  followers : List (Bytes × FollowerState)

/-! ## Followers -/

/-- Where a follower waits. -/
inductive ClientStage where
  /-- For the next attempt to connect. -/
  | disconnected
  /-- For the header of the response. -/
  | awaiting (connection : Nat)
  /-- For the header of a message. -/
  | streaming (connection : Nat)
  /-- For the payload of a message. -/
  | message (connection : Nat) (code : Byte) (payloadLen : Nat)
  | stopped (how : Ending)
  deriving DecidableEq, Repr

/-- The replication client; `received` are the entries handed to the receiver, `announced` the
positions sent to the leader. -/
structure ReplicationClient where
  nodeId : Bytes
  appliedLsn : Nat
  stage : ClientStage
  received : List ReplicationWalEntry
  announced : List Nat

/-! ## Steps -/

/-- What a handler that streams attends to. -/
inductive Choice where
  | receive (fails : Bool)
  | heartbeat (fails : Bool)
  | read
  /-- Reading a header is given up for something else; the bytes read so far are lost. -/
  | lose (count : Nat)

/-- The steps of the system.  Any write to a connection can fail. -/
inductive Event where
  | allocate
  | broadcast (entry : ReplicationWalEntry)
  | connect (client : Nat) (fails : Bool)
  | accept (connection : Nat)
  | handle (connection : Nat) (fails : Bool) (choice : Choice)
  | client (client : Nat) (fails : Bool)
  | setApplied (client lsn : Nat)
  | cut (connection : Nat)

/-- A leader, followers and the connections between them. -/
structure World where
  server : ReplicationServer
  clients : Nat → ReplicationClient
  connections : List Connection

/-- Read a number of bytes: nothing happens while they are missing, and the end of the stream is an
error. -/
def readExact (count : Nat) (stream : Bytes) (writerOpen : Bool) : Option (Except Unit (Bytes × Bytes)) :=
  if count ≤ stream.length then some (.ok (stream.take count, stream.drop count))
  else if writerOpen then none
  else some (.error ())

namespace Connection

/-- A new connection with the handshake on the way. -/
def opened (handshake : Bytes) : Connection := ⟨handshake, [], true, true, none⟩

/-- Both ends are closed. -/
def closed (connection : Connection) : Connection :=
  { connection with leaderOpen := false, followerOpen := false }

/-- The handler waits somewhere else. -/
def waits (connection : Connection) (handler : Handler) (stage : HandlerStage) : Connection :=
  { connection with handler := some { handler with stage := stage } }

/-- The handler ends and closes the leader's end. -/
def finished (connection : Connection) (handler : Handler) (how : Ending) : Connection :=
  { connection.waits handler (.ended how) with leaderOpen := false }

/-- The handler has a place in the channel. -/
def listens (connection : Connection) : Bool :=
  match connection.handler with
  | some ⟨.ended _, _⟩ => false
  | some _ => true
  | none => false

end Connection

namespace ReplicationServer

/-- Hand an entry to the channel, which refuses it while nobody listens. -/
def broadcastEntry (server : ReplicationServer) (entry : ReplicationWalEntry) (heard : Bool) :
    ReplicationServer :=
  { server with
    currentLsn := entry.lsn
    broadcasted := if heard then server.broadcasted ++ [entry] else server.broadcasted }

/-- Register a follower. -/
def register (server : ReplicationServer) (handshake : Handshake) : ReplicationServer :=
  { server with
    followers := upsert server.followers handshake.nodeId
      ⟨handshake.nodeId, handshake.startLsn, true, server.currentLsn - handshake.startLsn⟩ }

/-- Forget a follower. -/
def remove (server : ReplicationServer) (nodeId : Bytes) : ReplicationServer :=
  { server with followers := server.followers.filter fun entry => entry.1 ≠ nodeId }

/-- Note what a follower has acknowledged. -/
def acknowledge (server : ReplicationServer) (nodeId : Bytes) (ackedLsn : Nat) : ReplicationServer :=
  { server with
    followers := server.followers.map fun entry =>
      if entry.1 = nodeId then
        (entry.1, { entry.2 with ackedLsn := ackedLsn, lag := server.currentLsn - ackedLsn })
      else entry }

/-- What a handler finds in the channel: nothing, an error because it has fallen behind, or an
entry. -/
def receive (server : ReplicationServer) (position : Nat) :
    Option (Except Unit ReplicationWalEntry) :=
  if position + channelCapacity < server.broadcasted.length then some (.error ())
  else (server.broadcasted[position]?).map .ok

/-- The header of a handshake. -/
def readHandshake (connection : Connection) (handler : Handler) : Connection :=
  match readExact headerSize connection.toLeader connection.followerOpen with
  | none => connection
  | some (.error ()) => connection.finished handler .failed
  | some (.ok (header, rest)) =>
      let connection := { connection with toLeader := rest }
      if !hasMagic header then
        connection.finished handler .failed
      else
        match (do
          let requestId ← numberAt header 4 4
          let payloadLen ← payloadLength header
          .ok (requestId, payloadLen) : Attempt (Nat × Nat)) with
        | .ok (requestId, payloadLen) => connection.waits handler (.registering requestId payloadLen)
        | .err _ => connection.finished handler .failed
        | .halt _ => connection.finished handler .panicked

/-- The payload of a handshake: register the follower and answer. -/
def registerFollower (server : ReplicationServer) (connection : Connection) (handler : Handler)
    (requestId payloadLen : Nat) (fails : Bool) : ReplicationServer × Connection :=
  match readExact payloadLen connection.toLeader connection.followerOpen with
  | none => (server, connection)
  | some (.error ()) => (server, connection.finished handler .failed)
  | some (.ok (payload, rest)) =>
      let connection := { connection with toLeader := rest }
      match Handshake.decode payload with
      | .ok handshake =>
          let server := server.register handshake
          if fails then
            (server, connection.finished handler .failed)
          else
            (server, { connection with
              toFollower := connection.toFollower ++
                responseMessage requestId (toLe 8 server.currentLsn) }.waits handler
              (.streaming handshake.nodeId handshake.startLsn))
      | .err _ => (server, connection.finished handler .failed)
      | .halt _ => (server, connection.finished handler .panicked)

/-- The loop of a handler is left: the follower is forgotten. -/
def leave (server : ReplicationServer) (connection : Connection) (handler : Handler)
    (nodeId : Bytes) : ReplicationServer × Connection :=
  (server.remove nodeId, connection.finished handler .returned)

/-- One turn of the loop of a handler. -/
def stream (server : ReplicationServer) (connection : Connection) (handler : Handler)
    (nodeId : Bytes) (startLsn : Nat) : Choice → ReplicationServer × Connection
  | .receive fails =>
      match server.receive handler.position with
      | none => (server, connection)
      | some (.error ()) => server.leave connection handler nodeId
      | some (.ok entry) =>
          let handler := { handler with position := handler.position + 1 }
          let connection := { connection with handler := some handler }
          if startLsn < entry.lsn then
            if fails then
              server.leave connection handler nodeId
            else
              (server, { connection with
                toFollower := connection.toFollower ++ createWalEntryMessage entry })
          else
            (server, connection)
  | .heartbeat fails =>
      if fails then
        server.leave connection handler nodeId
      else
        (server, { connection with
          toFollower := connection.toFollower ++ createHeartbeatMessage server.currentLsn })
  | .read =>
      match readExact headerSize connection.toLeader connection.followerOpen with
      | none => (server, connection)
      | some (.error ()) => server.leave connection handler nodeId
      | some (.ok (header, rest)) =>
          let connection := { connection with toLeader := rest }
          if !hasMagic header then
            (server, connection)
          else
            match (do
              let code ← byteAt header 2
              let payloadLen ← payloadLength header
              .ok (code, payloadLen) : Attempt (Byte × Nat)) with
            | .ok (code, payloadLen) =>
                (server, connection.waits handler (.message nodeId startLsn code payloadLen))
            | .err _ => (server, connection.finished handler .failed)
            | .halt _ => (server, connection.finished handler .panicked)
  | .lose count =>
      if count < headerSize then
        (server, { connection with toLeader := connection.toLeader.drop count })
      else
        (server, connection)

/-- The payload of a message of a follower. -/
def readMessage (server : ReplicationServer) (connection : Connection) (handler : Handler)
    (nodeId : Bytes) (startLsn : Nat) (code : Byte) (payloadLen : Nat) :
    ReplicationServer × Connection :=
  match readExact payloadLen connection.toLeader connection.followerOpen with
  | none => (server, connection)
  | some (.error ()) => server.leave connection handler nodeId
  | some (.ok (payload, rest)) =>
      let connection := { connection with toLeader := rest }.waits handler (.streaming nodeId startLsn)
      if code = ackCode ∧ 8 ≤ payload.length then
        (server.acknowledge nodeId (ofLe (payload.take 8)), connection)
      else
        (server, connection)

/-- One step of a handler. -/
def handle (server : ReplicationServer) (connection : Connection) (fails : Bool) (choice : Choice) :
    ReplicationServer × Connection :=
  match connection.handler with
  | none => (server, connection)
  | some handler =>
      match handler.stage with
      | .handshake => (server, readHandshake connection handler)
      | .registering requestId payloadLen =>
          server.registerFollower connection handler requestId payloadLen fails
      | .streaming nodeId startLsn => server.stream connection handler nodeId startLsn choice
      | .message nodeId startLsn code payloadLen =>
          server.readMessage connection handler nodeId startLsn code payloadLen
      | .ended _ => (server, connection)

end ReplicationServer

namespace ReplicationClient

/-- The follower gives its connection up and will try again. -/
def reconnects (client : ReplicationClient) (connection : Connection) :
    ReplicationClient × Connection :=
  ({ client with stage := .disconnected }, { connection with followerOpen := false })

/-- The follower's task ends. -/
def stops (client : ReplicationClient) (connection : Connection) (how : Ending) :
    ReplicationClient × Connection :=
  ({ client with stage := .stopped how }, { connection with followerOpen := false })

/-- The header of a message of the leader. -/
def readHeader (client : ReplicationClient) (number : Nat) (connection : Connection) :
    ReplicationClient × Connection :=
  match readExact headerSize connection.toFollower connection.leaderOpen with
  | none => (client, connection)
  | some (.error ()) => client.reconnects connection
  | some (.ok (header, rest)) =>
      let connection := { connection with toFollower := rest }
      if !hasMagic header then
        client.reconnects connection
      else
        match (do
          let code ← byteAt header 2
          let payloadLen ← payloadLength header
          .ok (code, payloadLen) : Attempt (Byte × Nat)) with
        | .ok (code, payloadLen) => ({ client with stage := .message number code payloadLen }, connection)
        | .err _ => client.reconnects connection
        | .halt _ => client.stops connection .panicked

/-- The payload of a message of the leader: an entry goes to the receiver, a heartbeat is answered
with the applied position. -/
def readMessage (client : ReplicationClient) (number : Nat) (connection : Connection) (code : Byte)
    (payloadLen : Nat) (fails : Bool) : ReplicationClient × Connection :=
  match readExact payloadLen connection.toFollower connection.leaderOpen with
  | none => (client, connection)
  | some (.error ()) => client.reconnects connection
  | some (.ok (payload, rest)) =>
      let connection := { connection with toFollower := rest }
      let client := { client with stage := .streaming number }
      if code = walEntryCode then
        match ReplicationWalEntry.decode payload with
        | .ok entry =>
            if fails then client.stops connection .returned
            else ({ client with received := client.received ++ [entry] }, connection)
        | .err _ => client.reconnects connection
        | .halt _ => client.stops connection .panicked
      else if code = heartbeatCode then
        if fails then
          client.reconnects connection
        else
          ({ client with announced := client.announced ++ [client.appliedLsn] },
            { connection with
              toLeader := connection.toLeader ++ createAckMessage client.appliedLsn })
      else
        (client, connection)

/-- One step of a follower on its connection. -/
def advance (client : ReplicationClient) (number : Nat) (connection : Connection) (fails : Bool) :
    ReplicationClient × Connection :=
  match client.stage with
  | .awaiting _ =>
      match readExact headerSize connection.toFollower connection.leaderOpen with
      | none => (client, connection)
      | some (.error ()) => client.reconnects connection
      | some (.ok (_, rest)) =>
          ({ client with stage := .streaming number }, { connection with toFollower := rest })
  | .streaming _ => client.readHeader number connection
  | .message _ code payloadLen => client.readMessage number connection code payloadLen fails
  | _ => (client, connection)

/-- The connection of a follower. -/
def connection? (client : ReplicationClient) : Option Nat :=
  match client.stage with
  | .awaiting number | .streaming number | .message number _ _ => some number
  | _ => none

end ReplicationClient

namespace World

/-- A leader without entries, and followers with names and positions. -/
def start (nodeIds : Nat → Bytes) (applied : Nat → Nat) : World where
  server := ⟨0, [], []⟩
  clients := fun client => ⟨nodeIds client, applied client, .disconnected, [], []⟩
  connections := []

/-- Change a follower. -/
def setClient (world : World) (number : Nat) (client : ReplicationClient) : World :=
  { world with clients := Function.update world.clients number client }

/-- One step. -/
def step (world : World) : Event → World
  | .allocate => { world with server.currentLsn := world.server.currentLsn + 1 }
  | .broadcast entry =>
      { world with
        server := world.server.broadcastEntry entry (world.connections.any Connection.listens) }
  | .connect number fails =>
      let client := world.clients number
      if client.stage ≠ .disconnected ∨ fails then
        world
      else
        { world.setClient number { client with
            stage := .awaiting world.connections.length
            announced := client.announced ++ [client.appliedLsn] } with
          connections := world.connections ++
            [.opened (createReplicateRequest client.nodeId client.appliedLsn)] }
  | .accept number =>
      match world.connections[number]? with
      | some connection =>
          if connection.handler = none then
            { world with
              connections := world.connections.set number
                { connection with handler := some ⟨.handshake, world.server.broadcasted.length⟩ } }
          else
            world
      | none => world
  | .handle number fails choice =>
      match world.connections[number]? with
      | some connection =>
          let (server, connection) := world.server.handle connection fails choice
          { world with server := server, connections := world.connections.set number connection }
      | none => world
  | .client number fails =>
      match (world.clients number).connection? with
      | some place =>
          match world.connections[place]? with
          | some connection =>
              let (client, connection) := (world.clients number).advance place connection fails
              { world.setClient number client with
                connections := world.connections.set place connection }
          | none => world
      | none => world
  | .setApplied number lsn => world.setClient number { world.clients number with appliedLsn := lsn }
  | .cut number =>
      match world.connections[number]? with
      | some connection =>
          { world with connections := world.connections.set number connection.closed }
      | none => world

/-- The world after some steps. -/
def run (world : World) (events : List Event) : World := events.foldl step world

end World

end JouleDB.Replication
