import JouleDB.Replication.Stream

/-!
# No entry reaches a follower

The header that the leader reads from a follower ends before the payload length that it takes from it.
Every handler therefore fails or panics at the handshake, before it registers the follower and sends
anything.  A follower gets nothing, whatever is broadcast.
-/

namespace JouleDB.Replication

/-! ## What a follower should get -/

/-- The entries that a run broadcasts. -/
def broadcasts (events : List Event) : List ReplicationWalEntry :=
  events.filterMap fun event =>
    match event with
    | .broadcast entry => some entry
    | _ => none

/-- The entries of a run after a position. -/
def entriesAfter (startLsn : Nat) (events : List Event) : List ReplicationWalEntry :=
  (broadcasts events).filter fun entry => startLsn < entry.lsn

/-- The run can go on, without further entries, until the receiver of a follower has been handed the
entries after the position that the follower started from, in order and no others. -/
def HandsOver (world : World) (client : Nat) (events : List Event) : Prop :=
  ∃ more, broadcasts more = [] ∧ ((world.run (events ++ more)).clients client).received =
    entriesAfter (world.clients client).appliedLsn events

/-- What the leader takes for acknowledged are positions that the follower of that name has sent. -/
def AcksSent (world : World) : Prop :=
  ∀ nodeId state, (nodeId, state) ∈ world.server.followers →
    ∃ client, (world.clients client).nodeId = nodeId ∧ state.ackedLsn ∈ (world.clients client).announced

/-! ## What every run keeps -/

/-- A connection whose handler has not got past the handshake. -/
structure Connection.Mute (connection : Connection) : Prop where
  silent : connection.toFollower = []
  early : ∀ handler, connection.handler = some handler →
    handler.stage = .handshake ∨ ∃ how, handler.stage = .ended how

/-- A follower that has got nothing. -/
structure ReplicationClient.Idle (client : ReplicationClient) : Prop where
  nothing : client.received = []
  early : client.stage = .disconnected ∨ ∃ connection, client.stage = .awaiting connection

/-- No follower is registered, and none has got anything. -/
structure World.Mute (world : World) : Prop where
  followers : world.server.followers = []
  clients : ∀ client, (world.clients client).Idle
  connections : ∀ connection ∈ world.connections, connection.Mute

section Steps

variable {world : World} {connection : Connection} {client : ReplicationClient}

theorem readExact_length {count : Nat} {stream bytes rest : Bytes} {writerOpen : Bool}
    (read : readExact count stream writerOpen = some (.ok (bytes, rest))) : bytes.length = count := by
  rw [readExact] at read
  split at read
  next enough =>
    cases read
    exact List.length_take_of_le enough
  next => split at read <;> cases read

theorem Connection.Mute.finished (mute : connection.Mute) (handler : Handler) (how : Ending) :
    (connection.finished handler how).Mute := by
  refine ⟨mute.silent, ?_⟩
  rintro other ⟨⟩
  exact .inr ⟨how, rfl⟩

theorem Connection.Mute.readHandshake (mute : connection.Mute) (handler : Handler) :
    (ReplicationServer.readHandshake connection handler).Mute := by
  rw [ReplicationServer.readHandshake]
  split
  next => exact mute
  next => exact mute.finished handler .failed
  next header rest read =>
    have consumed : ({ connection with toLeader := rest } : Connection).Mute :=
      ⟨mute.silent, mute.early⟩
    have panics := payloadLength_panics (readExact_length read)
    split
    · exact consumed.finished handler .failed
    · rw [panics]
      cases numberAt header 4 4 with
      | ok requestId => exact consumed.finished handler .panicked
      | err error => exact consumed.finished handler .failed
      | halt cause => exact consumed.finished handler .panicked

theorem Connection.Mute.handle (mute : connection.Mute) (server : ReplicationServer) (fails : Bool)
    (choice : Choice) :
    (server.handle connection fails choice).1 = server ∧
      (server.handle connection fails choice).2.Mute := by
  rw [ReplicationServer.handle]
  cases present : connection.handler with
  | none => exact ⟨rfl, mute⟩
  | some handler =>
      rcases mute.early handler present with early | ⟨how, early⟩
      · simp only [early]
        exact ⟨trivial, mute.readHandshake handler⟩
      · simp only [early]
        exact ⟨trivial, mute⟩

/-- A follower whose leader says nothing waits, or tries again. -/
theorem ReplicationClient.Idle.advance (idle : client.Idle) (mute : connection.Mute) (number : Nat)
    (fails : Bool) :
    (client.advance number connection fails).1.Idle ∧
      (client.advance number connection fails).2.Mute := by
  have nothing : readExact headerSize connection.toFollower connection.leaderOpen =
      if connection.leaderOpen then none else some (.error ()) := by
    rw [mute.silent]
    rfl
  rw [ReplicationClient.advance]
  rcases idle.early with early | ⟨place, early⟩
  · simp only [early]
    exact ⟨idle, mute⟩
  · simp only [early, nothing]
    cases connection.leaderOpen with
    | true => exact ⟨idle, mute⟩
    | false => exact ⟨⟨idle.nothing, .inl rfl⟩, ⟨mute.silent, mute.early⟩⟩

theorem forall_mem_set {α : Type} {property : α → Prop} {items : List α}
    (all : ∀ item ∈ items, property item) (index : Nat) {item : α} (here : property item) :
    ∀ other ∈ items.set index item, property other := by
  intro other member
  rcases List.mem_or_eq_of_mem_set member with old | rfl
  · exact all other old
  · exact here

theorem World.Mute.setClient (mute : world.Mute) (number : Nat) (idle : client.Idle) :
    (world.setClient number client).Mute := by
  refine ⟨mute.followers, fun other => ?_, mute.connections⟩
  by_cases same : other = number
  · subst same
    simpa [World.setClient] using idle
  · simpa [World.setClient, same] using mute.clients other

theorem World.Mute.setConnection (mute : world.Mute) (number : Nat) (other : connection.Mute) :
    ({ world with connections := world.connections.set number connection } : World).Mute :=
  ⟨mute.followers, mute.clients, forall_mem_set mute.connections number other⟩

theorem World.Mute.step (mute : world.Mute) (event : Event) : (world.step event).Mute := by
  cases event with
  | allocate => exact ⟨mute.followers, mute.clients, mute.connections⟩
  | broadcast entry => exact ⟨mute.followers, mute.clients, mute.connections⟩
  | connect number fails =>
      simp only [World.step]
      split
      · exact mute
      · have idle := mute.clients number
        have waiting : ReplicationClient.Idle { world.clients number with
            stage := .awaiting world.connections.length
            announced := (world.clients number).announced ++ [(world.clients number).appliedLsn] } :=
          ⟨idle.nothing, .inr ⟨_, rfl⟩⟩
        have changed := mute.setClient number waiting
        refine ⟨changed.followers, changed.clients, ?_⟩
        exact List.forall_mem_append.mpr ⟨mute.connections, List.forall_mem_singleton.mpr ⟨rfl, nofun⟩⟩
  | accept number =>
      simp only [World.step]
      split
      next connection found =>
        have here := mute.connections connection (List.mem_of_getElem? found)
        split
        · refine mute.setConnection number ⟨here.silent, ?_⟩
          rintro handler ⟨⟩
          exact .inl rfl
        · exact mute
      next => exact mute
  | handle number fails choice =>
      simp only [World.step]
      split
      next connection found =>
        have here := mute.connections connection (List.mem_of_getElem? found)
        obtain ⟨same, after⟩ := here.handle world.server fails choice
        rw [same]
        exact mute.setConnection number after
      next => exact mute
  | client number fails =>
      simp only [World.step]
      split
      next place _ =>
        split
        next connection found =>
          have here := mute.connections connection (List.mem_of_getElem? found)
          obtain ⟨idle, after⟩ := (mute.clients number).advance here place fails
          exact (mute.setClient number idle).setConnection place after
        next => exact mute
      next => exact mute
  | setApplied number lsn =>
      have idle := mute.clients number
      exact mute.setClient number ⟨idle.nothing, idle.early⟩
  | cut number =>
      simp only [World.step]
      split
      next connection found =>
        have here := mute.connections connection (List.mem_of_getElem? found)
        exact mute.setConnection number ⟨here.silent, here.early⟩
      next => exact mute

end Steps

theorem World.Mute.run {world : World} (mute : world.Mute) (events : List Event) :
    (world.run events).Mute := by
  induction events generalizing world with
  | nil => exact mute
  | cons event events ih => exact ih (mute.step event)

theorem mute_start (nodeIds : Nat → Bytes) (applied : Nat → Nat) : (World.start nodeIds applied).Mute :=
  ⟨rfl, fun _ => ⟨rfl, .inl rfl⟩, nofun⟩

/-! ## The result -/

/-- A follower is handed the entries after its position only if there are none. -/
theorem handsOver_iff (nodeIds : Nat → Bytes) (applied : Nat → Nat) (client : Nat)
    (events : List Event) :
    HandsOver (World.start nodeIds applied) client events ∧
        AcksSent ((World.start nodeIds applied).run events) ↔
      entriesAfter (applied client) events = [] := by
  have mute := mute_start nodeIds applied
  constructor
  · rintro ⟨⟨more, -, handed⟩, -⟩
    rw [((mute.run (events ++ more)).clients client).nothing] at handed
    exact handed.symm
  · intro none
    refine ⟨⟨[], rfl, ?_⟩, fun nodeId state member => ?_⟩
    · rw [((mute.run (events ++ [])).clients client).nothing]
      exact none.symm
    · rw [(mute.run events).followers] at member
      cases member

/-- The first entry, broadcast while a follower is connected. -/
def firstEntry : ReplicationWalEntry := ⟨1, .put, [1], some [2], 0⟩

/-- A follower without entries connects and is accepted, and the first entry is broadcast. -/
def firstRun : List Event := [.connect 0 false, .accept 0, .broadcast firstEntry]

/-- The first entry never gets to the follower. -/
theorem firstRun_loses :
    entriesAfter 0 firstRun = [firstEntry] ∧
      ¬ HandsOver (World.start (fun _ => [97]) fun _ => 0) 0 firstRun := by
  refine ⟨by decide, ?_⟩
  rintro ⟨more, -, handed⟩
  rw [(((mute_start _ _).run (firstRun ++ more)).clients 0).nothing] at handed
  exact absurd handed.symm (by decide)

/-- The handler of the connection panics at the handshake. -/
example : (((World.start (fun _ => [97]) fun _ => 0).run
    (firstRun ++ [.handle 0 false .read])).connections[0]?).bind Connection.handler =
      some ⟨.ended .panicked, 0⟩ := by decide

end JouleDB.Replication
