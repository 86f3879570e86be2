import JouleDB.Crdt.LWWMap

/-!
# Replicas of a last-writer-wins map

A register holds the observed write with the largest timestamp.  Timestamps of one replica grow
while the counter does not wrap; those of different replicas differ if the hashes of their node
ids do.
-/

namespace JouleDB.Crdt

namespace LWWMap

/-- A write: the key, the value, and the reading of the wall clock at that moment. -/
structure Write where
  key : String
  value : Bytes
  clock : UInt64
  deriving DecidableEq

variable {ι : Type}

/-- Replicas of a map, each writing under its own node id. -/
def replicated (nodeId : ι → String) : Replicated ι LWWMap Write where
  initial := .new
  update := fun id write map => map.set write.key write.value (nodeId id) write.clock
  merge := merge

/-- The register that a write leaves behind, given the one before it. -/
def writeRegister (before : Option LWWRegister) (write : Write) (nodeId : String) : LWWRegister :=
  match before with
  | some register => register.set write.value nodeId write.clock
  | none => .new write.value nodeId write.clock

section Events

variable (nodeId : ι → String) (events : List (Executed ι LWWMap Write))

/-- The register of a write. -/
def written (event : Executed ι LWWMap Write) : LWWRegister :=
  writeRegister event.before.state.entries[event.operation.key]? event.operation
    (nodeId event.replica)

/-- The operation at a position writes the key and leaves the register behind. -/
def Writes (position : Nat) (key : String) (register : LWWRegister) : Prop :=
  ∃ event, events[position]? = some event ∧ event.operation.key = key ∧
    register = written nodeId event

/-- The operation at a position writes the key and has seen the operation at another position. -/
def Overwrites (position : Nat) (key : String) (seen : Nat) : Prop :=
  ∃ event, events[position]? = some event ∧ event.operation.key = key ∧
    seen ∈ event.before.observed

/-- Timestamps of a key are given once, and grow from a write to those that have seen it. -/
structure Fine : Prop where
  earlier : ∀ {position key seen}, Overwrites events position key seen → seen < position
  once : ∀ {first second key one other}, Writes nodeId events first key one →
    Writes nodeId events second key other → one.timestamp = other.timestamp → first = second
  grow : ∀ {first second key one other}, Writes nodeId events first key one →
    Writes nodeId events second key other → Overwrites events second key first →
    one.timestamp < other.timestamp

/-- A register is the observed write with the largest timestamp. -/
structure Good (replica : Replica LWWMap) : Prop where
  observed : ∀ position ∈ replica.observed, position < events.length
  source : ∀ key register, replica.state.entries[key]? = some register →
    ∃ position ∈ replica.observed, Writes nodeId events position key register
  largest : ∀ position ∈ replica.observed, ∀ key register,
    Writes nodeId events position key register →
    ∃ latest, replica.state.entries[key]? = some latest ∧
      register.timestamp ≤ latest.timestamp

/-- A replica has observed its own writes. -/
def Own (id : ι) (replica : Replica LWWMap) : Prop :=
  ∀ position event, events[position]? = some event → event.replica = id →
    position ∈ replica.observed

/-- The counter of the written register has room. -/
def hasRoom : Network.Conditions ι LWWMap Write where
  update := fun _ write map =>
    ∀ register, map.entries[write.key]? = some register → register.HasRoom write.clock
  merge := fun _ _ => True

end Events

section Steps

variable {nodeId : ι → String} {events : List (Executed ι LWWMap Write)}
  {event : Executed ι LWWMap Write} {replica other : Replica LWWMap} {id : ι} {position : Nat}
  {key : String} {register : LWWRegister} {write : Write}

theorem getElem?_set (map : LWWMap) (nodeId : String) :
    (map.set write.key write.value nodeId write.clock).entries[key]? =
      if key = write.key then some (writeRegister map.entries[write.key]? write nodeId)
      else map.entries[key]? := by
  rw [set]
  by_cases same : key = write.key
  · subst same
    rw [if_pos rfl]
    split
    next register held => simp [writeRegister, held]
    next absent => simp [writeRegister, absent]
  · have distinct : write.key ≠ key := fun equal => same equal.symm
    rw [if_neg same]
    split <;> simp [Std.ExtTreeMap.getElem?_insert, distinct]

theorem getElem?_merge (map other : LWWMap) :
    (map.merge other).entries[key]? =
      match map.entries[key]?, other.entries[key]? with
      | some register, some remote => some (register.merge remote)
      | none, some remote => some remote
      | held, none => held := by
  rw [merge]
  dsimp only
  rw [FiniteMap.getElem?_absorb]
  cases map.entries[key]? <;> cases other.entries[key]? <;> rfl

theorem Writes.lt_length (writes : Writes nodeId events position key register) :
    position < events.length := by
  obtain ⟨_, found, _⟩ := writes
  exact (List.getElem?_eq_some_iff.mp found).1

theorem writes_concat_of_lt (inside : position < events.length) :
    Writes nodeId (events ++ [event]) position key register ↔
      Writes nodeId events position key register := by
  rw [Writes, Writes, List.getElem?_append_left inside]

/-- A write is the last operation or an earlier one. -/
theorem writes_concat (writes : Writes nodeId (events ++ [event]) position key register) :
    Writes nodeId events position key register ∨
      position = events.length ∧ event.operation.key = key ∧ register = written nodeId event := by
  obtain ⟨found, atPosition, isKey, isRegister⟩ := writes
  rcases getElem?_concat_cases atPosition with old | ⟨last, rfl⟩
  · exact .inl ⟨found, old, isKey, isRegister⟩
  · exact .inr ⟨last, isKey, isRegister⟩

/-- What has seen another operation is the last operation or an earlier one. -/
theorem overwrites_concat {seen : Nat}
    (overwrites : Overwrites (events ++ [event]) position key seen) :
    Overwrites events position key seen ∨
      position = events.length ∧ seen ∈ event.before.observed := by
  obtain ⟨found, atPosition, isKey, isSeen⟩ := overwrites
  rcases getElem?_concat_cases atPosition with old | ⟨last, rfl⟩
  · exact .inl ⟨found, old, isKey, isSeen⟩
  · exact .inr ⟨last, isSeen⟩

theorem writes_last :
    Writes nodeId (events ++ [event]) events.length event.operation.key
      (written nodeId event) :=
  ⟨event, List.getElem?_concat_length, rfl, rfl⟩

theorem Good.concat (good : Good nodeId events replica) (event : Executed ι LWWMap Write) :
    Good nodeId (events ++ [event]) replica := by
  refine ⟨?_, ?_, ?_⟩
  · intro position member
    exact (good.observed position member).trans (by simp)
  · intro key register held
    obtain ⟨position, member, writes⟩ := good.source key register held
    exact ⟨position, member, (writes_concat_of_lt writes.lt_length).mpr writes⟩
  · intro position member key register writes
    rw [writes_concat_of_lt (good.observed position member)] at writes
    exact good.largest position member key register writes

/-- The write of a replica has a larger timestamp than all writes that it has observed. -/
theorem Good.lt_written (good : Good nodeId events replica)
    (room : hasRoom.update id write replica.state) (member : position ∈ replica.observed)
    (writes : Writes nodeId events position write.key register) :
    register.timestamp < (written nodeId ⟨id, write, replica⟩).timestamp := by
  obtain ⟨latest, held, below⟩ := good.largest position member write.key register writes
  apply below.trans_lt
  rw [written]
  dsimp only
  rw [held]
  exact LWWRegister.lt_timestamp_set (room latest held)

theorem nodeHash_written : (written nodeId event).timestamp.nodeHash =
    simpleHash (nodeId event.replica) := by
  rw [written]
  cases event.before.state.entries[event.operation.key]? <;> rfl

theorem Good.set (good : Good nodeId events replica)
    (room : hasRoom.update id write replica.state) :
    Good nodeId (events ++ [⟨id, write, replica⟩])
      ⟨replica.state.set write.key write.value (nodeId id) write.clock,
        insert events.length replica.observed⟩ := by
  have before := good.concat ⟨id, write, replica⟩
  refine ⟨?_, ?_, ?_⟩
  · intro position member
    rcases Finset.mem_insert.mp member with rfl | old
    · simp
    · exact before.observed position old
  · intro key register held
    rw [getElem?_set] at held
    split at held
    next same =>
      subst same
      cases held
      exact ⟨events.length, Finset.mem_insert_self _ _, writes_last⟩
    next apart =>
      obtain ⟨position, member, writes⟩ := before.source key register held
      exact ⟨position, Finset.mem_insert_of_mem member, writes⟩
  · intro position member key register writes
    rw [getElem?_set]
    rcases writes_concat writes with old | ⟨_, rfl, rfl⟩
    · have observed : position ∈ replica.observed :=
        (Finset.mem_insert.mp member).resolve_left old.lt_length.ne
      split
      next same =>
        subst same
        exact ⟨_, rfl, (good.lt_written room observed old).le⟩
      next apart => exact good.largest position observed key register old
    · rw [if_pos rfl]
      exact ⟨_, rfl, le_rfl⟩

theorem Good.merge (good : Good nodeId events replica) (goodOther : Good nodeId events other) :
    Good nodeId events
      ⟨replica.state.merge other.state, replica.observed ∪ other.observed⟩ := by
  refine ⟨?_, ?_, ?_⟩
  · intro position member
    rcases Finset.mem_union.mp member with here | there
    · exact good.observed position here
    · exact goodOther.observed position there
  · intro key register held
    have either : replica.state.entries[key]? = some register ∨
        other.state.entries[key]? = some register := by
      rw [getElem?_merge] at held
      cases here : replica.state.entries[key]? with
      | none =>
          rw [here] at held
          cases there : other.state.entries[key]? <;> rw [there] at held <;> simp_all
      | some mine =>
          rw [here] at held
          cases there : other.state.entries[key]? with
          | none =>
              rw [there] at held
              exact .inl held
          | some remote =>
              rw [there] at held
              rcases mine.merge_eq_or remote with same | same <;> simp_all
    rcases either with here | there
    · obtain ⟨position, member, writes⟩ := good.source key register here
      exact ⟨position, Finset.mem_union_left _ member, writes⟩
    · obtain ⟨position, member, writes⟩ := goodOther.source key register there
      exact ⟨position, Finset.mem_union_right _ member, writes⟩
  · intro position member key register writes
    dsimp only
    rw [getElem?_merge]
    rcases Finset.mem_union.mp member with here | there
    · obtain ⟨latest, held, below⟩ := good.largest position here key register writes
      rw [held]
      cases other.state.entries[key]? with
      | none => exact ⟨latest, rfl, below⟩
      | some remote =>
          refine ⟨latest.merge remote, rfl, ?_⟩
          rw [LWWRegister.timestamp_merge]
          exact below.trans (le_max_left _ _)
    · obtain ⟨latest, held, below⟩ := goodOther.largest position there key register writes
      rw [held]
      cases replica.state.entries[key]? with
      | none => exact ⟨latest, rfl, below⟩
      | some mine =>
          refine ⟨mine.merge latest, rfl, ?_⟩
          rw [LWWRegister.timestamp_merge]
          exact below.trans (le_max_right _ _)

end Steps

section Runs

variable {nodeId : ι → String} {events : List (Executed ι LWWMap Write)}

/-- A step keeps the registers at the largest timestamp observed. -/
theorem kept (distinct : Function.Injective fun id => simpleHash (nodeId id)) :
    Network.Kept (replicated nodeId) hasRoom (Fine nodeId) (Good nodeId) Own := by
  have none : ∀ {position key register}, ¬Writes nodeId [] position key register := by
    rintro position key register ⟨event, found, _⟩
    exact absurd found (by simp)
  constructor
  · refine ⟨?_, fun writes => absurd writes none, fun writes => absurd writes none⟩
    rintro position key seen ⟨event, found, _⟩
    exact absurd found (by simp)
  · refine ⟨?_, ?_, ?_⟩
    · exact fun position member => absurd member (Finset.notMem_empty _)
    · exact fun key register held => absurd held (by simp [replicated, new])
    · exact fun position member => absurd member (Finset.notMem_empty _)
  · exact fun id position event found => absurd found (by simp)
  · exact fun good => good.concat _
  · intro events event id replica apart _ own position found atPosition isOwn
    rcases getElem?_concat_cases atPosition with old | ⟨_, rfl⟩
    · exact own position found old isOwn
    · exact absurd isOwn apart
  · intro events id replica write fine good own room
    have fresh : ∀ {position register}, Writes nodeId events position write.key register →
        register.timestamp ≠ (written nodeId ⟨id, write, replica⟩).timestamp := by
      rintro position register ⟨event, found, isKey, rfl⟩ same
      have hashes := congrArg HLCTimestamp.nodeHash same
      rw [nodeHash_written, nodeHash_written] at hashes
      have observed := own position event found (distinct hashes)
      have less := good.lt_written room observed ⟨event, found, isKey, rfl⟩
      exact less.ne same
    have earlier : ∀ {position key seen},
        Overwrites (events ++ [⟨id, write, replica⟩]) position key seen → seen < position := by
      intro position key seen overwrites
      rcases overwrites_concat overwrites with old | ⟨rfl, isSeen⟩
      · exact fine.earlier old
      · exact good.observed seen isSeen
    refine ⟨⟨earlier, ?_, ?_⟩, good.set room, ?_⟩
    · intro first second key one other firstWrites secondWrites same
      rcases writes_concat firstWrites with old | ⟨last, rfl, rfl⟩
      · rcases writes_concat secondWrites with alsoOld | ⟨_, rfl, rfl⟩
        · exact fine.once old alsoOld same
        · exact absurd same (fresh old)
      · rcases writes_concat secondWrites with old | ⟨alsoLast, _, _⟩
        · exact absurd same.symm (fresh old)
        · rw [last, alsoLast]
    · intro first second key one other firstWrites secondWrites overwrites
      have isEarlier : first < second := earlier overwrites
      have inside : first < events.length :=
        isEarlier.trans_le (Nat.lt_succ_iff.mp (by simpa using secondWrites.lt_length))
      rw [writes_concat_of_lt inside] at firstWrites
      rcases overwrites_concat overwrites with old | ⟨rfl, seen⟩
      · have alsoInside : second < events.length := by
          obtain ⟨event, found, _⟩ := old
          exact (List.getElem?_eq_some_iff.mp found).1
        rw [writes_concat_of_lt alsoInside] at secondWrites
        exact fine.grow firstWrites secondWrites old
      · rcases writes_concat secondWrites with old | ⟨_, rfl, rfl⟩
        · exact absurd old.lt_length (lt_irrefl _)
        · exact good.lt_written room seen firstWrites
    · intro position event found isOwn
      rcases getElem?_concat_cases found with old | ⟨rfl, _⟩
      · exact Finset.mem_insert_of_mem (own position event old isOwn)
      · exact Finset.mem_insert_self _ _
  · intro events id replica other _ good goodOther own _
    refine ⟨good.merge goodOther, ?_⟩
    exact fun position event found isOwn =>
      Finset.mem_union_left _ (own position event found isOwn)

/-- Replicas that have observed the same writes hold the same values; and a key that has been
written holds an observed write that no observed write of the key had seen. -/
structure Converges (nodeId : ι → String) (network : Network ι LWWMap Write) : Prop where
  agree : ∀ time first later second key,
    (network.snapshot time first).observed = (network.snapshot later second).observed →
    (network.snapshot time first).state.get key = (network.snapshot later second).state.get key
  latest : ∀ time id key, ∀ position ∈ (network.snapshot time id).observed, ∀ register,
    Writes nodeId network.events position key register →
    ∃ current ∈ (network.snapshot time id).observed, ∃ held,
      (network.snapshot time id).state.entries[key]? = some held ∧
      Writes nodeId network.events current key held ∧
      ∀ later ∈ (network.snapshot time id).observed,
        ¬Overwrites network.events later key current

/-- What one of two replicas with the same observed writes holds, the other holds as well. -/
theorem Good.agree {first second : Replica LWWMap} (good : Good nodeId events first)
    (goodSecond : Good nodeId events second) (fine : Fine nodeId events)
    (same : first.observed = second.observed) {key : String} {register : LWWRegister}
    (held : first.state.entries[key]? = some register) :
    second.state.entries[key]? = some register := by
  obtain ⟨position, member, writes⟩ := good.source key register held
  obtain ⟨latest, alsoHeld, below⟩ :=
    goodSecond.largest position (same ▸ member) key register writes
  obtain ⟨other, alsoMember, alsoWrites⟩ := goodSecond.source key latest alsoHeld
  obtain ⟨largest, again, above⟩ := good.largest other (same ▸ alsoMember) key latest alsoWrites
  rw [held] at again
  cases again
  have equal := fine.once writes alsoWrites (le_antisymm below above)
  subst equal
  obtain ⟨event, found, _, rfl⟩ := writes
  obtain ⟨alsoEvent, alsoFound, _, rfl⟩ := alsoWrites
  rw [found] at alsoFound
  cases alsoFound
  exact alsoHeld

theorem Good.latest {replica : Replica LWWMap} (good : Good nodeId events replica)
    (fine : Fine nodeId events) {position : Nat} (member : position ∈ replica.observed)
    {key : String} {register : LWWRegister} (writes : Writes nodeId events position key register) :
    ∃ current ∈ replica.observed, ∃ held, replica.state.entries[key]? = some held ∧
      Writes nodeId events current key held ∧
      ∀ later ∈ replica.observed, ¬Overwrites events later key current := by
  obtain ⟨held, isHeld, _⟩ := good.largest position member key register writes
  obtain ⟨current, observed, source⟩ := good.source key held isHeld
  refine ⟨current, observed, held, isHeld, source, ?_⟩
  rintro later alsoObserved ⟨event, found, isKey, seen⟩
  have alsoWrites : Writes nodeId events later key (written nodeId event) :=
    ⟨event, found, isKey, rfl⟩
  obtain ⟨largest, again, below⟩ := good.largest later alsoObserved key _ alsoWrites
  rw [isHeld] at again
  cases again
  exact (fine.grow source alsoWrites ⟨event, found, isKey, seen⟩).not_ge below

variable [DecidableEq ι]

/-- Two replicas write a key at the same reading of the wall clock, and merge each other. -/
def tied (first second : ι) : List (Exchange ι Write) :=
  [.update first ⟨"k", [1], 0⟩, .update second ⟨"k", [2], 0⟩, .merge first 2 second,
    .merge second 2 first]

theorem meetsAll_tied {first second : ι} (apart : first ≠ second) :
    Network.MeetsAll (replicated nodeId) hasRoom (tied first second) := by
  have start : Network.MeetsAll (replicated nodeId) hasRoom
      ([] ++ [.update first ⟨"k", [1], 0⟩] ++ [.update second ⟨"k", [2], 0⟩]) := by
    apply Network.MeetsAll.concat
    · apply Network.meetsAll_nil.concat
      simp [Network.Meets, hasRoom, Network.run, Network.start, replicated, new]
    · simp [Network.Meets, hasRoom, Network.run, Network.start, Network.step, Network.replace,
        replicated, new, Function.update_of_ne apart.symm]
  have third : Network.MeetsAll (replicated nodeId) hasRoom ([] ++
      [.update first ⟨"k", [1], 0⟩] ++ [.update second ⟨"k", [2], 0⟩] ++ [.merge first 2 second]) :=
    start.concat trivial
  exact third.concat trivial

/-- Equal hashes of two node ids leave their replicas with different values. -/
theorem get_tied {first second : ι} (apart : first ≠ second)
    (collide : simpleHash (nodeId first) = simpleHash (nodeId second)) :
    let network := Network.run (replicated nodeId) (tied first second)
    (network.replicas first).observed = (network.replicas second).observed ∧
      (network.replicas first).state.get "k" = some [1] ∧
      (network.replicas second).state.get "k" = some [2] := by
  have kept : ∀ value other : Bytes,
      (LWWRegister.new value (nodeId first) 0).merge (LWWRegister.new other (nodeId second) 0) =
        LWWRegister.new value (nodeId first) 0 := by
    intro value other
    simp [LWWRegister.merge, LWWRegister.new, HLCTimestamp.now, collide]
  have alsoKept : ∀ value other : Bytes,
      (LWWRegister.new value (nodeId second) 0).merge (LWWRegister.new other (nodeId first) 0) =
        LWWRegister.new value (nodeId second) 0 := by
    intro value other
    simp [LWWRegister.merge, LWWRegister.new, HLCTimestamp.now, collide]
  simp [tied, Network.run, Network.start, Network.step, Network.replace, Network.snapshot,
    replicated, new, set, get, getElem?_merge, apart, apart.symm, kept, alsoKept,
    Finset.pair_comm 0 1]

/-- Replicas converge in all runs that leave the counters room, exactly if the hashes of their node
ids are distinct. -/
theorem converges_iff_hashes_distinct (nodeId : ι → String) :
    (∀ exchanges, Network.MeetsAll (replicated nodeId) hasRoom exchanges →
      Converges nodeId (.run (replicated nodeId) exchanges)) ↔
    Function.Injective fun id => simpleHash (nodeId id) := by
  constructor
  · intro converges first second collide
    by_contra apart
    obtain ⟨same, one, two⟩ := get_tied apart collide
    have agree := (converges _ (meetsAll_tied apart)).agree 4 first 4 second "k" same
    have equal := one.symm.trans (agree.trans two)
    exact absurd equal (by decide)
  · intro distinct exchanges meets
    have holds := (kept distinct).holds_run meets
    constructor
    · intro time first later second key same
      have good := holds.snapshot time first
      have goodSecond := holds.snapshot later second
      rw [get, get]
      congr 1
      ext register
      exact ⟨good.agree goodSecond holds.fine same, goodSecond.agree good holds.fine same.symm⟩
    · intro time id key position member register writes
      exact (holds.snapshot time id).latest holds.fine member writes

/-- Node ids with the same hash. -/
theorem colliding_ids_diverge :
    let nodeId : Bool → String := fun id => if id then "BB" else "Aa"
    let network := Network.run (replicated nodeId) (tied false true)
    Function.Injective nodeId ∧
      (network.replicas false).observed = (network.replicas true).observed ∧
      (network.replicas false).state.get "k" = some [1] ∧
      (network.replicas true).state.get "k" = some [2] := by
  decide +kernel

end Runs

end LWWMap

end JouleDB.Crdt
