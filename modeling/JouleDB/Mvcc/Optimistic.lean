import JouleDB.Lib.FiniteMap
import JouleDB.Mvcc.Transaction

/-!
# Optimistic transactions

Writes are kept back until commit, which succeeds only if no key that was read or written has got
a version since the transaction began.  A removed key has no version to tell: it is the one change
that validation does not see.
-/

namespace JouleDB.Mvcc

/-- A value with the timestamp of the commit that wrote it. -/
structure VersionedValue where
  value : Bytes
  writeTimestamp : Nat

/-- An optimistic transaction.  Commit and rollback use it up: while it is there it is active. -/
structure OccTransaction where
  id : TxId
  startTimestamp : Nat
  readSet : Finset Bytes
  writeSet : FiniteMap Bytes Bytes

namespace OccTransaction

/-- A new transaction takes two timestamps. -/
def new (counter : Nat) : OccTransaction := ⟨counter, counter + 1, ∅, ∅⟩

/-- Read a value, from the own writes first: an own deletion is found as an empty value. -/
def get (tx : OccTransaction) (store : FiniteMap Bytes VersionedValue) (key : Bytes) :
    Option Bytes × OccTransaction :=
  (match tx.writeSet[key]? with
    | some value => some value
    | none => store[key]?.map (·.value),
    { tx with readSet := insert key tx.readSet })

def put (tx : OccTransaction) (key value : Bytes) : OccTransaction :=
  { tx with writeSet := tx.writeSet.insert key value }

/-- Delete a key by writing the empty value. -/
def delete (tx : OccTransaction) (store : FiniteMap Bytes VersionedValue) (key : Bytes) :
    Bool × OccTransaction :=
  let (found, tx) := tx.get store key
  (found.isSome, { tx with writeSet := tx.writeSet.insert key [] })

/-- A key has got a version since the transaction began. -/
def changed (tx : OccTransaction) (store : FiniteMap Bytes VersionedValue) (key : Bytes) : Bool :=
  match store[key]? with
  | some versioned => tx.startTimestamp < versioned.writeTimestamp
  | none => false

def validate (tx : OccTransaction) (store : FiniteMap Bytes VersionedValue) : Bool :=
  decide (∀ key ∈ tx.readSet, tx.changed store key = true → tx.writeSet.contains key = true) &&
    tx.writeSet.keys.all fun key => !tx.changed store key

/-- Commit: the reply, the store and the timestamp counter. -/
def commit (tx : OccTransaction) (store : FiniteMap Bytes VersionedValue) (counter : Nat) :
    Except TransactionError Unit × FiniteMap Bytes VersionedValue × Nat :=
  if tx.validate store then
    (.ok (), store.absorb (fun _ value => if value.isEmpty then none else some ⟨value, counter⟩)
      tx.writeSet, counter + 1)
  else
    (.error (.serializationFailure "validation failed - conflict detected"), store, counter)

/-- What passes validation has not changed. -/
theorem changed_eq_false {tx : OccTransaction} {store : FiniteMap Bytes VersionedValue}
    {key : Bytes} (valid : tx.validate store = true) (read : key ∈ tx.readSet) :
    tx.changed store key = false := by
  obtain ⟨reads, writes⟩ := (Bool.and_eq_true _ _).mp valid
  by_contra differs
  have written := of_decide_eq_true reads key read (by simpa using differs)
  have same := List.all_eq_true.mp writes key (Std.ExtTreeMap.mem_keys.mpr written)
  simp [differs] at same

end OccTransaction

/-- The store of the manager, the timestamp counter, and the transactions that have not ended, each
with what it has read from the store so far. -/
structure OccWorld where
  store : FiniteMap Bytes VersionedValue
  counter : Nat
  transactions : TxId → Option (OccTransaction × List (Bytes × Option Bytes))

/-- The calls on a transaction. -/
inductive OccCall where
  | get (key : Bytes)
  | put (key value : Bytes)
  | delete (key : Bytes)
  | commit
  | rollback

/-- A transaction begins, or does something. -/
inductive OccAction where
  | begin
  | call (id : TxId) (call : OccCall)

namespace OccWorld

def new : OccWorld := ⟨∅, 1, fun _ => none⟩

/-- What a transaction reads from the store for a key. -/
def reads (world : OccWorld) (tx : OccTransaction) (key : Bytes) : List (Bytes × Option Bytes) :=
  if tx.writeSet.contains key then [] else [(key, world.store[key]?.map (·.value))]

/-- One whole call of a transaction that has read something: the world's store and counter, and
what becomes of the transaction. -/
def call (world : OccWorld) (tx : OccTransaction) (seen : List (Bytes × Option Bytes)) :
    OccCall → (FiniteMap Bytes VersionedValue × Nat) ×
      Option (OccTransaction × List (Bytes × Option Bytes))
  | .get key => ((world.store, world.counter),
      some ((tx.get world.store key).2, seen ++ world.reads tx key))
  | .put key value => ((world.store, world.counter), some (tx.put key value, seen))
  | .delete key => ((world.store, world.counter),
      some ((tx.delete world.store key).2, seen ++ world.reads tx key))
  | .commit => ((tx.commit world.store world.counter).2, none)
  | .rollback => ((world.store, world.counter), none)

def step (world : OccWorld) : OccAction → OccWorld
  | .begin => ⟨world.store, world.counter + 2,
      Function.update world.transactions world.counter (some (.new world.counter, []))⟩
  | .call id call =>
      match world.transactions id with
      | none => world
      | some (tx, seen) =>
          let result := world.call tx seen call
          ⟨result.1.1, result.1.2, Function.update world.transactions id result.2⟩

/-- What a transaction has read is there still, or the key has got a version since, or is gone. -/
def Tracked (store : FiniteMap Bytes VersionedValue) (counter : Nat) (tx : OccTransaction)
    (seen : List (Bytes × Option Bytes)) : Prop :=
  tx.startTimestamp < counter ∧ ∀ read ∈ seen, read.1 ∈ tx.readSet ∧
    (store[read.1]?.map (·.value) = read.2 ∨ store[read.1]? = none ∨
      tx.changed store read.1 = true)

variable {world : OccWorld} {tx : OccTransaction} {seen : List (Bytes × Option Bytes)}

/-- Whatever one transaction does, the reads of the others stay tracked. -/
theorem tracked_call {other : OccTransaction} {read : List (Bytes × Option Bytes)}
    (tracked : Tracked world.store world.counter other read) (call : OccCall) :
    Tracked (world.call tx seen call).1.1 (world.call tx seen call).1.2 other read := by
  cases call with
  | commit =>
      dsimp only [OccWorld.call]
      rw [OccTransaction.commit]
      split
      · refine ⟨Nat.lt_succ_of_lt tracked.1, fun known member => ?_⟩
        obtain ⟨inSet, still⟩ := tracked.2 known member
        refine ⟨inSet, ?_⟩
        rw [OccTransaction.changed] at still ⊢
        rw [FiniteMap.getElem?_absorb]
        split
        next value written =>
          by_cases removed : value.isEmpty = true
          · exact .inr (.inl (if_pos removed))
          · rw [if_neg removed]
            exact .inr (.inr (decide_eq_true tracked.1))
        next => exact still
      · exact tracked
  | get key => exact tracked
  | put key value => exact tracked
  | delete key => exact tracked
  | rollback => exact tracked

/-- A read is tracked from the start. -/
theorem tracked_reads (tracked : Tracked world.store world.counter tx seen) (key : Bytes)
    (writeSet : FiniteMap Bytes Bytes) : Tracked world.store world.counter
      { tx with readSet := insert key tx.readSet, writeSet := writeSet }
      (seen ++ world.reads tx key) := by
  refine ⟨tracked.1, fun read member => ?_⟩
  rcases List.mem_append.mp member with before | now
  · obtain ⟨inSet, still⟩ := tracked.2 read before
    exact ⟨Finset.mem_insert_of_mem inSet, still⟩
  · rw [reads] at now
    split at now
    · exact absurd now List.not_mem_nil
    · rw [List.mem_singleton.mp now]
      exact ⟨Finset.mem_insert_self _ _, .inl rfl⟩

/-- The reads of all transactions that have not ended are tracked. -/
def Sound (world : OccWorld) : Prop :=
  ∀ id tx seen, world.transactions id = some (tx, seen) → Tracked world.store world.counter tx seen

theorem Sound.step (sound : world.Sound) (action : OccAction) : (world.step action).Sound := by
  intro id tx seen live
  cases action with
  | begin =>
      dsimp only [OccWorld.step] at live ⊢
      rw [Function.update_apply] at live
      split at live
      · cases live
        exact ⟨Nat.lt_succ_self _, fun read member => absurd member List.not_mem_nil⟩
      · have tracked := sound id tx seen live
        exact ⟨tracked.1.trans_le (Nat.le_add_right _ 2), tracked.2⟩
  | call actor call =>
      rw [OccWorld.step] at live ⊢
      split at live
      next => exact sound id tx seen live
      next old before running =>
        dsimp only at live ⊢
        rw [Function.update_apply] at live
        split at live
        · have tracked := sound actor old before running
          cases call with
          | get key =>
              cases live
              exact tracked_reads tracked key old.writeSet
          | put key value =>
              cases live
              exact tracked
          | delete key =>
              cases live
              exact tracked_reads tracked key _
          | commit => exact absurd live (by simp [OccWorld.call])
          | rollback => exact absurd live (by simp [OccWorld.call])
        · exact tracked_call (sound id tx seen live) call

end OccWorld

end JouleDB.Mvcc
