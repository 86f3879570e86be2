import JouleDB.Lib.Decoder
import Mathlib.Logic.Relation

/-!
# Walks over bytes

A walk reads bytes without building a value.  It stands somewhere in the bytes with a list of what
is still to be read, and each step reads one thing or puts its parts in front of the list.  Some
positions are bad.

A decoder follows a walk if it ends with a value where the walk has read everything, with an error
where the walk is stuck, and stops the process where the walk comes to a bad position.  As a walk
does not branch, such a decoder stops the process exactly if a bad position is reached.
-/

namespace JouleDB

/-- What is still to be read, and the bytes that are left. -/
structure Position (ι : Type) where
  pending : List ι
  rest : Bytes

/-- The step from each position, and the positions that are bad. -/
structure Walk (ι : Type) where
  next : Position ι → Option (Position ι)
  Bad : Position ι → Prop

namespace Walk

variable {ι ε α β : Type} (walk : Walk ι)

/-- A walk moves on from a position that is not bad. -/
def Moves (here there : Position ι) : Prop := ¬ walk.Bad here ∧ walk.next here = some there

/-- The positions that are reached from a position. -/
def Reaches : Position ι → Position ι → Prop := Relation.ReflTransGen walk.Moves

/-- A position that is not bad, and from which there is no step. -/
def Stuck (here : Position ι) : Prop := ¬ walk.Bad here ∧ walk.next here = none

/-- A bad position is reached. -/
def ReachesBad (start : Position ι) : Prop :=
  ∃ position, walk.Reaches start position ∧ walk.Bad position

/-- From a position on, the decoder ends as the walk does that leads to what is to be read after
it. -/
def Follows (bytes : Bytes) (start : Position ι) (pending : List ι) (decoder : Decoder ε α) :
    Nat → Prop :=
  Exec.Runs (fun _ => True) (decoder bytes)
    (fun _ final => final ≤ bytes.length ∧ walk.Reaches start ⟨pending, bytes.drop final⟩)
    (fun _ _ => ∃ position, walk.Reaches start position ∧ walk.Stuck position)
    (fun _ => walk.ReachesBad start)

/-- The decoder reads what it is to read, wherever the walk stands. -/
def Reads (bytes : Bytes) (todo : List ι) (decoder : Decoder ε α) : Prop :=
  ∀ cursor ≤ bytes.length, ∀ pending,
    walk.Follows bytes ⟨todo ++ pending, bytes.drop cursor⟩ pending decoder cursor

variable {walk} {bytes : Bytes} {start : Position ι} {pending : List ι} {cursor : Nat}
  {decoder : Decoder ε α} {next : α → Decoder ε β}

theorem Follows.bind {between : List ι} (one : walk.Follows bytes start between decoder cursor)
    (two : ∀ value middle, middle ≤ bytes.length →
      walk.Follows bytes ⟨between, bytes.drop middle⟩ pending (next value) middle) :
    walk.Follows bytes start pending (decoder >>= next) cursor := by
  refine Exec.Runs.bind one ?_
  rintro value middle ⟨within, reached⟩
  exact (two value middle within).mono (fun _ _ ends => ⟨ends.1, reached.trans ends.2⟩)
    (fun _ _ ⟨position, ends⟩ => ⟨position, reached.trans ends.1, ends.2⟩)
    fun _ ⟨position, ends⟩ => ⟨position, reached.trans ends.1, ends.2⟩

theorem Follows.pure (within : cursor ≤ bytes.length) (value : α) :
    walk.Follows bytes ⟨pending, bytes.drop cursor⟩ pending
      (Pure.pure value : Decoder ε α) cursor :=
  Exec.Runs.pure ⟨within, .refl⟩

theorem Follows.head {later : Position ι} (moves : walk.Moves start later)
    (follows : walk.Follows bytes later pending decoder cursor) :
    walk.Follows bytes start pending decoder cursor :=
  follows.mono (fun _ _ ends => ⟨ends.1, ends.2.head moves⟩)
    (fun _ _ ⟨position, ends⟩ => ⟨position, ends.1.head moves, ends.2⟩)
    fun _ ⟨position, ends⟩ => ⟨position, ends.1.head moves, ends.2⟩

theorem Follows.of_err {error : ε} {final : Nat}
    (ends : decoder bytes cursor = ⟨.err error, final, []⟩) (stuck : walk.Stuck start) :
    walk.Follows bytes start pending decoder cursor := by
  intro _
  rw [ends]
  exact ⟨start, .refl, stuck⟩

theorem Follows.of_halt {cause : Halt} (ends : (decoder bytes cursor).outcome = .halt cause)
    (bad : walk.Bad start) : walk.Follows bytes start pending decoder cursor := by
  intro _
  rw [ends]
  exact ⟨start, .refl, bad⟩

/-- The decoder goes on from where it has read to. -/
theorem Follows.of_ok {middle : Nat} {value : α}
    (ends : decoder bytes cursor = ⟨.ok value, middle, []⟩)
    (follows : walk.Follows bytes start pending (next value) middle) :
    walk.Follows bytes start pending (decoder >>= next) cursor := by
  intro clean
  rw [Decoder.bind_ok ends] at clean ⊢
  exact follows clean

theorem Reads.times {todo : List ι} (reads : walk.Reads bytes todo decoder) (count : Nat) :
    walk.Reads bytes (List.replicate count todo).flatten (Decoder.times decoder count) := by
  induction count with
  | zero => exact fun cursor within pending => Follows.pure within []
  | succ count ih =>
      intro cursor within pending
      rw [List.replicate_succ, List.flatten_cons, List.append_assoc]
      refine (reads cursor within _).bind fun value middle within => ?_
      exact (ih middle within pending).bind fun values last within => Follows.pure within _

/-- Two positions where a walk does not go on are the same. -/
theorem eq_of_reaches {one two : Position ι} (first : walk.Reaches start one)
    (second : walk.Reaches start two) (endOne : ∀ later, ¬ walk.Moves one later)
    (endTwo : ∀ later, ¬ walk.Moves two later) : one = two := by
  have unique : Relator.RightUnique walk.Moves := fun here there other one two =>
    Option.some.inj (one.2.symm.trans two.2)
  rcases Relation.ReflTransGen.total_of_right_unique unique first second with later | later
  · rcases later.cases_head with same | ⟨between, moves, _⟩
    · exact same
    · exact absurd moves (endOne between)
  · rcases later.cases_head with same | ⟨between, moves, _⟩
    · exact same.symm
    · exact absurd moves (endTwo between)

/-- A decoder of everything that is to be read stops the process exactly if the walk comes to a bad
position. -/
theorem Reads.halts_iff {todo : List ι} (reads : walk.Reads bytes todo decoder)
    (done : ∀ rest, walk.Stuck ⟨[], rest⟩) :
    decoder.Halts bytes 0 ↔ walk.ReachesBad ⟨todo, bytes⟩ := by
  have ends := reads 0 (Nat.zero_le _) [] fun _ _ => trivial
  rw [List.append_nil, List.drop_zero] at ends
  have badEnds : ∀ {position}, walk.Bad position → ∀ later, ¬ walk.Moves position later :=
    fun bad later moves => moves.1 bad
  have stuckEnds : ∀ {position}, walk.Stuck position → ∀ later, ¬ walk.Moves position later :=
    fun stuck later moves => nomatch stuck.2.symm.trans moves.2
  unfold Decoder.Halts
  revert ends
  cases (decoder bytes 0).outcome with
  | ok value =>
      rintro ⟨-, reached⟩
      refine iff_of_false (fun ⟨cause, halted⟩ => nomatch halted) fun ⟨position, there, bad⟩ => ?_
      have same := eq_of_reaches reached there (stuckEnds (done _)) (badEnds bad)
      exact (done _).1 (same ▸ bad)
  | err error =>
      rintro ⟨position, reached, stuck⟩
      refine iff_of_false (fun ⟨cause, halted⟩ => nomatch halted) fun ⟨other, there, bad⟩ => ?_
      have same := eq_of_reaches reached there (stuckEnds stuck) (badEnds bad)
      exact stuck.1 (same ▸ bad)
  | halt cause => exact fun ends => iff_of_true ⟨cause, rfl⟩ ends

end Walk

end JouleDB
