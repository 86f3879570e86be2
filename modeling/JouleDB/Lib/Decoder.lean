import JouleDB.Lib.Bytes
import JouleDB.Lib.Exec

/-!
# Decoders with a cursor

A decoder reads a byte string from a cursor on and moves the cursor behind what it has read.  Every
access to the bytes is checked: an access out of range is a panic.

Three properties are kept by sequencing and repeating.  A decoder is safe if it does not panic and
leaves the cursor within the bytes; it parses some bytes as a value if it reads exactly these,
wherever they stand; and its successes are kept if they do not depend on what follows.
-/

namespace JouleDB

/-- A decoder of byte strings, from a cursor on. -/
def Decoder (ε α : Type) : Type := Bytes → Exec Nat Empty ε α

namespace Decoder

variable {ε α β : Type}

instance : Monad (Decoder ε) where
  pure value := fun _ => pure value
  bind decoder next := fun bytes => decoder bytes >>= fun value => next value bytes

/-- Return an error. -/
def fail (error : ε) : Decoder ε α := fun _ => Exec.fail error

/-- Stop the process. -/
def stop (cause : Halt) : Decoder ε α := fun _ => Exec.stop cause

/-- How many bytes follow the cursor. -/
def remaining : Decoder ε Nat := fun bytes => do
  let cursor ← Exec.get
  if cursor ≤ bytes.length then
    pure (bytes.length - cursor)
  else
    Exec.stop .panic

/-- The next bytes, which are taken to be there. -/
def slice (count : Nat) : Decoder ε Bytes := fun bytes => do
  let cursor ← Exec.get
  if cursor + count ≤ bytes.length then
    Exec.modify (· + count)
    pure ((bytes.drop cursor).take count)
  else
    Exec.stop .panic

/-- The next bytes, or an error that says how many are left. -/
def read (error : Nat → ε) (count : Nat) : Decoder ε Bytes := fun bytes => do
  let cursor ← Exec.get
  if bytes.length < cursor + count then
    let actual ← remaining bytes
    Exec.fail (error actual)
  else
    slice count bytes

/-- The next byte, or an error. -/
def byte (error : ε) : Decoder ε Byte := fun bytes => do
  let cursor ← Exec.get
  if bytes.length ≤ cursor then
    Exec.fail error
  else
    let value ← Exec.expect bytes[cursor]?
    Exec.modify (· + 1)
    pure value

/-- Decode one value after the other. -/
def times (decoder : Decoder ε α) : Nat → Decoder ε (List α)
  | 0 => pure []
  | count + 1 => do
      let value ← decoder
      let values ← times decoder count
      pure (value :: values)

/-! ## How a decoder ends -/

/-- From a cursor on, the decoder does not panic and leaves the cursor within the bytes. -/
def Safe (decoder : Decoder ε α) (bytes : Bytes) (cursor : Nat) : Prop :=
  Exec.Runs (fun _ => True) (decoder bytes)
    (fun _ final => cursor ≤ final ∧ final ≤ bytes.length) (fun _ final => final ≤ bytes.length)
    (fun _ => False) cursor

/-- From a cursor on, the decoder stops the process. -/
def Halts (decoder : Decoder ε α) (bytes : Bytes) (cursor : Nat) : Prop :=
  ∃ cause, (decoder bytes cursor).outcome = .halt cause

/-- The decoder reads exactly these bytes, wherever they stand. -/
def Parses (decoder : Decoder ε α) (code : Bytes) (value : α) : Prop :=
  ∀ front back, decoder (front ++ code ++ back) front.length =
    ⟨.ok value, front.length + code.length, []⟩

/-- What the first decoder reads the second one reads as well, whatever follows. -/
def Keeps (first second : Decoder ε α) : Prop :=
  ∀ bytes more cursor value final, first bytes cursor = ⟨.ok value, final, []⟩ →
    second (bytes ++ more) cursor = ⟨.ok value, final, []⟩

section Rules

variable {decoder first second : Decoder ε α} {next nextFirst nextSecond : α → Decoder ε β}
  {bytes : Bytes} {cursor : Nat}

theorem bind_ok {value : α} {middle : Nat} (read : decoder bytes cursor = ⟨.ok value, middle, []⟩) :
    (decoder >>= next) bytes cursor = next value bytes middle := by
  change Exec.bind (decoder bytes) (fun value => next value bytes) cursor = _
  rw [Exec.bind, read]
  rfl

theorem bind_err {error : ε} {final : Nat} (read : decoder bytes cursor = ⟨.err error, final, []⟩) :
    (decoder >>= next) bytes cursor = ⟨.err error, final, []⟩ := by
  change Exec.bind (decoder bytes) (fun value => next value bytes) cursor = _
  rw [Exec.bind, read]

theorem bind_halt {cause : Halt} (halted : (decoder bytes cursor).outcome = .halt cause) :
    ((decoder >>= next) bytes cursor).outcome = .halt cause := by
  change (Exec.bind (decoder bytes) (fun value => next value bytes) cursor).outcome = _
  rw [Exec.bind]
  cases ended : decoder bytes cursor with
  | mk outcome middle log =>
      rw [ended] at halted
      change outcome = .halt cause at halted
      subst halted
      rfl

theorem bind_assoc {γ : Type} (decoder : Decoder ε α) (next : α → Decoder ε β)
    (last : β → Decoder ε γ) :
    (decoder >>= next) >>= last = decoder >>= fun value => next value >>= last := by
  funext bytes cursor
  cases ended : decoder bytes cursor with
  | mk outcome middle log =>
      cases log with
      | cons entry _ => exact entry.elim
      | nil =>
          cases outcome with
          | ok value =>
              rw [bind_ok ended]
              change Exec.bind ((decoder >>= next) bytes) _ cursor =
                Exec.bind (next value bytes) _ middle
              rw [Exec.bind, Exec.bind, bind_ok ended]
          | err error => rw [bind_err ended, bind_err (bind_err ended)]
          | halt cause =>
              change Exec.bind (Exec.bind (decoder bytes) _) _ cursor =
                Exec.bind (decoder bytes) _ cursor
              simp only [Exec.bind, ended]

theorem bind_pure (decoder : Decoder ε α) : decoder >>= pure = decoder := by
  funext bytes cursor
  change Exec.bind (decoder bytes) _ cursor = _
  rw [Exec.bind]
  cases decoder bytes cursor with
  | mk outcome middle log =>
      cases outcome with
      | ok value => exact congrArg _ (List.append_nil log)
      | err error => rfl
      | halt cause => rfl

/-- A sequence that ends with a value has read one after the other. -/
theorem of_bind_ok {value : β} {final : Nat}
    (read : (decoder >>= next) bytes cursor = ⟨.ok value, final, []⟩) :
    ∃ between middle, decoder bytes cursor = ⟨.ok between, middle, []⟩ ∧
      next between bytes middle = ⟨.ok value, final, []⟩ := by
  change Exec.bind (decoder bytes) (fun value => next value bytes) cursor = _ at read
  rw [Exec.bind] at read
  cases ended : decoder bytes cursor with
  | mk outcome middle log =>
      rw [ended] at read
      cases outcome with
      | ok between =>
          cases log with
          | nil => exact ⟨between, middle, rfl, read⟩
          | cons entry _ => exact entry.elim
      | err error => cases read
      | halt cause => cases read

theorem Safe.bind (safe : decoder.Safe bytes cursor)
    (rest : ∀ value middle, cursor ≤ middle → middle ≤ bytes.length →
      (next value).Safe bytes middle) : (decoder >>= next).Safe bytes cursor := by
  refine Exec.Runs.bind safe ?_
  rintro value middle ⟨later, within⟩
  exact (rest value middle later within).mono
    (fun _ _ ends => ⟨later.trans ends.1, ends.2⟩) (fun _ _ ends => ends) fun _ ends => ends

theorem Safe.bind_ok {value : α} {middle : Nat}
    (read : decoder bytes cursor = ⟨.ok value, middle, []⟩) (later : cursor ≤ middle)
    (rest : (next value).Safe bytes middle) : (decoder >>= next).Safe bytes cursor := by
  intro _
  rw [Decoder.bind_ok read]
  have ends := rest fun _ _ => trivial
  revert ends
  cases (next value bytes middle).outcome with
  | ok result => exact fun ends => ⟨later.trans ends.1, ends.2⟩
  | err error => exact id
  | halt cause => exact id

theorem Safe.pure (value : α) (within : cursor ≤ bytes.length) :
    Safe (Pure.pure value : Decoder ε α) bytes cursor :=
  Exec.Runs.pure ⟨le_rfl, within⟩

theorem Safe.fail (error : ε) (within : cursor ≤ bytes.length) :
    Safe (Decoder.fail error : Decoder ε α) bytes cursor :=
  Exec.Runs.fail within

theorem halts_bind_ok {value : α} {middle : Nat}
    (read : decoder bytes cursor = ⟨.ok value, middle, []⟩) :
    (decoder >>= next).Halts bytes cursor ↔ (next value).Halts bytes middle := by
  rw [Halts, bind_ok read, Halts]

theorem not_halts_of_err {error : ε} {final : Nat}
    (read : decoder bytes cursor = ⟨.err error, final, []⟩) : ¬ decoder.Halts bytes cursor := by
  rintro ⟨cause, halted⟩
  rw [read] at halted
  cases halted

theorem Halts.bind (halts : decoder.Halts bytes cursor) : (decoder >>= next).Halts bytes cursor :=
  halts.imp fun _ halted => bind_halt halted

theorem Safe.not_halts (safe : decoder.Safe bytes cursor) : ¬ decoder.Halts bytes cursor := by
  rintro ⟨cause, halted⟩
  have ends := safe fun _ _ => trivial
  rw [halted] at ends
  exact ends

theorem Parses.bind {code more : Bytes} {value : α} {result : β}
    (one : decoder.Parses code value) (two : (next value).Parses more result) :
    (decoder >>= next).Parses (code ++ more) result := by
  intro front back
  have read := one front (more ++ back)
  have rest := two (front ++ code) back
  rw [List.append_assoc front code more] at rest
  rw [← List.append_assoc (front ++ code), List.append_assoc front code more] at read
  rw [bind_ok read, ← List.length_append, rest, List.length_append, List.length_append,
    Nat.add_assoc]

theorem Parses.pure (value : α) : Parses (Pure.pure value : Decoder ε α) [] value :=
  fun _ _ => rfl

/-- A decoder that reads and then only computes. -/
theorem Parses.bind_pure {code : Bytes} {value : α} {result : β}
    (one : decoder.Parses code value) (two : (next value).Parses [] result) :
    (decoder >>= next).Parses code result := by
  have both := one.bind two
  rwa [List.append_nil] at both

theorem Keeps.bind (one : first.Keeps second) (two : ∀ value, (nextFirst value).Keeps
    (nextSecond value)) : (first >>= nextFirst).Keeps (second >>= nextSecond) := by
  intro bytes more cursor value final read
  obtain ⟨between, middle, here, later⟩ := of_bind_ok read
  rw [bind_ok (one bytes more cursor between middle here)]
  exact two between bytes more middle value final later

theorem Keeps.pure (value : α) : Keeps (Pure.pure value : Decoder ε α) (Pure.pure value) := by
  intro bytes more cursor result final read
  exact read

theorem Keeps.fail (error : ε) {other : Decoder ε α} : Keeps (Decoder.fail error) other := by
  intro bytes more cursor value final read
  cases read

theorem Keeps.stop (cause : Halt) {other : Decoder ε α} : Keeps (Decoder.stop cause) other := by
  intro bytes more cursor value final read
  cases read

end Rules

/-! ## Reading bytes -/

section Reading

variable {bytes : Bytes} {cursor count : Nat}

theorem slice_eq (room : cursor + count ≤ bytes.length) :
    (slice count : Decoder ε Bytes) bytes cursor =
      ⟨.ok ((bytes.drop cursor).take count), cursor + count, []⟩ := by
  change (if cursor + count ≤ bytes.length then _ else _ : Exec Nat Empty ε Bytes) cursor = _
  rw [if_pos room]
  rfl

theorem read_eq {error : Nat → ε} (room : cursor + count ≤ bytes.length) :
    read error count bytes cursor = ⟨.ok ((bytes.drop cursor).take count), cursor + count, []⟩ := by
  change (if bytes.length < cursor + count then _ else _ : Exec Nat Empty ε Bytes) cursor = _
  rw [if_neg (not_lt.mpr room)]
  exact slice_eq room

theorem remaining_eq (within : cursor ≤ bytes.length) :
    (remaining : Decoder ε Nat) bytes cursor = ⟨.ok (bytes.length - cursor), cursor, []⟩ := by
  change (if cursor ≤ bytes.length then _ else _ : Exec Nat Empty ε Nat) cursor = _
  rw [if_pos within]
  rfl

theorem read_eq_err {error : Nat → ε} (short : bytes.length < cursor + count)
    (within : cursor ≤ bytes.length) :
    read error count bytes cursor = ⟨.err (error (bytes.length - cursor)), cursor, []⟩ := by
  change (if bytes.length < cursor + count then _ else _ : Exec Nat Empty ε Bytes) cursor = _
  rw [if_pos short]
  change Exec.bind (remaining bytes) (fun actual => Exec.fail (error actual)) cursor = _
  rw [Exec.bind, remaining_eq within]
  rfl

theorem byte_eq {error : ε} (room : cursor < bytes.length) :
    byte error bytes cursor = ⟨.ok bytes[cursor], cursor + 1, []⟩ := by
  change (if bytes.length ≤ cursor then _ else _ : Exec Nat Empty ε Byte) cursor = _
  rw [if_neg (not_le.mpr room), List.getElem?_eq_getElem room]
  rfl

theorem byte_eq_err {error : ε} (none : bytes.length ≤ cursor) :
    byte error bytes cursor = ⟨.err error, cursor, []⟩ := by
  change (if bytes.length ≤ cursor then _ else _ : Exec Nat Empty ε Byte) cursor = _
  rw [if_pos none]
  rfl

theorem read_safe (error : Nat → ε) (count : Nat) (within : cursor ≤ bytes.length) :
    (read error count).Safe bytes cursor := by
  intro _
  by_cases room : cursor + count ≤ bytes.length
  · rw [read_eq room]
    exact ⟨Nat.le_add_right cursor count, room⟩
  · rw [read_eq_err (not_le.mp room) within]
    exact within

theorem read_parses (error : Nat → ε) (code : Bytes) :
    (read error code.length).Parses code code := by
  intro front back
  have room : front.length + code.length ≤ (front ++ code ++ back).length := by
    simp only [List.length_append]
    omega
  rw [read_eq room, List.append_assoc, List.drop_left, List.take_left]

theorem slice_parses (code : Bytes) : (slice code.length : Decoder ε Bytes).Parses code code := by
  intro front back
  have room : front.length + code.length ≤ (front ++ code ++ back).length := by
    simp only [List.length_append]
    omega
  rw [slice_eq room, List.append_assoc, List.drop_left, List.take_left]

theorem read_keeps (error : Nat → ε) (count : Nat) :
    (read error count).Keeps (read error count) := by
  intro bytes more cursor value final parsed
  by_cases room : cursor + count ≤ bytes.length
  · have longer : cursor + count ≤ (bytes ++ more).length := by
      rw [List.length_append]
      omega
    rw [read_eq longer, ← parsed, read_eq room, List.drop_append_of_le_length (by omega),
      List.take_append_of_le_length (by rw [List.length_drop]; omega)]
  · by_cases within : cursor ≤ bytes.length
    · rw [read_eq_err (not_le.mp room) within] at parsed
      cases parsed
    · have halts : read error count bytes cursor = ⟨.halt .panic, cursor, []⟩ := by
        change (if bytes.length < cursor + count then _ else _ : Exec Nat Empty ε Bytes) cursor = _
        rw [if_pos (not_le.mp room)]
        change Exec.bind (if cursor ≤ bytes.length then _ else _ : Exec Nat Empty ε Nat)
          (fun actual => Exec.fail (error actual)) cursor = _
        rw [if_neg within]
        rfl
      rw [halts] at parsed
      cases parsed

theorem byte_parses (error : ε) (value : Byte) : (byte error).Parses [value] value := by
  intro front back
  have room : front.length < (front ++ [value] ++ back).length := by simp
  rw [byte_eq room]
  simp

theorem byte_keeps (error : ε) : (byte error).Keeps (byte error) := by
  intro bytes more cursor value final parsed
  by_cases room : cursor < bytes.length
  · have longer : cursor < (bytes ++ more).length := by
      rw [List.length_append]
      omega
    rw [byte_eq longer, ← parsed, byte_eq room, List.getElem_append_left room]
  · rw [byte_eq_err (not_lt.mp room)] at parsed
    cases parsed

theorem byte_bind_safe {β : Type} {error : ε} {next : Byte → Decoder ε β}
    (within : cursor ≤ bytes.length)
    (rest : ∀ value, cursor < bytes.length → (next value).Safe bytes (cursor + 1)) :
    (byte error >>= next).Safe bytes cursor := by
  by_cases room : cursor < bytes.length
  · exact Safe.bind_ok (byte_eq room) (Nat.le_succ cursor) (rest _ room)
  · intro _
    rw [bind_err (byte_eq_err (not_lt.mp room))]
    exact within

/-! How much is left may be asked for before reading on. -/

section Remaining

variable {β : Type} {next nextFirst nextSecond : Nat → Decoder ε β}

theorem remaining_bind_safe (within : cursor ≤ bytes.length)
    (rest : ∀ left, (next left).Safe bytes cursor) : (remaining >>= next).Safe bytes cursor :=
  Safe.bind_ok (remaining_eq within) le_rfl (rest _)

theorem remaining_bind_parses {code : Bytes} {value : β}
    (rest : ∀ left, (next left).Parses code value) : (remaining >>= next).Parses code value := by
  intro front back
  have within : front.length ≤ (front ++ code ++ back).length := by
    simp only [List.length_append]
    omega
  rw [bind_ok (remaining_eq within)]
  exact rest _ front back

theorem remaining_bind_keeps (rest : ∀ left later, (nextFirst left).Keeps (nextSecond later)) :
    (remaining >>= nextFirst).Keeps (remaining >>= nextSecond) := by
  intro bytes more cursor value final parsed
  by_cases within : cursor ≤ bytes.length
  · have longer : cursor ≤ (bytes ++ more).length := by
      rw [List.length_append]
      omega
    rw [bind_ok (remaining_eq within)] at parsed
    rw [bind_ok (remaining_eq longer)]
    exact rest _ _ bytes more cursor value final parsed
  · obtain ⟨left, middle, asked, _⟩ := of_bind_ok parsed
    change (if cursor ≤ bytes.length then _ else _ : Exec Nat Empty ε Nat) cursor = _ at asked
    rw [if_neg within] at asked
    cases asked

end Remaining

end Reading

/-! ## Repetition -/

section Times

variable {decoder first second : Decoder ε α} {bytes : Bytes} {cursor : Nat}

theorem times_safe (within : cursor ≤ bytes.length) (count : Nat)
    (safe : ∀ later, cursor ≤ later → later ≤ bytes.length → decoder.Safe bytes later) :
    (times decoder count).Safe bytes cursor := by
  induction count generalizing cursor with
  | zero => exact Safe.pure [] within
  | succ count ih =>
      refine (safe cursor le_rfl within).bind fun value middle later within => ?_
      refine (ih within fun last after => safe last (later.trans after)).bind
        fun values final _ within => ?_
      exact Safe.pure _ within

theorem times_parses {encode : α → Bytes} {values : List α}
    (parses : ∀ value ∈ values, decoder.Parses (encode value) value) :
    (times decoder values.length).Parses (values.flatMap encode) values := by
  induction values with
  | nil => exact Parses.pure []
  | cons value values ih =>
      rw [List.forall_mem_cons] at parses
      rw [List.flatMap_cons, List.length_cons, times]
      exact parses.1.bind ((ih parses.2).bind_pure (Parses.pure _))

theorem times_keeps (keeps : first.Keeps second) (count : Nat) :
    (times first count).Keeps (times second count) := by
  induction count with
  | zero => exact Keeps.pure []
  | succ count ih => exact keeps.bind fun value => ih.bind fun values => Keeps.pure _

end Times

/-! ## Within limits -/

/-- On bytes of such a length, the decoder reads exactly these bytes if its limits are kept, and
stops the process otherwise. -/
def ParsesIn (size : Nat → Prop) (kept : Prop) (decoder : Decoder ε α) (code : Bytes) (value : α) :
    Prop :=
  ∀ front back, size (front ++ code ++ back).length →
    (kept → decoder (front ++ code ++ back) front.length =
      ⟨.ok value, front.length + code.length, []⟩) ∧
    (¬ kept → decoder.Halts (front ++ code ++ back) front.length)

/-- On bytes that an address space has room for, the decoder reads exactly these bytes if its limits
are kept, and stops the process otherwise. -/
abbrev ParsesIff (kept : Prop) (decoder : Decoder ε α) (code : Bytes) (value : α) : Prop :=
  ParsesIn (· < 2 ^ 64) kept decoder code value

section Limits

variable {size : Nat → Prop} {decoder : Decoder ε α} {next : α → Decoder ε β} {kept keptNext : Prop}
  {code more : Bytes} {value : α} {result : β}

theorem Parses.parsesIn (parses : decoder.Parses code value) :
    decoder.ParsesIn size True code value :=
  fun front back _ => ⟨fun _ => parses front back, fun broken => absurd trivial broken⟩

/-- Bytes that no address space has room for are read back in any way. -/
theorem ParsesIff.of_short
    (parses : code.length < 2 ^ 64 → decoder.ParsesIff kept code value) :
    decoder.ParsesIff kept code value := by
  intro front back small
  refine parses ?_ front back small
  simp only [List.length_append] at small
  omega

theorem ParsesIn.congr {other : Prop} (same : kept ↔ other)
    (parses : decoder.ParsesIn size kept code value) : decoder.ParsesIn size other code value := by
  rwa [propext same] at parses

theorem ParsesIn.bind (one : decoder.ParsesIn size kept code value)
    (two : (next value).ParsesIn size keptNext more result) :
    (decoder >>= next).ParsesIn size (kept ∧ keptNext) (code ++ more) result := by
  intro front back small
  have again : front ++ (code ++ more) ++ back = front ++ code ++ (more ++ back) := by
    simp only [List.append_assoc]
  have later : front ++ (code ++ more) ++ back = (front ++ code) ++ more ++ back := by
    simp only [List.append_assoc]
  have first := one front (more ++ back) (again ▸ small)
  have second := two (front ++ code) back (later ▸ small)
  rw [← again] at first
  rw [← later, List.length_append] at second
  constructor
  · rintro ⟨here, there⟩
    rw [bind_ok (first.1 here), second.1 there, List.length_append, Nat.add_assoc]
  · intro broken
    by_cases here : kept
    · rw [halts_bind_ok (first.1 here)]
      exact second.2 fun there => broken ⟨here, there⟩
    · exact (first.2 here).bind

theorem ParsesIn.bind_pure (one : decoder.ParsesIn size kept code value)
    (two : (next value).Parses [] result) : (decoder >>= next).ParsesIn size kept code result := by
  have both := one.bind two.parsesIn
  rw [List.append_nil] at both
  exact both.congr (and_iff_left trivial)

/-- How much is left may be asked for before reading on. -/
theorem remaining_bind_parsesIn {next : Nat → Decoder ε β}
    (rest : ∀ left, code.length ≤ left → (next left).ParsesIn size kept code result) :
    (remaining >>= next).ParsesIn size kept code result := by
  intro front back small
  have length : (front ++ code ++ back).length = front.length + code.length + back.length := by
    simp only [List.length_append]
  have within : front.length ≤ (front ++ code ++ back).length := by omega
  have left := rest ((front ++ code ++ back).length - front.length) (by omega) front back small
  refine ⟨fun kept => ?_, fun broken => ?_⟩
  · rw [bind_ok (remaining_eq within)]
    exact left.1 kept
  · exact (halts_bind_ok (remaining_eq within)).mpr (left.2 broken)

theorem times_parsesIn {encode : α → Bytes} {values : List α} {kept : α → Prop}
    (parses : ∀ value ∈ values, decoder.ParsesIn size (kept value) (encode value) value) :
    (times decoder values.length).ParsesIn size (∀ value ∈ values, kept value)
      (values.flatMap encode) values := by
  induction values with
  | nil => exact (Parses.pure []).parsesIn.congr (by simp)
  | cons value values ih =>
      rw [List.forall_mem_cons] at parses
      rw [List.flatMap_cons, List.length_cons, times, List.forall_mem_cons]
      exact parses.1.bind ((ih parses.2).bind_pure (Parses.pure _))

end Limits

end Decoder

end JouleDB
