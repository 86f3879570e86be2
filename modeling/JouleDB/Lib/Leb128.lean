import JouleDB.Lib.Decoder

/-!
# Numbers in base 128

A number is written in groups of seven bits, the lowest first.  The high bit of a byte says that
another one follows.  A reader of 64-bit numbers takes at most ten bytes, and differs from others
only in what it does when the tenth byte says that another one follows.
-/

namespace JouleDB.Leb128

/-- The bytes of a number. -/
def encode (number : Nat) : Bytes :=
  if number / 128 = 0 then
    [Fin.ofNat 256 (number % 128)]
  else
    Fin.ofNat 256 (number % 128 + 128) :: encode (number / 128)
termination_by number
decreasing_by omega

/-- The number at the front of some bytes, and what follows it. -/
def number : Bytes → Option (Nat × Bytes)
  | [] => none
  | byte :: rest =>
      if byte.val < 128 then
        some (byte.val, rest)
      else
        (number rest).map fun high => (byte.val % 128 + 128 * high.1, high.2)

/-- Each of the first bytes says that another one follows. -/
def Continues : Nat → Bytes → Prop
  | 0, _ => True
  | _ + 1, [] => False
  | count + 1, byte :: rest => 128 ≤ byte.val ∧ Continues count rest

instance decidableContinues : (count : Nat) → (bytes : Bytes) → Decidable (Continues count bytes)
  | 0, _ => .isTrue trivial
  | _ + 1, [] => .isFalse id
  | count + 1, _ :: rest =>
      haveI := decidableContinues count rest
      inferInstanceAs (Decidable (_ ∧ _))

/-- Read a 64-bit number.  After the given number of bytes that say that another one follows, the
reader goes on as it is told. -/
def read {ε : Type} (eof : ε) (long : Decoder ε Nat) : (turns shift result : Nat) → Decoder ε Nat
  | 0, _, _ => long
  | turns + 1, shift, result => do
      let byte ← Decoder.byte eof
      let result := result ||| ((byte.val % 128) <<< shift) % 2 ^ 64
      if byte.val < 128 then
        pure result
      else
        read eof long turns (shift + 7) result

/-! ## What is written -/

theorem encode_of_lt {value : Nat} (low : value < 128) : encode value = [Fin.ofNat 256 value] := by
  rw [encode, if_pos (Nat.div_eq_of_lt low), Nat.mod_eq_of_lt low]

theorem encode_of_le {value : Nat} (high : 128 ≤ value) :
    encode value = Fin.ofNat 256 (value % 128 + 128) :: encode (value / 128) := by
  rw [encode, if_neg (Nat.div_pos high (by decide)).ne']

/-- Induction along the groups of seven bits of a number. -/
theorem groups {motive : Nat → Prop} (last : ∀ value < 128, motive value)
    (more : ∀ value, 128 ≤ value → motive (value / 128) → motive value) (value : Nat) :
    motive value := by
  induction value using Nat.strongRecOn with
  | ind value ih =>
      by_cases low : value < 128
      · exact last value low
      · exact more value (not_lt.mp low) (ih (value / 128) (by omega))

theorem number_encode (value : Nat) (rest : Bytes) :
    number (encode value ++ rest) = some (value, rest) := by
  induction value using groups with
  | last value low =>
      have byte : (Fin.ofNat 256 value).val = value := Nat.mod_eq_of_lt (by omega)
      rw [encode_of_lt low, List.singleton_append, number, byte, if_pos low]
  | more value high ih =>
      have byte : (Fin.ofNat 256 (value % 128 + 128)).val = value % 128 + 128 :=
        Nat.mod_eq_of_lt (by omega)
      rw [encode_of_le high, List.cons_append, number, byte, if_neg (by omega), ih, Option.map_some]
      congr 2
      omega

/-- The bytes of a number do not go on for longer than it needs. -/
theorem not_continues_encode {value count : Nat} (short : value < 128 ^ (count + 1))
    (rest : Bytes) : ¬ Continues (count + 1) (encode value ++ rest) := by
  induction value using groups generalizing count with
  | last value low =>
      have byte : (Fin.ofNat 256 value).val = value := Nat.mod_eq_of_lt (by omega)
      rw [encode_of_lt low, List.singleton_append, Continues, byte]
      omega
  | more value high ih =>
      rw [encode_of_le high, List.cons_append]
      cases count with
      | zero => omega
      | succ count =>
          rw [Nat.pow_succ] at short
          exact fun continues => ih (by omega) continues.2

/-! ## Where the number ends -/

/-- Seven more bits do not touch those that are there. -/
theorem or_shiftLeft {result shift group : Nat} (small : result < 2 ^ shift) (within : shift ≤ 64) :
    result ||| (group <<< shift) % 2 ^ 64 = (result + group * 2 ^ shift) % 2 ^ 64 := by
  have split : 2 ^ 64 = 2 ^ shift * 2 ^ (64 - shift) := by
    rw [← Nat.pow_add, Nat.add_sub_cancel' within]
  rw [Nat.shiftLeft_eq, Nat.mul_comm group, split, Nat.mul_mod_mul_left, Nat.or_comm,
    ← Nat.two_pow_add_eq_or_of_lt small]
  have mod : (result + 2 ^ shift * group) % (2 ^ shift * 2 ^ (64 - shift)) =
      2 ^ shift * (group % 2 ^ (64 - shift)) + result := by
    rw [Nat.mod_mul, Nat.add_mul_mod_self_left, Nat.mod_eq_of_lt small,
      Nat.add_mul_div_left _ _ (by positivity), Nat.div_eq_of_lt small, Nat.zero_add, Nat.add_comm]
  exact mod.symm

/-- A number that goes on up to the end of the bytes is not there. -/
theorem number_eq_none {count : Nat} {rest : Bytes} (continues : Continues count rest)
    (short : rest.length ≤ count) : number rest = none := by
  induction count generalizing rest with
  | zero => rw [List.eq_nil_of_length_eq_zero (Nat.le_zero.mp short), number]
  | succ count ih =>
      cases rest with
      | nil => rfl
      | cons byte rest =>
          rw [number, if_neg (not_lt.mpr continues.1),
            ih continues.2 (Nat.le_of_succ_le_succ short), Option.map_none]

section Read

variable {ε : Type} {eof : ε} {long : Decoder ε Nat} {bytes : Bytes} {cursor : Nat}

/-- What is left after a number is a part of what was there. -/
theorem length_of_number {rest : Bytes} {value : Nat} (found : number bytes = some (value, rest)) :
    rest.length < bytes.length ∧ rest = bytes.drop (bytes.length - rest.length) := by
  induction bytes generalizing value with
  | nil => cases found
  | cons byte bytes ih =>
      rw [number] at found
      split at found
      next =>
        cases found
        refine ⟨Nat.lt_succ_self _, ?_⟩
        rw [List.length_cons, Nat.add_sub_cancel_left, List.drop_one, List.tail_cons]
      next =>
        obtain ⟨⟨high, rest⟩, later, same⟩ := Option.map_eq_some_iff.mp found
        cases same
        obtain ⟨shorter, eq⟩ := ih later
        refine ⟨Nat.lt_succ_of_lt shorter, ?_⟩
        rwa [List.length_cons, Nat.succ_sub shorter.le, List.drop_succ_cons]

/-- One byte is read, and it is the first one of what is left. -/
theorem read_succ {turns shift result : Nat} (room : cursor < bytes.length) :
    read eof long (turns + 1) shift result bytes cursor =
      if bytes[cursor].val < 128 then
        ⟨.ok (result ||| ((bytes[cursor].val % 128) <<< shift) % 2 ^ 64), cursor + 1, []⟩
      else
        read eof long turns (shift + 7)
          (result ||| ((bytes[cursor].val % 128) <<< shift) % 2 ^ 64) bytes (cursor + 1) := by
  rw [read, Decoder.bind_ok (Decoder.byte_eq room)]
  split
  · rfl
  · rfl

theorem read_succ_eof {turns shift result : Nat} (none : bytes.length ≤ cursor) :
    read eof long (turns + 1) shift result bytes cursor = ⟨.err eof, cursor, []⟩ := by
  rw [read, Decoder.bind_err (Decoder.byte_eq_err none)]

/-- A number that goes on for too long is left to the rest of the reader. -/
theorem read_long {turns shift result : Nat} (continues : Continues turns (bytes.drop cursor)) :
    read eof long turns shift result bytes cursor = long bytes (cursor + turns) := by
  induction turns generalizing cursor shift result with
  | zero => rfl
  | succ turns ih =>
      by_cases room : cursor < bytes.length
      · rw [List.drop_eq_getElem_cons room] at continues
        rw [read_succ room, if_neg (not_lt.mpr continues.1), ih continues.2, Nat.add_right_comm,
          Nat.add_assoc]
      · rw [List.drop_of_length_le (not_lt.mp room)] at continues
        exact continues.elim

theorem read_eof {turns shift result : Nat} (within : cursor ≤ bytes.length)
    (short : ¬ Continues turns (bytes.drop cursor)) (none : number (bytes.drop cursor) = none) :
    read eof long turns shift result bytes cursor = ⟨.err eof, bytes.length, []⟩ := by
  induction turns generalizing cursor shift result with
  | zero => exact absurd trivial short
  | succ turns ih =>
      by_cases room : cursor < bytes.length
      · rw [List.drop_eq_getElem_cons room, number] at none
        rw [List.drop_eq_getElem_cons room, Continues] at short
        split at none
        next => cases none
        next high =>
          rw [read_succ room, if_neg high]
          exact ih room (fun more => short ⟨not_lt.mp high, more⟩) (Option.map_eq_none_iff.mp none)
      · rw [read_succ_eof (not_lt.mp room), le_antisymm within (not_lt.mp room)]

/-- A number is read up to its end, and its lowest 64 bits are kept. -/
theorem read_eq {turns shift result value : Nat} {rest : Bytes}
    (short : ¬ Continues turns (bytes.drop cursor))
    (found : number (bytes.drop cursor) = some (value, rest))
    (room : shift + 7 * turns ≤ 70) (small : result < 2 ^ shift) :
    read eof long turns shift result bytes cursor =
      ⟨.ok ((result + value * 2 ^ shift) % 2 ^ 64), bytes.length - rest.length, []⟩ := by
  induction turns generalizing cursor shift result value with
  | zero => exact absurd trivial short
  | succ turns ih =>
      by_cases more : cursor < bytes.length
      · rw [List.drop_eq_getElem_cons more, number] at found
        rw [List.drop_eq_getElem_cons more, Continues] at short
        rw [read_succ more, or_shiftLeft small (by omega)]
        split at found
        next low =>
          cases found
          rw [if_pos low, Nat.mod_eq_of_lt low, List.length_drop, Nat.sub_sub_self more]
        next high =>
          obtain ⟨⟨higher, rest⟩, later, same⟩ := Option.map_eq_some_iff.mp found
          cases same
          have continues : ¬ Continues turns (bytes.drop (cursor + 1)) :=
            fun more => short ⟨not_lt.mp high, more⟩
          have turns_pos : turns ≠ 0 := by
            rintro rfl
            exact continues trivial
          have fits : result + bytes[cursor].val % 128 * 2 ^ shift < 2 ^ (shift + 7) := by
            have group : bytes[cursor].val % 128 * 2 ^ shift ≤ 127 * 2 ^ shift :=
              Nat.mul_le_mul_right _ (by omega)
            rw [Nat.pow_add]
            omega
          have below : 2 ^ (shift + 7) ≤ 2 ^ 64 := Nat.pow_le_pow_right (by decide) (by omega)
          rw [if_neg high, Nat.mod_eq_of_lt (fits.trans_le below),
            ih continues later (by omega) fits, Nat.pow_add]
          congr 3
          ring
      · rw [List.drop_of_length_le (not_lt.mp more)] at found
        cases found

end Read

theorem read_parses {ε : Type} {eof : ε} {long : Decoder ε Nat} {value : Nat}
    (short : value < 2 ^ 64) : (read eof long 10 0 0).Parses (encode value) value := by
  intro front back
  have rest : (front ++ encode value ++ back).drop front.length = encode value ++ back := by
    rw [List.append_assoc, List.drop_left]
  have found := number_encode value back
  have bounded : value < 128 ^ (9 + 1) := short.trans (by decide)
  rw [← rest] at found
  rw [read_eq (rest ▸ not_continues_encode bounded back) found (by decide) (by decide),
    Nat.zero_add, Nat.pow_zero, Nat.mul_one, Nat.mod_eq_of_lt short, List.length_append,
    List.length_append, Nat.add_sub_cancel]

/-! ## Bytes after their length -/

/-- Read that many bytes.  Where they end is computed before it is compared with how many bytes
there are. -/
def take {ε : Type} (eof : ε) (len : Nat) : Decoder ε Bytes := fun bytes => do
  let cursor ← Exec.get
  if 2 ^ 64 ≤ cursor + len then
    Exec.stop .panic
  else
    Decoder.read (fun _ => eof) len bytes

/-- Read a length and that many bytes. -/
def prefixed {ε : Type} (eof : ε) (long : Decoder ε Nat) : Decoder ε Bytes := do
  let len ← read eof long 10 0 0
  take eof len

/-- The bytes after the length at the front, and what follows them. -/
def field (bytes : Bytes) : Option (Bytes × Bytes) :=
  (number bytes).bind fun (len, rest) =>
    if len % 2 ^ 64 ≤ rest.length then
      some (rest.take (len % 2 ^ 64), rest.drop (len % 2 ^ 64))
    else
      none

/-- What follows a byte string is the end of the bytes. -/
theorem suffix_of_field {bytes code after : Bytes} (found : field bytes = some (code, after)) :
    after <:+ bytes := by
  obtain ⟨⟨len, rest⟩, number, split⟩ := Option.bind_eq_some_iff.mp found
  dsimp only at split
  split at split
  next =>
    cases split
    exact (List.drop_suffix _ rest).trans (List.suffix_iff_eq_drop.mpr (length_of_number number).2)
  next => cases split

/-- The length at the front of the last bytes of so many bytes leads out of the address space. -/
def Overflows (size : Nat) (bytes : Bytes) : Prop :=
  match number bytes with
  | none => False
  | some (len, rest) => ¬ Continues 10 bytes ∧ 2 ^ 64 ≤ size - rest.length + len % 2 ^ 64

instance (size : Nat) (bytes : Bytes) : Decidable (Overflows size bytes) := by
  unfold Overflows
  split <;> infer_instance

section Prefixed

variable {ε : Type} {eof : ε} {long : Decoder ε Nat} {bytes : Bytes} {cursor len : Nat}

theorem take_overflows (far : 2 ^ 64 ≤ cursor + len) :
    take eof len bytes cursor = ⟨.halt .panic, cursor, []⟩ := by
  change (if 2 ^ 64 ≤ cursor + len then _ else _ : Exec Nat Empty ε Bytes) cursor = _
  rw [if_pos far]
  rfl

theorem take_eq_read (near : cursor + len < 2 ^ 64) :
    take eof len bytes cursor = Decoder.read (fun _ => eof) len bytes cursor := by
  change (if 2 ^ 64 ≤ cursor + len then _ else _ : Exec Nat Empty ε Bytes) cursor = _
  rw [if_neg (not_le.mpr near)]

theorem prefixed_parses (code : Bytes) :
    (prefixed eof long).ParsesIff True (encode code.length ++ code) code := by
  refine Decoder.ParsesIff.of_short fun short => ?_
  rw [List.length_append] at short
  refine ((read_parses (by omega)).parsesIn.bind ?_).congr and_self_iff
  intro front back small
  refine ⟨fun _ => ?_, fun broken => absurd trivial broken⟩
  simp only [List.length_append] at small
  rw [take_eq_read (by omega)]
  exact Decoder.read_parses _ code front back

/-- A length that goes on for too long is left to the rest of its reader. -/
theorem prefixed_long (continues : Continues 10 (bytes.drop cursor)) :
    prefixed eof long bytes cursor = (long >>= take eof) bytes (cursor + 10) := by
  change Exec.bind (read eof long 10 0 0 bytes) (fun len => take eof len bytes) cursor = _
  rw [Exec.bind, read_long continues]
  rfl

theorem prefixed_overflows (overflows : Overflows bytes.length (bytes.drop cursor)) :
    (prefixed eof long bytes cursor).outcome = .halt .panic := by
  unfold Overflows at overflows
  split at overflows
  next => exact overflows.elim
  next len rest found =>
    have ends := @read_eq _ eof long _ _ _ _ _ _ _ overflows.1 found (by decide)
      (Nat.two_pow_pos 0)
    rw [Nat.zero_add, Nat.pow_zero, Nat.mul_one] at ends
    rw [prefixed, Decoder.bind_ok ends, take_overflows overflows.2]

/-- Otherwise the bytes are read, or there are too few of them. -/
theorem prefixed_eq (within : cursor ≤ bytes.length) (short : ¬ Continues 10 (bytes.drop cursor))
    (near : ¬ Overflows bytes.length (bytes.drop cursor)) :
    match field (bytes.drop cursor) with
    | some (code, rest) =>
        prefixed eof long bytes cursor = ⟨.ok code, bytes.length - rest.length, []⟩ ∧
          rest.length ≤ bytes.length ∧ rest = bytes.drop (bytes.length - rest.length)
    | none => ∃ final, prefixed eof long bytes cursor = ⟨.err eof, final, []⟩ := by
  unfold Overflows at near
  rw [field]
  cases found : number (bytes.drop cursor) with
  | none => exact ⟨_, by rw [prefixed, Decoder.bind_err (read_eof within short found)]⟩
  | some both =>
      obtain ⟨len, rest⟩ := both
      rw [found] at near
      have near := not_le.mp fun far => near ⟨short, far⟩
      obtain ⟨shorter, after⟩ := length_of_number found
      rw [List.drop_drop, List.length_drop] at after
      rw [List.length_drop] at shorter
      have ends := @read_eq _ eof long _ _ _ _ _ _ _ short found (by decide) (Nat.two_pow_pos 0)
      rw [Nat.zero_add, Nat.pow_zero, Nat.mul_one] at ends
      rw [Option.bind_some, prefixed, Decoder.bind_ok ends, take_eq_read near]
      have place : cursor + (bytes.length - cursor - rest.length) = bytes.length - rest.length := by
        omega
      rw [place] at after
      by_cases enough : len % 2 ^ 64 ≤ rest.length
      · simp only [if_pos enough]
        have size : (rest.drop (len % 2 ^ 64)).length = rest.length - len % 2 ^ 64 :=
          List.length_drop
        refine ⟨?_, by omega, ?_⟩
        · rw [Decoder.read_eq (by omega), ← after, size]
          congr 1
          omega
        · rw [size]
          conv_lhs => rw [after, List.drop_drop]
          congr 1
          omega
      · simp only [if_neg enough]
        exact ⟨_, Decoder.read_eq_err (by omega) (by omega)⟩

end Prefixed

end JouleDB.Leb128
