import JouleDB.Query.LikeLanguage

/-!
# The LIKE matcher accepts the language of its pattern

Every byte position that the matcher takes a text from is the end of some characters of the text, so
that no slice falls inside a character.
-/

namespace JouleDB.Query.LikePattern

theorem plainOf_eq_some {toks : List Tok} {plain part : Text} (isPlain : plainOf toks = some plain) :
    Fits toks part ↔ part = plain := by
  induction toks generalizing plain part with
  | nil =>
      cases isPlain
      exact List.forall₂_nil_left_iff
  | cons tok toks ih =>
      rw [plainOf, List.mapM_cons] at isPlain
      cases tok with
      | any1 => cases isPlain
      | lit char =>
          obtain ⟨first, isFirst, isPlain⟩ := Option.bind_eq_some_iff.mp isPlain
          cases isFirst
          obtain ⟨rest, isRest, isCons⟩ := Option.bind_eq_some_iff.mp isPlain
          cases isCons
          rw [Fits, List.forall₂_cons_left_iff]
          constructor
          · rintro ⟨other, tail, same, fits, rfl⟩
            rw [(ih isRest).mp fits, ← same]
          · rintro rfl
            exact ⟨char, rest, rfl, (ih isRest).mpr rfl, rfl⟩

/-- A segment is compared with the characters that follow a position. -/
theorem matchToks_eq_some {toks : List Tok} {text : Text} {pos index result : Nat} :
    matchToks pos toks text index (pos + index) = some result ↔
      ∃ part tail, text = part ++ tail ∧ Fits toks part ∧ result = pos + index + byteLen part := by
  induction toks generalizing text index with
  | nil =>
      rw [matchToks]
      constructor
      · intro found
        cases found
        exact ⟨[], text, rfl, .nil, rfl⟩
      · rintro ⟨part, tail, rfl, fits, rfl⟩
        cases fits
        rfl
  | cons tok toks ih =>
      cases text with
      | nil =>
          rw [matchToks]
          constructor
          · intro found
            cases found
          · rintro ⟨part, tail, ends, fits, rfl⟩
            cases fits
            cases ends
      | cons char text =>
          have step : tok.Fits char →
              (matchToks pos toks text (index + char.utf8Size) (pos + index + char.utf8Size) =
                  some result ↔
                ∃ part tail, char :: text = part ++ tail ∧ Fits (tok :: toks) part ∧
                  result = pos + index + byteLen part) := by
            intro here
            rw [Nat.add_assoc pos, ih]
            constructor
            · rintro ⟨part, tail, rfl, fits, rfl⟩
              exact ⟨char :: part, tail, rfl, .cons here fits, by rw [byteLen_cons]; omega⟩
            · rintro ⟨part, tail, same, fits, rfl⟩
              cases fits with
              | @cons _ other _ part _ fits =>
                  cases same
                  exact ⟨part, tail, rfl, fits, by rw [byteLen_cons]; omega⟩
          cases tok with
          | any1 => exact step trivial
          | lit other =>
              rw [matchToks]
              split
              next differ =>
                constructor
                · intro found
                  cases found
                · rintro ⟨part, tail, same, fits, -⟩
                  cases fits with
                  | cons here fits =>
                      cases same
                      exact absurd here differ
              next same => exact step (not_not.mp same)

/-- What a segment is compared with at a position. -/
theorem matchAt_spec {seg : Seg} (ok : seg.plain = plainOf seg.toks) (front rest : Text) :
    ∃ found, matchAt (front ++ rest) (byteLen front) seg = .ok found ∧
      ∀ stop, found = some stop ↔
        ∃ part tail, rest = part ++ tail ∧ Fits seg.toks part ∧ stop = byteLen (front ++ part) := by
  rw [matchAt, sliceFrom_byteLen, Outcome.ok_bind, ok]
  cases isPlain : plainOf seg.toks with
  | none =>
      refine ⟨_, rfl, fun stop => ?_⟩
      rw [← Nat.add_zero (byteLen front), matchToks_eq_some]
      simp only [Nat.add_zero, byteLen_append]
  | some plain =>
      refine ⟨_, rfl, fun stop => ?_⟩
      simp only [plainOf_eq_some isPlain, byteLen_append]
      split
      next isPrefix =>
        obtain ⟨tail, rfl⟩ := List.isPrefixOf_iff_prefix.mp isPrefix
        constructor
        · intro found
          cases found
          exact ⟨plain, tail, rfl, rfl, rfl⟩
        · rintro ⟨part, _, -, rfl, rfl⟩
          rfl
      next notPrefix =>
        constructor
        · intro found
          cases found
        · rintro ⟨part, tail, rfl, rfl, -⟩
          exact absurd (List.isPrefixOf_iff_prefix.mpr (List.prefix_append _ _)) notPrefix

/-- The result of a search for a segment in the text behind a position. -/
inductive Found (toks : List Tok) (front rest : Text) : Option Nat → Prop where
  | absent (nowhere : ∀ gap part tail, rest = gap ++ part ++ tail → ¬ Fits toks part) :
      Found toks front rest none
  | present {gap part tail : Text} (isText : rest = gap ++ part ++ tail)
      (leftmost : Leftmost toks gap part tail) :
      Found toks front rest (some (byteLen (front ++ gap ++ part)))

namespace Found

variable {toks : List Tok} {front rest : Text} {char : Char} {result : Option Nat}

theorem here {part tail : Text} (isText : rest = part ++ tail) (fits : Fits toks part) :
    Found toks front rest (some (byteLen (front ++ part))) := by
  have leftmost : Leftmost toks [] part tail := ⟨fits, fun _ _ _ _ _ => Nat.zero_le _⟩
  have found := @present toks front rest [] part tail isText leftmost
  rwa [List.append_nil] at found

/-- Past a character at which the segment does not match. -/
theorem step (notHere : ∀ part tail, char :: rest = part ++ tail → ¬ Fits toks part)
    (found : Found toks (front ++ [char]) rest result) : Found toks front (char :: rest) result := by
  cases found with
  | absent nowhere =>
      refine .absent fun gap part tail same => ?_
      cases gap with
      | nil => exact notHere part tail same
      | cons other gap =>
          cases same
          exact nowhere gap part tail rfl
  | @present gap part tail isText leftmost =>
      have moved : Leftmost toks (char :: gap) part tail := by
        refine ⟨leftmost.fits, fun gap' part' tail' same fits => ?_⟩
        cases gap' with
        | nil => exact absurd fits (notHere part' tail' (by rw [isText]; exact same))
        | cons other gap' =>
            have inner := (List.cons.inj same).2
            exact Nat.succ_le_succ (leftmost.least gap' part' tail' inner fits)
      have found := @present toks front (char :: rest) (char :: gap) part tail (by rw [isText]; rfl)
        moved
      rwa [show front ++ [char] ++ gap ++ part = front ++ char :: gap ++ part by simp]

theorem end_ (notHere : ∀ part tail, [] = part ++ tail → ¬ Fits toks part) :
    Found toks front [] none := by
  refine .absent fun gap part tail same => notHere part tail ?_
  have none := List.append_eq_nil_iff.mp same.symm
  rw [none.2, (List.append_eq_nil_iff.mp none.1).2, List.append_nil]

end Found

theorem findText_spec {toks : List Tok} {plain : Text} (isPlain : plainOf toks = some plain)
    (front rest : Text) :
    Found toks front rest ((findText plain rest).map fun index =>
      byteLen front + index + byteLen plain) := by
  induction rest generalizing front with
  | nil =>
      rw [findText]
      split
      next isPrefix =>
        obtain ⟨tail, ends⟩ := List.isPrefixOf_iff_prefix.mp isPrefix
        have found := @Found.here toks front [] plain tail ends.symm ((plainOf_eq_some isPlain).mpr rfl)
        rwa [byteLen_append] at found
      next notPrefix =>
        refine Found.end_ fun part tail ends fits => notPrefix ?_
        rw [(plainOf_eq_some isPlain).mp fits] at ends
        exact List.isPrefixOf_iff_prefix.mpr ⟨tail, ends.symm⟩
  | cons char rest ih =>
      rw [findText]
      split
      next isPrefix =>
        obtain ⟨tail, ends⟩ := List.isPrefixOf_iff_prefix.mp isPrefix
        have found := @Found.here toks front (char :: rest) plain tail ends.symm
          ((plainOf_eq_some isPlain).mpr rfl)
        rwa [byteLen_append] at found
      next notPrefix =>
        have found := ih (front ++ [char])
        rw [Option.map_map]
        have same : ((fun index => byteLen front + index + byteLen plain) ∘ (char.utf8Size + ·)) =
            fun index => byteLen (front ++ [char]) + index + byteLen plain := by
          funext index
          simp [Nat.add_assoc]
        rw [same]
        refine found.step fun part tail ends fits => notPrefix ?_
        rw [(plainOf_eq_some isPlain).mp fits] at ends
        exact List.isPrefixOf_iff_prefix.mpr ⟨tail, ends.symm⟩

theorem findFrom_spec {seg : Seg} (ok : seg.plain = plainOf seg.toks) (front rest : Text) :
    ∃ found, findFrom (front ++ rest) (byteLen front) seg = .ok found ∧
      Found seg.toks front rest found := by
  induction rest generalizing front with
  | nil =>
      obtain ⟨here, isHere, matched⟩ := matchAt_spec ok front []
      rw [findFrom, isHere]
      cases here with
      | some stop =>
          obtain ⟨part, tail, isText, fits, rfl⟩ := (matched stop).mp rfl
          exact ⟨_, rfl, .here isText fits⟩
      | none =>
          refine ⟨none, ?_, .end_ fun part tail ends fits => ?_⟩
          · have slice := @sliceFrom_byteLen Empty front []
            simp only
            split
            next halted => cases slice.symm.trans halted
            next => rfl
            next another => cases slice.symm.trans another
          · have found := (matched _).mpr ⟨part, tail, ends, fits, rfl⟩
            cases found
  | cons char rest ih =>
      obtain ⟨here, isHere, matched⟩ := matchAt_spec ok front (char :: rest)
      rw [findFrom, isHere]
      cases here with
      | some stop =>
          obtain ⟨part, tail, isText, fits, rfl⟩ := (matched stop).mp rfl
          exact ⟨_, rfl, .here isText fits⟩
      | none =>
          obtain ⟨found, isFound, spec⟩ := ih (front ++ [char])
          refine ⟨found, ?_, spec.step fun part tail isText fits => ?_⟩
          · have slice := @sliceFrom_byteLen Empty front (char :: rest)
            simp only
            split
            next halted => cases slice.symm.trans halted
            next ended => cases slice.symm.trans ended
            next next others isSlice =>
              cases slice.symm.trans isSlice
              simpa using isFound
          · have found := (matched _).mpr ⟨part, tail, isText, fits, rfl⟩
            cases found

theorem find_spec {seg : Seg} (ok : seg.plain = plainOf seg.toks) (front rest : Text) :
    ∃ found, find (front ++ rest) (byteLen front) seg = .ok found ∧
      Found seg.toks front rest found := by
  rw [find]
  cases isPlain : seg.plain with
  | none => exact findFrom_spec ok front rest
  | some plain =>
      rw [sliceFrom_byteLen]
      exact ⟨_, rfl, findText_spec (ok.symm.trans isPlain) front rest⟩

/-- The segments of a parsed pattern have their plain texts. -/
def Ok (segs : List Seg) : Prop := ∀ seg ∈ segs, seg.plain = plainOf seg.toks

/-- After the middle segments are found at their leftmost places the last one decides. -/
theorem matchMiddle_spec {segs : List Seg} (ok : Ok segs) (front rest : Text) (last : List Tok) :
    ∃ found, matchMiddle (front ++ rest) (byteLen front) segs = .ok found ∧
      (found = none → ¬ Trailing (segs.map Seg.toks ++ [last]) rest) ∧
      ∀ stop, found = some stop → ∃ front' rest', front ++ rest = front' ++ rest' ∧
        stop = byteLen front' ∧
        (Trailing (segs.map Seg.toks ++ [last]) rest ↔ Trailing [last] rest') := by
  induction segs generalizing front rest with
  | nil =>
      refine ⟨some (byteLen front), rfl, nofun, fun stop isStop => ?_⟩
      cases isStop
      exact ⟨front, rest, rfl, rfl, Iff.rfl⟩
  | cons seg segs ih =>
      have others : segs.map Seg.toks ++ [last] ≠ [] := by simp
      have ok' : Ok segs := fun other member => ok other (List.mem_cons_of_mem _ member)
      rw [matchMiddle, List.map_cons, List.cons_append]
      split
      next empty =>
        have isEmpty : seg.toks = [] := List.isEmpty_iff.mp empty
        simp only [isEmpty, trailing_nil_cons others]
        exact ih ok' front rest
      next =>
        obtain ⟨found, isFound, spec⟩ := find_spec (ok seg List.mem_cons_self) front rest
        rw [isFound, Outcome.ok_bind]
        cases spec with
        | absent nowhere =>
            refine ⟨none, rfl, fun _ => ?_, nofun⟩
            rintro ⟨gap, part, tail, isText, fits, -⟩
            exact nowhere gap part tail isText fits
        | @present gap part tail isText leftmost =>
            subst isText
            simp only [leftmost.trailing_iff others]
            have same : front ++ (gap ++ part ++ tail) = front ++ gap ++ part ++ tail := by simp
            rw [same]
            exact ih ok' (front ++ gap ++ part) tail

/-! ## The end of the text -/

theorem charIndices_append (index : Nat) (text : Text) (char : Char) :
    charIndices index (text ++ [char]) = charIndices index text ++ [(index + byteLen text, char)] := by
  induction text generalizing index with
  | nil => rfl
  | cons first text ih =>
      rw [List.cons_append, charIndices, ih, charIndices, List.cons_append, byteLen_cons,
        Nat.add_assoc]

/-- Stepping back over some characters from the end. -/
theorem stepBack_eq_some {pos count start : Nat} {rest : Text} :
    stepBack pos count (charIndices 0 rest).reverse (pos + byteLen rest) = some start ↔
      ∃ gap part, rest = gap ++ part ∧ part.length = count ∧ start = pos + byteLen gap := by
  induction count generalizing rest with
  | zero =>
      rw [stepBack]
      constructor
      · intro found
        cases found
        exact ⟨rest, [], (List.append_nil _).symm, rfl, rfl⟩
      · rintro ⟨gap, part, rfl, length, rfl⟩
        rw [List.eq_nil_of_length_eq_zero length, List.append_nil]
  | succ count ih =>
      rcases List.eq_nil_or_concat rest with rfl | ⟨text, char, rfl⟩
      · constructor
        · intro found
          cases found
        · rintro ⟨gap, part, ends, length, -⟩
          rw [(List.append_eq_nil_iff.mp ends.symm).2] at length
          cases length
      · rw [List.concat_eq_append, charIndices_append, List.reverse_append, Nat.zero_add]
        change stepBack pos count (charIndices 0 text).reverse (pos + byteLen text) = some start ↔ _
        rw [ih]
        constructor
        · rintro ⟨gap, part, rfl, length, rfl⟩
          exact ⟨gap, part ++ [char], by simp, by simp [length], rfl⟩
        · rintro ⟨gap, part, same, length, rfl⟩
          rcases List.eq_nil_or_concat part with rfl | ⟨part, other, rfl⟩
          · cases length
          · rw [List.concat_eq_append, ← List.append_assoc] at same
            obtain ⟨rfl, -⟩ := List.append_inj' same rfl
            exact ⟨gap, part, rfl, by simpa using length, rfl⟩

/-- The last segment is compared with the end of the text, behind the others. -/
theorem matchLast_spec {last : Seg} (ok : last.plain = plainOf last.toks) (front rest : Text) :
    ∃ matched, matchLast (front ++ rest) (byteLen front) last = .ok matched ∧
      (matched = true ↔ Trailing [last.toks] rest) := by
  rw [matchLast, sliceFrom_byteLen, Outcome.ok_bind, byteLen_append, trailing_last]
  cases stepped : stepBack (byteLen front) last.toks.length (charIndices 0 rest).reverse
      (byteLen front + byteLen rest) with
  | none =>
      refine ⟨false, rfl, ?_⟩
      rw [Bool.false_eq_true, false_iff]
      rintro ⟨gap, part, isRest, fits⟩
      have found := (@stepBack_eq_some (byteLen front) _ _ rest).mpr ⟨gap, part, isRest, fits.length.symm, rfl⟩
      rw [stepped] at found
      cases found
  | some start =>
      obtain ⟨gap, part, rfl, length, rfl⟩ := stepBack_eq_some.mp stepped
      obtain ⟨found, isFound, spec⟩ := matchAt_spec ok (front ++ gap) part
      rw [byteLen_append, List.append_assoc] at isFound
      simp only [isFound, Outcome.ok_bind]
      refine ⟨_, rfl, ?_⟩
      rw [decide_eq_true_eq, spec]
      constructor
      · rintro ⟨inside, tail, rfl, fits, -⟩
        have short : tail = [] := by
          rw [List.length_append, ← fits.length] at length
          exact List.eq_nil_of_length_eq_zero (by omega)
        exact ⟨gap, inside, by rw [short, List.append_nil], fits⟩
      · rintro ⟨gap', part', same, fits⟩
        have isPart : part = part' := (List.append_inj' same (length.trans fits.length)).2
        exact ⟨part, [], (List.append_nil _).symm, isPart ▸ fits, by simp⟩

/-! ## The whole pattern -/

/-- The matcher accepts the texts of which the segments of the pattern are the segments. -/
theorem matches_segs {segs : List Seg} (ok : Ok segs) {first : List Tok} {others : List (List Tok)}
    (isSegs : segs.map Seg.toks = first :: others) (lower : Text → Text) (text : Text) :
    ∃ matched, LikePattern.matches lower ⟨segs, false⟩ text = .ok matched ∧
      (matched = true ↔ Segmented first others text) := by
  match segs, ok, isSegs with
  | [only], ok, isSegs =>
      cases isSegs
      obtain ⟨found, isFound, spec⟩ := matchAt_spec (ok only List.mem_cons_self) [] text
      change matchAt text 0 only = .ok found at isFound
      refine ⟨decide (found = some (byteLen text)), ?_, ?_⟩
      · simp only [LikePattern.matches, Bool.false_eq_true, if_false, isFound, Outcome.ok_bind]
        rfl
      · rw [decide_eq_true_eq, spec]
        constructor
        · rintro ⟨part, tail, rfl, fits, length⟩
          rw [List.nil_append, byteLen_append] at length
          exact ⟨part, tail, rfl, fits, byteLen_eq_zero.mp (by omega)⟩
        · rintro ⟨part, tail, rfl, fits, rfl⟩
          exact ⟨part, [], rfl, fits, by rw [List.append_nil, List.nil_append]⟩
  | start :: second :: more, ok, isSegs =>
      have some : second :: more ≠ [] := List.cons_ne_nil _ _
      have whole := List.dropLast_append_getLast some
      generalize isMiddle : (second :: more).dropLast = middle at whole
      generalize isLast : (second :: more).getLast some = last at whole
      have okLast : last.plain = plainOf last.toks :=
        ok last (by rw [← whole]; simp)
      have okMiddle : Ok middle := fun seg member => ok seg (by rw [← whole]; simp [member])
      rw [← whole, List.map_cons, List.map_append] at isSegs
      obtain ⟨rfl, rfl⟩ := List.cons.inj isSegs
      obtain ⟨found, isFound, spec⟩ := matchAt_spec (ok start List.mem_cons_self) [] text
      change matchAt text 0 start = .ok found at isFound
      simp only [LikePattern.matches, Bool.false_eq_true, if_false, isFound, Outcome.ok_bind,
        isMiddle, isLast]
      cases found with
      | none =>
          refine ⟨false, rfl, ?_⟩
          rw [Bool.false_eq_true, false_iff]
          rintro ⟨part, tail, isText, fits, -⟩
          have found := (spec _).mpr ⟨part, tail, isText, fits, rfl⟩
          cases found
      | some stop =>
          obtain ⟨part, tail, rfl, fits, rfl⟩ := (spec stop).mp rfl
          rw [segmented_iff fits]
          obtain ⟨found, isFound, absent, present⟩ := matchMiddle_spec okMiddle part tail last.toks
          simp only [List.nil_append, isFound, Outcome.ok_bind]
          cases found with
          | none => exact ⟨false, rfl, by simpa using absent rfl⟩
          | some stop =>
              obtain ⟨front, rest, same, rfl, decides⟩ := present stop rfl
              rw [same, List.map_cons, List.map_nil, decides]
              exact matchLast_spec okLast front rest

/-- The matcher answers for every text, and with yes exactly for those in the language of the
pattern. -/
theorem matches_iff (lower : Text → Text) (pattern text : Text) :
    ∃ matched, LikePattern.matches lower (new lower pattern false) text = .ok matched ∧
      (matched = true ↔ InLanguage pattern text) := by
  obtain ⟨first, segs, isSplit, language⟩ := split_spec [] [] pattern
  have ok : Ok (new lower pattern false).segs := by
    intro seg member
    obtain ⟨toks, -, rfl⟩ := List.mem_map.mp member
    rfl
  have isSegs : (new lower pattern false).segs.map Seg.toks = first :: segs := by
    rw [new, List.map_map, Function.comp_def, List.map_id']
    exact isSplit
  obtain ⟨matched, isMatched, spec⟩ := matches_segs ok isSegs lower text
  exact ⟨matched, isMatched, spec.trans (language text).symm⟩

end JouleDB.Query.LikePattern
