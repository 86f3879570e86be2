import JouleDB.Query.Like
import Mathlib.Data.List.Forall2

/-!
# The language of a LIKE pattern

A pattern stands for a language of texts.  Split at its `%`, it asks for its first segment at the
start of the text and for each of the others somewhere after the one before, the last of them at the
end.  Taking the leftmost place for every segment loses nothing: whatever fits behind a later place
fits behind the leftmost one.
-/

namespace JouleDB.Query

/-- The texts that a pattern stands for. -/
inductive InLanguage : Text → Text → Prop where
  | nil : InLanguage [] []
  | percent {pattern text : Text} (skipped : Text) (rest : InLanguage pattern text) :
      InLanguage ('%' :: pattern) (skipped ++ text)
  | underscore {pattern text : Text} (char : Char) (rest : InLanguage pattern text) :
      InLanguage ('_' :: pattern) (char :: text)
  | escaped {pattern text : Text} (char : Char) (rest : InLanguage pattern text) :
      InLanguage ('\\' :: char :: pattern) (char :: text)
  | backslash : InLanguage ['\\'] ['\\']
  | other {pattern text : Text} {char : Char} (notPercent : char ≠ '%') (notUnderscore : char ≠ '_')
      (notBackslash : char ≠ '\\') (rest : InLanguage pattern text) :
      InLanguage (char :: pattern) (char :: text)

/-- A character fits an element of a segment. -/
def Tok.Fits : Tok → Char → Prop
  | .lit other, char => other = char
  | .any1, _ => True

/-- A text fits a segment. -/
abbrev Fits (toks : List Tok) (text : Text) : Prop := List.Forall₂ Tok.Fits toks text

/-- Segments that follow each other in a text, with anything between them, up to its end. -/
def Trailing : List (List Tok) → Text → Prop
  | [], text => text = []
  | toks :: segs, text =>
      ∃ gap part tail, text = gap ++ part ++ tail ∧ Fits toks part ∧ Trailing segs tail

/-- A first segment at the start of a text and others behind it. -/
def Segmented (first : List Tok) (segs : List (List Tok)) (text : Text) : Prop :=
  ∃ part tail, text = part ++ tail ∧ Fits first part ∧ Trailing segs tail

/-! ## The segments of a pattern -/

theorem segmented_nil {segs : List (List Tok)} {text : Text} :
    Segmented [] segs text ↔ Trailing segs text := by
  constructor
  · rintro ⟨part, tail, rfl, fits, trailing⟩
    cases fits
    exact trailing
  · exact fun trailing => ⟨[], text, rfl, .nil, trailing⟩

theorem segmented_cons {tok : Tok} {first : List Tok} {segs : List (List Tok)} {text : Text} :
    Segmented (tok :: first) segs text ↔
      ∃ char rest, text = char :: rest ∧ tok.Fits char ∧ Segmented first segs rest := by
  constructor
  · rintro ⟨part, tail, rfl, fits, trailing⟩
    cases fits with
    | @cons _ char _ part here fits => exact ⟨char, part ++ tail, rfl, here, part, tail, rfl, fits, trailing⟩
  · rintro ⟨char, rest, rfl, here, part, tail, rfl, fits, trailing⟩
    exact ⟨char :: part, tail, rfl, .cons here fits, trailing⟩

theorem trailing_cons {first : List Tok} {segs : List (List Tok)} {text : Text} :
    Trailing (first :: segs) text ↔ ∃ gap rest, text = gap ++ rest ∧ Segmented first segs rest := by
  constructor
  · rintro ⟨gap, part, tail, rfl, fits, trailing⟩
    exact ⟨gap, part ++ tail, List.append_assoc _ _ _, part, tail, rfl, fits, trailing⟩
  · rintro ⟨gap, rest, rfl, part, tail, rfl, fits, trailing⟩
    exact ⟨gap, part, tail, (List.append_assoc _ _ _).symm, fits, trailing⟩

/-- A pattern that begins with an element of a segment. -/
theorem step_segment {pattern rest : Text} {tok : Tok} {done : List (List Tok)} {last : List Tok}
    (head : ∀ text, InLanguage pattern text ↔
      ∃ char tail, text = char :: tail ∧ tok.Fits char ∧ InLanguage rest tail)
    (ih : ∃ first segs, LikePattern.split done (last ++ [tok]) rest =
        done ++ (last ++ [tok] ++ first) :: segs ∧
      ∀ text, InLanguage rest text ↔ Segmented first segs text) :
    ∃ first segs, LikePattern.split done (last ++ [tok]) rest = done ++ (last ++ first) :: segs ∧
      ∀ text, InLanguage pattern text ↔ Segmented first segs text := by
  obtain ⟨first, segs, isSplit, language⟩ := ih
  refine ⟨tok :: first, segs, by rw [isSplit]; simp, fun text => ?_⟩
  rw [head, segmented_cons]
  simp only [language]

/-- The segments of a pattern stand for its language. -/
theorem split_spec (done : List (List Tok)) (last : List Tok) (pattern : Text) :
    ∃ first segs, LikePattern.split done last pattern = done ++ (last ++ first) :: segs ∧
      ∀ text, InLanguage pattern text ↔ Segmented first segs text := by
  fun_induction LikePattern.split done last pattern with
  | case1 done last =>
      refine ⟨[], [], by simp, fun text => ?_⟩
      rw [segmented_nil, Trailing]
      constructor
      · intro member
        cases member
        rfl
      · rintro rfl
        exact .nil
  | case2 done last =>
      refine ⟨[.lit '\\'], [], rfl, fun text => ?_⟩
      rw [segmented_cons]
      constructor
      · intro member
        cases member with
        | backslash => exact ⟨_, _, rfl, rfl, segmented_nil.mpr rfl⟩
        | other _ _ notBackslash _ => exact absurd rfl notBackslash
      · rintro ⟨char, tail, rfl, rfl, ends⟩
        rw [segmented_nil.mp ends]
        exact .backslash
  | case3 done last char rest ih =>
      refine step_segment (fun text => ?_) ih
      constructor
      · intro member
        cases member with
        | escaped _ member => exact ⟨_, _, rfl, rfl, member⟩
        | other _ _ notBackslash _ => exact absurd rfl notBackslash
      · rintro ⟨_, tail, rfl, rfl, member⟩
        exact .escaped char member
  | case4 done last rest ih =>
      obtain ⟨first, segs, isSplit, language⟩ := ih
      refine ⟨[], first :: segs, by rw [isSplit]; simp, fun text => ?_⟩
      rw [segmented_nil, trailing_cons]
      constructor
      · intro member
        cases member with
        | percent skipped member => exact ⟨skipped, _, rfl, (language _).mp member⟩
        | other notPercent _ _ _ => exact absurd rfl notPercent
      · rintro ⟨gap, tail, rfl, segmented⟩
        exact .percent gap ((language tail).mpr segmented)
  | case5 done last rest ih =>
      refine step_segment (fun text => ?_) ih
      constructor
      · intro member
        cases member with
        | underscore char member => exact ⟨char, _, rfl, trivial, member⟩
        | other _ notUnderscore _ _ => exact absurd rfl notUnderscore
      · rintro ⟨char, tail, rfl, -, member⟩
        exact .underscore char member
  | case6 done last char rest notEscape notBackslash notPercent notUnderscore ih =>
      refine step_segment (fun text => ?_) ih
      constructor
      · intro member
        cases member with
        | other _ _ _ member => exact ⟨char, _, rfl, rfl, member⟩
        | percent => exact absurd rfl notPercent
        | underscore => exact absurd rfl notUnderscore
        | escaped => exact absurd rfl (notBackslash _ _ rfl)
        | backslash => exact absurd rfl (notEscape rfl)
      · rintro ⟨_, tail, rfl, rfl, member⟩
        refine .other notPercent notUnderscore (fun isEscape => ?_) member
        cases rest with
        | nil => exact notEscape isEscape rfl
        | cons next rest => exact notBackslash next rest isEscape rfl

/-! ## Leftmost places -/

theorem Fits.length {toks : List Tok} {part : Text} (fits : Fits toks part) :
    toks.length = part.length := fits.length_eq

/-- Segments behind a text are also behind a longer one. -/
theorem Trailing.extend {segs : List (List Tok)} (others : segs ≠ []) {text : Text}
    (trailing : Trailing segs text) (front : Text) : Trailing segs (front ++ text) := by
  cases segs with
  | nil => exact absurd rfl others
  | cons toks segs =>
      obtain ⟨gap, part, tail, rfl, fits, trailing⟩ := trailing
      exact ⟨front ++ gap, part, tail, by simp, fits, trailing⟩

theorem segmented_iff {first : List Tok} {segs : List (List Tok)} {part tail : Text}
    (fits : Fits first part) : Segmented first segs (part ++ tail) ↔ Trailing segs tail := by
  constructor
  · rintro ⟨part', tail', same, fits', trailing⟩
    obtain ⟨-, rfl⟩ := List.append_inj same (fits.length.symm.trans fits'.length)
    exact trailing
  · exact fun trailing => ⟨part, tail, rfl, fits, trailing⟩

/-- An empty segment between others asks for nothing. -/
theorem trailing_nil_cons {segs : List (List Tok)} (others : segs ≠ []) {text : Text} :
    Trailing ([] :: segs) text ↔ Trailing segs text := by
  rw [trailing_cons]
  constructor
  · rintro ⟨gap, rest, rfl, segmented⟩
    exact (segmented_nil.mp segmented).extend others gap
  · exact fun trailing => ⟨[], text, rfl, segmented_nil.mpr trailing⟩

/-- The leftmost place of a segment in a text. -/
structure Leftmost (toks : List Tok) (gap part tail : Text) : Prop where
  fits : Fits toks part
  least : ∀ gap' part' tail', gap ++ part ++ tail = gap' ++ part' ++ tail' → Fits toks part' →
    gap.length ≤ gap'.length

/-- A segment can be put at its leftmost place. -/
theorem Leftmost.trailing_iff {toks : List Tok} {gap part tail : Text}
    (leftmost : Leftmost toks gap part tail) {segs : List (List Tok)} (others : segs ≠ []) :
    Trailing (toks :: segs) (gap ++ part ++ tail) ↔ Trailing segs tail := by
  constructor
  · rintro ⟨gap', part', tail', same, fits, trailing⟩
    have before := leftmost.least gap' part' tail' same fits
    have length : (gap ++ part).length ≤ (gap' ++ part').length := by
      rw [List.length_append, List.length_append, ← leftmost.fits.length, ← fits.length]
      exact Nat.add_le_add_right before _
    have front : gap ++ part <+: gap' ++ part' :=
      List.prefix_of_prefix_length_le (List.prefix_append _ tail)
        (same ▸ List.prefix_append _ _) length
    obtain ⟨between, isBetween⟩ := front
    rw [← isBetween, List.append_assoc (gap ++ part), List.append_cancel_left_eq] at same
    rw [same]
    exact trailing.extend others between
  · exact fun trailing => ⟨gap, part, tail, rfl, leftmost.fits, trailing⟩

theorem trailing_last {toks : List Tok} {text : Text} :
    Trailing [toks] text ↔ ∃ gap part, text = gap ++ part ∧ Fits toks part := by
  constructor
  · rintro ⟨gap, part, tail, rfl, fits, rfl⟩
    exact ⟨gap, part, by rw [List.append_nil], fits⟩
  · rintro ⟨gap, part, rfl, fits⟩
    exact ⟨gap, part, [], by rw [List.append_nil], fits, rfl⟩

end JouleDB.Query
