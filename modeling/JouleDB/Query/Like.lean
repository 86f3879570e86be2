import JouleDB.Lib.Text

/-!
# The LIKE matcher

A pattern is split at its wildcards `%` into segments of literals and single-character wildcards.
The first segment is compared at the start of the text, the last one at its end, and those between
them are searched for one after the other, each from the end of the one before.
-/

namespace JouleDB.Query

/-- An element of a segment. -/
inductive Tok where
  | lit (char : Char)
  | any1
  deriving DecidableEq

/-- A segment of a pattern. -/
structure Seg where
  toks : List Tok
  /-- The text of a segment without wildcards. -/
  plain : Option Text
  deriving DecidableEq

/-- A parsed pattern. -/
structure LikePattern where
  segs : List Seg
  caseInsensitive : Bool
  deriving DecidableEq

namespace LikePattern

/-- The segments of a pattern: those that are finished, the last of them and what is left to read. -/
def split (done : List (List Tok)) (last : List Tok) : Text → List (List Tok)
  | [] => done ++ [last]
  | '\\' :: [] => done ++ [last ++ [.lit '\\']]
  | '\\' :: char :: rest => split done (last ++ [.lit char]) rest
  | '%' :: rest => split (done ++ [last]) [] rest
  | '_' :: rest => split done (last ++ [.any1]) rest
  | char :: rest => split done (last ++ [.lit char]) rest

/-- The text of a segment, unless it has a wildcard. -/
def plainOf (toks : List Tok) : Option Text :=
  toks.mapM fun tok =>
    match tok with
    | .lit char => some char
    | .any1 => none

section

variable (toLowercase : Text → Text)

def new (pattern : Text) (caseInsensitive : Bool) : LikePattern where
  segs := (split [] [] (if caseInsensitive then toLowercase pattern else pattern)).map fun toks =>
    { toks := toks, plain := plainOf toks }
  caseInsensitive := caseInsensitive

end

/-- Compare a segment with a text character by character, and return the end of the last one. -/
def matchToks (pos : Nat) : List Tok → Text → (index stop : Nat) → Option Nat
  | [], _, _, stop => some stop
  | _ :: _, [], _, _ => none
  | .lit other :: toks, char :: text, index, _ =>
      if other ≠ char then none
      else matchToks pos toks text (index + char.utf8Size) (pos + index + char.utf8Size)
  | .any1 :: toks, char :: text, index, _ =>
      matchToks pos toks text (index + char.utf8Size) (pos + index + char.utf8Size)

/-- The end of a segment that matches the text at a byte position. -/
def matchAt (text : Text) (pos : Nat) (seg : Seg) : Outcome Empty (Option Nat) := do
  let rest ← sliceFrom text pos
  match seg.plain with
  | some plain => pure (if plain.isPrefixOf rest then some (pos + byteLen plain) else none)
  | none => pure (matchToks pos seg.toks rest 0 pos)

/-- The byte position of the first occurrence of a text. -/
def findText (plain : Text) : Text → Option Nat
  | [] => if plain.isPrefixOf [] then some 0 else none
  | char :: rest =>
      if plain.isPrefixOf (char :: rest) then some 0
      else (findText plain rest).map (char.utf8Size + ·)

/-- Try a segment at a position and the ones behind it. -/
def findFrom (text : Text) (pos : Nat) (seg : Seg) : Outcome Empty (Option Nat) :=
  match matchAt text pos seg with
  | .halt cause => .halt cause
  | .ok (some stop) => .ok (some stop)
  | .ok none =>
      match _isSlice : (sliceFrom text pos : Outcome Empty Text) with
      | .halt cause => .halt cause
      | .ok [] => .ok none
      | .ok (char :: _) => findFrom text (pos + char.utf8Size) seg
termination_by byteLen text - pos
decreasing_by
  obtain ⟨front, rfl, rfl⟩ := exists_front _isSlice
  have positive := char.utf8Size_pos
  rw [byteLen_append, byteLen_cons]
  omega

/-- The end of the leftmost match of a segment from a position on. -/
def find (text : Text) (start : Nat) (seg : Seg) : Outcome Empty (Option Nat) :=
  match seg.plain with
  | some plain => do
      let rest ← sliceFrom text start
      pure ((findText plain rest).map fun index => start + index + byteLen plain)
  | none => findFrom text start seg

/-- Search for the middle segments one after the other, and return where the last one ends. -/
def matchMiddle (text : Text) : Nat → List Seg → Outcome Empty (Option Nat)
  | pos, [] => pure (some pos)
  | pos, seg :: segs =>
      if seg.toks.isEmpty then matchMiddle text pos segs
      else do
        match ← find text pos seg with
        | some stop => matchMiddle text stop segs
        | none => pure none

/-- The characters of a text with their byte positions. -/
def charIndices : Nat → Text → List (Nat × Char)
  | _, [] => []
  | index, char :: rest => (index, char) :: charIndices (index + char.utf8Size) rest

/-- Step back over some characters. -/
def stepBack (pos : Nat) : Nat → List (Nat × Char) → Nat → Option Nat
  | 0, _, start => some start
  | _ + 1, [], _ => none
  | count + 1, (index, _) :: back, _ => stepBack pos count back (pos + index)

def matchLast (text : Text) (pos : Nat) (last : Seg) : Outcome Empty Bool := do
  let rest ← sliceFrom text pos
  match stepBack pos last.toks.length (charIndices 0 rest).reverse (byteLen text) with
  | none => pure false
  | some start => do
      let stop ← matchAt text start last
      pure (stop = some (byteLen text))

/-- The text matches the pattern. -/
def «matches» (toLowercase : Text → Text) (pattern : LikePattern) (text : Text) :
    Outcome Empty Bool :=
  let text := if pattern.caseInsensitive then toLowercase text else text
  match pattern.segs with
  | [] => .halt .panic
  | [only] => do
      let stop ← matchAt text 0 only
      pure (stop = some (byteLen text))
  | first :: second :: others => do
      match ← matchAt text 0 first with
      | none => pure false
      | some pos =>
          match ← matchMiddle text pos (second :: others).dropLast with
          | none => pure false
          | some pos => matchLast text pos ((second :: others).getLast (List.cons_ne_nil _ _))

end LikePattern

end JouleDB.Query
