import JouleDB.ColumnarExec.Append
import JouleDB.Lib.Memo
import JouleDB.Lib.Run
import JouleDB.Query.LikeMatch

/-!
# The cached verdicts of LIKE

LIKE is decided once for every entry of a dictionary.  A thread remembers the last verdicts by the
address and the length of the dictionary, the pattern and the flags.  The dictionaries belong to
snapshots of tables, which are built, appended to and dropped; an address that is free again may be
given to another dictionary.
-/

namespace JouleDB.ColumnarExec

open Amorphic (Fields)
open Query (LikePattern)

/-! ## LIKE over a dictionary -/

/-- The entries of a dictionary that match a pattern. -/
def likeTable (like : String → String → Bool → Bool) (dict : List String)
    (pattern : String) (negated ci : Bool) : List Bool :=
  dict.map fun entry => like entry pattern ci != negated

section Like

variable (toLowercase : Text → Text)

/-- The text matches the pattern. -/
def like (text pattern : String) (caseInsensitive : Bool) : Bool :=
  LikePattern.matches toLowercase (.new toLowercase pattern.toList caseInsensitive) text.toList =
    .ok true

theorem matches_eq_like (text pattern : String) (caseInsensitive : Bool) :
    LikePattern.matches toLowercase (.new toLowercase pattern.toList caseInsensitive) text.toList =
      .ok (like toLowercase text pattern caseInsensitive) := by
  have answers : ∀ text : Text, ∃ matched,
      LikePattern.matches toLowercase
        ⟨(LikePattern.new toLowercase pattern.toList caseInsensitive).segs, false⟩ text =
          .ok matched := by
    intro text
    obtain ⟨first, segs, isSplit, -⟩ :=
      Query.split_spec [] [] (if caseInsensitive then toLowercase pattern.toList
        else pattern.toList)
    have ok : LikePattern.Ok (LikePattern.new toLowercase pattern.toList caseInsensitive).segs := by
      intro seg member
      obtain ⟨toks, -, rfl⟩ := List.mem_map.mp member
      rfl
    have isSegs : (LikePattern.new toLowercase pattern.toList caseInsensitive).segs.map
        Query.Seg.toks = first :: segs := by
      rw [LikePattern.new, List.map_map, Function.comp_def, List.map_id']
      exact isSplit
    obtain ⟨matched, isMatched, -⟩ := LikePattern.matches_segs ok isSegs toLowercase text
    exact ⟨matched, isMatched⟩
  obtain ⟨matched, isMatched⟩ :=
    answers (if caseInsensitive then toLowercase text.toList else text.toList)
  have whole : LikePattern.matches toLowercase
      (.new toLowercase pattern.toList caseInsensitive) text.toList = .ok matched := isMatched
  rw [like, whole]
  cases matched <;> rfl

/-- A dictionary at its address. -/
structure Dictionary where
  address : Nat
  entries : List String
  deriving DecidableEq

/-- What verdicts are remembered by. -/
structure LikeKey where
  address : Nat
  length : Nat
  pattern : String
  negated : Bool
  caseInsensitive : Bool
  deriving DecidableEq

/-- The last verdicts of a thread. -/
abbrev LikeCache := Memo LikeKey (List Bool)

/-- An evaluation of LIKE over a dictionary. -/
structure Evaluation where
  dict : Dictionary
  pattern : String
  negated : Bool
  caseInsensitive : Bool
  deriving DecidableEq

namespace Evaluation

/-- What the verdicts are remembered by. -/
def key (evaluation : Evaluation) : LikeKey :=
  ⟨evaluation.dict.address, evaluation.dict.entries.length, evaluation.pattern, evaluation.negated,
    evaluation.caseInsensitive⟩

/-- The verdicts over the entries. -/
def verdicts (evaluation : Evaluation) : List Bool :=
  likeTable (like toLowercase) evaluation.dict.entries evaluation.pattern evaluation.negated
    evaluation.caseInsensitive

/-- A request to the cache, with its right answer. -/
def request (evaluation : Evaluation) : LikeKey × List Bool :=
  (evaluation.key, evaluation.verdicts toLowercase)

end Evaluation

/-- The verdicts over a dictionary, from the cache if it has them. -/
def LikeCache.likeTable (cache : LikeCache) (evaluation : Evaluation) : List Bool × LikeCache :=
  cache.ask evaluation.key (evaluation.verdicts toLowercase)

end Like

/-! ## Snapshots in memory -/

variable {F Nested : Type} [FloatNumber F]

/-- A snapshot of a table, and the addresses of the dictionaries of its columns. -/
structure Placed (F : Type) where
  table : TableColumns F
  address : String → Nat

/-- The dictionary of a column. -/
def Placed.dictionary (placed : Placed F) (column : String) : Option Dictionary :=
  match placed.table.cols[column]? with
  | some (.text _ dict) => some ⟨placed.address column, dict⟩
  | _ => none

/-- The snapshots, and the cache of a thread. -/
structure Memory (F : Type) where
  snapshots : Nat → Option (Placed F)
  cache : LikeCache

/-- What is done with the snapshots.  Where memory is taken, the addresses are given to the
dictionaries of the columns. -/
inductive Event (F Nested : Type) where
  | build (snapshot : Nat) (columns : List String) (records : List (Fields F Nested))
      (address : String → Nat)
  | append (snapshot : Nat) (records : List (Fields F Nested)) (address : String → Nat)
  | drop (snapshot : Nat)
  | like (snapshot : Nat) (column pattern : String) (negated caseInsensitive : Bool)

namespace Memory

/-- A dictionary in memory. -/
def dictionary (memory : Memory F) (snapshot : Nat) (column : String) : Option Dictionary :=
  (memory.snapshots snapshot).bind fun placed => placed.dictionary column

/-- Replace or drop a snapshot. -/
def set (memory : Memory F) (snapshot : Nat) (placed : Option (Placed F)) : Memory F :=
  { memory with snapshots := Function.update memory.snapshots snapshot placed }

/-- The evaluation of an event, if the column is one of texts. -/
def evaluation (memory : Memory F) : Event F Nested → Option Evaluation
  | .like snapshot column pattern negated caseInsensitive =>
      (memory.dictionary snapshot column).map fun dict => ⟨dict, pattern, negated, caseInsensitive⟩
  | _ => none

variable (toLowercase : Text → Text)

/-- One event.  A snapshot that cannot be appended to is dropped. -/
def step (memory : Memory F) (event : Event F Nested) : Memory F :=
  match event with
  | .build snapshot columns records address =>
      memory.set snapshot (some ⟨.build columns records, address⟩)
  | .append snapshot records address =>
      match memory.snapshots snapshot with
      | none => memory
      | some placed =>
          memory.set snapshot ((placed.table.append records).map fun table => ⟨table, address⟩)
  | .drop snapshot => memory.set snapshot none
  | .like _ _ _ _ _ =>
      match memory.evaluation event with
      | none => memory
      | some evaluation =>
          { memory with cache := (memory.cache.likeTable toLowercase evaluation).2 }

/-- The evaluations of a run. -/
def evaluations (memory : Memory F) : List (Event F Nested) → List Evaluation
  | [] => []
  | event :: events =>
      (memory.evaluation event).toList ++ (memory.step toLowercase event).evaluations events

/-- The answers of a run. -/
def answers (memory : Memory F) : List (Event F Nested) → List (List Bool)
  | [] => []
  | event :: events =>
      ((memory.evaluation event).map fun evaluation =>
        (memory.cache.likeTable toLowercase evaluation).1).toList ++
        (memory.step toLowercase event).answers events

end Memory

/-! ## Dictionaries grow -/

omit [FloatNumber F] in
theorem appendTexts_prefix {state grown : TextState} {cells : List (Cell F)}
    (fits : appendTexts state cells = some grown) : state.dict <+: grown.dict := by
  induction cells generalizing state with
  | nil =>
      cases fits
      exact List.prefix_rfl
  | cons cell cells ih =>
      cases cell with
      | null =>
          have extended := ih (show appendTexts state.pushNull cells = some grown from fits)
          exact extended
      | s value =>
          refine List.IsPrefix.trans ?_ (ih fits)
          unfold TextState.push
          split
          next => exact List.prefix_rfl
          next => exact List.prefix_append _ _
      | i value | f value | b => cases fits

/-- A column of texts comes from one whose dictionary it extends. -/
theorem appendCol_prefix {col : Col F} {index : TextIndex} {index' : Option TextIndex} {old : Nat}
    {cells : List (Cell F)} {codes' : List Nat} {dict' : List String}
    (fits : appendCol col index old cells = some (.text codes' dict', index')) :
    ∃ codes dict, col = .text codes dict ∧ dict <+: dict' := by
  cases col with
  | int values nulls =>
      obtain ⟨grown, -, same⟩ := Option.map_eq_some_iff.mp fits
      cases same
  | float values nulls =>
      obtain ⟨grown, -, same⟩ := Option.map_eq_some_iff.mp fits
      cases same
  | text codes dict =>
      obtain ⟨grown, isGrown, same⟩ := Option.map_eq_some_iff.mp fits
      cases same
      exact ⟨codes, dict, rfl, appendTexts_prefix isGrown⟩
  | other => cases fits

/-- The dictionaries of a snapshot that was appended to extend those that it had. -/
theorem dictionary_append {placed : Placed F} {records : List (Fields F Nested)}
    {table : TableColumns F} {address : String → Nat} {column : String} {dict' : Dictionary}
    (appended : placed.table.append records = some table)
    (found : (⟨table, address⟩ : Placed F).dictionary column = some dict') :
    dict'.address = address column ∧
      ∃ dict, placed.dictionary column = some dict ∧ dict.entries <+: dict'.entries := by
  unfold TableColumns.append TableColumns.appendCells at appended
  dsimp only at appended
  split at appended
  next =>
    cases appended
    unfold Placed.dictionary at found
    split at found
    next codes' entries' isText =>
      cases found
      refine ⟨rfl, ?_⟩
      rw [TableColumns.refreshZones, Std.ExtTreeMap.getElem?_filterMap',
        Std.ExtTreeMap.getElem?_map] at isText
      obtain ⟨result, isResult, isCol⟩ := Option.bind_eq_some_iff.mp isText
      obtain ⟨col, isColumn, fits⟩ := Option.map_eq_some_iff.mp isResult
      obtain ⟨⟨grown, index'⟩, rfl, same⟩ := Option.map_eq_some_iff.mp isCol
      cases same
      obtain ⟨codes, entries, rfl, extended⟩ := appendCol_prefix fits
      refine ⟨⟨placed.address column, entries⟩, ?_, extended⟩
      rw [Placed.dictionary, isColumn]
    next => cases found
  next => cases appended

namespace Memory

/-! ## Answers of runs -/

section Answers

variable (toLowercase : Text → Text)

theorem step_cache (memory : Memory F) (event : Event F Nested) :
    (memory.step toLowercase event).cache =
      ((memory.evaluation event).map fun evaluation =>
        (memory.cache.likeTable toLowercase evaluation).2).getD memory.cache := by
  cases event with
  | build snapshot columns records address => rfl
  | append snapshot records address =>
      change (match memory.snapshots snapshot with
        | none => memory
        | some placed => memory.set snapshot _).cache = memory.cache
      split <;> rfl
  | drop snapshot => rfl
  | like snapshot column pattern negated caseInsensitive =>
      unfold step
      dsimp only
      split
      next none => rw [none]; rfl
      next evaluation found => rw [found]; rfl

/-- The answers of a run are those of the cache to the requests of its evaluations. -/
theorem answers_eq (memory : Memory F) (events : List (Event F Nested)) :
    memory.answers toLowercase events =
      Memo.answers memory.cache
        ((memory.evaluations toLowercase events).map (Evaluation.request toLowercase)) := by
  induction events generalizing memory with
  | nil => rfl
  | cons event events ih =>
      rw [answers, evaluations, ih, step_cache]
      cases memory.evaluation event with
      | none => rfl
      | some evaluation => rfl

/-- Every evaluation of a run is answered with the verdicts over the entries that its dictionary has
then. -/
def Right (memory : Memory F) (events : List (Event F Nested)) : Prop :=
  memory.answers toLowercase events =
    (memory.evaluations toLowercase events).map (Evaluation.verdicts toLowercase)

/-- Two evaluations that the cache does not tell apart have the same verdicts. -/
def SameVerdicts (one two : Evaluation) : Prop :=
  one.key = two.key → one.verdicts toLowercase = two.verdicts toLowercase

/-- From an empty cache on, every evaluation is right if and only if those that follow each other
have the same verdicts whenever the cache does not tell them apart. -/
theorem right_iff {memory : Memory F} (empty : memory.cache = none)
    (events : List (Event F Nested)) :
    memory.Right toLowercase events ↔
      (memory.evaluations toLowercase events).IsChain (SameVerdicts toLowercase) := by
  have requests := Memo.answers_iff
    ((memory.evaluations toLowercase events).map (Evaluation.request toLowercase))
  rw [List.map_map, List.isChain_map] at requests
  rw [Right, answers_eq, empty]
  exact requests

end Answers

/-! ## Addresses that are not given again -/

variable {toLowercase : Text → Text} {memory : Memory F}

/-- No two dictionaries stand at the same address; each has entries and takes memory. -/
def Apart (memory : Memory F) : Prop :=
  ∀ snapshot column dict snapshot' column' dict',
    memory.dictionary snapshot column = some dict →
    memory.dictionary snapshot' column' = some dict' →
    dict.address = dict'.address → snapshot = snapshot' ∧ column = column'

/-- The address of the dictionary whose verdicts are remembered. -/
def remembered (memory : Memory F) : Option Nat := memory.cache.map fun memo => memo.1.address

/-- No dictionary comes to the remembered address that did not stand there. -/
def Spares (memory : Memory F) : Event F Nested → Prop
  | .build _ columns records address => ∀ column codes dict,
      (TableColumns.build columns records).cols[column]? = some (.text codes dict) →
        memory.remembered ≠ some (address column)
  | .append snapshot _ address => ∀ column dict, memory.dictionary snapshot column = some dict →
      memory.remembered = some (address column) → dict.address = address column
  | _ => True

/-- The remembered verdicts are those over entries that every dictionary at the remembered address
still begins with. -/
def Remembers (toLowercase : Text → Text) (memory : Memory F) : Prop :=
  ∀ key verdicts, memory.cache = some (key, verdicts) → ∃ entries : List String,
    entries.length = key.length ∧
    verdicts = likeTable (like toLowercase) entries key.pattern key.negated key.caseInsensitive ∧
    ∀ snapshot column dict, memory.dictionary snapshot column = some dict →
      dict.address = key.address → entries <+: dict.entries

omit [FloatNumber F] in
/-- A dictionary is evaluated rightly when the verdicts that are remembered are its own. -/
theorem Remembers.right (remembers : memory.Remembers toLowercase) {event : Event F Nested}
    {evaluation : Evaluation} (isEvaluation : memory.evaluation event = some evaluation) :
    (memory.cache.likeTable toLowercase evaluation).1 = evaluation.verdicts toLowercase := by
  unfold Memory.evaluation at isEvaluation
  split at isEvaluation
  next snapshot column pattern negated caseInsensitive =>
    obtain ⟨dict, isDict, rfl⟩ := Option.map_eq_some_iff.mp isEvaluation
    cases held : memory.cache with
    | none => rfl
    | some memo =>
        obtain ⟨key, verdicts⟩ := memo
        rw [LikeCache.likeTable, Memo.ask]
        split
        next isKey =>
          subst isKey
          obtain ⟨entries, length, rfl, extended⟩ := remembers _ _ held
          have same : entries = dict.entries :=
            (extended snapshot column dict isDict rfl).eq_of_length length
          rw [same]
          rfl
        next => rfl
  next => cases isEvaluation

omit [FloatNumber F] in
theorem remembered_of_held {key : LikeKey} {verdicts : List Bool}
    (held : memory.cache = some (key, verdicts)) : memory.remembered = some key.address := by
  rw [remembered, held]
  rfl

omit [FloatNumber F] in
/-- A snapshot that is set has its dictionaries, and the others keep theirs. -/
theorem dictionary_set (snapshot : Nat) (placed : Option (Placed F)) (other : Nat)
    (column : String) :
    (memory.set snapshot placed).dictionary other column =
      if other = snapshot then placed.bind fun placed => placed.dictionary column
      else memory.dictionary other column := by
  unfold dictionary set
  dsimp only
  split
  next same => rw [same, Function.update_self]
  next apart => rw [Function.update_of_ne apart]

omit [FloatNumber F] in
/-- After an event that leaves the cache alone, every dictionary at the remembered address is one
that stood there, and that may have grown. -/
theorem Remembers.of_grown {after : Memory F} (remembers : memory.Remembers toLowercase)
    (cache : after.cache = memory.cache)
    (grown : ∀ snapshot column dict', after.dictionary snapshot column = some dict' →
      memory.remembered = some dict'.address →
      ∃ dict, memory.dictionary snapshot column = some dict ∧ dict.address = dict'.address ∧
        dict.entries <+: dict'.entries) : after.Remembers toLowercase := by
  intro key verdicts held
  rw [cache] at held
  obtain ⟨entries, length, same, extended⟩ := remembers key verdicts held
  refine ⟨entries, length, same, fun snapshot column dict' found isAddress => ?_⟩
  obtain ⟨dict, before, stays, extension⟩ := grown snapshot column dict' found
    (by rw [remembered_of_held held, isAddress])
  exact (extended snapshot column dict before (stays.trans isAddress)).trans extension

omit [FloatNumber F] in
/-- The verdicts over a dictionary are remembered as its own. -/
theorem Remembers.evaluate (remembers : memory.Remembers toLowercase) (apart : memory.Apart)
    {snapshot : Nat} {column : String} {evaluation : Evaluation}
    (isDict : memory.dictionary snapshot column = some evaluation.dict) :
    ({ memory with cache := (memory.cache.likeTable toLowercase evaluation).2 } :
      Memory F).Remembers toLowercase := by
  have filled : ({ memory with cache := some (evaluation.request toLowercase) } :
      Memory F).Remembers toLowercase := by
    rintro key verdicts held
    cases held
    refine ⟨evaluation.dict.entries, rfl, rfl, fun other column' dict found isAddress => ?_⟩
    obtain ⟨rfl, rfl⟩ := apart _ _ _ _ _ _ found isDict isAddress
    cases isDict.symm.trans found
    exact List.prefix_rfl
  unfold LikeCache.likeTable Memo.ask
  split
  next known verdicts held =>
    split
    · exact remembers
    · exact filled
  next => exact filled

/-- An event that spares the remembered address keeps what is remembered right. -/
theorem Remembers.step (remembers : memory.Remembers toLowercase) (apart : memory.Apart)
    {event : Event F Nested} (spares : memory.Spares event) :
    (memory.step toLowercase event).Remembers toLowercase := by
  cases event with
  | build snapshot columns records address =>
      refine remembers.of_grown rfl fun other column dict' found isAddress => ?_
      change (memory.set snapshot _).dictionary other column = _ at found
      rw [dictionary_set] at found
      split at found
      next =>
        rw [Option.bind_some, Placed.dictionary] at found
        split at found
        next codes dict isText =>
          cases found
          exact absurd isAddress (spares column codes dict isText)
        next => cases found
      next => exact ⟨dict', found, rfl, List.prefix_rfl⟩
  | append snapshot records address =>
      change (match memory.snapshots snapshot with
        | none => memory
        | some placed => memory.set snapshot _).Remembers toLowercase
      split
      next => exact remembers
      next placed isPlaced =>
        refine remembers.of_grown rfl fun other column dict' found isAddress => ?_
        rw [dictionary_set] at found
        split at found
        next same =>
          subst same
          obtain ⟨grown, isGrown, found⟩ := Option.bind_eq_some_iff.mp found
          obtain ⟨table, appended, rfl⟩ := Option.map_eq_some_iff.mp isGrown
          obtain ⟨stands, dict, before, extended⟩ := dictionary_append appended found
          have isDict : memory.dictionary other column = some dict := by
            rw [dictionary, isPlaced]
            exact before
          rw [stands] at isAddress
          exact ⟨dict, isDict, (spares column dict isDict isAddress).trans stands.symm, extended⟩
        next => exact ⟨dict', found, rfl, List.prefix_rfl⟩
  | drop snapshot =>
      refine remembers.of_grown rfl fun other column dict' found isAddress => ?_
      change (memory.set snapshot none).dictionary other column = _ at found
      rw [dictionary_set] at found
      split at found
      next => cases found
      next => exact ⟨dict', found, rfl, List.prefix_rfl⟩
  | like snapshot column pattern negated caseInsensitive =>
      unfold Memory.step
      dsimp only
      split
      next => exact remembers
      next evaluation isEvaluation =>
        obtain ⟨dict, isDict, rfl⟩ := Option.map_eq_some_iff.mp isEvaluation
        exact remembers.evaluate apart isDict

/-- Nothing is in memory, and nothing is remembered. -/
def empty : Memory F := ⟨fun _ => none, none⟩

/-- An address that is given to a dictionary is not used by another one, and is not the remembered
one. -/
def Careful (toLowercase : Text → Text) (memory : Memory F) (event : Event F Nested) : Prop :=
  (memory.step toLowercase event).Apart ∧ memory.Spares event

theorem right_of_careful {memory : Memory F} {events : List (Event F Nested)}
    (apart : memory.Apart) (remembers : memory.Remembers toLowercase)
    (careful : AllMeet (step toLowercase) (Careful toLowercase) memory events) :
    memory.Right toLowercase events := by
  induction events generalizing memory with
  | nil => rfl
  | cons event events ih =>
      obtain ⟨⟨apartNext, spares⟩, later⟩ := careful
      have rest := ih apartNext (remembers.step apart spares) later
      rw [Right] at rest ⊢
      rw [answers, evaluations, rest, List.map_append]
      congr 1
      cases isEvaluation : memory.evaluation event with
      | none => rfl
      | some evaluation =>
          rw [Option.map_some, remembers.right isEvaluation]
          rfl

end Memory

/-- Every evaluation of a run is answered with the verdicts of LIKE over the entries that its
dictionary has then, if and only if evaluations that follow each other have the same verdicts
whenever address, length, pattern and flags are the same; and it is so if no dictionary is placed
where the one stood whose verdicts are remembered. -/
theorem likeTable_right (toLowercase : Text → Text) (events : List (Event F Nested)) :
    (Memory.empty.Right toLowercase events ↔
      (Memory.empty.evaluations toLowercase events).IsChain (Memory.SameVerdicts toLowercase)) ∧
    (AllMeet (Memory.step toLowercase) (Memory.Careful toLowercase) Memory.empty events →
      Memory.empty.Right toLowercase events) := by
  refine ⟨Memory.right_iff toLowercase rfl events, Memory.right_of_careful ?_ ?_⟩
  · intro snapshot column dict _ _ _ found
    cases found
  · intro key verdicts held
    cases held

/-! ## An address that is given again -/

/-- A snapshot of one row with a text. -/
def urlTable (text : String) : Event Int Empty :=
  .build 0 ["url"] [(∅ : Fields Int Empty).insert "url" (.string text)] fun _ => 1

/-- A table is dropped and built again with another text, and its dictionary gets the address that
has become free. -/
def staleRun : List (Event Int Empty) :=
  [urlTable "a", .like 0 "url" "a" false false, .drop 0, urlTable "b",
    .like 0 "url" "a" false false]

theorem cols_urlTable (text column : String) :
    (TableColumns.build ["url"]
      [(∅ : Fields Int Empty).insert "url" (.string text)]).cols[column]? =
      if column = "url" then some (Col.text [0] [text]) else none := by
  have cells : recordCell "url" ((∅ : Fields Int Empty).insert "url" (.string text)) = .s text := by
    simp [recordCell]
  have col : colOf [Cell.s text] = (Col.text [0] [text] : Col Int) := by
    simp [colOf, TextState.encode, TextState.push, Cell.isInt, Cell.isFloat, Cell.isText,
      Cell.isOther]
  rw [TableColumns.build, TableColumns.refreshZones, List.foldl_cons, List.foldl_nil,
    List.map_singleton, cells, col]
  simp [Std.ExtTreeMap.getElem?_insert]
  simp only [eq_comm]

theorem dictionary_urlTable {memory : Memory Int} {text column : String} {snapshot : Nat} :
    (memory.step id (urlTable text)).dictionary snapshot column =
      if snapshot = 0 then if column = "url" then some ⟨1, [text]⟩ else none
      else memory.dictionary snapshot column := by
  change (memory.set 0 _).dictionary snapshot column = _
  rw [Memory.dictionary_set]
  refine if_congr Iff.rfl ?_ rfl
  rw [Option.bind_some, Placed.dictionary, cols_urlTable]
  split_ifs <;> rfl

theorem likeTable_right_urlTable :
    Memory.empty.Right id [urlTable "a", .like 0 "url" "a" false false] := by
  refine (likeTable_right id _).1.mpr ?_
  have build : ∀ memory : Memory Int, memory.evaluation (urlTable "a") = none := fun _ => rfl
  simp only [Memory.evaluations, build, Option.toList_none, List.nil_append, List.append_nil]
  simp only [Memory.evaluation, dictionary_urlTable]
  exact List.isChain_singleton _

theorem evaluations_staleRun : (Memory.empty.evaluations id staleRun) =
    [⟨⟨1, ["a"]⟩, "a", false, false⟩, ⟨⟨1, ["b"]⟩, "a", false, false⟩] := by
  have build : ∀ (memory : Memory Int) text, memory.evaluation (urlTable text) = none :=
    fun _ _ => rfl
  have drop : ∀ memory : Memory Int, memory.evaluation (.drop 0 : Event Int Empty) = none :=
    fun _ => rfl
  simp only [staleRun, Memory.evaluations, build, drop, Option.toList_none, List.nil_append]
  simp only [Memory.evaluation, dictionary_urlTable]
  rfl

/-- All dictionaries in memory are that of the one column of the one snapshot. -/
def Single (memory : Memory Int) : Prop :=
  ∀ snapshot column dict, memory.dictionary snapshot column = some dict →
    snapshot = 0 ∧ column = "url"

theorem Single.apart {memory : Memory Int} (single : Single memory) : memory.Apart := by
  intro snapshot column dict snapshot' column' dict' found found' _
  obtain ⟨rfl, rfl⟩ := single _ _ _ found
  obtain ⟨rfl, rfl⟩ := single _ _ _ found'
  exact ⟨rfl, rfl⟩

theorem Single.step {memory : Memory Int} (single : Single memory) {event : Event Int Empty}
    (member : event ∈ staleRun) : Single (memory.step id event) := by
  have build : ∀ text, Single (memory.step id (urlTable text)) := by
    intro text snapshot column dict found
    rw [dictionary_urlTable] at found
    split_ifs at found with isSnapshot isColumn
    · exact ⟨isSnapshot, isColumn⟩
    · exact single _ _ _ found
  have like : Single (memory.step id (.like 0 "url" "a" false false : Event Int Empty)) := by
    unfold Memory.step
    dsimp only
    split
    · exact single
    · exact single
  have drop : Single (memory.step id (.drop 0 : Event Int Empty)) := by
    intro snapshot column dict found
    change (memory.set 0 none).dictionary snapshot column = _ at found
    rw [Memory.dictionary_set] at found
    split_ifs at found
    · cases found
    · exact single _ _ _ found
  simp only [staleRun, List.mem_cons, List.not_mem_nil, or_false] at member
  rcases member with rfl | rfl | rfl | rfl | rfl
  · exact build "a"
  · exact like
  · exact drop
  · exact build "b"
  · exact like

theorem Single.allMeet {memory : Memory Int} (single : Single memory)
    {events : List (Event Int Empty)} (part : ∀ event ∈ events, event ∈ staleRun) :
    AllMeet (Memory.step id) (fun memory event => (memory.step id event).Apart) memory events := by
  induction events generalizing memory with
  | nil => trivial
  | cons event events ih =>
      obtain ⟨here, rest⟩ := List.forall_mem_cons.mp part
      exact ⟨(single.step here).apart, ih (single.step here) rest⟩

/-- Every address that is given is free, and yet the second evaluation is answered with the verdicts
over the dictionary that is no longer there. -/
theorem not_right_staleRun :
    AllMeet (Memory.step id) (fun memory event => (memory.step id event).Apart) Memory.empty
      staleRun ∧ ¬ Memory.empty.Right id staleRun := by
  constructor
  · have start : Single Memory.empty := fun _ _ _ found => nomatch found
    exact start.allMeet fun _ member => member
  · rw [Memory.right_iff id rfl, evaluations_staleRun, List.isChain_cons_cons]
    rintro ⟨same, -⟩
    have verdicts := same rfl
    revert verdicts
    decide +kernel

end JouleDB.ColumnarExec
