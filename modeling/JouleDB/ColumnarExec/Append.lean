import JouleDB.ColumnarExec.TableColumns

/-!
# Appending to a column

A column that is appended to is the column of all cells.  Flags, values and codes are added cell by
cell, and cells that would change the type of the column do not fit.
-/

namespace JouleDB.ColumnarExec

variable {F : Type} [FloatNumber F]

def Cell.isNull : Cell F → Bool
  | .null => true
  | _ => false

/-! ## Flags -/

theorem keepFlags_of_any {nulls : List Bool} (isSet : nulls.any id = true) :
    keepFlags nulls = nulls := if_pos isSet

theorem keepFlags_of_not_any {nulls : List Bool} (isUnset : nulls.any id = false) :
    keepFlags nulls = [] := if_neg (by rw [isUnset]; exact Bool.false_ne_true)

theorem eq_replicate_of_not_any {nulls : List Bool} (isUnset : nulls.any id = false) :
    nulls = List.replicate nulls.length false := by
  refine List.eq_replicate_iff.mpr ⟨rfl, fun flag member => ?_⟩
  rw [List.any_eq_false] at isUnset
  exact Bool.eq_false_iff.mpr (isUnset flag member)

theorem keepFlags_isEmpty (nulls : List Bool) : (keepFlags nulls).isEmpty = !nulls.any id := by
  cases isSet : nulls.any id with
  | false =>
      rw [keepFlags_of_not_any isSet]
      rfl
  | true =>
      rw [keepFlags_of_any isSet]
      cases nulls with
      | nil => cases isSet
      | cons => rfl

theorem keepFlags_null (nulls : List Bool) :
    (if (keepFlags nulls).isEmpty then List.replicate nulls.length false else keepFlags nulls) ++
      [true] = keepFlags (nulls ++ [true]) := by
  rw [@keepFlags_of_any (nulls ++ [true]) (by simp), keepFlags_isEmpty]
  cases isSet : nulls.any id with
  | false =>
      conv_rhs => rw [eq_replicate_of_not_any isSet]
      rfl
  | true =>
      rw [keepFlags_of_any isSet]
      rfl

/-- A value needs no flag before the first null. -/
theorem keepFlags_value (nulls : List Bool) :
    (if (keepFlags nulls).isEmpty then keepFlags nulls else keepFlags nulls ++ [false]) =
      keepFlags (nulls ++ [false]) := by
  rw [keepFlags_isEmpty]
  cases isSet : nulls.any id with
  | false =>
      rw [keepFlags_of_not_any isSet, @keepFlags_of_not_any (nulls ++ [false])]
      · rfl
      · rw [List.any_append, isSet]
        rfl
  | true =>
      rw [keepFlags_of_any isSet, @keepFlags_of_any (nulls ++ [false])]
      · rfl
      · rw [List.any_append, isSet]
        rfl

theorem nl_keepFlags (nulls : List Bool) (row : Nat) :
    nl (keepFlags nulls) row = nulls.getD row false := by
  cases isSet : nulls.any id with
  | false =>
      rw [keepFlags_of_not_any isSet, eq_replicate_of_not_any isSet, nl]
      rw [List.getD_eq_getElem?_getD, List.getD_eq_getElem?_getD, List.getElem?_replicate]
      split
      · rfl
      · rfl
  | true => rw [keepFlags_of_any isSet, nl]

/-! ## Values -/

omit [FloatNumber F] in
/-- Values that fit are added with their flags. -/
theorem appendValues_eq_some {α : Type} {read : Cell F → Option α} {zero : α}
    (nullUnread : read .null = none) {values : List α} {flags : List Bool} {cells : List (Cell F)}
    {grown : List α × List Bool}
    (fits : appendValues read zero values (keepFlags flags) flags.length cells = some grown) :
    (∀ cell ∈ cells, cell.isNull = true ∨ (read cell).isSome = true) ∧
      grown = (values ++ cells.map fun cell => (read cell).getD zero,
        keepFlags (flags ++ cells.map Cell.isNull)) := by
  induction cells generalizing values flags with
  | nil =>
      cases fits
      exact ⟨fun _ none => (List.not_mem_nil none).elim, by simp⟩
  | cons cell cells ih =>
      have length : ∀ flag : Bool, flags.length + 1 = (flags ++ [flag]).length := fun _ => by simp
      by_cases isNull : cell = .null
      · subst isNull
        rw [appendValues, keepFlags_null, length true] at fits
        obtain ⟨fit, rfl⟩ := ih fits
        refine ⟨List.forall_mem_cons.mpr ⟨.inl rfl, fit⟩, ?_⟩
        simp [nullUnread, Cell.isNull]
      · have notNull : cell.isNull = false := by
          cases cell <;> first | rfl | exact absurd rfl isNull
        cases isValue : read cell with
        | none =>
            have unfit : appendValues read zero values (keepFlags flags) flags.length (cell :: cells) =
                none := by
              cases cell <;> first | exact absurd rfl isNull | simp [appendValues, isValue]
            rw [unfit] at fits
            cases fits
        | some value =>
            have step : appendValues read zero values (keepFlags flags) flags.length (cell :: cells) =
                appendValues read zero (values ++ [value]) (keepFlags (flags ++ [false]))
                  (flags ++ [false]).length cells := by
              rw [← keepFlags_value, ← length false]
              cases cell <;> first | exact absurd rfl isNull | simp [appendValues, isValue]
            rw [step] at fits
            obtain ⟨fit, rfl⟩ := ih fits
            refine ⟨List.forall_mem_cons.mpr ⟨.inr (by rw [isValue]; rfl), fit⟩, ?_⟩
            simp [isValue, notNull]

/-! ## Texts -/

theorem indexOf_concat (dict : List String) (value : String) :
    indexOf (dict ++ [value]) = (indexOf dict).insert value (dict.length % 2 ^ 32) := by
  rw [indexOf, List.zipIdx_append, List.foldl_append]
  simp [indexOf]

/-- The index is the one of the dictionary. -/
def TextState.Indexed (state : TextState) : Prop := state.index = indexOf state.dict

theorem TextState.Indexed.push {state : TextState} (indexed : state.Indexed) (value : String) :
    (state.push value).Indexed := by
  unfold TextState.push
  split
  next => exact indexed
  next =>
    unfold TextState.Indexed
    dsimp only
    rw [indexOf_concat, indexed]

omit [FloatNumber F] in
theorem TextState.Indexed.foldl {state : TextState} (indexed : state.Indexed)
    (cells : List (Cell F)) : (cells.foldl TextState.encode state).Indexed := by
  induction cells generalizing state with
  | nil => exact indexed
  | cons cell cells ih =>
      refine ih ?_
      cases cell with
      | s value => exact indexed.push value
      | null | i value | f value | b => exact indexed

omit [FloatNumber F] in
/-- Texts that fit are encoded one after the other. -/
theorem appendTexts_eq_some {state grown : TextState} {cells : List (Cell F)}
    (fits : appendTexts state cells = some grown) :
    (∀ cell ∈ cells, cell.isNull = true ∨ cell.isText = true) ∧
      grown = cells.foldl TextState.encode state := by
  induction cells generalizing state with
  | nil =>
      cases fits
      exact ⟨fun _ none => (List.not_mem_nil none).elim, rfl⟩
  | cons cell cells ih =>
      cases cell with
      | null =>
          obtain ⟨fit, rfl⟩ := ih fits
          exact ⟨List.forall_mem_cons.mpr ⟨.inl rfl, fit⟩, rfl⟩
      | s value =>
          obtain ⟨fit, rfl⟩ := ih fits
          exact ⟨List.forall_mem_cons.mpr ⟨.inr rfl, fit⟩, rfl⟩
      | i value | f value | b => cases fits

/-! ## Types of columns -/

section

variable {cells : List (Cell F)}

omit [FloatNumber F] in
theorem countP_eq_zero_of {p q : Cell F → Bool} (all : ∀ cell ∈ cells, p cell = true)
    (apart : ∀ cell, p cell = true → q cell = false) : cells.countP q = 0 :=
  List.countP_eq_zero.mpr fun cell member => Bool.eq_false_iff.mp (apart cell (all cell member))

/-- What fits a column of integers. -/
def Cell.fitsInt (cell : Cell F) : Bool := cell.isNull || cell.isInt

/-- What fits a column of floating-point numbers. -/
def Cell.fitsFloat (cell : Cell F) : Bool := cell.isNull || cell.isInt || cell.isFloat

/-- What fits a column of texts. -/
def Cell.fitsText (cell : Cell F) : Bool := cell.isNull || cell.isText

attribute [simp] Cell.isNull Cell.isInt Cell.isFloat Cell.isText Cell.isOther Cell.fitsInt
  Cell.fitsFloat Cell.fitsText

omit [FloatNumber F] in
theorem any_isOther_eq_false {p : Cell F → Bool} (all : ∀ cell ∈ cells, p cell = true)
    (apart : ∀ cell, p cell = true → Cell.isOther cell = false) : cells.any Cell.isOther = false :=
  List.any_eq_false.mpr fun cell member => Bool.eq_false_iff.mp (apart cell (all cell member))

theorem colOf_of_fitsInt (all : ∀ cell ∈ cells, cell.fitsInt = true) :
    colOf cells = .int (cells.map intValue) (keepFlags (cells.map Cell.isNull)) := by
  have texts : cells.countP Cell.isText = 0 :=
    countP_eq_zero_of all (by rintro ⟨⟩ <;> simp)
  have floats : cells.countP Cell.isFloat = 0 :=
    countP_eq_zero_of all (by rintro ⟨⟩ <;> simp)
  have other : cells.any Cell.isOther = false :=
    any_isOther_eq_false all (by rintro ⟨⟩ <;> simp)
  have flags : (cells.map fun cell => !cell.isInt) = cells.map Cell.isNull :=
    List.map_congr_left fun cell member => by
      have fits := all cell member
      cases cell <;> first | rfl | cases fits
  simp only [colOf, texts, floats, other, flags]
  rfl

theorem colOf_of_fitsFloat (all : ∀ cell ∈ cells, cell.fitsFloat = true)
    (some : ∃ cell ∈ cells, cell.isFloat = true) :
    colOf cells = .float (cells.map floatValue) (keepFlags (cells.map Cell.isNull)) := by
  have texts : cells.countP Cell.isText = 0 :=
    countP_eq_zero_of all (by rintro ⟨⟩ <;> simp)
  have floats : 0 < cells.countP Cell.isFloat := List.countP_pos_iff.mpr some
  have other : cells.any Cell.isOther = false :=
    any_isOther_eq_false all (by rintro ⟨⟩ <;> simp)
  have flags : (cells.map fun cell => !(cell.isFloat || cell.isInt)) = cells.map Cell.isNull :=
    List.map_congr_left fun cell member => by
      have fits := all cell member
      cases cell <;> first | rfl | cases fits
  simp only [colOf, texts, other, flags, if_pos floats]
  rfl

theorem colOf_of_fitsText (all : ∀ cell ∈ cells, cell.fitsText = true)
    (some : ∃ cell ∈ cells, cell.isText = true) :
    colOf cells = .text (cells.foldl TextState.encode ⟨[], [], ∅⟩).codes
      (cells.foldl TextState.encode ⟨[], [], ∅⟩).dict := by
  have texts : 0 < cells.countP Cell.isText := List.countP_pos_iff.mpr some
  have ints : cells.countP Cell.isInt = 0 :=
    countP_eq_zero_of all (by rintro ⟨⟩ <;> simp)
  have floats : cells.countP Cell.isFloat = 0 :=
    countP_eq_zero_of all (by rintro ⟨⟩ <;> simp)
  have other : cells.any Cell.isOther = false :=
    any_isOther_eq_false all (by rintro ⟨⟩ <;> simp)
  simp only [colOf, ints, floats, other, if_pos texts]
  rw [if_neg]
  simp

/-- The cells belong to no type. -/
def Mixed (cells : List (Cell F)) : Prop :=
  (∃ cell ∈ cells, cell.isOther = true) ∨
    (∃ cell ∈ cells, cell.isText = true) ∧
      ∃ cell ∈ cells, cell.isInt = true ∨ cell.isFloat = true

theorem colOf_of_mixed (mixed : Mixed cells) : colOf cells = .other := by
  unfold colOf
  dsimp only
  rw [if_pos]
  rw [Bool.or_eq_true, Bool.and_eq_true, decide_eq_true_eq, decide_eq_true_eq]
  rcases mixed with other | ⟨text, cell, member, isNumber⟩
  · exact .inl (List.any_eq_true.mpr other)
  · refine .inr ⟨List.countP_pos_iff.mpr text, ?_⟩
    rcases isNumber with isInt | isFloat
    · exact Nat.add_pos_left (List.countP_pos_iff.mpr ⟨cell, member, isInt⟩) _
    · exact Nat.add_pos_right _ (List.countP_pos_iff.mpr ⟨cell, member, isFloat⟩)

omit [FloatNumber F] in
/-- A cell that is of no other kind is null, a number or a text. -/
theorem kinds {cell : Cell F} (plain : cell.isOther ≠ true) : cell.isNull = true ∨
    cell.isInt = true ∨ cell.isFloat = true ∨ cell.isText = true := by
  cases cell <;> simp at plain ⊢

omit [FloatNumber F] in
theorem fits_cases (cells : List (Cell F)) :
    (∀ cell ∈ cells, cell.fitsInt = true) ∨
      ((∀ cell ∈ cells, cell.fitsFloat = true) ∧ ∃ cell ∈ cells, cell.isFloat = true) ∨
      ((∀ cell ∈ cells, cell.fitsText = true) ∧ ∃ cell ∈ cells, cell.isText = true) ∨
      Mixed cells := by
  by_cases mixed : Mixed cells
  · exact .inr (.inr (.inr mixed))
  · obtain ⟨noOther, noBoth⟩ := not_or.mp mixed
    have kind : ∀ cell ∈ cells, cell.isNull = true ∨ cell.isInt = true ∨ cell.isFloat = true ∨
        cell.isText = true := fun cell member =>
      kinds fun isOther => noOther ⟨cell, member, isOther⟩
    by_cases text : ∃ cell ∈ cells, cell.isText = true
    · refine .inr (.inr (.inl ⟨fun cell member => ?_, text⟩))
      have notNumber : ¬ (cell.isInt = true ∨ cell.isFloat = true) := fun isNumber =>
        noBoth ⟨text, cell, member, isNumber⟩
      rw [Cell.fitsText, Bool.or_eq_true]
      have plain := kind cell member
      tauto
    · have notText : ∀ cell ∈ cells, cell.isText ≠ true := fun cell member isText =>
        text ⟨cell, member, isText⟩
      by_cases float : ∃ cell ∈ cells, cell.isFloat = true
      · refine .inr (.inl ⟨fun cell member => ?_, float⟩)
        rw [Cell.fitsFloat, Bool.or_eq_true, Bool.or_eq_true]
        have plain := kind cell member
        have noText := notText cell member
        tauto
      · refine .inl fun cell member => ?_
        have noFloat : cell.isFloat ≠ true := fun isFloat => float ⟨cell, member, isFloat⟩
        rw [Cell.fitsInt, Bool.or_eq_true]
        have plain := kind cell member
        have noText := notText cell member
        tauto

end

/-! ## Appending -/

section

variable {front cells : List (Cell F)}

theorem floatValue_eq (cell : Cell F) : (readFloat cell).getD FloatNumber.zero = floatValue cell := by
  cases cell <;> rfl

omit [FloatNumber F] in
theorem intValue_eq (cell : Cell F) : (readInt cell).getD 0 = intValue cell := by
  cases cell <;> rfl

variable {index : TextIndex} {col : Col F} {index' : Option TextIndex}

theorem appendCol_int (allInt : ∀ cell ∈ front, cell.fitsInt = true)
    (fits : appendCol (colOf front) index front.length cells = some (col, index')) :
    (∀ cell ∈ cells, cell.fitsInt = true) ∧ index' = none ∧
      col = .int (front.map intValue ++ cells.map intValue)
        (keepFlags (front.map Cell.isNull ++ cells.map Cell.isNull)) := by
  rw [colOf_of_fitsInt allInt, appendCol, ← List.length_map Cell.isNull] at fits
  obtain ⟨grown, isGrown, same⟩ := Option.map_eq_some_iff.mp fits
  obtain ⟨fit, rfl⟩ := appendValues_eq_some rfl isGrown
  cases same
  refine ⟨fun cell member => ?_, rfl, by simp only [intValue_eq]⟩
  have fits := fit cell member
  cases cell <;> simp_all [readInt]

theorem appendCol_float (allFloat : ∀ cell ∈ front, cell.fitsFloat = true)
    (float : ∃ cell ∈ front, cell.isFloat = true)
    (fits : appendCol (colOf front) index front.length cells = some (col, index')) :
    (∀ cell ∈ cells, cell.fitsFloat = true) ∧ index' = none ∧
      col = .float (front.map floatValue ++ cells.map floatValue)
        (keepFlags (front.map Cell.isNull ++ cells.map Cell.isNull)) := by
  rw [colOf_of_fitsFloat allFloat float, appendCol, ← List.length_map Cell.isNull] at fits
  obtain ⟨grown, isGrown, same⟩ := Option.map_eq_some_iff.mp fits
  obtain ⟨fit, rfl⟩ := appendValues_eq_some rfl isGrown
  cases same
  refine ⟨fun cell member => ?_, rfl, by simp only [floatValue_eq]⟩
  have fits := fit cell member
  cases cell <;> simp_all [readFloat]

theorem appendCol_text (allText : ∀ cell ∈ front, cell.fitsText = true)
    (text : ∃ cell ∈ front, cell.isText = true)
    (isIndex : ∀ codes dict, colOf front = .text codes dict → index = indexOf dict)
    (fits : appendCol (colOf front) index front.length cells = some (col, index')) :
    (∀ cell ∈ cells, cell.fitsText = true) ∧
      ∃ grown : TextState, grown = (front ++ cells).foldl TextState.encode ⟨[], [], ∅⟩ ∧
        index' = some (indexOf grown.dict) ∧ col = .text grown.codes grown.dict := by
  have known := isIndex _ _ (colOf_of_fitsText allText text)
  rw [colOf_of_fitsText allText text, appendCol, known] at fits
  obtain ⟨grown, isGrown, same⟩ := Option.map_eq_some_iff.mp fits
  have start : TextState.Indexed ⟨[], [], ∅⟩ := rfl
  have before := start.foldl front
  rw [← before] at isGrown
  obtain ⟨fit, rfl⟩ := appendTexts_eq_some isGrown
  cases same
  refine ⟨fun cell member => ?_, _, rfl, ?_, ?_⟩
  · have fits := fit cell member
    cases cell <;> simp_all
  · rw [List.foldl_append]
    exact congrArg some (before.foldl cells)
  · rw [List.foldl_append]

/-- A column that is appended to is the column of all cells, and its index remains the one of its
dictionary. -/
theorem appendCol_colOf
    (isIndex : ∀ codes dict, colOf front = .text codes dict → index = indexOf dict)
    (fits : appendCol (colOf front) index front.length cells = some (col, index')) :
    col = colOf (front ++ cells) ∧
      ∀ known ∈ index', ∀ codes dict, col = .text codes dict → known = indexOf dict := by
  rcases fits_cases front with allInt | ⟨allFloat, float⟩ | ⟨allText, text⟩ | mixed
  · obtain ⟨fit, rfl, rfl⟩ := appendCol_int allInt fits
    refine ⟨?_, fun known none => by cases none⟩
    rw [colOf_of_fitsInt (List.forall_mem_append.mpr ⟨allInt, fit⟩), List.map_append,
      List.map_append]
  · obtain ⟨fit, rfl, rfl⟩ := appendCol_float allFloat float fits
    refine ⟨?_, fun known none => by cases none⟩
    rw [colOf_of_fitsFloat (List.forall_mem_append.mpr ⟨allFloat, fit⟩), List.map_append,
      List.map_append]
    obtain ⟨cell, member, isFloat⟩ := float
    exact ⟨cell, List.mem_append_left _ member, isFloat⟩
  · obtain ⟨fit, grown, isGrown, rfl, rfl⟩ := appendCol_text allText text isIndex fits
    constructor
    · rw [isGrown, colOf_of_fitsText (List.forall_mem_append.mpr ⟨allText, fit⟩)]
      obtain ⟨cell, member, isText⟩ := text
      exact ⟨cell, List.mem_append_left _ member, isText⟩
    · intro known isKnown codes dict isCol
      cases isKnown
      cases isCol
      rfl
  · rw [colOf_of_mixed mixed] at fits
    cases fits
    refine ⟨(colOf_of_mixed ?_).symm, fun known none => by cases none⟩
    refine mixed.imp (fun ⟨cell, member, isOther⟩ => ?_) fun ⟨⟨cell, member, isText⟩, number⟩ => ?_
    · exact ⟨cell, List.mem_append_left _ member, isOther⟩
    · obtain ⟨other, isMember, isNumber⟩ := number
      exact ⟨⟨cell, List.mem_append_left _ member, isText⟩, other,
        List.mem_append_left _ isMember, isNumber⟩

/-! ## Zones of what was there -/

omit [FloatNumber F] in
/-- The rows of a zone have the values and flags that they had. -/
theorem zone_append {α : Type} (values more : List α) (flags further : List Bool)
    (length : values.length = flags.length) {start stop : Nat} (inside : stop ≤ flags.length) :
    presentValues (values ++ more) (keepFlags (flags ++ further)) start stop =
        presentValues values (keepFlags flags) start stop ∧
      nullCount (keepFlags (flags ++ further)) start stop =
        nullCount (keepFlags flags) start stop := by
  have within : ∀ row ∈ List.range' start (stop - start), row < flags.length := by
    intro row member
    obtain ⟨above, below⟩ := List.mem_range'_1.mp member
    omega
  have flag : ∀ row < flags.length,
      nl (keepFlags (flags ++ further)) row = nl (keepFlags flags) row := by
    intro row below
    rw [nl_keepFlags, nl_keepFlags, List.getD_eq_getElem?_getD, List.getElem?_append_left below,
      List.getD_eq_getElem?_getD]
  constructor
  · refine List.filterMap_congr fun row member => ?_
    rw [flag row (within row member), List.getElem?_append_left (length ▸ within row member)]
  · refine congrArg List.length (List.filter_congr fun row member => ?_)
    rw [flag row (within row member)]

/-- A zone of rows that were there before is what it was. -/
theorem zoneOf_append {start stop : Nat} (inside : stop ≤ front.length)
    (isIndex : ∀ codes dict, colOf front = .text codes dict → index = indexOf dict)
    (fits : appendCol (colOf front) index front.length cells = some (col, index')) :
    zoneOf col start stop = zoneOf (colOf front) start stop := by
  have length : stop ≤ (front.map Cell.isNull).length := by rwa [List.length_map]
  rcases fits_cases front with allInt | ⟨allFloat, float⟩ | ⟨allText, text⟩ | mixed
  · obtain ⟨-, -, rfl⟩ := appendCol_int allInt fits
    obtain ⟨present, count⟩ := zone_append (front.map intValue) (cells.map intValue)
      (front.map Cell.isNull) (cells.map Cell.isNull) (by simp) length
    rw [colOf_of_fitsInt allInt, zoneOf, zoneOf, present, count]
  · obtain ⟨-, -, rfl⟩ := appendCol_float allFloat float fits
    obtain ⟨present, count⟩ := zone_append (front.map floatValue) (cells.map floatValue)
      (front.map Cell.isNull) (cells.map Cell.isNull) (by simp) length
    rw [colOf_of_fitsFloat allFloat float, zoneOf, zoneOf, present, count]
  · obtain ⟨-, grown, -, -, rfl⟩ := appendCol_text allText text isIndex fits
    rw [colOf_of_fitsText allText text]
    rfl
  · rw [colOf_of_mixed mixed] at fits ⊢
    cases fits
    rfl

/-- A column keeps its type. -/
def Col.isNumeric : Col F → Bool
  | .int _ _ | .float _ _ => true
  | .text _ _ | .other => false

theorem isNumeric_appendCol
    (fits : appendCol (colOf front) index front.length cells = some (col, index')) :
    col.isNumeric = (colOf front).isNumeric := by
  revert fits
  cases colOf front with
  | int values nulls | float values nulls | text codes dict =>
      intro fits
      obtain ⟨grown, -, same⟩ := Option.map_eq_some_iff.mp fits
      cases same
      rfl
  | other =>
      intro fits
      cases fits
      rfl

end

end JouleDB.ColumnarExec
