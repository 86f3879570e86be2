import JouleDB.Query.Datalog

/-!
# Answers to Datalog queries

What is reported for a query are the facts that have the constants of a positive literal.  They are
its answers exactly when each of them joins, that is, when unification with all literals accepts what
it binds.
-/

namespace JouleDB.Query.Datalog

variable {Number : Type} [DecidableEq Number]

/-! ## Unification -/

omit [DecidableEq Number] in
/-- One binding has the values of another. -/
def Within (binding other : Binding Number) : Prop :=
  ∀ (name : String) value, binding[name]? = some value → other[name]? = some value

omit [DecidableEq Number] in
theorem getElem?_insert (binding : Binding Number) (name other : String) (value : Value Number) :
    (binding.insert name value)[other]? = if name = other then some value else binding[other]? := by
  rw [Std.ExtTreeMap.getElem?_insert]
  by_cases same : name = other
  · rw [if_pos same, if_pos (Std.LawfulEqCmp.compare_eq_iff_eq.mpr same)]
  · rw [if_neg same, if_neg (mt Std.LawfulEqCmp.compare_eq_iff_eq.mp same)]

omit [DecidableEq Number] in
theorem within_empty (binding : Binding Number) : Within ∅ binding := by
  intro name value none
  rw [Std.ExtTreeMap.getElem?_empty] at none
  cases none

omit [DecidableEq Number] in
theorem Within.termIs {binding other : Binding Number} (within : Within binding other)
    {term : Term Number} {value : Value Number} (termIs : TermIs binding term value) :
    TermIs other term value := by
  cases term with
  | var name => exact within name value termIs
  | string text | integer number | float number | wildcard | aggregate function name => exact termIs

/-- A term that is unified has its value, and only a variable is bound. -/
theorem unifyTerm_sound {term : Term Number} {value : Value Number}
    {binding bound : Binding Number} (unified : unifyTerm term value binding = some bound) :
    Within binding bound ∧ TermIs bound term value ∧
      ∀ name ∈ bound, name ∈ binding ∨ term = .var name := by
  have same : binding = bound → Within binding bound ∧
      ∀ name ∈ bound, name ∈ binding ∨ term = .var name := by
    rintro rfl
    exact ⟨fun _ _ known => known, fun _ member => .inl member⟩
  cases term with
  | var name =>
      unfold unifyTerm at unified
      dsimp only at unified
      split at unified
      next existing isExisting =>
        split at unified
        next => cases unified
        next equal =>
          cases unified
          obtain ⟨within, names⟩ := same rfl
          exact ⟨within, (not_not.mp equal) ▸ isExisting, names⟩
      next unbound =>
        cases unified
        refine ⟨fun other known isKnown => ?_, ?_, fun other member => ?_⟩
        · rw [getElem?_insert, if_neg]
          · exact isKnown
          · rintro rfl
            cases unbound.symm.trans isKnown
        · exact (getElem?_insert _ _ _ _).trans (if_pos rfl)
        · rw [Std.ExtTreeMap.mem_insert] at member
          rcases member with here | before
          · exact .inr (congrArg Term.var (Std.LawfulEqCmp.compare_eq_iff_eq.mp here))
          · exact .inl before
  | string text | integer number | float number =>
      unfold unifyTerm at unified
      dsimp only at unified
      split at unified
      next => cases unified
      next equal =>
        obtain ⟨within, names⟩ := same (Option.some.inj unified)
        exact ⟨within, not_not.mp equal, names⟩
  | wildcard | aggregate function name =>
      obtain ⟨within, names⟩ := same (Option.some.inj unified)
      exact ⟨within, trivial, names⟩

/-- A term that has its value in a larger binding is unified within it. -/
theorem unifyTerm_complete {term : Term Number} {value : Value Number}
    {binding other : Binding Number} (within : Within binding other)
    (termIs : TermIs other term value) :
    ∃ bound, unifyTerm term value binding = some bound ∧ Within bound other := by
  cases term with
  | var name =>
      unfold unifyTerm
      dsimp only
      cases isExisting : binding[name]? with
      | some existing =>
          have equal : existing = value :=
            Option.some.inj ((within name existing isExisting).symm.trans termIs)
          dsimp only
          rw [if_neg (not_not.mpr equal)]
          exact ⟨binding, rfl, within⟩
      | none =>
          refine ⟨_, rfl, fun name' value' isValue => ?_⟩
          rw [getElem?_insert] at isValue
          split at isValue
          next same =>
            cases isValue
            exact same ▸ termIs
          next => exact within name' value' isValue
  | string text | integer number | float number =>
      exact ⟨binding, if_neg (not_not.mpr termIs), within⟩
  | wildcard | aggregate function name => exact ⟨binding, rfl, within⟩

theorem unifyTerms_sound {terms : List (Term Number)} {values : List (Value Number)}
    {binding bound : Binding Number} (unified : unifyTerms terms values binding = some bound) :
    Within binding bound ∧ (∀ pair ∈ terms.zip values, TermIs bound pair.1 pair.2) ∧
      ∀ name ∈ bound, name ∈ binding ∨ ∃ value, (.var name, value) ∈ terms.zip values := by
  induction terms generalizing values binding with
  | nil =>
      cases unified
      exact ⟨fun _ _ known => known, fun _ none => (List.not_mem_nil none).elim,
        fun _ member => .inl member⟩
  | cons term terms ih =>
      cases values with
      | nil =>
          cases unified
          exact ⟨fun _ _ known => known, fun _ none => (List.not_mem_nil none).elim,
            fun _ member => .inl member⟩
      | cons value values =>
          obtain ⟨next, isNext, others⟩ := Option.bind_eq_some_iff.mp unified
          obtain ⟨within, termIs, names⟩ := unifyTerm_sound isNext
          obtain ⟨within', termsAre, names'⟩ := ih others
          refine ⟨fun name known isKnown => within' name known (within name known isKnown), ?_,
            fun name member => ?_⟩
          · rw [List.zip_cons_cons]
            exact List.forall_mem_cons.mpr ⟨within'.termIs termIs, termsAre⟩
          · rw [List.zip_cons_cons]
            rcases names' name member with before | ⟨known, later⟩
            · rcases names name before with first | rfl
              · exact .inl first
              · exact .inr ⟨value, List.mem_cons_self⟩
            · exact .inr ⟨known, List.mem_cons_of_mem _ later⟩

theorem unifyTerms_complete {terms : List (Term Number)} {values : List (Value Number)}
    {binding other : Binding Number} (within : Within binding other)
    (termsAre : ∀ pair ∈ terms.zip values, TermIs other pair.1 pair.2) :
    ∃ bound, unifyTerms terms values binding = some bound ∧ Within bound other := by
  induction terms generalizing values binding with
  | nil => exact ⟨binding, rfl, within⟩
  | cons term terms ih =>
      cases values with
      | nil => exact ⟨binding, rfl, within⟩
      | cons value values =>
          rw [List.zip_cons_cons] at termsAre
          obtain ⟨here, later⟩ := List.forall_mem_cons.mp termsAre
          obtain ⟨next, isNext, within'⟩ := unifyTerm_complete within here
          obtain ⟨bound, isBound, within''⟩ := ih within' later
          exact ⟨bound, Option.bind_eq_some_iff.mpr ⟨next, isNext, isBound⟩, within''⟩

/-- Under a binding of all its variables, an atom is a fact exactly when it unifies with one. -/
theorem isFact_iff {db : Db Number} {binding : Binding Number} {atom : Atom Number}
    (bound : ∀ name ∈ variablesOf atom.terms, name ∈ binding) :
    IsFact db binding atom ↔
      ∃ fact ∈ db.facts atom.predicate, (tryUnify atom fact binding).isSome = true := by
  refine exists_congr fun row => and_congr_right fun _ => ?_
  unfold tryUnify
  constructor
  · rintro ⟨length, termsAre⟩
    obtain ⟨known, unified, -⟩ := unifyTerms_complete (fun _ _ known => known) termsAre
    rw [if_neg (not_not.mpr length), unified]
    rfl
  · intro unifies
    split at unifies
    next => cases unifies
    next length =>
      obtain ⟨known, unified⟩ := Option.isSome_iff_exists.mp unifies
      obtain ⟨within, termsAre, -⟩ := unifyTerms_sound unified
      refine ⟨not_not.mp length, fun pair member => ?_⟩
      obtain ⟨term, value⟩ := pair
      have termIs := termsAre _ member
      cases term with
      | var name =>
          have isVariable : name ∈ variablesOf atom.terms :=
            List.mem_filterMap.mpr ⟨_, (List.of_mem_zip member).1, rfl⟩
          obtain ⟨existing, isExisting⟩ :=
            Option.isSome_iff_exists.mp (Std.ExtTreeMap.mem_iff_isSome_getElem?.mp (bound name isVariable))
          have same := (within name existing isExisting).symm.trans termIs
          exact isExisting.trans same
      | string text | integer number | float number | wildcard | aggregate function name =>
          exact termIs

/-! ## Reported rows -/

theorem foldl_answerLiteral (db : Db Number) (goal : List (Literal Number))
    (reported : Reported Number) :
    goal.foldl (answerLiteral db) reported =
      ⟨(positives goal).getLast?.elim reported.columns columnsOf,
        reported.rows ++ (positives goal).flatMap fun atom =>
          (db.facts atom.predicate).filter (rowFits atom.terms)⟩ := by
  induction goal generalizing reported with
  | nil =>
      rw [List.foldl_nil, positives, List.filterMap_nil, List.flatMap_nil, List.append_nil]
      rfl
  | cons literal goal ih =>
      rw [List.foldl_cons, ih]
      cases literal with
      | negated atom | comparison left op right | aggregate function name => rfl
      | positive atom =>
          have first : positives (.positive atom :: goal) = atom :: positives goal := rfl
          rw [first, List.getLast?_cons, List.flatMap_cons]
          unfold answerLiteral
          dsimp only
          rw [List.append_assoc]
          cases (positives goal).getLast? <;> rfl

theorem answerQueries_eq (db : Db Number) (goal : List (Literal Number)) :
    answerQueries db [goal] = ⟨(positives goal).getLast?.elim [] columnsOf,
      (positives goal).flatMap fun atom =>
        (db.facts atom.predicate).filter (rowFits atom.terms)⟩ := by
  rw [answerQueries, List.foldl_cons, List.foldl_nil, foldl_answerLiteral, List.nil_append]

/-- The constants of an atom that is a fact fit. -/
theorem rowFits_of_termsAre {binding : Binding Number} {terms : List (Term Number)}
    {row : List (Value Number)} (length : terms.length = row.length)
    (termsAre : ∀ pair ∈ terms.zip row, TermIs binding pair.1 pair.2) :
    rowFits terms row = true := by
  induction terms generalizing row with
  | nil => rfl
  | cons term terms ih =>
      cases row with
      | nil => cases length
      | cons value row =>
          obtain ⟨here, later⟩ := List.forall_mem_cons.mp termsAre
          rw [rowFits, ih (Nat.succ.inj length) later, Bool.and_true]
          cases term with
          | string text | integer number => exact decide_eq_true here
          | var name | float number | wildcard | aggregate function name => rfl

/-! ## Columns -/

/-- A name that is no placeholder of a column. -/
def Plain (name : String) : Prop := name.toList.head? ≠ some '_'

instance : DecidablePred Plain := fun name =>
  inferInstanceAs (Decidable (name.toList.head? ≠ some '_'))

theorem mem_zip_iff {α β : Type} {items : List α} {others : List β} {item : α} {other : β} :
    (item, other) ∈ items.zip others ↔
      ∃ place : Nat, items[place]? = some item ∧ others[place]? = some other := by
  rw [List.mem_iff_getElem?]
  refine exists_congr fun place => ?_
  rw [List.getElem?_zip_eq_some]

omit [DecidableEq Number] in
/-- The columns with the name of a variable are those of the variable. -/
theorem mem_columns_iff {atom : Atom Number} {row : List (Value Number)} {name : String}
    {value : Value Number} (plain : Plain name) :
    (name, value) ∈ (columnsOf atom).zip row ↔ (.var name, value) ∈ atom.terms.zip row := by
  rw [mem_zip_iff, mem_zip_iff]
  refine exists_congr fun place => and_congr_left fun _ => ?_
  rw [columnsOf, List.getElem?_mapIdx]
  cases isTerm : atom.terms[place]? with
  | none => simp
  | some term =>
      have placeholder : "_" ++ toString place ≠ name := by
        rintro rfl
        exact plain (by simp)
      cases term with
      | var other => simp
      | string text | integer number | float number | wildcard | aggregate function other =>
          simpa using placeholder

omit [DecidableEq Number] in
theorem mem_onlyVariables_iff {terms : List (Term Number)} {row : List (Value Number)}
    {name : String} {value : Value Number} :
    (.var name, value) ∈ (onlyVariables terms).zip row ↔ (.var name, value) ∈ terms.zip row := by
  rw [mem_zip_iff, mem_zip_iff]
  refine exists_congr fun place => and_congr_left fun _ => ?_
  rw [onlyVariables, List.getElem?_map]
  cases isTerm : terms[place]? with
  | none => simp
  | some term => cases term <;> simp

/-! ## Answers -/

section

variable {db : Db Number} {goal : List (Literal Number)} {last : Atom Number}

omit [DecidableEq Number] in
theorem mem_goalVariables {atom : Atom Number} (isLiteral : atom ∈ positives goal ++ negatives goal)
    {name : String} (member : name ∈ variablesOf atom.terms) : name ∈ goalVariables goal :=
  List.mem_flatMap.mpr ⟨atom, isLiteral, member⟩

omit [DecidableEq Number] in
theorem mem_variablesOf {terms : List (Term Number)} {row : List (Value Number)} {name : String}
    {value : Value Number} (member : (.var name, value) ∈ terms.zip row) :
    name ∈ variablesOf terms :=
  List.mem_filterMap.mpr ⟨_, (List.of_mem_zip member).1, rfl⟩

/-- Under a binding of all variables of a query, its literals hold as unification says. -/
theorem literals_iff {binding : Binding Number} (bound : ∀ name ∈ goalVariables goal, name ∈ binding) :
    ((∀ atom ∈ positives goal, IsFact db binding atom) ∧
        ∀ atom ∈ negatives goal, ¬ IsFact db binding atom) ↔
      (∀ atom ∈ positives goal, ∃ fact ∈ db.facts atom.predicate,
        (tryUnify atom fact binding).isSome = true) ∧
      ∀ atom ∈ negatives goal, ∀ fact ∈ db.facts atom.predicate,
        tryUnify atom fact binding = none := by
  refine and_congr (forall₂_congr fun atom member => ?_) (forall₂_congr fun atom member => ?_)
  · exact isFact_iff fun name isVariable =>
      bound name (mem_goalVariables (List.mem_append_left _ member) isVariable)
  · rw [isFact_iff fun name isVariable =>
      bound name (mem_goalVariables (List.mem_append_right _ member) isVariable)]
    simp

/-- A row joins exactly when it is read as an answer under the columns of a literal. -/
theorem joins_iff (plain : ∀ name ∈ goalVariables goal, Plain name)
    (isLast : last ∈ positives goal) (row : List (Value Number)) :
    (∃ binding, Reads (goalVariables goal) (columnsOf last) row binding ∧
      IsAnswer db goal binding) ↔ Joins db goal last row := by
  have isVariable : ∀ name value, (.var name, value) ∈ last.terms.zip row →
      name ∈ goalVariables goal := fun name value member =>
    mem_goalVariables (List.mem_append_left _ isLast) (mem_variablesOf member)
  constructor
  · rintro ⟨binding, reads, answer⟩
    have termsAre : ∀ pair ∈ (onlyVariables last.terms).zip row,
        TermIs binding pair.1 pair.2 := by
      rintro ⟨term, value⟩ member
      cases term with
      | var name =>
          have inTerms := mem_onlyVariables_iff.mp member
          have named := isVariable name value inTerms
          exact reads.value name value ((mem_columns_iff (plain name named)).mpr inTerms) named
      | wildcard => trivial
      | string text | integer number | float number | aggregate function name =>
          obtain ⟨term, -, isTerm⟩ := List.mem_map.mp (List.of_mem_zip member).1
          cases term <;> cases isTerm
    obtain ⟨bound, unified, within⟩ := unifyTerms_complete (within_empty binding) termsAre
    obtain ⟨-, boundAre, -⟩ := unifyTerms_sound unified
    have same : bound = binding := by
      refine Std.ExtTreeMap.ext_getElem? fun name => ?_
      cases isValue : binding[name]? with
      | none =>
          refine Option.eq_none_iff_forall_ne_some.mpr fun value isBound => ?_
          cases isValue.symm.trans (within name value isBound)
      | some value =>
          have member : name ∈ binding :=
            Std.ExtTreeMap.mem_iff_isSome_getElem?.mpr (by rw [isValue]; rfl)
          have named := (answer.binds name).mp member
          obtain ⟨value', inColumns⟩ := reads.column name member
          have inTerms := (mem_columns_iff (plain name named)).mp inColumns
          have isBound : bound[name]? = some value' :=
            boundAre _ (mem_onlyVariables_iff.mpr inTerms)
          exact isBound.trans ((within name value' isBound).symm.trans isValue)
    subst same
    have every : ∀ name ∈ goalVariables goal, name ∈ bound := fun name => (answer.binds name).mpr
    exact ⟨bound, unified, every, (literals_iff every).mp ⟨answer.positive, answer.negated⟩⟩
  · rintro ⟨binding, unified, every, literals⟩
    obtain ⟨-, boundAre, names⟩ := unifyTerms_sound unified
    have columns : ∀ name ∈ binding, ∃ value, (.var name, value) ∈ last.terms.zip row := by
      intro name member
      rcases names name member with none | ⟨value, inVariables⟩
      · cases Std.ExtTreeMap.not_mem_empty none
      · exact ⟨value, mem_onlyVariables_iff.mp inVariables⟩
    obtain ⟨positive, negated⟩ := (literals_iff every).mpr literals
    refine ⟨binding, ⟨fun name value inColumns named => ?_, fun name member => ?_⟩,
      fun name => ⟨fun member => ?_, every name⟩, positive, negated⟩
    · have inTerms := (mem_columns_iff (plain name named)).mp inColumns
      exact boundAre _ (mem_onlyVariables_iff.mpr inTerms)
    · obtain ⟨value, inTerms⟩ := columns name member
      exact ⟨value, (mem_columns_iff (plain name (isVariable name value inTerms))).mpr inTerms⟩
    · obtain ⟨value, inTerms⟩ := columns name member
      exact isVariable name value inTerms

/-- With a positive literal, the answers are exact when all reported rows join. -/
theorem exact_iff_of_last (plain : ∀ name ∈ goalVariables goal, Plain name)
    (isLast : (positives goal).getLast? = some last) :
    Exact db goal ↔ ∀ atom ∈ positives goal, ∀ row ∈ db.facts atom.predicate,
      rowFits atom.terms row = true → Joins db goal last row := by
  have member : last ∈ positives goal := List.mem_of_getLast? isLast
  have reported := answerQueries_eq db goal
  rw [isLast, Option.elim_some] at reported
  constructor
  · intro isExact atom isAtom row isRow fits
    refine (joins_iff plain member row).mp ?_
    have sound := isExact.sound
    rw [reported] at sound
    exact sound row (List.mem_flatMap.mpr ⟨atom, isAtom, List.mem_filter.mpr ⟨isRow, fits⟩⟩)
  · intro joins
    constructor
    · rw [reported]
      intro row isRow
      obtain ⟨atom, isAtom, isFiltered⟩ := List.mem_flatMap.mp isRow
      obtain ⟨isFact, fits⟩ := List.mem_filter.mp isFiltered
      exact (joins_iff plain member row).mpr (joins atom isAtom row isFact fits)
    · rw [reported]
      intro binding answer
      -- The fact of the last literal is reported, and its columns are those of the answer.
      obtain ⟨row, isRow, length, termsAre⟩ := answer.positive last member
      have fits := rowFits_of_termsAre length termsAre
      obtain ⟨bound, unified, every, -⟩ := joins last member row isRow fits
      obtain ⟨-, -, names⟩ := unifyTerms_sound unified
      refine ⟨row, List.mem_flatMap.mpr ⟨last, member, List.mem_filter.mpr ⟨isRow, fits⟩⟩, ?_, ?_⟩
      · intro name value inColumns named
        exact termsAre _ ((mem_columns_iff (plain name named)).mp inColumns)
      · intro name isBound
        have named := (answer.binds name).mp isBound
        rcases names name (every name named) with none | ⟨value, inVariables⟩
        · cases Std.ExtTreeMap.not_mem_empty none
        · exact ⟨value, (mem_columns_iff (plain name named)).mpr
            (mem_onlyVariables_iff.mp inVariables)⟩

omit [DecidableEq Number] in
theorem exists_fresh (values : List (Value Number)) : ∃ number, Value.int number ∉ values := by
  have bounded : ∃ bound : Int, ∀ number, Value.int number ∈ values → number < bound := by
    induction values with
    | nil => exact ⟨0, fun _ none => (List.not_mem_nil none).elim⟩
    | cons value values ih =>
        obtain ⟨bound, below⟩ := ih
        cases value with
        | int known =>
            refine ⟨max bound (known + 1), fun number member => ?_⟩
            rcases List.mem_cons.mp member with same | later
            · cases same
              omega
            · have := below number later
              omega
        | null | float known | string known =>
            refine ⟨bound, fun number member => below number ?_⟩
            rcases List.mem_cons.mp member with same | later
            · cases same
            · exact later
  obtain ⟨bound, below⟩ := bounded
  exact ⟨bound, fun member => Int.lt_irrefl _ (below bound member)⟩

omit [DecidableEq Number] in
theorem exists_constant (names : List String) (value : Value Number) :
    ∃ binding : Binding Number, ∀ name : String,
      binding[name]? = if name ∈ names then some value else none := by
  induction names with
  | nil => exact ⟨∅, fun name => Std.ExtTreeMap.getElem?_empty⟩
  | cons first names ih =>
      obtain ⟨binding, known⟩ := ih
      refine ⟨binding.insert first value, fun name => ?_⟩
      rw [getElem?_insert, known]
      by_cases same : first = name
      · subst same
        rw [if_pos rfl, if_pos List.mem_cons_self]
      · rw [if_neg same]
        simp [Ne.symm same]

/-- Without positive literals nothing is reported, so a negated literal without variables has to be a
fact: other ones hold for values that no fact has. -/
theorem exact_iff_of_none (noPositive : (positives goal).getLast? = none) :
    Exact db goal ↔ ∃ atom ∈ negatives goal, variablesOf atom.terms = [] ∧
      ∃ fact ∈ db.facts atom.predicate, (tryUnify atom fact ∅).isSome = true := by
  have empty : positives goal = [] := List.getLast?_eq_none_iff.mp noPositive
  have reported := answerQueries_eq db goal
  rw [empty, List.flatMap_nil] at reported
  constructor
  · intro isExact
    by_contra noFact
    obtain ⟨number, fresh⟩ := exists_fresh
      ((negatives goal).flatMap fun atom => (db.facts atom.predicate).flatten)
    obtain ⟨binding, known⟩ := exists_constant (goalVariables goal) (Value.int number)
    have answer : IsAnswer db goal binding := by
      refine ⟨fun name => ?_, fun atom member => ?_, fun atom member isFact => ?_⟩
      · rw [Std.ExtTreeMap.mem_iff_isSome_getElem?, known]
        split
        next named => exact iff_of_true rfl named
        next unnamed => exact iff_of_false nofun unnamed
      · rw [empty] at member
        cases member
      · obtain ⟨row, isRow, length, termsAre⟩ := isFact
        have noVariable : ∀ name value, (.var name, value) ∉ atom.terms.zip row := by
          intro name value inTerms
          have isValue : binding[name]? = some value := termsAre _ inTerms
          rw [known] at isValue
          split at isValue
          next =>
            cases isValue
            exact fresh (List.mem_flatMap.mpr ⟨atom, member,
              List.mem_flatten.mpr ⟨row, isRow, (List.of_mem_zip inTerms).2⟩⟩)
          next => cases isValue
        have unnamed : variablesOf atom.terms = [] := by
          refine List.eq_nil_iff_forall_not_mem.mpr fun name isVariable => ?_
          obtain ⟨term, isTerm, isName⟩ := List.mem_filterMap.mp isVariable
          obtain ⟨place, isPlace⟩ := List.mem_iff_getElem?.mp isTerm
          have below : place < row.length :=
            length ▸ (List.getElem?_eq_some_iff.mp isPlace).1
          cases term with
          | var other =>
              exact noVariable other _
                (mem_zip_iff.mpr ⟨place, isPlace, List.getElem?_eq_getElem below⟩)
          | string text | integer number | float number | wildcard | aggregate function other =>
              cases isName
        refine noFact ⟨atom, member, unnamed, ?_⟩
        refine (isFact_iff fun name isVariable => ?_).mp ⟨row, isRow, length, fun pair inTerms => ?_⟩
        · rw [unnamed] at isVariable
          cases isVariable
        · obtain ⟨term, value⟩ := pair
          have termIs := termsAre _ inTerms
          cases term with
          | var name => exact (noVariable name value inTerms).elim
          | string text | integer number | float number | wildcard | aggregate function name =>
              exact termIs
    obtain ⟨row, isRow, -⟩ := isExact.complete binding answer
    rw [reported] at isRow
    cases isRow
  · rintro ⟨atom, member, unnamed, unifies⟩
    constructor
    · rw [reported]
      exact fun row none => (List.not_mem_nil none).elim
    · intro binding answer
      have isFact : IsFact db ∅ atom := (isFact_iff fun name isVariable => by
        rw [unnamed] at isVariable
        cases isVariable).mpr unifies
      obtain ⟨row, isRow, length, termsAre⟩ := isFact
      exact (answer.negated atom member ⟨row, isRow, length, fun pair inTerms =>
        (within_empty binding).termIs (termsAre pair inTerms)⟩).elim

end

/-- The answers to a query are exact exactly when all facts that have the constants of a positive
literal join. -/
theorem exact_iff_unhindered (db : Db Number) (goal : List (Literal Number))
    (plain : ∀ name ∈ goalVariables goal, Plain name) : Exact db goal ↔ Unhindered db goal := by
  unfold Unhindered
  split
  next last isLast => exact exact_iff_of_last plain isLast
  next noPositive => exact exact_iff_of_none noPositive

/-- Edges of a graph. -/
def edges : Db Int := factBase [⟨"edge", [.string "a", .string "b"]⟩,
  ⟨"edge", [.string "b", .string "c"]⟩]

/-- The edges from a node. -/
def fromNode : List (Literal Int) := [.positive ⟨"edge", [.string "a", .var "X"]⟩]

theorem exact_edges : Exact edges fromNode := by
  refine (exact_iff_unhindered edges fromNode (by decide)).mpr fun atom isAtom row isRow fits => ?_
  cases List.mem_singleton.mp isAtom
  have rows : edges.facts "edge" =
      [[.string "a", .string "b"], [.string "b", .string "c"]] := by decide +kernel
  rw [rows] at isRow
  rcases List.mem_pair.mp isRow with rfl | rfl
  · refine ⟨(∅ : Binding Int).insert "X" (.string "b"), rfl, by decide +kernel, ?_, nofun⟩
    intro atom isAtom
    cases List.mem_singleton.mp isAtom
    rw [rows]
    exact ⟨_, List.mem_cons_self, by decide +kernel⟩
  · cases fits

/-- A loop. -/
def loops : List (Literal Int) := [.positive ⟨"edge", [.var "X", .var "X"]⟩]

/-- An edge between different nodes is reported as a loop. -/
theorem not_exact_loops :
    ¬ ∀ (facts : List (Atom Int)) (goal : List (Literal Int)),
      (∀ name ∈ goalVariables goal, Plain name) → Exact (factBase facts) goal := by
  intro always
  have isExact := always [⟨"edge", [.integer 1, .integer 2]⟩] loops (by decide)
  have rows : [.int 1, .int 2] ∈ (factBase
      [(⟨"edge", [.integer 1, .integer 2]⟩ : Atom Int)]).facts "edge" := by decide +kernel
  obtain ⟨binding, unified, -⟩ := (exact_iff_of_last (by decide) rfl).mp isExact _
    List.mem_cons_self _ rows rfl
  cases unified

end JouleDB.Query.Datalog
