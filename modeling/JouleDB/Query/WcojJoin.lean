import JouleDB.Query.Wcoj

/-!
# What the worst-case optimal join computes

An atom whose relation has rows stays matched along every path of the enumeration.  The rows that
are found are thus those that agree with a tuple of every such atom, in the first column of each
variable.  An atom without rows constrains nothing, and the further columns of a repeated variable
are not looked at.
-/

namespace JouleDB.Query.Wcoj

/-- The rows that complete the values bound so far. -/
def completions (relations : List AtomRelation) (varOrder : List String) :
    List String → List Bytes → List Tuple
  | [], bound => [bound]
  | name :: rest, bound =>
      (candidates relations name varOrder bound).flatMap fun value =>
        completions relations varOrder rest (bound ++ [value])

/-- The enumeration adds the completions to the rows found so far. -/
theorem enumerate_eq (relations : List AtomRelation) (varOrder rest : List String)
    (bound : List Bytes) (state : List Tuple × Nat) :
    (enumerate relations varOrder rest bound state).1 =
      state.1 ++ completions relations varOrder rest bound := by
  induction rest generalizing bound state with
  | nil => rfl
  | cons name rest ih =>
      obtain ⟨results, work⟩ := state
      have folded : ∀ (values : List Bytes) (state : List Tuple × Nat),
          (values.foldl (fun state value =>
              enumerate relations varOrder rest (bound ++ [value]) (state.1, addWork state.2))
            state).1 =
          state.1 ++ values.flatMap fun value =>
            completions relations varOrder rest (bound ++ [value]) := by
        intro values
        induction values with
        | nil => exact fun state => (List.append_nil _).symm
        | cons value values further =>
            intro state
            rw [List.foldl_cons, further, ih, List.flatMap_cons, List.append_assoc]
      rw [enumerate, completions, candidates]
      dsimp only
      split
      next none =>
        rw [List.isEmpty_iff.mp none]
        exact (List.append_nil _).symm
      next => rw [folded]

/-- The values of a row for the variables of an order. -/
def valueOf (varOrder : List String) (row : Tuple) (name : String) : Bytes :=
  match varOrder.idxOf? name with
  | some depth => row.getD depth []
  | none => []

theorem Matched.mono {varOrder : List String} {fewer more : List Bytes} (front : fewer <+: more)
    {pair : AtomRelation} (matched : Matched varOrder more pair) :
    Matched varOrder fewer pair := by
  obtain ⟨row, member, agree⟩ := matched
  obtain ⟨further, rfl⟩ := front
  refine ⟨row, member, prefixMatches_iff.mpr fun depth name value column isName isValue => ?_⟩
  have inside := (List.getElem?_eq_some_iff.mp isValue).1
  exact prefixMatches_iff.mp agree depth name value column isName
    (by rwa [List.getElem?_append_left inside])

theorem Matched.tuples_ne_nil {varOrder : List String} {bound : List Bytes} {pair : AtomRelation}
    (matched : Matched varOrder bound pair) : pair.1.tuples ≠ [] := by
  obtain ⟨row, member, -⟩ := matched
  exact List.ne_nil_of_mem member

/-- An atom with rows is matched before any variable is bound. -/
theorem matched_nil {varOrder : List String} {pair : AtomRelation} (rows : pair.1.tuples ≠ []) :
    Matched varOrder [] pair := by
  obtain ⟨row, member⟩ := List.exists_mem_of_ne_nil _ rows
  exact ⟨row, member, prefixMatches_nil pair.2 varOrder row⟩

/-- The rows that complete some bound values agree with every atom that has rows. -/
theorem mem_completions {relations : List AtomRelation} (arity : ∀ pair ∈ relations, Arity pair)
    {varOrder : List String} (rest : List String) {bound : List Bytes}
    (isRest : varOrder.drop bound.length = rest) (inside : bound.length ≤ varOrder.length)
    (matched : ∀ pair ∈ relations, pair.1.tuples ≠ [] → Matched varOrder bound pair)
    (row : Tuple) :
    row ∈ completions relations varOrder rest bound ↔
      bound <+: row ∧ row.length = varOrder.length ∧
        (∀ name ∈ rest, ∃ pair ∈ relations, pair.1.tuples ≠ [] ∧ name ∈ pair.2.vars) ∧
        ∀ pair ∈ relations, pair.1.tuples ≠ [] → Matched varOrder row pair := by
  induction rest generalizing bound with
  | nil =>
      have whole : bound.length = varOrder.length :=
        le_antisymm inside (List.drop_eq_nil_iff.mp isRest)
      rw [completions, List.mem_singleton]
      constructor
      · rintro rfl
        exact ⟨List.prefix_rfl, whole, fun name none => (List.not_mem_nil none).elim, matched⟩
      · rintro ⟨front, length, -⟩
        exact (front.eq_of_length (whole.trans length.symm)).symm
  | cons name rest ih =>
      have isNext : varOrder[bound.length]? = some name := by
        rw [← List.head?_drop, isRest]
        rfl
      have within := (List.getElem?_eq_some_iff.mp isNext).1
      have step : ∀ value, (bound ++ [value]).length = bound.length + 1 := fun _ => by simp
      have isRest' : ∀ value, varOrder.drop (bound ++ [value]).length = rest := by
        intro value
        rw [step, ← List.tail_drop, isRest]
        rfl
      rw [completions, List.mem_flatMap]
      constructor
      · rintro ⟨value, isCandidate, completes⟩
        obtain ⟨⟨pair, member, mentioned, some⟩, allowed⟩ :=
          (mem_candidates arity isNext value).mp isCandidate
        have matched' : ∀ pair ∈ relations, pair.1.tuples ≠ [] →
            Matched varOrder (bound ++ [value]) pair := by
          intro pair member rows
          by_cases mentioned : name ∈ pair.2.vars
          · exact allowed pair member mentioned (matched pair member rows)
          · exact (matched_snoc_of_not_mem isNext mentioned value).mpr (matched pair member rows)
        obtain ⟨front, length, covered, agree⟩ :=
          (ih (isRest' value) (by rw [step]; exact within) matched').mp completes
        refine ⟨(List.prefix_append bound [value]).trans front, length, ?_, agree⟩
        exact List.forall_mem_cons.mpr ⟨⟨pair, member, some.tuples_ne_nil, mentioned⟩, covered⟩
      · rintro ⟨⟨further, rfl⟩, length, covered, agree⟩
        obtain ⟨⟨pair, member, rows, mentioned⟩, covered⟩ := List.forall_mem_cons.mp covered
        cases further with
        | nil =>
            rw [List.append_nil] at length
            omega
        | cons value further =>
            have front : bound ++ [value] <+: bound ++ value :: further :=
              ⟨further, by rw [List.append_assoc]; rfl⟩
            have matched' : ∀ pair ∈ relations, pair.1.tuples ≠ [] →
                Matched varOrder (bound ++ [value]) pair :=
              fun pair member rows => (agree pair member rows).mono front
            refine ⟨value, (mem_candidates arity isNext value).mpr ⟨?_, ?_⟩, ?_⟩
            · exact ⟨pair, member, mentioned, matched pair member rows⟩
            · exact fun pair member _ some => matched' pair member some.tuples_ne_nil
            · exact (ih (isRest' value) (by rw [step]; exact within) matched').mpr
                ⟨front, length, covered, agree⟩

theorem prefix_of_mem_completions {relations : List AtomRelation} {varOrder rest : List String}
    {bound : List Bytes} {row : Tuple}
    (completes : row ∈ completions relations varOrder rest bound) : bound <+: row := by
  induction rest generalizing bound with
  | nil =>
      rw [List.mem_singleton.mp completes]
  | cons name rest ih =>
      obtain ⟨value, -, later⟩ := List.mem_flatMap.mp completes
      exact (List.prefix_append bound [value]).trans (ih later)

theorem completions_nodup (relations : List AtomRelation) (varOrder rest : List String)
    (bound : List Bytes) : (completions relations varOrder rest bound).Nodup := by
  induction rest generalizing bound with
  | nil => exact List.nodup_singleton _
  | cons name rest ih =>
      rw [completions, List.nodup_flatMap]
      refine ⟨fun value _ => ih _, ?_⟩
      refine (candidates_sorted name varOrder bound).imp fun {first second} less => ?_
      intro row inFirst inSecond
      obtain ⟨further, rfl⟩ := prefix_of_mem_completions inFirst
      obtain ⟨others, same⟩ := prefix_of_mem_completions inSecond
      rw [List.append_assoc, List.append_assoc, List.append_cancel_left_eq] at same
      cases same
      exact lt_irrefl _ less

/-! ## The natural join -/

/-- A query without projection, on relations that fit it, with an order of its variables. -/
structure Fits (query : WcojQuery) (relations : List (String × Relation))
    (varOrder : List String) : Prop where
  someAtom : query.atoms ≠ []
  noProjection : query.outputVariables = []
  distinct : varOrder.Nodup
  variables_iff : ∀ name, name ∈ varOrder ↔ ∃ atom ∈ query.atoms, name ∈ atom.vars
  related : ∀ atom ∈ query.atoms, ∃ relation, relationOf relations atom = some relation ∧
    Arity (relation, atom)

/-- The tuple of an atom under the assignment that a row stands for. -/
def tupleOf (varOrder : List String) (row : Tuple) (atom : Atom) : Tuple :=
  atom.vars.map (valueOf varOrder row)

/-- The result lists, each once, the assignments under which the tuple of every atom is in its
relation. -/
structure Joins (query : WcojQuery) (relations : List (String × Relation))
    (varOrder : List String) (results : List Tuple) : Prop where
  once : results.Nodup
  spec : ∀ row, row ∈ results ↔ row.length = varOrder.length ∧
    ∀ atom ∈ query.atoms, ∃ relation, relationOf relations atom = some relation ∧
      tupleOf varOrder row atom ∈ relation.tuples

/-- The row has the values of some tuple of the atom, in the first column of each variable. -/
def AgreesInFirst (varOrder : List String) (row : Tuple) (pair : AtomRelation) : Prop :=
  ∃ tuple ∈ pair.1.tuples, ∀ name column, pair.2.vars.idxOf? name = some column →
    tuple[column]? = some (valueOf varOrder row name)

/-- A row that agrees in the first columns with every atom that has rows. -/
structure Candidate (pairs : List AtomRelation) (varOrder : List String) (row : Tuple) :
    Prop where
  length_eq : row.length = varOrder.length
  covered : ∀ name ∈ varOrder, ∃ pair ∈ pairs, pair.1.tuples ≠ [] ∧ name ∈ pair.2.vars
  agrees : ∀ pair ∈ pairs, pair.1.tuples ≠ [] → AgreesInFirst varOrder row pair

/-- No candidate is wrong for an atom without rows, or for the further columns of a repeated
variable. -/
def Harmless (pairs : List AtomRelation) (varOrder : List String) : Prop :=
  ∀ row, Candidate pairs varOrder row → ∀ pair ∈ pairs,
    pair.1.tuples ≠ [] ∧ (¬ pair.2.vars.Nodup → tupleOf varOrder row pair.2 ∈ pair.1.tuples)

section

variable {query : WcojQuery} {relations : List (String × Relation)} {varOrder : List String}

theorem Fits.mem_pairs {pair : AtomRelation} :
    pair ∈ atomRelations query relations ↔
      pair.2 ∈ query.atoms ∧ relationOf relations pair.2 = some pair.1 := by
  rw [atomRelations, List.mem_filterMap]
  constructor
  · rintro ⟨atom, member, some⟩
    obtain ⟨relation, isRelation, rfl⟩ := Option.map_eq_some_iff.mp some
    exact ⟨member, isRelation⟩
  · rintro ⟨member, isRelation⟩
    exact ⟨pair.2, member, by rw [isRelation]; rfl⟩

theorem Fits.arity (fits : Fits query relations varOrder) :
    ∀ pair ∈ atomRelations query relations, Arity pair := by
  intro pair isPair
  obtain ⟨member, isRelation⟩ := Fits.mem_pairs.mp isPair
  obtain ⟨relation, isRelation', arity⟩ := fits.related pair.2 member
  cases isRelation.symm.trans isRelation'
  exact arity

theorem Fits.mem_varOrder (fits : Fits query relations varOrder) {pair : AtomRelation}
    (isPair : pair ∈ atomRelations query relations) {name : String} (mentioned : name ∈ pair.2.vars) :
    name ∈ varOrder :=
  (fits.variables_iff name).mpr ⟨pair.2, (Fits.mem_pairs.mp isPair).1, mentioned⟩

theorem idxOf?_of_getElem? {names : List String} (distinct : names.Nodup) {depth : Nat}
    {name : String} (isName : names[depth]? = some name) : names.idxOf? name = some depth := by
  obtain ⟨inside, rfl⟩ := List.getElem?_eq_some_iff.mp isName
  refine List.idxOf?_eq_some_iff.mpr ⟨inside, rfl, fun earlier less same => ?_⟩
  exact absurd ((List.Nodup.getElem_inj_iff distinct).mp same) less.ne

theorem valueOf_eq (distinct : varOrder.Nodup) {row : Tuple} {depth : Nat} {name : String}
    {value : Bytes} (isName : varOrder[depth]? = some name) (isValue : row[depth]? = some value) :
    valueOf varOrder row name = value := by
  rw [valueOf, idxOf?_of_getElem? distinct isName]
  change row.getD depth [] = value
  rw [List.getD_eq_getElem?_getD, isValue, Option.getD_some]

/-- Binding all variables matches an atom when a tuple agrees in the first columns. -/
theorem Fits.matched_iff (fits : Fits query relations varOrder) {row : Tuple}
    (length_eq : row.length = varOrder.length) {pair : AtomRelation}
    (isPair : pair ∈ atomRelations query relations) :
    Matched varOrder row pair ↔ AgreesInFirst varOrder row pair := by
  refine exists_congr fun tuple => and_congr_right fun member => ?_
  rw [prefixMatches_iff]
  constructor
  · intro agree name column isColumn
    obtain ⟨depth, isDepth⟩ := exists_column (fits.mem_varOrder isPair (mem_of_column isColumn))
    obtain ⟨inside, isName, -⟩ := List.idxOf?_eq_some_iff.mp isDepth
    have isName := List.getElem?_eq_some_iff.mpr ⟨inside, isName⟩
    have isValue := List.getElem?_eq_getElem (length_eq ▸ inside : depth < row.length)
    rw [valueOf_eq fits.distinct isName isValue]
    exact agree depth name _ column isName isValue isColumn
  · intro agree depth name value column isName isValue isColumn
    rw [agree name column isColumn, valueOf_eq fits.distinct isName isValue]

/-- The tuple of an atom agrees in the first columns. -/
theorem agreesInFirst_of_tupleOf {row : Tuple} {pair : AtomRelation}
    (member : tupleOf varOrder row pair.2 ∈ pair.1.tuples) : AgreesInFirst varOrder row pair := by
  refine ⟨_, member, fun name column isColumn => ?_⟩
  obtain ⟨inside, isName, -⟩ := List.idxOf?_eq_some_iff.mp isColumn
  rw [tupleOf, List.getElem?_map, List.getElem?_eq_getElem inside, isName]
  rfl

/-- Without a repeated variable, a tuple that agrees in the first columns is the tuple of the
atom. -/
theorem AgreesInFirst.tupleOf {row : Tuple} {pair : AtomRelation} (arity : Arity pair)
    (distinct : pair.2.vars.Nodup) (agrees : AgreesInFirst varOrder row pair) :
    tupleOf varOrder row pair.2 ∈ pair.1.tuples := by
  obtain ⟨tuple, member, agree⟩ := agrees
  suffices same : tuple = Wcoj.tupleOf varOrder row pair.2 by rwa [← same]
  refine List.ext_getElem? fun column => ?_
  rw [Wcoj.tupleOf, List.getElem?_map]
  cases isName : pair.2.vars[column]? with
  | none =>
      rw [List.getElem?_eq_none_iff] at isName
      rw [Option.map_none, List.getElem?_eq_none_iff, arity tuple member]
      exact isName
  | some name => exact agree name column (idxOf?_of_getElem? distinct isName)

theorem Fits.pair_of_mem (fits : Fits query relations varOrder) {atom : Atom}
    (member : atom ∈ query.atoms) :
    ∃ relation, relationOf relations atom = some relation ∧
      (relation, atom) ∈ atomRelations query relations := by
  obtain ⟨relation, isRelation, -⟩ := fits.related atom member
  exact ⟨relation, isRelation, Fits.mem_pairs.mpr ⟨member, isRelation⟩⟩

theorem Fits.execute_eq (fits : Fits query relations varOrder) :
    (executeWcojWithOrder query relations varOrder).1 =
      completions (atomRelations query relations) varOrder varOrder [] := by
  obtain ⟨atom, member⟩ := List.exists_mem_of_ne_nil _ fits.someAtom
  obtain ⟨relation, -, isPair⟩ := fits.pair_of_mem member
  have some : (atomRelations query relations).isEmpty = false := by
    rw [List.isEmpty_eq_false_iff]
    exact List.ne_nil_of_mem isPair
  rw [executeWcojWithOrder]
  simp only [some, fits.noProjection, List.isEmpty_nil, Bool.true_or, if_true]
  exact enumerate_eq _ _ _ _ _

/-- The rows that are found are the candidates. -/
theorem Fits.mem_results (fits : Fits query relations varOrder) (row : Tuple) :
    row ∈ (executeWcojWithOrder query relations varOrder).1 ↔
      Candidate (atomRelations query relations) varOrder row := by
  rw [fits.execute_eq, mem_completions fits.arity varOrder rfl (Nat.zero_le _)
    fun pair _ rows => matched_nil rows]
  constructor
  · rintro ⟨-, length_eq, covered, matched⟩
    exact ⟨length_eq, covered, fun pair isPair rows =>
      (fits.matched_iff length_eq isPair).mp (matched pair isPair rows)⟩
  · rintro ⟨length_eq, covered, agrees⟩
    exact ⟨List.nil_prefix, length_eq, covered, fun pair isPair rows =>
      (fits.matched_iff length_eq isPair).mpr (agrees pair isPair rows)⟩

theorem Fits.results_nodup (fits : Fits query relations varOrder) :
    (executeWcojWithOrder query relations varOrder).1.Nodup := by
  rw [fits.execute_eq]
  exact completions_nodup _ _ _ _

/-- The rows of the natural join are candidates. -/
theorem Fits.candidate (fits : Fits query relations varOrder) {row : Tuple}
    (length_eq : row.length = varOrder.length)
    (inAll : ∀ pair ∈ atomRelations query relations,
      tupleOf varOrder row pair.2 ∈ pair.1.tuples) :
    Candidate (atomRelations query relations) varOrder row where
  length_eq := length_eq
  covered := by
    intro name inOrder
    obtain ⟨atom, member, mentioned⟩ := (fits.variables_iff name).mp inOrder
    obtain ⟨relation, -, isPair⟩ := fits.pair_of_mem member
    exact ⟨(relation, atom), isPair, List.ne_nil_of_mem (inAll _ isPair), mentioned⟩
  agrees := fun pair isPair _ => agreesInFirst_of_tupleOf (inAll pair isPair)

/-- What the natural join asks of a row, over the atoms with their relations. -/
theorem Fits.forall_atoms (fits : Fits query relations varOrder) (row : Tuple) :
    (∀ atom ∈ query.atoms, ∃ relation, relationOf relations atom = some relation ∧
      tupleOf varOrder row atom ∈ relation.tuples) ↔
      ∀ pair ∈ atomRelations query relations, tupleOf varOrder row pair.2 ∈ pair.1.tuples := by
  constructor
  · intro inAll pair isPair
    obtain ⟨member, isRelation⟩ := Fits.mem_pairs.mp isPair
    obtain ⟨relation, isRelation', inRelation⟩ := inAll pair.2 member
    cases isRelation.symm.trans isRelation'
    exact inRelation
  · intro inAll atom member
    obtain ⟨relation, isRelation, isPair⟩ := fits.pair_of_mem member
    exact ⟨relation, isRelation, inAll _ isPair⟩

/-- The join is right exactly when no candidate is wrong for an atom without rows or for a repeated
variable. -/
theorem joins_iff_harmless (fits : Fits query relations varOrder) :
    Joins query relations varOrder (executeWcojWithOrder query relations varOrder).1 ↔
      Harmless (atomRelations query relations) varOrder := by
  constructor
  · intro joins row isCandidate pair isPair
    obtain ⟨-, inAll⟩ := (joins.spec row).mp ((fits.mem_results row).mpr isCandidate)
    have inRelation := (fits.forall_atoms row).mp inAll pair isPair
    exact ⟨List.ne_nil_of_mem inRelation, fun _ => inRelation⟩
  · intro harmless
    refine ⟨fits.results_nodup, fun row => ?_⟩
    rw [fits.mem_results, fits.forall_atoms]
    constructor
    · intro isCandidate
      refine ⟨isCandidate.length_eq, fun pair isPair => ?_⟩
      obtain ⟨rows, repeated⟩ := harmless row isCandidate pair isPair
      by_cases distinct : pair.2.vars.Nodup
      · exact (isCandidate.agrees pair isPair rows).tupleOf (fits.arity pair isPair) distinct
      · exact repeated distinct
    · exact fun ⟨length_eq, inAll⟩ => fits.candidate length_eq inAll

end

/-! ## Two queries -/

/-- A query fits when this can be checked atom by atom. -/
theorem Fits.of_forall {query : WcojQuery} {relations : List (String × Relation)}
    {varOrder : List String} (someAtom : query.atoms ≠ []) (noProjection : query.outputVariables = [])
    (distinct : varOrder.Nodup) (covered : ∀ name ∈ varOrder, ∃ atom ∈ query.atoms, name ∈ atom.vars)
    (ordered : ∀ atom ∈ query.atoms, ∀ name ∈ atom.vars, name ∈ varOrder)
    (related : ∀ atom ∈ query.atoms, ∃ relation ∈ relationOf relations atom,
      ∀ row ∈ relation.tuples, row.length = atom.vars.length) :
    Fits query relations varOrder where
  someAtom := someAtom
  noProjection := noProjection
  distinct := distinct
  variables_iff := fun name =>
    ⟨covered name, fun ⟨atom, member, mentioned⟩ => ordered atom member name mentioned⟩
  related := related

/-- Pairs that meet in their second and first column. -/
def path : WcojQuery where
  atoms := [⟨"edges", ["X", "Y"]⟩, ⟨"edges", ["Y", "Z"]⟩]
  outputVariables := []

def edges : List (String × Relation) :=
  [("edges", ⟨[[[1], [2]], [[2], [3]]]⟩)]

/-- The join of a path query. -/
theorem joins_path :
    Joins path edges ["X", "Y", "Z"] (executeWcojWithOrder path edges ["X", "Y", "Z"]).1 := by
  refine (joins_iff_harmless (Fits.of_forall (by decide) rfl (by decide) (by decide) (by decide)
    (by decide))).mpr fun row _ pair isPair => ?_
  have all : ∀ pair ∈ atomRelations path edges, pair.1.tuples ≠ [] ∧ pair.2.vars.Nodup := by decide
  obtain ⟨rows, distinct⟩ := all pair isPair
  exact ⟨rows, fun isRepeated => absurd distinct isRepeated⟩

/-- Pairs whose first column is in another relation. -/
def filtered : WcojQuery where
  atoms := [⟨"edges", ["X", "Y"]⟩, ⟨"marked", ["X"]⟩]
  outputVariables := []

/-- The relation without rows does not filter. -/
theorem not_joins_filtered :
    Fits filtered [("edges", ⟨[[[1], [2]]]⟩), ("marked", ⟨[]⟩)] ["X", "Y"] ∧
      ¬ Joins filtered [("edges", ⟨[[[1], [2]]]⟩), ("marked", ⟨[]⟩)] ["X", "Y"]
        (executeWcojWithOrder filtered [("edges", ⟨[[[1], [2]]]⟩), ("marked", ⟨[]⟩)]
          ["X", "Y"]).1 := by
  refine ⟨Fits.of_forall (by decide) rfl (by decide) (by decide) (by decide) (by decide), ?_⟩
  intro joins
  have found : [[1], [2]] ∈
      (executeWcojWithOrder filtered [("edges", ⟨[[[1], [2]]]⟩), ("marked", ⟨[]⟩)]
        ["X", "Y"]).1 := by decide +kernel
  obtain ⟨-, inAll⟩ := (joins.spec _).mp found
  obtain ⟨relation, isRelation, inRelation⟩ := inAll ⟨"marked", ["X"]⟩ (by decide)
  have noRows : relationOf [("edges", ⟨[[[1], [2]]]⟩), ("marked", ⟨[]⟩)] ⟨"marked", ["X"]⟩ =
      some ⟨[]⟩ := by decide
  cases noRows.symm.trans isRelation
  cases inRelation

end JouleDB.Query.Wcoj
