import JouleDB.Query.Leapfrog
import Mathlib.Data.Finset.Dedup
import Mathlib.Data.Finset.Sort

/-!
# The worst-case optimal join

A conjunctive query binds its variables one after the other.  For each variable, every atom that
mentions it offers the values of its rows that agree with the variables bound so far, and the
offers are intersected.
-/

namespace JouleDB.Query

/-- A row of a relation. -/
abbrev Tuple := List Bytes

structure Relation where
  tuples : List Tuple
  deriving DecidableEq

/-- A reference to a relation, with a variable for each of its columns. -/
structure Atom where
  relationName : String
  vars : List String
  deriving DecidableEq

structure WcojQuery where
  atoms : List Atom
  /-- The columns of the result: all variables when there are none. -/
  outputVariables : List String
  deriving DecidableEq

/-- An atom with its relation. -/
abbrev AtomRelation := Relation × Atom

namespace Wcoj

/-- The row agrees with the values of the variables that are bound.  A variable that occurs in
several columns is compared in the first one. -/
def prefixMatches (atom : Atom) (varOrder : List String) (bound : List Bytes) (row : Tuple) : Bool :=
  (varOrder.zip bound).all fun binding =>
    match atom.vars.idxOf? binding.1 with
    | some column => row[column]? = some binding.2
    | none => true

/-- The values that the atoms offer for a variable.  An atom without matching rows offers nothing and
is left out. -/
def buildTrieIterators (relations : List AtomRelation) (name : String) (varOrder : List String)
    (bound : List Bytes) : List TrieIterator :=
  relations.filterMap fun (relation, atom) =>
    match atom.vars.idxOf? name with
    | none => none
    | some column =>
        let rows := relation.tuples.filter (prefixMatches atom varOrder bound)
        let values := (rows.filterMap fun row => row[column]?).toFinset
        if values = ∅ then none else some (TrieIterator.new values.sort)

/-- One more unit of work, on a saturating counter. -/
def addWork (work : Nat) : Nat := min (work + 1) (2 ^ 64 - 1)

/-- Bind the variables that are left, with the rows found so far and the work done for them. -/
def enumerate (relations : List AtomRelation) (varOrder : List String) :
    List String → List Bytes → List Tuple × Nat → List Tuple × Nat
  | [], bound, (results, work) => (results ++ [bound], addWork work)
  | name :: rest, bound, (results, work) =>
      let iterators := buildTrieIterators relations name varOrder bound
      if iterators.isEmpty then (results, addWork work)
      else
        (intersect iterators).foldl
          (fun state value =>
            enumerate relations varOrder rest (bound ++ [value]) (state.1, addWork state.2))
          (results, addWork work)

/-- The relation of an atom. -/
def relationOf (relations : List (String × Relation)) (atom : Atom) : Option Relation :=
  (relations.find? fun relation => relation.1 = atom.relationName).map Prod.snd

/-- The atoms of a query that have a relation. -/
def atomRelations (query : WcojQuery) (relations : List (String × Relation)) : List AtomRelation :=
  query.atoms.filterMap fun atom =>
    (relationOf relations atom).map fun relation => (relation, atom)

/-- The rows of a query with the work done for them. -/
def executeWcojWithOrder (query : WcojQuery) (relations : List (String × Relation))
    (varOrder : List String) : List Tuple × Nat :=
  let atoms := atomRelations query relations
  if atoms.isEmpty then ([], 0)
  else
    let (results, work) := enumerate atoms varOrder varOrder [] ([], 0)
    if query.outputVariables.isEmpty || query.outputVariables = varOrder then (results, work)
    else
      let indices := query.outputVariables.filterMap fun name => varOrder.idxOf? name
      (results.map fun row => indices.map fun index => row.getD index [], work)

/-! ## The values of a variable -/

/-- Some row of the atom agrees with the variables that are bound. -/
def Matched (varOrder : List String) (bound : List Bytes) (pair : AtomRelation) : Prop :=
  ∃ row ∈ pair.1.tuples, prefixMatches pair.2 varOrder bound row = true

/-- Every row has a value for every variable of the atom. -/
def Arity (pair : AtomRelation) : Prop :=
  ∀ row ∈ pair.1.tuples, row.length = pair.2.vars.length

theorem prefixMatches_iff {atom : Atom} {varOrder : List String} {bound : List Bytes} {row : Tuple} :
    prefixMatches atom varOrder bound row = true ↔
      ∀ (depth : Nat) (name : String) (value : Bytes) (column : Nat),
        varOrder[depth]? = some name → bound[depth]? = some value →
        atom.vars.idxOf? name = some column → row[column]? = some value := by
  rw [prefixMatches, List.all_eq_true]
  constructor
  · intro agree depth name value column isName isValue isColumn
    have inZip : (name, value) ∈ varOrder.zip bound :=
      List.mem_of_getElem? (List.getElem?_zip_eq_some.mpr ⟨isName, isValue⟩)
    have here := agree _ inZip
    simp only [isColumn] at here
    exact of_decide_eq_true here
  · rintro agree ⟨name, value⟩ inZip
    obtain ⟨depth, isAt⟩ := List.mem_iff_getElem?.mp inZip
    obtain ⟨isName, isValue⟩ := List.getElem?_zip_eq_some.mp isAt
    dsimp only
    split
    next column isColumn =>
      exact decide_eq_true (agree depth name value column isName isValue isColumn)
    next => rfl

theorem prefixMatches_nil (atom : Atom) (varOrder : List String) (row : Tuple) :
    prefixMatches atom varOrder [] row = true :=
  prefixMatches_iff.mpr fun _ _ _ _ _ isValue => by cases isValue

theorem prefixMatches_snoc {atom : Atom} {varOrder : List String} {bound : List Bytes}
    {name : String} (isNext : varOrder[bound.length]? = some name) (value : Bytes)
    (row : Tuple) :
    prefixMatches atom varOrder (bound ++ [value]) row = true ↔
      prefixMatches atom varOrder bound row = true ∧
        ∀ column, atom.vars.idxOf? name = some column → row[column]? = some value := by
  simp only [prefixMatches_iff]
  constructor
  · intro agree
    refine ⟨fun depth other found column isName isValue => ?_, fun column => ?_⟩
    · have inside := (List.getElem?_eq_some_iff.mp isValue).1
      exact agree depth other found column isName
        (by rwa [List.getElem?_append_left inside])
    · exact agree bound.length name value column isNext (by simp)
  · rintro ⟨before, last⟩ depth other found column isName isValue isColumn
    rw [List.getElem?_append] at isValue
    split at isValue
    next => exact before depth other found column isName isValue isColumn
    next notInside =>
      rw [List.getElem?_singleton] at isValue
      obtain ⟨atLast, isLast⟩ := Option.ite_none_right_eq_some.mp isValue
      cases isLast
      have same : depth = bound.length := by omega
      rw [same, isNext] at isName
      cases isName
      exact last column isColumn

theorem exists_column {name : String} {names : List String} (mentioned : name ∈ names) :
    ∃ column, names.idxOf? name = some column :=
  Option.ne_none_iff_exists'.mp (mt List.idxOf?_eq_none_iff.mp (not_not.mpr mentioned))

theorem mem_of_column {name : String} {names : List String} {column : Nat}
    (isColumn : names.idxOf? name = some column) : name ∈ names := by
  obtain ⟨inside, isName, -⟩ := List.idxOf?_eq_some_iff.mp isColumn
  exact List.mem_of_getElem isName

/-- An atom that does not mention the variable is not affected by its value. -/
theorem matched_snoc_of_not_mem {varOrder : List String} {bound : List Bytes} {name : String}
    (isNext : varOrder[bound.length]? = some name) {pair : AtomRelation}
    (unmentioned : name ∉ pair.2.vars) (value : Bytes) :
    Matched varOrder (bound ++ [value]) pair ↔ Matched varOrder bound pair := by
  refine exists_congr fun row => and_congr_right fun _ => ?_
  rw [prefixMatches_snoc isNext]
  refine and_iff_left fun column isColumn => ?_
  rw [List.idxOf?_eq_none_iff.mpr unmentioned] at isColumn
  cases isColumn

/-- The values that an atom offers for a variable. -/
def offered (varOrder : List String) (bound : List Bytes) (pair : AtomRelation) (column : Nat) :
    List Bytes :=
  (((pair.1.tuples.filter (prefixMatches pair.2 varOrder bound)).filterMap
    fun row => row[column]?).toFinset).sort

theorem offered_sorted (varOrder : List String) (bound : List Bytes) (pair : AtomRelation)
    (column : Nat) : (offered varOrder bound pair column).Pairwise (· < ·) :=
  (Finset.sortedLT_sort _).pairwise

/-- A value is offered when some row agrees with it too. -/
theorem mem_offered {varOrder : List String} {bound : List Bytes} {name : String}
    (isNext : varOrder[bound.length]? = some name) {pair : AtomRelation} {column : Nat}
    (isColumn : pair.2.vars.idxOf? name = some column) (value : Bytes) :
    value ∈ offered varOrder bound pair column ↔ Matched varOrder (bound ++ [value]) pair := by
  rw [offered, Finset.mem_sort, List.mem_toFinset, List.mem_filterMap]
  refine exists_congr fun row => ?_
  rw [List.mem_filter, prefixMatches_snoc isNext, and_assoc]
  refine and_congr_right fun _ => and_congr_right fun _ => ?_
  rw [isColumn]
  exact ⟨fun isValue other same => by cases same; exact isValue, fun all => all column rfl⟩

/-- An atom offers nothing exactly when no row agrees with the variables that are bound. -/
theorem offered_ne_nil {varOrder : List String} {bound : List Bytes} {pair : AtomRelation}
    (arity : Arity pair) {name : String} {column : Nat}
    (isColumn : pair.2.vars.idxOf? name = some column) :
    offered varOrder bound pair column ≠ [] ↔ Matched varOrder bound pair := by
  obtain ⟨inside, -⟩ := List.idxOf?_eq_some_iff.mp isColumn
  constructor
  · intro some
    obtain ⟨value, member⟩ := List.exists_mem_of_ne_nil _ some
    rw [offered, Finset.mem_sort, List.mem_toFinset, List.mem_filterMap] at member
    obtain ⟨row, found, -⟩ := member
    obtain ⟨member, agree⟩ := List.mem_filter.mp found
    exact ⟨row, member, agree⟩
  · rintro ⟨row, member, agree⟩
    have within : column < row.length := by rw [arity row member]; exact inside
    refine List.ne_nil_of_mem (a := row[column]) ?_
    rw [offered, Finset.mem_sort, List.mem_toFinset, List.mem_filterMap]
    exact ⟨row, List.mem_filter.mpr ⟨member, agree⟩, List.getElem?_eq_getElem within⟩

/-- The values that all offers have. -/
def candidates (relations : List AtomRelation) (name : String) (varOrder : List String)
    (bound : List Bytes) : List Bytes :=
  intersect (buildTrieIterators relations name varOrder bound)

/-- The offers for a variable that are not left out. -/
def offers (relations : List AtomRelation) (name : String) (varOrder : List String)
    (bound : List Bytes) : List (List Bytes) :=
  relations.filterMap fun pair =>
    (pair.2.vars.idxOf? name).bind fun column =>
      if offered varOrder bound pair column = [] then none
      else some (offered varOrder bound pair column)

theorem buildTrieIterators_eq (relations : List AtomRelation) (name : String)
    (varOrder : List String) (bound : List Bytes) :
    buildTrieIterators relations name varOrder bound =
      (offers relations name varOrder bound).map TrieIterator.new := by
  rw [buildTrieIterators, offers, List.map_filterMap]
  refine List.filterMap_congr fun ⟨relation, atom⟩ _ => ?_
  cases isColumn : atom.vars.idxOf? name with
  | none => simp only [isColumn, Option.bind_none, Option.map_none]
  | some column =>
      have same : offered varOrder bound (relation, atom) column = [] ↔
          ((relation.tuples.filter (prefixMatches atom varOrder bound)).filterMap
            fun row => row[column]?).toFinset = ∅ := by
        rw [offered, ← List.length_eq_zero_iff, Finset.length_sort, Finset.card_eq_zero]
      simp only [isColumn, Option.bind_some, same]
      split
      next => rfl
      next => rfl

/-- The offers belong to the atoms that mention the variable and have a matching row. -/
theorem mem_offers {relations : List AtomRelation} (arity : ∀ pair ∈ relations, Arity pair)
    {name : String} {varOrder : List String} {bound values : List Bytes} :
    values ∈ offers relations name varOrder bound ↔
      ∃ pair ∈ relations, ∃ column, pair.2.vars.idxOf? name = some column ∧
        Matched varOrder bound pair ∧ values = offered varOrder bound pair column := by
  rw [offers, List.mem_filterMap]
  refine exists_congr fun pair => and_congr_right fun member => ?_
  rw [Option.bind_eq_some_iff]
  refine exists_congr fun column => and_congr_right fun isColumn => ?_
  rw [← offered_ne_nil (arity pair member) isColumn, Option.ite_none_left_eq_some,
    Option.some_inj]
  exact and_congr_right fun _ => eq_comm

theorem offers_sorted {relations : List AtomRelation} {name : String} {varOrder : List String}
    {bound : List Bytes} :
    ∀ values ∈ offers relations name varOrder bound, values.Pairwise (· < ·) := by
  intro values isOffer
  obtain ⟨pair, -, some⟩ := List.mem_filterMap.mp isOffer
  obtain ⟨column, -, isOffered⟩ := Option.bind_eq_some_iff.mp some
  obtain ⟨-, isValues⟩ := Option.ite_none_left_eq_some.mp isOffered
  cases isValues
  exact offered_sorted varOrder bound pair column

/-- A variable takes the values that all atoms with a matching row allow, when there is such an
atom. -/
theorem mem_candidates {relations : List AtomRelation} (arity : ∀ pair ∈ relations, Arity pair)
    {name : String} {varOrder : List String} {bound : List Bytes}
    (isNext : varOrder[bound.length]? = some name) (value : Bytes) :
    value ∈ candidates relations name varOrder bound ↔
      (∃ pair ∈ relations, name ∈ pair.2.vars ∧ Matched varOrder bound pair) ∧
        ∀ pair ∈ relations, name ∈ pair.2.vars → Matched varOrder bound pair →
          Matched varOrder (bound ++ [value]) pair := by
  have isOffer : ∀ pair ∈ relations, ∀ column, pair.2.vars.idxOf? name = some column →
      Matched varOrder bound pair →
      offered varOrder bound pair column ∈ offers relations name varOrder bound :=
    fun pair member column isColumn matched =>
      (mem_offers arity).mpr ⟨pair, member, column, isColumn, matched, rfl⟩
  rw [candidates, buildTrieIterators_eq]
  by_cases inhabited : offers relations name varOrder bound = []
  · rw [inhabited]
    refine iff_of_false List.not_mem_nil fun ⟨⟨pair, member, mentioned, matched⟩, _⟩ => ?_
    obtain ⟨column, isColumn⟩ := exists_column mentioned
    have some := isOffer pair member column isColumn matched
    rw [inhabited] at some
    cases some
  · rw [(intersect_spec inhabited offers_sorted).2]
    constructor
    · intro common
      refine ⟨?_, fun pair member mentioned matched => ?_⟩
      · obtain ⟨values, some⟩ := List.exists_mem_of_ne_nil _ inhabited
        obtain ⟨pair, member, column, isColumn, matched, -⟩ := (mem_offers arity).mp some
        exact ⟨pair, member, mem_of_column isColumn, matched⟩
      · obtain ⟨column, isColumn⟩ := exists_column mentioned
        exact (mem_offered isNext isColumn value).mp
          (common _ (isOffer pair member column isColumn matched))
    · rintro ⟨-, allowed⟩ values some
      obtain ⟨pair, member, column, isColumn, matched, rfl⟩ := (mem_offers arity).mp some
      exact (mem_offered isNext isColumn value).mpr
        (allowed pair member (mem_of_column isColumn) matched)

theorem candidates_sorted {relations : List AtomRelation} (name : String)
    (varOrder : List String) (bound : List Bytes) :
    (candidates relations name varOrder bound).Pairwise (· < ·) := by
  rw [candidates, buildTrieIterators_eq]
  by_cases inhabited : offers relations name varOrder bound = []
  · rw [inhabited]
    exact List.Pairwise.nil
  · exact (intersect_spec inhabited offers_sorted).1

end Wcoj

end JouleDB.Query
