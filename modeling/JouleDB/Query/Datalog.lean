import JouleDB.Lib.FiniteMap

/-!
# Queries on Datalog facts

A query is a list of literals on the facts of predicates.  Rules are evaluated with `tryUnify`, which
extends a binding by the values of a fact.  Queries have a matching of their own: the facts of every
positive literal that have its constants are reported, one literal after the other, with the columns
of the last one.
-/

namespace JouleDB.Query.Datalog

variable {Number : Type} [DecidableEq Number]

/-! ## Programs -/

/-- The values of facts. -/
inductive Value (Number : Type) where
  | null
  | int (value : Int)
  | float (value : Number)
  | string (value : String)
  deriving DecidableEq

inductive Term (Number : Type) where
  | var (name : String)
  | string (value : String)
  | integer (value : Int)
  | float (value : Number)
  | wildcard
  | aggregate (function name : String)

structure Atom (Number : Type) where
  predicate : String
  terms : List (Term Number)

inductive ComparisonOp where
  | eq
  | neq
  | lt
  | gt
  | lte
  | gte

inductive Literal (Number : Type) where
  | positive (atom : Atom Number)
  | negated (atom : Atom Number)
  | comparison (left : Term Number) (op : ComparisonOp) (right : Term Number)
  | aggregate (function name : String)

/-- The facts of every predicate. -/
abbrev Db (Number : Type) := FiniteMap String (List (List (Value Number)))

/-- The facts of a predicate. -/
def Db.facts (db : Db Number) (predicate : String) : List (List (Value Number)) :=
  db[predicate]?.getD []

def termToValue : Term Number → Value Number
  | .string value => .string value
  | .integer value => .int value
  | .float value => .float value
  | .var name => .string name
  | .wildcard | .aggregate _ _ => .null

/-- The facts of a program. -/
def factBase (facts : List (Atom Number)) : Db Number :=
  facts.foldl (fun db fact =>
    db.insert fact.predicate (db.facts fact.predicate ++ [fact.terms.map termToValue])) ∅

/-! ## Unification -/

abbrev Binding (Number : Type) := FiniteMap String (Value Number)

/-- Unify a term with a value. -/
def unifyTerm (term : Term Number) (value : Value Number) (binding : Binding Number) :
    Option (Binding Number) :=
  match term with
  | .var name =>
      match binding[name]? with
      | some existing => if existing ≠ value then none else some binding
      | none => some (binding.insert name value)
  | .string text => if value ≠ .string text then none else some binding
  | .integer number => if value ≠ .int number then none else some binding
  | .float number => if value ≠ .float number then none else some binding
  | .wildcard | .aggregate _ _ => some binding

/-- Unify terms with the values at their places. -/
def unifyTerms : List (Term Number) → List (Value Number) → Binding Number →
    Option (Binding Number)
  | term :: terms, value :: values, binding =>
      (unifyTerm term value binding).bind (unifyTerms terms values)
  | _, _, binding => some binding

/-- Extend a binding so that an atom is a fact. -/
def tryUnify (atom : Atom Number) (row : List (Value Number)) (binding : Binding Number) :
    Option (Binding Number) :=
  if atom.terms.length ≠ row.length then none else unifyTerms atom.terms row binding

/-! ## Queries -/

/-- The columns of a literal: its variables, and its other places. -/
def columnsOf (atom : Atom Number) : List String :=
  atom.terms.mapIdx fun place term =>
    match term with
    | .var name => name
    | _ => "_" ++ toString place

/-- The check of a term of a query. -/
def constantFits (term : Term Number) (value : Value Number) : Bool :=
  match term with
  | .string text => value = .string text
  | .integer number => value = .int number
  | _ => true

/-- The check of a fact. -/
def rowFits : List (Term Number) → List (Value Number) → Bool
  | [], _ => true
  | _ :: _, [] => false
  | term :: terms, value :: values => constantFits term value && rowFits terms values

/-- What is reported. -/
structure Reported (Number : Type) where
  columns : List String
  rows : List (List (Value Number))

/-- Add the facts of a literal. -/
def answerLiteral (db : Db Number) (reported : Reported Number) :
    Literal Number → Reported Number
  | .positive atom =>
      { columns := columnsOf atom
        rows := reported.rows ++ (db.facts atom.predicate).filter (rowFits atom.terms) }
  | .negated _ | .comparison _ _ _ | .aggregate _ _ => reported

/-- The answers to the queries of a program. -/
def answerQueries (db : Db Number) (goals : List (List (Literal Number))) : Reported Number :=
  goals.foldl (fun reported goal => goal.foldl (answerLiteral db) reported) ⟨[], []⟩

/-! ## Answers -/

def variablesOf (terms : List (Term Number)) : List String :=
  terms.filterMap fun
    | .var name => some name
    | _ => none

/-- The atoms of the positive literals. -/
def positives (goal : List (Literal Number)) : List (Atom Number) :=
  goal.filterMap fun
    | .positive atom => some atom
    | _ => none

/-- The atoms of the negated literals. -/
def negatives (goal : List (Literal Number)) : List (Atom Number) :=
  goal.filterMap fun
    | .negated atom => some atom
    | _ => none

/-- The variables of a query. -/
def goalVariables (goal : List (Literal Number)) : List String :=
  (positives goal ++ negatives goal).flatMap fun atom => variablesOf atom.terms

/-- A term has a value under a substitution. -/
def TermIs (binding : Binding Number) : Term Number → Value Number → Prop
  | .var name, value => binding[name]? = some value
  | .string text, value => value = .string text
  | .integer number, value => value = .int number
  | .float number, value => value = .float number
  | .wildcard, _ | .aggregate _ _, _ => True

/-- An atom is a fact under a substitution. -/
def IsFact (db : Db Number) (binding : Binding Number) (atom : Atom Number) : Prop :=
  ∃ row ∈ db.facts atom.predicate, atom.terms.length = row.length ∧
    ∀ pair ∈ atom.terms.zip row, TermIs binding pair.1 pair.2

/-- A substitution of the variables of a query under which all positive literals are facts and no
negated literal is. -/
structure IsAnswer (db : Db Number) (goal : List (Literal Number)) (binding : Binding Number) :
    Prop where
  binds : ∀ name, name ∈ binding ↔ name ∈ goalVariables goal
  positive : ∀ atom ∈ positives goal, IsFact db binding atom
  negated : ∀ atom ∈ negatives goal, ¬ IsFact db binding atom

/-- A reported row is a substitution: the columns that are variables have their values, and every
variable has a column. -/
structure Reads (names columns : List String) (row : List (Value Number))
    (binding : Binding Number) : Prop where
  value : ∀ name value, (name, value) ∈ columns.zip row → name ∈ names →
    binding[name]? = some value
  column : ∀ name ∈ binding, ∃ value, (name, value) ∈ columns.zip row

/-- The reported rows are exactly the answers to a query. -/
structure Exact (db : Db Number) (goal : List (Literal Number)) : Prop where
  sound : ∀ row ∈ (answerQueries db [goal]).rows, ∃ binding,
    Reads (goalVariables goal) (answerQueries db [goal]).columns row binding ∧ IsAnswer db goal binding
  complete : ∀ binding, IsAnswer db goal binding →
    ∃ row ∈ (answerQueries db [goal]).rows,
      Reads (goalVariables goal) (answerQueries db [goal]).columns row binding

/-! ## The condition -/

/-- Only the variables of a literal. -/
def onlyVariables (terms : List (Term Number)) : List (Term Number) :=
  terms.map fun
    | .var name => .var name
    | _ => .wildcard

/-- A row binds, under the columns of a literal, all variables of a query, and this binding unifies
every positive literal with a fact and no negated literal. -/
def Joins (db : Db Number) (goal : List (Literal Number)) (last : Atom Number)
    (row : List (Value Number)) : Prop :=
  ∃ binding ∈ unifyTerms (onlyVariables last.terms) row ∅,
    (∀ name ∈ goalVariables goal, name ∈ binding) ∧
    (∀ atom ∈ positives goal, ∃ fact ∈ db.facts atom.predicate,
      (tryUnify atom fact binding).isSome = true) ∧
    ∀ atom ∈ negatives goal, ∀ fact ∈ db.facts atom.predicate, tryUnify atom fact binding = none

/-- Every fact that has the constants of a positive literal also joins.  Without positive literals, a
negated literal without variables is a fact. -/
def Unhindered (db : Db Number) (goal : List (Literal Number)) : Prop :=
  match (positives goal).getLast? with
  | some last => ∀ atom ∈ positives goal, ∀ row ∈ db.facts atom.predicate,
      rowFits atom.terms row = true → Joins db goal last row
  | none => ∃ atom ∈ negatives goal, variablesOf atom.terms = [] ∧
      ∃ fact ∈ db.facts atom.predicate, (tryUnify atom fact ∅).isSome = true

end JouleDB.Query.Datalog
