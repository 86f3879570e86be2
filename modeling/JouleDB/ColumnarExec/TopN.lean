import JouleDB.ColumnarExec.Number
import JouleDB.Lib.Selection
import Mathlib.Data.String.Basic

/-!
# Ordered results

A grouped query returns the rows of its groups in the order of its keys, from an offset on and up to a
limit.  With a limit that is small against the number of groups, only the cells of the keys are made
for all groups, and the first groups are selected chunk by chunk.
-/

namespace JouleDB.ColumnarExec

variable {F : Type} [FloatNumber F]

/-- The largest size. -/
def usizeMax : Nat := 2 ^ 64 - 1

/-- Output value. -/
inductive Sv (F : Type) where
  | null
  | u (value : Nat)
  | i (value : Int)
  | f (value : F)
  | s (value : String)
  deriving DecidableEq

namespace Sv

def isNull : Sv F → Bool
  | .null => true
  | _ => false

def int? : Sv F → Option Int
  | .i value => some value
  | .u value => some value
  | _ => none

def float? : Sv F → Option F
  | .i value => some (FloatNumber.ofInt value)
  | .u value => some (FloatNumber.ofInt value)
  | .f value => some value
  | _ => none

/-- The order of values that are not null.  Values of different kinds are not ordered. -/
def cmpVal (first second : Sv F) : Ordering :=
  match first, second with
  | .s first, .s second => compare first second
  | _, _ =>
      match first.int?, second.int? with
      | some first, some second => compare first second
      | _, _ =>
          match first.float?, second.float? with
          | some first, some second => (FloatNumber.partialCmp first second).getD .eq
          | _, _ => .eq

end Sv

/-- A key of the order, which is a column of the output. -/
structure OrderKey where
  column : Nat
  descending : Bool
  nullsFirst : Option Bool
  deriving DecidableEq

/-- Compare two cells of a key. -/
def compareCells (key : OrderKey) (first second : Sv F) : Ordering :=
  let nullsFirst := key.nullsFirst.getD key.descending
  match first.isNull, second.isNull with
  | true, true => .eq
  | true, false => if nullsFirst then .lt else .gt
  | false, true => if nullsFirst then .gt else .lt
  | false, false =>
      let order := first.cmpVal second
      if key.descending then order.swap else order

/-- Compare two rows by the first key that tells them apart. -/
def compareRows : List OrderKey → List (Sv F) → List (Sv F) → Ordering
  | [], _, _ => .eq
  | key :: keys, first, second =>
      (compareCells key (first.getD key.column .null) (second.getD key.column .null)).then
        (compareRows keys first second)

/-- A row of cells that are stored row by row. -/
def rowOf (vals : List (Sv F)) (width index : Nat) : List (Sv F) :=
  (vals.drop (index * width)).take width

/-- Compare two groups: on ties the earlier one is first. -/
def mkCmp (vals : List (Sv F)) (width : Nat) (order : List OrderKey) (first second : Nat) :
    Ordering :=
  (compareRows order (rowOf vals width first) (rowOf vals width second)).then
    (compare first second)

/-- The cells of some groups in some columns, row by row. -/
def cellsOf (cell : Nat → Nat → Sv F) (groups columns : List Nat) : List (Sv F) :=
  groups.flatMap fun group => columns.map (cell group)

/-- Consecutive parts of a size. -/
def parChunks {α : Type} (size : Nat) (items : List α) : List (List α) :=
  if _rest : 0 < size ∧ 0 < items.length then
    items.take size :: parChunks size (items.drop size)
  else []
termination_by items.length
decreasing_by
  rw [List.length_drop]
  omega

/-- The number of groups that are needed from the first one on. -/
def takeOf (limit offset : Option Nat) : Option Nat :=
  limit.map fun limit => min (offset.getD 0 + limit) usizeMax

/-- Only few of the groups are needed. -/
def smallTop (order : List OrderKey) (take : Option Nat) (groups : Nat) : Bool :=
  !order.isEmpty &&
    take.any fun count => 0 < count && count ≤ 4096 && min (count * 8) usizeMax < groups

/-- The first groups, selected in chunks by the cells of the keys. -/
def candidates (selection : Selection Nat) (cell : Nat → Nat → Sv F) (groups : Nat)
    (order : List OrderKey) (count : Nat) : List Nat :=
  let vals := cellsOf cell (List.range groups) (order.map OrderKey.column)
  let order := order.mapIdx fun index key => { key with column := index }
  let cmp := mkCmp vals order.length order
  let selected := (parChunks 16384 (List.range groups)).flatMap (selection.truncate cmp count)
  sortUnstableBy cmp (selection.truncate cmp count selected)

/-- The groups in order, or the first of them. -/
def indices (selection : Selection Nat) (vals : List (Sv F)) (width groups : Nat)
    (order : List OrderKey) (take : Option Nat) : List Nat :=
  let all := List.range groups
  if order.isEmpty then all
  else
    let cmp := mkCmp vals width order
    match take with
    | some count =>
        if 0 < count then sortUnstableBy cmp (selection.truncate cmp count all)
        else sortUnstableBy cmp all
    | none => sortUnstableBy cmp all

/-- The rows that a query returns, for the cells of its groups. -/
def resultRows (selection : Selection Nat) (cell : Nat → Nat → Sv F) (groups width : Nat)
    (order : List OrderKey) (limit offset : Option Nat) : List (List (Sv F)) :=
  let off := offset.getD 0
  let take := takeOf limit offset
  let (vals, idx) :=
    if smallTop order take groups then
      let first := candidates selection cell groups order (take.getD 0)
      (cellsOf cell first (List.range width), List.range first.length)
    else
      let vals := cellsOf cell (List.range groups) (List.range width)
      (vals, indices selection vals width groups order take)
  let stop := min (take.getD usizeMax) idx.length
  ((idx.take stop).drop (min off stop)).map (rowOf vals width)

/-! ## The comparison is a total order -/

namespace Sv

def text? : Sv F → Option String
  | .s value => some value
  | _ => none

def NullOrInt (cell : Sv F) : Prop :=
  cell = .null ∨ (∃ value, cell = .u value) ∨ ∃ value, cell = .i value

def NullOrText (cell : Sv F) : Prop := cell = .null ∨ ∃ value, cell = .s value

end Sv

/-- The cells are nulls and integers, or nulls and strings. -/
def OneKind (cells : Nat → Sv F) : Prop :=
  (∀ index, (cells index).NullOrInt) ∨ ∀ index, (cells index).NullOrText

theorem compareCells_int (key : OrderKey) {first second : Sv F} (isInt : first.NullOrInt)
    (isInt' : second.NullOrInt) :
    compareCells key first second =
      compareOptions compare (key.nullsFirst.getD key.descending) key.descending first.int?
        second.int? := by
  rcases isInt with rfl | ⟨value, rfl⟩ | ⟨value, rfl⟩
  · rcases isInt' with rfl | ⟨value', rfl⟩ | ⟨value', rfl⟩ <;> rfl
  · rcases isInt' with rfl | ⟨value', rfl⟩ | ⟨value', rfl⟩ <;> rfl
  · rcases isInt' with rfl | ⟨value', rfl⟩ | ⟨value', rfl⟩ <;> rfl

theorem compareCells_text (key : OrderKey) {first second : Sv F} (isText : first.NullOrText)
    (isText' : second.NullOrText) :
    compareCells key first second =
      compareOptions compare (key.nullsFirst.getD key.descending) key.descending first.text?
        second.text? := by
  rcases isText with rfl | ⟨value, rfl⟩
  · rcases isText' with rfl | ⟨value', rfl⟩ <;> rfl
  · rcases isText' with rfl | ⟨value', rfl⟩ <;> rfl

/-- Cells of one kind are compared by a weak order. -/
theorem transCmp_compareCells (key : OrderKey) {cells : Nat → Sv F} (oneKind : OneKind cells) :
    Std.TransCmp fun first second => compareCells key (cells first) (cells second) := by
  rcases oneKind with isInt | isText
  · simp only [compareCells_int key (isInt _) (isInt _)]
    exact transCmp_comap (transCmp_compareOptions inferInstance _ _) fun index => (cells index).int?
  · simp only [compareCells_text key (isText _) (isText _)]
    exact transCmp_comap (transCmp_compareOptions inferInstance _ _) fun index =>
      (cells index).text?

theorem transCmp_compareRows {order : List OrderKey} {rows : Nat → List (Sv F)}
    (oneKind : ∀ key ∈ order, OneKind fun index => (rows index).getD key.column .null) :
    Std.TransCmp fun first second => compareRows order (rows first) (rows second) := by
  induction order with
  | nil =>
      exact {
        eq_swap := rfl
        isLE_trans := fun _ _ => rfl }
  | cons key keys ih =>
      obtain ⟨here, later⟩ := List.forall_mem_cons.mp oneKind
      exact transCmp_then (transCmp_compareCells key here) (ih later)

theorem transCmp_mkCmp {vals : List (Sv F)} {width : Nat} {order : List OrderKey}
    (oneKind : ∀ key ∈ order, OneKind fun index => (rowOf vals width index).getD key.column .null) :
    Std.TransCmp (mkCmp vals width order) :=
  transCmp_then (transCmp_compareRows oneKind) inferInstance

theorem lawfulEqCmp_mkCmp {vals : List (Sv F)} {width : Nat} {order : List OrderKey}
    (oneKind : ∀ key ∈ order, OneKind fun index => (rowOf vals width index).getD key.column .null) :
    Std.LawfulEqCmp (mkCmp vals width order) where
  compare_self := by
    intro index
    have isTrans := transCmp_mkCmp oneKind
    exact @Std.ReflCmp.cmp_eq_of_eq Nat (mkCmp vals width order) _ _ _ rfl
  eq_of_compare := by
    intro first second same
    exact Std.LawfulEqCmp.compare_eq_iff_eq.mp (Ordering.then_eq_eq.mp same).2

end JouleDB.ColumnarExec
