import JouleDB.BTree.Runs
import JouleDB.Lib.Iteration

/-!
# Range scans

A range iterator walks over a tree with a stack of nodes, the deepest on top.  Each is paired with an
index: the next key of a leaf, or the next child of an internal node.  As in the updates of trees,
page ids are replaced by the subtrees that they name.
-/

namespace JouleDB.BTree

/-- A bound of a scan. -/
inductive ScanBound where
  | included (key : Bytes)
  | excluded (key : Bytes)
  | unbounded
  deriving DecidableEq

/-- The direction of a scan. -/
inductive ScanDirection where
  | forward
  | backward
  deriving DecidableEq

/-- A node with the index of what is to be visited next in it. -/
abbrev ScanFrame := RootedTree × Nat

/-- An iterator over a range of keys. -/
structure RangeIterator where
  tree : RootedTree
  /-- The stack, its top first. -/
  stack : List ScanFrame
  startBound : ScanBound
  endBound : ScanBound
  direction : ScanDirection
  initialized : Bool
  finished : Bool

namespace ScanBound

/-- The key satisfies a start bound. -/
def isAfterStart (start : ScanBound) (key : Bytes) : Bool :=
  match start with
  | unbounded => true
  | included bound => bound ≤ key
  | excluded bound => bound < key

/-- The key satisfies an end bound. -/
def isBeforeEnd (stop : ScanBound) (key : Bytes) : Bool :=
  match stop with
  | unbounded => true
  | included bound => key ≤ bound
  | excluded bound => key < bound

variable {bound : ScanBound} {low high : Bytes}

theorem isBeforeEnd_of_le (le : low ≤ high) (inside : bound.isBeforeEnd high = true) :
    bound.isBeforeEnd low = true := by
  cases bound with
  | unbounded => rfl
  | included key => exact decide_eq_true (le.trans (of_decide_eq_true inside))
  | excluded key => exact decide_eq_true (le.trans_lt (of_decide_eq_true inside))

end ScanBound

/-- The entries of a map between two bounds, each once and in order. -/
structure ExactScan (map : Bytes → Option Bytes) (start stop : ScanBound)
    (order : Bytes → Bytes → Prop) (collected : Collected (Bytes × Bytes)) : Prop where
  completes : collected.panics = false
  ordered : collected.items.Pairwise fun early late => order early.1 late.1
  stored : ∀ key value, (key, value) ∈ collected.items ↔
    map key = some value ∧ start.isAfterStart key = true ∧ stop.isBeforeEnd key = true

/-- Index of the last item that meets a test. -/
def rposition {α : Type} (test : α → Bool) : List α → Option Nat
  | [] => none
  | item :: items =>
      match rposition test items with
      | some index => some (index + 1)
      | none => if test item then some 0 else none

namespace RangeIterator

variable (find : Finder)

/-- The key is within both bounds. -/
def isInRange (iterator : RangeIterator) (key : Bytes) : Bool :=
  iterator.startBound.isAfterStart key && iterator.endBound.isBeforeEnd key

/-! ## Forward -/

/-- Index of the child of an internal node in which a forward scan starts. -/
def startChild {γ : Type} (start : ScanBound) (node : Node γ) : Nat :=
  match start with
  | .unbounded => 0
  | .included key => node.findKeyIndex find key
  | .excluded key => node.findKeyIndex find key

/-- The stack at the start of a forward scan. -/
def descendToStartForward (start : ScanBound) : (height : Nat) → Tree height → List ScanFrame
  | 0, leaf => [(⟨0, leaf⟩, leaf.keys.findIdx start.isAfterStart)]
  | height + 1, node =>
      (match node.children[startChild find start node]? with
        | none => []
        | some child => descendToStartForward start height child) ++
      [(⟨height + 1, node⟩, startChild find start node + 1)]

/-- The nodes on the left side of a tree. -/
def descendToLeftmost : (height : Nat) → Tree height → List ScanFrame
  | 0, leaf => [(⟨0, leaf⟩, 0)]
  | height + 1, node =>
      (match node.children.head? with
        | none => []
        | some child => descendToLeftmost height child) ++
      [(⟨height + 1, node⟩, 0)]

/-- One round of the loop of a forward scan. -/
def popForward (iterator : RangeIterator) : Round RangeIterator (Bytes × Bytes) :=
  match iterator.stack with
  | [] => .ended { iterator with finished := true }
  | (⟨0, leaf⟩, index) :: stack =>
      match leaf.keys[index]? with
      | none => .again { iterator with stack := stack }
      | some key =>
          if iterator.endBound.isBeforeEnd key then
            let rest := { iterator with stack := (⟨0, leaf⟩, index + 1) :: stack }
            if iterator.isInRange key then
              match leaf.values[index]? with
              | none => .panic
              | some none => .again rest
              | some (some value) => .item (key, value) rest
            else
              .again rest
          else
            .ended { iterator with stack := stack, finished := true }
  | (⟨height + 1, node⟩, index) :: stack =>
      match node.children[index]? with
      | none => .again { iterator with stack := stack }
      | some child =>
          .again { iterator with
            stack := descendToLeftmost height child ++ (⟨height + 1, node⟩, index + 1) :: stack }

/-! ## Backward -/

/-- Index of the child of an internal node in which a backward scan starts; there has to be a
child. -/
def endChild {γ : Type} (stop : ScanBound) (node : Node γ) : Option Nat :=
  if node.children = [] then
    none
  else
    match stop with
    | .unbounded => some (node.children.length - 1)
    | .included key => some (min (node.findKeyIndex find key) (node.children.length - 1))
    | .excluded key => some (min (node.findKeyIndex find key) (node.children.length - 1))

/-- Index of the key of a leaf at which a backward scan starts. -/
def endIndex (stop : ScanBound) (keys : List Bytes) : Option Nat :=
  match stop with
  | .unbounded => some (keys.length - 1)
  | .included _ => rposition stop.isBeforeEnd keys
  | .excluded _ => rposition stop.isBeforeEnd keys

/-- The stack at the start of a backward scan. -/
def descendToStartBackward (stop : ScanBound) :
    (height : Nat) → Tree height → Option (List ScanFrame)
  | 0, leaf =>
      match endIndex stop leaf.keys with
      | none => some []
      | some index => some [(⟨0, leaf⟩, index)]
  | height + 1, node => do
      let childIdx ← endChild find stop node
      let child ← node.children[childIdx]?
      let stack ← descendToStartBackward stop height child
      some (stack ++ [(⟨height + 1, node⟩, childIdx)])

/-- The nodes on the right side of a tree. -/
def descendToRightmost : (height : Nat) → Tree height → List ScanFrame
  | 0, leaf => [(⟨0, leaf⟩, leaf.keys.length - 1)]
  | height + 1, node =>
      (match node.children.getLast? with
        | none => []
        | some child => descendToRightmost height child) ++
      [(⟨height + 1, node⟩, node.children.length - 1)]

/-- The frame of the position before an index. -/
def previous (tree : RootedTree) (index : Nat) : List ScanFrame :=
  if 0 < index then [(tree, index - 1)] else []

/-- One round of the loop of a backward scan. -/
def popBackward (iterator : RangeIterator) : Round RangeIterator (Bytes × Bytes) :=
  match iterator.stack with
  | [] => .ended { iterator with finished := true }
  | (⟨0, leaf⟩, index) :: stack =>
      match leaf.keys[index]? with
      | none => .panic
      | some key =>
          if iterator.startBound.isAfterStart key then
            let rest := { iterator with stack := previous ⟨0, leaf⟩ index ++ stack }
            if iterator.isInRange key then
              match leaf.values[index]? with
              | none => .panic
              | some none => .again rest
              | some (some value) => .item (key, value) rest
            else
              .again rest
          else
            .ended { iterator with stack := stack, finished := true }
  | (⟨height + 1, node⟩, index) :: stack =>
      .again { iterator with
        stack := (match node.children[index]? with
          | none => []
          | some child => descendToRightmost height child) ++
          previous ⟨height + 1, node⟩ index ++ stack }

/-! ## Iterating -/

/-- One round: the first call descends to the start, and then entries are looked for. -/
def round (iterator : RangeIterator) : Round RangeIterator (Bytes × Bytes) :=
  if iterator.finished then
    .ended iterator
  else if iterator.initialized then
    match iterator.direction with
    | .forward => iterator.popForward
    | .backward => iterator.popBackward
  else
    match iterator.direction with
    | .forward => .again { iterator with
        stack := descendToStartForward find iterator.startBound iterator.tree.height
          iterator.tree.root
        initialized := true }
    | .backward =>
        match descendToStartBackward find iterator.endBound iterator.tree.height
            iterator.tree.root with
        | none => .panic
        | some stack => .again { iterator with stack := stack, initialized := true }

end RangeIterator

namespace RootedTree

/-- An iterator over the entries between two bounds. -/
def range (tree : RootedTree) (start stop : ScanBound) (direction : ScanDirection) : RangeIterator :=
  ⟨tree, [], start, stop, direction, false, false⟩

end RootedTree

end JouleDB.BTree
