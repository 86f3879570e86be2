import JouleDB.Lib.Bytes
import JouleDB.Lib.Vec
import Mathlib.Data.List.Lex
import Mathlib.Order.Fin.Basic

/-!
# B-tree nodes

A node has keys and, in a leaf, one value for each key or, in an internal node, one child
more than it has keys.  The node functions do not look at the children, so that they are
the same for nodes whose children are page ids and for nodes whose children are trees.
-/

namespace JouleDB.BTree

/-- Maximum number of keys per node. -/
def maxKeys : Nat := 256

/-- How a key is looked up in the keys of a node. -/
abbrev Finder := List Bytes → Bytes → Nat

/-- What `binary_search_by` documents: in a sorted list the index of a match or, if there is
none, the place where the key could be inserted. -/
structure Finder.Documented (find : Finder) : Prop where
  inside : ∀ keys key, find keys key ≤ keys.length
  present : ∀ {keys : List Bytes} {key : Bytes}, keys.Pairwise (· ≤ ·) → key ∈ keys →
    keys[find keys key]? = some key
  absent : ∀ {keys : List Bytes} {key : Bytes}, keys.Pairwise (· ≤ ·) → key ∉ keys →
    (∀ other ∈ keys.take (find keys key), other < key) ∧
      ∀ other ∈ keys.drop (find keys key), key < other

/-- A B-tree node with children of any type. -/
structure Node (γ : Type) where
  keys : List Bytes
  values : List (Option Bytes)
  children : List γ
  isLeaf : Bool
  deriving DecidableEq, Repr

namespace Node

variable {γ δ : Type}

/-- An empty leaf. -/
def newLeaf : Node γ := ⟨[], [], [], true⟩

/-- Index of a key, or of the place where it belongs. -/
def findKeyIndex (find : Finder) (node : Node γ) (key : Bytes) : Nat := find node.keys key

/-- Index of the child that a key is routed to: a key equal to a separator goes to the
right of it. -/
def childIndex (find : Finder) (node : Node γ) (key : Bytes) : Nat :=
  let index := node.findKeyIndex find key
  if node.keys[index]? = some key then index + 1 else index

/-- Size of the serialized node with all values inline. -/
def serializedSize (node : Node γ) : Nat :=
  1 + 4 + (node.keys.map fun key => 4 + key.length).sum +
    if node.isLeaf then
      (node.values.map fun value =>
        1 + match value with
          | some bytes => 4 + bytes.length
          | none => 0).sum
    else
      4 + node.children.length * 8

/-- The node has too many keys or fills more than half of a page. -/
def isFullBySize (node : Node γ) (maxPageData : Nat) : Bool :=
  node.keys.length ≥ maxKeys || node.serializedSize > maxPageData / 2

/-- The node fills less than a quarter of a page. -/
def isUnderflowingBySize (node : Node γ) (maxPageData : Nat) : Bool :=
  node.serializedSize < maxPageData / 4

/-- The node can absorb another one and stay below nine tenths of a page. -/
def canMergeWith (node other : Node γ) (separator : Bytes) (maxPageData : Nat) : Bool :=
  let merged := node.serializedSize + other.serializedSize - (1 + 4)
  let merged := if node.isLeaf then merged else merged + (4 + separator.length) - 4
  merged ≤ maxPageData * 9 / 10

/-- Split a node in the middle of its keys.  The middle key goes to the right half of a
leaf; an internal node gives it away. -/
def split (node : Node γ) : Option (Node γ × Node γ × Bytes) := do
  let middle := node.keys.length / 2
  let medianKey ← node.keys[middle]?
  if node.isLeaf then
    if middle ≤ node.values.length then
      some (⟨node.keys.take middle, node.values.take middle, node.children, true⟩,
        ⟨node.keys.drop middle, node.values.drop middle, [], true⟩, medianKey)
    else
      none
  else if middle + 1 ≤ node.children.length then
    some (⟨node.keys.take middle, node.values, node.children.take (middle + 1), false⟩,
      ⟨node.keys.drop (middle + 1), [], node.children.drop (middle + 1), false⟩, medianKey)
  else
    none

/-- Write an entry of a leaf. -/
def writeEntry (find : Finder) (node : Node γ) (key value : Bytes) : Option (Node γ) := do
  let index := node.findKeyIndex find key
  if node.keys[index]? = some key then
    let values ← setAt node.values index (some value)
    some { node with values := values }
  else
    let keys ← insertAt node.keys index key
    let values ← insertAt node.values index (some value)
    some { node with keys := keys, values := values }

/-- Remove the entry of a leaf at an index. -/
def removeEntry (node : Node γ) (index : Nat) : Option (Node γ) := do
  let keys ← removeAt node.keys index
  let values ← removeAt node.values index
  some { node with keys := keys, values := values }

/-- Move the last entry or child of the left sibling to a node.  Returns the new separator
and the two nodes. -/
def lendLeft (separator : Bytes) (left node : Node γ) : Option (Bytes × Node γ × Node γ) := do
  let borrowedKey ← left.keys.getLast?
  if node.isLeaf then
    let borrowedValue ← left.values.getLast?
    some (borrowedKey, { left with keys := left.keys.dropLast, values := left.values.dropLast },
      { node with keys := borrowedKey :: node.keys, values := borrowedValue :: node.values })
  else
    let borrowedChild ← left.children.getLast?
    some (borrowedKey,
      { left with keys := left.keys.dropLast, children := left.children.dropLast },
      { node with keys := separator :: node.keys, children := borrowedChild :: node.children })

/-- Move the first entry or child of the right sibling to a node.  The new separator of
leaves is the next key of the sibling, which has to exist. -/
def lendRight (separator : Bytes) (node right : Node γ) : Option (Bytes × Node γ × Node γ) := do
  let borrowedKey ← right.keys.head?
  if node.isLeaf then
    let borrowedValue ← right.values.head?
    let nextKey ← right.keys.tail.head?
    some (nextKey,
      { node with keys := node.keys ++ [borrowedKey], values := node.values ++ [borrowedValue] },
      { right with keys := right.keys.tail, values := right.values.tail })
  else
    let borrowedChild ← right.children.head?
    some (borrowedKey,
      { node with keys := node.keys ++ [separator], children := node.children ++ [borrowedChild] },
      { right with keys := right.keys.tail, children := right.children.tail })

/-- Append a right sibling to a node, with the separator between them in internal nodes. -/
def absorb (separator : Bytes) (node right : Node γ) : Node γ :=
  if node.isLeaf then
    { node with keys := node.keys ++ right.keys, values := node.values ++ right.values }
  else
    { node with
      keys := node.keys ++ [separator] ++ right.keys
      children := node.children ++ right.children }

/-! ## The node functions do not look at the children -/

variable (change : γ → δ)

end Node

end JouleDB.BTree
