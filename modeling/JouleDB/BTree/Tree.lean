import JouleDB.BTree.Node
import JouleDB.Lib.SeparatorChain

/-!
# Trees of nodes

The copy-on-write updates without pages: a tree of height `h` is a node whose children are
trees of height `h - 1`, so that all leaves are at the same depth.  Every function here
follows the function of the engine with the same name; a panic of the engine is `none`.
-/

namespace JouleDB.BTree

/-- The children of the root of a tree of a given height. -/
def Sub : Nat → Type
  | 0 => Empty
  | height + 1 => Node (Sub height)

/-- A tree whose leaves are `height` levels below its root. -/
abbrev Tree (height : Nat) := Node (Sub height)

/-- A tree of any height. -/
structure RootedTree where
  height : Nat
  root : Tree height

namespace Node

variable {γ : Type}

/-! ## A node and its children -/

/-- Split a child. -/
def splitChild (parent : Node (Node γ)) (childIdx : Nat) : Option (Node (Node γ)) := do
  let child ← parent.children[childIdx]?
  let (left, right, medianKey) ← child.split
  let keys ← insertAt parent.keys childIdx medianKey
  let children ← setAt parent.children childIdx left
  let children ← insertAt children (childIdx + 1) right
  some { parent with keys := keys, children := children }

/-- Split the child that a key is routed to if it is full. -/
def makeRoom (parent : Node (Node γ)) (childIdx : Nat) (needsSplit : Bool) :
    Option (Node (Node γ)) :=
  if needsSplit then splitChild parent childIdx else some parent

/-- Borrow from the left sibling of a child. -/
def borrowFromLeft (parent : Node (Node γ)) (childIdx : Nat) : Option (Node (Node γ)) := do
  let left ← parent.children[childIdx - 1]?
  let child ← parent.children[childIdx]?
  let separator ← parent.keys[childIdx - 1]?
  let (newSeparator, left, child) ← lendLeft separator left child
  let keys ← setAt parent.keys (childIdx - 1) newSeparator
  let children ← setAt parent.children (childIdx - 1) left
  let children ← setAt children childIdx child
  some { parent with keys := keys, children := children }

/-- Borrow from the right sibling of a child. -/
def borrowFromRight (parent : Node (Node γ)) (childIdx : Nat) : Option (Node (Node γ)) := do
  let child ← parent.children[childIdx]?
  let right ← parent.children[childIdx + 1]?
  let separator ← parent.keys[childIdx]?
  let (newSeparator, child, right) ← lendRight separator child right
  let keys ← setAt parent.keys childIdx newSeparator
  let children ← setAt parent.children childIdx child
  let children ← setAt children (childIdx + 1) right
  some { parent with keys := keys, children := children }

/-- Merge a child into its left sibling. -/
def mergeWithLeft (parent : Node (Node γ)) (childIdx : Nat) : Option (Node (Node γ)) := do
  let left ← parent.children[childIdx - 1]?
  let child ← parent.children[childIdx]?
  let separator ← parent.keys[childIdx - 1]?
  let keys ← removeAt parent.keys (childIdx - 1)
  let children ← removeAt parent.children childIdx
  let children ← setAt children (childIdx - 1) (absorb separator left child)
  some { parent with keys := keys, children := children }

/-- Merge a child with its right sibling. -/
def mergeWithRight (parent : Node (Node γ)) (childIdx : Nat) : Option (Node (Node γ)) := do
  let child ← parent.children[childIdx]?
  let right ← parent.children[childIdx + 1]?
  let separator ← parent.keys[childIdx]?
  let keys ← removeAt parent.keys childIdx
  let children ← removeAt parent.children (childIdx + 1)
  let children ← setAt children childIdx (absorb separator child right)
  some { parent with keys := keys, children := children }

/-! ## Rebalancing -/

/-- The left sibling has an entry to spare. -/
def lendsLeft (maxPageData : Nat) (parent : Node (Node γ)) (childIdx : Nat) : Option Bool :=
  if 0 < childIdx then do
    let left ← parent.children[childIdx - 1]?
    some (!left.isUnderflowingBySize maxPageData)
  else
    some false

/-- The right sibling has an entry to spare. -/
def lendsRight (maxPageData : Nat) (parent : Node (Node γ)) (childIdx : Nat) : Option Bool :=
  if childIdx < parent.children.length - 1 then do
    let right ← parent.children[childIdx + 1]?
    some (!right.isUnderflowingBySize maxPageData)
  else
    some false

/-- The child fits into its left sibling. -/
def fitsLeft (maxPageData : Nat) (parent : Node (Node γ)) (child : Node γ) (childIdx : Nat) :
    Option Bool :=
  if 0 < childIdx then do
    let left ← parent.children[childIdx - 1]?
    let separator ← parent.keys[childIdx - 1]?
    some (left.canMergeWith child separator maxPageData)
  else
    some false

/-- The right sibling fits into the child. -/
def fitsRight (maxPageData : Nat) (parent : Node (Node γ)) (child : Node γ) (childIdx : Nat) :
    Option Bool :=
  if childIdx < parent.children.length - 1 then do
    let right ← parent.children[childIdx + 1]?
    let separator ← parent.keys[childIdx]?
    some (child.canMergeWith right separator maxPageData)
  else
    some false

/-- Rebalance after a child has lost an entry. -/
def rebalanceAfterDelete (maxPageData : Nat) (parent : Node (Node γ)) (childIdx : Nat) :
    Option (Node (Node γ)) := do
  let child ← parent.children[childIdx]?
  if !child.isUnderflowingBySize maxPageData then
    some parent
  else if ← lendsLeft maxPageData parent childIdx then
    borrowFromLeft parent childIdx
  else if ← lendsRight maxPageData parent childIdx then
    borrowFromRight parent childIdx
  else if ← fitsLeft maxPageData parent child childIdx then
    mergeWithLeft parent childIdx
  else if ← fitsRight maxPageData parent child childIdx then
    mergeWithRight parent childIdx
  else
    some parent

/-- Rebalance a node if its child underflows. -/
def rebalanceIf (maxPageData : Nat) (childUnderflow : Bool) (parent : Node (Node γ))
    (childIdx : Nat) : Option (Node (Node γ)) :=
  if childUnderflow then rebalanceAfterDelete maxPageData parent childIdx else some parent

end Node

namespace Tree

variable (find : Finder) (maxPageData : Nat)

/-! ## Updates and lookups -/

/-- Insert into a tree whose root is not full. -/
def insertNonFull (key value : Bytes) : (height : Nat) → Tree height → Option (Tree height)
  | 0, tree => tree.writeEntry find key value
  | height + 1, tree => do
      let child : Tree height ← tree.children[tree.childIndex find key]?
      let tree : Node (Tree height) ←
        Node.makeRoom tree (tree.childIndex find key) (child.isFullBySize maxPageData)
      let target ← tree.children[tree.childIndex find key]?
      let newTarget ← insertNonFull key value height target
      let children ← setAt tree.children (tree.childIndex find key) newTarget
      some { tree with children := children }

/-- Delete from a tree: nothing if the key is absent, else whether the root underflows and
the new tree. -/
def deleteRecursive (key : Bytes) :
    (height : Nat) → Tree height → Option (Option (Bool × Tree height))
  | 0, tree =>
      if tree.keys[tree.findKeyIndex find key]? = some key then do
        let tree ← tree.removeEntry (tree.findKeyIndex find key)
        some (some (tree.isUnderflowingBySize maxPageData, tree))
      else
        some none
  | height + 1, tree => do
      let childIdx := tree.childIndex find key
      let child ← tree.children[childIdx]?
      match ← deleteRecursive key height child with
      | none => some none
      | some (childUnderflow, newChild) =>
          let children ← setAt tree.children childIdx newChild
          let tree : Node (Tree height) ←
            Node.rebalanceIf maxPageData childUnderflow { tree with children := children } childIdx
          some (some (tree.isUnderflowingBySize maxPageData, tree))

/-- Follow a key down to a leaf. -/
def search (key : Bytes) : (height : Nat) → Tree height → Option (Option Bytes)
  | 0, tree =>
      if tree.keys[tree.findKeyIndex find key]? = some key then
        tree.values[tree.findKeyIndex find key]?
      else
        some none
  | height + 1, tree => do
      let child ← tree.children[tree.childIndex find key]?
      search key height child

/-- Put a new root above the halves of a tree. -/
def splitRoot {height : Nat} (tree : Tree height) : Option (Tree (height + 1)) := do
  let (left, right, medianKey) ← tree.split
  some ⟨[medianKey], [], [left, right], false⟩

end Tree

namespace RootedTree

variable (find : Finder) (maxPageData : Nat)

/-- The tree of a new database. -/
def empty : RootedTree := ⟨0, Node.newLeaf⟩

/-- Make room in the root. -/
def makeRoom (tree : RootedTree) : Option RootedTree :=
  if tree.root.isFullBySize maxPageData then do
    let root ← Tree.splitRoot tree.root
    some ⟨tree.height + 1, root⟩
  else
    some tree

/-- Insert or overwrite a key. -/
def put (tree : RootedTree) (key value : Bytes) : Option RootedTree := do
  let tree ← tree.makeRoom maxPageData
  let root ← Tree.insertNonFull find maxPageData key value tree.height tree.root
  some ⟨tree.height, root⟩

/-- Replace an internal root that has only one child by the child. -/
def collapse : RootedTree → RootedTree
  | ⟨0, root⟩ => ⟨0, root⟩
  | ⟨height + 1, root⟩ =>
      match root.keys, root.children with
      | [], [child] => ⟨height, child⟩
      | _, _ => ⟨height + 1, root⟩

/-- Delete a key; returns whether it was there. -/
def delete (tree : RootedTree) (key : Bytes) : Option (Bool × RootedTree) := do
  match ← Tree.deleteRecursive find maxPageData key tree.height tree.root with
  | none => some (false, tree.collapse)
  | some (_, root) => some (true, RootedTree.collapse ⟨tree.height, root⟩)

/-- Look a key up. -/
def search (tree : RootedTree) (key : Bytes) : Option (Option Bytes) :=
  Tree.search find key tree.height tree.root

end RootedTree

end JouleDB.BTree
