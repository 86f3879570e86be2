import JouleDB.Art.ChildTable
import JouleDB.Lib.Run

/-!
# Nodes of the adaptive radix tree

A leaf holds a whole key.  An inner node holds the bytes that all keys below it share from its depth
on, of which only the first ten are stored: a lookup skips the others, and compares the whole key at
the leaf.
-/

namespace JouleDB.Art

/-- The number of prefix bytes that a node stores. -/
def maxPrefixLen : Nat := 10

/-- The compressed path of a node. -/
structure Prefix where
  /-- The stored bytes, filled up with zeros. -/
  bytes : Bytes
  /-- The length, which may exceed the number of stored bytes. -/
  len : Nat
  deriving DecidableEq

/-- The number of leading bytes that two byte strings share. -/
def commonLength : Bytes → Bytes → Nat
  | first :: rest, second :: others => if first = second then commonLength rest others + 1 else 0
  | _, _ => 0

namespace Prefix

def empty : Prefix where
  bytes := List.replicate maxPrefixLen 0
  len := 0

def fromSlice (source : Bytes) : Prefix where
  bytes := source.take maxPrefixLen ++ List.replicate (maxPrefixLen - source.length) 0
  len := source.length

def inlineLen (path : Prefix) : Nat := min path.len maxPrefixLen

/-- The bytes that can be compared. -/
def inlineBytes (path : Prefix) : Bytes := path.bytes.take path.inlineLen

/-- The number of stored bytes that a key matches from a depth on. -/
def checkPrefix (path : Prefix) (key : Bytes) (depth : Nat) : Nat :=
  commonLength path.inlineBytes (key.drop depth)

/-- What is left of a path when a node is put above it that takes the first `matched` bytes, and
one more for the edge. -/
def afterSplit (path : Prefix) (matched : Nat) : Prefix :=
  let start := matched + 1
  let remaining := path.len - start
  if 0 < remaining ∧ start < path.inlineLen then
    fromSlice ((path.bytes.take (min (start + remaining) path.inlineLen)).drop start)
  else { empty with len := remaining }

/-- The path of an only child that takes the place of its parent. -/
def merge (parent : Prefix) (keyByte : Byte) (child : Prefix) : Prefix :=
  { fromSlice ((parent.inlineBytes ++ keyByte :: child.inlineBytes).take maxPrefixLen) with
    len := parent.len + 1 + child.len }

end Prefix

/-- A node of the tree. -/
inductive ArtNode where
  | leaf (key value : Bytes)
  | inner (path : Prefix) (layout : Layout ArtNode)

/-- An entry of an index. -/
structure IndexEntry where
  key : Bytes
  value : Bytes
  deriving DecidableEq

namespace ArtNode

/-- The leaf of a key. -/
def artGet (node : ArtNode) (key : Bytes) (depth : Nat) : Option IndexEntry :=
  match node with
  | leaf leafKey value => if leafKey = key then some ⟨leafKey, value⟩ else none
  | inner path layout =>
      if path.checkPrefix key depth < path.inlineLen then none
      else if inside : depth + path.len < key.length then
        match layout.findChild key[depth + path.len] with
        | some child => child.artGet key (depth + path.len + 1)
        | none => none
      else none
termination_by key.length - depth

/-- A small node over an old subtree and a new leaf. -/
def branch (path : Prefix) (oldByte : Byte) (old : ArtNode) (newByte : Byte) (new : ArtNode) :
    ArtNode :=
  inner path <|
    if oldByte ≤ newByte then
      let table := (Layout.node4 []).addChild oldByte old
      -- with equal bytes the new leaf is dropped
      if oldByte ≠ newByte then table.addChild newByte new else table
    else ((Layout.node4 []).addChild newByte new).addChild oldByte old

def artInsertInner (node : ArtNode) (key value : Bytes) (depth : Nat) : ArtNode :=
  match node with
  | leaf leafKey old =>
      if leafKey = key then leaf leafKey value
      else
        let common := commonLength (leafKey.drop depth) (key.drop depth)
        -- a key that ends here is given the byte 0
        branch (Prefix.fromSlice ((key.drop depth).take common))
          (leafKey.getD (depth + common) 0) (leaf leafKey old)
          (key.getD (depth + common) 0) (leaf key value)
  | inner path layout =>
      let matched := path.checkPrefix key depth
      if matched < path.inlineLen then
        match key[depth + matched]? with
        -- the key is a prefix of the keys below: nothing is done
        | none => inner path layout
        | some newByte =>
            branch (Prefix.fromSlice (path.bytes.take matched))
              (path.bytes.getD matched 0) (inner (path.afterSplit matched) layout)
              newByte (leaf key value)
      else if inside : depth + path.len < key.length then
        match layout.findChild key[depth + path.len] with
        | some child =>
            inner path (layout.setChild key[depth + path.len]
              (child.artInsertInner key value (depth + path.len + 1)))
        | none => inner path (layout.insertChild key[depth + path.len] (leaf key value))
      -- the key ends at this node: nothing is done
      else inner path layout
termination_by key.length - depth

def artInsert (node : Option ArtNode) (key value : Bytes) : ArtNode :=
  match node with
  | none => leaf key value
  | some node => node.artInsertInner key value 0

/-- Put the only child of a small node in its place. -/
def collapse (path : Prefix) : Layout ArtNode → ArtNode
  | .node4 [(_, leaf key value)] => leaf key value
  | .node4 [(keyByte, inner childPath layout)] => inner (path.merge keyByte childPath) layout
  | layout => inner path layout

/-- Delete a key: `none` when it is not there and the node stays as it is, otherwise what remains of
the node. -/
def artDelete (node : ArtNode) (key : Bytes) (depth : Nat) : Option (Option ArtNode) :=
  match node with
  | leaf leafKey _ => if leafKey = key then some none else none
  | inner path layout =>
      if path.checkPrefix key depth < path.inlineLen then none
      else if inside : depth + path.len < key.length then
        match layout.findChild key[depth + path.len] with
        | none => none
        | some child =>
            (child.artDelete key (depth + path.len + 1)).map fun left =>
              some (collapse path (layout.storeChild key[depth + path.len] left).shrinkIfSparse)
      else none
termination_by key.length - depth

mutual

/-- The entries of the leaves, the children of every node in the order of their bytes. -/
def artCollect : ArtNode → List IndexEntry
  | leaf key value => [⟨key, value⟩]
  | inner _ layout => collectLayout layout

def collectLayout : Layout ArtNode → List IndexEntry
  | .node4 slots => collectSlots slots
  | .node16 slots => collectSlots slots
  | .node48 _ childIndex children =>
      (List.finRange 256).flatMap fun byte =>
        match childIndex byte with
        | some slot => collectOption (children slot)
        | none => []
  | .node256 _ children => (List.finRange 256).flatMap fun byte => collectOption (children byte)

def collectSlots : List (Byte × ArtNode) → List IndexEntry
  | [] => []
  | slot :: rest => collectSlot slot ++ collectSlots rest

def collectSlot : Byte × ArtNode → List IndexEntry
  | (_, child) => child.artCollect

def collectOption : Option ArtNode → List IndexEntry
  | none => []
  | some child => child.artCollect

end

theorem collectSlots_eq (slots : List (Byte × ArtNode)) :
    collectSlots slots = slots.flatMap fun slot => slot.2.artCollect := by
  induction slots with
  | nil => rfl
  | cons slot rest ih =>
      obtain ⟨byte, child⟩ := slot
      rw [collectSlots, collectSlot, ih, List.flatMap_cons]

theorem flatMap_collectOption (children : Byte → Option ArtNode) (bytes : List Byte) :
    (bytes.flatMap fun byte => collectOption (children byte)) =
      (bytes.filterMap fun byte => (children byte).map (Prod.mk byte)).flatMap
        fun slot => slot.2.artCollect := by
  induction bytes with
  | nil => rfl
  | cons byte rest ih =>
      rw [List.flatMap_cons, ih, List.filterMap_cons]
      cases children byte with
      | none => rw [collectOption, List.nil_append]; rfl
      | some child => rw [collectOption]; rfl

/-- An inner node collects its children one after the other. -/
theorem artCollect_inner (path : Prefix) (layout : Layout ArtNode) :
    (inner path layout).artCollect =
      layout.childrenSorted.flatMap fun slot => slot.2.artCollect := by
  rw [artCollect]
  cases layout with
  | node4 slots => exact collectSlots_eq slots
  | node16 slots => exact collectSlots_eq slots
  | node48 numChildren childIndex children =>
      rw [collectLayout, Layout.childrenSorted, ← flatMap_collectOption]
      congr 1
      funext byte
      cases childIndex byte with
      | none => rw [Option.bind_none, collectOption]
      | some slot => rfl
  | node256 numChildren children => exact flatMap_collectOption children _

/-- What is collected from an inner node whose table is well formed. -/
theorem mem_artCollect_inner {path : Prefix} {layout : Layout ArtNode} (ok : layout.Ok)
    {entry : IndexEntry} :
    entry ∈ (inner path layout).artCollect ↔
      ∃ byte child, layout.findChild byte = some child ∧ entry ∈ child.artCollect := by
  rw [artCollect_inner, List.mem_flatMap]
  constructor
  · rintro ⟨⟨byte, child⟩, member, inside⟩
    exact ⟨byte, child, (Layout.mem_childrenSorted ok).mp member, inside⟩
  · rintro ⟨byte, child, found, inside⟩
    exact ⟨(byte, child), (Layout.mem_childrenSorted ok).mpr found, inside⟩

theorem mem_collectOption {left : Option ArtNode} {entry : IndexEntry} :
    entry ∈ collectOption left ↔ ∃ node, left = some node ∧ entry ∈ node.artCollect := by
  cases left with
  | none => simp [collectOption]
  | some node => simp [collectOption]

/-- What is collected when one child is replaced. -/
theorem mem_artCollect_update {path : Prefix} {layout : Layout ArtNode} (ok : layout.Ok)
    {children : Byte → Option ArtNode} {byte : Byte} {left : Option ArtNode}
    (shows : layout.findChild = Function.update children byte left) {entry : IndexEntry} :
    entry ∈ (inner path layout).artCollect ↔
      entry ∈ collectOption left ∨
        ∃ other child, other ≠ byte ∧ children other = some child ∧ entry ∈ child.artCollect := by
  rw [mem_artCollect_inner ok, shows, mem_collectOption]
  constructor
  · rintro ⟨other, child, found, inside⟩
    rcases eq_or_ne other byte with rfl | apart
    · rw [Function.update_self] at found
      exact .inl ⟨child, found, inside⟩
    · rw [Function.update_of_ne apart] at found
      exact .inr ⟨other, child, apart, found, inside⟩
  · rintro (⟨child, found, inside⟩ | ⟨other, child, apart, found, inside⟩)
    · exact ⟨byte, child, by rw [Function.update_self, found], inside⟩
    · exact ⟨other, child, by rw [Function.update_of_ne apart, found], inside⟩

end ArtNode

/-!
## The index over an adaptive radix tree

Keys are stored with a terminating zero byte, which is to keep a key from being a prefix of another
one, and is taken off again in everything that the index returns.
-/

def keyTerminator : Byte := 0

def terminatedKey (key : Bytes) : Bytes := key ++ [keyTerminator]

def unterminatedKey (key : Bytes) : Bytes :=
  if key.getLast? = some keyTerminator then key.dropLast else key

/-- A bound of a range. -/
inductive Bound where
  | included (key : Bytes)
  | excluded (key : Bytes)
  | unbounded
  deriving DecidableEq

namespace Bound

/-- The key satisfies a start bound. -/
def startOk (start : Bound) (key : Bytes) : Bool :=
  match start with
  | included bound => bound ≤ key
  | excluded bound => bound < key
  | unbounded => true

/-- The key satisfies an end bound. -/
def endOk (stop : Bound) (key : Bytes) : Bool :=
  match stop with
  | included bound => key ≤ bound
  | excluded bound => key < bound
  | unbounded => true

end Bound

inductive ScanDirection where
  | forward
  | backward
  deriving DecidableEq

structure AdaptiveRadixTree where
  root : Option ArtNode
  len : Nat

/-- A call that changes the index. -/
inductive Call where
  | insert (key value : Bytes)
  | delete (key : Bytes)
  deriving DecidableEq

namespace AdaptiveRadixTree

def new : AdaptiveRadixTree where
  root := none
  len := 0

def get (tree : AdaptiveRadixTree) (key : Bytes) : Option Bytes :=
  tree.root.bind fun node => (node.artGet (terminatedKey key) 0).map IndexEntry.value

def insert (tree : AdaptiveRadixTree) (key value : Bytes) : AdaptiveRadixTree :=
  let existed := (tree.root.bind fun node => node.artGet (terminatedKey key) 0).isSome
  { root := some (ArtNode.artInsert tree.root (terminatedKey key) value)
    len := if existed then tree.len else tree.len + 1 }

/-- Delete a key, and tell whether it was there. -/
def delete (tree : AdaptiveRadixTree) (key : Bytes) : AdaptiveRadixTree × Bool :=
  match tree.root.bind fun node => node.artDelete (terminatedKey key) 0 with
  | some remaining => ({ root := remaining, len := tree.len - 1 }, true)
  | none => (tree, false)

/-- All entries, under the keys of the leaves. -/
def collected (tree : AdaptiveRadixTree) : List IndexEntry := ArtNode.collectOption tree.root

/-- An entry as it is returned. -/
def unterminated (entry : IndexEntry) : IndexEntry where
  key := unterminatedKey entry.key
  value := entry.value

def range (tree : AdaptiveRadixTree) (start stop : Bound) (direction : ScanDirection) :
    List IndexEntry :=
  let entries := (tree.collected.map unterminated).filter fun entry =>
    start.startOk entry.key && stop.endOk entry.key
  match direction with
  | .forward => entries
  | .backward => entries.reverse

def min (tree : AdaptiveRadixTree) : Option IndexEntry := tree.collected.head?.map unterminated

def max (tree : AdaptiveRadixTree) : Option IndexEntry := tree.collected.getLast?.map unterminated

def atRank (tree : AdaptiveRadixTree) (rank : Nat) : Option IndexEntry :=
  tree.collected[rank]?.map unterminated

def rankOf (tree : AdaptiveRadixTree) (key : Bytes) : Option Nat :=
  match tree.root with
  | none => none
  | some node =>
      if (node.artGet (terminatedKey key) 0).isNone then none
      else
        some ((node.artCollect.map fun entry => unterminatedKey entry.key).takeWhile
          fun other => other < key).length

def step (tree : AdaptiveRadixTree) : Call → AdaptiveRadixTree
  | .insert key value => tree.insert key value
  | .delete key => (tree.delete key).1

end AdaptiveRadixTree

end JouleDB.Art
