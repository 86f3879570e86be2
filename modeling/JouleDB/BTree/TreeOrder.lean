import JouleDB.BTree.NodeOrder
import JouleDB.BTree.Tree

/-!
# Ordered trees

In an ordered tree every key is found by following the separators.  Insertion and deletion
keep the order and change the entry of one key, unless they divide a leaf whose only key is
its lower bound: the halves of it do not have room between the separators.
-/

namespace JouleDB.BTree

/-! ## Definitions -/

/-- A tree with its keys in order between two bounds. -/
def Ordered : (height : Nat) → Fence Bytes → Fence Bytes → Tree height → Prop
  | 0 => LeafOrdered
  | height + 1 => InnerOrdered (Ordered height)

/-- The tree has an entry. -/
def Has : (height : Nat) → Tree height → Bytes → Bytes → Prop
  | 0 => LeafHas
  | height + 1 => InnerHas (Has height)

/-- A child of a node, with what is on both sides of it. -/
structure Place {γ : Type} (node : Node γ) (front back : List Bytes) (before : List γ) (child : γ)
    (after : List γ) : Prop where
  keys : node.keys = front ++ back
  children : node.children = before ++ child :: after
  length : before.length = front.length

/-- The key belongs between the separators around a place. -/
def Within (lo hi : Fence Bytes) (front back : List Bytes) (key : Bytes) : Prop :=
  lower lo front ≤ fence key ∧ fence key < upper back hi

/-- Subtrees have entries between their bounds only. -/
def Bounded {γ : Type} (fits : Fence Bytes → Fence Bytes → γ → Prop)
    (has : γ → Bytes → Bytes → Prop) : Prop :=
  ∀ low high child, fits low high child → ∀ key value, has child key value →
    low ≤ fence key ∧ fence key < high

/-- The leaf that the key belongs to is full, and its only key is its lower bound. -/
def SplitsAlone (maxPageData : Nat) (key : Bytes) :
    (height : Nat) → Fence Bytes → Fence Bytes → Tree height → Prop
  | 0, lo, _, leaf => leaf.isFullBySize maxPageData = true ∧ DividesAlone lo leaf
  | height + 1, lo, hi, node =>
      ∃ front back before child after, @Place (Tree height) node front back before child after ∧
        Within lo hi front back key ∧
        SplitsAlone maxPageData key height (lower lo front) (upper back hi) child

/-- A leaf that underflows when it loses a key has a left neighbour that does not underflow,
and the only key of the neighbour is its lower bound. -/
def BorrowsAlone {γ : Type} (find : Finder) (maxPageData : Nat) (key : Bytes) (lo : Fence Bytes)
    (front : List Bytes) (before : List (Node γ)) (child : Node γ) : Prop :=
  ∃ outer separator others left rest, front = outer ++ [separator] ∧ before = others ++ [left] ∧
    left.isUnderflowingBySize maxPageData = false ∧ DividesAlone (lower lo outer) left ∧
    child.keys[child.findKeyIndex find key]? = some key ∧
    child.removeEntry (child.findKeyIndex find key) = some rest ∧
    rest.isUnderflowingBySize maxPageData = true

/-- The deletion of the key lets the leaf it belongs to borrow from such a neighbour. -/
def LendsAlone (find : Finder) (maxPageData : Nat) (key : Bytes) :
    (height : Nat) → Fence Bytes → Fence Bytes → Tree height → Prop
  | 0, _, _, _ => False
  | height + 1, lo, hi, node =>
      ∃ front back before child after, @Place (Tree height) node front back before child after ∧
        Within lo hi front back key ∧
        (BorrowsAlone find maxPageData key lo front before child ∨
          LendsAlone find maxPageData key height (lower lo front) (upper back hi) child)

/-! ## Children of an ordered node -/

theorem Place.getElem? {γ : Type} {node : Node γ} {front back : List Bytes} {before : List γ}
    {child : γ} {after : List γ} (place : Place node front back before child after) :
    node.children[front.length]? = some child := by
  rw [place.children, ← place.length]
  simp

theorem Place.setAt {γ : Type} {node : Node γ} {front back : List Bytes} {before : List γ}
    {child : γ} {after : List γ} (place : Place node front back before child after) (other : γ) :
    setAt node.children front.length other = some (before ++ other :: after) := by
  rw [place.children]
  exact setAt_append child other place.length

section Inner

variable {γ : Type} {fits : Fence Bytes → Fence Bytes → γ → Prop}
variable {has : γ → Bytes → Bytes → Prop} {lo hi : Fence Bytes} {node : Node γ}
variable {front middle back : List Bytes} {before inside after : List γ} {child : γ} {key : Bytes}

theorem InnerOrdered.focus (ordered : InnerOrdered fits lo hi node)
    (keys : node.keys = front ++ middle ++ back)
    (children : node.children = before ++ inside ++ after)
    (length : before.length = front.length) (middleLength : inside.length = middle.length + 1) :
    Chain fits (lower lo front) middle inside (upper back hi) ∧
      ∀ {middle' inside'}, Chain fits (lower lo front) middle' inside' (upper back hi) →
        InnerOrdered fits lo hi
          { node with keys := front ++ middle' ++ back, children := before ++ inside' ++ after } := by
  have whole := ordered.chain
  rw [keys, children] at whole
  obtain ⟨part, replace⟩ := whole.focus length middleLength
  exact ⟨part, fun replaced => ⟨ordered.inner, ordered.noValues, replace replaced⟩⟩

/-- The child that a key is routed to is the one whose bounds the key is within. -/
theorem InnerOrdered.route {find : Finder} (documented : find.Documented)
    (ordered : InnerOrdered fits lo hi node) (low : lo ≤ fence key) (high : fence key < hi) :
    ∃ front back before child after, Place node front back before child after ∧
      front.length = node.childIndex find key ∧ Within lo hi front back key := by
  have sorted : node.keys.Pairwise (· ≤ ·) := ordered.chain.sorted.imp fun smaller => smaller.le
  have strict := ordered.chain.sorted
  have cut : ∃ front back, node.keys = front ++ back ∧ front.length = node.childIndex find key ∧
      (∀ other ∈ front, other ≤ key) ∧ ∀ other ∈ back, key < other := by
    rw [Node.childIndex, Node.findKeyIndex]
    by_cases present : key ∈ node.keys
    · have found := documented.present sorted present
      obtain ⟨front, back, keys, length⟩ := getElem?_eq_some_split.mp found
      rw [if_pos found]
      rw [keys] at strict
      obtain ⟨-, inBack, across⟩ := List.pairwise_append.mp strict
      refine ⟨front ++ [key], back, by simpa using keys, by simpa using length, ?_, ?_⟩
      · intro other member
        rcases List.mem_append.mp member with inFront | isKey
        · exact (across other inFront key List.mem_cons_self).le
        · exact (List.mem_singleton.mp isKey).le
      · exact fun other member => (List.pairwise_cons.mp inBack).1 other member
    · have missing : ¬ node.keys[find node.keys key]? = some key :=
        fun found => present (List.mem_of_getElem? found)
      obtain ⟨below, above⟩ := documented.absent sorted present
      rw [if_neg missing]
      exact ⟨node.keys.take (find node.keys key), node.keys.drop (find node.keys key),
        (List.take_append_drop _ _).symm, List.length_take_of_le (documented.inside _ _),
        fun other member => (below other member).le, above⟩
  obtain ⟨front, back, keys, length, below, above⟩ := cut
  have count := ordered.chain.length
  rw [keys, List.length_append] at count
  have inside : front.length < node.children.length := by omega
  obtain ⟨before, after, children, beforeLength⟩ :=
    getElem?_eq_some_split.mp (List.getElem?_eq_getElem inside)
  refine ⟨front, back, before, _, after, ⟨keys, children, beforeLength⟩, length, ?_, ?_⟩
  · exact lower_le low fun other member => fence_le_fence.mpr (below other member)
  · exact lt_upper high fun other member => fence_lt_fence.mpr (above other member)

/-- A key is within the bounds of one place only. -/
theorem InnerOrdered.place_unique {front' back' : List Bytes} {before' after' : List γ} {child' : γ}
    (ordered : InnerOrdered fits lo hi node) (place : Place node front back before child after)
    (within : Within lo hi front back key) (place' : Place node front' back' before' child' after')
    (within' : Within lo hi front' back' key) :
    front = front' ∧ back = back' ∧ before = before' ∧ child = child' ∧ after = after' := by
  have below : ∀ {front back : List Bytes}, node.keys = front ++ back →
      Within lo hi front back key → ∀ other ∈ front, other ≤ key := by
    intro front back keys within other member
    have strict := ordered.chain.sorted
    rcases List.eq_nil_or_concat front with rfl | ⟨outer, last, rfl⟩
    · cases member
    · rw [List.concat_eq_append] at keys within member
      have bound := within.1
      rw [lower_concat, fence_le_fence] at bound
      rw [keys, List.append_assoc] at strict
      rcases List.mem_append.mp member with inOuter | isLast
      · have smaller := (List.pairwise_append.mp strict).2.2 other inOuter last (by simp)
        exact smaller.le.trans bound
      · exact (List.mem_singleton.mp isLast).le.trans bound
  have above : ∀ {front back : List Bytes}, node.keys = front ++ back →
      Within lo hi front back key → ∀ other ∈ back, key < other := by
    intro front back keys within other member
    have strict := ordered.chain.sorted
    cases back with
    | nil => cases member
    | cons first rest =>
        have bound := within.2
        rw [upper_cons, fence_lt_fence] at bound
        rw [keys] at strict
        rcases List.mem_cons.mp member with rfl | later
        · exact bound
        · have larger := (List.pairwise_cons.mp (List.pairwise_append.mp strict).2.1).1 other later
          exact bound.trans larger
  have same : front = front' ∧ back = back' := by
    rcases List.append_eq_append_iff.mp (place.keys.symm.trans place'.keys) with
      ⟨rest, rfl, rfl⟩ | ⟨rest, rfl, rfl⟩
    · have empty : rest = [] := by
        rw [List.eq_nil_iff_forall_not_mem]
        intro other member
        have low := below place'.keys within' other (by simp [member])
        exact lt_irrefl _ ((above place.keys within other (by simp [member])).trans_le low)
      simp [empty]
    · have empty : rest = [] := by
        rw [List.eq_nil_iff_forall_not_mem]
        intro other member
        have low := below place.keys within other (by simp [member])
        exact lt_irrefl _ ((above place'.keys within' other (by simp [member])).trans_le low)
      simp [empty]
  obtain ⟨rfl, rfl⟩ := same
  have children := place.children.symm.trans place'.children
  obtain ⟨rfl, rest⟩ := List.append_inj children (place.length.trans place'.length.symm)
  obtain ⟨rfl, rfl⟩ := List.cons.inj rest
  exact ⟨rfl, rfl, rfl, rfl, rfl⟩

/-- The child at a place fits its bounds and can be replaced. -/
theorem InnerOrdered.at_place (ordered : InnerOrdered fits lo hi node)
    (place : Place node front back before child after) :
    lower lo front < upper back hi ∧ fits (lower lo front) (upper back hi) child ∧
      ∀ {other}, fits (lower lo front) (upper back hi) other →
        InnerOrdered fits lo hi { node with children := before ++ other :: after } := by
  have keys : node.keys = front ++ [] ++ back := by simpa using place.keys
  have children : node.children = before ++ [child] ++ after := by simpa using place.children
  obtain ⟨part, replace⟩ := ordered.focus keys children place.length rfl
  cases part with
  | last nonempty here =>
      refine ⟨nonempty, here, fun {other} there => ?_⟩
      have replaced := replace (.last nonempty there)
      simpa [← place.keys] using replaced

theorem InnerOrdered.not_has_outside (ordered : InnerOrdered fits lo hi node)
    (place : Place node front back before child after) (within : Within lo hi front back key)
    (bounds : Bounded fits has) (value : Bytes) :
    (∀ other ∈ before, ¬ has other key value) ∧ ∀ other ∈ after, ¬ has other key value := by
  have whole : Chain fits lo (front ++ [] ++ back) (before ++ [child] ++ after) hi := by
    have chain := ordered.chain
    rw [place.keys, place.children] at chain
    simpa using chain
  obtain ⟨below, above⟩ := whole.around place.length rfl
  constructor
  · intro other member has
    obtain ⟨low, high, le, fits⟩ := below other member
    have inside := (bounds low high other fits key value has).2
    exact lt_irrefl _ (inside.trans_le (le.trans within.1))
  · intro other member has
    obtain ⟨low, high, le, fits⟩ := above other member
    have inside := (bounds low high other fits key value has).1
    exact lt_irrefl _ (within.2.trans_le (le.trans inside))

/-- Updating the child that a key belongs to updates the node. -/
theorem InnerOrdered.updates (ordered : InnerOrdered fits lo hi node)
    (place : Place node front back before child after) (within : Within lo hi front back key)
    (bounds : Bounded fits has)
    {newChild : γ} {result : Option Bytes} (updated : Updates key result (has child) (has newChild)) :
    Updates key result (InnerHas has node)
      (InnerHas has { node with children := before ++ newChild :: after }) := by
  intro x w
  have outside := ordered.not_has_outside place within bounds
  have here := updated x w
  simp only [InnerHas, place.children, List.mem_append, List.mem_cons, or_and_right, exists_or,
    exists_eq_left]
  by_cases equal : x = key
  · subst equal
    have notBefore : ¬ ∃ other, other ∈ before ∧ has other x w := by
      rintro ⟨other, member, holds⟩
      exact (outside w).1 other member holds
    have notAfter : ¬ ∃ other, other ∈ after ∧ has other x w := by
      rintro ⟨other, member, holds⟩
      exact (outside w).2 other member holds
    rw [here]
    simp [notBefore, notAfter]
  · rw [here]
    simp [equal]

/-- The child that a key belongs to decides whether the node has the key. -/
theorem InnerOrdered.has_iff (ordered : InnerOrdered fits lo hi node)
    (place : Place node front back before child after) (within : Within lo hi front back key)
    (bounds : Bounded fits has) (value : Bytes) :
    InnerHas has node key value ↔ has child key value := by
  obtain ⟨notBefore, notAfter⟩ := ordered.not_has_outside place within bounds value
  constructor
  · rintro ⟨other, member, holds⟩
    rw [place.children] at member
    rcases List.mem_append.mp member with inBefore | later
    · exact absurd holds (notBefore other inBefore)
    · rcases List.mem_cons.mp later with rfl | inAfter
      · exact holds
      · exact absurd holds (notAfter other inAfter)
  · exact fun holds => ⟨child, by simp [place.children], holds⟩

end Inner

/-! ## Ordered trees of one height -/

section Level

variable {height : Nat} {lo hi : Fence Bytes} {tree left right : Tree height}
variable {separator newSeparator : Bytes} {newLeft newRight : Tree height}

theorem Ordered.bounded (height : Nat) : Bounded (Ordered height) (Has height) := by
  induction height with
  | zero =>
      rintro low high leaf ⟨children, entries, rfl, whole⟩ key value has
      exact whole.inside (key, value) (leafHas_leafOf.mp has)
  | succ height ih =>
      rintro lo hi node ordered key value ⟨child, member, holds⟩
      obtain ⟨low, high, le, -, ge, fits⟩ := ordered.chain.exists_fits child member
      have inside := ih low high child fits key value holds
      exact ⟨le.trans inside.1, inside.2.trans_le ge⟩

theorem Ordered.not_dividesAlone {lo' : Fence Bytes} {tree : Tree (height + 1)}
    (ordered : Ordered (height + 1) lo hi tree) : ¬ DividesAlone lo' tree := by
  rintro ⟨leaf, -⟩
  rw [ordered.inner] at leaf
  cases leaf

theorem Ordered.split (ordered : Ordered height lo hi tree) (room : ¬ DividesAlone lo tree)
    (parts : tree.split = some (left, right, separator)) :
    Chain (Ordered height) lo [separator] [left, right] hi ∧
      ∀ key value, (Has height left key value ∨ Has height right key value) ↔
        Has height tree key value := by
  cases height with
  | zero => exact LeafOrdered.split ordered room parts
  | succ height =>
      exact ⟨InnerOrdered.split ordered parts, innerHas_split ordered.inner parts⟩

theorem Ordered.lendLeft (pair : Chain (Ordered height) lo [separator] [left, tree] hi)
    (room : ¬ DividesAlone lo left)
    (lent : Node.lendLeft separator left tree = some (newSeparator, newLeft, newRight)) :
    Chain (Ordered height) lo [newSeparator] [newLeft, newRight] hi ∧
      ∀ key value, (Has height newLeft key value ∨ Has height newRight key value) ↔
        (Has height left key value ∨ Has height tree key value) := by
  cases height with
  | zero => exact LeafOrdered.lendLeft pair room lent
  | succ height => exact InnerOrdered.lendLeft pair lent

theorem Ordered.lendRight (pair : Chain (Ordered height) lo [separator] [tree, right] hi)
    (lent : Node.lendRight separator tree right = some (newSeparator, newLeft, newRight)) :
    Chain (Ordered height) lo [newSeparator] [newLeft, newRight] hi ∧
      ∀ key value, (Has height newLeft key value ∨ Has height newRight key value) ↔
        (Has height tree key value ∨ Has height right key value) := by
  cases height with
  | zero => exact LeafOrdered.lendRight pair lent
  | succ height => exact InnerOrdered.lendRight pair lent

theorem Ordered.absorb (pair : Chain (Ordered height) lo [separator] [left, right] hi) :
    Chain (Ordered height) lo [] [Node.absorb separator left right] hi ∧
      ∀ key value, Has height (Node.absorb separator left right) key value ↔
        (Has height left key value ∨ Has height right key value) := by
  cases height with
  | zero => exact LeafOrdered.absorb pair
  | succ height => exact InnerOrdered.absorb pair

end Level

/-! ## Two neighbours below a node -/

section Neighbours

variable {γ : Type} {parent result : Node (Node γ)} {index : Nat}

/-- Two neighbouring children of a node, with what is on both sides of them. -/
structure Pair (parent : Node (Node γ)) (index : Nat) (front : List Bytes) (separator : Bytes)
    (back : List Bytes) (before : List (Node γ)) (left right : Node γ) (after : List (Node γ)) :
    Prop where
  keys : parent.keys = front ++ separator :: back
  children : parent.children = before ++ left :: right :: after
  frontLength : front.length = index
  beforeLength : before.length = index

theorem exists_pair {left right : Node γ} {separator : Bytes}
    (first : parent.children[index]? = some left)
    (second : parent.children[index + 1]? = some right)
    (between : parent.keys[index]? = some separator) :
    ∃ front back before after, Pair parent index front separator back before left right after := by
  obtain ⟨front, back, keys, frontLength⟩ := getElem?_eq_some_split.mp between
  obtain ⟨before, rest, children, beforeLength⟩ := getElem?_eq_some_split.mp first
  rw [children, ← beforeLength] at second
  cases rest with
  | nil => simp at second
  | cons other after =>
      have same : other = right := by simpa [List.getElem?_append] using second
      subst same
      exact ⟨front, back, before, after, keys, children, frontLength, beforeLength⟩

section Pairs

variable {front back : List Bytes} {separator : Bytes} {before after : List (Node γ)}
variable {left right : Node γ}

variable (pair : Pair parent index front separator back before left right after)

include pair

theorem Pair.between : parent.keys[index]? = some separator := by
  rw [pair.keys, ← pair.frontLength]
  simp

theorem Pair.first : parent.children[index]? = some left := by
  rw [pair.children, getElem?_first pair.beforeLength]

theorem Pair.second : parent.children[index + 1]? = some right := by
  rw [pair.children, getElem?_second pair.beforeLength]

theorem Pair.borrowFromLeft : parent.borrowFromLeft (index + 1) =
    (Node.lendLeft separator left right).map fun (newSeparator, newLeft, newRight) =>
      { parent with
        keys := front ++ [newSeparator] ++ back
        children := before ++ [newLeft, newRight] ++ after } := by
  simp only [Node.borrowFromLeft, Nat.add_sub_cancel, pair.first, pair.second, pair.between,
    Option.bind_eq_bind, Option.bind_some]
  cases Node.lendLeft separator left right with
  | none => rfl
  | some parts =>
      simp [pair.keys, pair.children, setAt_append _ _ pair.frontLength,
        setAt_first pair.beforeLength, setAt_second pair.beforeLength]

theorem Pair.borrowFromRight : parent.borrowFromRight index =
    (Node.lendRight separator left right).map fun (newSeparator, newLeft, newRight) =>
      { parent with
        keys := front ++ [newSeparator] ++ back
        children := before ++ [newLeft, newRight] ++ after } := by
  simp only [Node.borrowFromRight, pair.first, pair.second, pair.between, Option.bind_eq_bind,
    Option.bind_some]
  cases Node.lendRight separator left right with
  | none => rfl
  | some parts =>
      simp [pair.keys, pair.children, setAt_append _ _ pair.frontLength,
        setAt_first pair.beforeLength, setAt_second pair.beforeLength]

theorem Pair.mergeWithLeft : parent.mergeWithLeft (index + 1) =
    some { parent with
      keys := front ++ [] ++ back
      children := before ++ [Node.absorb separator left right] ++ after } := by
  simp only [Node.mergeWithLeft, Nat.add_sub_cancel, pair.first, pair.second, pair.between,
    Option.bind_eq_bind, Option.bind_some]
  simp [pair.keys, pair.children, removeAt_append _ pair.frontLength,
    removeAt_second pair.beforeLength, setAt_append _ _ pair.beforeLength]

theorem Pair.mergeWithRight : parent.mergeWithRight index =
    some { parent with
      keys := front ++ [] ++ back
      children := before ++ [Node.absorb separator left right] ++ after } := by
  simp only [Node.mergeWithRight, pair.first, pair.second, pair.between, Option.bind_eq_bind,
    Option.bind_some]
  simp [pair.keys, pair.children, removeAt_append _ pair.frontLength,
    removeAt_second pair.beforeLength, setAt_append _ _ pair.beforeLength]

end Pairs

theorem splitChild_eq_some (done : parent.splitChild index = some result) :
    ∃ front back before child after left right medianKey,
      Place parent front back before child after ∧ front.length = index ∧
      child.split = some (left, right, medianKey) ∧
      result = { parent with
        keys := front ++ [medianKey] ++ back, children := before ++ [left, right] ++ after } := by
  simp only [Node.splitChild, Option.bind_eq_bind, Option.bind_eq_some_iff] at done
  obtain ⟨child, found, ⟨left, right, medianKey⟩, parts, keys, inserted, first, set, second, added,
    same⟩ := done
  obtain ⟨before, after, children, length⟩ := getElem?_eq_some_split.mp found
  obtain ⟨front, back, split, frontLength, rfl⟩ := insertAt_eq_some.mp inserted
  rw [children, setAt_append child left length] at set
  cases set
  have later : before ++ left :: after = (before ++ [left]) ++ after := by simp
  rw [later, insertAt_append right (by simp [length])] at added
  cases added
  cases same
  refine ⟨front, back, before, child, after, left, right, medianKey,
    ⟨split, children, length.trans frontLength.symm⟩, frontLength, parts, by simp⟩

theorem borrowFromLeft_eq_some (done : parent.borrowFromLeft (index + 1) = some result) :
    ∃ front separator back before left child after newSeparator newLeft newChild,
      Pair parent index front separator back before left child after ∧
      Node.lendLeft separator left child = some (newSeparator, newLeft, newChild) ∧
      result = { parent with
        keys := front ++ [newSeparator] ++ back
        children := before ++ [newLeft, newChild] ++ after } := by
  have steps := done
  simp only [Node.borrowFromLeft, Nat.add_sub_cancel, Option.bind_eq_bind,
    Option.bind_eq_some_iff] at steps
  obtain ⟨left, first, child, second, separator, between, -⟩ := steps
  obtain ⟨front, back, before, after, pair⟩ := exists_pair first second between
  rw [pair.borrowFromLeft, Option.map_eq_some_iff] at done
  obtain ⟨⟨newSeparator, newLeft, newChild⟩, lent, same⟩ := done
  exact ⟨front, separator, back, before, left, child, after, newSeparator, newLeft, newChild, pair,
    lent, same.symm⟩

theorem borrowFromRight_eq_some (done : parent.borrowFromRight index = some result) :
    ∃ front separator back before child right after newSeparator newChild newRight,
      Pair parent index front separator back before child right after ∧
      Node.lendRight separator child right = some (newSeparator, newChild, newRight) ∧
      result = { parent with
        keys := front ++ [newSeparator] ++ back
        children := before ++ [newChild, newRight] ++ after } := by
  have steps := done
  simp only [Node.borrowFromRight, Option.bind_eq_bind, Option.bind_eq_some_iff] at steps
  obtain ⟨child, first, right, second, separator, between, -⟩ := steps
  obtain ⟨front, back, before, after, pair⟩ := exists_pair first second between
  rw [pair.borrowFromRight, Option.map_eq_some_iff] at done
  obtain ⟨⟨newSeparator, newChild, newRight⟩, lent, same⟩ := done
  exact ⟨front, separator, back, before, child, right, after, newSeparator, newChild, newRight, pair,
    lent, same.symm⟩

theorem mergeWithLeft_eq_some (done : parent.mergeWithLeft (index + 1) = some result) :
    ∃ front separator back before left child after,
      Pair parent index front separator back before left child after ∧
      result = { parent with
        keys := front ++ [] ++ back
        children := before ++ [Node.absorb separator left child] ++ after } := by
  have steps := done
  simp only [Node.mergeWithLeft, Nat.add_sub_cancel, Option.bind_eq_bind,
    Option.bind_eq_some_iff] at steps
  obtain ⟨left, first, child, second, separator, between, -⟩ := steps
  obtain ⟨front, back, before, after, pair⟩ := exists_pair first second between
  rw [pair.mergeWithLeft] at done
  exact ⟨front, separator, back, before, left, child, after, pair, (Option.some.inj done).symm⟩

theorem mergeWithRight_eq_some (done : parent.mergeWithRight index = some result) :
    ∃ front separator back before child right after,
      Pair parent index front separator back before child right after ∧
      result = { parent with
        keys := front ++ [] ++ back
        children := before ++ [Node.absorb separator child right] ++ after } := by
  have steps := done
  simp only [Node.mergeWithRight, Option.bind_eq_bind, Option.bind_eq_some_iff] at steps
  obtain ⟨child, first, right, second, separator, between, -⟩ := steps
  obtain ⟨front, back, before, after, pair⟩ := exists_pair first second between
  rw [pair.mergeWithRight] at done
  exact ⟨front, separator, back, before, child, right, after, pair, (Option.some.inj done).symm⟩

/-- The ways to rebalance a node: not at all, with an entry of a sibling that has entries to spare,
or by merging the child and a sibling that fit into one page. -/
inductive Rebalances (maxPageData : Nat) (parent result : Node (Node γ)) (childIdx : Nat) : Prop
  | unchanged (same : result = parent)
  | fromLeft (index : Nat) (left child : Node γ) (position : childIdx = index + 1)
      (found : parent.children[index + 1]? = some child)
      (underflow : child.isUnderflowingBySize maxPageData = true)
      (first : parent.children[index]? = some left)
      (spare : left.isUnderflowingBySize maxPageData = false)
      (done : parent.borrowFromLeft (index + 1) = some result)
  | fromRight (child right : Node γ) (found : parent.children[childIdx]? = some child)
      (underflow : child.isUnderflowingBySize maxPageData = true)
      (low : ∀ left, 0 < childIdx → parent.children[childIdx - 1]? = some left →
        left.isUnderflowingBySize maxPageData = true)
      (next : parent.children[childIdx + 1]? = some right)
      (spare : right.isUnderflowingBySize maxPageData = false)
      (done : parent.borrowFromRight childIdx = some result)
  | intoLeft (index : Nat) (left child : Node γ) (separator : Bytes) (position : childIdx = index + 1)
      (found : parent.children[index + 1]? = some child)
      (first : parent.children[index]? = some left)
      (between : parent.keys[index]? = some separator)
      (fits : left.canMergeWith child separator maxPageData = true)
      (done : parent.mergeWithLeft (index + 1) = some result)
  | withRight (child right : Node γ) (separator : Bytes)
      (found : parent.children[childIdx]? = some child)
      (next : parent.children[childIdx + 1]? = some right)
      (between : parent.keys[childIdx]? = some separator)
      (fits : child.canMergeWith right separator maxPageData = true)
      (done : parent.mergeWithRight childIdx = some result)

variable {maxPageData childIdx : Nat} {child : Node γ}

theorem lendsLeft_eq_some {lends : Bool} (done : parent.lendsLeft maxPageData childIdx = some lends) :
    lends = true ∧ (∃ index left, childIdx = index + 1 ∧ parent.children[index]? = some left ∧
        left.isUnderflowingBySize maxPageData = false) ∨
      lends = false ∧ ∀ left, 0 < childIdx → parent.children[childIdx - 1]? = some left →
        left.isUnderflowingBySize maxPageData = true := by
  rw [Node.lendsLeft] at done
  split at done
  next positive =>
    obtain ⟨index, rfl⟩ := Nat.exists_eq_succ_of_ne_zero positive.ne'
    obtain ⟨left, first, spare⟩ := Option.bind_eq_some_iff.mp done
    cases low : left.isUnderflowingBySize maxPageData with
    | false => exact .inl ⟨by simpa [low, eq_comm] using spare, index, left, rfl, first, low⟩
    | true =>
        refine .inr ⟨by simpa [low, eq_comm] using spare, fun other _ isOther => ?_⟩
        obtain rfl := Option.some.inj (first.symm.trans isOther)
        exact low
  next least =>
    cases done
    exact .inr ⟨rfl, fun left positive => absurd positive least⟩

theorem lendsRight_eq_true (done : parent.lendsRight maxPageData childIdx = some true) :
    ∃ right, parent.children[childIdx + 1]? = some right ∧
      right.isUnderflowingBySize maxPageData = false := by
  rw [Node.lendsRight] at done
  split at done
  next =>
    obtain ⟨right, next, spare⟩ := Option.bind_eq_some_iff.mp done
    exact ⟨right, next, by simpa using spare⟩
  next => cases done

theorem fitsLeft_eq_true (done : parent.fitsLeft maxPageData child childIdx = some true) :
    ∃ index left separator, childIdx = index + 1 ∧ parent.children[index]? = some left ∧
      parent.keys[index]? = some separator ∧
      left.canMergeWith child separator maxPageData = true := by
  rw [Node.fitsLeft] at done
  split at done
  next positive =>
    obtain ⟨index, rfl⟩ := Nat.exists_eq_succ_of_ne_zero positive.ne'
    obtain ⟨left, first, done⟩ := Option.bind_eq_some_iff.mp done
    obtain ⟨separator, between, fits⟩ := Option.bind_eq_some_iff.mp done
    exact ⟨index, left, separator, rfl, first, between, by simpa using fits⟩
  next => cases done

theorem fitsRight_eq_true (done : parent.fitsRight maxPageData child childIdx = some true) :
    ∃ right separator, parent.children[childIdx + 1]? = some right ∧
      parent.keys[childIdx]? = some separator ∧
      child.canMergeWith right separator maxPageData = true := by
  rw [Node.fitsRight] at done
  split at done
  next =>
    obtain ⟨right, next, done⟩ := Option.bind_eq_some_iff.mp done
    obtain ⟨separator, between, fits⟩ := Option.bind_eq_some_iff.mp done
    exact ⟨right, separator, next, between, by simpa using fits⟩
  next => cases done

theorem rebalanceAfterDelete_eq_some
    (done : parent.rebalanceAfterDelete maxPageData childIdx = some result) :
    Rebalances maxPageData parent result childIdx := by
  simp only [Node.rebalanceAfterDelete, Option.bind_eq_bind, Option.bind_eq_some_iff] at done
  obtain ⟨child, found, done⟩ := done
  split at done
  next => exact .unchanged (Option.some.inj done).symm
  next underflow =>
    have low : child.isUnderflowingBySize maxPageData = true := by simpa using underflow
    obtain ⟨lends, lendsLeft, done⟩ := Option.bind_eq_some_iff.mp done
    rcases lendsLeft_eq_some lendsLeft with ⟨rfl, index, left, rfl, first, spare⟩ | ⟨rfl, full⟩
    · exact .fromLeft index left child rfl found low first spare (by simpa using done)
    · simp only [Bool.false_eq_true, if_false] at done
      obtain ⟨lends, lendsRight, done⟩ := Option.bind_eq_some_iff.mp done
      cases lends with
      | true =>
          obtain ⟨right, next, spare⟩ := lendsRight_eq_true lendsRight
          exact .fromRight child right found low full next spare (by simpa using done)
      | false =>
          simp only [Bool.false_eq_true, if_false] at done
          obtain ⟨fits, fitsLeft, done⟩ := Option.bind_eq_some_iff.mp done
          cases fits with
          | true =>
              obtain ⟨index, left, separator, rfl, first, between, fits⟩ := fitsLeft_eq_true fitsLeft
              exact .intoLeft index left child separator rfl found first between fits
                (by simpa using done)
          | false =>
              simp only [Bool.false_eq_true, if_false] at done
              obtain ⟨fits, fitsRight, done⟩ := Option.bind_eq_some_iff.mp done
              cases fits with
              | true =>
                  obtain ⟨right, separator, next, between, fits⟩ := fitsRight_eq_true fitsRight
                  exact .withRight child right separator found next between fits
                    (by simpa using done)
              | false => exact .unchanged (by simpa [eq_comm] using done)

end Neighbours

/-! ## Rebalancing -/

/-- Replacing children by others with the same entries. -/
theorem innerHas_replace {γ : Type} {has : γ → Bytes → Bytes → Prop} {node : Node γ}
    {before inside inside' after : List γ} {keys : List Bytes}
    (children : node.children = before ++ inside ++ after)
    (same : ∀ key value, (∃ child ∈ inside', has child key value) ↔
      ∃ child ∈ inside, has child key value) (key value : Bytes) :
    InnerHas has { node with keys := keys, children := before ++ inside' ++ after } key value ↔
      InnerHas has node key value := by
  simp only [InnerHas, children, List.mem_append, or_and_right, exists_or]
  rw [same]

section Rebalance

variable {height : Nat} {lo hi : Fence Bytes} {parent result : Node (Tree height)} {index : Nat}

/-- Two neighbours can be replaced by children with the same entries. -/
theorem Ordered.replace_pair {front back : List Bytes} {separator : Bytes}
    {before after : List (Tree height)} {left right : Tree height}
    (ordered : InnerOrdered (Ordered height) lo hi parent)
    (pair : Pair parent index front separator back before left right after) :
    Chain (Ordered height) (lower lo front) [separator] [left, right] (upper back hi) ∧
      ∀ {middle inside}, Chain (Ordered height) (lower lo front) middle inside (upper back hi) →
        (∀ key value, (∃ child ∈ inside, Has height child key value) ↔
          (Has height left key value ∨ Has height right key value)) →
        InnerOrdered (Ordered height) lo hi
            { parent with keys := front ++ middle ++ back, children := before ++ inside ++ after } ∧
          ∀ key value,
            InnerHas (Has height)
                { parent with
                  keys := front ++ middle ++ back, children := before ++ inside ++ after }
                key value ↔
              InnerHas (Has height) parent key value := by
  have keys : parent.keys = front ++ [separator] ++ back := by simpa using pair.keys
  have children : parent.children = before ++ [left, right] ++ after := by simpa using pair.children
  obtain ⟨part, replace⟩ :=
    ordered.focus keys children (pair.beforeLength.trans pair.frontLength.symm) rfl
  refine ⟨part, fun chain same => ⟨replace chain, innerHas_replace children ?_⟩⟩
  intro key value
  rw [same]
  simp

theorem Ordered.borrowFromLeft (ordered : InnerOrdered (Ordered height) lo hi parent)
    (room : ∀ front separator back before left child after,
      Pair parent index front separator back before left child after →
        ¬ DividesAlone (lower lo front) left)
    (done : parent.borrowFromLeft (index + 1) = some result) :
    InnerOrdered (Ordered height) lo hi result ∧
      ∀ key value, InnerHas (Has height) result key value ↔
        InnerHas (Has height) parent key value := by
  obtain ⟨front, separator, back, before, left, child, after, newSeparator, newLeft, newChild, pair,
    lent, rfl⟩ := borrowFromLeft_eq_some done
  obtain ⟨neighbours, replace⟩ := Ordered.replace_pair ordered pair
  obtain ⟨moved, same⟩ :=
    Ordered.lendLeft neighbours (room front separator back before left child after pair) lent
  exact replace moved (by simpa using same)

theorem Ordered.borrowFromRight (ordered : InnerOrdered (Ordered height) lo hi parent)
    (done : parent.borrowFromRight index = some result) :
    InnerOrdered (Ordered height) lo hi result ∧
      ∀ key value, InnerHas (Has height) result key value ↔
        InnerHas (Has height) parent key value := by
  obtain ⟨front, separator, back, before, child, right, after, newSeparator, newChild, newRight,
    pair, lent, rfl⟩ := borrowFromRight_eq_some done
  obtain ⟨neighbours, replace⟩ := Ordered.replace_pair ordered pair
  obtain ⟨moved, same⟩ := Ordered.lendRight neighbours lent
  exact replace moved (by simpa using same)

theorem Ordered.mergeWithLeft (ordered : InnerOrdered (Ordered height) lo hi parent)
    (done : parent.mergeWithLeft (index + 1) = some result) :
    InnerOrdered (Ordered height) lo hi result ∧
      ∀ key value, InnerHas (Has height) result key value ↔
        InnerHas (Has height) parent key value := by
  obtain ⟨front, separator, back, before, left, child, after, pair, rfl⟩ :=
    mergeWithLeft_eq_some done
  obtain ⟨neighbours, replace⟩ := Ordered.replace_pair ordered pair
  obtain ⟨joined, same⟩ := Ordered.absorb neighbours
  exact replace joined (by simpa using same)

theorem Ordered.mergeWithRight (ordered : InnerOrdered (Ordered height) lo hi parent)
    (done : parent.mergeWithRight index = some result) :
    InnerOrdered (Ordered height) lo hi result ∧
      ∀ key value, InnerHas (Has height) result key value ↔
        InnerHas (Has height) parent key value := by
  obtain ⟨front, separator, back, before, child, right, after, pair, rfl⟩ :=
    mergeWithRight_eq_some done
  obtain ⟨neighbours, replace⟩ := Ordered.replace_pair ordered pair
  obtain ⟨joined, same⟩ := Ordered.absorb neighbours
  exact replace joined (by simpa using same)

/-- Rebalancing keeps the order and the entries, unless a leaf borrows the only entry of a left
neighbour whose key is its lower bound. -/
theorem Ordered.rebalanceAfterDelete {maxPageData childIdx : Nat}
    (ordered : InnerOrdered (Ordered height) lo hi parent)
    (room : ∀ index front separator back before left child after,
      Pair parent index front separator back before left child after → index + 1 = childIdx →
        left.isUnderflowingBySize maxPageData = false →
        child.isUnderflowingBySize maxPageData = true → ¬ DividesAlone (lower lo front) left)
    (done : parent.rebalanceAfterDelete maxPageData childIdx = some result) :
    InnerOrdered (Ordered height) lo hi result ∧
      ∀ key value, InnerHas (Has height) result key value ↔
        InnerHas (Has height) parent key value := by
  rcases rebalanceAfterDelete_eq_some done with
    rfl | ⟨index, left, child, rfl, second, low, first, high, borrowed⟩ |
      ⟨_, _, -, -, -, -, -, borrowed⟩ | ⟨index, _, _, _, rfl, -, -, -, -, merged⟩ |
      ⟨_, _, _, -, -, -, -, merged⟩
  · exact ⟨ordered, fun _ _ => Iff.rfl⟩
  · refine Ordered.borrowFromLeft ordered ?_ borrowed
    intro front separator back before other neighbour after pair
    have isLeft : other = left := by
      rw [pair.children, ← pair.beforeLength] at first
      simpa using first
    have isChild : neighbour = child := by
      have later : before ++ other :: neighbour :: after =
          (before ++ [other]) ++ neighbour :: after := by simp
      have position : index + 1 = (before ++ [other]).length := by simp [pair.beforeLength]
      rw [pair.children, later, position] at second
      simpa using second
    subst isLeft isChild
    exact room index front separator back before other neighbour after pair rfl high low
  · exact Ordered.borrowFromRight ordered borrowed
  · exact Ordered.mergeWithLeft ordered merged
  · exact Ordered.mergeWithRight ordered merged

theorem Ordered.rebalanceIf {maxPageData childIdx : Nat} {childUnderflow : Bool}
    (ordered : InnerOrdered (Ordered height) lo hi parent)
    (room : ∀ index front separator back before left child after,
      Pair parent index front separator back before left child after → index + 1 = childIdx →
        left.isUnderflowingBySize maxPageData = false →
        child.isUnderflowingBySize maxPageData = true → ¬ DividesAlone (lower lo front) left)
    (done : parent.rebalanceIf maxPageData childUnderflow childIdx = some result) :
    InnerOrdered (Ordered height) lo hi result ∧
      ∀ key value, InnerHas (Has height) result key value ↔
        InnerHas (Has height) parent key value := by
  cases childUnderflow with
  | true => exact Ordered.rebalanceAfterDelete ordered room done
  | false =>
      cases done
      exact ⟨ordered, fun _ _ => Iff.rfl⟩

end Rebalance

/-! ## Insertion -/

section Insertion

variable {height maxPageData : Nat} {lo hi : Fence Bytes} {key value : Bytes} {find : Finder}

theorem not_splitsAlone_bot {leaf : Tree 0} : ¬ SplitsAlone maxPageData key 0 ⊥ hi leaf := by
  rintro ⟨-, -, alone⟩
  cases keys : leaf.keys with
  | nil => simp [keys] at alone
  | cons first rest =>
      rw [keys, List.map_cons, List.cons.injEq] at alone
      exact absurd alone.1 (bot_lt_fence first).ne'

/-- The halves of an internal node lead to the leaves of the node. -/
theorem SplitsAlone.of_half {node left right : Tree (height + 1)} {separator : Bytes}
    (inner : node.isLeaf = false) (parts : node.split = some (left, right, separator))
    (half : SplitsAlone maxPageData key (height + 1) lo (fence separator) left ∨
      SplitsAlone maxPageData key (height + 1) (fence separator) hi right) :
    SplitsAlone maxPageData key (height + 1) lo hi node := by
  obtain ⟨front, back, before, after, keys, children, length, rfl, rfl⟩ :=
    @split_inner (Tree height) left right node separator inner parts
  rcases half with ⟨outer, inside, others, child, rest, place, within, alone⟩ |
    ⟨outer, inside, others, child, rest, place, within, alone⟩
  · have split : front = outer ++ inside := place.keys
    have members := place.children
    dsimp only at members
    have high : upper (inside ++ separator :: back) hi = upper inside (fence separator) :=
      upper_append _ _ _
    refine ⟨outer, inside ++ separator :: back, others, child, rest ++ after,
      ⟨by simp [keys, split], by simp [children, members], place.length⟩, ?_, ?_⟩
    · rw [Within, high]
      exact within
    · rw [high]
      exact alone
  · have split : back = outer ++ inside := place.keys
    have members := place.children
    dsimp only at members
    have low : lower lo (front ++ separator :: outer) = lower (fence separator) outer := by
      rw [lower_append, lower_cons]
    have count := place.length
    refine ⟨front ++ separator :: outer, inside, before ++ others, child, rest,
      ⟨by simp [keys, split], by simp [children, members], by simp [length, count]; omega⟩, ?_, ?_⟩
    · rw [Within, low]
      exact within
    · rw [low]
      exact alone

theorem SplitsAlone.of_two {left right : Tree height} {separator : Bytes}
    (alone : SplitsAlone maxPageData key (height + 1) lo hi ⟨[separator], [], [left, right], false⟩) :
    key < separator ∧ SplitsAlone maxPageData key height lo (fence separator) left ∨
      separator ≤ key ∧ SplitsAlone maxPageData key height (fence separator) hi right := by
  obtain ⟨front, back, before, child, after, place, within, alone⟩ := alone
  have keys : [separator] = front ++ back := place.keys
  have children : [left, right] = before ++ child :: after := place.children
  have length := place.length
  cases front with
  | nil =>
      obtain rfl : back = [separator] := keys.symm
      obtain rfl := List.length_eq_zero_iff.mp length
      obtain ⟨rfl, -⟩ := List.cons.inj children
      exact .inl ⟨fence_lt_fence.mp within.2, alone⟩
  | cons first rest =>
      obtain ⟨rfl, ends⟩ := List.cons.inj keys
      obtain ⟨rfl, rfl⟩ := List.append_eq_nil_iff.mp ends.symm
      obtain ⟨other, rfl⟩ := List.length_eq_one_iff.mp length
      obtain ⟨-, later⟩ := List.cons.inj children
      obtain ⟨rfl, -⟩ := List.cons.inj later
      exact .inr ⟨fence_le_fence.mp within.1, alone⟩

theorem Ordered.splitChild {parent result : Node (Tree height)} {index : Nat}
    (ordered : InnerOrdered (Ordered height) lo hi parent)
    (room : ∀ front back before child after, Place parent front back before child after →
      front.length = index → Within lo hi front back key ∧
        child.isFullBySize maxPageData = true ∧
        ¬ SplitsAlone maxPageData key height (lower lo front) (upper back hi) child)
    (done : parent.splitChild index = some result) :
    InnerOrdered (Ordered height) lo hi result ∧
      (∀ x w, InnerHas (Has height) result x w ↔ InnerHas (Has height) parent x w) ∧
      ∀ front back before child after, Place result front back before child after →
        Within lo hi front back key → 0 < height →
        ¬ SplitsAlone maxPageData key height (lower lo front) (upper back hi) child := by
  obtain ⟨front, back, before, child, after, left, right, separator, place, length, parts, rfl⟩ :=
    splitChild_eq_some done
  obtain ⟨within, full, notAlone⟩ := room front back before child after place length
  have keys : parent.keys = front ++ [] ++ back := by simpa using place.keys
  have children : parent.children = before ++ [child] ++ after := by simpa using place.children
  obtain ⟨part, replace⟩ := ordered.focus keys children place.length rfl
  have fits := (ordered.at_place place).2.1
  have divides : ¬ DividesAlone (lower lo front) child := by
    cases height with
    | zero => exact fun alone => notAlone ⟨full, alone⟩
    | succ height => exact Ordered.not_dividesAlone fits
  obtain ⟨halves, same⟩ := Ordered.split fits divides parts
  have divided := replace halves
  refine ⟨divided, innerHas_replace children (by simpa using same), ?_⟩
  intro front' back' before' child' after' place' within' positive
  obtain ⟨height, rfl⟩ := Nat.exists_eq_succ_of_ne_zero positive.ne'
  obtain ⟨start, -, stop, -⟩ := chain_pair.mp halves
  rcases lt_or_ge key separator with less | atLeast
  · have leftPlace : Place { parent with
        keys := front ++ [separator] ++ back, children := before ++ [left, right] ++ after }
        front (separator :: back) before left (right :: after) :=
      ⟨by simp, by simp, place.length⟩
    obtain ⟨rfl, rfl, -, rfl, -⟩ := divided.place_unique leftPlace
      ⟨within.1, fence_lt_fence.mpr less⟩ place' within'
    exact fun alone => notAlone (SplitsAlone.of_half fits.inner parts (.inl alone))
  · have rightPlace : Place { parent with
        keys := front ++ [separator] ++ back, children := before ++ [left, right] ++ after }
        (front ++ [separator]) back (before ++ [left]) right after :=
      ⟨by simp, by simp, by simp [place.length]⟩
    obtain ⟨rfl, rfl, -, rfl, -⟩ := divided.place_unique rightPlace
      ⟨by simpa using atLeast, within.2⟩ place' within'
    rw [lower_concat]
    exact fun alone => notAlone (SplitsAlone.of_half fits.inner parts (.inr alone))

/-- Insertion keeps the order and writes one entry, unless it splits a leaf whose only key is
its lower bound. -/
theorem Ordered.insertNonFull (documented : find.Documented) {tree result : Tree height}
    (ordered : Ordered height lo hi tree) (low : lo ≤ fence key) (high : fence key < hi)
    (room : 0 < height → ¬ SplitsAlone maxPageData key height lo hi tree)
    (done : Tree.insertNonFull find maxPageData key value height tree = some result) :
    Ordered height lo hi result ∧ Updates key (some value) (Has height tree) (Has height result) := by
  induction height generalizing lo hi with
  | zero => exact LeafOrdered.writeEntry documented ordered low high done
  | succ height ih =>
      simp only [Tree.insertNonFull, Option.bind_eq_bind, Option.bind_eq_some_iff] at done
      obtain ⟨child, found, middle, made, target, foundTarget, newTarget, inserted, children, set,
        same⟩ := done
      have ready : InnerOrdered (Ordered height) lo hi middle ∧
          (∀ x w, InnerHas (Has height) middle x w ↔ InnerHas (Has height) tree x w) ∧
          ∀ front back before child after, Place middle front back before child after →
            Within lo hi front back key → 0 < height →
            ¬ SplitsAlone maxPageData key height (lower lo front) (upper back hi) child := by
        have away := room (Nat.succ_pos height)
        unfold Node.makeRoom at made
        split at made
        next full =>
          refine Ordered.splitChild ordered ?_ made
          intro front back before other after place length
          obtain ⟨front', back', before', child', after', place', length', within'⟩ :=
            InnerOrdered.route documented ordered low high
          have parts := List.append_inj (place.keys.symm.trans place'.keys)
            (length.trans length'.symm)
          obtain ⟨rfl, rfl⟩ := parts
          rw [← length] at found
          obtain rfl := Option.some.inj (place.getElem?.symm.trans found)
          exact ⟨within', full, fun alone =>
            away ⟨front, back, before, other, after, place, within', alone⟩⟩
        next =>
          cases made
          exact ⟨ordered, fun _ _ => Iff.rfl, fun front back before child after place within _ alone =>
            away ⟨front, back, before, child, after, place, within, alone⟩⟩
      obtain ⟨orderedMiddle, sameMiddle, notAlone⟩ := ready
      obtain ⟨front, back, before, other, after, place, length, within⟩ :=
        InnerOrdered.route documented orderedMiddle low high
      rw [← length] at foundTarget
      obtain rfl := Option.some.inj (place.getElem?.symm.trans foundTarget)
      obtain ⟨-, fits, replace⟩ := orderedMiddle.at_place place
      obtain ⟨newFits, updated⟩ := ih fits within.1 within.2
        (notAlone front back before other after place within) inserted
      rw [place.children, setAt_append other newTarget (place.length.trans length)] at set
      cases set
      cases same
      refine ⟨replace newFits, fun x w => ?_⟩
      have edited := orderedMiddle.updates place within (Ordered.bounded height) updated x w
      exact edited.trans (or_congr_right (and_congr_right fun _ => sameMiddle x w))

end Insertion

/-! ## Deletion -/

section Deletion

variable {height maxPageData : Nat} {lo hi : Fence Bytes} {key value : Bytes} {find : Finder}

theorem Place.pair {γ : Type} {node : Node (Node γ)} {front back front' back' : List Bytes}
    {before after before' after' : List (Node γ)} {child newChild left right : Node γ} {index : Nat}
    {separator : Bytes} (place : Place node front back before child after)
    (length : front.length = index + 1)
    (pair : Pair { node with children := before ++ newChild :: after } index front' separator back'
      before' left right after') :
    front = front' ++ [separator] ∧ before = before' ++ [left] ∧ right = newChild := by
  have keys : front ++ back = (front' ++ [separator]) ++ back' := by
    rw [← place.keys, List.append_assoc]
    exact pair.keys
  have children : before ++ newChild :: after = (before' ++ [left]) ++ right :: after' := by
    rw [List.append_assoc]
    exact pair.children
  obtain ⟨sameFront, -⟩ := List.append_inj keys (by simp [length, pair.frontLength])
  obtain ⟨sameBefore, rest⟩ :=
    List.append_inj children (by simp [place.length, length, pair.beforeLength])
  exact ⟨sameFront, sameBefore, (List.cons.inj rest).1.symm⟩

/-- What a deletion does to an ordered tree, unless it borrows from a leaf whose only key is its
lower bound. -/
theorem Ordered.deleteRecursive (documented : find.Documented) {tree : Tree height}
    (ordered : Ordered height lo hi tree) (low : lo ≤ fence key) (high : fence key < hi)
    (room : ¬ LendsAlone find maxPageData key height lo hi tree)
    {reply : Option (Bool × Tree height)}
    (done : Tree.deleteRecursive find maxPageData key height tree = some reply) :
    (reply = none → ∀ value, ¬ Has height tree key value) ∧
      ∀ underflow result, reply = some (underflow, result) →
        (∃ value, Has height tree key value) ∧ Ordered height lo hi result ∧
          Updates key none (Has height tree) (Has height result) := by
  induction height generalizing lo hi with
  | zero =>
      rw [Tree.deleteRecursive] at done
      split at done
      next present =>
        obtain ⟨left, removed, same⟩ := Option.bind_eq_some_iff.mp done
        cases same
        refine ⟨nofun, ?_⟩
        rintro underflow result ⟨⟩
        exact ⟨(LeafOrdered.found_iff documented ordered).mp present,
          LeafOrdered.removeEntry documented ordered present removed⟩
      next missing =>
        cases done
        refine ⟨fun _ value has => ?_, nofun⟩
        exact missing ((LeafOrdered.found_iff documented ordered).mpr ⟨value, has⟩)
  | succ height ih =>
      simp only [Tree.deleteRecursive, Option.bind_eq_bind, Option.bind_eq_some_iff] at done
      obtain ⟨child, found, childReply, deleted, done⟩ := done
      have whole : InnerOrdered (Ordered height) lo hi tree := ordered
      obtain ⟨front, back, before, other, after, place, length, within⟩ :=
        whole.route documented low high
      have isChild : some other = some child := by
        rw [← place.getElem?, length]
        exact found
      obtain rfl := Option.some.inj isChild
      obtain ⟨nonempty, fits, replace⟩ := whole.at_place place
      have childRoom : ¬ LendsAlone find maxPageData key height (lower lo front) (upper back hi)
          other := fun alone =>
        room ⟨front, back, before, other, after, place, within, .inr alone⟩
      obtain ⟨absent, removed⟩ := ih fits within.1 within.2 childRoom deleted
      have decides := whole.has_iff place within (Ordered.bounded height)
      cases childReply with
      | none =>
          cases done
          exact ⟨fun _ value has => absent rfl value ((decides value).mp has), nofun⟩
      | some answer =>
          obtain ⟨childUnderflow, newChild⟩ := answer
          obtain ⟨⟨value, has⟩, newFits, updated⟩ := removed childUnderflow newChild rfl
          obtain ⟨children, set, done⟩ := Option.bind_eq_some_iff.mp done
          obtain ⟨balanced, rebalanced, same⟩ := Option.bind_eq_some_iff.mp done
          have isSet : some (before ++ newChild :: after) = some children := by
            rw [← place.setAt, length]
            exact set
          obtain rfl := Option.some.inj isSet
          cases same
          have edited := whole.updates place within (Ordered.bounded height) updated
          have final := Ordered.rebalanceIf (replace newFits) ?_ rebalanced
          · refine ⟨nofun, ?_⟩
            rintro underflow result ⟨⟩
            refine ⟨⟨value, (decides value).mpr has⟩, final.1, fun x w => ?_⟩
            exact (final.2 x w).trans (edited x w)
          · intro index front' separator back' before' left right after' pair position high low alone
            obtain ⟨rfl, rfl, rfl⟩ := place.pair (length.trans position.symm) pair
            cases height with
            | zero =>
                rw [Tree.deleteRecursive] at deleted
                split at deleted
                next present =>
                  obtain ⟨rest, taken, same⟩ := Option.bind_eq_some_iff.mp deleted
                  cases same
                  exact room ⟨_, back, _, other, after, place, within, .inl ⟨front', separator,
                    before', left, right, rfl, rfl, high, alone, present, taken, low⟩⟩
                next => cases deleted
            | succ height =>
                obtain ⟨_, _, -, -, -, fitsLeft⟩ :=
                  whole.chain.exists_fits left (by simp [place.children])
                exact Ordered.not_dividesAlone fitsLeft alone

end Deletion

/-! ## Lookup -/

/-- Following the separators finds the entry of a key. -/
theorem Ordered.search {height : Nat} {lo hi : Fence Bytes} {key : Bytes} {find : Finder}
    (documented : find.Documented) {tree : Tree height} (ordered : Ordered height lo hi tree)
    (low : lo ≤ fence key) (high : fence key < hi) :
    ∃ reply, Tree.search find key height tree = some reply ∧
      ∀ value, Has height tree key value ↔ reply = some value := by
  induction height generalizing lo hi with
  | zero =>
      have found : tree.keys[tree.findKeyIndex find key]? = some key ↔
          ∃ value, LeafHas tree key value := LeafOrdered.found_iff documented ordered
      rw [Tree.search]
      split
      next present =>
        obtain ⟨value, has⟩ := found.mp present
        have values := LeafOrdered.has_iff documented ordered present
        have here := (values value).mp has
        refine ⟨some value, here, fun other => ?_⟩
        exact (values other).trans (by rw [here, Option.some.injEq])
      next missing =>
        refine ⟨none, rfl, fun value => ⟨fun has => ?_, nofun⟩⟩
        exact absurd (found.mpr ⟨value, has⟩) missing
  | succ height ih =>
      have whole : InnerOrdered (Ordered height) lo hi tree := ordered
      obtain ⟨front, back, before, child, after, place, length, within⟩ :=
        whole.route documented low high
      obtain ⟨-, fits, -⟩ := whole.at_place place
      obtain ⟨reply, found, iff⟩ := ih fits within.1 within.2
      have here := place.getElem?
      rw [length] at here
      refine ⟨reply, ?_, fun value => ?_⟩
      · rw [Tree.search]
        exact Option.bind_eq_some_iff.mpr ⟨child, here, found⟩
      · exact (whole.has_iff place within (Ordered.bounded height) value).trans (iff value)

/-! ## Trees as finite maps -/

namespace RootedTree

/-- An ordered tree with the entries of a map. -/
structure Represents (tree : RootedTree) (map : Bytes → Option Bytes) : Prop where
  ordered : Ordered tree.height ⊥ ⊤ tree.root
  entries : ∀ key value, Has tree.height tree.root key value ↔ map key = some value

/-- A put divides a leaf whose only key is its lower bound: the leaf that the key belongs to, or
the right half of a root that is a leaf. -/
def PutDivides (maxPageData : Nat) (tree : RootedTree) (key : Bytes) : Prop :=
  SplitsAlone maxPageData key tree.height ⊥ ⊤ tree.root ∨
    tree.root.isFullBySize maxPageData = true ∧ ∃ left right medianKey,
      tree.root.split = some (left, right, medianKey) ∧ medianKey ≤ key ∧
      right.isFullBySize maxPageData = true ∧ DividesAlone (fence medianKey) right

/-- A deletion divides a leaf whose only key is its lower bound: the left neighbour of the leaf
that the key belongs to. -/
def DeleteDivides (find : Finder) (maxPageData : Nat) (tree : RootedTree) (key : Bytes) : Prop :=
  LendsAlone find maxPageData key tree.height ⊥ ⊤ tree.root

variable {find : Finder} {maxPageData : Nat} {tree result : RootedTree} {key value : Bytes}
variable {map : Bytes → Option Bytes}

theorem represents_empty : empty.Represents fun _ => none := by
  refine ⟨⟨[], [], rfl, entriesIn_nil⟩, fun key value => ?_⟩
  have none : ¬ LeafHas (Node.newLeaf : Tree 0) key value := by simp [LeafHas, Node.newLeaf]
  exact ⟨fun has => absurd has none, fun some => absurd some (Option.some_ne_none value).symm⟩

/-- Changing the entry of one key changes the map at the key. -/
theorem Represents.update {newValue : Option Bytes} {height : Nat} {root : Tree height}
    (represents : tree.Represents map) (ordered : Ordered height ⊥ ⊤ root)
    (updated : Updates key newValue (Has tree.height tree.root) (Has height root)) :
    Represents ⟨height, root⟩ (Function.update map key newValue) := by
  refine ⟨ordered, fun x w => (updated x w).trans ?_⟩
  by_cases equal : x = key
  · subst equal
    simp
  · simp [equal, represents.entries]

theorem Represents.search (documented : find.Documented) (represents : tree.Represents map)
    (key : Bytes) : tree.search find key = some (map key) := by
  obtain ⟨reply, found, iff⟩ := Ordered.search documented represents.ordered
    (bot_lt_fence key).le (fence_lt_top key)
  have same : reply = map key := by
    refine Option.ext fun value => ?_
    rw [← iff value, represents.entries]
  rw [← same]
  exact found

/-- Making room in the root keeps the entries and adds no leaf to be divided alone. -/
theorem Represents.makeRoom (represents : tree.Represents map)
    (away : ¬ tree.PutDivides maxPageData key) (done : tree.makeRoom maxPageData = some result) :
    result.Represents map ∧
      (0 < result.height → ¬ SplitsAlone maxPageData key result.height ⊥ ⊤ result.root) := by
  obtain ⟨height, root⟩ := tree
  rw [RootedTree.makeRoom] at done
  split at done
  next full =>
    obtain ⟨newRoot, splitRoot, same⟩ := Option.bind_eq_some_iff.mp done
    cases same
    obtain ⟨⟨left, right, medianKey⟩, parts, same⟩ := Option.bind_eq_some_iff.mp splitRoot
    cases same
    have room : ¬ DividesAlone ⊥ root := by
      rintro ⟨-, alone⟩
      cases keys : root.keys with
      | nil => simp [keys] at alone
      | cons first rest =>
          rw [keys, List.map_cons, List.cons.injEq] at alone
          exact absurd alone.1 (bot_lt_fence first).ne'
    obtain ⟨halves, same⟩ := Ordered.split represents.ordered room parts
    refine ⟨⟨⟨rfl, rfl, halves⟩, fun key value => ?_⟩, fun _ alone => ?_⟩
    · have pair : InnerHas (Has height) (⟨[medianKey], [], [left, right], false⟩ : Node (Tree height))
          key value ↔ Has height left key value ∨ Has height right key value := by
        simp [InnerHas]
      exact pair.trans ((same key value).trans (represents.entries key value))
    · rcases alone.of_two with ⟨-, below⟩ | ⟨atLeast, above⟩
      · cases height with
        | zero => exact not_splitsAlone_bot below
        | succ height =>
            exact away (.inl (.of_half represents.ordered.inner parts (.inl below)))
      · cases height with
        | zero =>
            exact away (.inr ⟨full, left, right, medianKey, parts, atLeast, above.1, above.2⟩)
        | succ height =>
            exact away (.inl (.of_half represents.ordered.inner parts (.inr above)))
  next =>
    cases done
    exact ⟨represents, fun _ alone => away (.inl alone)⟩

theorem Represents.put (documented : find.Documented) (represents : tree.Represents map)
    (away : ¬ tree.PutDivides maxPageData key)
    (done : tree.put find maxPageData key value = some result) :
    result.Represents (Function.update map key (some value)) := by
  obtain ⟨room, made, done⟩ := Option.bind_eq_some_iff.mp done
  obtain ⟨root, inserted, same⟩ := Option.bind_eq_some_iff.mp done
  cases same
  obtain ⟨roomy, notAlone⟩ := represents.makeRoom away made
  obtain ⟨ordered, updated⟩ := Ordered.insertNonFull documented roomy.ordered (bot_lt_fence key).le
    (fence_lt_top key) notAlone inserted
  exact roomy.update ordered updated

theorem Represents.collapse (represents : tree.Represents map) : tree.collapse.Represents map := by
  obtain ⟨height, root⟩ := tree
  cases height with
  | zero => exact represents
  | succ height =>
      rw [RootedTree.collapse]
      split
      next child keys children =>
        have whole : InnerOrdered (Ordered height) ⊥ ⊤ root := represents.ordered
        have chain := whole.chain
        rw [keys, children] at chain
        cases chain with
        | last nonempty fits =>
            refine ⟨fits, fun key value => ?_⟩
            rw [← represents.entries]
            constructor
            · exact fun has => ⟨child, by rw [children]; exact List.mem_singleton_self child, has⟩
            · rintro ⟨other, member, has⟩
              rw [children] at member
              rw [← List.mem_singleton.mp member]
              exact has
      next => exact represents

/-- A deletion removes one entry of the map and tells whether it was there. -/
theorem Represents.delete (documented : find.Documented) (represents : tree.Represents map)
    (away : ¬ tree.DeleteDivides find maxPageData key) {deleted : Bool}
    (done : tree.delete find maxPageData key = some (deleted, result)) :
    deleted = (map key).isSome ∧ result.Represents (Function.update map key none) := by
  obtain ⟨reply, found, done⟩ := Option.bind_eq_some_iff.mp done
  obtain ⟨absent, removed⟩ := Ordered.deleteRecursive documented represents.ordered
    (bot_lt_fence key).le (fence_lt_top key) away found
  cases reply with
  | none =>
      cases done
      have missing : map key = none := by
        rw [Option.eq_none_iff_forall_ne_some]
        exact fun value here => absent rfl value ((represents.entries key value).mpr here)
      have unchanged : Function.update map key none = map := by
        rw [← missing, Function.update_eq_self]
      rw [missing, unchanged]
      exact ⟨rfl, represents.collapse⟩
  | some answer =>
      obtain ⟨underflow, root⟩ := answer
      cases done
      obtain ⟨⟨value, has⟩, ordered, updated⟩ := removed underflow root rfl
      rw [(represents.entries key value).mp has]
      exact ⟨rfl, (represents.update ordered updated).collapse⟩

end RootedTree

end JouleDB.BTree
