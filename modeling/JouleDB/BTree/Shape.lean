import JouleDB.BTree.Runs

/-!
# Shapes

The counts of a node: a leaf has one value for each key, an internal node one child more than it has
keys.  Every write that returns keeps them, whatever the order of the keys is.
-/

namespace JouleDB.BTree

/-! ## Definitions -/

/-- A leaf with one value for each key. -/
structure LeafShaped {γ : Type} (node : Node γ) : Prop where
  leaf : node.isLeaf = true
  length : node.values.length = node.keys.length

/-- An internal node with one child more than it has keys. -/
structure InnerShaped {γ : Type} (shaped : γ → Prop) (node : Node γ) : Prop where
  inner : node.isLeaf = false
  length : node.children.length = node.keys.length + 1
  all : ∀ child ∈ node.children, shaped child

/-- A tree whose nodes have the right counts. -/
def Shaped : (height : Nat) → Tree height → Prop
  | 0 => LeafShaped
  | height + 1 => InnerShaped (Shaped height)

/-! ## Moving entries of leaves -/

section Leaf

variable {γ : Type} {node left right newLeft newRight : Node γ} {separator newSeparator : Bytes}

theorem split_leaf (leaf : node.isLeaf = true)
    (parts : node.split = some (left, right, separator)) :
    left = { node with
      keys := node.keys.take (node.keys.length / 2)
      values := node.values.take (node.keys.length / 2) } ∧
    right = { node with
      keys := node.keys.drop (node.keys.length / 2)
      values := node.values.drop (node.keys.length / 2), children := [] } ∧
    separator ∈ node.keys := by
  unfold Node.split at parts
  cases found : node.keys[node.keys.length / 2]? with
  | none => simp [found] at parts
  | some medianKey =>
      simp only [found, leaf, Option.bind_eq_bind, Option.bind_some, if_true] at parts
      split at parts
      next =>
        cases parts
        exact ⟨by rw [leaf], by rw [leaf], List.mem_of_getElem? found⟩
      next => cases parts

theorem writeEntry_eq_some {find : Finder} {key value : Bytes}
    (written : node.writeEntry find key value = some right) :
    (∃ front old back, node.values = front ++ old :: back ∧
        right = { node with values := front ++ some value :: back }) ∨
      ∃ front back frontValues backValues, node.keys = front ++ back ∧
        node.values = frontValues ++ backValues ∧
        right = { node with
          keys := front ++ key :: back, values := frontValues ++ some value :: backValues } := by
  simp only [Node.writeEntry] at written
  split at written
  next =>
    obtain ⟨values, set, same⟩ := Option.bind_eq_some_iff.mp written
    obtain ⟨front, old, back, parts, -, rfl⟩ := setAt_eq_some.mp set
    cases same
    exact .inl ⟨front, old, back, parts, rfl⟩
  next =>
    obtain ⟨keys, inserted, written⟩ := Option.bind_eq_some_iff.mp written
    obtain ⟨values, insertedValue, same⟩ := Option.bind_eq_some_iff.mp written
    obtain ⟨front, back, parts, -, rfl⟩ := insertAt_eq_some.mp inserted
    obtain ⟨frontValues, backValues, valueParts, -, rfl⟩ := insertAt_eq_some.mp insertedValue
    cases same
    exact .inr ⟨front, back, frontValues, backValues, parts, valueParts, rfl⟩

theorem removeEntry_eq_some {index : Nat} (removed : node.removeEntry index = some right) :
    ∃ front key back frontValues value backValues, node.keys = front ++ key :: back ∧
      node.values = frontValues ++ value :: backValues ∧ front.length = index ∧
      frontValues.length = index ∧
      right = { node with keys := front ++ back, values := frontValues ++ backValues } := by
  unfold Node.removeEntry at removed
  obtain ⟨keys, removedKey, removed⟩ := Option.bind_eq_some_iff.mp removed
  obtain ⟨values, removedValue, same⟩ := Option.bind_eq_some_iff.mp removed
  obtain ⟨front, key, back, parts, length, rfl⟩ := removeAt_eq_some.mp removedKey
  obtain ⟨frontValues, value, backValues, valueParts, valueLength, rfl⟩ :=
    removeAt_eq_some.mp removedValue
  cases same
  exact ⟨front, key, back, frontValues, value, backValues, parts, valueParts, length, valueLength,
    rfl⟩

theorem lendLeft_leaf (leaf : node.isLeaf = true)
    (lent : Node.lendLeft separator left node = some (newSeparator, newLeft, newRight)) :
    ∃ keys values value, left.keys = keys ++ [newSeparator] ∧ left.values = values ++ [value] ∧
      newLeft = { left with keys := keys, values := values } ∧
      newRight = { node with
        keys := newSeparator :: node.keys, values := value :: node.values } := by
  unfold Node.lendLeft at lent
  rcases List.eq_nil_or_concat left.keys with empty | ⟨keys, key, some⟩
  · simp [empty] at lent
  · rcases List.eq_nil_or_concat left.values with none | ⟨values, value, someValue⟩
    · simp [some, none, leaf] at lent
    · simp only [some, someValue, leaf, List.concat_eq_append, List.getLast?_concat,
        Option.bind_eq_bind, Option.bind_some, if_true, List.dropLast_concat, Option.some.injEq,
        Prod.mk.injEq] at lent
      obtain ⟨rfl, rfl, rfl⟩ := lent
      rw [List.concat_eq_append] at some someValue
      exact ⟨keys, values, value, some, someValue, rfl, by rw [leaf]⟩

theorem lendRight_leaf (leaf : node.isLeaf = true)
    (lent : Node.lendRight separator node right = some (newSeparator, newLeft, newRight)) :
    ∃ first rest value values, right.keys = first :: newSeparator :: rest ∧
      right.values = value :: values ∧
      newLeft = { node with keys := node.keys ++ [first], values := node.values ++ [value] } ∧
      newRight = { right with keys := newSeparator :: rest, values := values } := by
  unfold Node.lendRight at lent
  match keys : right.keys, values : right.values with
  | [], _ => simp [keys] at lent
  | _ :: _, [] => simp [keys, values, leaf] at lent
  | [_], _ :: _ => simp [keys, values, leaf] at lent
  | first :: second :: rest, value :: others =>
      simp only [keys, values, leaf, List.head?_cons, List.tail_cons, Option.bind_eq_bind,
        Option.bind_some, if_true, Option.some.injEq, Prod.mk.injEq] at lent
      obtain ⟨rfl, rfl, rfl⟩ := lent
      exact ⟨first, rest, value, others, rfl, rfl, by rw [leaf], rfl⟩

theorem LeafShaped.split (shaped : LeafShaped node)
    (parts : node.split = some (left, right, separator)) : LeafShaped left ∧ LeafShaped right := by
  obtain ⟨rfl, rfl, -⟩ := split_leaf shaped.leaf parts
  have length := shaped.length
  exact ⟨⟨shaped.leaf, by simp [length]⟩, ⟨shaped.leaf, by simp [length]⟩⟩

theorem LeafShaped.writeEntry {find : Finder} {key value : Bytes} (shaped : LeafShaped node)
    (written : node.writeEntry find key value = some right) : LeafShaped right := by
  have length := shaped.length
  rcases writeEntry_eq_some written with
    ⟨front, old, back, values, rfl⟩ | ⟨front, back, frontValues, backValues, keys, values, rfl⟩
  · refine ⟨shaped.leaf, ?_⟩
    rw [← length, values]
    simp
  · refine ⟨shaped.leaf, ?_⟩
    rw [keys, values, List.length_append, List.length_append] at length
    simp only [List.length_append, List.length_cons]
    omega

theorem LeafShaped.removeEntry {index : Nat} (shaped : LeafShaped node)
    (removed : node.removeEntry index = some right) : LeafShaped right := by
  obtain ⟨front, key, back, frontValues, value, backValues, keys, values, -, -, rfl⟩ :=
    removeEntry_eq_some removed
  have length := shaped.length
  refine ⟨shaped.leaf, ?_⟩
  rw [keys, values, List.length_append, List.length_append, List.length_cons,
    List.length_cons] at length
  simp only [List.length_append]
  omega

theorem LeafShaped.lendLeft (first : LeafShaped left) (second : LeafShaped node)
    (lent : Node.lendLeft separator left node = some (newSeparator, newLeft, newRight)) :
    LeafShaped newLeft ∧ LeafShaped newRight := by
  obtain ⟨keys, values, value, hasKeys, hasValues, rfl, rfl⟩ := lendLeft_leaf second.leaf lent
  have length := first.length
  rw [hasKeys, hasValues, List.length_append, List.length_append] at length
  exact ⟨⟨first.leaf, by simpa using length⟩, ⟨second.leaf, by simp [second.length]⟩⟩

theorem LeafShaped.lendRight (first : LeafShaped node) (second : LeafShaped right)
    (lent : Node.lendRight separator node right = some (newSeparator, newLeft, newRight)) :
    LeafShaped newLeft ∧ LeafShaped newRight := by
  obtain ⟨key, rest, value, values, hasKeys, hasValues, rfl, rfl⟩ := lendRight_leaf first.leaf lent
  have length := second.length
  rw [hasKeys, hasValues] at length
  exact ⟨⟨first.leaf, by simp [first.length]⟩, ⟨second.leaf, by simpa using length⟩⟩

theorem LeafShaped.absorb (first : LeafShaped left) (second : LeafShaped right) :
    LeafShaped (Node.absorb separator left right) := by
  have joined : Node.absorb separator left right =
      { left with keys := left.keys ++ right.keys, values := left.values ++ right.values } := by
    simp [Node.absorb, first.leaf]
  rw [joined]
  exact ⟨first.leaf, by simp [first.length, second.length]⟩

end Leaf

/-! ## Moving children of internal nodes -/

section Inner

variable {γ : Type} {shaped : γ → Prop} {node left right newLeft newRight : Node γ}
variable {separator newSeparator : Bytes}

/-- A part of a node can be replaced by a part with as many children more or fewer as keys. -/
theorem InnerShaped.replace {front middle back middle' : List Bytes}
    {before inside after inside' : List γ} (whole : InnerShaped shaped node)
    (keys : node.keys = front ++ middle ++ back)
    (children : node.children = before ++ inside ++ after)
    (length : inside'.length + middle.length = inside.length + middle'.length)
    (all : ∀ child ∈ inside', shaped child) :
    InnerShaped shaped
      { node with keys := front ++ middle' ++ back, children := before ++ inside' ++ after } := by
  refine ⟨whole.inner, ?_, fun child member => ?_⟩
  · have count := whole.length
    rw [keys, children] at count
    simp only [List.length_append] at count ⊢
    omega
  · rcases List.mem_append.mp member with early | late
    · rcases List.mem_append.mp early with first | here
      · exact whole.all child (by simp [children, first])
      · exact all child here
    · exact whole.all child (by simp [children, late])

theorem InnerShaped.setAt {index : Nat} {child : γ} {children : List γ}
    (whole : InnerShaped shaped node) (here : shaped child)
    (set : setAt node.children index child = some children) :
    InnerShaped shaped { node with children := children } := by
  obtain ⟨before, old, after, parts, -, rfl⟩ := setAt_eq_some.mp set
  refine ⟨whole.inner, ?_, fun other member => ?_⟩
  · have count := whole.length
    rw [parts] at count
    simpa using count
  · rcases List.mem_append.mp member with early | late
    · exact whole.all other (by simp [parts, early])
    · rcases List.mem_cons.mp late with rfl | later
      · exact here
      · exact whole.all other (by simp [parts, later])

theorem InnerShaped.split (whole : InnerShaped shaped node)
    (parts : node.split = some (left, right, separator)) :
    InnerShaped shaped left ∧ InnerShaped shaped right := by
  obtain ⟨front, back, before, after, keys, children, length, rfl, rfl⟩ :=
    split_inner whole.inner parts
  have count := whole.length
  rw [keys, children, List.length_append, List.length_append, List.length_cons] at count
  refine ⟨⟨rfl, length, fun child member => ?_⟩, ⟨rfl, ?_, fun child member => ?_⟩⟩
  · exact whole.all child (by rw [children]; exact List.mem_append_left _ member)
  · dsimp only
    omega
  · exact whole.all child (by rw [children]; exact List.mem_append_right _ member)

theorem InnerShaped.lendLeft (first : InnerShaped shaped left) (second : InnerShaped shaped node)
    (lent : Node.lendLeft separator left node = some (newSeparator, newLeft, newRight)) :
    InnerShaped shaped newLeft ∧ InnerShaped shaped newRight := by
  obtain ⟨front, before, child, keys, children, rfl, rfl⟩ := lendLeft_inner second.inner lent
  have count := first.length
  have all := first.all
  rw [keys, children, List.length_append, List.length_append] at count
  rw [children] at all
  constructor
  · exact ⟨first.inner, by simpa using count, fun other member => all other (by simp [member])⟩
  · refine ⟨second.inner, by simp [second.length], fun other member => ?_⟩
    rcases List.mem_cons.mp member with rfl | later
    · exact all other (by simp)
    · exact second.all other later

theorem InnerShaped.lendRight (first : InnerShaped shaped node) (second : InnerShaped shaped right)
    (lent : Node.lendRight separator node right = some (newSeparator, newLeft, newRight)) :
    InnerShaped shaped newLeft ∧ InnerShaped shaped newRight := by
  obtain ⟨rest, child, others, keys, children, rfl, rfl⟩ := lendRight_inner first.inner lent
  have count := second.length
  have all := second.all
  rw [keys, children] at count
  rw [children] at all
  constructor
  · refine ⟨first.inner, by simp [first.length], fun other member => ?_⟩
    rcases List.mem_append.mp member with early | last
    · exact first.all other early
    · rw [List.mem_singleton.mp last]
      exact all child List.mem_cons_self
  · exact ⟨second.inner, by simpa using count, fun other member => all other (by simp [member])⟩

theorem InnerShaped.absorb (first : InnerShaped shaped left) (second : InnerShaped shaped right) :
    InnerShaped shaped (Node.absorb separator left right) := by
  have joined : Node.absorb separator left right = { left with
      keys := left.keys ++ separator :: right.keys
      children := left.children ++ right.children } := by
    simp [Node.absorb, first.inner]
  rw [joined]
  refine ⟨first.inner, ?_, fun child member => ?_⟩
  · simp only [List.length_append, List.length_cons, first.length, second.length]
    omega
  · rcases List.mem_append.mp member with early | late
    · exact first.all child early
    · exact second.all child late

end Inner

/-! ## Trees of one height -/

section Level

variable {height : Nat} {tree left right newLeft newRight : Tree height}
variable {separator newSeparator : Bytes}

theorem Shaped.split (shaped : Shaped height tree)
    (parts : tree.split = some (left, right, separator)) :
    Shaped height left ∧ Shaped height right := by
  cases height with
  | zero => exact LeafShaped.split shaped parts
  | succ height => exact InnerShaped.split shaped parts

theorem Shaped.lendLeft (first : Shaped height left) (second : Shaped height tree)
    (lent : Node.lendLeft separator left tree = some (newSeparator, newLeft, newRight)) :
    Shaped height newLeft ∧ Shaped height newRight := by
  cases height with
  | zero => exact LeafShaped.lendLeft first second lent
  | succ height => exact InnerShaped.lendLeft first second lent

theorem Shaped.lendRight (first : Shaped height tree) (second : Shaped height right)
    (lent : Node.lendRight separator tree right = some (newSeparator, newLeft, newRight)) :
    Shaped height newLeft ∧ Shaped height newRight := by
  cases height with
  | zero => exact LeafShaped.lendRight first second lent
  | succ height => exact InnerShaped.lendRight first second lent

theorem Shaped.absorb (first : Shaped height left) (second : Shaped height right) :
    Shaped height (Node.absorb separator left right) := by
  cases height with
  | zero => exact LeafShaped.absorb first second
  | succ height => exact InnerShaped.absorb first second

end Level

/-! ## Changes below a node -/

section Parent

variable {height : Nat} {parent result : Node (Tree height)} {index : Nat}

theorem InnerShaped.splitChild (shaped : InnerShaped (Shaped height) parent)
    (done : parent.splitChild index = some result) : InnerShaped (Shaped height) result := by
  obtain ⟨front, back, before, child, after, left, right, separator, place, -, parts, rfl⟩ :=
    splitChild_eq_some done
  have halves := Shaped.split (shaped.all child (by simp [place.children])) parts
  have keys : parent.keys = front ++ [] ++ back := by simpa using place.keys
  have children : parent.children = before ++ [child] ++ after := by simpa using place.children
  exact shaped.replace keys children rfl (by simpa using halves)

/-- The two children of a pair can be replaced. -/
theorem InnerShaped.replace_pair {front middle back : List Bytes} {separator : Bytes}
    {before inside after : List (Tree height)} {left right : Tree height}
    (shaped : InnerShaped (Shaped height) parent)
    (pair : Pair parent index front separator back before left right after)
    (length : inside.length = middle.length + 1) (all : ∀ child ∈ inside, Shaped height child) :
    InnerShaped (Shaped height)
      { parent with keys := front ++ middle ++ back, children := before ++ inside ++ after } := by
  have keys : parent.keys = front ++ [separator] ++ back := by simpa using pair.keys
  have children : parent.children = before ++ [left, right] ++ after := by simpa using pair.children
  refine shaped.replace keys children ?_ all
  simp only [List.length_cons, List.length_nil]
  omega

theorem InnerShaped.pair {front back : List Bytes} {separator : Bytes}
    {before after : List (Tree height)} {left right : Tree height}
    (shaped : InnerShaped (Shaped height) parent)
    (pair : Pair parent index front separator back before left right after) :
    Shaped height left ∧ Shaped height right :=
  ⟨shaped.all left (by simp [pair.children]), shaped.all right (by simp [pair.children])⟩

theorem InnerShaped.rebalanceAfterDelete {maxPageData childIdx : Nat}
    (shaped : InnerShaped (Shaped height) parent)
    (done : parent.rebalanceAfterDelete maxPageData childIdx = some result) :
    InnerShaped (Shaped height) result := by
  rcases rebalanceAfterDelete_eq_some done with
    rfl | ⟨index, _, _, rfl, -, -, -, -, borrowed⟩ | ⟨_, _, -, -, -, -, -, borrowed⟩ |
      ⟨index, _, _, _, rfl, -, -, -, -, merged⟩ | ⟨_, _, _, -, -, -, -, merged⟩
  · exact shaped
  · obtain ⟨front, separator, back, before, left, child, after, newSeparator, newLeft, newChild, pair,
      lent, rfl⟩ := borrowFromLeft_eq_some borrowed
    obtain ⟨first, second⟩ := shaped.pair pair
    exact shaped.replace_pair pair rfl (by simpa using Shaped.lendLeft first second lent)
  · obtain ⟨front, separator, back, before, child, right, after, newSeparator, newChild, newRight,
      pair, lent, rfl⟩ := borrowFromRight_eq_some borrowed
    obtain ⟨first, second⟩ := shaped.pair pair
    exact shaped.replace_pair pair rfl (by simpa using Shaped.lendRight first second lent)
  · obtain ⟨front, separator, back, before, left, child, after, pair, rfl⟩ :=
      mergeWithLeft_eq_some merged
    obtain ⟨first, second⟩ := shaped.pair pair
    exact shaped.replace_pair pair rfl (by simpa using Shaped.absorb first second)
  · obtain ⟨front, separator, back, before, child, right, after, pair, rfl⟩ :=
      mergeWithRight_eq_some merged
    obtain ⟨first, second⟩ := shaped.pair pair
    exact shaped.replace_pair pair rfl (by simpa using Shaped.absorb first second)

end Parent

/-! ## Writes -/

section Writes

variable {find : Finder} {maxPageData : Nat} {key value : Bytes}

theorem Shaped.insertNonFull {height : Nat} {tree result : Tree height}
    (shaped : Shaped height tree)
    (done : Tree.insertNonFull find maxPageData key value height tree = some result) :
    Shaped height result := by
  induction height with
  | zero => exact LeafShaped.writeEntry shaped done
  | succ height ih =>
      simp only [Tree.insertNonFull, Option.bind_eq_bind, Option.bind_eq_some_iff] at done
      obtain ⟨child, -, middle, made, target, found, newTarget, inserted, children, set, same⟩ := done
      cases same
      have ready : InnerShaped (Shaped height) middle := by
        unfold Node.makeRoom at made
        split at made
        next => exact InnerShaped.splitChild shaped made
        next =>
          cases made
          exact shaped
      exact ready.setAt (ih (ready.all target (List.mem_of_getElem? found)) inserted) set

theorem Shaped.deleteRecursive {height : Nat} {tree result : Tree height} {underflow : Bool}
    (shaped : Shaped height tree)
    (done : Tree.deleteRecursive find maxPageData key height tree = some (some (underflow, result))) :
    Shaped height result := by
  induction height generalizing underflow with
  | zero =>
      rw [Tree.deleteRecursive] at done
      split at done
      next =>
        obtain ⟨rest, removed, same⟩ := Option.bind_eq_some_iff.mp done
        cases same
        exact LeafShaped.removeEntry shaped removed
      next => cases done
  | succ height ih =>
      simp only [Tree.deleteRecursive, Option.bind_eq_bind, Option.bind_eq_some_iff] at done
      obtain ⟨child, found, reply, deleted, done⟩ := done
      cases reply with
      | none => cases done
      | some answer =>
          obtain ⟨childUnderflow, newChild⟩ := answer
          obtain ⟨children, set, done⟩ := Option.bind_eq_some_iff.mp done
          obtain ⟨balanced, rebalanced, same⟩ := Option.bind_eq_some_iff.mp done
          cases same
          have whole : InnerShaped (Shaped height) tree := shaped
          have replaced := whole.setAt (ih (whole.all child (List.mem_of_getElem? found)) deleted) set
          cases childUnderflow with
          | true => exact replaced.rebalanceAfterDelete rebalanced
          | false =>
              cases rebalanced
              exact replaced

/-- A rooted tree whose nodes have the right counts. -/
def RootedTree.Shaped (tree : RootedTree) : Prop := BTree.Shaped tree.height tree.root

theorem RootedTree.Shaped.put {tree result : RootedTree} (shaped : tree.Shaped)
    (done : tree.put find maxPageData key value = some result) : result.Shaped := by
  obtain ⟨middle, made, done⟩ := Option.bind_eq_some_iff.mp done
  obtain ⟨root, inserted, same⟩ := Option.bind_eq_some_iff.mp done
  cases same
  have ready : middle.Shaped := by
    unfold RootedTree.makeRoom at made
    split at made
    next =>
      obtain ⟨newRoot, splitRoot, same⟩ := Option.bind_eq_some_iff.mp made
      obtain ⟨⟨left, right, medianKey⟩, parts, same'⟩ := Option.bind_eq_some_iff.mp splitRoot
      cases same
      cases same'
      have halves := BTree.Shaped.split shaped parts
      exact ⟨rfl, rfl, List.forall_mem_cons.mpr ⟨halves.1, List.forall_mem_singleton.mpr halves.2⟩⟩
    next =>
      cases made
      exact shaped
  exact BTree.Shaped.insertNonFull ready inserted

theorem RootedTree.Shaped.collapse {tree : RootedTree} (shaped : tree.Shaped) :
    tree.collapse.Shaped := by
  obtain ⟨height, root⟩ := tree
  cases height with
  | zero => exact shaped
  | succ height =>
      rw [RootedTree.collapse]
      split
      next child _ children =>
        have whole : InnerShaped (BTree.Shaped height) root := shaped
        exact whole.all child (by rw [children]; exact List.mem_singleton_self child)
      next => exact shaped

theorem RootedTree.Shaped.delete {tree result : RootedTree} {deleted : Bool}
    (shaped : tree.Shaped) (done : tree.delete find maxPageData key = some (deleted, result)) :
    result.Shaped := by
  obtain ⟨reply, found, done⟩ := Option.bind_eq_some_iff.mp done
  cases reply with
  | none =>
      cases done
      exact shaped.collapse
  | some answer =>
      obtain ⟨underflow, root⟩ := answer
      cases done
      have whole : RootedTree.Shaped ⟨tree.height, root⟩ := BTree.Shaped.deleteRecursive shaped found
      exact whole.collapse

end Writes

namespace TreeCall

variable {find : Finder} {maxPageData : Nat}

theorem shaped_step {tree : RootedTree} (shaped : tree.Shaped) (call : TreeCall) :
    (call.step find maxPageData tree).Shaped := by
  rw [step]
  cases done : call.after find maxPageData tree with
  | none => exact shaped
  | some result =>
      rw [Option.getD_some]
      cases call with
      | put key value => exact shaped.put done
      | delete key =>
          obtain ⟨⟨deleted, other⟩, removed, rfl⟩ := Option.map_eq_some_iff.mp done
          exact shaped.delete removed

theorem shaped_run (calls : List TreeCall) : (run find maxPageData calls).Shaped := by
  have general : ∀ tree : RootedTree, tree.Shaped →
      (calls.foldl (step find maxPageData) tree).Shaped := by
    induction calls with
    | nil => exact fun tree shaped => shaped
    | cons call calls ih => exact fun tree shaped => ih _ (shaped_step shaped call)
  exact general .empty ⟨rfl, rfl⟩

end TreeCall

end JouleDB.BTree
