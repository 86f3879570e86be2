import JouleDB.BTree.Shape

/-!
# Lending siblings

A leaf that underflows borrows from a sibling that does not underflow by its size.  A left sibling
has an entry to lend then, and so has an internal sibling on the right.  A leaf on the right has to
have two: one that it lends, and one whose key becomes the separator.
-/

namespace JouleDB.BTree

/-! ## Definitions -/

namespace Node

variable {γ : Type}

/-- A leaf without the entry at an index. -/
def without (node : Node γ) (index : Nat) : Node γ :=
  { node with keys := node.keys.eraseIdx index, values := node.values.eraseIdx index }

end Node

/-- A leaf that underflows would borrow the only entry of its right neighbour: no left neighbour can
lend, and the right neighbour does not underflow although it has one key. -/
def BorrowsLast {γ : Type} (maxPageData : Nat) (siblings : List (Node γ)) (index : Nat)
    (leaf : Node γ) : Prop :=
  leaf.isLeaf = true ∧ leaf.isUnderflowingBySize maxPageData = true ∧
    (∀ left, 0 < index → siblings[index - 1]? = some left →
      left.isUnderflowingBySize maxPageData = true) ∧
    ∃ right, siblings[index + 1]? = some right ∧
      right.isUnderflowingBySize maxPageData = false ∧ right.keys.length = 1

/-- The leaf that a key is routed to has the key and would borrow in this way without it. -/
def LendsLast (find : Finder) (maxPageData : Nat) (key : Bytes) :
    (height : Nat) → Tree height → Prop
  | 0, _ => False
  | height + 1, node =>
      ∃ child : Tree height, node.children[node.childIndex find key]? = some child ∧
        (child.keys[child.findKeyIndex find key]? = some key ∧
            BorrowsLast maxPageData node.children (node.childIndex find key)
              (child.without (child.findKeyIndex find key)) ∨
          LendsLast find maxPageData key height child)

/-! ## Sizes and counts -/

section Sizes

variable {γ : Type} {node : Node γ} {maxPageData : Nat}

theorem LeafShaped.le_serializedSize (shaped : LeafShaped node) : 5 ≤ node.serializedSize := by
  simp only [Node.serializedSize, shaped.leaf, if_true]
  omega

theorem LeafShaped.serializedSize_nil (shaped : LeafShaped node) (empty : node.keys = []) :
    node.serializedSize = 5 := by
  have values : node.values = [] := by
    rw [← List.length_eq_zero_iff, shaped.length, empty, List.length_nil]
  simp [Node.serializedSize, shaped.leaf, empty, values]

theorem InnerShaped.le_serializedSize {shaped : γ → Prop} (whole : InnerShaped shaped node) :
    17 ≤ node.serializedSize := by
  have count := whole.length
  simp only [Node.serializedSize, whole.inner, Bool.false_eq_true, if_false]
  omega

theorem InnerShaped.serializedSize_nil {shaped : γ → Prop} (whole : InnerShaped shaped node)
    (empty : node.keys = []) : node.serializedSize = 17 := by
  have count : node.children.length = 1 := by rw [whole.length, empty, List.length_nil]
  simp [Node.serializedSize, whole.inner, empty, count]

/-- A node that does not underflow has a key, if a node of its height underflows. -/
theorem Shaped.keys_ne_nil {height : Nat} {low high : Tree height} (first : Shaped height low)
    (second : Shaped height high) (underflow : low.isUnderflowingBySize maxPageData = true)
    (spare : high.isUnderflowingBySize maxPageData = false) : high.keys ≠ [] := by
  intro empty
  simp only [Node.isUnderflowingBySize, decide_eq_true_eq, decide_eq_false_iff_not] at underflow spare
  cases height with
  | zero =>
      have least := LeafShaped.le_serializedSize first
      have size := LeafShaped.serializedSize_nil second empty
      omega
  | succ height =>
      have least := InnerShaped.le_serializedSize first
      have size := InnerShaped.serializedSize_nil second empty
      omega

end Sizes

/-! ## Lending -/

section Lend

variable {γ : Type} {node left right : Node γ} {separator : Bytes}

theorem LeafShaped.lendLeft_isSome (first : LeafShaped left) (second : LeafShaped node)
    (some : left.keys ≠ []) : (Node.lendLeft separator left node).isSome = true := by
  have values : left.values ≠ [] := by
    rw [← List.length_pos_iff, first.length]
    exact List.length_pos_iff.mpr some
  simp [Node.lendLeft, second.leaf, List.getLast?_eq_some_getLast some,
    List.getLast?_eq_some_getLast values]

theorem InnerShaped.lendLeft_isSome {shaped : γ → Prop} (first : InnerShaped shaped left)
    (second : InnerShaped shaped node) (some : left.keys ≠ []) :
    (Node.lendLeft separator left node).isSome = true := by
  have children : left.children ≠ [] := by
    rw [← List.length_pos_iff, first.length]
    omega
  simp [Node.lendLeft, second.inner, List.getLast?_eq_some_getLast some,
    List.getLast?_eq_some_getLast children]

theorem LeafShaped.lendRight_isSome (first : LeafShaped node) (second : LeafShaped right)
    (some : right.keys ≠ []) :
    (Node.lendRight separator node right).isSome = true ↔ right.keys.length ≠ 1 := by
  have length := second.length
  match keys : right.keys, values : right.values with
  | [], _ => exact absurd keys some
  | _ :: _, [] => simp [keys, values] at length
  | [_], _ :: _ => simp [Node.lendRight, first.leaf, keys, values]
  | _ :: _ :: _, _ :: _ => simp [Node.lendRight, first.leaf, keys, values]

theorem InnerShaped.lendRight_isSome {shaped : γ → Prop} (first : InnerShaped shaped node)
    (second : InnerShaped shaped right) (some : right.keys ≠ []) :
    (Node.lendRight separator node right).isSome = true := by
  have length := second.length
  match keys : right.keys, children : right.children with
  | [], _ => exact absurd keys some
  | _ :: _, [] => simp [children] at length
  | _ :: _, _ :: _ => simp [Node.lendRight, first.inner, keys, children]

theorem Shaped.lendLeft_isSome {height : Nat} {tree left : Tree height} (first : Shaped height left)
    (second : Shaped height tree) (some : left.keys ≠ []) :
    (Node.lendLeft separator left tree).isSome = true := by
  cases height with
  | zero => exact LeafShaped.lendLeft_isSome first second some
  | succ height => exact InnerShaped.lendLeft_isSome first second some

theorem Shaped.lendRight_isSome {height : Nat} {tree right : Tree height}
    (first : Shaped height tree) (second : Shaped height right) (some : right.keys ≠ []) :
    (Node.lendRight separator tree right).isSome = true ↔
      ¬ (tree.isLeaf = true ∧ right.keys.length = 1) := by
  cases height with
  | zero =>
      rw [not_and]
      exact (LeafShaped.lendRight_isSome first second some).trans
        ⟨fun more _ => more, fun more => more (LeafShaped.leaf first)⟩
  | succ height =>
      refine iff_of_true (InnerShaped.lendRight_isSome first second some) fun ⟨leaf, _⟩ => ?_
      exact Bool.false_ne_true ((InnerShaped.inner first).symm.trans leaf)

end Lend

/-! ## Rebalancing -/

section Rebalance

variable {height maxPageData index : Nat} {parent : Node (Tree height)} {child : Tree height}

theorem InnerShaped.exists_pair (shaped : InnerShaped (Shaped height) parent)
    (inside : index + 1 < parent.children.length) :
    ∃ front separator back before left right after,
      Pair parent index front separator back before left right after := by
  have count := shaped.length
  have first := List.getElem?_eq_getElem (Nat.lt_of_succ_lt inside)
  have second := List.getElem?_eq_getElem inside
  have between : index < parent.keys.length := by omega
  obtain ⟨front, back, before, after, pair⟩ :=
    BTree.exists_pair first second (List.getElem?_eq_getElem between)
  exact ⟨front, _, back, before, _, _, after, pair⟩

variable (maxPageData child) in
/-- Merging a child with a neighbour does not panic. -/
theorem InnerShaped.merge_isSome (shaped : InnerShaped (Shaped height) parent)
    (inside : index < parent.children.length) :
    (do
      if ← parent.fitsLeft maxPageData child index then
        parent.mergeWithLeft index
      else if ← parent.fitsRight maxPageData child index then
        parent.mergeWithRight index
      else
        some parent).isSome = true := by
  have right : (do
      if ← parent.fitsRight maxPageData child index then
        parent.mergeWithRight index
      else
        some parent).isSome = true := by
    rw [Node.fitsRight]
    split
    next more =>
      obtain ⟨_, _, _, _, _, _, _, pair⟩ := shaped.exists_pair (show index + 1 < parent.children.length by omega)
      rw [pair.second, pair.between]
      simp only [Option.bind_eq_bind, Option.bind_some]
      split
      · rw [pair.mergeWithRight]
        rfl
      · rfl
    next => rfl
  cases index with
  | zero =>
      rw [Node.fitsLeft, if_neg (Nat.lt_irrefl 0)]
      exact right
  | succ index =>
      obtain ⟨_, _, _, _, _, _, _, pair⟩ := shaped.exists_pair inside
      rw [Node.fitsLeft, if_pos (Nat.succ_pos index), Nat.add_sub_cancel, pair.first, pair.between]
      simp only [Option.bind_eq_bind, Option.bind_some]
      split
      · rw [pair.mergeWithLeft]
        rfl
      · exact right

/-- Rebalancing panics only if a leaf would borrow the last entry of its right neighbour. -/
theorem InnerShaped.rebalanceAfterDelete_isSome (shaped : InnerShaped (Shaped height) parent)
    (found : parent.children[index]? = some child) :
    (parent.rebalanceAfterDelete maxPageData index).isSome = true ↔
      ¬ BorrowsLast maxPageData parent.children index child := by
  have inside : index < parent.children.length := (List.getElem?_eq_some_iff.mp found).1
  have here := shaped.all child (List.mem_of_getElem? found)
  have merge := shaped.merge_isSome maxPageData child inside
  simp only [Node.rebalanceAfterDelete, found, Option.bind_eq_bind, Option.bind_some]
  cases low : child.isUnderflowingBySize maxPageData with
  | false =>
      refine iff_of_true rfl ?_
      rintro ⟨-, underflow, -⟩
      exact Bool.false_ne_true (low.symm.trans underflow)
  | true =>
      simp only [Bool.not_true, Bool.false_eq_true, if_false]
      -- the right neighbour is asked when no left neighbour lends
      have right (full : ∀ left, 0 < index → parent.children[index - 1]? = some left →
          left.isUnderflowingBySize maxPageData = true) :
          (do
            if ← parent.lendsRight maxPageData index then
              parent.borrowFromRight index
            else if ← parent.fitsLeft maxPageData child index then
              parent.mergeWithLeft index
            else if ← parent.fitsRight maxPageData child index then
              parent.mergeWithRight index
            else
              some parent).isSome = true ↔ ¬ BorrowsLast maxPageData parent.children index child := by
        rw [Node.lendsRight]
        split
        next more =>
          obtain ⟨_, separator, _, _, first, other, _, pair⟩ :=
            shaped.exists_pair (show index + 1 < parent.children.length by omega)
          obtain rfl : first = child := Option.some.inj (pair.first.symm.trans found)
          rw [pair.second]
          simp only [Option.bind_eq_bind, Option.bind_some]
          cases spare : other.isUnderflowingBySize maxPageData with
          | true =>
              refine iff_of_true merge ?_
              rintro ⟨-, -, -, last, isLast, spare', -⟩
              obtain rfl := Option.some.inj (pair.second.symm.trans isLast)
              exact Bool.false_ne_true (spare'.symm.trans spare)
          | false =>
              simp only [Bool.not_false, if_true]
              have neighbour := (shaped.pair pair).2
              have some := here.keys_ne_nil neighbour low spare
              rw [pair.borrowFromRight, Option.isSome_map, Shaped.lendRight_isSome here neighbour some,
                not_iff_not]
              constructor
              · rintro ⟨leaf, single⟩
                exact ⟨leaf, low, full, other, pair.second, spare, single⟩
              · rintro ⟨leaf, -, -, last, isLast, -, single⟩
                obtain rfl := Option.some.inj (pair.second.symm.trans isLast)
                exact ⟨leaf, single⟩
        next least =>
          refine iff_of_true merge ?_
          rintro ⟨-, -, -, last, isLast, -⟩
          have outside := (List.getElem?_eq_some_iff.mp isLast).1
          omega
      cases index with
      | zero =>
          rw [Node.lendsLeft, if_neg (Nat.lt_irrefl 0)]
          exact right fun _ positive => absurd positive (Nat.lt_irrefl 0)
      | succ index =>
          obtain ⟨_, separator, _, _, first, other, _, pair⟩ := shaped.exists_pair inside
          obtain rfl : other = child := Option.some.inj (pair.second.symm.trans found)
          rw [Node.lendsLeft, if_pos (Nat.succ_pos index), Nat.add_sub_cancel, pair.first]
          simp only [Option.bind_eq_bind, Option.bind_some]
          cases spare : first.isUnderflowingBySize maxPageData with
          | true =>
              refine right fun left _ isLeft => ?_
              obtain rfl := Option.some.inj (pair.first.symm.trans isLeft)
              exact spare
          | false =>
              simp only [Bool.not_false, if_true]
              have neighbour := (shaped.pair pair).1
              have some := here.keys_ne_nil neighbour low spare
              rw [pair.borrowFromLeft, Option.isSome_map]
              refine iff_of_true (Shaped.lendLeft_isSome neighbour here some) ?_
              rintro ⟨-, -, full, -⟩
              exact Bool.false_ne_true
                (spare.symm.trans (full first (Nat.succ_pos index) pair.first))

end Rebalance

/-! ## Deletion -/

section Deletion

variable {find : Finder} {maxPageData : Nat} {key : Bytes}

theorem childIndex_le {γ : Type} {node : Node γ} (inside : find node.keys key ≤ node.keys.length) :
    node.childIndex find key ≤ node.keys.length := by
  rw [Node.childIndex, Node.findKeyIndex]
  split
  next found => exact (List.getElem?_eq_some_iff.mp found).1
  next => exact inside

theorem LeafShaped.removeEntry_eq {γ : Type} {node : Node γ} {index : Nat}
    (shaped : LeafShaped node) (inside : index < node.keys.length) :
    node.removeEntry index = some (node.without index) := by
  have insideValues : index < node.values.length := shaped.length.symm ▸ inside
  simp [Node.removeEntry, removeAt, inside, insideValues, Node.without, List.eraseIdx_eq_take_drop_succ]

/-- Only the neighbours decide about borrowing. -/
theorem borrowsLast_setAt {γ : Type} {siblings siblings' : List (Node γ)} {index : Nat}
    {other leaf : Node γ} (set : setAt siblings index other = some siblings') :
    BorrowsLast maxPageData siblings' index leaf ↔ BorrowsLast maxPageData siblings index leaf := by
  have same : ∀ position, position ≠ index → siblings'[position]? = siblings[position]? :=
    fun position away => getElem?_setAt_of_ne set away
  have isLeft : 0 < index → siblings'[index - 1]? = siblings[index - 1]? :=
    fun positive => same (index - 1) (by omega)
  rw [BorrowsLast, BorrowsLast, same (index + 1) (Nat.succ_ne_self index)]
  refine and_congr_right fun _ => and_congr_right fun _ => and_congr_left fun _ => ?_
  exact forall_congr' fun left => forall_congr' fun positive => by rw [isLeft positive]

theorem Shaped.isLeaf_eq {height : Nat} {tree other : Tree height} (first : Shaped height tree)
    (second : Shaped height other) : tree.isLeaf = other.isLeaf := by
  cases height with
  | zero => exact (LeafShaped.leaf first).trans (LeafShaped.leaf second).symm
  | succ height => exact (InnerShaped.inner first).trans (InnerShaped.inner second).symm

theorem deleteRecursive_eq_some {height : Nat} {tree result : Tree height} {underflow : Bool}
    (shaped : Shaped height tree)
    (done : Tree.deleteRecursive find maxPageData key height tree = some (some (underflow, result))) :
    underflow = result.isUnderflowingBySize maxPageData ∧
      (tree.isLeaf = true → tree.keys[tree.findKeyIndex find key]? = some key ∧
        result = tree.without (tree.findKeyIndex find key)) := by
  cases height with
  | zero =>
      rw [Tree.deleteRecursive] at done
      split at done
      next found =>
        rw [LeafShaped.removeEntry_eq shaped (List.getElem?_eq_some_iff.mp found).1] at done
        cases done
        exact ⟨rfl, fun _ => ⟨found, rfl⟩⟩
      next => cases done
  | succ height =>
      simp only [Tree.deleteRecursive, Option.bind_eq_bind, Option.bind_eq_some_iff] at done
      obtain ⟨child, -, reply, -, done⟩ := done
      cases reply with
      | none => cases done
      | some answer =>
          obtain ⟨children, -, done⟩ := Option.bind_eq_some_iff.mp done
          obtain ⟨balanced, -, same⟩ := Option.bind_eq_some_iff.mp done
          cases same
          refine ⟨rfl, fun leaf => ?_⟩
          exact absurd ((InnerShaped.inner shaped).symm.trans leaf) Bool.false_ne_true

/-- A deletion from a leaf finds the key or changes nothing. -/
theorem deleteRecursive_leaf {height : Nat} {tree : Tree height} (shaped : Shaped height tree)
    (leaf : tree.isLeaf = true)
    (done : Tree.deleteRecursive find maxPageData key height tree = some none) :
    tree.keys[tree.findKeyIndex find key]? ≠ some key := by
  cases height with
  | zero =>
      rw [Tree.deleteRecursive] at done
      split at done
      next =>
        obtain ⟨rest, -, same⟩ := Option.bind_eq_some_iff.mp done
        cases same
      next missing => exact missing
  | succ height =>
      exact absurd ((InnerShaped.inner shaped).symm.trans leaf) Bool.false_ne_true

/-- A deletion panics only if a leaf would borrow the last entry of its right neighbour. -/
theorem Shaped.deleteRecursive_isSome (documented : find.Documented) {height : Nat}
    {tree : Tree height} (shaped : Shaped height tree) :
    (Tree.deleteRecursive find maxPageData key height tree).isSome = true ↔
      ¬ LendsLast find maxPageData key height tree := by
  induction height with
  | zero =>
      refine iff_of_true ?_ id
      rw [Tree.deleteRecursive]
      split
      next found =>
        have inside := (List.getElem?_eq_some_iff.mp found).1
        rw [LeafShaped.removeEntry_eq shaped inside]
        rfl
      next => rfl
  | succ height ih =>
      have whole : InnerShaped (Shaped height) tree := shaped
      have least : tree.childIndex find key ≤ tree.keys.length :=
        childIndex_le (documented.inside tree.keys key)
      obtain ⟨child, found⟩ : ∃ child : Tree height,
          tree.children[tree.childIndex find key]? = some child :=
        ⟨_, List.getElem?_eq_getElem (lt_of_le_of_lt least (whole.length ▸ Nat.lt_succ_self _))⟩
      have here : Shaped height child := whole.all child (List.mem_of_getElem? found)
      have isChild : LendsLast find maxPageData key (height + 1) tree ↔
          child.keys[child.findKeyIndex find key]? = some key ∧
              BorrowsLast maxPageData tree.children (tree.childIndex find key)
                (child.without (child.findKeyIndex find key)) ∨
            LendsLast find maxPageData key height child := by
        constructor
        · rintro ⟨other, isOther, lends⟩
          obtain rfl : child = other := Option.some.inj (found.symm.trans isOther)
          exact lends
        · exact fun lends => ⟨child, found, lends⟩
      have below := ih here
      rw [isChild, not_or]
      cases deleted : Tree.deleteRecursive find maxPageData key height child with
      | none =>
          rw [deleted] at below
          refine iff_of_false ?_ ?_
          swap
          · rintro ⟨-, fine⟩
            exact Bool.false_ne_true (below.mpr fine)
          intro returns
          obtain ⟨reply, done⟩ := Option.isSome_iff_exists.mp returns
          simp only [Tree.deleteRecursive, Option.bind_eq_bind, Option.bind_eq_some_iff] at done
          obtain ⟨other, isOther, _, deleted', -⟩ := done
          obtain rfl : child = other := Option.some.inj (found.symm.trans isOther)
          cases deleted.symm.trans deleted'
      | some reply =>
          rw [deleted] at below
          have fine := below.mp rfl
          cases reply with
          | none =>
              refine iff_of_true ?_ ⟨?_, fine⟩
              · rw [Tree.deleteRecursive, Option.isSome_iff_exists]
                exact ⟨none, Option.bind_eq_some_iff.mpr ⟨child, found,
                  Option.bind_eq_some_iff.mpr ⟨none, deleted, rfl⟩⟩⟩
              · rintro ⟨present, leaf, -⟩
                exact deleteRecursive_leaf here leaf deleted present
          | some answer =>
              obtain ⟨underflow, newChild⟩ := answer
              obtain ⟨children, set⟩ : ∃ children : List (Tree height),
                  setAt tree.children (tree.childIndex find key) newChild = some children :=
                ⟨_, if_pos (List.getElem?_eq_some_iff.mp found).1⟩
              have there := getElem?_setAt set
              have reduced : (Tree.deleteRecursive find maxPageData key (height + 1) tree).isSome = true ↔
                  (Node.rebalanceIf maxPageData underflow
                    ({ tree with children := children } : Node (Tree height))
                    (tree.childIndex find key)).isSome = true := by
                constructor
                · intro returns
                  obtain ⟨result, done⟩ := Option.isSome_iff_exists.mp returns
                  simp only [Tree.deleteRecursive, Option.bind_eq_bind,
                    Option.bind_eq_some_iff] at done
                  obtain ⟨other, isOther, _, deleted', done⟩ := done
                  obtain rfl : child = other := Option.some.inj (found.symm.trans isOther)
                  cases deleted.symm.trans deleted'
                  obtain ⟨children', set', done⟩ := Option.bind_eq_some_iff.mp done
                  cases set.symm.trans set'
                  obtain ⟨balanced, rebalanced, -⟩ := Option.bind_eq_some_iff.mp done
                  exact Option.isSome_iff_exists.mpr ⟨balanced, rebalanced⟩
                · intro returns
                  obtain ⟨balanced, rebalanced⟩ := Option.isSome_iff_exists.mp returns
                  rw [Tree.deleteRecursive, Option.isSome_iff_exists]
                  exact ⟨_, Option.bind_eq_some_iff.mpr ⟨child, found, Option.bind_eq_some_iff.mpr
                    ⟨_, deleted, Option.bind_eq_some_iff.mpr ⟨children, set,
                      Option.bind_eq_some_iff.mpr ⟨balanced, rebalanced, rfl⟩⟩⟩⟩⟩
              have newHere := here.deleteRecursive deleted
              have replaced := whole.setAt newHere set
              obtain ⟨isUnderflow, fromLeaf⟩ := deleteRecursive_eq_some here deleted
              rw [reduced, and_iff_left fine]
              cases underflow with
              | false =>
                  refine iff_of_true rfl ?_
                  rintro ⟨-, leaf, low, -⟩
                  rw [← (fromLeaf leaf).2] at low
                  exact Bool.false_ne_true (isUnderflow.trans low)
              | true =>
                  refine (replaced.rebalanceAfterDelete_isSome there).trans (not_congr ?_)
                  refine (borrowsLast_setAt set).trans ?_
                  constructor
                  · intro borrows
                    obtain ⟨present, rest⟩ := fromLeaf (Shaped.isLeaf_eq newHere here ▸ borrows.1)
                    exact ⟨present, rest ▸ borrows⟩
                  · rintro ⟨-, borrows⟩
                    rw [(fromLeaf borrows.1).2]
                    exact borrows

/-- A deletion panics only if a leaf would borrow the last entry of its right neighbour. -/
theorem RootedTree.delete_isSome (documented : find.Documented) {tree : RootedTree}
    (shaped : tree.Shaped) :
    (tree.delete find maxPageData key).isSome = true ↔
      ¬ LendsLast find maxPageData key tree.height tree.root := by
  rw [← Shaped.deleteRecursive_isSome documented shaped, RootedTree.delete]
  cases Tree.deleteRecursive find maxPageData key tree.height tree.root with
  | none => exact Iff.rfl
  | some reply => cases reply <;> exact Iff.rfl

end Deletion

namespace TreeCall

/-- After every run a deletion returns if and only if no leaf would borrow the last entry of its
right neighbour. -/
theorem delete_run_isSome {find : Finder} (documented : find.Documented) (maxPageData : Nat)
    (calls : List TreeCall) (key : Bytes) :
    ((run find maxPageData calls).delete find maxPageData key).isSome = true ↔
      ¬ LendsLast find maxPageData key (run find maxPageData calls).height
          (run find maxPageData calls).root :=
  RootedTree.delete_isSome documented (shaped_run calls)

/-- A leaf with a short entry on the left of one with a long entry. -/
def shortLong : List TreeCall := [put [1] [5], put [2] fatValue, put [1] [5]]

theorem delete_run_isSome_shortLong :
    ((run binarySearch 128 shortLong).delete binarySearch 128 [2]).isSome = true ↔
      ¬ LendsLast binarySearch 128 [2] (run binarySearch 128 shortLong).height
          (run binarySearch 128 shortLong).root :=
  delete_run_isSome Finder.documented_binarySearch 128 shortLong [2]

/-- The leaf with the short entry would borrow the long entry, which is the only one of its leaf. -/
theorem delete_panics_shortLong :
    Returned binarySearch 128 shortLong ∧
      (run binarySearch 128 shortLong).delete binarySearch 128 [1] = none := by
  refine ⟨⟨by decide +kernel, by decide +kernel, by decide +kernel, trivial⟩, ?_⟩
  exact Option.isNone_iff_eq_none.mp (by decide +kernel)

end TreeCall

end JouleDB.BTree
