import JouleDB.BTree.TreeOrder
import JouleDB.Lib.BinarySearch
import JouleDB.Lib.Run

/-!
# Runs of a tree

Writes one after the other, from the tree of a new database.  As long as no write divides a leaf
whose only key is its lower bound, the tree has the entries of the map that the writes describe, and
its nodes are ordered.  A write that does so leaves two equal separators in a node, and either of
them may be found.
-/

namespace JouleDB.BTree

/-! ## Entries in order -/

namespace Tree

/-- The entries of a tree from the left to the right. -/
def entries : (height : Nat) → Tree height → List (Bytes × Option Bytes)
  | 0, leaf => leaf.keys.zip leaf.values
  | height + 1, node => node.children.flatMap (entries height)

/-- The entries of a tree that have a value. -/
def stored : (height : Nat) → Tree height → List (Bytes × Bytes)
  | 0, leaf => (leaf.keys.zip leaf.values).filterMap fun entry =>
      entry.2.map fun value => (entry.1, value)
  | height + 1, node => node.children.flatMap (stored height)

/-- The shape of a tree: children and values are counted by the keys, keys are strictly increasing,
and separators divide the keys below them.  All leaves are at one depth by the type of a tree. -/
def Structured : (height : Nat) → Tree height → Prop
  | 0, leaf => leaf.isLeaf = true ∧ leaf.keys.Pairwise (· < ·) ∧
      leaf.values.length = leaf.keys.length
  | height + 1, node => node.isLeaf = false ∧ node.keys.Pairwise (· < ·) ∧
      node.children.length = node.keys.length + 1 ∧
      ∀ index child, node.children[index]? = some child → Structured height child ∧
        ∀ entry ∈ entries height child,
          (∀ separator, 0 < index → node.keys[index - 1]? = some separator → separator ≤ entry.1) ∧
          ∀ separator, node.keys[index]? = some separator → entry.1 < separator

end Tree

open JouleDB.BTree.Tree

variable {lo hi : Fence Bytes} {height : Nat}

theorem stored_leafOf {children : List (Sub 0)} {list : List (Bytes × Bytes)} :
    stored 0 (leafOf children list) = list := by
  have zipped : (leafOf children list).keys.zip (leafOf children list).values =
      list.map fun entry => (entry.1, some entry.2) := by
    rw [leafOf, List.zip_map']
  rw [stored, zipped, List.filterMap_map]
  exact List.filterMap_some

/-- The children between separators have their entries one after the other. -/
theorem entriesIn_chain {γ : Type} {fits : Fence Bytes → Fence Bytes → γ → Prop}
    {list : γ → List (Bytes × Bytes)}
    (each : ∀ {low high child}, fits low high child → EntriesIn low high (list child))
    {keys : List Bytes} {children : List γ} (chain : Chain fits lo keys children hi) :
    EntriesIn lo hi (children.flatMap list) := by
  induction chain with
  | last nonempty here =>
      rw [List.flatMap_singleton]
      exact each here
  | cons nonempty here rest ih =>
      rw [List.flatMap_cons]
      exact (each here).append ih nonempty.le rest.lt.le

/-- The entries of an ordered tree are in strict order. -/
theorem Ordered.entriesIn {tree : Tree height} (ordered : Ordered height lo hi tree) :
    EntriesIn lo hi (stored height tree) := by
  induction height generalizing lo hi with
  | zero =>
      obtain ⟨children, list, rfl, whole⟩ := ordered
      rw [stored_leafOf]
      exact whole
  | succ height ih => exact entriesIn_chain (fun fits => ih fits) (InnerOrdered.chain ordered)

theorem Ordered.entries_eq {tree : Tree height} (ordered : Ordered height lo hi tree) :
    entries height tree = (stored height tree).map fun entry => (entry.1, some entry.2) := by
  induction height generalizing lo hi with
  | zero =>
      obtain ⟨children, list, rfl, whole⟩ := ordered
      rw [stored_leafOf, entries, leafOf, List.zip_map']
  | succ height ih =>
      have each : ∀ child ∈ tree.children, entries height child =
          (stored height child).map fun entry => (entry.1, some entry.2) := by
        intro child member
        obtain ⟨low, high, -, -, -, fits⟩ := (InnerOrdered.chain ordered).exists_fits child member
        exact ih fits
      exact (List.flatMap_congr each).trans List.map_flatMap.symm

theorem Ordered.mem_stored {tree : Tree height} (ordered : Ordered height lo hi tree)
    {key value : Bytes} : (key, value) ∈ stored height tree ↔ Has height tree key value := by
  induction height generalizing lo hi with
  | zero =>
      obtain ⟨children, list, rfl, whole⟩ := ordered
      rw [stored_leafOf]
      exact leafHas_leafOf.symm
  | succ height ih =>
      have inside : (key, value) ∈ stored (height + 1) tree ↔
          ∃ child, child ∈ tree.children ∧ (key, value) ∈ stored height child := List.mem_flatMap
      refine inside.trans (exists_congr fun child => and_congr_right fun member => ?_)
      obtain ⟨low, high, -, -, -, fits⟩ := (InnerOrdered.chain ordered).exists_fits child member
      exact ih fits

/-! ## Structure -/

/-- The child at an index, with the separators on both sides of it. -/
theorem exists_place {γ : Type} {fits : Fence Bytes → Fence Bytes → γ → Prop} {node : Node γ}
    (ordered : InnerOrdered fits lo hi node) {index : Nat} {child : γ}
    (found : node.children[index]? = some child) :
    ∃ before after, Place node (node.keys.take index) (node.keys.drop index) before child after := by
  obtain ⟨before, after, children, length⟩ := getElem?_eq_some_split.mp found
  have count := ordered.chain.length
  have inside := (List.getElem?_eq_some_iff.mp found).1
  have front : (node.keys.take index).length = index := List.length_take_of_le (by omega)
  exact ⟨before, after, (List.take_append_drop _ _).symm, children, length.trans front.symm⟩

theorem InnerOrdered.separators {γ : Type} {fits : Fence Bytes → Fence Bytes → γ → Prop}
    {node : Node γ} (ordered : InnerOrdered fits lo hi node) {index : Nat} {child : γ}
    (found : node.children[index]? = some child) :
    ∃ low high, fits low high child ∧
      (∀ separator, 0 < index → node.keys[index - 1]? = some separator → low = fence separator) ∧
      ∀ separator, node.keys[index]? = some separator → high = fence separator := by
  obtain ⟨before, after, place⟩ := exists_place ordered found
  obtain ⟨-, fits, -⟩ := ordered.at_place place
  refine ⟨_, _, fits, fun separator inside same => ?_, fun separator same => ?_⟩
  · have last : (node.keys.take index).getLast? = some separator := by
      rw [List.getLast?_take, if_neg (Nat.pos_iff_ne_zero.mp inside), same]
      rfl
    rw [lower, last]
    rfl
  · have first : (node.keys.drop index).head? = some separator := by
      rw [List.head?_drop, same]
    rw [upper, first]
    rfl

/-- The children before a place end below it, and those after it start above it. -/
theorem InnerOrdered.around {γ : Type} {fits : Fence Bytes → Fence Bytes → γ → Prop} {node : Node γ}
    {front back : List Bytes} {before after : List γ} {child : γ}
    (ordered : InnerOrdered fits lo hi node) (place : Place node front back before child after) :
    (∀ other ∈ before, ∃ low high, high ≤ lower lo front ∧ fits low high other) ∧
      ∀ other ∈ after, ∃ low high, upper back hi ≤ low ∧ fits low high other := by
  have whole : Chain fits lo (front ++ [] ++ back) (before ++ [child] ++ after) hi := by
    have chain := ordered.chain
    rw [place.keys, place.children] at chain
    simpa using chain
  exact whole.around place.length rfl

/-- The separators before the index of a key are smaller. -/
theorem lt_of_mem_take_find {find : Finder} (documented : find.Documented) {keys : List Bytes}
    (sorted : keys.Pairwise (· < ·)) {key other : Bytes} (early : other ∈ keys.take (find keys key)) :
    other < key := by
  have weak : keys.Pairwise (· ≤ ·) := sorted.imp fun smaller => smaller.le
  by_cases present : key ∈ keys
  · obtain ⟨front, back, parts, length⟩ :=
      getElem?_eq_some_split.mp (documented.present weak present)
    rw [← length, parts, List.take_left] at early
    rw [parts] at sorted
    exact (List.pairwise_append.mp sorted).2.2 other early key List.mem_cons_self
  · exact (documented.absent weak present).1 other early

theorem structured_of_ordered {tree : Tree height} (ordered : Ordered height lo hi tree) :
    Structured height tree := by
  induction height generalizing lo hi with
  | zero =>
      obtain ⟨children, list, rfl, whole⟩ := ordered
      exact ⟨rfl, whole.keys_sorted, by simp [leafOf]⟩
  | succ height ih =>
      have whole : InnerOrdered (Ordered height) lo hi tree := ordered
      refine ⟨whole.inner, whole.chain.sorted, whole.chain.length, fun index child found => ?_⟩
      obtain ⟨_, _, fits, isLeft, isRight⟩ := whole.separators found
      refine ⟨ih fits, fun entry member => ?_⟩
      rw [fits.entries_eq] at member
      obtain ⟨⟨key, value⟩, isStored, rfl⟩ := List.mem_map.mp member
      obtain ⟨low, high⟩ := fits.entriesIn.inside (key, value) isStored
      constructor
      · intro separator inside same
        rw [isLeft separator inside same] at low
        exact fence_le_fence.mp low
      · intro separator same
        rw [isRight separator same] at high
        exact fence_lt_fence.mp high

/-! ## Runs -/

theorem Finder.documented_binarySearch : Finder.Documented binarySearch where
  inside keys key := (locates_binarySearch keys key).inside
  present := (locates_binarySearch _ _).present
  absent := (locates_binarySearch _ _).absent

/-- A write. -/
inductive TreeCall where
  | put (key value : Bytes)
  | delete (key : Bytes)
  deriving DecidableEq

namespace TreeCall

variable (find : Finder) (maxPageData : Nat)

/-- What a write does to a map. -/
def apply (map : Bytes → Option Bytes) : TreeCall → Bytes → Option Bytes
  | put key value => Function.update map key (some value)
  | delete key => Function.update map key none

/-- The map that some writes describe: a key has the value of the last put of it that is not
followed by a delete of it. -/
def contents (calls : List TreeCall) : Bytes → Option Bytes := calls.foldl apply fun _ => none

/-- The tree after a write, if the write does not panic. -/
def after (tree : RootedTree) : TreeCall → Option RootedTree
  | put key value => tree.put find maxPageData key value
  | delete key => (tree.delete find maxPageData key).map Prod.snd

/-- A write that panics leaves the tree as it is. -/
def step (tree : RootedTree) (call : TreeCall) : RootedTree :=
  (call.after find maxPageData tree).getD tree

/-- The write divides a leaf whose only key is its lower bound. -/
def Divides (tree : RootedTree) : TreeCall → Prop
  | put key _ => tree.PutDivides maxPageData key
  | delete key => tree.DeleteDivides find maxPageData key

/-- The write returns. -/
def Completes (tree : RootedTree) (call : TreeCall) : Prop :=
  (call.after find maxPageData tree).isSome = true

instance (tree : RootedTree) (call : TreeCall) : Decidable (call.Completes find maxPageData tree) :=
  inferInstanceAs (Decidable (_ = _))

/-- The tree after some writes. -/
def run (calls : List TreeCall) : RootedTree := calls.foldl (step find maxPageData) .empty

/-- Every write of a run returns. -/
def Returned (calls : List TreeCall) : Prop :=
  AllMeet (step find maxPageData) (fun tree call => call.Completes find maxPageData tree) .empty calls

instance (calls : List TreeCall) : Decidable (Returned find maxPageData calls) :=
  inferInstanceAs (Decidable (AllMeet _ _ _ _))

/-- Every write of a run returns and divides no leaf whose only key is its lower bound. -/
def Undivided (calls : List TreeCall) : Prop :=
  AllMeet (step find maxPageData)
    (fun tree call => call.Completes find maxPageData tree ∧ ¬ call.Divides find maxPageData tree)
    .empty calls

variable {find maxPageData} {tree : RootedTree} {map : Bytes → Option Bytes} {calls : List TreeCall}

/-- A write that divides no such leaf does to the tree what it does to the map. -/
theorem represents_step (documented : find.Documented) {call : TreeCall}
    (represents : tree.Represents map) (completes : call.Completes find maxPageData tree)
    (whole : ¬ call.Divides find maxPageData tree) :
    (call.step find maxPageData tree).Represents (call.apply map) := by
  obtain ⟨result, done⟩ := Option.isSome_iff_exists.mp completes
  rw [step, done, Option.getD_some]
  cases call with
  | put key value => exact represents.put documented whole done
  | delete key =>
      obtain ⟨⟨deleted, other⟩, removed, same⟩ := Option.map_eq_some_iff.mp done
      cases same
      exact (represents.delete documented whole removed).2

/-- A run that divides no such leaf has the tree represent the map of its writes. -/
theorem represents_run (documented : find.Documented)
    (undivided : Undivided find maxPageData calls) :
    (run find maxPageData calls).Represents (contents calls) := by
  have general : ∀ (tree : RootedTree) (map : Bytes → Option Bytes), tree.Represents map →
      AllMeet (step find maxPageData) (fun tree call =>
        call.Completes find maxPageData tree ∧ ¬ call.Divides find maxPageData tree) tree calls →
      (calls.foldl (step find maxPageData) tree).Represents (calls.foldl apply map) := by
    clear undivided
    induction calls with
    | nil => exact fun tree map represents _ => represents
    | cons call calls ih =>
        intro tree map represents meets
        exact ih _ _ (represents_step documented represents meets.1.1 meets.1.2) meets.2
  exact general .empty _ RootedTree.represents_empty undivided

theorem Undivided.front {front back : List TreeCall}
    (undivided : Undivided find maxPageData (front ++ back)) : Undivided find maxPageData front :=
  (AllMeet.append_iff.mp undivided).1

/-! ## The results of a run -/

/-- A value of 70 bytes, more than half of a page of 128 bytes. -/
def fatValue : Bytes := List.replicate 70 7

/-- As long as no write divides a leaf whose only key is its lower bound, the tree is structured. -/
theorem structured_run (documented : find.Documented)
    (undivided : Undivided find maxPageData calls) :
    Tree.Structured (run find maxPageData calls).height (run find maxPageData calls).root :=
  structured_of_ordered (represents_run documented undivided).ordered

theorem structured_run_put_delete :
    Undivided binarySearch 128 [put [1] [5], delete [1]] ∧
      Tree.Structured (run binarySearch 128 [put [1] [5], delete [1]]).height
        (run binarySearch 128 [put [1] [5], delete [1]]).root := by
  have undivided : Undivided binarySearch 128 [put [1] [5], delete [1]] := by
    refine ⟨⟨by decide +kernel, ?_⟩, ⟨by decide +kernel, id⟩, trivial⟩
    rintro (⟨full, -⟩ | ⟨full, -⟩) <;> exact absurd full (by decide +kernel)
  exact ⟨undivided, structured_run Finder.documented_binarySearch undivided⟩

/-- The same separator twice. -/
theorem structured_fails_twice :
    Returned binarySearch 128 [put [2] fatValue, put [2] fatValue] ∧
      ¬ Tree.Structured (run binarySearch 128 [put [2] fatValue, put [2] fatValue]).height
        (run binarySearch 128 [put [2] fatValue, put [2] fatValue]).root := by
  refine ⟨⟨by decide +kernel, by decide +kernel, trivial⟩, fun structured => ?_⟩
  have tall : ∃ root : Tree 1, run binarySearch 128 [put [2] fatValue, put [2] fatValue] = ⟨1, root⟩ ∧
      root.keys = [[2], [2]] := ⟨_, rfl, by decide +kernel⟩
  obtain ⟨root, same, keys⟩ := tall
  rw [same] at structured
  have sorted : root.keys.Pairwise (· < ·) := structured.2.1
  rw [keys] at sorted
  exact absurd sorted (by decide)

end TreeCall

end JouleDB.BTree
