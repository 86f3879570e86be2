import JouleDB.BTree.Node
import JouleDB.Lib.SeparatorChain

/-!
# Ordered nodes

A leaf is ordered between two bounds if its keys are strictly increasing between them, and an
internal node if its keys cut the interval into pieces that its children fit.  Splitting a
node, moving an entry between neighbours and joining neighbours keeps the order and the
entries.  The one exception is a leaf with a single key that is its lower bound: the half of
it on the left has no room, so that the separator of the halves repeats the bound.
-/

namespace JouleDB.BTree

variable {γ : Type}

/-! ## Definitions -/

/-- The leaf with some entries. -/
def leafOf (children : List γ) (entries : List (Bytes × Bytes)) : Node γ :=
  ⟨entries.map Prod.fst, entries.map fun entry => some entry.2, children, true⟩

/-- The entries are in strict order between the bounds. -/
structure EntriesIn (lo hi : Fence Bytes) (entries : List (Bytes × Bytes)) : Prop where
  sorted : entries.Pairwise fun first second => first.1 < second.1
  inside : ∀ entry ∈ entries, lo ≤ fence entry.1 ∧ fence entry.1 < hi

/-- A leaf with entries in strict order between the bounds. -/
def LeafOrdered (lo hi : Fence Bytes) (leaf : Node γ) : Prop :=
  ∃ children entries, leaf = leafOf children entries ∧ EntriesIn lo hi entries

/-- An internal node whose keys cut the interval between the bounds into pieces that its
children fit. -/
structure InnerOrdered (fits : Fence Bytes → Fence Bytes → γ → Prop) (lo hi : Fence Bytes)
    (node : Node γ) : Prop where
  inner : node.isLeaf = false
  noValues : node.values = []
  chain : Chain fits lo node.keys node.children hi

/-- The leaf has an entry. -/
def LeafHas (leaf : Node γ) (key value : Bytes) : Prop :=
  (key, some value) ∈ leaf.keys.zip leaf.values

/-- A child of the node has an entry. -/
def InnerHas (has : γ → Bytes → Bytes → Prop) (node : Node γ) (key value : Bytes) : Prop :=
  ∃ child ∈ node.children, has child key value

/-- A leaf with one key, which is its lower bound. -/
def DividesAlone (lo : Fence Bytes) (node : Node γ) : Prop :=
  node.isLeaf = true ∧ node.keys.map fence = [lo]

/-- The entries of a key are changed to at most one value, and the others are kept. -/
def Updates (key : Bytes) (result : Option Bytes) (before after : Bytes → Bytes → Prop) : Prop :=
  ∀ x w, after x w ↔ (x = key ∧ result = some w) ∨ (x ≠ key ∧ before x w)

/-! ## Entries -/

variable {lo hi middle : Fence Bytes} {entries front back : List (Bytes × Bytes)}

theorem leafHas_leafOf {children : List γ} {key value : Bytes} :
    LeafHas (leafOf children entries) key value ↔ (key, value) ∈ entries := by
  rw [LeafHas, leafOf, List.zip_map', List.mem_map]
  constructor
  · rintro ⟨⟨other, bytes⟩, member, same⟩
    cases same
    exact member
  · exact fun member => ⟨_, member, rfl⟩

theorem entriesIn_nil : EntriesIn lo hi [] := ⟨List.Pairwise.nil, by simp⟩

theorem EntriesIn.append (first : EntriesIn lo middle front) (second : EntriesIn middle hi back)
    (low : lo ≤ middle) (high : middle ≤ hi) : EntriesIn lo hi (front ++ back) := by
  constructor
  · refine List.pairwise_append.mpr ⟨first.sorted, second.sorted, ?_⟩
    intro entry inFront other inBack
    have below := (first.inside entry inFront).2
    have above := (second.inside other inBack).1
    exact fence_lt_fence.mp (below.trans_le above)
  · intro entry member
    rcases List.mem_append.mp member with inFront | inBack
    · have bounds := first.inside entry inFront
      exact ⟨bounds.1, bounds.2.trans_le high⟩
    · have bounds := second.inside entry inBack
      exact ⟨low.trans bounds.1, bounds.2⟩

theorem EntriesIn.cut {entry : Bytes × Bytes} (whole : EntriesIn lo hi (front ++ entry :: back)) :
    EntriesIn lo (fence entry.1) front ∧ EntriesIn (fence entry.1) hi (entry :: back) := by
  obtain ⟨inFront, inBack, across⟩ := List.pairwise_append.mp whole.sorted
  refine ⟨⟨inFront, fun other member => ?_⟩, ⟨inBack, fun other member => ?_⟩⟩
  · have low := (whole.inside other (List.mem_append_left _ member)).1
    exact ⟨low, fence_lt_fence.mpr (across other member entry List.mem_cons_self)⟩
  · have high := (whole.inside other (List.mem_append_right _ member)).2
    refine ⟨?_, high⟩
    rcases List.mem_cons.mp member with rfl | later
    · exact le_rfl
    · exact fence_le_fence.mpr (List.pairwise_cons.mp inBack |>.1 other later).le

/-- Apart from a first entry that is the lower bound itself, entries are above the bound. -/
theorem EntriesIn.lt_fence {entry : Bytes × Bytes}
    (whole : EntriesIn lo hi (front ++ entry :: back))
    (room : front = [] → fence entry.1 ≠ lo) : lo < fence entry.1 := by
  cases front with
  | nil =>
      have low := (whole.inside entry (by simp)).1
      exact lt_of_le_of_ne low (room rfl).symm
  | cons first front =>
      have low := (whole.inside first (by simp)).1
      have below : first.1 < entry.1 :=
        (List.pairwise_cons.mp whole.sorted).1 entry (by simp)
      exact low.trans_lt (fence_lt_fence.mpr below)

theorem EntriesIn.keys_sorted (whole : EntriesIn lo hi entries) :
    (entries.map Prod.fst).Pairwise (· < ·) :=
  List.pairwise_map.mpr whole.sorted

/-! ## Splitting -/

variable {left right node : Node γ} {separator : Bytes}

theorem split_leafOf {children : List γ}
    (parts : (leafOf children entries).split = some (left, right, separator)) :
    ∃ front entry back, entries = front ++ entry :: back ∧
      front.length = entries.length / 2 ∧ left = leafOf children front ∧
      right = leafOf [] (entry :: back) ∧ separator = entry.1 := by
  simp only [Node.split, leafOf, List.length_map, List.getElem?_map] at parts
  cases found : entries[entries.length / 2]? with
  | none => simp [found] at parts
  | some entry =>
      have fits : entries.length / 2 ≤ entries.length := Nat.div_le_self _ _
      simp only [found, Option.map_some, Option.bind_eq_bind, Option.bind_some, if_true, fits,
        Option.some.injEq, Prod.mk.injEq] at parts
      obtain ⟨rfl, rfl, rfl⟩ := parts
      obtain ⟨front, back, split, length⟩ := getElem?_eq_some_split.mp found
      refine ⟨front, entry, back, split, length, ?_, ?_, rfl⟩
      · rw [← length, split]
        simp [leafOf]
      · rw [← length, split]
        simp [leafOf]

theorem split_inner (inner : node.isLeaf = false)
    (parts : node.split = some (left, right, separator)) :
    ∃ front back before after, node.keys = front ++ separator :: back ∧
      node.children = before ++ after ∧ before.length = front.length + 1 ∧
      left = ⟨front, node.values, before, false⟩ ∧ right = ⟨back, [], after, false⟩ := by
  unfold Node.split at parts
  cases found : node.keys[node.keys.length / 2]? with
  | none => simp [found] at parts
  | some medianKey =>
      simp only [found, inner, Option.bind_eq_bind, Option.bind_some, Bool.false_eq_true,
        if_false] at parts
      split at parts
      next fits =>
        simp only [Option.some.injEq, Prod.mk.injEq] at parts
        obtain ⟨rfl, rfl, rfl⟩ := parts
        obtain ⟨front, back, split, length⟩ := getElem?_eq_some_split.mp found
        refine ⟨front, back, node.children.take (node.keys.length / 2 + 1),
          node.children.drop (node.keys.length / 2 + 1), split,
          (List.take_append_drop _ _).symm, ?_, ?_, ?_⟩
        · rw [List.length_take_of_le fits, length]
        · rw [← length, split]
          simp
        · rw [← length, split]
          simp
      next => cases parts

/-- A leaf splits in two, unless its only key is its lower bound. -/
theorem LeafOrdered.split (ordered : LeafOrdered lo hi node)
    (room : ¬ DividesAlone lo node) (parts : node.split = some (left, right, separator)) :
    Chain LeafOrdered lo [separator] [left, right] hi ∧
      ∀ key value, (LeafHas left key value ∨ LeafHas right key value) ↔ LeafHas node key value := by
  obtain ⟨children, entries, rfl, whole⟩ := ordered
  obtain ⟨front, entry, back, rfl, length, rfl, rfl, rfl⟩ := split_leafOf parts
  obtain ⟨below, above⟩ := whole.cut
  constructor
  · have start : lo < fence entry.1 := by
      refine whole.lt_fence fun empty equal => room ⟨rfl, ?_⟩
      subst empty
      have single : back = [] := by
        simp only [List.length_nil, List.nil_append, List.length_cons] at length
        exact List.length_eq_zero_iff.mp (by omega)
      simp [leafOf, single, equal]
    have stop : fence entry.1 < hi := (whole.inside entry (by simp)).2
    exact .cons start ⟨_, _, rfl, below⟩ (.last stop ⟨_, _, rfl, above⟩)
  · intro key value
    simp [leafHas_leafOf]

theorem InnerOrdered.split {fits : Fence Bytes → Fence Bytes → γ → Prop}
    (ordered : InnerOrdered fits lo hi node)
    (parts : node.split = some (left, right, separator)) :
    Chain (InnerOrdered fits) lo [separator] [left, right] hi := by
  obtain ⟨front, back, before, after, keys, children, length, rfl, rfl⟩ :=
    split_inner ordered.inner parts
  have whole := ordered.chain
  rw [keys, children] at whole
  obtain ⟨below, above⟩ := whole.cut length
  exact .cons below.lt ⟨rfl, ordered.noValues, below⟩ (.last above.lt ⟨rfl, rfl, above⟩)

theorem innerHas_split {has : γ → Bytes → Bytes → Prop} (inner : node.isLeaf = false)
    (parts : node.split = some (left, right, separator)) (key value : Bytes) :
    (InnerHas has left key value ∨ InnerHas has right key value) ↔
      InnerHas has node key value := by
  obtain ⟨front, back, before, after, keys, children, length, rfl, rfl⟩ := split_inner inner parts
  simp only [InnerHas, children, List.mem_append, or_and_right, exists_or]

/-! ## Moving entries between neighbours -/

variable {newSeparator : Bytes} {newLeft newRight : Node γ}

theorem chain_pair {fits : Fence Bytes → Fence Bytes → γ → Prop} {first second : γ} :
    Chain fits lo [separator] [first, second] hi ↔
      lo < fence separator ∧ fits lo (fence separator) first ∧
        fence separator < hi ∧ fits (fence separator) hi second := by
  constructor
  · intro chain
    cases chain with
    | cons start below rest =>
        cases rest with
        | last stop above => exact ⟨start, below, stop, above⟩
  · rintro ⟨start, below, stop, above⟩
    exact .cons start below (.last stop above)

theorem lendLeft_leafOf {leftChildren children : List γ} {leftEntries : List (Bytes × Bytes)}
    (lent : Node.lendLeft separator (leafOf leftChildren leftEntries) (leafOf children entries) =
      some (newSeparator, newLeft, newRight)) :
    ∃ front entry, leftEntries = front ++ [entry] ∧ newSeparator = entry.1 ∧
      newLeft = leafOf leftChildren front ∧ newRight = leafOf children (entry :: entries) := by
  rcases List.eq_nil_or_concat leftEntries with rfl | ⟨front, entry, rfl⟩
  · simp [Node.lendLeft, leafOf] at lent
  · simp only [Node.lendLeft, leafOf, List.concat_eq_append, List.map_append, List.map_cons,
      List.map_nil, List.getLast?_concat, Option.bind_eq_bind, Option.bind_some, if_true,
      List.dropLast_concat, Option.some.injEq, Prod.mk.injEq] at lent
    obtain ⟨rfl, rfl, rfl⟩ := lent
    exact ⟨front, entry, List.concat_eq_append, rfl, rfl, rfl⟩

theorem lendRight_leafOf {children rightChildren : List γ} {rightEntries : List (Bytes × Bytes)}
    (lent : Node.lendRight separator (leafOf children entries) (leafOf rightChildren rightEntries) =
      some (newSeparator, newLeft, newRight)) :
    ∃ first second rest, rightEntries = first :: second :: rest ∧ newSeparator = second.1 ∧
      newLeft = leafOf children (entries ++ [first]) ∧
      newRight = leafOf rightChildren (second :: rest) := by
  match rightEntries with
  | [] => simp [Node.lendRight, leafOf] at lent
  | [first] => simp [Node.lendRight, leafOf] at lent
  | first :: second :: rest =>
      simp only [Node.lendRight, leafOf, List.map_cons, List.head?_cons, List.tail_cons,
        Option.bind_eq_bind, Option.bind_some, if_true, Option.some.injEq, Prod.mk.injEq] at lent
      obtain ⟨rfl, rfl, rfl⟩ := lent
      exact ⟨first, second, rest, rfl, rfl, by simp [leafOf], rfl⟩

/-- A leaf takes over the last entry of its left neighbour, unless that is the only one of it
and its key is the lower bound of the neighbour. -/
theorem LeafOrdered.lendLeft (pair : Chain LeafOrdered lo [separator] [left, node] hi)
    (room : ¬ DividesAlone lo left)
    (lent : Node.lendLeft separator left node = some (newSeparator, newLeft, newRight)) :
    Chain LeafOrdered lo [newSeparator] [newLeft, newRight] hi ∧
      ∀ key value, (LeafHas newLeft key value ∨ LeafHas newRight key value) ↔
        (LeafHas left key value ∨ LeafHas node key value) := by
  obtain ⟨start, ⟨leftChildren, leftEntries, rfl, below⟩, stop, ⟨children, entries, rfl, above⟩⟩ :=
    chain_pair.mp pair
  obtain ⟨front, entry, rfl, rfl, rfl, rfl⟩ := lendLeft_leafOf lent
  obtain ⟨kept, moved⟩ := below.cut
  have inside := below.inside entry (by simp)
  have newStart : lo < fence entry.1 := by
    refine below.lt_fence fun empty equal => room ⟨rfl, ?_⟩
    simp [leafOf, empty, equal]
  have joined : EntriesIn (fence entry.1) hi (entry :: entries) :=
    moved.append above inside.2.le stop.le
  constructor
  · exact chain_pair.mpr
      ⟨newStart, ⟨_, _, rfl, kept⟩, inside.2.trans stop, ⟨_, _, rfl, joined⟩⟩
  · intro key value
    simp [leafHas_leafOf, or_assoc]

/-- A leaf takes over the first entry of its right neighbour, which has to keep one. -/
theorem LeafOrdered.lendRight (pair : Chain LeafOrdered lo [separator] [node, right] hi)
    (lent : Node.lendRight separator node right = some (newSeparator, newLeft, newRight)) :
    Chain LeafOrdered lo [newSeparator] [newLeft, newRight] hi ∧
      ∀ key value, (LeafHas newLeft key value ∨ LeafHas newRight key value) ↔
        (LeafHas node key value ∨ LeafHas right key value) := by
  obtain ⟨start, ⟨children, entries, rfl, below⟩, stop, ⟨rightChildren, rightEntries, rfl, above⟩⟩ :=
    chain_pair.mp pair
  obtain ⟨first, second, rest, rfl, rfl, rfl, rfl⟩ := lendRight_leafOf lent
  have whole : EntriesIn (fence separator) hi ([first] ++ second :: rest) := above
  obtain ⟨moved, kept⟩ := whole.cut
  have inside := whole.inside second (by simp)
  have joined := below.append moved start.le inside.1
  constructor
  · exact chain_pair.mpr
      ⟨start.trans_le inside.1, ⟨_, _, rfl, joined⟩, inside.2, ⟨_, _, rfl, kept⟩⟩
  · intro key value
    simp [leafHas_leafOf, or_assoc]

section Inner

variable {fits : Fence Bytes → Fence Bytes → γ → Prop} {has : γ → Bytes → Bytes → Prop}

theorem lendLeft_inner (inner : node.isLeaf = false)
    (lent : Node.lendLeft separator left node = some (newSeparator, newLeft, newRight)) :
    ∃ front before child, left.keys = front ++ [newSeparator] ∧
      left.children = before ++ [child] ∧
      newLeft = { left with keys := front, children := before } ∧
      newRight = { node with keys := separator :: node.keys, children := child :: node.children } := by
  unfold Node.lendLeft at lent
  rcases List.eq_nil_or_concat left.keys with empty | ⟨front, key, keys⟩
  · simp [empty] at lent
  · rcases List.eq_nil_or_concat left.children with none | ⟨before, child, children⟩
    · simp [keys, none, inner] at lent
    · simp only [keys, children, inner, List.concat_eq_append, List.getLast?_concat,
        Option.bind_eq_bind, Option.bind_some, Bool.false_eq_true, if_false,
        List.dropLast_concat, Option.some.injEq, Prod.mk.injEq] at lent
      obtain ⟨rfl, rfl, rfl⟩ := lent
      rw [List.concat_eq_append] at keys children
      exact ⟨front, before, child, keys, children, rfl, by rw [inner]⟩

theorem lendRight_inner (inner : node.isLeaf = false)
    (lent : Node.lendRight separator node right = some (newSeparator, newLeft, newRight)) :
    ∃ keys child children, right.keys = newSeparator :: keys ∧
      right.children = child :: children ∧
      newLeft = { node with
        keys := node.keys ++ [separator], children := node.children ++ [child] } ∧
      newRight = { right with keys := keys, children := children } := by
  unfold Node.lendRight at lent
  cases keys : right.keys with
  | nil => simp [keys] at lent
  | cons key rest =>
      cases children : right.children with
      | nil => simp [keys, children, inner] at lent
      | cons child others =>
          simp only [keys, children, inner, List.head?_cons, List.tail_cons, Option.bind_eq_bind,
            Option.bind_some, Bool.false_eq_true, if_false, Option.some.injEq,
            Prod.mk.injEq] at lent
          obtain ⟨rfl, rfl, rfl⟩ := lent
          exact ⟨rest, child, others, rfl, rfl, by rw [inner], rfl⟩

theorem InnerOrdered.lendLeft (pair : Chain (InnerOrdered fits) lo [separator] [left, node] hi)
    (lent : Node.lendLeft separator left node = some (newSeparator, newLeft, newRight)) :
    Chain (InnerOrdered fits) lo [newSeparator] [newLeft, newRight] hi ∧
      ∀ key value, (InnerHas has newLeft key value ∨ InnerHas has newRight key value) ↔
        (InnerHas has left key value ∨ InnerHas has node key value) := by
  obtain ⟨start, below, stop, above⟩ := chain_pair.mp pair
  obtain ⟨front, before, child, keys, children, rfl, rfl⟩ := lendLeft_inner above.inner lent
  have whole := below.chain
  have length := whole.length
  rw [keys, children] at whole
  rw [keys, children, List.length_append, List.length_append, List.length_singleton] at length
  obtain ⟨kept, moved⟩ := whole.cut (Nat.succ_inj.mp length)
  constructor
  · refine chain_pair.mpr ⟨kept.lt, ⟨below.inner, below.noValues, kept⟩, moved.lt.trans stop,
      ⟨above.inner, above.noValues, ?_⟩⟩
    exact moved.join above.chain
  · intro key value
    simp only [InnerHas, children, List.mem_append, List.mem_cons, List.not_mem_nil, or_false,
      or_and_right, exists_or, exists_eq_left, or_assoc]

theorem InnerOrdered.lendRight (pair : Chain (InnerOrdered fits) lo [separator] [node, right] hi)
    (lent : Node.lendRight separator node right = some (newSeparator, newLeft, newRight)) :
    Chain (InnerOrdered fits) lo [newSeparator] [newLeft, newRight] hi ∧
      ∀ key value, (InnerHas has newLeft key value ∨ InnerHas has newRight key value) ↔
        (InnerHas has node key value ∨ InnerHas has right key value) := by
  obtain ⟨start, below, stop, above⟩ := chain_pair.mp pair
  obtain ⟨rest, child, others, keys, children, rfl, rfl⟩ := lendRight_inner below.inner lent
  have whole : Chain fits (fence separator) ([] ++ newSeparator :: rest) ([child] ++ others) hi := by
    rw [List.nil_append, List.singleton_append, ← keys, ← children]
    exact above.chain
  obtain ⟨moved, kept⟩ := whole.cut rfl
  constructor
  · refine chain_pair.mpr ⟨start.trans moved.lt, ⟨below.inner, below.noValues, ?_⟩, kept.lt,
      ⟨above.inner, above.noValues, kept⟩⟩
    exact below.chain.join moved
  · intro key value
    simp only [InnerHas, children, List.mem_append, List.mem_cons, List.not_mem_nil, or_false,
      or_and_right, exists_or, exists_eq_left, or_assoc]

end Inner

/-! ## Joining neighbours -/

theorem LeafOrdered.absorb (pair : Chain LeafOrdered lo [separator] [left, right] hi) :
    Chain LeafOrdered lo [] [Node.absorb separator left right] hi ∧
      ∀ key value, LeafHas (Node.absorb separator left right) key value ↔
        (LeafHas left key value ∨ LeafHas right key value) := by
  have nonempty := pair.lt
  obtain ⟨start, ⟨leftChildren, leftEntries, rfl, below⟩, stop, ⟨children, entries, rfl, above⟩⟩ :=
    chain_pair.mp pair
  have joined : Node.absorb separator (leafOf leftChildren leftEntries) (leafOf children entries) =
      leafOf leftChildren (leftEntries ++ entries) := by
    simp [Node.absorb, leafOf]
  rw [joined]
  constructor
  · exact .last nonempty ⟨_, _, rfl, below.append above start.le stop.le⟩
  · intro key value
    simp [leafHas_leafOf]

theorem InnerOrdered.absorb {fits : Fence Bytes → Fence Bytes → γ → Prop}
    {has : γ → Bytes → Bytes → Prop}
    (pair : Chain (InnerOrdered fits) lo [separator] [left, right] hi) :
    Chain (InnerOrdered fits) lo [] [Node.absorb separator left right] hi ∧
      ∀ key value, InnerHas has (Node.absorb separator left right) key value ↔
        (InnerHas has left key value ∨ InnerHas has right key value) := by
  obtain ⟨start, below, stop, above⟩ := chain_pair.mp pair
  have joined : Node.absorb separator left right = { left with
      keys := left.keys ++ separator :: right.keys
      children := left.children ++ right.children } := by
    simp [Node.absorb, below.inner]
  rw [joined]
  constructor
  · exact .last pair.lt ⟨below.inner, below.noValues, below.chain.join above.chain⟩
  · intro key value
    simp only [InnerHas, List.mem_append, or_and_right, exists_or]

/-! ## Finding a key -/

variable {find : Finder} {key value : Bytes}

/-- A key is the entry at its index, or it belongs there. -/
theorem Finder.Documented.place (documented : find.Documented) (whole : EntriesIn lo hi entries)
    (key : Bytes) :
    ∃ front old back, entries = front ++ old ++ back ∧
      front.length = find (entries.map Prod.fst) key ∧
      (∀ entry ∈ front, entry.1 < key) ∧ (∀ entry ∈ back, key < entry.1) ∧
      ((old = [] ∧ (entries.map Prod.fst)[find (entries.map Prod.fst) key]? ≠ some key) ∨
        ∃ value, old = [(key, value)] ∧
          (entries.map Prod.fst)[find (entries.map Prod.fst) key]? = some key) := by
  have sorted : (entries.map Prod.fst).Pairwise (· ≤ ·) :=
    whole.keys_sorted.imp fun smaller => smaller.le
  by_cases present : key ∈ entries.map Prod.fst
  · have found := documented.present sorted present
    rw [List.getElem?_map, Option.map_eq_some_iff] at found
    obtain ⟨⟨other, value⟩, here, rfl⟩ := found
    obtain ⟨front, back, split, length⟩ := getElem?_eq_some_split.mp here
    rw [split] at whole
    obtain ⟨inFront, inBack, across⟩ := List.pairwise_append.mp whole.sorted
    refine ⟨front, [(other, value)], back, by simpa using split, length, ?_, ?_,
      .inr ⟨value, rfl, documented.present sorted present⟩⟩
    · exact fun entry member => across entry member _ List.mem_cons_self
    · exact fun entry member => (List.pairwise_cons.mp inBack).1 entry member
  · obtain ⟨below, above⟩ := documented.absent sorted present
    refine ⟨entries.take (find (entries.map Prod.fst) key), [],
      entries.drop (find (entries.map Prod.fst) key), by simp, ?_, ?_, ?_, .inl ⟨rfl, ?_⟩⟩
    · refine List.length_take_of_le ?_
      simpa using documented.inside (entries.map Prod.fst) key
    · intro entry member
      rw [← List.map_take] at below
      exact below entry.1 (List.mem_map_of_mem member)
    · intro entry member
      rw [← List.map_drop] at above
      exact above entry.1 (List.mem_map_of_mem member)
    · exact fun found => present (List.mem_of_getElem? found)

section Place

variable {old : List (Bytes × Bytes)} (below : ∀ entry ∈ front, entry.1 < key)
  (above : ∀ entry ∈ back, key < entry.1)

include below above in
theorem updates_place {new : List (Bytes × Bytes)} {result : Option Bytes}
    (same : ∀ entry ∈ old, entry.1 = key)
    (replaced : ∀ x w, (x, w) ∈ new ↔ x = key ∧ result = some w) :
    Updates key result (fun x w => (x, w) ∈ front ++ old ++ back)
      (fun x w => (x, w) ∈ front ++ new ++ back) := by
  intro x w
  by_cases equal : x = key
  · subst equal
    have notBelow : (x, w) ∉ front := fun member => lt_irrefl _ (below _ member)
    have notAbove : (x, w) ∉ back := fun member => lt_irrefl _ (above _ member)
    simp [notBelow, notAbove, replaced]
  · have notOld : (x, w) ∉ old := fun member => equal (same _ member)
    simp [equal, notOld, replaced]

include below above in
theorem EntriesIn.write (whole : EntriesIn lo hi (front ++ old ++ back)) (low : lo ≤ fence key)
    (high : fence key < hi) : EntriesIn lo hi (front ++ (key, value) :: back) := by
  rw [List.append_assoc] at whole
  obtain ⟨inFront, later, -⟩ := List.pairwise_append.mp whole.sorted
  obtain ⟨-, inBack, -⟩ := List.pairwise_append.mp later
  have first : EntriesIn lo (fence key) front := by
    refine ⟨inFront, fun entry member => ⟨?_, fence_lt_fence.mpr (below entry member)⟩⟩
    exact (whole.inside entry (List.mem_append_left _ member)).1
  have second : EntriesIn (fence key) hi ((key, value) :: back) := by
    refine ⟨List.pairwise_cons.mpr ⟨above, inBack⟩, fun entry member => ?_⟩
    rcases List.mem_cons.mp member with rfl | later
    · exact ⟨le_rfl, high⟩
    · exact ⟨fence_le_fence.mpr (above entry later).le, (whole.inside entry (by simp [later])).2⟩
  exact first.append second low high.le

theorem EntriesIn.remove (whole : EntriesIn lo hi (front ++ old ++ back)) :
    EntriesIn lo hi (front ++ back) := by
  have part : (front ++ back).Sublist (front ++ old ++ back) := by simp
  exact ⟨whole.sorted.sublist part, fun entry member => whole.inside entry (part.subset member)⟩

end Place

theorem LeafOrdered.writeEntry (documented : find.Documented) (ordered : LeafOrdered lo hi node)
    (low : lo ≤ fence key) (high : fence key < hi)
    (written : node.writeEntry find key value = some right) :
    LeafOrdered lo hi right ∧ Updates key (some value) (LeafHas node) (LeafHas right) := by
  obtain ⟨children, entries, rfl, whole⟩ := ordered
  obtain ⟨front, old, back, rfl, length, below, above, found⟩ := documented.place whole key
  have same : ∀ entry ∈ old, entry.1 = key := by
    rcases found with ⟨rfl, -⟩ | ⟨value, rfl, -⟩ <;> simp
  have result : right = leafOf children (front ++ (key, value) :: back) := by
    have index : (leafOf children (front ++ old ++ back)).findKeyIndex find key = front.length :=
      length.symm
    rw [← length] at found
    simp only [Node.writeEntry, index] at written
    rcases found with ⟨rfl, absent⟩ | ⟨other, rfl, present⟩
    · have missing : (leafOf children (front ++ [] ++ back)).keys[front.length]? ≠ some key := absent
      rw [if_neg missing] at written
      simpa [leafOf, insertAt_append, eq_comm] using written
    · have here : (leafOf children (front ++ [(key, other)] ++ back)).keys[front.length]? =
          some key := present
      rw [if_pos here] at written
      simpa [leafOf, setAt_append, eq_comm] using written
  subst result
  refine ⟨⟨_, _, rfl, whole.write below above low high⟩, fun x w => ?_⟩
  have written : ∀ x w, (x, w) ∈ [(key, value)] ↔ x = key ∧ some value = some w := by
    simp [eq_comm]
  have updated := updates_place below above same written x w
  rw [leafHas_leafOf, leafHas_leafOf]
  simpa using updated

theorem LeafOrdered.removeEntry (documented : find.Documented) (ordered : LeafOrdered lo hi node)
    (present : node.keys[node.findKeyIndex find key]? = some key)
    (removed : node.removeEntry (node.findKeyIndex find key) = some right) :
    LeafOrdered lo hi right ∧ Updates key none (LeafHas node) (LeafHas right) := by
  obtain ⟨children, entries, rfl, whole⟩ := ordered
  obtain ⟨front, old, back, rfl, length, below, above, found⟩ := documented.place whole key
  rcases found with ⟨-, absent⟩ | ⟨value, rfl, -⟩
  · exact absurd present absent
  · have index : (leafOf children (front ++ [(key, value)] ++ back)).findKeyIndex find key =
        front.length := length.symm
    have result : right = leafOf children (front ++ back) := by
      rw [index] at removed
      simpa [Node.removeEntry, leafOf, removeAt_append, eq_comm] using removed
    subst result
    refine ⟨⟨_, _, rfl, whole.remove⟩, fun x w => ?_⟩
    have removed : ∀ x w, (x, w) ∈ ([] : List (Bytes × Bytes)) ↔ x = key ∧ none = some w := by
      simp
    have same : ∀ entry ∈ [(key, value)], entry.1 = key := by simp
    have updated := updates_place below above same removed x w
    rw [leafHas_leafOf, leafHas_leafOf]
    simpa using updated

/-- A key is in a leaf if and only if it is found. -/
theorem LeafOrdered.found_iff (documented : find.Documented) (ordered : LeafOrdered lo hi node) :
    node.keys[node.findKeyIndex find key]? = some key ↔ ∃ value, LeafHas node key value := by
  obtain ⟨children, entries, rfl, whole⟩ := ordered
  obtain ⟨front, old, back, rfl, length, below, above, found⟩ := documented.place whole key
  have notBelow : ∀ value, (key, value) ∉ front := fun value member => lt_irrefl _ (below _ member)
  have notAbove : ∀ value, (key, value) ∉ back := fun value member => lt_irrefl _ (above _ member)
  simp only [leafHas_leafOf]
  rcases found with ⟨rfl, absent⟩ | ⟨value, rfl, present⟩
  · refine ⟨fun found => absurd found absent, ?_⟩
    rintro ⟨value, member⟩
    simp [notBelow, notAbove] at member
  · exact ⟨fun _ => ⟨value, by simp⟩, fun _ => present⟩

/-- What is found in a leaf is the value of the key. -/
theorem LeafOrdered.has_iff (documented : find.Documented) (ordered : LeafOrdered lo hi node)
    (present : node.keys[node.findKeyIndex find key]? = some key) (value : Bytes) :
    LeafHas node key value ↔ node.values[node.findKeyIndex find key]? = some (some value) := by
  obtain ⟨children, entries, rfl, whole⟩ := ordered
  obtain ⟨front, old, back, rfl, length, below, above, found⟩ := documented.place whole key
  have index : (leafOf children (front ++ old ++ back)).findKeyIndex find key = front.length :=
    length.symm
  have notBelow : (key, value) ∉ front := fun member => lt_irrefl _ (below _ member)
  have notAbove : (key, value) ∉ back := fun member => lt_irrefl _ (above _ member)
  rcases found with ⟨rfl, absent⟩ | ⟨other, rfl, -⟩
  · exact absurd present absent
  · rw [index, leafHas_leafOf]
    simp [leafOf, notBelow, notAbove, eq_comm]

end JouleDB.BTree
