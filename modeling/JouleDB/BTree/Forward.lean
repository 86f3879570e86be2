import JouleDB.BTree.Scan

/-!
# Forward scans

A forward scan visits the entries of a tree from the left to the right.  An internal node that is
entered from the left has its index at its first child, and the scan has already descended into that
child: what is below it is visited twice.  A scan is exact if and only if nothing in range is there.
-/

namespace JouleDB.BTree

open JouleDB.BTree.Tree

/-! ## What is visited -/

/-- What is visited in a tree that is entered from the left. -/
def leftVisits : (height : Nat) → Tree height → List (Bytes × Bytes)
  | 0, leaf => stored 0 leaf
  | height + 1, node =>
      node.children.head?.elim [] (leftVisits height) ++ node.children.flatMap (leftVisits height)

/-- What is visited in a tree in which a scan starts. -/
def startVisits (find : Finder) (start : ScanBound) :
    (height : Nat) → Tree height → List (Bytes × Bytes)
  | 0, leaf => (stored 0 leaf).drop (leaf.keys.findIdx start.isAfterStart)
  | height + 1, node =>
      node.children[RangeIterator.startChild find start node]?.elim []
          (startVisits find start height) ++
        (node.children.drop (RangeIterator.startChild find start node + 1)).flatMap
          (leftVisits height)

/-- What is still to be visited in a node. -/
def pendingVisits : ScanFrame → List (Bytes × Bytes)
  | (⟨0, leaf⟩, index) => (stored 0 leaf).drop index
  | (⟨height + 1, node⟩, index) => (node.children.drop index).flatMap (leftVisits height)

namespace RangeIterator

/-- The iterator with another stack. -/
def withStack (iterator : RangeIterator) (stack : List ScanFrame) : RangeIterator :=
  { iterator with stack := stack }

/-- The iterator scans forward and has already descended to the start. -/
structure ScansForward (iterator : RangeIterator) : Prop where
  initialized : iterator.initialized = true
  running : iterator.finished = false
  direction : iterator.direction = .forward

/-- With this stack a forward scan yields the entries in range of some visits. -/
def YieldsForward (find : Finder) (iterator : RangeIterator) (stack : List ScanFrame)
    (visits : List (Option (Bytes × Bytes))) : Prop :=
  Collects (round find) (iterator.withStack stack)
    (sift (fun entry => iterator.endBound.isBeforeEnd entry.1)
      (fun entry => iterator.isInRange entry.1) visits)

section Forward

variable {find : Finder} {iterator : RangeIterator} {visits : List (Option (Bytes × Bytes))}
variable {stack : List ScanFrame} {height : Nat}
variable (scans : ScansForward iterator)

include scans

theorem round_forward : round find (iterator.withStack stack) = popForward (iterator.withStack stack) := by
  rw [round, withStack, if_neg (by simp [scans.running]), if_pos scans.initialized]
  simp only [scans.direction]

theorem yieldsForward_nil : YieldsForward find iterator [] [] := .ended (round_forward scans)

/-- The rest of a leaf is visited before the rest of the stack. -/
theorem yieldsForward_leaf {children : List (Sub 0)} {list : List (Bytes × Bytes)} (index : Nat)
    (rest : YieldsForward find iterator stack visits) :
    YieldsForward find iterator ((⟨0, leafOf children list⟩, index) :: stack)
      ((list.drop index).map some ++ visits) := by
  generalize remaining : list.drop index = later
  induction later generalizing index with
  | nil =>
      have missing : (leafOf children list).keys[index]? = none := by
        rw [leafOf, List.getElem?_map, List.getElem?_eq_none (List.drop_eq_nil_iff.mp remaining)]
        rfl
      have popped : popForward (iterator.withStack ((⟨0, leafOf children list⟩, index) :: stack)) =
          .again (iterator.withStack stack) := by
        simp only [popForward, withStack, missing]
      exact .again ((round_forward scans).trans popped) rest
  | cons entry later ih =>
      have here : list[index]? = some entry := by
        rw [← List.head?_drop, remaining]
        rfl
      have next : list.drop (index + 1) = later := by
        rw [← List.tail_drop, remaining]
        rfl
      have key : (leafOf children list).keys[index]? = some entry.1 := by
        rw [leafOf, List.getElem?_map, here]
        rfl
      have value : (leafOf children list).values[index]? = some (some entry.2) := by
        rw [leafOf, List.getElem?_map, here]
        rfl
      have popped : popForward (iterator.withStack ((⟨0, leafOf children list⟩, index) :: stack)) =
          if iterator.endBound.isBeforeEnd entry.1 then
            if iterator.isInRange entry.1 then
              .item entry (iterator.withStack ((⟨0, leafOf children list⟩, index + 1) :: stack))
            else
              .again (iterator.withStack ((⟨0, leafOf children list⟩, index + 1) :: stack))
          else
            .ended { iterator.withStack stack with finished := true } := by
        simp only [popForward, withStack, key, value]
        rfl
      have reached := (round_forward scans : round find _ = _).trans popped
      rw [YieldsForward, List.map_cons, List.cons_append, sift]
      split
      next goes =>
        rw [if_pos goes] at reached
        split
        next inside =>
          rw [if_pos inside] at reached
          exact .item reached (ih _ next)
        next outside =>
          rw [if_neg outside] at reached
          exact .again reached (ih _ next)
      next stops =>
        rw [if_neg stops] at reached
        exact .ended reached

omit scans in
theorem popForward_inner {node : Node (Tree height)} {index : Nat} {found : Option (Tree height)}
    (here : node.children[index]? = found) :
    popForward (iterator.withStack ((⟨height + 1, node⟩, index) :: stack)) =
      found.elim (.again (iterator.withStack stack)) fun child => .again (iterator.withStack
        (descendToLeftmost height child ++ (⟨height + 1, node⟩, index + 1) :: stack)) := by
  simp only [popForward, withStack]
  split
  next missing =>
    have none : found = none := here.symm.trans missing
    rw [none]
    rfl
  next child same =>
    have some : found = some child := here.symm.trans same
    rw [some]
    rfl

/-- The rest of an internal node is visited before the rest of the stack, if this is so for its
children. -/
theorem yieldsForward_inner {node : Node (Tree height)}
    (each : ∀ child ∈ node.children, ∀ {stack visits}, YieldsForward find iterator stack visits →
      YieldsForward find iterator (descendToLeftmost height child ++ stack)
        ((leftVisits height child).map some ++ visits)) (index : Nat)
    (rest : YieldsForward find iterator stack visits) :
    YieldsForward find iterator ((⟨height + 1, node⟩, index) :: stack)
      (((node.children.drop index).flatMap (leftVisits height)).map some ++ visits) := by
  generalize remaining : node.children.drop index = later
  induction later generalizing index with
  | nil =>
      have missing : node.children[index]? = none :=
        List.getElem?_eq_none (List.drop_eq_nil_iff.mp remaining)
      exact .again ((round_forward scans).trans (popForward_inner missing)) rest
  | cons child later ih =>
      have here : node.children[index]? = some child := by
        rw [← List.head?_drop, remaining]
        rfl
      have next : node.children.drop (index + 1) = later := by
        rw [← List.tail_drop, remaining]
        rfl
      rw [List.flatMap_cons, List.map_append, List.append_assoc]
      exact .again ((round_forward scans).trans (popForward_inner here))
        (each child (List.mem_of_getElem? here) (ih _ next))

/-- A tree entered from the left is visited before the rest of the stack. -/
theorem yieldsForward_leftmost {lo hi : Fence Bytes} {tree : Tree height}
    (ordered : Ordered height lo hi tree) (rest : YieldsForward find iterator stack visits) :
    YieldsForward find iterator (descendToLeftmost height tree ++ stack)
      ((leftVisits height tree).map some ++ visits) := by
  induction height generalizing lo hi stack visits with
  | zero =>
      obtain ⟨children, list, rfl, -⟩ := ordered
      rw [leftVisits, stored_leafOf]
      exact yieldsForward_leaf scans _ rest
  | succ height ih =>
      have each : ∀ child ∈ tree.children, ∀ {stack visits},
          YieldsForward find iterator stack visits →
          YieldsForward find iterator (descendToLeftmost height child ++ stack)
            ((leftVisits height child).map some ++ visits) := by
        intro child member stack visits rest
        obtain ⟨low, high, -, -, -, fits⟩ := (InnerOrdered.chain ordered).exists_fits child member
        exact ih fits rest
      have whole := yieldsForward_inner scans each 0 rest
      rw [List.drop_zero] at whole
      rw [descendToLeftmost, leftVisits, List.map_append, List.append_assoc, List.append_assoc]
      cases first : tree.children.head? with
      | none => exact whole
      | some child => exact each child (List.mem_of_mem_head? first) whole

/-- A tree in which a scan starts is visited before the rest of the stack. -/
theorem yieldsForward_start {lo hi : Fence Bytes} (start : ScanBound) {tree : Tree height}
    (ordered : Ordered height lo hi tree) (rest : YieldsForward find iterator stack visits) :
    YieldsForward find iterator (descendToStartForward find start height tree ++ stack)
      ((startVisits find start height tree).map some ++ visits) := by
  induction height generalizing lo hi stack visits with
  | zero =>
      obtain ⟨children, list, rfl, -⟩ := ordered
      rw [startVisits, stored_leafOf]
      exact yieldsForward_leaf scans _ rest
  | succ height ih =>
      have fits : ∀ child ∈ tree.children, ∃ low high, Ordered height low high child := by
        intro child member
        obtain ⟨low, high, -, -, -, fits⟩ := (InnerOrdered.chain ordered).exists_fits child member
        exact ⟨low, high, fits⟩
      have each : ∀ child ∈ tree.children, ∀ {stack visits},
          YieldsForward find iterator stack visits →
          YieldsForward find iterator (descendToLeftmost height child ++ stack)
            ((leftVisits height child).map some ++ visits) := by
        intro child member stack visits rest
        obtain ⟨low, high, ordered⟩ := fits child member
        exact yieldsForward_leftmost scans ordered rest
      have later := yieldsForward_inner scans each (startChild find start tree + 1) rest
      rw [descendToStartForward, startVisits, List.map_append, List.append_assoc, List.append_assoc]
      cases first : tree.children[startChild find start tree]? with
      | none => exact later
      | some child =>
          obtain ⟨low, high, ordered⟩ := fits child (List.mem_of_getElem? first)
          exact ih ordered later

end Forward

/-- A forward scan visits the entries from the start on. -/
theorem collects_forward {find : Finder} {tree : RootedTree} {lo hi : Fence Bytes}
    (ordered : Ordered tree.height lo hi tree.root) (start stop : ScanBound) :
    Collects (round find) (tree.range start stop .forward)
      (sift (fun entry => stop.isBeforeEnd entry.1)
        (fun entry => start.isAfterStart entry.1 && stop.isBeforeEnd entry.1)
        ((startVisits find start tree.height tree.root).map some)) := by
  have scans : ScansForward { tree.range start stop .forward with initialized := true } :=
    ⟨rfl, rfl, rfl⟩
  have whole : YieldsForward find _ _ _ :=
    yieldsForward_start scans start ordered (yieldsForward_nil scans)
  rw [List.append_nil, List.append_nil] at whole
  exact .again rfl whole

end RangeIterator

/-! ## Repeated visits -/

/-- Somewhere below a tree that is entered from the left, the first child of an internal node has an
entry in range and none past the end. -/
def RepeatsLeft (start stop : ScanBound) : (height : Nat) → Tree height → Prop
  | 0, _ => False
  | height + 1, node =>
      (∃ first, node.children.head? = some first ∧
        (∃ entry ∈ stored height first,
          start.isAfterStart entry.1 = true ∧ stop.isBeforeEnd entry.1 = true) ∧
        ∀ entry ∈ stored height first, stop.isBeforeEnd entry.1 = true) ∨
      ∃ child ∈ node.children, RepeatsLeft start stop height child

/-- Somewhere to the right of the path to the start bound, the first child of an internal node has an
entry in range and none past the end. -/
def RepeatsForward (find : Finder) (start stop : ScanBound) : (height : Nat) → Tree height → Prop
  | 0, _ => False
  | height + 1, node =>
      (∃ child, node.children[RangeIterator.startChild find start node]? = some child ∧
        RepeatsForward find start stop height child) ∨
      ∃ child ∈ node.children.drop (RangeIterator.startChild find start node + 1),
        RepeatsLeft start stop height child

section Visits

variable {find : Finder} {start stop : ScanBound} {height : Nat} {lo hi : Fence Bytes}
variable {entry : Bytes × Bytes}

/-- A forward scan goes on while keys are before the end. -/
abbrev forwardSift (start stop : ScanBound) (visits : List (Option (Bytes × Bytes))) :
    Collected (Bytes × Bytes) :=
  sift (fun entry => stop.isBeforeEnd entry.1)
    (fun entry => start.isAfterStart entry.1 && stop.isBeforeEnd entry.1) visits

theorem mem_elim_nil {α β : Type} {found : Option α} {parts : α → List β} {item : β} :
    item ∈ found.elim [] parts ↔ ∃ whole, found = some whole ∧ item ∈ parts whole := by
  cases found <;> simp

theorem mem_take_succ {α : Type} {items : List α} {index : Nat} {item : α}
    (found : items[index]? = some item) : item ∈ items.take (index + 1) :=
  List.mem_of_getElem? ((List.getElem?_take_of_lt (Nat.lt_succ_self index)).trans found)

theorem mem_leftVisits {tree : Tree height} :
    entry ∈ leftVisits height tree ↔ entry ∈ stored height tree := by
  induction height with
  | zero => exact Iff.rfl
  | succ height ih =>
      have below : entry ∈ tree.children.flatMap (leftVisits height) ↔
          entry ∈ stored (height + 1) tree := by
        refine List.mem_flatMap.trans (Iff.trans ?_ List.mem_flatMap.symm)
        exact exists_congr fun child => and_congr_right fun _ => ih
      rw [leftVisits, List.mem_append, below]
      refine or_iff_right_of_imp fun inFirst => ?_
      obtain ⟨child, first, inFirst⟩ := mem_elim_nil.mp inFirst
      exact List.mem_flatMap.mpr ⟨child, List.mem_of_mem_head? first, ih.mp inFirst⟩

/-- Without repeated visits, a tree entered from the left is visited as it is stored. -/
theorem sift_leftVisits {tree : Tree height} (once : ¬ RepeatsLeft start stop height tree)
    (back : List (Option (Bytes × Bytes))) :
    forwardSift start stop ((leftVisits height tree).map some ++ back) =
      forwardSift start stop ((stored height tree).map some ++ back) := by
  induction height generalizing back with
  | zero => rfl
  | succ height ih =>
      obtain ⟨first, rest⟩ := not_or.mp once
      have each : ∀ child ∈ tree.children, ∀ back,
          forwardSift start stop ((leftVisits height child).map some ++ back) =
            forwardSift start stop ((stored height child).map some ++ back) :=
        fun child member back => ih (fun repeats => rest ⟨child, member, repeats⟩) back
      have below := sift_flatMap_congr each back
      rw [leftVisits, List.map_append, List.append_assoc]
      refine (sift_append_congr below).trans ?_
      cases found : tree.children.head? with
      | none => rfl
      | some child =>
          obtain ⟨others, children⟩ := List.head?_eq_some_iff.mp found
          have whole : stored (height + 1) tree = stored height child ++ others.flatMap (stored height) :=
            (congrArg (List.flatMap (stored height)) children).trans List.flatMap_cons
          have entered := each child (List.mem_of_mem_head? found)
            ((tree.children.flatMap (stored height)).map some ++ back)
          refine entered.trans ?_
          by_cases inside : ∀ entry ∈ stored height child, stop.isBeforeEnd entry.1 = true
          · refine (sift_all inside).trans ?_
            have nothing : (stored height child).filter
                (fun entry => start.isAfterStart entry.1 && stop.isBeforeEnd entry.1) = [] := by
              refine List.filter_eq_nil_iff.mpr fun entry member keeps => ?_
              exact first ⟨child, found, ⟨entry, member, Bool.and_eq_true_iff.mp keeps⟩, inside⟩
            rw [nothing]
            rfl
          · push Not at inside
            obtain ⟨entry, member, past⟩ := inside
            rw [whole, List.map_append, List.append_assoc]
            exact sift_stops (List.mem_map_of_mem member) (Bool.eq_false_iff.mpr past)

theorem RepeatsLeft.in_range {tree : Tree height} (repeats : RepeatsLeft start stop height tree) :
    ∃ entry ∈ stored height tree,
      start.isAfterStart entry.1 = true ∧ stop.isBeforeEnd entry.1 = true := by
  induction height with
  | zero => exact absurd repeats id
  | succ height ih =>
      rcases repeats with ⟨first, found, ⟨entry, member, inside⟩, -⟩ | ⟨child, below, repeats⟩
      · exact ⟨entry, List.mem_flatMap.mpr ⟨first, List.mem_of_mem_head? found, member⟩, inside⟩
      · obtain ⟨entry, member, inside⟩ := ih repeats
        exact ⟨entry, List.mem_flatMap.mpr ⟨child, below, member⟩, inside⟩

/-- Entries in children before one with an entry in range are before the end. -/
theorem before_of_later {parts others : List (Tree height)} {child : Tree height}
    (sorted : ((parts ++ child :: others).flatMap (stored height)).Pairwise fun early late =>
      early.1 < late.1)
    (inside : ∃ entry ∈ stored height child,
      start.isAfterStart entry.1 = true ∧ stop.isBeforeEnd entry.1 = true) :
    ∀ part ∈ parts, ∀ entry ∈ stored height part, stop.isBeforeEnd entry.1 = true := by
  intro part isPart entry member
  obtain ⟨later, isLater, -, before⟩ := inside
  rw [List.flatMap_append] at sorted
  have early : entry ∈ parts.flatMap (stored height) := List.mem_flatMap.mpr ⟨part, isPart, member⟩
  have late : later ∈ (child :: others).flatMap (stored height) :=
    List.mem_flatMap.mpr ⟨child, List.mem_cons_self, isLater⟩
  exact ScanBound.isBeforeEnd_of_le ((List.pairwise_append.mp sorted).2.2 entry early later late).le
    before

/-- A fault in one of some children is a fault after visits of children before it. -/
theorem faulty_below (earlier : List (Tree height)) {front : List (Bytes × Bytes)}
    {parts others children : List (Tree height)} {child : Tree height} (split : children = parts ++ child :: others)
    (sorted : ((earlier ++ children).flatMap (stored height)).Pairwise fun early late =>
      early.1 < late.1)
    (visited : ∀ entry ∈ front, ∃ part ∈ earlier ++ parts, entry ∈ stored height part)
    (inside : ∃ entry ∈ stored height child,
      start.isAfterStart entry.1 = true ∧ stop.isBeforeEnd entry.1 = true)
    (faulty : ∀ back, (forwardSift start stop ((leftVisits height child).map some ++ back)).Faulty)
    (back : List (Option (Bytes × Bytes))) :
    (forwardSift start stop
      (front.map some ++ ((children.flatMap (leftVisits height)).map some ++ back))).Faulty := by
  rw [split, ← List.append_assoc] at sorted
  have early := before_of_later sorted inside
  rw [split, List.flatMap_append, List.flatMap_cons, List.map_append, List.append_assoc,
    List.map_append, List.append_assoc, ← List.append_assoc, ← List.map_append]
  refine faulty_append (fun other member => ?_) (faulty _)
  obtain ⟨given, isGiven, same⟩ := List.mem_map.mp member
  cases same
  rcases List.mem_append.mp isGiven with inFront | inParts
  · obtain ⟨part, isPart, inPart⟩ := visited other inFront
    exact early part isPart other inPart
  · obtain ⟨part, isPart, inPart⟩ := List.mem_flatMap.mp inParts
    exact early part (List.mem_append_right _ isPart) other (mem_leftVisits.mp inPart)

/-- A repeated visit below a tree entered from the left is a fault. -/
theorem faulty_leftVisits {tree : Tree height} (ordered : Ordered height lo hi tree)
    (repeats : RepeatsLeft start stop height tree) (back : List (Option (Bytes × Bytes))) :
    (forwardSift start stop ((leftVisits height tree).map some ++ back)).Faulty := by
  induction height generalizing lo hi back with
  | zero => exact absurd repeats id
  | succ height ih =>
      rw [leftVisits, List.map_append, List.append_assoc]
      rcases repeats with ⟨first, found, ⟨entry, member, inside⟩, before⟩ |
        ⟨(child : Tree height), below, repeats⟩
      · obtain ⟨others, children⟩ := List.head?_eq_some_iff.mp found
        have visited : entry ∈ leftVisits height first := mem_leftVisits.mpr member
        have early : ∀ entry ∈ leftVisits height first, stop.isBeforeEnd entry.1 = true :=
          fun other member => before other (mem_leftVisits.mp member)
        have keeps : (start.isAfterStart entry.1 && stop.isBeforeEnd entry.1) = true :=
          Bool.and_eq_true_iff.mpr inside
        have parts : tree.children.flatMap (leftVisits height) =
            leftVisits height first ++ others.flatMap (leftVisits height) :=
          (congrArg (List.flatMap (leftVisits height)) children).trans List.flatMap_cons
        rw [found, parts]
        refine faulty_twice ?_ (List.mem_map_of_mem visited) ?_ keeps
        · intro other member
          obtain ⟨given, isGiven, same⟩ := List.mem_map.mp member
          cases same
          exact early other isGiven
        · rw [List.map_append, List.append_assoc, sift_all early]
          exact .inr (List.mem_append_left _ (List.mem_filter.mpr ⟨visited, keeps⟩))
      · obtain ⟨low, high, -, -, -, fits⟩ := (InnerOrdered.chain ordered).exists_fits child below
        obtain ⟨parts, others, children⟩ : ∃ parts others : List (Tree height),
            tree.children = parts ++ child :: others := List.append_of_mem below
        cases parts with
        | nil =>
            have found : tree.children.head? = some child := List.head?_eq_some_iff.mpr ⟨_, children⟩
            rw [found]
            exact ih fits repeats _
        | cons first parts =>
            have found : tree.children.head? = some first :=
              List.head?_eq_some_iff.mpr ⟨_, children⟩
            rw [found]
            exact faulty_below [] children ordered.entriesIn.sorted
              (fun entry member => ⟨first, List.mem_cons_self, mem_leftVisits.mp member⟩)
              repeats.in_range (ih fits repeats) back

/-- An entry in range below one of some children is collected if it is collected in each child that
is visited. -/
theorem collected_flatMap {children : List (Tree height)}
    (sorted : (children.flatMap (stored height)).Pairwise fun early late => early.1 < late.1)
    (each : ∀ child ∈ children, entry ∈ stored height child → ∀ back,
      entry ∈ (forwardSift start stop ((leftVisits height child).map some ++ back)).items)
    (member : entry ∈ children.flatMap (stored height))
    (inside : start.isAfterStart entry.1 = true ∧ stop.isBeforeEnd entry.1 = true)
    (back : List (Option (Bytes × Bytes))) :
    entry ∈ (forwardSift start stop
      ((children.flatMap (leftVisits height)).map some ++ back)).items := by
  obtain ⟨child, isChild, inChild⟩ := List.mem_flatMap.mp member
  obtain ⟨parts, others, rfl⟩ := List.append_of_mem isChild
  have early := before_of_later sorted ⟨entry, inChild, inside⟩
  have before : ∀ other ∈ parts.flatMap (leftVisits height), stop.isBeforeEnd other.1 = true := by
    intro other inParts
    obtain ⟨part, isPart, inPart⟩ := List.mem_flatMap.mp inParts
    exact early part isPart other (mem_leftVisits.mp inPart)
  rw [List.flatMap_append, List.map_append, List.append_assoc, forwardSift, sift_all before]
  refine List.mem_append_right _ ?_
  rw [List.flatMap_cons, List.map_append, List.append_assoc]
  exact each child isChild inChild _

/-- Every entry in range is collected in a tree entered from the left. -/
theorem collected_leftVisits {tree : Tree height} (ordered : Ordered height lo hi tree)
    (member : entry ∈ stored height tree)
    (inside : start.isAfterStart entry.1 = true ∧ stop.isBeforeEnd entry.1 = true)
    (back : List (Option (Bytes × Bytes))) :
    entry ∈ (forwardSift start stop ((leftVisits height tree).map some ++ back)).items := by
  induction height generalizing lo hi back with
  | zero =>
      refine mem_sift member (Bool.and_eq_true_iff.mpr inside) inside.2 ?_
      exact ordered.entriesIn.sorted.imp fun smaller => ScanBound.isBeforeEnd_of_le smaller.le
  | succ height ih =>
      have fits : ∀ child ∈ tree.children, ∃ low high, Ordered height low high child := by
        intro child member
        obtain ⟨low, high, -, -, -, fits⟩ := (InnerOrdered.chain ordered).exists_fits child member
        exact ⟨low, high, fits⟩
      have each : ∀ child ∈ tree.children, entry ∈ stored height child → ∀ back,
          entry ∈ (forwardSift start stop ((leftVisits height child).map some ++ back)).items := by
        intro child isChild inChild back
        obtain ⟨low, high, ordered⟩ := fits child isChild
        exact ih ordered inChild back
      have later := collected_flatMap ordered.entriesIn.sorted each member inside back
      rw [leftVisits, List.map_append, List.append_assoc]
      cases found : tree.children.head? with
      | none => exact later
      | some first =>
          by_cases before : ∀ other ∈ leftVisits height first, stop.isBeforeEnd other.1 = true
          · show entry ∈ (forwardSift start stop ((leftVisits height first).map some ++ _)).items
            rw [forwardSift, sift_all before]
            exact List.mem_append_right _ later
          · push Not at before
            obtain ⟨other, inFirst, past⟩ := before
            obtain ⟨others, children⟩ : ∃ others : List (Tree height),
                tree.children = first :: others := List.head?_eq_some_iff.mp found
            have whole : stored (height + 1) tree =
                stored height first ++ others.flatMap (stored height) :=
              (congrArg (List.flatMap (stored height)) children).trans List.flatMap_cons
            have sorted := ordered.entriesIn.sorted
            rw [whole] at member sorted
            rcases List.mem_append.mp member with here | inOthers
            · exact each first (List.mem_of_mem_head? found) here _
            · have smaller := (List.pairwise_append.mp sorted).2.2 other
                (mem_leftVisits.mp inFirst) entry inOthers
              exact absurd (ScanBound.isBeforeEnd_of_le smaller.le inside.2) past

theorem mem_startVisits {tree : Tree height} (member : entry ∈ startVisits find start height tree) :
    entry ∈ stored height tree := by
  induction height with
  | zero => exact List.mem_of_mem_drop member
  | succ height ih =>
      rcases List.mem_append.mp member with inChild | later
      · obtain ⟨child, found, inChild⟩ := mem_elim_nil.mp inChild
        exact List.mem_flatMap.mpr ⟨child, List.mem_of_getElem? found, ih inChild⟩
      · obtain ⟨child, isLater, inChild⟩ := List.mem_flatMap.mp later
        exact List.mem_flatMap.mpr ⟨child, List.mem_of_mem_drop isLater, mem_leftVisits.mp inChild⟩

/-- The entries from the start on. -/
def startStored (find : Finder) (start : ScanBound) :
    (height : Nat) → Tree height → List (Bytes × Bytes)
  | 0, leaf => (stored 0 leaf).drop (leaf.keys.findIdx start.isAfterStart)
  | height + 1, node =>
      node.children[RangeIterator.startChild find start node]?.elim []
          (startStored find start height) ++
        (node.children.drop (RangeIterator.startChild find start node + 1)).flatMap (stored height)

/-- Every entry in range and from the start on is collected. -/
theorem collected_startVisits {tree : Tree height} (ordered : Ordered height lo hi tree)
    (member : entry ∈ startStored find start height tree)
    (inside : start.isAfterStart entry.1 = true ∧ stop.isBeforeEnd entry.1 = true)
    (back : List (Option (Bytes × Bytes))) :
    entry ∈ (forwardSift start stop ((startVisits find start height tree).map some ++ back)).items := by
  induction height generalizing lo hi back with
  | zero =>
      refine mem_sift member (Bool.and_eq_true_iff.mpr inside) inside.2 ?_
      exact (ordered.entriesIn.sorted.imp fun smaller =>
        ScanBound.isBeforeEnd_of_le smaller.le).drop
  | succ height ih =>
      rw [startVisits, List.map_append, List.append_assoc]
      rcases List.mem_append.mp member with inChild | later
      · obtain ⟨child, found, inChild⟩ := mem_elim_nil.mp inChild
        obtain ⟨low, high, -, -, -, fits⟩ :=
          (InnerOrdered.chain ordered).exists_fits child (List.mem_of_getElem? found)
        rw [found]
        exact ih fits inChild _
      · have each : ∀ child ∈ tree.children.drop (RangeIterator.startChild find start tree + 1),
            entry ∈ stored height child → ∀ back,
              entry ∈ (forwardSift start stop ((leftVisits height child).map some ++ back)).items := by
          intro child isLater inChild back
          obtain ⟨low, high, -, -, -, fits⟩ :=
            (InnerOrdered.chain ordered).exists_fits child (List.mem_of_mem_drop isLater)
          exact collected_leftVisits fits inChild inside back
        have parts : stored (height + 1) tree =
            (tree.children.take (RangeIterator.startChild find start tree + 1)).flatMap
                (stored height) ++
              (tree.children.drop (RangeIterator.startChild find start tree + 1)).flatMap
                (stored height) :=
          (congrArg (List.flatMap (stored height)) (List.take_append_drop _ _).symm).trans
            List.flatMap_append
        have sorted := ordered.entriesIn.sorted
        rw [parts] at sorted
        obtain ⟨-, inLater, across⟩ := List.pairwise_append.mp sorted
        have right := collected_flatMap inLater each later inside back
        cases found : tree.children[RangeIterator.startChild find start tree]? with
        | none => exact right
        | some child =>
            have before : ∀ other ∈ startVisits find start height child,
                stop.isBeforeEnd other.1 = true := by
              intro other visited
              have early := List.mem_flatMap.mpr
                ⟨child, mem_take_succ found, mem_startVisits visited⟩
              exact ScanBound.isBeforeEnd_of_le (across other early entry later).le inside.2
            show entry ∈
              (forwardSift start stop ((startVisits find start height child).map some ++ _)).items
            rw [forwardSift, sift_all before]
            exact List.mem_append_right _ right

/-- A repeated visit to the right of the start is a fault. -/
theorem faulty_startVisits {tree : Tree height} (ordered : Ordered height lo hi tree)
    (repeats : RepeatsForward find start stop height tree) (back : List (Option (Bytes × Bytes))) :
    (forwardSift start stop ((startVisits find start height tree).map some ++ back)).Faulty := by
  induction height generalizing lo hi back with
  | zero => exact absurd repeats id
  | succ height ih =>
      rw [startVisits, List.map_append, List.append_assoc]
      rcases repeats with ⟨(child : Tree height), found, repeats⟩ |
        ⟨(child : Tree height), below, repeats⟩
      · obtain ⟨low, high, -, -, -, fits⟩ :=
          (InnerOrdered.chain ordered).exists_fits child (List.mem_of_getElem? found)
        rw [found]
        exact ih fits repeats _
      · obtain ⟨low, high, -, -, -, fits⟩ :=
          (InnerOrdered.chain ordered).exists_fits child (List.mem_of_mem_drop below)
        obtain ⟨parts, others, later⟩ : ∃ parts others : List (Tree height),
            tree.children.drop (RangeIterator.startChild find start tree + 1) =
              parts ++ child :: others := List.append_of_mem below
        have sorted : ((tree.children.take (RangeIterator.startChild find start tree + 1) ++
            tree.children.drop (RangeIterator.startChild find start tree + 1)).flatMap
              (stored height)).Pairwise fun early late => early.1 < late.1 := by
          rw [List.take_append_drop]
          exact ordered.entriesIn.sorted
        refine faulty_below _ later sorted (fun entry member => ?_) repeats.in_range
          (faulty_leftVisits fits repeats) back
        obtain ⟨first, found, inFirst⟩ := mem_elim_nil.mp member
        exact ⟨first, List.mem_append_left _ (mem_take_succ found), mem_startVisits inFirst⟩

/-- Without repeated visits, a scan visits what is stored from the start on. -/
theorem sift_startVisits {tree : Tree height}
    (once : ¬ RepeatsForward find start stop height tree) (back : List (Option (Bytes × Bytes))) :
    forwardSift start stop ((startVisits find start height tree).map some ++ back) =
      forwardSift start stop ((startStored find start height tree).map some ++ back) := by
  induction height generalizing back with
  | zero => rfl
  | succ height ih =>
      obtain ⟨path, right⟩ := not_or.mp once
      have later : ∀ child ∈ tree.children.drop (RangeIterator.startChild find start tree + 1),
          ∀ back, forwardSift start stop ((leftVisits height child).map some ++ back) =
            forwardSift start stop ((stored height child).map some ++ back) :=
        fun child member back => sift_leftVisits (fun repeats => right ⟨child, member, repeats⟩) back
      rw [startVisits, startStored, List.map_append, List.append_assoc, List.map_append,
        List.append_assoc]
      refine (sift_append_congr (sift_flatMap_congr later back)).trans ?_
      cases found : tree.children[RangeIterator.startChild find start tree]? with
      | none => rfl
      | some child => exact ih (fun repeats => path ⟨child, found, repeats⟩) _

/-- The index of the start is the index of a child, and the separators before it are before the
start. -/
theorem startChild_spec (start : ScanBound) (documented : find.Documented) {node : Node (Tree height)}
    (ordered : InnerOrdered (Ordered height) lo hi node) :
    RangeIterator.startChild find start node < node.children.length ∧
      ∀ separator ∈ node.keys.take (RangeIterator.startChild find start node),
        ∀ key, key < separator → start.isAfterStart key = false := by
  have count := ordered.chain.length
  have bounded : ∀ bound : Bytes, node.findKeyIndex find bound < node.children.length ∧
      ∀ separator ∈ node.keys.take (node.findKeyIndex find bound), separator < bound := by
    intro bound
    have inside := documented.inside node.keys bound
    refine ⟨?_, fun separator early =>
      lt_of_mem_take_find documented ordered.chain.sorted early⟩
    rw [Node.findKeyIndex]
    omega
  cases start with
  | unbounded =>
      refine ⟨?_, fun separator early => ?_⟩
      · rw [RangeIterator.startChild]
        omega
      · rw [RangeIterator.startChild, List.take_zero] at early
        cases early
  | included bound =>
      obtain ⟨inside, early⟩ := bounded bound
      refine ⟨inside, fun separator member key smaller => ?_⟩
      exact decide_eq_false (not_le.mpr (smaller.trans (early separator member)))
  | excluded bound =>
      obtain ⟨inside, early⟩ := bounded bound
      refine ⟨inside, fun separator member key smaller => ?_⟩
      exact decide_eq_false (not_lt.mpr (smaller.trans (early separator member)).le)

theorem exists_skipped_inner (documented : find.Documented) (start : ScanBound)
    {node : Node (Tree height)} (whole : InnerOrdered (Ordered height) lo hi node)
    (each : ∀ {low high child}, Ordered height low high child → ∃ skipped,
      stored height child = skipped ++ startStored find start height child ∧
        ∀ entry ∈ skipped, start.isAfterStart entry.1 = false) :
    ∃ skipped, node.children.flatMap (stored height) = skipped ++
        (node.children[RangeIterator.startChild find start node]?.elim []
            (startStored find start height) ++
          (node.children.drop (RangeIterator.startChild find start node + 1)).flatMap
            (stored height)) ∧
      ∀ entry ∈ skipped, start.isAfterStart entry.1 = false := by
  obtain ⟨inside, early⟩ := startChild_spec start documented whole
  obtain ⟨child, found⟩ :
      ∃ child, node.children[RangeIterator.startChild find start node]? = some child :=
    ⟨_, List.getElem?_eq_getElem inside⟩
  obtain ⟨before, after, place⟩ := exists_place whole found
  obtain ⟨-, fits, -⟩ := whole.at_place place
  obtain ⟨skipped, parts, notAfter⟩ := each fits
  have count := whole.chain.length
  have length : before.length = RangeIterator.startChild find start node :=
    place.length.trans (List.length_take_of_le (by omega))
  have rest : node.children.drop (RangeIterator.startChild find start node + 1) = after := by
    rw [place.children, ← length, List.drop_length_add_append]
    rfl
  refine ⟨before.flatMap (stored height) ++ skipped, ?_, fun entry member => ?_⟩
  · rw [found, rest, Option.elim_some, List.append_assoc, ← List.append_assoc skipped, ← parts]
    exact (congrArg (List.flatMap (stored height)) place.children).trans
      (List.flatMap_append.trans (congrArg _ List.flatMap_cons))
  · rcases List.mem_append.mp member with inBefore | inSkipped
    · obtain ⟨other, isBefore, inOther⟩ := List.mem_flatMap.mp inBefore
      obtain ⟨low, high, le, otherFits⟩ := (whole.around place).1 other isBefore
      have below := (otherFits.entriesIn.inside entry inOther).2.trans_le le
      rcases List.eq_nil_or_concat
        (node.keys.take (RangeIterator.startChild find start node)) with none | ⟨outer, last, keys⟩
      · have empty := place.length
        rw [none, List.length_nil] at empty
        rw [List.length_eq_zero_iff.mp empty] at isBefore
        cases isBefore
      · rw [List.concat_eq_append] at keys
        rw [keys, lower_concat] at below
        have member : last ∈ node.keys.take (RangeIterator.startChild find start node) := by
          rw [keys]
          exact List.mem_append_right _ List.mem_cons_self
        exact early last member entry.1 (fence_lt_fence.mp below)
    · exact notAfter entry inSkipped

/-- What is stored before the start is not after the start bound. -/
theorem exists_skipped (documented : find.Documented) (start : ScanBound) {tree : Tree height}
    (ordered : Ordered height lo hi tree) :
    ∃ skipped, stored height tree = skipped ++ startStored find start height tree ∧
      ∀ entry ∈ skipped, start.isAfterStart entry.1 = false := by
  induction height generalizing lo hi with
  | zero =>
      obtain ⟨children, list, rfl, -⟩ := ordered
      rw [startStored, stored_leafOf]
      refine ⟨_, (List.take_append_drop _ _).symm, fun entry member => ?_⟩
      obtain ⟨index, inside, rfl⟩ := List.mem_take_iff_getElem.mp member
      have early : index < (leafOf children list).keys.findIdx start.isAfterStart := by omega
      have before := List.not_of_lt_findIdx early
      simpa [leafOf] using before
  | succ height ih => exact exists_skipped_inner documented start ordered fun fits => ih fits

end Visits

/-! ## Exact scans -/

section Exact

variable {find : Finder} {maxPageData : Nat} {calls : List TreeCall} {tree : RootedTree}
variable {map : Bytes → Option Bytes}

/-- A forward scan of an ordered tree is exact if and only if no visit is repeated. -/
theorem exactScan_forward_iff (documented : find.Documented) (represents : tree.Represents map)
    (start stop : ScanBound) :
    (∃ collected, Collects (RangeIterator.round find) (tree.range start stop .forward) collected ∧
      ExactScan map start stop (· < ·) collected) ↔
      ¬ RepeatsForward find start stop tree.height tree.root := by
  have visits : Collects (RangeIterator.round find) _ _ :=
    RangeIterator.collects_forward represents.ordered start stop
  constructor
  · rintro ⟨collected, collects, exact⟩ repeats
    have same := collects.unique visits
    have faulty := faulty_startVisits represents.ordered repeats []
    rw [List.append_nil, forwardSift, ← same] at faulty
    rcases faulty with panics | twice
    · rw [exact.completes] at panics
      cases panics
    · refine twice (exact.ordered.imp fun smaller same => ?_)
      rw [same] at smaller
      exact lt_irrefl _ smaller
  · intro once
    obtain ⟨skipped, parts, notAfter⟩ := exists_skipped documented start represents.ordered
    have sorted := represents.ordered.entriesIn.sorted
    have whole := sift_startVisits once []
    rw [List.append_nil, List.append_nil] at whole
    have kept : forwardSift start stop
        ((startStored find start tree.height tree.root).map some) =
          ⟨(stored tree.height tree.root).filter fun entry =>
            start.isAfterStart entry.1 && stop.isBeforeEnd entry.1, false⟩ := by
      have none : skipped.filter
          (fun entry => start.isAfterStart entry.1 && stop.isBeforeEnd entry.1) = [] := by
        refine List.filter_eq_nil_iff.mpr fun entry member keeps => ?_
        have after := (Bool.and_eq_true_iff.mp keeps).1
        rw [notAfter entry member] at after
        cases after
      rw [parts, List.filter_append, none, List.nil_append]
      refine sift_sorted (fun entry keeps => (Bool.and_eq_true_iff.mp keeps).2) ?_
      rw [parts] at sorted
      exact (List.pairwise_append.mp sorted).2.1.imp fun smaller =>
        ScanBound.isBeforeEnd_of_le smaller.le
    have result := whole.trans kept
    rw [forwardSift] at result
    refine ⟨_, visits, ?_⟩
    rw [result]
    refine ⟨rfl, sorted.filter _, fun key value => ?_⟩
    rw [List.mem_filter, represents.ordered.mem_stored, represents.entries, Bool.and_eq_true]

/-- In every run that divides no leaf whose only key is its lower bound, a forward scan is exact if
and only if no visit is repeated. -/
theorem scan_forward_iff (documented : find.Documented)
    (undivided : TreeCall.Undivided find maxPageData calls) (start stop : ScanBound) :
    (∃ collected,
      Collects (RangeIterator.round find)
        ((TreeCall.run find maxPageData calls).range start stop .forward) collected ∧
      ExactScan (TreeCall.contents calls) start stop (· < ·) collected) ↔
      ¬ RepeatsForward find start stop (TreeCall.run find maxPageData calls).height
        (TreeCall.run find maxPageData calls).root :=
  exactScan_forward_iff documented (TreeCall.represents_run documented undivided) start stop

end Exact

/-- Two puts into a leaf. -/
def twoPuts : List TreeCall := [.put [1] [5], .put [2] [6]]

theorem twoPuts_undivided : TreeCall.Undivided binarySearch 128 twoPuts := by
  refine ⟨⟨by decide +kernel, ?_⟩, ⟨by decide +kernel, ?_⟩, trivial⟩
  · rintro (⟨full, -⟩ | ⟨full, -⟩) <;> exact absurd full (by decide +kernel)
  · rintro (⟨full, -⟩ | ⟨full, -⟩) <;> exact absurd full (by decide +kernel)

theorem scan_forward_twoPuts :
    ∃ collected,
      Collects (RangeIterator.round binarySearch)
        ((TreeCall.run binarySearch 128 twoPuts).range (.included [1]) (.excluded [2]) .forward)
        collected ∧
      ExactScan (TreeCall.contents twoPuts) (.included [1]) (.excluded [2]) (· < ·) collected := by
  refine (scan_forward_iff Finder.documented_binarySearch twoPuts_undivided _ _).mpr ?_
  have short : TreeCall.run binarySearch 128 twoPuts =
      ⟨0, (⟨[[1], [2]], [some [5], some [6]], [], true⟩ : Tree 0)⟩ := by
    rfl
  rw [short]
  exact id

/-- Seven puts, which make a tree of height two from pages of 128 bytes. -/
def sevenPuts : List TreeCall :=
  (List.range 7).map fun index => .put [Fin.ofNat 256 index] (List.replicate 20 7)

/-- The leaf of the key `[3]` is the first child of an internal node and is visited twice. -/
theorem scan_forward_repeats :
    TreeCall.Returned binarySearch 128 sevenPuts ∧
      Collects (RangeIterator.round binarySearch)
        ((TreeCall.run binarySearch 128 sevenPuts).range .unbounded .unbounded .forward)
        ⟨([[0], [1], [2], [3], [3], [4], [5], [6]] : List Bytes).map fun key =>
          (key, List.replicate 20 7), false⟩ ∧
      ¬ ∃ collected,
        Collects (RangeIterator.round binarySearch)
          ((TreeCall.run binarySearch 128 sevenPuts).range .unbounded .unbounded .forward)
          collected ∧
        ExactScan (TreeCall.contents sevenPuts) .unbounded .unbounded (· < ·) collected := by
  have collects : Collects (RangeIterator.round binarySearch)
      ((TreeCall.run binarySearch 128 sevenPuts).range .unbounded .unbounded .forward)
      ⟨([[0], [1], [2], [3], [3], [4], [5], [6]] : List Bytes).map fun key =>
        (key, List.replicate 20 7), false⟩ :=
    collects_of_collect (show collect _ 60 _ = _ by decide +kernel)
  refine ⟨by decide +kernel, collects, ?_⟩
  rintro ⟨collected, other, exact⟩
  have ordered := exact.ordered
  rw [other.unique collects] at ordered
  exact absurd ordered (by decide +kernel)

end JouleDB.BTree
