import JouleDB.Art.Node

/-!
# Radix trees

In a radix tree every node stands under a byte string that all keys below it begin with: its own
path and the byte of the edge lead from a node to a child.  Lookup, deletion and the order of the
leaves rest on nothing else.  An insertion keeps it as long as no key that ends inside the tree is
inserted and no path has to be compared or split beyond its stored bytes.
-/

namespace JouleDB.Art

/-! ## Shared bytes -/

/-- Two byte strings are a common part and two rests that differ at once, unless one of them is
used up. -/
theorem commonLength_split (first second : Bytes) :
    ∃ common restFirst restSecond, first = common ++ restFirst ∧ second = common ++ restSecond ∧
      common.length = commonLength first second ∧
      (restFirst = [] ∨ restSecond = [] ∨ restFirst.head? ≠ restSecond.head?) := by
  induction first generalizing second with
  | nil => exact ⟨[], [], second, rfl, rfl, rfl, .inl rfl⟩
  | cons byte rest ih =>
      cases second with
      | nil => exact ⟨[], byte :: rest, [], rfl, rfl, rfl, .inr (.inl rfl)⟩
      | cons other others =>
          rw [commonLength]
          split
          next same =>
            subst same
            obtain ⟨common, restFirst, restSecond, rfl, rfl, length, apart⟩ := ih others
            exact ⟨byte :: common, restFirst, restSecond, rfl, rfl, by rw [List.length_cons, length],
              apart⟩
          next differ =>
            exact ⟨[], byte :: rest, other :: others, rfl, rfl, rfl,
              .inr (.inr fun same => differ (Option.some.inj same))⟩

theorem commonLength_le (first second : Bytes) : commonLength first second ≤ first.length := by
  obtain ⟨common, rest, _, split, -, length, -⟩ := commonLength_split first second
  rw [← length, split, List.length_append]
  exact Nat.le_add_right _ _

/-- The whole of the first string is shared when it is a prefix of the second. -/
theorem commonLength_eq_iff {first second : Bytes} :
    commonLength first second = first.length ↔ first <+: second := by
  induction first generalizing second with
  | nil => simp [commonLength]
  | cons byte rest ih =>
      cases second with
      | nil => simp [commonLength]
      | cons other others =>
          rw [commonLength, List.cons_prefix_cons, List.length_cons]
          split
          next same => rw [Nat.add_right_cancel_iff, ih, and_iff_right same]
          next differ => simp [differ]

theorem commonLength_lt_iff {first second : Bytes} :
    commonLength first second < first.length ↔ ¬ first <+: second := by
  rw [← commonLength_eq_iff]
  exact lt_iff_le_and_ne.trans (and_iff_right (commonLength_le first second))

/-! ## Paths -/

namespace Prefix

/-- The path stands for some bytes, of which it stores the first ones. -/
structure Describes (path : Prefix) (middle : Bytes) : Prop where
  len : path.len = middle.length
  stored : path.inlineBytes = middle.take maxPrefixLen

variable {path child : Prefix} {middle first second : Bytes}

theorem describes_fromSlice (source : Bytes) : (fromSlice source).Describes source where
  len := rfl
  stored := by
    have length : (source.take maxPrefixLen).length = Nat.min source.length maxPrefixLen := by
      rw [List.length_take, Nat.min_comm]
    rw [inlineBytes, inlineLen, fromSlice, List.take_append_of_le_length (le_of_eq length.symm)]
    exact List.take_of_length_le (le_of_eq length)

theorem Describes.inlineLen_eq (describes : path.Describes middle) :
    path.inlineLen = path.inlineBytes.length := by
  rw [describes.stored, List.length_take, inlineLen, describes.len, Nat.min_comm]

theorem Describes.inlineBytes_eq (describes : path.Describes middle) (fits : path.len ≤ maxPrefixLen) :
    path.inlineBytes = middle := by
  rw [describes.stored]
  exact List.take_of_length_le (describes.len ▸ fits)

section Descent

variable {start key : Bytes}

/-- The stored bytes match a key that goes on with the whole path. -/
theorem Describes.matches (describes : path.Describes middle) (onPath : start ++ middle <+: key) :
    ¬ path.checkPrefix key start.length < path.inlineLen := by
  obtain ⟨rest, rfl⟩ := onPath
  rw [checkPrefix, describes.inlineLen_eq, commonLength_lt_iff, not_not, describes.stored,
    List.append_assoc, List.drop_left]
  exact (List.take_prefix _ _).trans (List.prefix_append _ _)

/-- A path that fits is on the way of every key that the stored bytes match. -/
theorem Describes.onPath (describes : path.Describes middle) (fits : path.len ≤ maxPrefixLen)
    (under : start <+: key) (all : ¬ path.checkPrefix key start.length < path.inlineLen) :
    start ++ middle <+: key := by
  obtain ⟨rest, rfl⟩ := under
  rw [checkPrefix, describes.inlineLen_eq, commonLength_lt_iff, not_not,
    describes.inlineBytes_eq fits, List.drop_left] at all
  exact (List.prefix_append_right_inj start).mpr all

theorem Describes.getElem_next (describes : path.Describes middle) {byte : Byte}
    (under : start ++ middle ++ [byte] <+: key) :
    ∃ inside : start.length + path.len < key.length, key[start.length + path.len] = byte := by
  obtain ⟨rest, rfl⟩ := under
  rw [describes.len]
  exact ⟨by simp, by simp⟩

theorem Describes.under_next (describes : path.Describes middle) (onPath : start ++ middle <+: key)
    (inside : start.length + path.len < key.length) :
    start ++ middle ++ [key[start.length + path.len]] <+: key := by
  obtain ⟨rest, rfl⟩ := onPath
  rw [describes.len] at inside
  cases rest with
  | nil => simp at inside
  | cons byte rest => exact ⟨rest, by simp [describes.len]⟩

theorem Describes.depth (describes : path.Describes middle) (start : Bytes) (byte : Byte) :
    start.length + path.len + 1 = (start ++ middle ++ [byte]).length := by
  rw [describes.len, List.length_append, List.length_append]
  rfl

end Descent

/-- After a split within a stored path the lower node keeps the bytes after the edge. -/
theorem describes_afterSplit {byte : Byte} (describes : path.Describes (first ++ byte :: second))
    (fits : path.len ≤ maxPrefixLen) : (path.afterSplit first.length).Describes second := by
  have whole := describes.inlineBytes_eq fits
  have length : path.len = first.length + 1 + second.length := by
    rw [describes.len, List.length_append, List.length_cons]
    omega
  have inline : path.inlineLen = first.length + 1 + second.length :=
    (Nat.min_eq_left fits).trans length
  have remaining : path.len - (first.length + 1) = second.length := by
    rw [length]
    exact Nat.add_sub_cancel_left _ _
  have dropped : (first ++ byte :: second).drop (first.length + 1) = second := by
    rw [List.drop_append, List.drop_eq_nil_of_le (Nat.le_succ _), Nat.add_sub_cancel_left]
    rfl
  rw [afterSplit]
  simp only [remaining, inline, Nat.min_self]
  cases second with
  | nil => exact ⟨rfl, rfl⟩
  | cons next rest =>
      rw [if_pos ⟨Nat.zero_lt_succ _, by simp⟩, ← inline]
      rw [inlineBytes] at whole
      rw [whole, dropped]
      exact describes_fromSlice _

/-- The first bytes of a joined path are the first bytes of the joined first bytes. -/
theorem take_join (first second : Bytes) (byte : Byte) (count : Nat) :
    (first.take count ++ byte :: second.take count).take count =
      (first ++ byte :: second).take count := by
  rw [List.take_append, List.take_append, List.take_take, Nat.min_self, List.length_take]
  congr 1
  rcases Nat.le_total count first.length with long | short
  · simp [Nat.min_eq_left long, Nat.sub_eq_zero_of_le long]
  · rw [Nat.min_eq_right short]
    have bound : count - first.length ≤ count := Nat.sub_le _ _
    generalize count - first.length = left at bound
    cases left with
    | zero => rfl
    | succ left =>
        rw [List.take_succ_cons, List.take_succ_cons, List.take_take,
          Nat.min_eq_left (Nat.le_of_succ_le bound)]

/-- The path of an only child that takes the place of its parent. -/
theorem describes_merge (above : path.Describes first) (below : child.Describes second)
    (byte : Byte) : (path.merge byte child).Describes (first ++ byte :: second) where
  len := by
    simp only [merge, above.len, below.len, List.length_append, List.length_cons]
    omega
  stored := by
    have joined : (path.inlineBytes ++ byte :: child.inlineBytes).take maxPrefixLen =
        (first ++ byte :: second).take maxPrefixLen := by
      rw [above.stored, below.stored, take_join]
    have source := describes_fromSlice ((first ++ byte :: second).take maxPrefixLen)
    have inline : (path.merge byte child).inlineLen =
        (fromSlice ((first ++ byte :: second).take maxPrefixLen)).inlineLen := by
      simp only [inlineLen, merge, fromSlice, above.len, below.len, List.length_take,
        List.length_append, List.length_cons]
      omega
    rw [inlineBytes, inline, merge, joined]
    exact source.stored.trans (List.take_take.trans (by rw [Nat.min_self]))

end Prefix

/-! ## Radix trees -/

namespace ArtNode

/-- All keys of the tree begin with `start`, and every inner node separates its keys by their next
byte after a shared path. -/
inductive Radix : Bytes → ArtNode → Prop where
  | leaf {start key value : Bytes} (under : start <+: key) : Radix start (.leaf key value)
  | inner {start middle : Bytes} {path : Prefix} {layout : Layout ArtNode}
      (describes : path.Describes middle) (ok : layout.Ok) (snug : layout.Snug)
      (below : ∀ byte child, layout.findChild byte = some child →
        Radix (start ++ middle ++ [byte]) child) :
      Radix start (.inner path layout)

/-- On the way of a key down the tree, a path of which not all bytes are stored is shared by the key:
some leaf below has all its bytes. -/
def longPrefixesMatch (node : ArtNode) (key : Bytes) (depth : Nat) : Bool :=
  match node with
  | .leaf _ _ => true
  | .inner path layout =>
      (path.len ≤ maxPrefixLen || (ArtNode.inner path layout).artCollect.any fun entry =>
        (key.take (depth + path.len)).isPrefixOf entry.key) &&
      (if path.checkPrefix key depth < path.inlineLen then true
      else if inside : depth + path.len < key.length then
        match layout.findChild key[depth + path.len] with
        | some child => child.longPrefixesMatch key (depth + path.len + 1)
        | none => true
      else true)
termination_by key.length - depth

namespace Radix

variable {start key value : Bytes} {node : ArtNode} {entry : IndexEntry}

theorem prefix_key (radix : Radix start node) (member : entry ∈ node.artCollect) :
    start <+: entry.key := by
  induction radix with
  | leaf under =>
      rw [artCollect, List.mem_singleton] at member
      rwa [member]
  | inner describes ok snug below ih =>
      obtain ⟨byte, child, found, inside⟩ := (mem_artCollect_inner ok).mp member
      have long := ih byte child found inside
      rw [List.append_assoc] at long
      exact (List.prefix_append _ _).trans long

theorem exists_entry (radix : Radix start node) : ∃ entry, entry ∈ node.artCollect := by
  induction radix with
  | leaf under => exact ⟨_, List.mem_singleton_self _⟩
  | inner describes ok snug below ih =>
      obtain ⟨byte, child, found⟩ := Layout.exists_child ok snug.inhabited
      obtain ⟨entry, inside⟩ := ih byte child found
      exact ⟨entry, (mem_artCollect_inner ok).mpr ⟨byte, child, found, inside⟩⟩

/-- Strings that go on with a smaller byte are smaller. -/
theorem lt_of_next {start first second : Bytes} {low high : Byte} (less : low < high)
    (underLow : start ++ [low] <+: first) (underHigh : start ++ [high] <+: second) :
    first < second := by
  obtain ⟨rest, rfl⟩ := underLow
  obtain ⟨others, rfl⟩ := underHigh
  induction start with
  | nil => exact List.Lex.rel less
  | cons byte start ih => exact List.Lex.cons ih

/-- The leaves are visited in the order of their keys. -/
theorem ascending (radix : Radix start node) :
    node.artCollect.Pairwise fun first second => first.key < second.key := by
  induction radix with
  | leaf under => exact List.pairwise_singleton _ _
  | inner describes ok snug below ih =>
      rw [artCollect_inner, List.pairwise_flatMap]
      constructor
      · rintro ⟨byte, child⟩ member
        exact ih byte child ((Layout.mem_childrenSorted ok).mp member)
      · refine (Layout.ascending_childrenSorted ok).imp_of_mem ?_
        rintro ⟨low, left⟩ ⟨high, right⟩ isLeft isRight less first inLeft second inRight
        exact lt_of_next less
          ((below low left ((Layout.mem_childrenSorted ok).mp isLeft)).prefix_key inLeft)
          ((below high right ((Layout.mem_childrenSorted ok).mp isRight)).prefix_key inRight)

/-- A key is found exactly when it is at a leaf. -/
theorem artGet_eq_some (radix : Radix start node) :
    node.artGet key start.length = some entry ↔ entry ∈ node.artCollect ∧ entry.key = key := by
  induction radix with
  | @leaf start leafKey value under =>
      rw [artGet, artCollect, List.mem_singleton]
      constructor
      · intro found
        split at found
        next same =>
          cases found
          exact ⟨rfl, same⟩
        next => cases found
      · rintro ⟨rfl, same⟩
        rw [if_pos same]
  | @inner start middle path layout describes ok snug below ih =>
      rw [artGet, mem_artCollect_inner ok]
      constructor
      · intro found
        split at found
        next => cases found
        next =>
          split at found
          next inside =>
            split at found
            next child isChild =>
              rw [describes.depth, ih _ child isChild] at found
              exact ⟨⟨_, child, isChild, found.1⟩, found.2⟩
            next => cases found
          next => cases found
      · rintro ⟨⟨byte, child, isChild, member⟩, rfl⟩
        have under := (below byte child isChild).prefix_key member
        obtain ⟨inside, isByte⟩ := describes.getElem_next under
        rw [if_neg (describes.matches ((List.prefix_append _ _).trans under)), dif_pos inside,
          isByte, isChild]
        change child.artGet entry.key (start.length + path.len + 1) = some entry
        rw [describes.depth start byte, ih byte child isChild]
        exact ⟨member, rfl⟩

theorem next_unique {start key : Bytes} {first second : Byte} (one : start ++ [first] <+: key)
    (two : start ++ [second] <+: key) : first = second := by
  obtain ⟨rest, rfl⟩ := one
  obtain ⟨others, same⟩ := two
  rw [List.append_assoc, List.append_assoc, List.append_cancel_left_eq] at same
  exact (List.cons.inj same).1.symm

/-- What is collected from a node, the child under one byte apart. -/
theorem mem_artCollect_child {path : Prefix} {layout : Layout ArtNode} (ok : layout.Ok)
    (byte : Byte) :
    entry ∈ (ArtNode.inner path layout).artCollect ↔
      entry ∈ collectOption (layout.findChild byte) ∨
        ∃ other child, other ≠ byte ∧ layout.findChild other = some child ∧
          entry ∈ child.artCollect :=
  mem_artCollect_update ok (Function.update_eq_self byte _).symm

/-! ## Deletion -/

theorem isSome_artDelete (node : ArtNode) (key : Bytes) (depth : Nat) :
    (node.artDelete key depth).isSome = (node.artGet key depth).isSome := by
  fun_induction artDelete node key depth with
  | case1 depth value => simp [artGet]
  | case2 depth leafKey value differ => simp [artGet, differ]
  | case3 depth path layout mismatch => simp [artGet, mismatch]
  | case4 depth path layout matched inside absent => simp [artGet, matched, inside, absent]
  | case5 depth path layout matched inside child isChild ih =>
      rw [Option.isSome_map, ih, artGet, if_neg matched, dif_pos inside, isChild]
  | case6 depth path layout matched outside => simp [artGet, matched, outside]

theorem exists_of_artDelete (radix : Radix start node) {left : Option ArtNode}
    (deleted : node.artDelete key start.length = some left) :
    ∃ entry ∈ node.artCollect, entry.key = key := by
  have found := isSome_artDelete node key start.length
  rw [deleted, Option.isSome_some] at found
  obtain ⟨entry, isEntry⟩ := Option.isSome_iff_exists.mp found.symm
  obtain ⟨member, isKey⟩ := radix.artGet_eq_some.mp isEntry
  exact ⟨entry, member, isKey⟩

/-- Putting an only child in the place of its parent keeps the leaves. -/
theorem collapse_spec {middle : Bytes} {path : Prefix} {layout : Layout ArtNode}
    (describes : path.Describes middle) (ok : layout.Ok)
    (small : layout.Snug ∨ ∃ slot, layout = .node4 [slot])
    (below : ∀ byte child, layout.findChild byte = some child →
      Radix (start ++ middle ++ [byte]) child) :
    Radix start (collapse path layout) ∧
      ∀ entry, entry ∈ (collapse path layout).artCollect ↔
        entry ∈ (ArtNode.inner path layout).artCollect := by
  rcases small with snug | ⟨⟨byte, child⟩, rfl⟩
  · have same : collapse path layout = .inner path layout := by
      rw [collapse.eq_def]
      split
      next => exact absurd snug.1 (by simp [Layout.lowest, Layout.numChildren])
      next => exact absurd snug.1 (by simp [Layout.lowest, Layout.numChildren])
      next => rfl
    rw [same]
    exact ⟨.inner describes ok snug below, fun entry => Iff.rfl⟩
  · have single : (ArtNode.inner path (.node4 [(byte, child)])).artCollect = child.artCollect := by
      rw [artCollect_inner]
      simp [Layout.childrenSorted]
    have radix := below byte child (by simp [Layout.findChild])
    rw [single]
    cases radix with
    | leaf under =>
        rw [List.append_assoc] at under
        exact ⟨.leaf ((List.prefix_append _ _).trans under), fun entry => Iff.rfl⟩
    | @inner _ second childPath childLayout childDescribes childOk childSnug childBelow =>
        refine ⟨.inner (Prefix.describes_merge describes childDescribes byte) childOk childSnug ?_,
          fun entry => ?_⟩
        · intro next grandchild found
          have lower := childBelow next grandchild found
          simpa using lower
        · rw [collapse, artCollect_inner, artCollect_inner]

/-- A deletion removes the entry of its key and keeps the tree a radix tree. -/
theorem artDelete_spec (radix : Radix start node) {remaining : Option ArtNode}
    (deleted : node.artDelete key start.length = some remaining) :
    (∀ rest, remaining = some rest → Radix start rest) ∧
      ∀ entry, entry ∈ collectOption remaining ↔ entry ∈ node.artCollect ∧ entry.key ≠ key := by
  induction radix generalizing remaining with
  | @leaf start leafKey value under =>
      rw [artDelete] at deleted
      split at deleted
      next same =>
        cases deleted
        refine ⟨fun rest isRest => absurd isRest (by simp), fun entry => ?_⟩
        rw [collectOption, artCollect, List.mem_singleton]
        constructor
        · intro member
          cases member
        · rintro ⟨rfl, differ⟩
          exact absurd same differ
      next => cases deleted
  | @inner start middle path layout describes ok snug below ih =>
      rw [artDelete] at deleted
      split at deleted
      next => cases deleted
      next matched =>
        split at deleted
        next inside =>
          split at deleted
          next => cases deleted
          next child isChild =>
            obtain ⟨left, isLeft, rfl⟩ := Option.map_eq_some_iff.mp deleted
            rw [describes.depth] at isLeft
            obtain ⟨kept, entries⟩ := ih _ child isChild isLeft
            obtain ⟨stored, shows, small⟩ := Layout.storeChild_spec ok snug (by rw [isChild]; rfl) left
            -- the key is at a leaf of this child
            have under : start ++ middle ++ [key[start.length + path.len]] <+: key := by
              obtain ⟨found, member, rfl⟩ := (below _ child isChild).exists_of_artDelete isLeft
              exact (below _ child isChild).prefix_key member
            have children : ∀ byte node, (Function.update layout.findChild
                key[start.length + path.len] left) byte = some node →
                Radix (start ++ middle ++ [byte]) node := by
              intro byte node held
              rcases eq_or_ne byte key[start.length + path.len] with rfl | apart
              · rw [Function.update_self] at held
                exact kept node held
              · rw [Function.update_of_ne apart] at held
                exact below byte node held
            rw [← shows] at children
            obtain ⟨collapsed, same⟩ := collapse_spec describes stored small children
            refine ⟨fun rest isRest => Option.some.inj isRest ▸ collapsed, fun entry => ?_⟩
            rw [collectOption, same, mem_artCollect_update stored shows, entries,
              mem_artCollect_child ok key[start.length + path.len], isChild, collectOption]
            constructor
            · rintro (⟨member, differ⟩ | ⟨other, node, apart, found, member⟩)
              · exact ⟨.inl member, differ⟩
              · refine ⟨.inr ⟨other, node, apart, found, member⟩, fun isKey => apart ?_⟩
                subst isKey
                exact next_unique ((below other node found).prefix_key member) under
            · rintro ⟨member | elsewhere, differ⟩
              · exact .inl ⟨member, differ⟩
              · exact .inr elsewhere
        next => cases deleted

/-! ## Insertion -/

theorem radix_pair {middle : Bytes} {path : Prefix} {low high : Byte} {left right : ArtNode}
    (describes : path.Describes middle) (less : low < high)
    (isLeft : Radix (start ++ middle ++ [low]) left)
    (isRight : Radix (start ++ middle ++ [high]) right) :
    Radix start (.inner path (.node4 [(low, left), (high, right)])) ∧
      (ArtNode.inner path (.node4 [(low, left), (high, right)])).artCollect =
        left.artCollect ++ right.artCollect := by
  constructor
  · refine .inner describes ?_ ⟨Nat.le_refl 2, show 2 ≤ 4 by decide⟩ ?_
    · exact List.pairwise_pair.mpr less
    · intro byte child found
      rw [Layout.findChild, lookup_cons_ite, lookup_cons_ite] at found
      split at found
      next isLow =>
        cases found
        exact isLow ▸ isLeft
      next =>
        split at found
        next isHigh =>
          cases found
          exact isHigh ▸ isRight
        next => cases found
  · rw [artCollect_inner]
    simp [Layout.childrenSorted]

/-- The node that a split puts above an old subtree and a new leaf. -/
theorem branch_spec {middle : Bytes} {path : Prefix} {oldByte newByte : Byte} {old new : ArtNode}
    (describes : path.Describes middle) (apart : oldByte ≠ newByte)
    (isOld : Radix (start ++ middle ++ [oldByte]) old)
    (isNew : Radix (start ++ middle ++ [newByte]) new) :
    Radix start (branch path oldByte old newByte new) ∧
      ∀ entry, entry ∈ (branch path oldByte old newByte new).artCollect ↔
        entry ∈ old.artCollect ∨ entry ∈ new.artCollect := by
  rcases lt_or_gt_of_ne apart with less | greater
  · have shape : branch path oldByte old newByte new =
        .inner path (.node4 [(oldByte, old), (newByte, new)]) := by
      rw [branch, if_pos less.le]
      simp [apart, Layout.addChild, insertSlot, not_lt.mpr less.le]
    obtain ⟨radix, collected⟩ := radix_pair describes less isOld isNew
    rw [shape, collected]
    exact ⟨radix, fun entry => List.mem_append⟩
  · have shape : branch path oldByte old newByte new =
        .inner path (.node4 [(newByte, new), (oldByte, old)]) := by
      rw [branch, if_neg (not_le.mpr greater)]
      simp [Layout.addChild, insertSlot, not_lt.mpr greater.le]
    obtain ⟨radix, collected⟩ := radix_pair describes greater isNew isOld
    rw [shape, collected]
    exact ⟨radix, fun entry => List.mem_append.trans or_comm⟩

/-- A leaf that differs from the new key is put under a node with the new leaf. -/
theorem splitLeaf_spec {leafKey old : Bytes} (isLeaf : start <+: leafKey) (under : start <+: key)
    (apart : ¬ leafKey <+: key ∧ ¬ key <+: leafKey) (value : Bytes) :
    let common := commonLength (leafKey.drop start.length) (key.drop start.length)
    let split := branch (Prefix.fromSlice ((key.drop start.length).take common))
      (leafKey.getD (start.length + common) 0) (.leaf leafKey old)
      (key.getD (start.length + common) 0) (.leaf key value)
    Radix start split ∧ ∀ entry, entry ∈ split.artCollect ↔
      entry = ⟨leafKey, old⟩ ∨ entry = ⟨key, value⟩ := by
  obtain ⟨tail, rfl⟩ := isLeaf
  obtain ⟨rest, rfl⟩ := under
  rw [List.drop_left, List.drop_left]
  rw [List.prefix_append_right_inj, List.prefix_append_right_inj] at apart
  obtain ⟨common, restOld, restNew, rfl, rfl, length, ends⟩ := commonLength_split tail rest
  rw [← length]
  cases restOld with
  | nil => exact absurd (by simp) apart.1
  | cons oldByte restOld =>
      cases restNew with
      | nil => exact absurd (by simp) apart.2
      | cons newByte restNew =>
          have differ : oldByte ≠ newByte := by simpa using ends
          have isOld : (start ++ (common ++ oldByte :: restOld)).getD
              (start.length + common.length) 0 = oldByte := by simp
          have isNew : (start ++ (common ++ newByte :: restNew)).getD
              (start.length + common.length) 0 = newByte := by simp
          simp only [isOld, isNew, List.take_left]
          obtain ⟨radix, entries⟩ := @branch_spec start common (Prefix.fromSlice common) oldByte newByte
            (.leaf (start ++ (common ++ oldByte :: restOld)) old)
            (.leaf (start ++ (common ++ newByte :: restNew)) value)
            (Prefix.describes_fromSlice common) differ
            (.leaf ⟨restOld, by simp⟩) (.leaf ⟨restNew, by simp⟩)
          refine ⟨radix, fun entry => (entries entry).trans ?_⟩
          simp only [artCollect, List.mem_singleton]

/-- A node whose stored path the new key leaves is put under a node with the new leaf. -/
theorem splitPath_spec {middle : Bytes} {path : Prefix} {layout : Layout ArtNode}
    (describes : path.Describes middle) (fits : path.len ≤ maxPrefixLen) (ok : layout.Ok)
    (snug : layout.Snug)
    (below : ∀ byte child, layout.findChild byte = some child →
      Radix (start ++ middle ++ [byte]) child)
    (under : start <+: key) (longer : ¬ key <+: start ++ middle)
    (mismatch : path.checkPrefix key start.length < path.inlineLen) (value : Bytes) :
    let matched := path.checkPrefix key start.length
    ∃ newByte, key[start.length + matched]? = some newByte ∧
      let split := branch (Prefix.fromSlice (path.bytes.take matched))
        (path.bytes.getD matched 0) (.inner (path.afterSplit matched) layout)
        newByte (.leaf key value)
      Radix start split ∧ ∀ entry, entry ∈ split.artCollect ↔
        entry ∈ (ArtNode.inner path layout).artCollect ∨ entry = ⟨key, value⟩ := by
  obtain ⟨rest, rfl⟩ := under
  have whole := describes.inlineBytes_eq fits
  have isMatched : path.checkPrefix (start ++ rest) start.length = commonLength middle rest := by
    rw [Prefix.checkPrefix, List.drop_left, whole]
  obtain ⟨padding, isBytes⟩ : ∃ padding, path.bytes = middle ++ padding :=
    ⟨path.bytes.drop path.inlineLen, by rw [← whole, Prefix.inlineBytes, List.take_append_drop]⟩
  rw [isMatched, describes.inlineLen_eq, whole] at mismatch
  rw [List.prefix_append_right_inj] at longer
  rw [isMatched, isBytes]
  obtain ⟨common, restOld, restNew, isMiddle, rfl, length, ends⟩ := commonLength_split middle rest
  subst isMiddle
  rw [← length] at mismatch ⊢
  cases restOld with
  | nil => simp at mismatch
  | cons oldByte restOld =>
      cases restNew with
      | nil => exact absurd (by simp) longer
      | cons newByte restNew =>
          have differ : oldByte ≠ newByte := by simpa using ends
          have isTaken : (common ++ oldByte :: restOld ++ padding).take common.length = common := by
            simp
          have isOld : (common ++ oldByte :: restOld ++ padding).getD common.length 0 = oldByte := by
            simp
          refine ⟨newByte, by simp, ?_⟩
          simp only [isTaken, isOld]
          have lower : Radix (start ++ common ++ [oldByte])
              (.inner (path.afterSplit common.length) layout) := by
            refine .inner (Prefix.describes_afterSplit describes fits) ok snug ?_
            intro byte child found
            simpa using below byte child found
          obtain ⟨radix, entries⟩ := @branch_spec start common (Prefix.fromSlice common) oldByte newByte
            _ (.leaf (start ++ (common ++ newByte :: restNew)) value)
            (Prefix.describes_fromSlice common) differ lower (.leaf ⟨restNew, by simp⟩)
          refine ⟨radix, fun entry => (entries entry).trans ?_⟩
          simp only [artCollect, List.mem_singleton]

/-- A key shares a path of which not all bytes are stored with the leaf that shows them. -/
theorem onPath_of_long {middle : Bytes} {path : Prefix} {layout : Layout ArtNode}
    (describes : path.Describes middle) (ok : layout.Ok)
    (below : ∀ byte child, layout.findChild byte = some child →
      Radix (start ++ middle ++ [byte]) child)
    (free : ∀ entry ∈ (ArtNode.inner path layout).artCollect, key <+: entry.key → entry.key = key)
    (shows : entry ∈ (ArtNode.inner path layout).artCollect)
    (agrees : key.take (start.length + path.len) <+: entry.key) : start ++ middle <+: key := by
  obtain ⟨byte, child, found, inside⟩ := (mem_artCollect_inner ok).mp shows
  have under : start ++ middle <+: entry.key :=
    (List.prefix_append _ _).trans ((below byte child found).prefix_key inside)
  rcases Nat.lt_or_ge key.length (start.length + path.len) with short | long
  · rw [List.take_of_length_le short.le] at agrees
    exact free entry shows agrees ▸ under
  · have length : (start ++ middle).length = (key.take (start.length + path.len)).length := by
      rw [List.length_take, Nat.min_eq_left long, List.length_append, describes.len]
    rw [(List.prefix_of_prefix_length_le under agrees length.le).eq_of_length length]
    exact List.take_prefix _ _

theorem prefix_path {middle : Bytes} {path : Prefix} {layout : Layout ArtNode} (ok : layout.Ok)
    (below : ∀ byte child, layout.findChild byte = some child →
      Radix (start ++ middle ++ [byte]) child)
    (member : entry ∈ (ArtNode.inner path layout).artCollect) : start ++ middle <+: entry.key := by
  obtain ⟨byte, child, found, inside⟩ := (mem_artCollect_inner ok).mp member
  exact (List.prefix_append _ _).trans ((below byte child found).prefix_key inside)

theorem replaceChild_spec {middle : Bytes} {path : Prefix} {layout layout' : Layout ArtNode}
    {byte : Byte} {child : ArtNode} {new : IndexEntry} (describes : path.Describes middle)
    (ok : layout.Ok) (ok' : layout'.Ok) (snug : layout'.Snug)
    (below : ∀ byte child, layout.findChild byte = some child →
      Radix (start ++ middle ++ [byte]) child)
    (shows : layout'.findChild = Function.update layout.findChild byte (some child))
    (next : start ++ middle ++ [byte] <+: new.key)
    (lower : Radix (start ++ middle ++ [byte]) child)
    (entries : ∀ entry, entry ∈ child.artCollect ↔
      entry = new ∨ entry ∈ collectOption (layout.findChild byte) ∧ entry.key ≠ new.key) :
    Radix start (.inner path layout') ∧
      ∀ entry, entry ∈ (ArtNode.inner path layout').artCollect ↔
        entry = new ∨ entry ∈ (ArtNode.inner path layout).artCollect ∧ entry.key ≠ new.key := by
  constructor
  · refine .inner describes ok' snug fun other node found => ?_
    rw [shows] at found
    rcases eq_or_ne other byte with rfl | apart
    · rw [Function.update_self] at found
      cases found
      exact lower
    · rw [Function.update_of_ne apart] at found
      exact below other node found
  · intro entry
    rw [mem_artCollect_update ok' shows, mem_artCollect_child ok byte, collectOption, entries]
    constructor
    · rintro ((isNew | ⟨member, differ⟩) | ⟨other, node, apart, found, member⟩)
      · exact .inl isNew
      · exact .inr ⟨.inl member, differ⟩
      · refine .inr ⟨.inr ⟨other, node, apart, found, member⟩, fun isKey => apart ?_⟩
        exact next_unique (isKey ▸ (below other node found).prefix_key member) next
    · rintro (isNew | ⟨member | elsewhere, differ⟩)
      · exact .inl (.inl isNew)
      · exact .inl (.inr ⟨member, differ⟩)
      · exact .inr elsewhere

/-- A key that is a prefix of no other one does not end within the path of a node. -/
theorem not_prefix_path {middle : Bytes} {path : Prefix} {layout : Layout ArtNode} (ok : layout.Ok)
    (snug : layout.Snug)
    (below : ∀ byte child, layout.findChild byte = some child →
      Radix (start ++ middle ++ [byte]) child)
    (free : ∀ entry ∈ (ArtNode.inner path layout).artCollect, key <+: entry.key → entry.key = key) :
    ¬ key <+: start ++ middle := by
  intro ends
  obtain ⟨byte, child, found⟩ := Layout.exists_child ok snug.inhabited
  obtain ⟨entry, inside⟩ := (below byte child found).exists_entry
  have lower := (below byte child found).prefix_key inside
  have isKey := free entry ((mem_artCollect_inner ok).mpr ⟨byte, child, found, inside⟩)
    (ends.trans ((List.prefix_append _ _).trans lower))
  rw [isKey] at lower
  have bound := (lower.trans ends).length_le
  rw [List.length_append] at bound
  exact Nat.not_succ_le_self _ bound

/-- An insertion adds the entry of its key in place of an earlier one and keeps the tree a radix
tree, when the key does not end inside the tree and the paths on its way can be compared. -/
theorem artInsertInner_spec (radix : Radix start node) (under : start <+: key)
    (free : ∀ entry ∈ node.artCollect, entry.key <+: key ∨ key <+: entry.key → entry.key = key)
    (long : node.longPrefixesMatch key start.length = true) (value : Bytes) :
    Radix start (node.artInsertInner key value start.length) ∧
      ∀ entry, entry ∈ (node.artInsertInner key value start.length).artCollect ↔
        entry = ⟨key, value⟩ ∨ entry ∈ node.artCollect ∧ entry.key ≠ key := by
  induction radix with
  | @leaf start leafKey old isLeaf =>
      rw [artInsertInner]
      split
      next same =>
        subst same
        refine ⟨.leaf isLeaf, fun entry => ?_⟩
        rw [artCollect, artCollect, List.mem_singleton, List.mem_singleton]
        constructor
        · exact .inl
        · rintro (isNew | ⟨rfl, differ⟩)
          · exact isNew
          · exact absurd rfl differ
      next differ =>
        have apart := free ⟨leafKey, old⟩ (List.mem_singleton_self _)
        obtain ⟨split, entries⟩ := @splitLeaf_spec start key leafKey old isLeaf under
          ⟨fun shorter => differ (apart (.inl shorter)), fun longer => differ (apart (.inr longer))⟩
          value
        refine ⟨split, fun entry => (entries entry).trans ?_⟩
        rw [artCollect, List.mem_singleton]
        constructor
        · rintro (rfl | isNew)
          · exact .inr ⟨rfl, differ⟩
          · exact .inl isNew
        · rintro (isNew | ⟨isOld, -⟩)
          · exact .inr isNew
          · exact .inl isOld
  | @inner start middle path layout describes ok snug below ih =>
      have longer := not_prefix_path ok snug below fun entry member inside =>
        free entry member (.inr inside)
      rw [longPrefixesMatch, Bool.and_eq_true, Bool.or_eq_true, decide_eq_true_eq] at long
      obtain ⟨stored, deeper⟩ := long
      have onLong : ¬ path.len ≤ maxPrefixLen → start ++ middle <+: key := by
        intro exceeds
        obtain ⟨shown, member, agrees⟩ := List.any_eq_true.mp (stored.resolve_left exceeds)
        exact onPath_of_long describes ok below (fun entry member inside =>
          free entry member (.inr inside)) member (List.isPrefixOf_iff_prefix.mp agrees)
      rw [artInsertInner]
      by_cases mismatch : path.checkPrefix key start.length < path.inlineLen
      · have fits : path.len ≤ maxPrefixLen := by
          by_contra exceeds
          exact describes.matches (onLong exceeds) mismatch
        obtain ⟨newByte, isByte, split, entries⟩ :=
          splitPath_spec describes fits ok snug below under longer mismatch value
        rw [if_pos mismatch, isByte]
        refine ⟨split, fun entry => (entries entry).trans ?_⟩
        constructor
        · rintro (member | isNew)
          · refine .inr ⟨member, fun isKey => ?_⟩
            subst isKey
            exact describes.matches (prefix_path ok below member) mismatch
          · exact .inl isNew
        · rintro (isNew | ⟨member, -⟩)
          · exact .inr isNew
          · exact .inl member
      · have onPath : start ++ middle <+: key := by
          by_cases fits : path.len ≤ maxPrefixLen
          · exact describes.onPath fits under mismatch
          · exact onLong fits
        have inside : start.length + path.len < key.length := by
          by_contra outside
          have length : key.length ≤ (start ++ middle).length := by
            rw [List.length_append, ← describes.len]
            exact not_lt.mp outside
          rw [onPath.eq_of_length_le length] at longer
          exact longer (List.prefix_refl _)
        have next := describes.under_next onPath inside
        rw [if_neg mismatch, dif_pos inside]
        rw [if_neg mismatch, dif_pos inside] at deeper
        split
        next child isChild =>
          rw [isChild] at deeper
          change child.longPrefixesMatch key (start.length + path.len + 1) = true at deeper
          rw [describes.depth start key[start.length + path.len]] at deeper ⊢
          obtain ⟨lower, entries⟩ := ih _ child isChild next
            (fun entry member => free entry
              ((mem_artCollect_inner ok).mpr ⟨_, child, isChild, member⟩)) deeper
          have present : (layout.findChild key[start.length + path.len]).isSome := by
            rw [isChild]
            rfl
          obtain ⟨written, shows⟩ := Layout.setChild_spec ok present
            (child.artInsertInner key value (start ++ middle ++ [key[start.length + path.len]]).length)
          refine replaceChild_spec describes ok written (Layout.setChild_snug ok snug present _) below
            shows next lower fun entry => ?_
          rw [entries, isChild, collectOption]
        next absent =>
          obtain ⟨added, snug', shows⟩ := Layout.insertChild_spec ok snug absent (.leaf key value)
          refine replaceChild_spec describes ok added snug' below shows next (.leaf next)
            fun entry => ?_
          rw [absent, artCollect, collectOption]
          simp

end Radix

end ArtNode

end JouleDB.Art
