import JouleDB.Art.Radix
import JouleDB.Lib.FiniteMap

/-!
# The adaptive radix tree as a finite map

The index stands for a finite map from keys to values as long as its tree is a radix tree whose
leaves have terminated keys.  Deletions keep that.  An insertion keeps it unless its terminated key
is a prefix of another one or the other way round, which happens when keys contain the terminator,
or the tree compares or splits a path of which it has only stored the first bytes.
-/

namespace JouleDB.Art

/-! ## Terminated keys -/

theorem unterminatedKey_terminatedKey (key : Bytes) : unterminatedKey (terminatedKey key) = key := by
  simp [unterminatedKey, terminatedKey]

theorem terminatedKey_injective : Function.Injective terminatedKey :=
  Function.LeftInverse.injective unterminatedKey_terminatedKey

theorem terminatedKey_lt {first second : Bytes} (less : first < second) :
    terminatedKey first < terminatedKey second := by
  induction first generalizing second with
  | nil =>
      cases second with
      | nil => exact absurd less (lt_irrefl _)
      | cons byte rest =>
          rw [terminatedKey, terminatedKey, List.nil_append, List.cons_append,
            List.cons_lt_cons_iff]
          rcases (Fin.zero_le byte).lt_or_eq with positive | zero
          · exact .inl positive
          · refine .inr ⟨zero, ?_⟩
            cases rest with
            | nil => exact List.nil_lt_cons _ _
            | cons _ _ => exact List.nil_lt_cons _ _
  | cons byte first ih =>
      cases second with
      | nil => exact absurd less (List.not_lt_nil _)
      | cons other second =>
          rcases List.cons_lt_cons_iff.mp less with smaller | ⟨same, less⟩
          · exact List.cons_lt_cons_iff.mpr (.inl smaller)
          · exact List.cons_lt_cons_iff.mpr (.inr ⟨same, ih less⟩)

/-- The terminator does not change the order of keys. -/
theorem terminatedKey_lt_iff {first second : Bytes} :
    terminatedKey first < terminatedKey second ↔ first < second := by
  constructor
  · intro less
    rcases lt_trichotomy first second with smaller | rfl | larger
    · exact smaller
    · exact absurd less (lt_irrefl _)
    · exact absurd (less.trans (terminatedKey_lt larger)) (lt_irrefl _)
  · exact terminatedKey_lt

/-! ## The map of an index -/

/-- What a call does to a map. -/
def changeMap (map : FiniteMap Bytes Bytes) : Call → FiniteMap Bytes Bytes
  | .insert key value => map.insert key value
  | .delete key => map.erase key

/-- The map after a list of calls. -/
def mapAfter (calls : List Call) : FiniteMap Bytes Bytes := calls.foldl changeMap ∅

namespace AdaptiveRadixTree

/-- Every read of the index shows the map. -/
structure Shows (tree : AdaptiveRadixTree) (map : FiniteMap Bytes Bytes) : Prop where
  get : ∀ key, tree.get key = map[key]?
  delete : ∀ key, (tree.delete key).2 = map.contains key
  len : tree.len = map.size

/-- The tree can take a key: neither the terminated key nor one in the tree is a proper prefix of the
other, and on the way of the key down the tree all the bytes of a path that are not stored agree. -/
def Takes (tree : AdaptiveRadixTree) (key : Bytes) : Prop :=
  (∀ entry ∈ tree.collected,
    entry.key <+: terminatedKey key ∨ terminatedKey key <+: entry.key →
      entry.key = terminatedKey key) ∧
  ∀ node ∈ tree.root, node.longPrefixesMatch (terminatedKey key) 0 = true

instance (tree : AdaptiveRadixTree) (key : Bytes) : Decidable (tree.Takes key) :=
  inferInstanceAs (Decidable (_ ∧ _))

/-- A call that the tree can take. -/
def CallFits (tree : AdaptiveRadixTree) : Call → Prop
  | .insert key _ => tree.Takes key
  | .delete _ => True

instance (tree : AdaptiveRadixTree) : ∀ call, Decidable (tree.CallFits call)
  | .insert key _ => inferInstanceAs (Decidable (tree.Takes key))
  | .delete _ => inferInstanceAs (Decidable True)

/-- A radix tree with the entries of a map at its leaves. -/
structure Holds (tree : AdaptiveRadixTree) (map : FiniteMap Bytes Bytes) : Prop where
  radix : ∀ node, tree.root = some node → node.Radix []
  terminated : ∀ entry ∈ tree.collected, ∃ key, entry.key = terminatedKey key
  entries : ∀ key value, ⟨terminatedKey key, value⟩ ∈ tree.collected ↔ map[key]? = some value
  size : tree.len = map.size

variable {tree : AdaptiveRadixTree} {map : FiniteMap Bytes Bytes}

theorem holds_new : new.Holds ∅ where
  radix node isNode := nomatch isNode
  terminated entry member := nomatch member
  entries key value := by simp [collected, new, ArtNode.collectOption]
  size := rfl

theorem lookup_eq_some (radix : ∀ node, tree.root = some node → node.Radix []) {key : Bytes}
    {entry : IndexEntry} :
    (tree.root.bind fun node => node.artGet key 0) = some entry ↔
      entry ∈ tree.collected ∧ entry.key = key := by
  rw [collected]
  cases isRoot : tree.root with
  | none => simp [ArtNode.collectOption]
  | some node => exact (radix node isRoot).artGet_eq_some

theorem Holds.get (holds : tree.Holds map) (key : Bytes) : tree.get key = map[key]? := by
  refine Option.ext fun value => ?_
  rw [AdaptiveRadixTree.get, ← holds.entries]
  constructor
  · intro found
    obtain ⟨node, isRoot, found⟩ := Option.bind_eq_some_iff.mp found
    obtain ⟨entry, isEntry, rfl⟩ := Option.map_eq_some_iff.mp found
    have at_ : (tree.root.bind fun node => node.artGet (terminatedKey key) 0) = some entry := by
      rw [isRoot]
      exact isEntry
    obtain ⟨member, isKey⟩ := (lookup_eq_some holds.radix).mp at_
    rwa [← isKey]
  · intro member
    have found := (lookup_eq_some holds.radix).mpr ⟨member, rfl⟩
    obtain ⟨node, isRoot, isEntry⟩ := Option.bind_eq_some_iff.mp found
    rw [isRoot, Option.bind_some, isEntry]
    rfl

/-- A key is at a leaf exactly when the map has it. -/
theorem Holds.isSome_lookup (holds : tree.Holds map) (key : Bytes) :
    (tree.root.bind fun node => node.artGet (terminatedKey key) 0).isSome = map.contains key := by
  have same := congrArg Option.isSome (holds.get key)
  rw [AdaptiveRadixTree.get] at same
  rw [Std.ExtTreeMap.contains_eq_isSome_getElem?, ← same]
  cases tree.root with
  | none => rfl
  | some node => exact (Option.isSome_map ..).symm

theorem Holds.delete_snd (holds : tree.Holds map) (key : Bytes) :
    (tree.delete key).2 = map.contains key := by
  rw [← holds.isSome_lookup key, AdaptiveRadixTree.delete]
  cases isRoot : tree.root with
  | none => rfl
  | some node =>
      rw [Option.bind_some, Option.bind_some, ← ArtNode.Radix.isSome_artDelete]
      cases node.artDelete (terminatedKey key) 0 <;> rfl

theorem insert_spec (radix : ∀ node, tree.root = some node → node.Radix []) {key : Bytes}
    (takes : tree.Takes key) (value : Bytes) :
    (ArtNode.artInsert tree.root (terminatedKey key) value).Radix [] ∧
      ∀ entry, entry ∈ (tree.insert key value).collected ↔
        entry = ⟨terminatedKey key, value⟩ ∨
          entry ∈ tree.collected ∧ entry.key ≠ terminatedKey key := by
  obtain ⟨free, long⟩ := takes
  rw [collected] at free
  rw [collected, collected, AdaptiveRadixTree.insert, ArtNode.collectOption]
  cases isRoot : tree.root with
  | none =>
      refine ⟨.leaf (List.nil_prefix), fun entry => ?_⟩
      simp [ArtNode.artInsert, ArtNode.artCollect, ArtNode.collectOption]
  | some node =>
      rw [isRoot, ArtNode.collectOption] at free
      exact (radix node isRoot).artInsertInner_spec List.nil_prefix free (long node isRoot) value

theorem Holds.insert (holds : tree.Holds map) {key : Bytes} (takes : tree.Takes key)
    (value : Bytes) : (tree.insert key value).Holds (map.insert key value) := by
  obtain ⟨radix, entries⟩ := insert_spec holds.radix takes value
  constructor
  · intro node isNode
    cases isNode
    exact radix
  · intro entry member
    rcases (entries entry).mp member with rfl | ⟨old, -⟩
    · exact ⟨key, rfl⟩
    · exact holds.terminated entry old
  · intro other value'
    rw [entries, holds.entries, Std.ExtTreeMap.getElem?_insert, IndexEntry.mk.injEq,
      terminatedKey_injective.eq_iff]
    simp only [Std.LawfulEqCmp.compare_eq_iff_eq]
    rcases eq_or_ne key other with rfl | apart
    · simp [eq_comm]
    · have differ : terminatedKey other ≠ terminatedKey key :=
        fun same => apart (terminatedKey_injective same).symm
      simp [apart, Ne.symm apart, differ]
  · rw [AdaptiveRadixTree.insert, Std.ExtTreeMap.size_insert, holds.isSome_lookup key, holds.size]

theorem delete_spec (radix : ∀ node, tree.root = some node → node.Radix []) (key : Bytes) :
    (∀ node, (tree.delete key).1.root = some node → node.Radix []) ∧
      ∀ entry, entry ∈ (tree.delete key).1.collected ↔
        entry ∈ tree.collected ∧ entry.key ≠ terminatedKey key := by
  rw [AdaptiveRadixTree.delete]
  cases deleted : tree.root.bind fun node => node.artDelete (terminatedKey key) 0 with
  | none =>
      refine ⟨radix, fun entry => ⟨fun member => ⟨member, fun isKey => ?_⟩, And.left⟩⟩
      obtain ⟨node, isRoot, found⟩ :=
        Option.bind_eq_some_iff.mp ((lookup_eq_some radix).mpr ⟨member, isKey⟩)
      rw [isRoot, Option.bind_some] at deleted
      have same := ArtNode.Radix.isSome_artDelete node (terminatedKey key) 0
      rw [deleted, found] at same
      cases same
  | some remaining =>
      obtain ⟨node, isRoot, isDeleted⟩ := Option.bind_eq_some_iff.mp deleted
      obtain ⟨kept, entries⟩ := (radix node isRoot).artDelete_spec isDeleted
      refine ⟨kept, fun entry => ?_⟩
      rw [collected, collected, isRoot]
      exact entries entry

theorem Holds.delete (holds : tree.Holds map) (key : Bytes) :
    (tree.delete key).1.Holds (map.erase key) := by
  obtain ⟨radix, entries⟩ := delete_spec holds.radix key
  constructor
  · exact radix
  · intro entry member
    exact holds.terminated entry ((entries entry).mp member).1
  · intro other value
    rw [entries, holds.entries, Std.ExtTreeMap.getElem?_erase]
    simp only [Std.LawfulEqCmp.compare_eq_iff_eq, ne_eq, terminatedKey_injective.eq_iff]
    rcases eq_or_ne key other with rfl | apart
    · simp
    · simp [apart, Ne.symm apart]
  · have found := holds.delete_snd key
    rw [Std.ExtTreeMap.size_erase, ← found, ← holds.size, AdaptiveRadixTree.delete]
    split <;> rfl

theorem Holds.step (holds : tree.Holds map) {call : Call} (fits : tree.CallFits call) :
    (tree.step call).Holds (changeMap map call) := by
  cases call with
  | insert key value => exact holds.insert fits value
  | delete key => exact holds.delete key

/-- A run whose calls the tree can take. -/
def Fitting (calls : List Call) : Prop := AllMeet step CallFits new calls

instance (calls : List Call) : Decidable (Fitting calls) :=
  inferInstanceAs (Decidable (AllMeet _ _ _ _))

/-- The index after a run. -/
def after (calls : List Call) : AdaptiveRadixTree := calls.foldl step new

theorem holds_after {calls : List Call} (fitting : Fitting calls) :
    (after calls).Holds (mapAfter calls) := by
  have run : ∀ (tree : AdaptiveRadixTree) (map : FiniteMap Bytes Bytes), tree.Holds map →
      AllMeet step CallFits tree calls →
        (calls.foldl step tree).Holds (calls.foldl changeMap map) := by
    clear fitting
    induction calls with
    | nil => exact fun tree map holds _ => holds
    | cons call calls ih =>
        intro tree map holds ⟨fits, later⟩
        exact ih _ _ (holds.step fits) later
  exact run new ∅ holds_new fitting

/-- After every run whose insertions the tree can take, all reads show the map of the calls: the last
value inserted for each key and not deleted since. -/
theorem shows_mapAfter (calls : List Call) (fitting : Fitting calls) :
    (after calls).Shows (mapAfter calls) := by
  have holds := holds_after fitting
  exact ⟨holds.get, holds.delete_snd, holds.size⟩

/-- Three keys that share a path, one of which is deleted again. -/
def threeWords : List Call :=
  [.insert [97, 98, 99] [1], .insert [97, 98, 100] [2], .insert [97, 120] [3],
    .delete [97, 98, 99]]

theorem shows_threeWords : Fitting threeWords ∧ (after threeWords).Shows (mapAfter threeWords) :=
  ⟨by decide +kernel, shows_mapAfter threeWords (by decide +kernel)⟩

/-- A key with a terminator of its own is lost. -/
theorem not_shows_mapAfter : ¬ ∀ calls, (after calls).Shows (mapAfter calls) := by
  intro shows
  have found := (shows [.insert [97] [1], .insert [97, 0] [2]]).get [97, 0]
  have lost : (after [.insert [97] [1], .insert [97, 0] [2]]).get [97, 0] = none := by
    decide +kernel
  rw [lost] at found
  simp [mapAfter, changeMap] at found

end AdaptiveRadixTree

/-!
## The order of the adaptive radix tree

All ordered reads collect the leaves in the order of their terminated keys, which is the order of
the keys, and take the terminators off afterwards.
-/

/-- In an increasing list an element stands behind the smaller ones. -/
theorem getElem?_iff_takeWhile {keys : List Bytes} (increasing : keys.Pairwise (· < ·)) (key : Bytes)
    (index : Nat) :
    keys[index]? = some key ↔
      key ∈ keys ∧ (keys.takeWhile fun other => other < key).length = index := by
  induction keys generalizing index with
  | nil => simp
  | cons first rest ih =>
      obtain ⟨below, increasing⟩ := List.pairwise_cons.mp increasing
      rw [List.takeWhile_cons, List.mem_cons]
      by_cases smaller : first < key
      · rw [if_pos (decide_eq_true smaller), List.length_cons]
        cases index with
        | zero => simp [smaller.ne, smaller.ne']
        | succ index =>
            rw [List.getElem?_cons_succ, ih increasing, Nat.add_right_cancel_iff]
            simp [smaller.ne']
      · rw [if_neg (by simpa using smaller), List.length_nil]
        have absent : key ∉ rest := fun member => smaller (below key member)
        cases index with
        | zero => simp [absent, eq_comm]
        | succ index => simpa using fun found => absent (List.mem_of_getElem? found)

namespace AdaptiveRadixTree

/-- The ordered reads agree with the lookups. -/
structure Sorted (tree : AdaptiveRadixTree) : Prop where
  increasing : ∀ start stop,
    (tree.range start stop .forward).Pairwise fun first second => first.key < second.key
  mem_range : ∀ start stop key value,
    ⟨key, value⟩ ∈ tree.range start stop .forward ↔
      start.startOk key = true ∧ stop.endOk key = true ∧ tree.get key = some value
  backward : ∀ start stop,
    tree.range start stop .backward = (tree.range start stop .forward).reverse
  min : tree.min = (tree.range .unbounded .unbounded .forward).head?
  max : tree.max = (tree.range .unbounded .unbounded .forward).getLast?
  rank : ∀ key index,
    tree.rankOf key = some index ↔ ∃ value, tree.atRank index = some ⟨key, value⟩

variable {tree : AdaptiveRadixTree} {map : FiniteMap Bytes Bytes}

/-- The entries as they are returned. -/
def contents (tree : AdaptiveRadixTree) : List IndexEntry := tree.collected.map unterminated

theorem range_unbounded (tree : AdaptiveRadixTree) :
    tree.range .unbounded .unbounded .forward = tree.contents := by
  simp [range, contents, Bound.startOk, Bound.endOk]

theorem Holds.mem_contents (holds : tree.Holds map) {key value : Bytes} :
    ⟨key, value⟩ ∈ tree.contents ↔ tree.get key = some value := by
  rw [holds.get, ← holds.entries, contents, List.mem_map]
  constructor
  · rintro ⟨entry, member, same⟩
    obtain ⟨stored, isStored⟩ := holds.terminated entry member
    rw [unterminated, isStored, unterminatedKey_terminatedKey, IndexEntry.mk.injEq] at same
    obtain ⟨rfl, rfl⟩ := same
    rwa [← isStored]
  · intro member
    exact ⟨_, member, by rw [unterminated, unterminatedKey_terminatedKey]⟩

theorem Holds.increasing (holds : tree.Holds map) :
    tree.contents.Pairwise fun first second => first.key < second.key := by
  have ascending : tree.collected.Pairwise fun first second => first.key < second.key := by
    rw [collected]
    cases isRoot : tree.root with
    | none => exact List.Pairwise.nil
    | some node => exact (holds.radix node isRoot).ascending
  refine List.pairwise_map.mpr (ascending.imp_of_mem ?_)
  intro first second inFirst inSecond less
  obtain ⟨low, isLow⟩ := holds.terminated first inFirst
  obtain ⟨high, isHigh⟩ := holds.terminated second inSecond
  rw [isLow, isHigh, terminatedKey_lt_iff] at less
  rwa [unterminated, unterminated, isLow, isHigh, unterminatedKey_terminatedKey,
    unterminatedKey_terminatedKey]

/-- The rank of a key that is present counts the smaller keys. -/
theorem rankOf_eq (tree : AdaptiveRadixTree) (key : Bytes) :
    tree.rankOf key =
      if (tree.get key).isSome then
        some ((tree.contents.map IndexEntry.key).takeWhile fun other => other < key).length
      else none := by
  rw [rankOf, get, contents, collected, List.map_map]
  cases tree.root with
  | none => rfl
  | some node =>
      rw [Option.bind_some, Option.isSome_map, ArtNode.collectOption]
      cases found : node.artGet (terminatedKey key) 0 with
      | none => simp [found]
      | some entry =>
          simp only [found, Option.isNone_some, Option.isSome_some, Bool.false_eq_true, if_false,
            if_true]
          rfl

theorem Holds.rank (holds : tree.Holds map) (key : Bytes) (index : Nat) :
    tree.rankOf key = some index ↔ ∃ value, tree.atRank index = some ⟨key, value⟩ := by
  have atRank_eq : tree.atRank index = tree.contents[index]? := by
    rw [atRank, contents, List.getElem?_map]
  have increasing : (tree.contents.map IndexEntry.key).Pairwise (· < ·) :=
    List.pairwise_map.mpr holds.increasing
  have position : (∃ value, tree.atRank index = some ⟨key, value⟩) ↔
      (tree.contents.map IndexEntry.key)[index]? = some key := by
    rw [atRank_eq, List.getElem?_map, Option.map_eq_some_iff]
    constructor
    · rintro ⟨value, found⟩
      exact ⟨_, found, rfl⟩
    · rintro ⟨⟨_, value⟩, found, rfl⟩
      exact ⟨value, found⟩
  have present : key ∈ tree.contents.map IndexEntry.key ↔ (tree.get key).isSome := by
    rw [List.mem_map, Option.isSome_iff_exists]
    constructor
    · rintro ⟨⟨_, value⟩, member, rfl⟩
      exact ⟨value, holds.mem_contents.mp member⟩
    · rintro ⟨value, found⟩
      exact ⟨_, holds.mem_contents.mpr found, rfl⟩
  rw [position, getElem?_iff_takeWhile increasing, present, rankOf_eq]
  split <;> simp [*]

theorem Holds.sorted (holds : tree.Holds map) : tree.Sorted where
  increasing start stop := holds.increasing.sublist List.filter_sublist
  mem_range start stop key value := by
    rw [range, List.mem_filter, ← contents, holds.mem_contents, Bool.and_eq_true, and_comm,
      and_assoc]
  backward start stop := rfl
  min := by rw [range_unbounded, AdaptiveRadixTree.min, contents, List.head?_map]
  max := by rw [range_unbounded, AdaptiveRadixTree.max, contents, List.getLast?_map]
  rank := holds.rank

/-- After every run whose insertions the tree can take, ranges, ends and ranks agree with the
lookups. -/
theorem sorted_after (calls : List Call) (fitting : Fitting calls) : (after calls).Sorted :=
  (holds_after fitting).sorted

theorem sorted_after_threeWords : Fitting threeWords ∧ (after threeWords).Sorted :=
  ⟨by decide +kernel, sorted_after threeWords (by decide +kernel)⟩

/-- A key that leaves a long path behind its stored bytes is put among the keys that do not. -/
theorem not_sorted_after : ¬ ∀ calls, (after calls).Sorted := by
  intro sorted
  let front : Bytes := List.replicate 10 120
  have increasing := (sorted [.insert (front ++ [98, 1]) [1], .insert (front ++ [98, 3]) [2],
    .insert (front ++ [97, 2]) [3]]).increasing .unbounded .unbounded
  revert increasing
  decide +kernel

end AdaptiveRadixTree

end JouleDB.Art
