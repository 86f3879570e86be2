import JouleDB.BTree.Forward
import Mathlib.Data.List.Perm.Subperm

/-!
# Scans and counts of a prefix

The keys that start with some bytes are those from these bytes up to their successor: the bytes
without the trailing `0xFF`, with the last one incremented.  Counting walks over the children whose
bounds meet this range and is exact in every ordered tree; a scan of the range is a forward scan.
-/

namespace JouleDB.BTree

open JouleDB.BTree.Tree

/-- The smallest bytes above all that start with the wanted ones, if there are any. -/
def prefixSuccessor (wanted : Bytes) : Option Bytes :=
  match wanted.reverse.dropWhile (· == 255) with
  | [] => none
  | last :: rest => some (rest.reverse ++ [last + 1])

/-- A child between two separators can have keys that start with the wanted bytes. -/
def childRangeOverlapsPrefix (lower upper : Option Bytes) (wanted : Bytes) : Bool :=
  if wanted = [] then
    true
  else if upper.any (· ≤ wanted) then
    false
  else
    match lower, prefixSuccessor wanted with
    | some lowerKey, some stop => !decide (stop ≤ lowerKey)
    | _, _ => true

/-- The number of keys found and the errors met. -/
structure PrefixCount where
  count : Nat
  errors : List String
  deriving DecidableEq

/-- Count below a node; the depth is bounded. -/
def countSubtree (wanted : Bytes) : (depthRemaining height : Nat) → Tree height → PrefixCount
  | 0, _, _ => ⟨0, ["depth bound exceeded — corrupt internal page chain"]⟩
  | _ + 1, 0, leaf =>
      ⟨(leaf.keys.zip leaf.values).countP fun entry =>
        wanted.isPrefixOf entry.1 && entry.2.isSome, []⟩
  | depthRemaining + 1, height + 1, node =>
      let counts := node.children.zipIdx.map fun (child, index) =>
        let lower := if index = 0 then none else node.keys[index - 1]?
        let upper := node.keys[index]?
        if childRangeOverlapsPrefix lower upper wanted then
          countSubtree wanted depthRemaining height child
        else
          ⟨0, []⟩
      ⟨(counts.map PrefixCount.count).sum, counts.flatMap PrefixCount.errors⟩

namespace RootedTree

/-- Count the keys that start with the wanted bytes. -/
def prefixCount (tree : RootedTree) (wanted : Bytes) : PrefixCount :=
  countSubtree wanted (tree.height + 16) tree.height tree.root

/-- An iterator over the entries whose keys start with the wanted bytes. -/
def prefixScan (tree : RootedTree) (wanted : Bytes) : RangeIterator :=
  if wanted = [] then
    tree.range .unbounded .unbounded .forward
  else
    match prefixSuccessor wanted with
    | some stop => tree.range (.included wanted) (.excluded stop) .forward
    | none => tree.range (.included wanted) .unbounded .forward

end RootedTree

/-! ## The range of a prefix -/

section Range

variable {byte : Byte} {wanted key stop : Bytes}

theorem prefixSuccessor_cons (byte : Byte) (wanted : Bytes) :
    prefixSuccessor (byte :: wanted) =
      match prefixSuccessor wanted with
      | some stop => some (byte :: stop)
      | none => if byte = 255 then none else some [byte + 1] := by
  simp only [prefixSuccessor, List.reverse_cons, List.dropWhile_append]
  cases rest : wanted.reverse.dropWhile (· == 255) with
  | nil =>
      by_cases last : byte = 255
      · simp [List.dropWhile, last]
      · have differs : (byte == 255) = false := beq_false_of_ne last
        simp [List.dropWhile, last, differs]
  | cons last early => simp

theorem cons_le_cons_bytes {first : Byte} {rest : Bytes} :
    byte :: wanted ≤ first :: rest ↔ byte < first ∨ byte = first ∧ wanted ≤ rest := by
  rw [← not_lt, List.cons_lt_cons_iff, not_or, not_and, not_lt, not_lt]
  constructor
  · rintro ⟨le, below⟩
    rcases le.lt_or_eq with less | same
    · exact .inl less
    · exact .inr ⟨same, below same.symm⟩
  · rintro (less | ⟨same, le⟩)
    · exact ⟨less.le, fun equal => absurd equal less.ne'⟩
    · exact ⟨same.le, fun _ => le⟩

/-- Keys that start with some bytes are those from the bytes up to the successor. -/
theorem isPrefix_iff : wanted <+: key ↔
    wanted ≤ key ∧ ∀ stop, prefixSuccessor wanted = some stop → key < stop := by
  induction wanted generalizing key with
  | nil => exact ⟨fun _ => ⟨nil_le key, nofun⟩, fun _ => List.nil_prefix⟩
  | cons byte wanted ih =>
      cases key with
      | nil =>
          have above : ¬ byte :: wanted ≤ [] := not_le.mpr (List.nil_lt_cons byte wanted)
          exact ⟨fun same => absurd same (by simp), fun range => absurd range.1 above⟩
      | cons first key =>
          rw [List.cons_prefix_cons, ih, prefixSuccessor_cons, cons_le_cons_bytes]
          cases found : prefixSuccessor wanted with
          | some stop =>
              simp only [Option.some.injEq, forall_eq', List.cons_lt_cons_iff]
              constructor
              · rintro ⟨rfl, low, high⟩
                exact ⟨.inr ⟨rfl, low⟩, .inr ⟨rfl, high⟩⟩
              · rintro ⟨less | ⟨rfl, low⟩, less' | ⟨same, high⟩⟩
                · exact absurd (less.trans less') (lt_irrefl _)
                · exact absurd (same ▸ less) (lt_irrefl _)
                · exact absurd less' (lt_irrefl _)
                · exact ⟨rfl, low, high⟩
          | none =>
              simp only [reduceCtorEq, false_implies, implies_true, and_true]
              by_cases isLast : byte = 255
              · have most : ¬ byte < first := not_lt.mpr (isLast ▸ Fin.le_last first)
                rw [if_pos isLast]
                simp [most]
              · have next : first < byte + 1 ↔ first ≤ byte := by
                  have inside : byte < Fin.last 255 := Fin.lt_last_iff_ne_last.mpr isLast
                  rw [Fin.lt_def, Fin.le_def, Fin.val_add_one_of_lt inside]
                  exact Nat.lt_succ_iff
                rw [if_neg isLast]
                simp only [Option.some.injEq, forall_eq', List.cons_lt_cons_iff, List.not_lt_nil,
                  and_false, or_false, next]
                constructor
                · rintro ⟨rfl, low⟩
                  exact ⟨.inr ⟨rfl, low⟩, le_rfl⟩
                · rintro ⟨less | same, le⟩
                  · exact absurd (less.trans_le le) (lt_irrefl _)
                  · exact same

end Range

/-! ## Counting -/

section Count

variable {height : Nat} {lo hi : Fence Bytes} {wanted : Bytes}

/-- A child that is passed over has no key that starts with the wanted bytes. -/
theorem not_isPrefix_of_passed {tree : Tree height} (ordered : Ordered height lo hi tree)
    {lower upper : Option Bytes} (isLower : ∀ separator, lower = some separator → lo = fence separator)
    (isUpper : ∀ separator, upper = some separator → hi = fence separator)
    (passed : childRangeOverlapsPrefix lower upper wanted = false) :
    ∀ entry ∈ stored height tree, ¬ wanted <+: entry.1 := by
  intro entry member starts
  obtain ⟨low, high⟩ := isPrefix_iff.mp starts
  obtain ⟨above, below⟩ := ordered.entriesIn.inside entry member
  unfold childRangeOverlapsPrefix at passed
  split at passed
  next => cases passed
  next =>
    split at passed
    next ends =>
      obtain ⟨separator, isSome, le⟩ := (Option.any_eq_true _ _).mp ends
      rw [isUpper separator isSome, fence_lt_fence] at below
      exact absurd (below.trans_le ((of_decide_eq_true le).trans low)) (lt_irrefl _)
    next =>
      cases lower with
      | none => cases passed
      | some separator =>
          cases isStop : prefixSuccessor wanted with
          | none =>
              rw [isStop] at passed
              cases passed
          | some stop =>
              rw [isStop] at passed
              rw [isLower separator rfl, fence_le_fence] at above
              have beyond : stop ≤ separator := by simpa using passed
              exact absurd (((high stop isStop).trans_le beyond).trans_le above) (lt_irrefl _)

theorem countSubtree_inner {depthRemaining : Nat} {node : Node (Tree height)}
    (ordered : InnerOrdered (Ordered height) lo hi node)
    (each : ∀ {low high child}, Ordered height low high child →
      countSubtree wanted depthRemaining height child =
        ⟨(stored height child).countP fun entry => wanted.isPrefixOf entry.1, []⟩) :
    countSubtree wanted (depthRemaining + 1) (height + 1) node =
      ⟨(node.children.flatMap (stored height)).countP fun entry => wanted.isPrefixOf entry.1, []⟩ := by
  have counts : (node.children.zipIdx.map fun part =>
      if childRangeOverlapsPrefix (if part.2 = 0 then none else node.keys[part.2 - 1]?)
          node.keys[part.2]? wanted then
        countSubtree wanted depthRemaining height part.1
      else ⟨0, []⟩) =
      node.children.map fun child : Tree height =>
        (⟨(stored height child).countP fun entry => wanted.isPrefixOf entry.1, []⟩ :
          PrefixCount) := by
    have same : node.children.map (fun child : Tree height =>
        (⟨(stored height child).countP fun entry => wanted.isPrefixOf entry.1, []⟩ : PrefixCount)) =
        node.children.zipIdx.map fun part =>
          (⟨(stored height part.1).countP fun entry => wanted.isPrefixOf entry.1, []⟩ :
            PrefixCount) := by
      conv_lhs => rw [← List.zipIdx_map_fst 0 node.children, List.map_map]
      rfl
    rw [same]
    refine List.map_congr_left fun part member => ?_
    obtain ⟨low, high, fits, isLower, isUpper⟩ :=
      ordered.separators (List.mem_zipIdx_iff_getElem?.mp member)
    generalize lowerIs : (if part.2 = 0 then none else node.keys[part.2 - 1]?) = lower
    split
    next => exact each fits
    next passed =>
      have none : (stored height part.1).countP (fun entry => wanted.isPrefixOf entry.1) = 0 := by
        refine List.countP_eq_zero.mpr fun entry inside starts => ?_
        refine not_isPrefix_of_passed fits ?_ isUpper (Bool.eq_false_iff.mpr passed) entry inside
          (List.isPrefixOf_iff_prefix.mp starts)
        rintro separator rfl
        split at lowerIs
        next => cases lowerIs
        next later => exact isLower separator (Nat.pos_of_ne_zero later) lowerIs
      rw [none]
  have result : countSubtree wanted (depthRemaining + 1) (height + 1) node =
      ⟨((node.children.zipIdx.map fun part =>
          if childRangeOverlapsPrefix (if part.2 = 0 then none else node.keys[part.2 - 1]?)
              node.keys[part.2]? wanted then
            countSubtree wanted depthRemaining height part.1
          else ⟨0, []⟩).map PrefixCount.count).sum,
        (node.children.zipIdx.map fun part =>
          if childRangeOverlapsPrefix (if part.2 = 0 then none else node.keys[part.2 - 1]?)
              node.keys[part.2]? wanted then
            countSubtree wanted depthRemaining height part.1
          else ⟨0, []⟩).flatMap PrefixCount.errors⟩ := rfl
  rw [result, counts, List.map_map, List.flatMap_map, List.countP_flatMap]
  exact congrArg (PrefixCount.mk _) (List.flatMap_eq_nil_iff.mpr fun _ _ => rfl)

/-- The count of an ordered tree is the number of its keys that start with the wanted bytes. -/
theorem countSubtree_eq {depthRemaining : Nat} {tree : Tree height}
    (ordered : Ordered height lo hi tree) (deep : height < depthRemaining) :
    countSubtree wanted depthRemaining height tree =
      ⟨(stored height tree).countP fun entry => wanted.isPrefixOf entry.1, []⟩ := by
  induction height generalizing lo hi depthRemaining with
  | zero =>
      obtain ⟨depth, rfl⟩ := Nat.exists_eq_succ_of_ne_zero (Nat.pos_iff_ne_zero.mp deep)
      obtain ⟨children, list, rfl, -⟩ := ordered
      rw [stored_leafOf, countSubtree, leafOf, List.zip_map', List.countP_map]
      congr 1
      refine List.countP_congr fun entry _ => ?_
      simp
  | succ height ih =>
      obtain ⟨depth, rfl⟩ := Nat.exists_eq_succ_of_ne_zero (Nat.pos_iff_ne_zero.mp
        ((Nat.zero_lt_succ height).trans deep))
      exact countSubtree_inner ordered fun fits => ih fits (Nat.lt_of_succ_lt_succ deep)

end Count

/-! ## Counts and scans -/

/-- What a prefix count and a prefix scan promise: the count of the stored keys that start with the
wanted bytes, without errors, and a scan of as many entries, whose keys start with them. -/
structure CountsPrefix (find : Finder) (tree : RootedTree) (map : Bytes → Option Bytes)
    (wanted : Bytes) : Prop where
  errors : (tree.prefixCount wanted).errors = []
  count : ∃ keys : List Bytes, keys.Nodup ∧
    (∀ key, key ∈ keys ↔ (map key).isSome = true ∧ wanted <+: key) ∧
    (tree.prefixCount wanted).count = keys.length
  scan : ∃ collected, Collects (RangeIterator.round find) (tree.prefixScan wanted) collected ∧
    collected.panics = false ∧ collected.items.length = (tree.prefixCount wanted).count ∧
    ∀ entry ∈ collected.items, wanted <+: entry.1

/-- The start of the scan of a prefix. -/
def prefixStart (wanted : Bytes) : ScanBound := if wanted = [] then .unbounded else .included wanted

/-- The end of the scan of a prefix. -/
def prefixStop (wanted : Bytes) : ScanBound := (prefixSuccessor wanted).elim .unbounded .excluded

section Prefix

variable {find : Finder} {maxPageData : Nat} {calls : List TreeCall} {tree : RootedTree}
variable {map : Bytes → Option Bytes} {wanted : Bytes}

theorem prefixScan_eq (tree : RootedTree) (wanted : Bytes) :
    tree.prefixScan wanted = tree.range (prefixStart wanted) (prefixStop wanted) .forward := by
  rw [RootedTree.prefixScan, prefixStart, prefixStop]
  split
  next empty =>
    rw [empty]
    rfl
  next => cases prefixSuccessor wanted <;> rfl

/-- The bounds of the scan of a prefix are met by the keys that start with it. -/
theorem inside_prefix_iff {key : Bytes} :
    ((prefixStart wanted).isAfterStart key = true ∧ (prefixStop wanted).isBeforeEnd key = true) ↔
      wanted <+: key := by
  rw [isPrefix_iff]
  refine and_congr ?_ ?_
  · rw [prefixStart]
    split
    next empty =>
      rw [empty]
      exact iff_of_true rfl (nil_le key)
    next => exact decide_eq_true_iff
  · rw [prefixStop]
    cases prefixSuccessor wanted with
    | none => exact iff_of_true rfl nofun
    | some stop => simp [ScanBound.isBeforeEnd]

/-- The stored entries that start with the wanted bytes. -/
def matching (tree : RootedTree) (wanted : Bytes) : List (Bytes × Bytes) :=
  (stored tree.height tree.root).filter fun entry => wanted.isPrefixOf entry.1

theorem prefixCount_eq {lo hi : Fence Bytes} (ordered : Ordered tree.height lo hi tree.root) :
    tree.prefixCount wanted = ⟨(matching tree wanted).length, []⟩ := by
  rw [RootedTree.prefixCount, countSubtree_eq ordered (Nat.lt_add_of_pos_right (by decide)),
    matching, List.countP_eq_length_filter]

theorem matching_sorted {lo hi : Fence Bytes} (ordered : Ordered tree.height lo hi tree.root) :
    (matching tree wanted).Pairwise fun early late => early.1 < late.1 :=
  ordered.entriesIn.sorted.filter _

theorem matching_nodup {lo hi : Fence Bytes} (ordered : Ordered tree.height lo hi tree.root) :
    (matching tree wanted).Nodup := by
  refine (matching_sorted ordered).imp fun smaller same => ?_
  rw [same] at smaller
  exact lt_irrefl _ smaller

theorem RootedTree.Represents.mem_matching (represents : tree.Represents map) {key value : Bytes} :
    (key, value) ∈ matching tree wanted ↔ map key = some value ∧ wanted <+: key := by
  rw [matching, List.mem_filter, represents.ordered.mem_stored, represents.entries,
    List.isPrefixOf_iff_prefix]

/-- The keys of the matching entries are the stored keys that start with the wanted bytes. -/
theorem exists_matching_keys (represents : tree.Represents map) :
    ∃ keys : List Bytes, keys.Nodup ∧
      (∀ key, key ∈ keys ↔ (map key).isSome = true ∧ wanted <+: key) ∧
      (tree.prefixCount wanted).count = keys.length := by
  refine ⟨(matching tree wanted).map Prod.fst, ?_, fun key => ?_, ?_⟩
  · rw [List.Nodup, List.pairwise_map]
    exact (matching_sorted represents.ordered).imp fun smaller => smaller.ne
  · rw [List.mem_map]
    constructor
    · rintro ⟨⟨key, value⟩, member, rfl⟩
      obtain ⟨same, starts⟩ := represents.mem_matching.mp member
      rw [same]
      exact ⟨rfl, starts⟩
    · rintro ⟨present, starts⟩
      obtain ⟨value, same⟩ := Option.isSome_iff_exists.mp present
      exact ⟨(key, value), represents.mem_matching.mpr ⟨same, starts⟩, rfl⟩
  · rw [prefixCount_eq represents.ordered, List.length_map]

theorem matching_subset_collected (documented : find.Documented)
    {lo hi : Fence Bytes} (ordered : Ordered tree.height lo hi tree.root) :
    matching tree wanted ⊆ (forwardSift (prefixStart wanted) (prefixStop wanted)
      ((startVisits find (prefixStart wanted) tree.height tree.root).map some)).items := by
  rintro entry member
  obtain ⟨isStored, starts⟩ := List.mem_filter.mp member
  have inside := inside_prefix_iff.mpr (List.isPrefixOf_iff_prefix.mp starts)
  obtain ⟨skipped, parts, notAfter⟩ := exists_skipped documented (prefixStart wanted) ordered
  rw [parts] at isStored
  rcases List.mem_append.mp isStored with early | later
  · have outside := notAfter entry early
    rw [inside.1] at outside
    cases outside
  · have collected := collected_startVisits ordered later inside []
    rwa [List.append_nil] at collected

/-- Counting and scanning a prefix of an ordered tree agree if and only if the scan repeats no
visit. -/
theorem countsPrefix_iff (documented : find.Documented) (represents : tree.Represents map) :
    CountsPrefix find tree map wanted ↔
      ¬ RepeatsForward find (prefixStart wanted) (prefixStop wanted) tree.height tree.root := by
  have counted : tree.prefixCount wanted = ⟨(matching tree wanted).length, []⟩ :=
    prefixCount_eq represents.ordered
  constructor
  · intro counts repeats
    obtain ⟨collected, collects, completes, length, -⟩ := counts.scan
    rw [prefixScan_eq] at collects
    have same := collects.unique (RangeIterator.collects_forward represents.ordered _ _)
    have subset : matching tree wanted ⊆ _ :=
      matching_subset_collected documented represents.ordered
    have faulty := faulty_startVisits represents.ordered repeats []
    rw [List.append_nil] at faulty
    rw [forwardSift, ← same] at faulty subset
    rcases faulty with panics | twice
    · rw [completes] at panics
      cases panics
    · rw [counted] at length
      have permuted := (List.subperm_of_subset (matching_nodup represents.ordered)
        subset).perm_of_length_le length.le
      exact twice (permuted.nodup_iff.mp (matching_nodup represents.ordered))
  · intro once
    obtain ⟨collected, collects, exact⟩ :=
      (exactScan_forward_iff documented represents (prefixStart wanted) (prefixStop wanted)).mpr once
    refine ⟨by rw [counted], exists_matching_keys represents, collected, ?_, exact.completes, ?_, ?_⟩
    · rw [prefixScan_eq]
      exact collects
    · rw [counted]
      have distinct : collected.items.Nodup := by
        refine exact.ordered.imp fun smaller same => ?_
        rw [same] at smaller
        exact lt_irrefl _ smaller
      refine ((List.perm_ext_iff_of_nodup distinct (matching_nodup represents.ordered)).mpr ?_).length_eq
      rintro ⟨key, value⟩
      rw [exact.stored, represents.mem_matching, inside_prefix_iff]
    · rintro ⟨key, value⟩ member
      exact inside_prefix_iff.mp ((exact.stored key value).mp member).2

/-- In every run that divides no leaf whose only key is its lower bound, counting and scanning a
prefix agree if and only if the scan repeats no visit. -/
theorem prefix_counts_iff (documented : find.Documented)
    (undivided : TreeCall.Undivided find maxPageData calls) (wanted : Bytes) :
    CountsPrefix find (TreeCall.run find maxPageData calls) (TreeCall.contents calls) wanted ↔
      ¬ RepeatsForward find (prefixStart wanted) (prefixStop wanted)
        (TreeCall.run find maxPageData calls).height (TreeCall.run find maxPageData calls).root :=
  countsPrefix_iff documented (TreeCall.represents_run documented undivided)

end Prefix

theorem prefix_counts_twoPuts :
    CountsPrefix binarySearch (TreeCall.run binarySearch 128 twoPuts) (TreeCall.contents twoPuts)
      [1] := by
  refine (prefix_counts_iff Finder.documented_binarySearch twoPuts_undivided [1]).mpr ?_
  have short : TreeCall.run binarySearch 128 twoPuts =
      ⟨0, (⟨[[1], [2]], [some [5], some [6]], [], true⟩ : Tree 0)⟩ := by
    rfl
  rw [short]
  exact id

/-- One key starts with `[3]` and is counted once, but the scan yields it twice. -/
theorem prefix_counts_fails :
    TreeCall.Returned binarySearch 128 sevenPuts ∧
      ((TreeCall.run binarySearch 128 sevenPuts).prefixCount []).count = 7 ∧
      ¬ CountsPrefix binarySearch (TreeCall.run binarySearch 128 sevenPuts)
        (TreeCall.contents sevenPuts) [] := by
  have collects : Collects (RangeIterator.round binarySearch)
      ((TreeCall.run binarySearch 128 sevenPuts).prefixScan [])
      ⟨([[0], [1], [2], [3], [3], [4], [5], [6]] : List Bytes).map fun key =>
        (key, List.replicate 20 7), false⟩ :=
    collects_of_collect (show collect _ 60 _ = _ by decide +kernel)
  have counted : ((TreeCall.run binarySearch 128 sevenPuts).prefixCount []).count = 7 := by
    decide +kernel
  refine ⟨by decide +kernel, counted, fun counts => ?_⟩
  obtain ⟨collected, other, -, length, -⟩ := counts.scan
  rw [other.unique collects, counted] at length
  exact absurd length (by decide +kernel)

end JouleDB.BTree
