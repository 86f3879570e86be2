import JouleDB.Lib.Bytes
import Mathlib.Data.List.Sort

/-!
# Leapfrog intersection

Sorted iterators are intersected by moving the one with the smallest key to the largest key, until
all keys are equal.  Keys that all iterators have are never skipped, because the iterator with the
largest key has no smaller one left.
-/

namespace JouleDB.Query

/-- An iterator over the sorted distinct values of a variable. -/
structure TrieIterator where
  values : List Bytes
  pos : Nat

namespace TrieIterator

def new (values : List Bytes) : TrieIterator where
  values := values
  pos := 0

def atEnd (iterator : TrieIterator) : Bool := iterator.values.length ≤ iterator.pos

def key (iterator : TrieIterator) : Option Bytes := iterator.values[iterator.pos]?

/-- Move to the first value from the position on that is not smaller than the target. -/
def seek (target : Bytes) (iterator : TrieIterator) : TrieIterator :=
  { iterator with pos := iterator.pos +
      ((iterator.values.drop iterator.pos).takeWhile fun value => value < target).length }

def next (iterator : TrieIterator) : TrieIterator :=
  if iterator.atEnd then iterator else { iterator with pos := iterator.pos + 1 }

/-- The values from the position on. -/
def remaining (iterator : TrieIterator) : List Bytes := iterator.values.drop iterator.pos

theorem key_eq (iterator : TrieIterator) : iterator.key = iterator.remaining.head? := by
  rw [key, remaining, List.head?_drop]

theorem remaining_next (iterator : TrieIterator) :
    iterator.next.remaining = iterator.remaining.tail := by
  rw [next, remaining, remaining, List.tail_drop]
  split
  next ended =>
    have beyond : iterator.values.length ≤ iterator.pos := by simpa [atEnd] using ended
    rw [List.drop_eq_nil_of_le beyond, List.drop_eq_nil_of_le (beyond.trans (Nat.le_succ _))]
  next => rfl

theorem remaining_seek (target : Bytes) (iterator : TrieIterator) :
    (iterator.seek target).remaining =
      iterator.remaining.dropWhile fun value => value < target := by
  rw [seek, remaining, remaining, ← List.drop_drop]
  generalize iterator.values.drop iterator.pos = values
  have parts := @List.takeWhile_append_dropWhile _ (fun value => decide (value < target)) values
  have dropped := congrArg (List.drop (values.takeWhile fun value => value < target).length) parts
  rw [List.drop_left] at dropped
  exact dropped.symm

end TrieIterator

/-- The largest key with the smallest one and its iterator. -/
structure KeyBounds where
  maxKey : Bytes
  minIdx : Nat
  minKey : Bytes

/-- Take in the key of one more iterator. -/
def addKey (index : Nat) (key : Bytes) : Option KeyBounds → KeyBounds
  | none => ⟨key, index, key⟩
  | some bounds =>
      { maxKey := if bounds.maxKey < key then key else bounds.maxKey
        minIdx := if key < bounds.minKey then index else bounds.minIdx
        minKey := if key < bounds.minKey then key else bounds.minKey }

/-- The keys of some iterators: `none` when one of them is at its end. -/
def scanKeys : List TrieIterator → Nat → Option KeyBounds → Option (Option KeyBounds)
  | [], _, seen => some seen
  | iterator :: iterators, index, seen =>
      match iterator.key with
      | none => none
      | some key =>
          scanKeys iterators (index + 1) (some (addKey index key seen))

/-- The bounds belong to the iterators that were scanned. -/
structure KeyBounds.Of (bounds : KeyBounds) (iterators : List TrieIterator) : Prop where
  smallest : ∃ iterator, iterators[bounds.minIdx]? = some iterator ∧
    iterator.key = some bounds.minKey
  largest : ∃ iterator ∈ iterators, iterator.key = some bounds.maxKey
  between : ∀ iterator ∈ iterators, ∃ key, iterator.key = some key ∧ bounds.minKey ≤ key ∧
    key ≤ bounds.maxKey

/-- What is known of the iterators that were scanned. -/
def Scanned (iterators : List TrieIterator) : Option KeyBounds → Prop
  | none => iterators = []
  | some bounds => bounds.Of iterators

theorem Scanned.snoc {front : List TrieIterator} {seen : Option KeyBounds} {iterator : TrieIterator}
    {key : Bytes} (scanned : Scanned front seen) (isKey : iterator.key = some key) :
    Scanned (front ++ [iterator]) (some (addKey front.length key seen)) := by
  have last : (front ++ [iterator])[front.length]? = some iterator := by simp
  cases seen with
  | none =>
      cases scanned
      exact ⟨⟨iterator, last, isKey⟩, ⟨iterator, List.mem_singleton_self _, isKey⟩,
        fun other member => ⟨key, by rw [List.mem_singleton.mp member, isKey], le_rfl, le_rfl⟩⟩
  | some bounds =>
      obtain ⟨⟨low, atLow, isLow⟩, ⟨high, inFront, isHigh⟩, between⟩ := scanned
      constructor
      · simp only [addKey]
        split
        · exact ⟨iterator, last, isKey⟩
        · refine ⟨low, ?_, isLow⟩
          rw [List.getElem?_append_left (List.getElem?_eq_some_iff.mp atLow).1]
          exact atLow
      · simp only [addKey]
        split
        · exact ⟨iterator, by simp, isKey⟩
        · exact ⟨high, by simp [inFront], isHigh⟩
      · intro other member
        simp only [addKey]
        rcases List.mem_append.mp member with old | new
        · obtain ⟨value, isValue, above, below⟩ := between other old
          refine ⟨value, isValue, ?_, ?_⟩
          · split
            next less => exact less.le.trans above
            next => exact above
          · split
            next less => exact below.trans less.le
            next => exact below
        · rw [List.mem_singleton.mp new]
          refine ⟨key, isKey, ?_, ?_⟩
          · split
            next => exact le_rfl
            next notLess => exact not_lt.mp notLess
          · split
            next => exact le_rfl
            next notLess => exact not_lt.mp notLess

theorem scanKeys_eq_some {front iterators : List TrieIterator} {seen found : Option KeyBounds}
    (scanned : Scanned front seen)
    (isFound : scanKeys iterators front.length seen = some found) :
    Scanned (front ++ iterators) found := by
  induction iterators generalizing front seen with
  | nil =>
      cases isFound
      rwa [List.append_nil]
  | cons iterator iterators ih =>
      rw [scanKeys] at isFound
      split at isFound
      next => cases isFound
      next key isKey =>
        have longer : front.length + 1 = (front ++ [iterator]).length := by simp
        rw [longer] at isFound
        rw [show front ++ iterator :: iterators = front ++ [iterator] ++ iterators by simp]
        exact ih (scanned.snoc isKey) isFound

theorem scanKeys_eq_none {iterators : List TrieIterator} {index : Nat} {seen : Option KeyBounds}
    (ended : scanKeys iterators index seen = none) :
    ∃ iterator ∈ iterators, iterator.key = none := by
  induction iterators generalizing index seen with
  | nil => cases ended
  | cons iterator iterators ih =>
      rw [scanKeys] at ended
      split at ended
      next isNone => exact ⟨iterator, List.mem_cons_self, isNone⟩
      next =>
        obtain ⟨other, member, isNone⟩ := ih ended
        exact ⟨other, List.mem_cons_of_mem _ member, isNone⟩

/-- The number of values left in some iterators. -/
def valuesLeft (iterators : List TrieIterator) : Nat :=
  (iterators.map fun iterator => iterator.remaining.length).sum

/-- Move all iterators on. -/
def nextAll (iterators : List TrieIterator) : List TrieIterator := iterators.map TrieIterator.next

theorem valuesLeft_nextAll_le (iterators : List TrieIterator) :
    valuesLeft (nextAll iterators) ≤ valuesLeft iterators := by
  induction iterators with
  | nil => exact le_rfl
  | cons first rest ih =>
      refine Nat.add_le_add ?_ ih
      change first.next.remaining.length ≤ first.remaining.length
      rw [TrieIterator.remaining_next, List.length_tail]
      exact Nat.sub_le _ _

theorem valuesLeft_nextAll_lt {iterators : List TrieIterator} {iterator : TrieIterator}
    (member : iterator ∈ iterators) (positive : 0 < iterator.remaining.length) :
    valuesLeft (nextAll iterators) < valuesLeft iterators := by
  induction iterators with
  | nil => cases member
  | cons first rest ih =>
      have shorter : first.next.remaining.length ≤ first.remaining.length := by
        rw [TrieIterator.remaining_next, List.length_tail]
        exact Nat.sub_le _ _
      rcases List.mem_cons.mp member with rfl | later
      · refine Nat.add_lt_add_of_lt_of_le ?_ (valuesLeft_nextAll_le rest)
        change iterator.next.remaining.length < iterator.remaining.length
        rw [TrieIterator.remaining_next, List.length_tail]
        exact Nat.sub_lt positive Nat.zero_lt_one
      · exact Nat.add_lt_add_of_le_of_lt shorter (ih later)

theorem key_of_scan {iterators : List TrieIterator} {bounds : KeyBounds}
    (isBounds : scanKeys iterators 0 none = some (some bounds)) : bounds.Of iterators :=
  @scanKeys_eq_some [] iterators none _ rfl isBounds

/-- Changing one iterator to one with fewer values left. -/
theorem valuesLeft_modify {iterators : List TrieIterator} {index : Nat} {iterator : TrieIterator}
    {change : TrieIterator → TrieIterator} (here : iterators[index]? = some iterator)
    (fewer : (change iterator).remaining.length < iterator.remaining.length) :
    valuesLeft (iterators.modify index change) < valuesLeft iterators := by
  induction iterators generalizing index with
  | nil => cases here
  | cons first rest ih =>
      cases index with
      | zero =>
          cases here
          exact Nat.add_lt_add_right fewer _
      | succ index => exact Nat.add_lt_add_left (ih here) _

/-- An iterator at a key has more values left than behind it. -/
theorem TrieIterator.remaining_of_key {iterator : TrieIterator} {key : Bytes}
    (isKey : iterator.key = some key) : iterator.remaining = key :: iterator.remaining.tail := by
  rw [key_eq] at isKey
  exact (List.cons_head?_tail isKey).symm

theorem valuesLeft_next {iterators : List TrieIterator} {bounds : KeyBounds}
    (isBounds : scanKeys iterators 0 none = some (some bounds)) :
    valuesLeft (nextAll iterators) < valuesLeft iterators := by
  obtain ⟨-, ⟨first, member, isKey⟩, -⟩ := key_of_scan isBounds
  have positive : 0 < first.remaining.length := by
    rw [TrieIterator.remaining_of_key isKey]
    exact Nat.succ_pos _
  exact valuesLeft_nextAll_lt member positive

theorem valuesLeft_seek {iterators : List TrieIterator} {bounds : KeyBounds}
    (isBounds : scanKeys iterators 0 none = some (some bounds))
    (apart : bounds.minKey ≠ bounds.maxKey) :
    valuesLeft (iterators.modify bounds.minIdx (TrieIterator.seek bounds.maxKey)) <
      valuesLeft iterators := by
  have of := key_of_scan isBounds
  obtain ⟨low, atLow, isLow⟩ := of.smallest
  obtain ⟨key, isKey, above, below⟩ := of.between low (List.mem_of_getElem? atLow)
  have less : bounds.minKey < bounds.maxKey := by
    cases isLow.symm.trans isKey
    exact lt_of_le_of_ne below apart
  refine valuesLeft_modify atLow ?_
  rw [TrieIterator.remaining_seek, TrieIterator.remaining_of_key isLow,
    List.dropWhile_cons_of_pos (by simpa using less), List.length_cons]
  exact Nat.lt_succ_of_le (List.dropWhile_sublist _).length_le

/-- The loop of the intersection, with the values found so far. -/
def intersectLoop (iterators : List TrieIterator) (result : List Bytes) : List Bytes :=
  match _isBounds : scanKeys iterators 0 none with
  | none | some none => result
  | some (some bounds) =>
      if _apart : bounds.minKey = bounds.maxKey then
        intersectLoop (nextAll iterators) (result ++ [bounds.minKey])
      else
        intersectLoop (iterators.modify bounds.minIdx (TrieIterator.seek bounds.maxKey)) result
termination_by valuesLeft iterators
decreasing_by
  · exact valuesLeft_next _isBounds
  · exact valuesLeft_seek _isBounds _apart

/-- The values that all iterators have. -/
def intersect (iterators : List TrieIterator) : List Bytes :=
  if iterators.isEmpty then []
  else if iterators.any TrieIterator.atEnd then []
  else
    match iterators with
    | [only] => only.values.drop only.pos
    | several => intersectLoop several []

/-! ## What the intersection finds -/

/-- The iterators run over increasing values. -/
def Increasing (iterators : List TrieIterator) : Prop :=
  ∀ iterator ∈ iterators, iterator.remaining.Pairwise (· < ·)

theorem increasing_nextAll {iterators : List TrieIterator} (increasing : Increasing iterators) :
    Increasing (nextAll iterators) := by
  intro iterator member
  obtain ⟨old, isOld, rfl⟩ := List.mem_map.mp member
  rw [TrieIterator.remaining_next]
  exact (increasing old isOld).sublist (List.tail_sublist _)

theorem increasing_seek {iterators : List TrieIterator} (increasing : Increasing iterators)
    (index : Nat) (target : Bytes) :
    Increasing (iterators.modify index (TrieIterator.seek target)) := by
  intro iterator member
  obtain ⟨position, isAt⟩ := List.mem_iff_getElem?.mp member
  rw [List.getElem?_modify] at isAt
  obtain ⟨old, isOld, rfl⟩ := Option.map_eq_some_iff.mp isAt
  have before := increasing old (List.mem_of_getElem? isOld)
  split
  · rw [TrieIterator.remaining_seek]
    exact before.sublist (List.dropWhile_sublist _)
  · exact before

theorem common_next {iterators : List TrieIterator} {bounds : KeyBounds}
    (of : bounds.Of iterators) (agree : bounds.minKey = bounds.maxKey) (value : Bytes) :
    (∀ iterator ∈ iterators, value ∈ iterator.remaining) ↔
      value = bounds.minKey ∨ ∀ iterator ∈ nextAll iterators, value ∈ iterator.remaining := by
  have atKey : ∀ iterator ∈ iterators,
      iterator.remaining = bounds.minKey :: iterator.remaining.tail := by
    intro iterator member
    obtain ⟨key, isKey, above, below⟩ := of.between iterator member
    have same : key = bounds.minKey := le_antisymm (agree ▸ below) above
    exact TrieIterator.remaining_of_key (same ▸ isKey)
  constructor
  · intro common
    rw [or_iff_not_imp_left]
    intro apart iterator member
    obtain ⟨old, isOld, rfl⟩ := List.mem_map.mp member
    have inOld := common old isOld
    rw [atKey old isOld] at inOld
    rw [TrieIterator.remaining_next]
    exact (List.mem_cons.mp inOld).resolve_left apart
  · rintro (rfl | common) iterator member
    · rw [atKey iterator member]
      exact List.mem_cons_self
    · have later := common iterator.next (List.mem_map_of_mem member)
      rw [TrieIterator.remaining_next] at later
      exact List.mem_of_mem_tail later

theorem mem_dropWhile_lt {values : List Bytes} (increasing : values.Pairwise (· < ·))
    {target value : Bytes} :
    value ∈ values.dropWhile (fun other => other < target) ↔ value ∈ values ∧ target ≤ value := by
  induction values with
  | nil => simp
  | cons first rest ih =>
      obtain ⟨below, increasing⟩ := List.pairwise_cons.mp increasing
      by_cases less : first < target
      · rw [List.dropWhile_cons_of_pos (by simpa using less), ih increasing, List.mem_cons]
        constructor
        · exact fun ⟨member, above⟩ => ⟨.inr member, above⟩
        · rintro ⟨rfl | member, above⟩
          · exact absurd less (not_lt.mpr above)
          · exact ⟨member, above⟩
      · rw [List.dropWhile_cons_of_neg (by simpa using less)]
        refine ⟨fun member => ⟨member, ?_⟩, And.left⟩
        rcases List.mem_cons.mp member with rfl | later
        · exact not_lt.mp less
        · exact (not_lt.mp less).trans (below value later).le

/-- No common value is skipped by seeking the largest key. -/
theorem common_seek {iterators : List TrieIterator} (increasing : Increasing iterators)
    {bounds : KeyBounds} (of : bounds.Of iterators) (value : Bytes) :
    (∀ iterator ∈ iterators, value ∈ iterator.remaining) ↔
      ∀ iterator ∈ iterators.modify bounds.minIdx (TrieIterator.seek bounds.maxKey),
        value ∈ iterator.remaining := by
  have inner : ∀ old ∈ iterators, value ∈ (old.seek bounds.maxKey).remaining ↔
      value ∈ old.remaining ∧ bounds.maxKey ≤ value := by
    intro old member
    rw [TrieIterator.remaining_seek]
    exact mem_dropWhile_lt (increasing old member)
  constructor
  · intro common iterator member
    obtain ⟨high, isHigh, isKey⟩ := of.largest
    have above : bounds.maxKey ≤ value := by
      have inHigh := common high isHigh
      have sorted := increasing high isHigh
      rw [TrieIterator.remaining_of_key isKey] at inHigh sorted
      rcases List.mem_cons.mp inHigh with rfl | later
      · exact le_rfl
      · exact ((List.pairwise_cons.mp sorted).1 value later).le
    obtain ⟨position, isAt⟩ := List.mem_iff_getElem?.mp member
    rw [List.getElem?_modify] at isAt
    obtain ⟨old, isOld, rfl⟩ := Option.map_eq_some_iff.mp isAt
    have member := List.mem_of_getElem? isOld
    split
    · exact (inner old member).mpr ⟨common old member, above⟩
    · exact common old member
  · intro common iterator member
    obtain ⟨position, isAt⟩ := List.mem_iff_getElem?.mp member
    have inNew : (iterators.modify bounds.minIdx (TrieIterator.seek bounds.maxKey))[position]? =
        some (if bounds.minIdx = position then iterator.seek bounds.maxKey else iterator) := by
      rw [List.getElem?_modify, isAt]
      rfl
    have held := common _ (List.mem_of_getElem? inNew)
    split at held
    · exact ((inner iterator member).mp held).1
    · exact held

/-- The loop finds the values that all iterators still have, in increasing order. -/
theorem intersectLoop_spec (iterators : List TrieIterator) (result : List Bytes)
    (increasing : Increasing iterators) (inhabited : iterators ≠ []) :
    ∃ found, intersectLoop iterators result = result ++ found ∧ found.Pairwise (· < ·) ∧
      ∀ value, value ∈ found ↔ ∀ iterator ∈ iterators, value ∈ iterator.remaining := by
  fun_induction intersectLoop iterators result with
  | case1 iterators result ended =>
      obtain ⟨iterator, member, isNone⟩ := scanKeys_eq_none ended
      have empty : iterator.remaining = [] := by
        rwa [TrieIterator.key_eq, List.head?_eq_none_iff] at isNone
      refine ⟨[], (List.append_nil _).symm, List.Pairwise.nil, fun value => ?_⟩
      refine iff_of_false List.not_mem_nil fun common => ?_
      have held := common iterator member
      rw [empty] at held
      cases held
  | case2 iterators result unscanned =>
      have scanned := @scanKeys_eq_some [] iterators none _ rfl unscanned
      exact absurd scanned inhabited
  | case3 iterators result bounds isBounds agree ih =>
      have of := key_of_scan isBounds
      obtain ⟨found, isFound, sorted, spec⟩ := ih (increasing_nextAll increasing)
        (fun none => inhabited (List.map_eq_nil_iff.mp none))
      refine ⟨bounds.minKey :: found, by rw [isFound, List.append_assoc]; rfl,
        List.pairwise_cons.mpr ⟨fun value member => ?_, sorted⟩, fun value => ?_⟩
      · obtain ⟨low, atLow, isLow⟩ := of.smallest
        have isMember := List.mem_of_getElem? atLow
        have later := (spec value).mp member low.next (List.mem_map_of_mem isMember)
        have sorted := increasing low isMember
        rw [TrieIterator.remaining_next] at later
        rw [TrieIterator.remaining_of_key isLow] at sorted
        exact (List.pairwise_cons.mp sorted).1 value later
      · rw [List.mem_cons, spec, common_next of agree]
  | case4 iterators result bounds isBounds apart ih =>
      have of := key_of_scan isBounds
      obtain ⟨found, isFound, sorted, spec⟩ := ih (increasing_seek increasing _ _)
        (fun none => inhabited (by
          have length := congrArg List.length none
          rw [List.length_modify] at length
          exact List.eq_nil_of_length_eq_zero length))
      exact ⟨found, isFound, sorted, fun value => (spec value).trans
        (common_seek increasing of value).symm⟩

/-- The intersection lists the values that all iterators still have, in increasing order. -/
theorem intersect_finds {iterators : List TrieIterator} (inhabited : iterators ≠ [])
    (increasing : Increasing iterators) :
    (intersect iterators).Pairwise (· < ·) ∧
      ∀ value, value ∈ intersect iterators ↔
        ∀ iterator ∈ iterators, value ∈ iterator.remaining := by
  rw [intersect.eq_def, if_neg (fun none => inhabited (List.isEmpty_iff.mp none))]
  split
  next ended =>
    obtain ⟨iterator, member, isEnd⟩ := List.any_eq_true.mp ended
    refine ⟨List.Pairwise.nil, fun value => iff_of_false List.not_mem_nil fun common => ?_⟩
    have held := common iterator member
    rw [TrieIterator.remaining, List.drop_eq_nil_of_le (by simpa [TrieIterator.atEnd] using isEnd)]
      at held
    cases held
  next =>
    split
    next only _ =>
      exact ⟨increasing only (List.mem_singleton_self _), fun value => by
        simp [TrieIterator.remaining]⟩
    next =>
      obtain ⟨found, isFound, sorted, spec⟩ := intersectLoop_spec _ [] increasing inhabited
      rw [isFound, List.nil_append]
      exact ⟨sorted, spec⟩

/-- The intersection of new iterators lists the values that all of them have. -/
theorem intersect_spec {lists : List (List Bytes)} (inhabited : lists ≠ [])
    (increasing : ∀ values ∈ lists, values.Pairwise (· < ·)) :
    (intersect (lists.map TrieIterator.new)).Pairwise (· < ·) ∧
      ∀ value, value ∈ intersect (lists.map TrieIterator.new) ↔
        ∀ values ∈ lists, value ∈ values := by
  have started : Increasing (lists.map TrieIterator.new) := by
    intro iterator member
    obtain ⟨values, isList, rfl⟩ := List.mem_map.mp member
    exact increasing values isList
  obtain ⟨sorted, spec⟩ := intersect_finds (fun none => inhabited (List.map_eq_nil_iff.mp none))
    started
  refine ⟨sorted, fun value => (spec value).trans ?_⟩
  simp [TrieIterator.new, TrieIterator.remaining]

/-! ## Slices and unwrapped keys -/

/-- Seek in one of the iterators.  Slicing panics from a position behind the end of the values. -/
def seekIn (iterators : List TrieIterator) (index : Nat) (target : Bytes) :
    Option (List TrieIterator) :=
  match iterators[index]? with
  | none => none
  | some iterator =>
      if iterator.pos ≤ iterator.values.length then
        some (iterators.modify index (TrieIterator.seek target))
      else none

/-- An iterator that has a key is not behind the end of its values. -/
theorem seekIn_eq {iterators : List TrieIterator} {bounds : KeyBounds}
    (of : bounds.Of iterators) (target : Bytes) :
    seekIn iterators bounds.minIdx target =
      some (iterators.modify bounds.minIdx (TrieIterator.seek target)) := by
  obtain ⟨low, atLow, isLow⟩ := of.smallest
  rw [seekIn, atLow]
  exact if_pos (List.getElem?_eq_some_iff.mp isLow).1.le

/-- The loop of `intersect`, where `none` is a panic. -/
def leapfrogLoop (iterators : List TrieIterator) (result : List Bytes) : Option (List Bytes) :=
  match _isBounds : scanKeys iterators 0 none with
  | none => some result
  | some none => none
  | some (some bounds) =>
      if _apart : bounds.minKey = bounds.maxKey then
        leapfrogLoop (nextAll iterators) (result ++ [bounds.minKey])
      else
        match _moves : seekIn iterators bounds.minIdx bounds.maxKey with
        | none => none
        | some moved => leapfrogLoop moved result
termination_by valuesLeft iterators
decreasing_by
  · exact valuesLeft_next _isBounds
  · cases (seekIn_eq (key_of_scan _isBounds) _).symm.trans _moves
    exact valuesLeft_seek _isBounds _apart

/-- The values that all iterators have, where `none` is a panic. -/
def leapfrogJoin (iterators : List TrieIterator) : Option (List Bytes) :=
  if iterators.isEmpty then some []
  else if iterators.any TrieIterator.atEnd then some []
  else
    match iterators with
    | [only] => some (only.values.drop only.pos)
    | several => leapfrogLoop several []

theorem leapfrogLoop_eq {iterators : List TrieIterator} (inhabited : iterators ≠ [])
    (result : List Bytes) :
    leapfrogLoop iterators result = some (intersectLoop iterators result) := by
  fun_induction intersectLoop iterators result with
  | case1 iterators result ended => rw [leapfrogLoop.eq_def, ended]
  | case2 iterators result unscanned =>
      exact absurd (@scanKeys_eq_some [] iterators none _ rfl unscanned) inhabited
  | case3 iterators result bounds isBounds agree ih =>
      rw [leapfrogLoop.eq_def]
      split
      next ended => cases isBounds.symm.trans ended
      next unscanned => cases isBounds.symm.trans unscanned
      next found isFound =>
        cases isBounds.symm.trans isFound
        rw [dif_pos agree]
        exact ih fun none => inhabited (List.map_eq_nil_iff.mp none)
  | case4 iterators result bounds isBounds apart ih =>
      have moves := seekIn_eq (key_of_scan isBounds) bounds.maxKey
      rw [leapfrogLoop.eq_def]
      split
      next ended => cases isBounds.symm.trans ended
      next unscanned => cases isBounds.symm.trans unscanned
      next found isFound =>
        cases isBounds.symm.trans isFound
        rw [dif_neg apart]
        split
        next stuck => cases moves.symm.trans stuck
        next moved isMoved =>
          cases moves.symm.trans isMoved
          refine ih fun none => inhabited ?_
          have length := congrArg List.length none
          rw [List.length_modify] at length
          exact List.eq_nil_of_length_eq_zero length

theorem leapfrogJoin_eq {iterators : List TrieIterator} (inhabited : iterators ≠ []) :
    leapfrogJoin iterators = some (intersect iterators) := by
  rw [leapfrogJoin.eq_def, intersect.eq_def]
  split
  next => rfl
  next =>
    split
    next => rfl
    next =>
      split
      next => rfl
      next several => exact leapfrogLoop_eq inhabited []

/-- The intersection ends without a panic, and lists in increasing order the values that all
iterators have from their positions on. -/
theorem leapfrogJoin_finds {iterators : List TrieIterator} (inhabited : iterators ≠ [])
    (increasing : ∀ iterator ∈ iterators, iterator.values.Pairwise (· < ·)) :
    ∃ found, leapfrogJoin iterators = some found ∧ found.Pairwise (· < ·) ∧
      ∀ value, value ∈ found ↔
        ∀ iterator ∈ iterators, value ∈ iterator.values.drop iterator.pos := by
  have remaining : Increasing iterators := fun iterator member =>
    (increasing iterator member).sublist (List.drop_sublist _ _)
  exact ⟨_, leapfrogJoin_eq inhabited, intersect_finds inhabited remaining⟩

/-- Two iterators, the first of them behind its first value. -/
def twoIterators : List TrieIterator := [⟨[[1], [2], [3]], 1⟩, ⟨[[1], [3], [4]], 0⟩]

theorem leapfrogJoin_finds_twoIterators :
    ∃ found, leapfrogJoin twoIterators = some found ∧ found.Pairwise (· < ·) ∧
      ∀ value, value ∈ found ↔
        ∀ iterator ∈ twoIterators, value ∈ iterator.values.drop iterator.pos :=
  leapfrogJoin_finds (List.cons_ne_nil _ _) (by decide)

end JouleDB.Query
