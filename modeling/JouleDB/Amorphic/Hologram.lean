import JouleDB.Amorphic.Store
import JouleDB.Lib.Run
import JouleDB.Lib.Vec
import Mathlib.Algebra.BigOperators.Pi
import Mathlib.Algebra.Order.BigOperators.Group.Finset
import Mathlib.Algebra.Ring.Int.Defs
import Mathlib.Data.List.SplitBy

/-!
# The segmented hologram

The vectors of all records are summed up in segments of limited size.  Vectors that are added wait
in a buffer until it is full or something else has to be done; removing and replacing change the
segments at once.
-/

namespace JouleDB.Amorphic

/-! ## Accumulators -/

/-- Dimension for holographic storage. -/
def dimension : Nat := 10000

/-- The number of records of a full segment. -/
def globalHologramSaturationLimit : Nat := 316

/-- The number of waiting vectors that are flushed. -/
def flushAt : Nat := 1024

/-- A binary hypervector. -/
abbrev BinaryHV := Fin dimension → Bool

/-- What a vector counts at each position. -/
def BinaryHV.signs (hv : BinaryHV) : Fin dimension → Int := fun index => if hv index then 1 else -1

/-- The sum of bundled vectors. -/
@[ext] structure BundleAccumulator where
  counts : Fin dimension → Int
  numVectors : Nat

namespace BundleAccumulator

def new : BundleAccumulator := ⟨0, 0⟩

def add (acc : BundleAccumulator) (hv : BinaryHV) : BundleAccumulator where
  counts := acc.counts + hv.signs
  numVectors := acc.numVectors + 1

/-- Add many vectors at once. -/
def addBatch (acc : BundleAccumulator) (hvs : List BinaryHV) : BundleAccumulator where
  counts := acc.counts + (hvs.map BinaryHV.signs).sum
  numVectors := acc.numVectors + hvs.length

def subtract (acc : BundleAccumulator) (hv : BinaryHV) : BundleAccumulator where
  counts := acc.counts - hv.signs
  numVectors := acc.numVectors - 1

end BundleAccumulator

/-! ## Operations -/

/-- The segments with the number of their records, the segment of each record, and the vectors that
wait to be added. -/
structure SegmentedHologram where
  segments : List BundleAccumulator
  counts : List Nat
  of : FiniteMap RecordId Nat
  pending : List (Nat × BinaryHV)
  generation : Nat

/-- Take the segments of some records out of the map of segments. -/
def takeSegments : List (RecordId × BinaryHV) → FiniteMap RecordId Nat →
    FiniteMap RecordId Nat × List (Nat × BinaryHV)
  | [], of => (of, [])
  | (id, hv) :: items, of =>
      match of[id]? with
      | none => takeSegments items of
      | some segment =>
          let (of, taken) := takeSegments items (of.erase id)
          (of, (segment, hv) :: taken)

/-- The vectors of one segment. -/
def ofSegment (segment : Nat) (vectors : List (Nat × BinaryHV)) : List BinaryHV :=
  (vectors.filter fun entry => entry.1 = segment).map Prod.snd

/-- The vectors of each segment.  The order of the segments does not matter, as each of them is
there once. -/
def perSegment (vectors : List (Nat × BinaryHV)) : List (Nat × List BinaryHV) :=
  (vectors.map Prod.fst).dedup.map fun segment => (segment, ofSegment segment vectors)

namespace SegmentedHologram

/-- An empty hologram. -/
def new : SegmentedHologram := ⟨[.new], [0], ∅, [], 0⟩

/-- Add vectors of one segment.  Here and below an index out of range is a panic. -/
def addGroup (segments : List BundleAccumulator) (group : List (Nat × BinaryHV)) :
    Option (List BundleAccumulator) :=
  match group with
  | [] => some segments
  | (segment, _) :: _ => modifyAt segments segment fun acc => acc.addBatch (group.map Prod.snd)

/-- Add the waiting vectors. -/
def flush (holo : SegmentedHologram) : Option SegmentedHologram :=
  if holo.pending.isEmpty then some holo
  else do
    let pending := holo.pending.mergeSort fun first second => first.1 ≤ second.1
    let groups := pending.splitBy fun first second => first.1 == second.1
    let segments ← groups.foldlM addGroup holo.segments
    some { holo with segments := segments, pending := [] }

/-- Count one more change. -/
def bump (holo : SegmentedHologram) : SegmentedHologram :=
  { holo with generation := holo.generation + 1 }

/-- The segment of a record, and the hologram in which a new record has one. -/
def place (holo : SegmentedHologram) (id : RecordId) : Option (SegmentedHologram × Nat) :=
  match holo.of[id]? with
  | some segment => some (holo, segment)
  | none => do
      let holo :=
        if holo.counts.getLast?.all fun count => globalHologramSaturationLimit ≤ count then
          { holo with segments := holo.segments ++ [.new], counts := holo.counts ++ [0] }
        else holo
      let segment := holo.segments.length - 1
      let counts ← modifyAt holo.counts segment (· + 1)
      some ({ holo with counts := counts, of := holo.of.insert id segment }, segment)

def add (holo : SegmentedHologram) (id : RecordId) (hv : BinaryHV) : Option SegmentedHologram := do
  let (holo, segment) ← holo.bump.place id
  let holo := { holo with pending := holo.pending ++ [(segment, hv)] }
  if flushAt ≤ holo.pending.length then holo.flush else some holo

def remove (holo : SegmentedHologram) (id : RecordId) (hv : BinaryHV) :
    Option SegmentedHologram := do
  let holo ← holo.bump.flush
  match holo.of[id]? with
  | none => some holo
  | some segment =>
      let segments ← modifyAt holo.segments segment fun acc => acc.subtract hv
      let counts ← modifyAt holo.counts segment (· - 1)
      some { holo with segments := segments, counts := counts, of := holo.of.erase id }

/-- Remove many records at once.  A segment that loses all its records is reset. -/
def removeBatch (holo : SegmentedHologram) (items : List (RecordId × BinaryHV)) :
    Option SegmentedHologram :=
  if items.isEmpty then some holo
  else do
    let holo ← holo.bump.flush
    let (of, taken) := takeSegments items holo.of
    let counts ← (perSegment taken).foldlM (fun counts work =>
      modifyAt counts work.1 (· - work.2.length)) holo.counts
    let segments ← (perSegment taken).foldlM (fun segments work =>
      modifyAt segments work.1 fun acc =>
        if holo.counts.getD work.1 0 ≤ work.2.length then .new
        else work.2.foldl .subtract acc) holo.segments
    some { holo with segments := segments, counts := counts, of := of }

def replace (holo : SegmentedHologram) (id : RecordId) (old new : BinaryHV) :
    Option SegmentedHologram := do
  let holo ← holo.bump.flush
  match holo.of[id]? with
  | some segment =>
      let segments ← modifyAt holo.segments segment fun acc => (acc.subtract old).add new
      some { holo with segments := segments }
  | none => holo.add id new

end SegmentedHologram

/-- Calls of a hologram.  Every read of its segments flushes first. -/
inductive HologramCall where
  | add (id : RecordId) (hv : BinaryHV)
  | remove (id : RecordId) (hv : BinaryHV)
  | removeBatch (items : List (RecordId × BinaryHV))
  | replace (id : RecordId) (old new : BinaryHV)
  | read

/-- The hologram after a call. -/
def SegmentedHologram.step (holo : SegmentedHologram) : HologramCall → Option SegmentedHologram
  | .add id hv => holo.add id hv
  | .remove id hv => holo.remove id hv
  | .removeBatch items => holo.removeBatch items
  | .replace id old new => holo.replace id old new
  | .read => holo.flush

/-! ## Bookkeeping -/

/-- The ids that are mapped to a segment. -/
def idsOf (of : FiniteMap RecordId Nat) (segment : Nat) : Finset RecordId :=
  (of.keys.filter fun id => of[id]? = some segment).toFinset

/-- The sum of the vectors of some ids. -/
def bundleOf (vectors : RecordId → Option BinaryHV) (ids : Finset RecordId) :
    BundleAccumulator where
  counts := ∑ id ∈ ids, (vectors id).elim 0 BinaryHV.signs
  numVectors := ids.card

section Sums

variable {of : FiniteMap RecordId Nat} {id : RecordId} {segment : Nat} {hv : BinaryHV}
  {vectors : RecordId → Option BinaryHV} {ids : Finset RecordId}

theorem mem_idsOf : id ∈ idsOf of segment ↔ of[id]? = some segment := by
  rw [idsOf, List.mem_toFinset, List.mem_filter, decide_eq_true_eq]
  refine and_iff_right_of_imp fun found => ?_
  rw [Std.ExtTreeMap.mem_keys, Std.ExtTreeMap.mem_iff_isSome_getElem?, found]
  rfl

theorem idsOf_insert (absent : of[id]? = none) (other : Nat) :
    idsOf (of.insert id segment) other =
      if segment = other then insert id (idsOf of other) else idsOf of other := by
  ext key
  rw [mem_idsOf, Std.ExtTreeMap.getElem?_insert]
  split
  next same =>
    rw [Std.LawfulEqCmp.compare_eq_iff_eq] at same
    subst same
    split
    next here => simp [here]
    next apart => simp [apart, mem_idsOf, absent]
  next differ =>
    rw [Std.LawfulEqCmp.compare_eq_iff_eq] at differ
    split
    next => simp [mem_idsOf, Ne.symm differ]
    next => rw [mem_idsOf]

theorem idsOf_erase (id : RecordId) (segment : Nat) :
    idsOf (of.erase id) segment = (idsOf of segment).erase id := by
  ext key
  rw [mem_idsOf, Std.ExtTreeMap.getElem?_erase, Finset.mem_erase, mem_idsOf]
  split
  next same =>
    rw [Std.LawfulEqCmp.compare_eq_iff_eq] at same
    simp [same]
  next differ =>
    rw [Std.LawfulEqCmp.compare_eq_iff_eq] at differ
    simp [Ne.symm differ]

theorem bundleOf_congr {others : RecordId → Option BinaryHV}
    (same : ∀ id ∈ ids, vectors id = others id) : bundleOf vectors ids = bundleOf others ids := by
  rw [bundleOf, bundleOf, Finset.sum_congr rfl fun id member => by rw [same id member]]

theorem bundleOf_insert (absent : id ∉ ids) (stored : vectors id = some hv) :
    bundleOf vectors (insert id ids) = (bundleOf vectors ids).add hv := by
  rw [bundleOf, Finset.sum_insert absent, Finset.card_insert_of_notMem absent, stored, add_comm]
  rfl

theorem bundleOf_erase (member : id ∈ ids) (stored : vectors id = some hv) :
    bundleOf vectors (ids.erase id) = (bundleOf vectors ids).subtract hv := by
  rw [bundleOf, Finset.sum_erase_eq_sub member, Finset.card_erase_of_mem member, stored]
  rfl

/-- The vector of a record does not matter to the bundle of the others. -/
theorem bundleOf_update (absent : id ∉ ids) (vector : Option BinaryHV) :
    bundleOf (Function.update vectors id vector) ids = bundleOf vectors ids :=
  bundleOf_congr fun _ member => Function.update_of_ne (ne_of_mem_of_not_mem member absent) _ _

theorem notMem_idsOf {other : Nat} (found : of[id]? = some segment) (apart : segment ≠ other) :
    id ∉ idsOf of other :=
  fun member => apart (Option.some.inj (found.symm.trans (mem_idsOf.mp member)))

end Sums

namespace BundleAccumulator

theorem addBatch_nil (acc : BundleAccumulator) : acc.addBatch [] = acc := by
  simp [addBatch]

theorem addBatch_append (acc : BundleAccumulator) (front back : List BinaryHV) :
    acc.addBatch (front ++ back) = (acc.addBatch front).addBatch back := by
  simp [addBatch, add_assoc]

theorem addBatch_perm (acc : BundleAccumulator) {hvs others : List BinaryHV}
    (perm : hvs.Perm others) : acc.addBatch hvs = acc.addBatch others := by
  rw [addBatch, (perm.map _).sum_eq, perm.length_eq, addBatch]

theorem addBatch_concat (acc : BundleAccumulator) (hvs : List BinaryHV) (hv : BinaryHV) :
    acc.addBatch (hvs ++ [hv]) = (acc.addBatch hvs).add hv := by
  simp [addBatch, add, add_assoc]

end BundleAccumulator

/-! ## Flushing -/

theorem ofSegment_append (segment : Nat) (front back : List (Nat × BinaryHV)) :
    ofSegment segment (front ++ back) = ofSegment segment front ++ ofSegment segment back := by
  rw [ofSegment, List.filter_append, List.map_append, ofSegment, ofSegment]

/-- Vectors of one segment. -/
theorem ofSegment_uniform {group : List (Nat × BinaryHV)} {segment : Nat}
    (uniform : ∀ entry ∈ group, entry.1 = segment) (other : Nat) :
    ofSegment other group = if segment = other then group.map Prod.snd else [] := by
  rw [ofSegment]
  split
  next same =>
    rw [List.filter_eq_self.mpr fun entry member => by simpa [← same] using uniform entry member]
  next apart =>
    rw [List.filter_eq_nil_iff.mpr fun entry member => by simpa [uniform entry member] using apart]
    rfl

/-- A group of neighbours with equal segments has one segment. -/
theorem uniform_of_isChain {first : Nat × BinaryHV} {group : List (Nat × BinaryHV)}
    (chain : (first :: group).IsChain fun one other => one.1 == other.1) :
    ∀ entry ∈ first :: group, entry.1 = first.1 := by
  induction group generalizing first with
  | nil => simp
  | cons second group ih =>
      obtain ⟨same, chain⟩ := List.isChain_cons_cons.mp chain
      have equal : first.1 = second.1 := by simpa using same
      intro entry member
      rcases List.mem_cons.mp member with rfl | later
      · rfl
      · exact (ih chain entry later).trans equal.symm

namespace SegmentedHologram

theorem addGroups_spec {groups : List (List (Nat × BinaryHV))} {segments : List BundleAccumulator}
    (chains : ∀ group ∈ groups, group.IsChain fun one other => one.1 == other.1)
    (inside : ∀ group ∈ groups, ∀ entry ∈ group, entry.1 < segments.length) :
    ∃ result, groups.foldlM addGroup segments = some result ∧ result.length = segments.length ∧
      ∀ position : Nat, result[position]? =
        segments[position]?.map fun acc => acc.addBatch (ofSegment position groups.flatten) := by
  induction groups generalizing segments with
  | nil =>
      refine ⟨segments, rfl, rfl, fun position => ?_⟩
      simp [ofSegment, BundleAccumulator.addBatch_nil]
  | cons group groups ih =>
      have later : ∀ group ∈ groups, group.IsChain fun one other => one.1 == other.1 :=
        fun other member => chains other (List.mem_cons_of_mem _ member)
      rw [List.forall_mem_cons] at inside
      cases group with
      | nil =>
          obtain ⟨result, ends, length, spec⟩ := ih later inside.2
          exact ⟨result, ends, length, spec⟩
      | cons first group =>
          have uniform := uniform_of_isChain (chains _ List.mem_cons_self)
          obtain ⟨result, ends, length, spec⟩ := @ih
            (segments.modify first.1 fun acc => acc.addBatch ((first :: group).map Prod.snd)) later
            (by simpa only [List.length_modify] using inside.2)
          refine ⟨result, ?_, length.trans (List.length_modify ..), fun position => ?_⟩
          · have adds : addGroup segments (first :: group) = some _ :=
              modifyAt_eq (inside.1 first List.mem_cons_self) _
            rw [List.foldlM_cons, adds]
            exact ends
          · rw [spec, List.getElem?_modify, Option.map_eq_map, Option.map_map, List.flatten_cons,
              ofSegment_append, ofSegment_uniform uniform]
            by_cases same : first.1 = position
            · simp only [same, if_true, Function.comp_def, BundleAccumulator.addBatch_append]
            · simp only [same, if_false, Function.comp_def, List.nil_append]

/-- Flushing adds all waiting vectors to their segments. -/
theorem flush_spec {holo : SegmentedHologram}
    (inside : ∀ entry ∈ holo.pending, entry.1 < holo.segments.length) :
    ∃ segments, holo.flush = some { holo with segments := segments, pending := [] } ∧
      segments.length = holo.segments.length ∧ ∀ position : Nat, segments[position]? =
        holo.segments[position]?.map fun acc => acc.addBatch (ofSegment position holo.pending) := by
  rw [flush]
  split
  next none =>
    obtain ⟨segments, counts, of, pending, generation⟩ := holo
    cases List.isEmpty_iff.mp none
    refine ⟨segments, rfl, rfl, fun position => ?_⟩
    simp [ofSegment, BundleAccumulator.addBatch_nil]
  next =>
    have perm := List.mergeSort_perm holo.pending fun first second => first.1 ≤ second.1
    obtain ⟨segments, ends, length, spec⟩ := @addGroups_spec
      ((holo.pending.mergeSort fun first second => first.1 ≤ second.1).splitBy
        fun first second => first.1 == second.1) holo.segments
      (fun group => List.isChain_of_mem_splitBy) (fun group isGroup entry member => by
        refine inside entry (perm.mem_iff.mp ?_)
        rw [← List.flatten_splitBy (fun first second => first.1 == second.1)
          (holo.pending.mergeSort fun first second => first.1 ≤ second.1)]
        exact List.mem_flatten.mpr ⟨group, isGroup, member⟩)
    refine ⟨segments, ?_, length, fun position => ?_⟩
    · dsimp only
      rw [ends]
      rfl
    · rw [spec, List.flatten_splitBy]
      exact congrFun (congrArg Option.map (funext fun acc =>
        acc.addBatch_perm ((perm.filter _).map _))) _

end SegmentedHologram

/-! ## What every call keeps -/

/-- The vectors that are stored after a call. -/
def HologramCall.after (vectors : RecordId → Option BinaryHV) :
    HologramCall → (RecordId → Option BinaryHV)
  | .add id hv => Function.update vectors id (some hv)
  | .remove id _ => Function.update vectors id none
  | .removeBatch items => fun id => if id ∈ items.map Prod.fst then none else vectors id
  | .replace id _ new => Function.update vectors id (some new)
  | .read => vectors

/-- New records are added, and records go with the vector that was stored last. -/
def HologramCall.Allowed (vectors : RecordId → Option BinaryHV) : HologramCall → Prop
  | .add id _ => vectors id = none
  | .remove id hv => ∀ stored, vectors id = some stored → hv = stored
  | .removeBatch items => ∀ item ∈ items, ∀ stored, vectors item.1 = some stored → item.2 = stored
  | .replace id old _ => ∀ stored, vectors id = some stored → old = stored
  | .read => True

/-- What is kept between calls. -/
structure SegmentedHologram.Kept (holo : SegmentedHologram)
    (vectors : RecordId → Option BinaryHV) : Prop where
  lengths : holo.counts.length = holo.segments.length
  inhabited : 0 < holo.segments.length
  mapped : ∀ (id : RecordId) (segment : Nat), holo.of[id]? = some segment →
    segment < holo.segments.length
  stored : ∀ id : RecordId, holo.of[id]?.isSome = (vectors id).isSome
  waiting : ∀ entry ∈ holo.pending, entry.1 < holo.segments.length
  counted : ∀ (segment count : Nat), holo.counts[segment]? = some count →
    count = (idsOf holo.of segment).card ∧ count ≤ globalHologramSaturationLimit
  summed : ∀ (segment : Nat) (acc : BundleAccumulator), holo.segments[segment]? = some acc →
    acc.addBatch (ofSegment segment holo.pending) = bundleOf vectors (idsOf holo.of segment)

namespace SegmentedHologram

variable {holo : SegmentedHologram} {vectors : RecordId → Option BinaryHV} {id : RecordId}
  {hv : BinaryHV} {segment : Nat}

namespace Kept

theorem new : SegmentedHologram.new.Kept fun _ => none where
  lengths := rfl
  inhabited := Nat.zero_lt_one
  mapped id segment found := by simp [SegmentedHologram.new] at found
  stored id := by simp [SegmentedHologram.new]
  waiting entry member := by cases member
  counted segment count isCount := by
    have none : idsOf SegmentedHologram.new.of segment = ∅ := rfl
    rw [none]
    obtain ⟨rfl, rfl⟩ : segment = 0 ∧ count = 0 := by
      cases segment <;> simp_all [SegmentedHologram.new]
    exact ⟨rfl, Nat.zero_le _⟩
  summed segment acc isAcc := by
    have none : idsOf SegmentedHologram.new.of segment = ∅ := rfl
    rw [none]
    obtain ⟨rfl, rfl⟩ : segment = 0 ∧ acc = .new := by
      cases segment <;> simp_all [SegmentedHologram.new]
    rfl

theorem bump (kept : holo.Kept vectors) : holo.bump.Kept vectors := { kept with }

/-- Flushing keeps everything and leaves nothing waiting. -/
theorem flush (kept : holo.Kept vectors) : ∃ flushed, holo.flush = some flushed ∧
    flushed.Kept vectors ∧ flushed.pending = [] ∧ flushed.of = holo.of := by
  obtain ⟨segments, flushes, length, spec⟩ := flush_spec kept.waiting
  refine ⟨_, flushes, ⟨kept.lengths.trans length.symm, length ▸ kept.inhabited,
    fun id segment found => length ▸ kept.mapped id segment found, kept.stored, nofun,
    kept.counted, fun segment acc isAcc => ?_⟩, rfl, rfl⟩
  rw [spec] at isAcc
  obtain ⟨old, isOld, rfl⟩ := Option.map_eq_some_iff.mp isAcc
  exact (BundleAccumulator.addBatch_nil _).trans (kept.summed segment old isOld)

/-- The records in segments are those that have a vector. -/
theorem unmapped_iff (kept : holo.Kept vectors) : holo.of[id]? = none ↔ vectors id = none := by
  rw [← Option.isNone_iff_eq_none, ← Option.isNone_iff_eq_none, ← Option.not_isSome,
    ← Option.not_isSome, kept.stored]

/-- The vector of a record in a segment is stored. -/
theorem vector_of (kept : holo.Kept vectors) (found : holo.of[id]? = some segment)
    (allowed : ∀ stored, vectors id = some stored → hv = stored) : vectors id = some hv := by
  cases stored : vectors id with
  | none => cases found.symm.trans (kept.unmapped_iff.mpr stored)
  | some other => rw [allowed other stored]

theorem idsOf_eq_empty (kept : holo.Kept vectors) (beyond : holo.segments.length ≤ segment) :
    idsOf holo.of segment = ∅ := by
  refine Finset.eq_empty_of_forall_notMem fun id member => ?_
  exact Nat.not_lt_of_le beyond (kept.mapped id segment (mem_idsOf.mp member))

theorem ofSegment_eq_nil (kept : holo.Kept vectors) (beyond : holo.segments.length ≤ segment) :
    ofSegment segment holo.pending = [] := by
  rw [ofSegment, List.filter_eq_nil_iff.mpr, List.map_nil]
  intro entry member same
  have inside := kept.waiting entry member
  rw [decide_eq_true_eq] at same
  omega

/-- The elements of a list with one more at its end. -/
theorem getElem?_concat_cases {α : Type} {items : List α} {last item : α} {index : Nat}
    (found : (items ++ [last])[index]? = some item) :
    items[index]? = some item ∨ index = items.length ∧ item = last := by
  rw [List.getElem?_append] at found
  split at found
  next => exact .inl found
  next beyond =>
    rw [List.getElem?_singleton] at found
    split at found
    next zero =>
      cases found
      exact .inr ⟨by omega, rfl⟩
    next => cases found

/-- A segment is opened. -/
theorem grow (kept : holo.Kept vectors) : SegmentedHologram.Kept
    { holo with segments := holo.segments ++ [.new], counts := holo.counts ++ [0] } vectors where
  lengths := by simp [kept.lengths]
  inhabited := by simp
  mapped id segment found := by
    rw [List.length_append]
    exact Nat.lt_add_right _ (kept.mapped id segment found)
  stored := kept.stored
  waiting entry member := by
    rw [List.length_append]
    exact Nat.lt_add_right _ (kept.waiting entry member)
  counted segment count isCount := by
    rcases getElem?_concat_cases isCount with old | ⟨rfl, rfl⟩
    · exact kept.counted segment count old
    · rw [kept.idsOf_eq_empty kept.lengths.ge]
      exact ⟨rfl, Nat.zero_le _⟩
  summed segment acc isAcc := by
    rcases getElem?_concat_cases isAcc with old | ⟨rfl, rfl⟩
    · exact kept.summed segment acc old
    · rw [kept.idsOf_eq_empty le_rfl, kept.ofSegment_eq_nil le_rfl]
      rfl

/-- A new record waits to be added to a segment that is not full. -/
theorem enter (kept : holo.Kept vectors) (absent : vectors id = none)
    (inside : segment < holo.segments.length)
    (room : ∀ count, holo.counts[segment]? = some count → count < globalHologramSaturationLimit)
    (hv : BinaryHV) : SegmentedHologram.Kept
      { holo with
        counts := holo.counts.modify segment (· + 1)
        of := holo.of.insert id segment
        pending := holo.pending ++ [(segment, hv)] } (Function.update vectors id (some hv)) := by
  have unmapped : holo.of[id]? = none := kept.unmapped_iff.mpr absent
  have outside : ∀ other, id ∉ idsOf holo.of other := fun other member => by
    cases unmapped.symm.trans (mem_idsOf.mp member)
  refine ⟨by simp [kept.lengths], kept.inhabited, fun key other found => ?_, fun key => ?_,
    fun entry member => ?_, fun other count isCount => ?_, fun other acc isAcc => ?_⟩
  · rw [Std.ExtTreeMap.getElem?_insert] at found
    split at found
    next =>
      cases found
      exact inside
    next => exact kept.mapped key other found
  · rw [Std.ExtTreeMap.getElem?_insert, Function.update_apply]
    by_cases same : key = id
    · simp [same]
    · simp [same, Ne.symm same, kept.stored]
  · rcases List.mem_append.mp member with old | new
    · exact kept.waiting entry old
    · rw [List.mem_singleton.mp new]
      exact inside
  · rw [List.getElem?_modify] at isCount
    obtain ⟨old, isOld, rfl⟩ := Option.map_eq_some_iff.mp isCount
    obtain ⟨card, bound⟩ := kept.counted other old isOld
    rw [idsOf_insert unmapped]
    by_cases same : segment = other
    · subst same
      simp only [if_true]
      rw [Finset.card_insert_of_notMem (outside segment), ← card]
      exact ⟨rfl, room old isOld⟩
    · simp only [same, if_false]
      exact ⟨card, bound⟩
  · rw [ofSegment_append, idsOf_insert unmapped]
    by_cases same : segment = other
    · subst same
      rw [if_pos rfl, bundleOf_insert (outside segment) (Function.update_self ..),
        bundleOf_update (outside segment), ← kept.summed segment acc isAcc, ← BundleAccumulator.addBatch_concat]
      simp [ofSegment]
    · rw [if_neg same, bundleOf_update (outside other), ← kept.summed other acc isAcc]
      simp [ofSegment, same]

/-- A new record gets a place in a segment that is not full. -/
theorem place (kept : holo.Kept vectors) (absent : vectors id = none) :
    ∃ (base : SegmentedHologram) (segment : Nat), base.Kept vectors ∧
      segment < base.segments.length ∧
      (∀ count, base.counts[segment]? = some count → count < globalHologramSaturationLimit) ∧
      holo.place id = some ({ base with
        counts := base.counts.modify segment (· + 1)
        of := base.of.insert id segment }, segment) := by
  have unmapped : holo.of[id]? = none := kept.unmapped_iff.mpr absent
  rw [SegmentedHologram.place, unmapped]
  dsimp only
  split
  next =>
    refine ⟨_, holo.segments.length, kept.grow, by simp, fun count isCount => ?_, ?_⟩
    · rw [List.getElem?_append_right kept.lengths.le, kept.lengths, Nat.sub_self] at isCount
      cases isCount
      decide
    · simp only [List.length_append, List.length_singleton, Nat.add_sub_cancel]
      rw [modifyAt_eq (by simp [kept.lengths])]
      rfl
  next notFull =>
    have inside : holo.segments.length - 1 < holo.segments.length :=
      Nat.sub_lt kept.inhabited Nat.zero_lt_one
    refine ⟨holo, holo.segments.length - 1, kept, inside, fun count isCount => ?_, ?_⟩
    · rw [List.getLast?_eq_getElem?, kept.lengths, isCount] at notFull
      simpa using notFull
    · rw [modifyAt_eq (kept.lengths ▸ inside)]
      rfl

theorem add (kept : holo.Kept vectors) (absent : vectors id = none) (hv : BinaryHV) :
    ∃ after, holo.add id hv = some after ∧ after.Kept (Function.update vectors id (some hv)) := by
  obtain ⟨base, segment, isKept, inside, room, placed⟩ := kept.bump.place absent
  have entered := isKept.enter absent inside room hv
  rw [SegmentedHologram.add, placed, Option.bind_eq_bind, Option.bind_some]
  dsimp only
  split
  next =>
    obtain ⟨after, flushes, isKept, -⟩ := entered.flush
    exact ⟨after, flushes, isKept⟩
  next => exact ⟨_, rfl, entered⟩

end Kept

/-- Take one record out. -/
def drop (holo : SegmentedHologram) (item : RecordId × BinaryHV) : SegmentedHologram :=
  match holo.of[item.1]? with
  | none => holo
  | some segment =>
      { holo with
        segments := holo.segments.modify segment fun acc => acc.subtract item.2
        counts := holo.counts.modify segment (· - 1)
        of := holo.of.erase item.1 }

namespace Kept

theorem drop (kept : holo.Kept vectors) (empty : holo.pending = [])
    (allowed : ∀ stored, vectors id = some stored → hv = stored) :
    (holo.drop (id, hv)).Kept (Function.update vectors id none) := by
  rw [SegmentedHologram.drop]
  cases found : holo.of[id]? with
  | none =>
      rwa [Function.update_eq_self_iff.mpr (kept.unmapped_iff.mp found).symm]
  | some segment =>
      have isStored := kept.vector_of found allowed
      have elsewhere : ∀ {other}, segment ≠ other → (idsOf holo.of other).erase id =
          idsOf holo.of other := fun apart => Finset.erase_eq_of_notMem (notMem_idsOf found apart)
      refine ⟨by simp [kept.lengths], by simpa using kept.inhabited, fun key other isAt => ?_,
        fun key => ?_, fun entry member => ?_, fun other count isCount => ?_,
        fun other acc isAcc => ?_⟩
      · rw [Std.ExtTreeMap.getElem?_erase] at isAt
        split at isAt
        next => cases isAt
        next =>
          rw [List.length_modify]
          exact kept.mapped key other isAt
      · rw [Std.ExtTreeMap.getElem?_erase, Function.update_apply]
        by_cases same : key = id
        · simp [same]
        · simp [same, Ne.symm same, kept.stored]
      · rw [empty] at member
        cases member
      · rw [List.getElem?_modify] at isCount
        obtain ⟨old, isOld, rfl⟩ := Option.map_eq_some_iff.mp isCount
        obtain ⟨card, bound⟩ := kept.counted other old isOld
        rw [idsOf_erase]
        by_cases same : segment = other
        · subst same
          rw [if_pos rfl, Finset.card_erase_of_mem (mem_idsOf.mpr found), ← card]
          exact ⟨rfl, (Nat.sub_le _ _).trans bound⟩
        · rw [if_neg same, elsewhere same]
          exact ⟨card, bound⟩
      · rw [List.getElem?_modify] at isAcc
        obtain ⟨old, isOld, rfl⟩ := Option.map_eq_some_iff.mp isAcc
        have summed := kept.summed other old isOld
        rw [empty] at summed ⊢
        rw [idsOf_erase, bundleOf_update (Finset.notMem_erase id _)]
        by_cases same : segment = other
        · subst same
          rw [if_pos rfl, bundleOf_erase (mem_idsOf.mpr found) isStored, ← summed]
          simp only [ofSegment, List.filter_nil, List.map_nil, BundleAccumulator.addBatch_nil]
        · rw [if_neg same, elsewhere same, summed]

theorem remove (kept : holo.Kept vectors)
    (allowed : ∀ stored, vectors id = some stored → hv = stored) :
    ∃ after, holo.remove id hv = some after ∧ after.Kept (Function.update vectors id none) := by
  obtain ⟨flushed, flushes, kept, empty, -⟩ := kept.bump.flush
  refine ⟨_, ?_, kept.drop empty allowed⟩
  rw [SegmentedHologram.remove, flushes, Option.bind_eq_bind, Option.bind_some,
    SegmentedHologram.drop]
  cases found : flushed.of[id]? with
  | none => rfl
  | some segment =>
      have inside := kept.mapped id segment found
      dsimp only
      rw [modifyAt_eq inside, modifyAt_eq (kept.lengths ▸ inside)]
      rfl

theorem replace {old new : BinaryHV} (kept : holo.Kept vectors)
    (allowed : ∀ stored, vectors id = some stored → old = stored) :
    ∃ after, holo.replace id old new = some after ∧
      after.Kept (Function.update vectors id (some new)) := by
  obtain ⟨flushed, flushes, kept, empty, -⟩ := kept.bump.flush
  rw [SegmentedHologram.replace, flushes, Option.bind_eq_bind, Option.bind_some]
  cases found : flushed.of[id]? with
  | none => exact kept.add (kept.unmapped_iff.mp found) new
  | some segment =>
      have isStored := kept.vector_of found allowed
      dsimp only
      rw [modifyAt_eq (kept.mapped id segment found)]
      refine ⟨_, rfl, by simp [kept.lengths], by simpa using kept.inhabited,
        fun key other isAt => ?_, fun key => ?_, fun entry member => ?_, kept.counted,
        fun other acc isAcc => ?_⟩
      · rw [List.length_modify]
        exact kept.mapped key other isAt
      · rw [Function.update_apply]
        split
        next same => rw [same, found]
                     rfl
        next => exact kept.stored key
      · rw [empty] at member
        cases member
      · rw [List.getElem?_modify] at isAcc
        obtain ⟨before, isBefore, rfl⟩ := Option.map_eq_some_iff.mp isAcc
        have summed := kept.summed other before isBefore
        by_cases same : segment = other
        · subst same
          have member := mem_idsOf.mpr found
          have absent := Finset.notMem_erase id (idsOf flushed.of segment)
          rw [← Finset.insert_erase member, bundleOf_insert absent (Function.update_self ..),
            bundleOf_update absent, bundleOf_erase member isStored, ← summed, if_pos rfl, empty]
          simp only [ofSegment, List.filter_nil, List.map_nil, BundleAccumulator.addBatch_nil]
        · rw [if_neg same, bundleOf_update (notMem_idsOf found same)]
          exact summed

/-- Records are taken out one after the other. -/
theorem foldl_drop {items : List (RecordId × BinaryHV)} (kept : holo.Kept vectors)
    (empty : holo.pending = [])
    (allowed : ∀ item ∈ items, ∀ stored, vectors item.1 = some stored → item.2 = stored) :
    (items.foldl SegmentedHologram.drop holo).Kept
      fun id => if id ∈ items.map Prod.fst then none else vectors id := by
  induction items generalizing holo vectors with
  | nil => simpa using kept
  | cons item items ih =>
      rw [List.forall_mem_cons] at allowed
      have still : (holo.drop item).pending = [] := by
        rw [SegmentedHologram.drop]
        split
        next => exact empty
        next => exact empty
      have later := ih (kept.drop empty allowed.1) still fun other member stored isStored => by
        rw [Function.update_apply] at isStored
        split at isStored
        next => cases isStored
        next => exact allowed.2 other member stored isStored
      have same : (fun id => if id ∈ (item :: items).map Prod.fst then none else vectors id) =
          fun id => if id ∈ items.map Prod.fst then none
            else Function.update vectors item.1 none id := by
        funext id
        by_cases here : id = item.1
        · simp [here]
        · rw [Function.update_of_ne here]
          exact if_congr (by simp [here]) rfl rfl
      rw [same]
      exact later

end Kept

/-! ## Removing many records -/

/-- What is left when records are taken out one after the other. -/
theorem foldl_drop_eq (items : List (RecordId × BinaryHV)) (holo : SegmentedHologram) :
    ∃ segments counts, items.foldl SegmentedHologram.drop holo =
        { holo with segments := segments, counts := counts, of := (takeSegments items holo.of).1 } ∧
      (∀ position : Nat, segments[position]? = holo.segments[position]?.map fun acc =>
        (ofSegment position (takeSegments items holo.of).2).foldl .subtract acc) ∧
      ∀ position : Nat, counts[position]? = holo.counts[position]?.map
        (· - (ofSegment position (takeSegments items holo.of).2).length) := by
  induction items generalizing holo with
  | nil => exact ⟨holo.segments, holo.counts, rfl, by simp [takeSegments, ofSegment],
      by simp [takeSegments, ofSegment]⟩
  | cons item items ih =>
      obtain ⟨id, hv⟩ := item
      rw [List.foldl_cons, takeSegments, SegmentedHologram.drop]
      dsimp only
      cases found : holo.of[id]? with
      | none => exact ih holo
      | some segment =>
          obtain ⟨segments, counts, ends, isSegments, isCounts⟩ := ih
            { holo with
              segments := holo.segments.modify segment fun acc => acc.subtract hv
              counts := holo.counts.modify segment (· - 1)
              of := holo.of.erase id }
          refine ⟨segments, counts, ends, fun position => ?_, fun position => ?_⟩
          · rw [isSegments, List.getElem?_modify, Option.map_eq_map, Option.map_map]
            by_cases same : segment = position <;> simp [ofSegment, same, Function.comp_def]
          · rw [isCounts, List.getElem?_modify, Option.map_eq_map, Option.map_map]
            by_cases same : segment = position <;>
              simp [ofSegment, same, Function.comp_def, Nat.sub_sub, Nat.add_comm]

/-- Each segment is there once, with its vectors. -/
theorem filter_perSegment (vectors : List (Nat × BinaryHV)) (segment : Nat) :
    (perSegment vectors).filter (fun work => work.1 = segment) =
      if segment ∈ vectors.map Prod.fst then [(segment, ofSegment segment vectors)] else [] := by
  have once : ((vectors.map Prod.fst).dedup.filter fun other => other = segment) =
      if segment ∈ vectors.map Prod.fst then [segment] else [] := by
    rw [List.filter_eq]
    split
    next member =>
      rw [List.count_eq_one_of_mem (List.nodup_dedup _) (List.mem_dedup.mpr member)]
      rfl
    next absent =>
      rw [List.count_eq_zero_of_not_mem (fun member => absent (List.mem_dedup.mp member))]
      rfl
  rw [perSegment, List.filter_map, Function.comp_def, once]
  split
  next => rfl
  next => rfl

theorem ofSegment_eq_nil_of_not_mem {vectors : List (Nat × BinaryHV)} {segment : Nat}
    (absent : segment ∉ vectors.map Prod.fst) : ofSegment segment vectors = [] := by
  rw [ofSegment, List.filter_eq_nil_iff.mpr, List.map_nil]
  intro entry member same
  exact absent (List.mem_map.mpr ⟨entry, member, by simpa using same⟩)

theorem mem_takeSegments {items : List (RecordId × BinaryHV)} {of : FiniteMap RecordId Nat}
    {entry : Nat × BinaryHV} (member : entry ∈ (takeSegments items of).2) :
    ∃ id : RecordId, of[id]? = some entry.1 := by
  induction items generalizing of with
  | nil => cases member
  | cons item items ih =>
      rw [takeSegments] at member
      split at member
      next => exact ih member
      next segment found =>
        rcases List.mem_cons.mp member with rfl | later
        · exact ⟨item.1, found⟩
        · obtain ⟨id, isAt⟩ := ih later
          rw [Std.ExtTreeMap.getElem?_erase] at isAt
          split at isAt
          next => cases isAt
          next => exact ⟨id, isAt⟩

/-- Removing many records does what removing one after the other does. -/
theorem Kept.removeBatch {items : List (RecordId × BinaryHV)} (kept : holo.Kept vectors)
    (allowed : ∀ item ∈ items, ∀ stored, vectors item.1 = some stored → item.2 = stored) :
    ∃ after, holo.removeBatch items = some after ∧
      after.Kept fun id => if id ∈ items.map Prod.fst then none else vectors id := by
  rw [SegmentedHologram.removeBatch]
  split
  next none =>
    cases List.isEmpty_iff.mp none
    exact ⟨holo, rfl, by simpa using kept⟩
  next =>
    obtain ⟨flushed, flushes, kept, empty, -⟩ := kept.bump.flush
    rw [flushes, Option.bind_eq_bind, Option.bind_some]
    have dropped := kept.foldl_drop empty allowed
    obtain ⟨segments, counts, isDropped, isSegments, isCounts⟩ := foldl_drop_eq items flushed
    rw [isDropped] at dropped
    have inside : ∀ work ∈ perSegment (takeSegments items flushed.of).2,
        work.1 < flushed.segments.length := by
      intro work member
      obtain ⟨segment, isSegment, rfl⟩ := List.mem_map.mp member
      obtain ⟨entry, isEntry, rfl⟩ := List.mem_map.mp (List.mem_dedup.mp isSegment)
      obtain ⟨id, found⟩ := mem_takeSegments isEntry
      exact kept.mapped id _ found
    obtain ⟨newCounts, countsEnd, -, newCountsSpec⟩ := @foldlM_modifyAt _ _ _ Prod.fst
      (fun work count => count - work.2.length) flushed.counts
      (fun work member => kept.lengths ▸ inside work member)
    obtain ⟨newSegments, segmentsEnd, -, newSegmentsSpec⟩ := @foldlM_modifyAt _ _ _ Prod.fst
      (fun work acc => if flushed.counts.getD work.1 0 ≤ work.2.length then .new
        else work.2.foldl .subtract acc) flushed.segments inside
    refine ⟨{ flushed with
      segments := newSegments, counts := newCounts, of := (takeSegments items flushed.of).1 }, ?_,
      ?_⟩
    · dsimp only
      rw [countsEnd, segmentsEnd]
      rfl
    · have sameCounts : newCounts = counts := by
        refine List.ext_getElem? fun position => ?_
        rw [newCountsSpec, isCounts, filter_perSegment]
        split
        next => rfl
        next absent => simp [ofSegment_eq_nil_of_not_mem absent]
      have sameSegments : newSegments = segments := by
        refine List.ext_getElem? fun position => ?_
        rw [newSegmentsSpec, isSegments, filter_perSegment]
        cases isAcc : flushed.segments[position]? with
        | none => rfl
        | some acc =>
            split
            next =>
              refine congrArg some ?_
              change (if flushed.counts.getD position 0 ≤ _ then _ else _) = _
              split
              next all =>
                have isAfter : segments[position]? = some _ :=
                  (isSegments position).trans (by rw [isAcc]; rfl)
                have inRange := (List.getElem?_eq_some_iff.mp isAcc).1
                rw [← kept.lengths] at inRange
                have isCount : counts[position]? = some _ :=
                  (isCounts position).trans (by rw [List.getElem?_eq_getElem inRange]; rfl)
                rw [List.getD_eq_getElem?_getD, List.getElem?_eq_getElem inRange,
                  Option.getD_some] at all
                have none := (dropped.counted position _ isCount).1.symm.trans
                  (Nat.sub_eq_zero_of_le all)
                rw [Finset.card_eq_zero] at none
                have summed := dropped.summed position _ isAfter
                rw [none, empty] at summed
                exact (summed.symm.trans (BundleAccumulator.addBatch_nil _)).symm ▸ rfl
              next => rfl
            next absent => simp [ofSegment_eq_nil_of_not_mem absent]
      rw [sameCounts, sameSegments]
      exact dropped

theorem Kept.step (kept : holo.Kept vectors) {call : HologramCall}
    (allowed : call.Allowed vectors) :
    ∃ after, holo.step call = some after ∧ after.Kept (call.after vectors) := by
  cases call with
  | add id hv => exact kept.add allowed hv
  | remove id hv => exact kept.remove allowed
  | removeBatch items => exact kept.removeBatch allowed
  | replace id old new => exact kept.replace allowed
  | read =>
      obtain ⟨flushed, flushes, kept, -⟩ := kept.flush
      exact ⟨flushed, flushes, kept⟩

end SegmentedHologram

/-! ## Runs -/

/-- The vectors that are stored after some calls, one after the other. -/
def vectorsAfter (calls : List HologramCall) : RecordId → Option BinaryHV :=
  calls.foldl HologramCall.after fun _ => none

/-- Every call is allowed when it is made. -/
def AllAllowed (calls : List HologramCall) : Prop :=
  AllMeet HologramCall.after HologramCall.Allowed (fun _ => none) calls

/-- The hologram that calls lead to. -/
def runHologram (calls : List HologramCall) : Option SegmentedHologram :=
  calls.foldlM SegmentedHologram.step .new

/-- The books of a hologram are right: the ids that are mapped to segments are those that have a
vector, the counts are the numbers of ids that are mapped to the segments, which are not more than
the limit, and after flushing the segments are the sums of the vectors of their ids. -/
structure SegmentedHologram.Booked (holo : SegmentedHologram)
    (vectors : RecordId → Option BinaryHV) : Prop where
  lengths : holo.counts.length = holo.segments.length
  mapped : ∀ (id : RecordId) (segment : Nat), holo.of[id]? = some segment →
    segment < holo.segments.length
  stored : ∀ id : RecordId, holo.of[id]?.isSome = (vectors id).isSome
  counted : ∀ (segment count : Nat), holo.counts[segment]? = some count →
    count = (idsOf holo.of segment).card ∧ count ≤ globalHologramSaturationLimit
  flushed : ∃ flushed, holo.flush = some flushed ∧ flushed.of = holo.of ∧
    flushed.segments.length = holo.segments.length ∧
      ∀ (segment : Nat) (acc : BundleAccumulator), flushed.segments[segment]? = some acc →
        acc = bundleOf vectors (idsOf holo.of segment)

theorem SegmentedHologram.Kept.booked {holo : SegmentedHologram}
    {vectors : RecordId → Option BinaryHV} (kept : holo.Kept vectors) : holo.Booked vectors := by
  refine ⟨kept.lengths, kept.mapped, kept.stored, kept.counted, ?_⟩
  obtain ⟨segments, flushes, length, spec⟩ := SegmentedHologram.flush_spec kept.waiting
  refine ⟨_, flushes, rfl, length, fun segment acc isAcc => ?_⟩
  rw [spec] at isAcc
  obtain ⟨old, isOld, rfl⟩ := Option.map_eq_some_iff.mp isAcc
  exact kept.summed segment old isOld

/-- In every run of allowed calls nothing panics, and the books are right. -/
theorem booked_run {calls : List HologramCall} (allowed : AllAllowed calls) :
    ∃ holo, runHologram calls = some holo ∧ holo.Booked (vectorsAfter calls) := by
  suffices kept : ∀ {holo vectors}, holo.Kept vectors →
      AllMeet HologramCall.after HologramCall.Allowed vectors calls →
        ∃ after, calls.foldlM SegmentedHologram.step holo = some after ∧
          after.Kept (calls.foldl HologramCall.after vectors) by
    obtain ⟨holo, runs, kept⟩ := kept .new allowed
    exact ⟨holo, runs, kept.booked⟩
  clear allowed
  induction calls with
  | nil => exact fun kept _ => ⟨_, rfl, kept⟩
  | cons call calls ih =>
      rintro holo vectors kept ⟨now, later⟩
      obtain ⟨next, steps, keptNext⟩ := kept.step now
      obtain ⟨after, runs, keptAfter⟩ := ih keptNext later
      exact ⟨after, by rw [List.foldlM_cons, steps]; exact runs, keptAfter⟩

/-- A record is added, replaced and removed with another that is not there. -/
def oneRecord : List HologramCall :=
  [.add 1 fun _ => true, .replace 1 (fun _ => true) fun _ => false,
    .removeBatch [(1, fun _ => false), (2, fun _ => true)]]

theorem booked_run_oneRecord :
    ∃ holo, runHologram oneRecord = some holo ∧ holo.Booked (vectorsAfter oneRecord) := by
  refine booked_run ⟨rfl, fun stored isStored => ?_, fun item member stored isStored => ?_, trivial⟩
  · exact Option.some.inj isStored
  · rcases List.mem_cons.mp member with rfl | second
    · exact Option.some.inj isStored
    · rw [List.mem_singleton.mp second] at isStored
      cases isStored

end JouleDB.Amorphic
