import JouleDB.Lsm.Reads

/-!
# What a merge writes

A merge keeps, for every key, the entry of the first table that has one.  It is written to tables
whose key ranges follow each other.
-/

namespace JouleDB.Lsm

section Merge

variable {key : Bytes} {tables : List SSTable}

theorem getElem?_foldl_insertIfNew (entries : List (Entry × Nat))
    (merged : FiniteMap Bytes (Option Bytes)) :
    (entries.foldl (fun merged entry => merged.insertIfNew entry.1.1 entry.1.2) merged)[key]? =
      merged[key]?.or ((entries.map Prod.fst).lookup key) := by
  induction entries generalizing merged with
  | nil => simp
  | cons entry entries ih =>
      rw [List.foldl_cons, ih, Std.ExtTreeMap.getElem?_insertIfNew, List.map_cons, lookup_cons_ite]
      by_cases same : entry.1.1 = key
      · subst same
        by_cases held : entry.1.1 ∈ merged
        · simp [held]
        · simp [held]
      · simp [same, Ne.symm same]

theorem exists_of_lookup_map {entries : List (Entry × Nat)} {value : Option Bytes}
    (found : (entries.map Prod.fst).lookup key = some value) :
    ∃ front position back, entries = front ++ ((key, value), position) :: back ∧
      ∀ entry ∈ front, entry.1.1 ≠ key := by
  induction entries with
  | nil => cases found
  | cons entry entries ih =>
      rw [List.map_cons, lookup_cons_ite] at found
      split at found
      next same =>
        cases found
        refine ⟨[], entry.2, entries, ?_, by simp⟩
        rw [same]
        rfl
      next apart =>
        obtain ⟨front, position, back, split, before⟩ := ih found
        refine ⟨entry :: front, position, back, by rw [split]; rfl, ?_⟩
        exact List.forall_mem_cons.mpr ⟨Ne.symm apart, before⟩

/-- The entries of sources, the newer sources first, with the position of their source. -/
def tagged (sources : List (List Entry)) : List (Entry × Nat) :=
  sources.zipIdx.flatMap fun (entries, index) => entries.map fun entry => (entry, index)

theorem taggedEntries_eq (tables : List SSTable) :
    taggedEntries tables = tagged (tables.map SSTable.iter) := by
  rw [taggedEntries, tagged, List.zipIdx_map, List.flatMap_map]
  rfl

theorem mem_tagged {sources : List (List Entry)} {entry : Entry} {position : Nat} :
    (entry, position) ∈ tagged sources ↔
      ∃ entries, sources[position]? = some entries ∧ entry ∈ entries := by
  rw [tagged, List.mem_flatMap]
  constructor
  · rintro ⟨⟨entries, index⟩, member, inside⟩
    obtain ⟨other, isEntry, same⟩ := List.mem_map.mp inside
    cases same
    exact ⟨entries, List.mem_zipIdx_iff_getElem?.mp member, isEntry⟩
  · rintro ⟨entries, found, isEntry⟩
    exact ⟨(entries, position), List.mem_zipIdx_iff_getElem?.mpr found,
      List.mem_map.mpr ⟨entry, isEntry, rfl⟩⟩

theorem sortEntries_pairwise (entries : List (Entry × Nat)) :
    (sortEntries entries).Pairwise fun first second =>
      first.1.1 < second.1.1 ∨ first.1.1 = second.1.1 ∧ first.2 ≤ second.2 := by
  have total : Std.Total fun first second : Entry × Nat =>
      first.1.1 < second.1.1 ∨ first.1.1 = second.1.1 ∧ first.2 ≤ second.2 := by
    constructor
    intro a b
    rcases lt_trichotomy a.1.1 b.1.1 with less | same | greater
    · exact .inl (.inl less)
    · rcases Nat.le_total a.2 b.2 with first | second
      · exact .inl (.inr ⟨same, first⟩)
      · exact .inr (.inr ⟨same.symm, second⟩)
    · exact .inr (.inl greater)
  have transitive : IsTrans (Entry × Nat) fun first second =>
      first.1.1 < second.1.1 ∨ first.1.1 = second.1.1 ∧ first.2 ≤ second.2 := by
    constructor
    intro a b c first second
    rcases first with less | ⟨same, earlier⟩
    · rcases second with less' | ⟨same', _⟩
      · exact .inl (less.trans less')
      · exact .inl (same' ▸ less)
    · rcases second with less' | ⟨same', earlier'⟩
      · exact .inl (same ▸ less')
      · exact .inr ⟨same.trans same', earlier.trans earlier'⟩
  exact List.pairwise_insertionSort _ entries

/-- The first entry of a key in the sorted entries is that of the first source. -/
theorem lookup_sort_tagged {sources : List (List Entry)}
    (sorted : ∀ entries ∈ sources, Sorted entries) :
    ((sortEntries (tagged sources)).map Prod.fst).lookup key =
      sources.findSome? (List.lookup key) := by
  have member : ∀ {entry position}, (entry, position) ∈ sortEntries (tagged sources) ↔
      (entry, position) ∈ tagged sources := (List.perm_insertionSort _ _).mem_iff
  have held : ∀ {value position}, ((key, value), position) ∈ tagged sources ↔
      ∃ entries, sources[position]? = some entries ∧ entries.lookup key = some value := by
    intro value position
    rw [mem_tagged]
    apply exists_congr
    intro entries
    apply and_congr_right
    intro found
    exact (lookup_eq_some_iff (sorted entries (List.mem_of_getElem? found)).nodup).symm
  cases found : ((sortEntries (tagged sources)).map Prod.fst).lookup key with
  | none =>
      symm
      rw [List.findSome?_eq_none_iff]
      intro entries isSource
      cases read : entries.lookup key with
      | none => rfl
      | some value =>
          obtain ⟨position, isAt⟩ := List.getElem?_of_mem isSource
          have inside := member.mpr (held.mpr ⟨entries, isAt, read⟩)
          rw [List.lookup_eq_none_iff] at found
          have apart := found _ (List.mem_map_of_mem inside)
          simp at apart
  | some value =>
      obtain ⟨front, position, back, split, before⟩ := exists_of_lookup_map found
      have first : ((key, value), position) ∈ tagged sources := by
        rw [← member, split]
        exact List.mem_append_right _ List.mem_cons_self
      obtain ⟨entries, isAt, read⟩ := held.mp first
      symm
      rw [List.findSome?_eq_some_iff]
      obtain ⟨bound, same⟩ := List.getElem?_eq_some_iff.mp isAt
      refine ⟨sources.take position, entries, sources.drop (position + 1), ?_, read, ?_⟩
      · rw [← same, ← List.drop_eq_getElem_cons bound, List.take_append_drop]
      · intro other early
        cases readOther : other.lookup key with
        | none => rfl
        | some older =>
            -- An earlier source with the key would stand before it in the sorted entries.
            obtain ⟨place, isPlace⟩ := List.getElem?_of_mem early
            rw [List.getElem?_take] at isPlace
            split at isPlace
            next less =>
              have inside := member.mpr (held.mpr ⟨other, isPlace, readOther⟩)
              have ordered := sortEntries_pairwise (tagged sources)
              rw [split, List.pairwise_append, List.pairwise_cons] at ordered
              rw [split] at inside
              rcases List.mem_append.mp inside with inFront | atOrBehind
              · exact absurd rfl (before _ inFront)
              · rcases List.mem_cons.mp atOrBehind with isSame | behind
                · cases isSame
                  omega
                · rcases ordered.2.1.1 _ behind with less' | ⟨_, later⟩
                  · exact absurd less' (lt_irrefl _)
                  · simp only at later
                    omega
            next => cases isPlace

/-- The first entry of a key in the sorted entries is that of the first table. -/
theorem lookup_sortEntries (sorted : ∀ table ∈ tables, Sorted table.iter) :
    ((sortEntries (taggedEntries tables)).map Prod.fst).lookup key =
      tables.findSome? fun table => table.iter.lookup key := by
  rw [taggedEntries_eq, lookup_sort_tagged (List.forall_mem_map.mpr sorted), List.findSome?_map]
  rfl

theorem compare_bytes_lt : ∀ {first second : Bytes}, compare first second = .lt → first < second
  | [], [], less => by cases less
  | [], _ :: _, _ => List.nil_lt_cons _ _
  | _ :: _, [], less => by cases less
  | head :: first, head' :: second, less => by
      rw [List.compare_cons_cons, Ordering.then_eq_lt] at less
      rw [List.cons_lt_cons_iff]
      rcases less with less | ⟨same, less⟩
      · exact .inl (compare_lt_iff_lt.mp less)
      · exact .inr ⟨compare_eq_iff_eq.mp same, compare_bytes_lt less⟩

/-- The entries of a map are sorted by their keys. -/
theorem sorted_toList (memory : FiniteMap Bytes (Option Bytes)) : Sorted memory.toList :=
  Std.ExtTreeMap.ordered_keys_toList.imp compare_bytes_lt

theorem mergeTables_sorted (dropTombstones : Bool) : Sorted (mergeTables tables dropTombstones) :=
  (sorted_toList _).sublist List.filter_sublist

/-- A merge keeps the entry of the first table that has one, but not a deletion that is dropped. -/
theorem lookup_mergeTables (sorted : ∀ table ∈ tables, Sorted table.iter) (dropTombstones : Bool) :
    (mergeTables tables dropTombstones).lookup key =
      (tables.findSome? fun table => table.iter.lookup key).filter fun value =>
        !dropTombstones || value.isSome := by
  apply Option.ext
  intro value
  rw [lookup_eq_some_iff (mergeTables_sorted dropTombstones).nodup, mergeTables, List.mem_filter,
    Std.ExtTreeMap.mem_toList_iff_getElem?_eq_some, getElem?_foldl_insertIfNew,
    lookup_sortEntries sorted, Option.filter_eq_some_iff]
  simp

end Merge

section Chunks

variable {α : Type} {size fuel : Nat} {list : List α}

theorem chunks_flatten (positive : 0 < size) (enough : list.length ≤ fuel) :
    (chunks size fuel list).flatten = list := by
  induction fuel generalizing list with
  | zero =>
      rw [List.eq_nil_of_length_eq_zero (Nat.le_zero.mp enough)]
      rfl
  | succ fuel ih =>
      cases list with
      | nil => rfl
      | cons first rest =>
          have shorter : ((first :: rest).drop size).length ≤ fuel := by
            rw [List.length_drop]
            omega
          rw [chunks, List.flatten_cons, ih shorter, List.take_append_drop]

theorem chunks_filled (positive : 0 < size) : ∀ chunk ∈ chunks size fuel list, chunk ≠ [] := by
  induction fuel generalizing list with
  | zero => simp [chunks]
  | succ fuel ih =>
      cases list with
      | nil => simp [chunks]
      | cons first rest =>
          rw [chunks, List.forall_mem_cons]
          refine ⟨?_, ih⟩
          obtain ⟨count, rfl⟩ := Nat.exists_eq_succ_of_ne_zero (Nat.ne_of_gt positive)
          simp

end Chunks

section Write

variable {hashing : Hashing} {level : Nat} {manifest : Manifest}

/-- The tables that are written get ids one after the other. -/
theorem writeChunks_eq (pieces : List (List Entry)) :
    writeChunks hashing level manifest pieces =
      ({ manifest with nextSstId := manifest.nextSstId + pieces.length },
        (pieces.zipIdx manifest.nextSstId).map fun (piece, id) =>
          writeTable hashing piece id level) := by
  induction pieces generalizing manifest with
  | nil => rfl
  | cons piece pieces ih =>
      dsimp only [writeChunks, Manifest.allocateSst]
      have count : manifest.nextSstId + 1 + pieces.length =
          manifest.nextSstId + (piece :: pieces).length := by
        rw [List.length_cons]
        omega
      rw [ih, List.zipIdx_cons, List.map_cons, ← count]

end Write

end JouleDB.Lsm
