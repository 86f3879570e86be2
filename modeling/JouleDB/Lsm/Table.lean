import JouleDB.Lib.Bytes
import JouleDB.Lib.AssocList
import Mathlib.Data.Finset.Basic
import Mathlib.Data.Finset.Union
import Mathlib.Order.Fin.Basic

/-!
# Sorted string tables

A table file holds entries in the order of their keys, cut into blocks, with an index of the first
keys of the blocks and a Bloom filter of all keys.  The hash functions of the filter, and the size
that it takes in the file, are parameters.
-/

namespace JouleDB.Lsm

/-- A key with its value, or with none if the key is deleted. -/
abbrev Entry := Bytes × Option Bytes

/-- The bits of a key and the length in bytes, for a filter of an expected number of keys. -/
structure Hashing where
  bits : Nat → Bytes → List Nat
  bytes : Nat → Nat

/-- A Bloom filter: the bits that are set. -/
structure BloomFilter where
  expected : Nat
  set : Finset Nat
  deriving DecidableEq

namespace BloomFilter

/-- An empty filter. -/
def new (expected : Nat) : BloomFilter := ⟨max expected 1, ∅⟩

/-- Set the bits of a key. -/
def insert (hashing : Hashing) (filter : BloomFilter) (key : Bytes) : BloomFilter :=
  { filter with set := filter.set ∪ (hashing.bits filter.expected key).toFinset }

/-- All bits of a key are set. -/
def mayContain (hashing : Hashing) (filter : BloomFilter) (key : Bytes) : Bool :=
  (hashing.bits filter.expected key).all (· ∈ filter.set)

theorem mayContain_insert {hashing : Hashing} {filter : BloomFilter} {key other : Bytes}
    (holds : key = other ∨ filter.mayContain hashing key = true) :
    (filter.insert hashing other).mayContain hashing key = true := by
  rw [mayContain, List.all_eq_true]
  intro bit member
  rw [decide_eq_true_eq]
  apply Finset.mem_union.mpr
  rcases holds with rfl | holds
  · exact .inr (List.mem_toFinset.mpr member)
  · exact .inl (of_decide_eq_true (List.all_eq_true.mp holds bit member))

end BloomFilter

/-- A table file. -/
structure SSTable where
  blocks : List (List Entry)
  bloom : BloomFilter
  deriving DecidableEq

/-- What the manifest tells of a table file. -/
structure SSTableMeta where
  id : Nat
  level : Nat
  firstKey : Bytes
  lastKey : Bytes
  entryCount : Nat
  sizeBytes : Nat
  deriving DecidableEq

def defaultBlockSize : Nat := 4096

/-- The bytes that an entry takes in a block. -/
def entrySize (entry : Entry) : Nat :=
  4 + entry.1.length + 1 + (entry.2.map fun value => 4 + value.length).getD 0

/-- The bytes of a block. -/
def blockSize (block : List Entry) : Nat := (block.map entrySize).sum

/-- The first key of a block. -/
def firstKeyOf (block : List Entry) : Bytes := (block.head?.map Prod.fst).getD []

/-- A table file that is being written. -/
structure SSTableWriter where
  bloom : BloomFilter
  blocks : List (List Entry)
  currentBlock : List Entry
  firstKey : Option Bytes
  lastKey : Option Bytes
  entryCount : Nat

namespace SSTableWriter

def new (expectedEntries : Nat) : SSTableWriter := ⟨.new expectedEntries, [], [], none, none, 0⟩

/-- End the current block. -/
def flushBlock (writer : SSTableWriter) : SSTableWriter :=
  if writer.currentBlock = [] then
    writer
  else
    { writer with blocks := writer.blocks ++ [writer.currentBlock], currentBlock := [] }

/-- Add an entry. -/
def add (hashing : Hashing) (writer : SSTableWriter) (entry : Entry) : SSTableWriter :=
  let writer := { writer with
    bloom := writer.bloom.insert hashing entry.1
    firstKey := if writer.firstKey = none then some entry.1 else writer.firstKey
    lastKey := some entry.1
    entryCount := writer.entryCount + 1
    currentBlock := writer.currentBlock ++ [entry] }
  if defaultBlockSize ≤ blockSize writer.currentBlock then writer.flushBlock else writer

/-- The size of the file: blocks, index, filter and footer. -/
def fileSize (hashing : Hashing) (writer : SSTableWriter) : Nat :=
  (writer.blocks.map blockSize).sum +
    (4 + (writer.blocks.map fun block => 4 + (firstKeyOf block).length + 8 + 4).sum) +
    (4 + hashing.bytes writer.bloom.expected) + 28

/-- End the file. -/
def finish (hashing : Hashing) (writer : SSTableWriter) (id level : Nat) :
    SSTableMeta × SSTable :=
  let writer := writer.flushBlock
  (⟨id, level, writer.firstKey.getD [], writer.lastKey.getD [], writer.entryCount,
      writer.fileSize hashing⟩,
    ⟨writer.blocks, writer.bloom⟩)

end SSTableWriter

/-- Write entries to a table file. -/
def writeTable (hashing : Hashing) (entries : List Entry) (id level : Nat) :
    SSTableMeta × SSTable :=
  (entries.foldl (SSTableWriter.add hashing) (.new entries.length)).finish hashing id level

/-- The position of a key among sorted keys, or the position where it would be. -/
def binarySearch (keys : List Bytes) (key : Bytes) : Except Nat Nat :=
  let position := (keys.takeWhile (· < key)).length
  if keys[position]? = some key then .ok position else .error position

namespace SSTable

/-- The first keys of the blocks. -/
def index (table : SSTable) : List Bytes := table.blocks.map firstKeyOf

/-- Look for a key in a block, up to the first greater one. -/
def searchBlock (key : Bytes) : List Entry → Option (Option Bytes)
  | [] => none
  | (other, value) :: block =>
      if other = key then some value else if key < other then none else searchBlock key block

/-- Look for a key in a table. -/
def get (hashing : Hashing) (table : SSTable) (key : Bytes) : Option (Option Bytes) :=
  if table.bloom.mayContain hashing key then
    match binarySearch table.index key with
    | .ok position => searchBlock key (table.blocks[position]?.getD [])
    | .error 0 => none
    | .error (position + 1) => searchBlock key (table.blocks[position]?.getD [])
  else
    none

/-- All entries of a table. -/
def iter (table : SSTable) : List Entry := table.blocks.flatten

end SSTable

/-- Entries in the order of their keys. -/
def Sorted (entries : List Entry) : Prop := entries.Pairwise fun first second => first.1 < second.1

/-- A table file that holds sorted entries as the writer leaves them. -/
structure SSTable.Valid (hashing : Hashing) (table : SSTable) : Prop where
  sorted : Sorted table.iter
  filled : ∀ block ∈ table.blocks, block ≠ []
  bloom : ∀ entry ∈ table.iter, table.bloom.mayContain hashing entry.1 = true

section Reading

variable {hashing : Hashing} {table : SSTable} {key : Bytes} {block : List Entry}

theorem Sorted.nodup {entries : List Entry} (sorted : Sorted entries) :
    (entries.map Prod.fst).Nodup := by
  apply List.pairwise_map.mpr
  exact sorted.imp fun less => ne_of_lt less

theorem lookup_eq_none_of_forall {entries : List Entry} (absent : ∀ entry ∈ entries, entry.1 ≠ key) :
    entries.lookup key = none := by
  rw [List.lookup_eq_none_iff]
  intro entry member
  exact bne_iff_ne.mpr fun equal => absent entry member equal.symm

theorem searchBlock_eq_lookup (sorted : Sorted block) :
    SSTable.searchBlock key block = block.lookup key := by
  induction block with
  | nil => rfl
  | cons entry block ih =>
      obtain ⟨less, sorted⟩ := List.pairwise_cons.mp sorted
      rw [SSTable.searchBlock, lookup_cons_ite]
      by_cases same : entry.1 = key
      · rw [if_pos same, if_pos same.symm]
      · rw [if_neg same, if_neg (Ne.symm same)]
        split
        next before =>
          rw [lookup_eq_none_of_forall]
          intro other member
          exact ne_of_gt (before.trans (less other member))
        next => exact ih sorted

theorem firstKeyOf_mem (filled : block ≠ []) : ∃ value, (firstKeyOf block, value) ∈ block := by
  cases block with
  | nil => exact absurd rfl filled
  | cons entry block => exact ⟨entry.2, List.mem_cons_self⟩

theorem firstKeyOf_le (sorted : Sorted block) {entry : Entry} (member : entry ∈ block) :
    firstKeyOf block ≤ entry.1 := by
  cases block with
  | nil => exact absurd member List.not_mem_nil
  | cons first block =>
      rcases List.mem_cons.mp member with rfl | later
      · exact le_refl _
      · exact le_of_lt ((List.pairwise_cons.mp sorted).1 entry later)

/-- A key that only one block can hold is looked up in that block. -/
theorem lookup_iter_of_block {front back : List (List Entry)}
    (split : table.blocks = front ++ block :: back)
    (before : ∀ other ∈ front, ∀ entry ∈ other, entry.1 ≠ key)
    (after : ∀ other ∈ back, ∀ entry ∈ other, entry.1 ≠ key) :
    table.iter.lookup key = block.lookup key := by
  have none : ∀ blocks : List (List Entry), (∀ other ∈ blocks, ∀ entry ∈ other, entry.1 ≠ key) →
      blocks.flatten.lookup key = none := by
    intro blocks absent
    apply lookup_eq_none_of_forall
    intro entry member
    obtain ⟨other, holds, inside⟩ := List.mem_flatten.mp member
    exact absent other holds entry inside
  rw [SSTable.iter, split, List.flatten_append, List.flatten_cons, List.lookup_append,
    List.lookup_append, none front before, none back after]
  simp

/-- The blocks in front of a position, the block there, and those behind it. -/
theorem SSTable.Valid.blocks_sorted (valid : table.Valid hashing) :
    (∀ block ∈ table.blocks, Sorted block) ∧
      table.blocks.Pairwise fun first second =>
        ∀ entry ∈ first, ∀ other ∈ second, entry.1 < other.1 :=
  List.pairwise_flatten.mp valid.sorted

/-- The block that the index leads to is the only one that can hold the key. -/
theorem SSTable.Valid.searchBlock_eq (valid : table.Valid hashing) {front back : List (List Entry)}
    (split : table.blocks = front ++ block :: back) (reached : firstKeyOf block ≤ key)
    (passed : ∀ next ∈ back, key < firstKeyOf next) :
    SSTable.searchBlock key block = table.iter.lookup key := by
  obtain ⟨sorted, ordered⟩ := valid.blocks_sorted
  have member : block ∈ table.blocks := by
    rw [split]
    exact List.mem_append_right _ List.mem_cons_self
  rw [searchBlock_eq_lookup (sorted block member), lookup_iter_of_block split]
  · intro other holds entry inside
    rw [split, List.pairwise_append] at ordered
    obtain ⟨value, first⟩ := firstKeyOf_mem (valid.filled block member)
    exact ne_of_lt
      ((ordered.2.2 other holds block List.mem_cons_self entry inside _ first).trans_le reached)
  · intro next holds entry inside
    have listed : next ∈ table.blocks := by
      rw [split]
      exact List.mem_append_right _ (List.mem_cons_of_mem _ holds)
    exact ne_of_gt ((passed next holds).trans_le (firstKeyOf_le (sorted next listed) inside))

theorem lt_of_takeWhile {keys : List Bytes} {position : Nat} {first : Bytes}
    (bound : position < (keys.takeWhile (· < key)).length)
    (found : keys[position]? = some first) : first < key := by
  induction keys generalizing position with
  | nil => cases found
  | cons head keys ih =>
      by_cases less : head < key
      · rw [List.takeWhile_cons_of_pos (by simpa using less)] at bound
        cases position with
        | zero =>
            cases found
            exact less
        | succ position => exact ih (Nat.lt_of_succ_lt_succ bound) found
      · rw [List.takeWhile_cons_of_neg (by simpa using less)] at bound
        exact absurd bound (Nat.not_lt_zero _)

theorem not_lt_of_takeWhile {keys : List Bytes} {first : Bytes}
    (found : keys[(keys.takeWhile (· < key)).length]? = some first) : ¬first < key := by
  induction keys with
  | nil => cases found
  | cons head keys ih =>
      by_cases less : head < key
      · rw [List.takeWhile_cons_of_pos (by simpa using less)] at found
        exact ih found
      · rw [List.takeWhile_cons_of_neg (by simpa using less)] at found
        cases found
        exact less

theorem SSTable.Valid.index_sorted (valid : table.Valid hashing) :
    table.index.Pairwise (· < ·) := by
  apply List.pairwise_map.mpr
  apply valid.blocks_sorted.2.imp_of_mem
  intro first second isFirst isSecond ordered
  obtain ⟨_, one⟩ := firstKeyOf_mem (valid.filled first isFirst)
  obtain ⟨_, two⟩ := firstKeyOf_mem (valid.filled second isSecond)
  exact ordered _ one _ two

/-- All blocks from a position on start behind the key if the one there does. -/
theorem SSTable.Valid.lt_firstKeyOf (valid : table.Valid hashing) {position : Nat}
    (head : ∀ first, table.index[position]? = some first → key < first) :
    ∀ next ∈ table.blocks.drop position, key < firstKeyOf next := by
  intro next member
  have listed : firstKeyOf next ∈ table.index.drop position := by
    rw [SSTable.index, ← List.map_drop]
    exact List.mem_map_of_mem member
  have sorted := valid.index_sorted.sublist (List.drop_sublist position table.index)
  cases rest : table.index.drop position with
  | nil =>
      rw [rest] at listed
      cases listed
  | cons first others =>
      have isFirst : table.index[position]? = some first := by
        rw [← List.head?_drop, rest, List.head?_cons]
      rw [rest] at listed sorted
      rcases List.mem_cons.mp listed with same | later
      · rw [same]
        exact head first isFirst
      · exact (head first isFirst).trans ((List.pairwise_cons.mp sorted).1 _ later)

/-- A block that the index leads to is searched. -/
theorem SSTable.Valid.searchBlock_at (valid : table.Valid hashing) {position : Nat} {first : Bytes}
    (found : table.index[position]? = some first) (reached : first ≤ key)
    (passed : ∀ next, table.index[position + 1]? = some next → key < next) :
    SSTable.searchBlock key (table.blocks[position]?.getD []) = table.iter.lookup key := by
  rw [SSTable.index, List.getElem?_map, Option.map_eq_some_iff] at found
  obtain ⟨block, isBlock, rfl⟩ := found
  obtain ⟨bound, same⟩ := List.getElem?_eq_some_iff.mp isBlock
  have split : table.blocks =
      table.blocks.take position ++ block :: table.blocks.drop (position + 1) := by
    rw [← same, ← List.drop_eq_getElem_cons bound, List.take_append_drop]
  rw [isBlock, Option.getD_some]
  exact valid.searchBlock_eq split reached (valid.lt_firstKeyOf passed)

theorem SSTable.Valid.get_eq (valid : table.Valid hashing) (key : Bytes) :
    table.get hashing key = table.iter.lookup key := by
  rw [SSTable.get]
  split
  next may =>
    generalize searched : binarySearch table.index key = result
    rw [binarySearch] at searched
    split at searched
    next found =>
      rw [← searched]
      apply valid.searchBlock_at found (le_refl _)
      intro next isNext
      obtain ⟨bound, isKey⟩ := List.getElem?_eq_some_iff.mp found
      obtain ⟨bound', isNext⟩ := List.getElem?_eq_some_iff.mp isNext
      rw [← isKey, ← isNext]
      exact List.pairwise_iff_getElem.mp valid.index_sorted _ _ bound bound' (Nat.lt_succ_self _)
    next apart =>
      have behind : ∀ first,
          table.index[(table.index.takeWhile (· < key)).length]? = some first → key < first := by
        intro first found
        apply lt_of_le_of_ne (not_lt.mp (not_lt_of_takeWhile found))
        rintro rfl
        exact apart found
      rw [← searched]
      cases position : (table.index.takeWhile (· < key)).length with
      | zero =>
          rw [position] at behind
          symm
          apply lookup_eq_none_of_forall
          intro entry member
          obtain ⟨block, holds, inside⟩ := List.mem_flatten.mp member
          have less := valid.lt_firstKeyOf behind block (by simpa using holds)
          exact ne_of_gt
            (less.trans_le (firstKeyOf_le (valid.blocks_sorted.1 block holds) inside))
      | succ previous =>
          rw [position] at behind
          have bound : previous < (table.index.takeWhile (· < key)).length := by omega
          have within : previous < table.index.length :=
            bound.trans_le (List.takeWhile_sublist _).length_le
          have found := List.getElem?_eq_getElem within
          exact valid.searchBlock_at found (le_of_lt (lt_of_takeWhile bound found)) behind
  next misses =>
    symm
    apply lookup_eq_none_of_forall
    rintro entry member rfl
    exact misses (valid.bloom entry member)

end Reading

section Writing

variable {hashing : Hashing} {writer : SSTableWriter} {entries : List Entry}

/-- A writer to which entries have been added. -/
structure SSTableWriter.Holds (hashing : Hashing) (writer : SSTableWriter) (entries : List Entry) :
    Prop where
  all : writer.blocks.flatten ++ writer.currentBlock = entries
  filled : ∀ block ∈ writer.blocks, block ≠ []
  bloom : ∀ entry ∈ entries, writer.bloom.mayContain hashing entry.1 = true
  first : writer.firstKey = entries.head?.map Prod.fst
  last : writer.lastKey = entries.getLast?.map Prod.fst

theorem SSTableWriter.Holds.flushBlock (holds : writer.Holds hashing entries) :
    writer.flushBlock.Holds hashing entries ∧ writer.flushBlock.currentBlock = [] := by
  rw [SSTableWriter.flushBlock]
  split
  next empty => exact ⟨holds, empty⟩
  next filled =>
    refine ⟨⟨?_, ?_, holds.bloom, holds.first, holds.last⟩, rfl⟩
    · simpa using holds.all
    · intro block member
      rcases List.mem_append.mp member with old | new
      · exact holds.filled block old
      · rw [List.mem_singleton.mp new]
        exact filled

theorem SSTableWriter.Holds.add (holds : writer.Holds hashing entries) (entry : Entry) :
    (writer.add hashing entry).Holds hashing (entries ++ [entry]) := by
  have added : SSTableWriter.Holds hashing { writer with
      bloom := writer.bloom.insert hashing entry.1
      firstKey := if writer.firstKey = none then some entry.1 else writer.firstKey
      lastKey := some entry.1
      entryCount := writer.entryCount + 1
      currentBlock := writer.currentBlock ++ [entry] } (entries ++ [entry]) := by
    constructor
    · rw [← List.append_assoc, holds.all]
    · exact holds.filled
    · intro other member
      apply BloomFilter.mayContain_insert
      rcases List.mem_append.mp member with old | new
      · exact .inr (holds.bloom other old)
      · rw [List.mem_singleton.mp new]
        exact .inl rfl
    · dsimp only
      rw [holds.first]
      cases entries with
      | nil => rfl
      | cons head rest => rfl
    · simp
  dsimp only [SSTableWriter.add]
  split
  · exact added.flushBlock.1
  · exact added

theorem SSTableWriter.Holds.foldl (holds : writer.Holds hashing entries) (more : List Entry) :
    (more.foldl (SSTableWriter.add hashing) writer).Holds hashing (entries ++ more) := by
  induction more generalizing writer entries with
  | nil => simpa using holds
  | cons entry more ih =>
      have added := ih (holds.add entry)
      rwa [List.append_assoc] at added

/-- A table file with what the manifest tells of it. -/
structure SSTableMeta.Describes (hashing : Hashing) (info : SSTableMeta) (table : SSTable) :
    Prop where
  valid : table.Valid hashing
  first : table.iter.head?.map Prod.fst = some info.firstKey
  last : table.iter.getLast?.map Prod.fst = some info.lastKey

theorem writeTable_describes (hashing : Hashing) (sorted : Sorted entries) (filled : entries ≠ [])
    (id level : Nat) :
    (writeTable hashing entries id level).1.Describes hashing
        (writeTable hashing entries id level).2 ∧
      (writeTable hashing entries id level).2.iter = entries := by
  have start : (SSTableWriter.new entries.length).Holds hashing [] :=
    ⟨rfl, by simp [SSTableWriter.new], by simp, rfl, rfl⟩
  obtain ⟨holds, empty⟩ := (start.foldl entries).flushBlock
  have same : (writeTable hashing entries id level).2.iter = entries := by
    have all := holds.all
    rw [empty, List.append_nil] at all
    exact all
  have isFirst := holds.first
  have isLast := holds.last
  rw [List.nil_append] at isFirst isLast
  have head := List.head?_eq_some_head filled
  have last := List.getLast?_eq_some_getLast filled
  refine ⟨⟨⟨by rwa [same], holds.filled, ?_⟩, ?_, ?_⟩, same⟩
  · rw [same]
    exact holds.bloom
  · rw [same]
    dsimp only [writeTable, SSTableWriter.finish]
    rw [isFirst, head]
    rfl
  · rw [same]
    dsimp only [writeTable, SSTableWriter.finish]
    rw [isLast, last]
    rfl

end Writing

section Range

variable {hashing : Hashing} {info : SSTableMeta} {table : SSTable}

theorem head?_le {entries : List Entry} (sorted : Sorted entries) {first : Bytes}
    (isFirst : entries.head?.map Prod.fst = some first) {entry : Entry} (member : entry ∈ entries) :
    first ≤ entry.1 := by
  cases entries with
  | nil => cases isFirst
  | cons head rest =>
      cases isFirst
      rcases List.mem_cons.mp member with rfl | later
      · exact le_refl _
      · exact le_of_lt ((List.pairwise_cons.mp sorted).1 entry later)

theorem le_getLast? {entries : List Entry} (sorted : Sorted entries) {last : Bytes}
    (isLast : entries.getLast?.map Prod.fst = some last) {entry : Entry}
    (member : entry ∈ entries) : entry.1 ≤ last := by
  induction entries using List.reverseRecOn with
  | nil => cases isLast
  | append_singleton entries final _ =>
      rw [List.getLast?_concat] at isLast
      cases isLast
      rcases List.mem_append.mp member with early | isFinal
      · exact le_of_lt ((List.pairwise_append.mp sorted).2.2 entry early final (by simp))
      · rw [List.mem_singleton.mp isFinal]

/-- The keys of a table are in the range that the manifest tells. -/
theorem SSTableMeta.Describes.range (describes : info.Describes hashing table) {entry : Entry}
    (member : entry ∈ table.iter) : info.firstKey ≤ entry.1 ∧ entry.1 ≤ info.lastKey :=
  ⟨head?_le describes.valid.sorted describes.first member,
    le_getLast? describes.valid.sorted describes.last member⟩

theorem SSTableMeta.Describes.lookup_eq_none (describes : info.Describes hashing table)
    {key : Bytes} (outside : key < info.firstKey ∨ info.lastKey < key) :
    table.iter.lookup key = none := by
  apply lookup_eq_none_of_forall
  rintro entry member rfl
  obtain ⟨first, last⟩ := describes.range member
  rcases outside with below | above
  · exact absurd below (not_lt.mpr first)
  · exact absurd above (not_lt.mpr last)

end Range

end JouleDB.Lsm
