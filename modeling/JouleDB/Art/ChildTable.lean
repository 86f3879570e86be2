import JouleDB.Lib.AssocList
import JouleDB.Lib.Bytes
import Mathlib.Data.Fintype.Card
import Mathlib.Data.List.FinRange

/-!
# Child tables of the adaptive radix tree

An inner node keeps its children in one of four layouts, by their number.  The two small layouts
hold the key bytes in a sorted array beside the children, the third maps every byte to one of 48
slots, and the last has a slot for every byte.  Whatever the layout, a table stands for a partial
function from bytes to children: every operation is described by what it does to `findChild`.
-/

namespace JouleDB.Art

/-- The layouts of an inner node.  Of the fixed arrays of the two small ones only the used part is
kept. -/
inductive Layout (α : Type) where
  | node4 (slots : List (Byte × α))
  | node16 (slots : List (Byte × α))
  /-- The index 255 of an empty entry is `none`. -/
  | node48 (numChildren : Nat) (childIndex : Byte → Option (Fin 48)) (children : Fin 48 → Option α)
  | node256 (numChildren : Nat) (children : Byte → Option α)

/-! ## Sorted slots -/

section Slots

variable {α : Type}

/-- Insert a slot before the first one with a larger byte. -/
def insertSlot : List (Byte × α) → Byte → α → List (Byte × α)
  | [], byte, child => [(byte, child)]
  | (other, old) :: rest, byte, child =>
      if byte < other then (byte, child) :: (other, old) :: rest
      else (other, old) :: insertSlot rest byte child

/-- Overwrite the child of the first slot of a byte. -/
def writeSlot : List (Byte × α) → Byte → α → List (Byte × α)
  | [], _, _ => []
  | (other, old) :: rest, byte, child =>
      if other = byte then (other, child) :: rest else (other, old) :: writeSlot rest byte child

/-- Remove the first slot of a byte. -/
def removeSlot : List (Byte × α) → Byte → List (Byte × α)
  | [], _ => []
  | (other, old) :: rest, byte =>
      if other = byte then rest else (other, old) :: removeSlot rest byte

/-- The bytes of the slots increase. -/
def Ascending (slots : List (Byte × α)) : Prop :=
  slots.Pairwise fun first second => first.1 < second.1

theorem Ascending.nodup {slots : List (Byte × α)} (ascending : Ascending slots) :
    (slots.map Prod.fst).Nodup :=
  (List.pairwise_map.mpr ascending).imp fun less => ne_of_lt less

theorem lookup_eq_none_of_lt {slots : List (Byte × α)} {byte : Byte}
    (below : ∀ slot ∈ slots, byte < slot.1) : slots.lookup byte = none := by
  rw [List.lookup_eq_none_iff]
  intro slot member
  exact bne_iff_ne.mpr (ne_of_lt (below slot member))

theorem lookup_eq_findIdx (slots : List (Byte × α)) (byte : Byte) :
    slots.lookup byte = slots[slots.findIdx fun slot => slot.1 = byte]?.map Prod.snd := by
  induction slots with
  | nil => rfl
  | cons head rest ih =>
      rw [lookup_cons_ite, List.findIdx_cons]
      by_cases here : head.1 = byte
      · simp [here]
      · simp [here, Ne.symm here, ih]

theorem mem_insertSlot {slots : List (Byte × α)} {byte : Byte} {child : α} {slot : Byte × α} :
    slot ∈ insertSlot slots byte child ↔ slot = (byte, child) ∨ slot ∈ slots := by
  induction slots with
  | nil => simp [insertSlot]
  | cons head rest ih =>
      obtain ⟨other, old⟩ := head
      rw [insertSlot]
      split
      · exact List.mem_cons
      · rw [List.mem_cons, ih, List.mem_cons]
        tauto

theorem ascending_insertSlot {slots : List (Byte × α)} (ascending : Ascending slots) {byte : Byte}
    (absent : slots.lookup byte = none) (child : α) : Ascending (insertSlot slots byte child) := by
  induction slots with
  | nil => exact List.pairwise_singleton _ _
  | cons head rest ih =>
      obtain ⟨other, old⟩ := head
      obtain ⟨below, ascending⟩ := List.pairwise_cons.mp ascending
      rw [lookup_cons_ite] at absent
      split at absent
      next => cases absent
      next apart =>
        rw [insertSlot]
        split
        next less =>
          refine List.pairwise_cons.mpr ⟨fun slot member => ?_, List.pairwise_cons.mpr ⟨below, ascending⟩⟩
          rcases List.mem_cons.mp member with rfl | later
          · exact less
          · exact less.trans (below slot later)
        next notLess =>
          have less : other < byte := lt_of_le_of_ne (not_lt.mp notLess) (Ne.symm apart)
          refine List.pairwise_cons.mpr ⟨fun slot member => ?_, ih ascending absent⟩
          rcases mem_insertSlot.mp member with rfl | later
          · exact less
          · exact below slot later

theorem lookup_insertSlot {slots : List (Byte × α)} {byte : Byte}
    (absent : slots.lookup byte = none) (child : α) (other : Byte) :
    (insertSlot slots byte child).lookup other =
      if other = byte then some child else slots.lookup other := by
  induction slots with
  | nil => simp [insertSlot, lookup_cons_ite]
  | cons head rest ih =>
      obtain ⟨first, old⟩ := head
      rw [lookup_cons_ite] at absent
      split at absent
      next => cases absent
      next apart =>
        rw [insertSlot]
        split
        · rw [lookup_cons_ite]
        · rw [lookup_cons_ite, ih absent, lookup_cons_ite]
          by_cases isFirst : other = first
          · rw [if_pos isFirst, if_neg fun same => apart (same.symm.trans isFirst), if_pos isFirst]
          · rw [if_neg isFirst, if_neg isFirst]

theorem keys_writeSlot (slots : List (Byte × α)) (byte : Byte) (child : α) :
    (writeSlot slots byte child).map Prod.fst = slots.map Prod.fst := by
  induction slots with
  | nil => rfl
  | cons head rest ih =>
      rw [writeSlot]
      split
      · rfl
      · rw [List.map_cons, ih, List.map_cons]

theorem ascending_writeSlot {slots : List (Byte × α)} (ascending : Ascending slots) (byte : Byte)
    (child : α) : Ascending (writeSlot slots byte child) := by
  have keys : (slots.map Prod.fst).Pairwise (· < ·) := List.pairwise_map.mpr ascending
  rw [← keys_writeSlot slots byte child] at keys
  exact List.pairwise_map.mp keys

theorem lookup_writeSlot {slots : List (Byte × α)} {byte : Byte}
    (present : (slots.lookup byte).isSome) (child : α) (other : Byte) :
    (writeSlot slots byte child).lookup other =
      if other = byte then some child else slots.lookup other := by
  induction slots with
  | nil => cases present
  | cons head rest ih =>
      obtain ⟨first, old⟩ := head
      rw [writeSlot]
      split
      next same =>
        subst same
        rw [lookup_cons_ite, lookup_cons_ite]
        split <;> rfl
      next apart =>
        rw [lookup_cons_ite, if_neg (Ne.symm apart)] at present
        rw [lookup_cons_ite, ih present, lookup_cons_ite]
        by_cases isFirst : other = first
        · rw [if_pos isFirst, if_neg fun same => apart (isFirst.symm.trans same), if_pos isFirst]
        · rw [if_neg isFirst, if_neg isFirst]

theorem sublist_removeSlot (slots : List (Byte × α)) (byte : Byte) :
    (removeSlot slots byte).Sublist slots := by
  induction slots with
  | nil => exact List.Sublist.slnil
  | cons head rest ih =>
      rw [removeSlot]
      split
      · exact List.sublist_cons_self _ _
      · exact ih.cons_cons _

theorem lookup_removeSlot {slots : List (Byte × α)} (ascending : Ascending slots) (byte other : Byte) :
    (removeSlot slots byte).lookup other = if other = byte then none else slots.lookup other := by
  induction slots with
  | nil => simp [removeSlot]
  | cons head rest ih =>
      obtain ⟨first, old⟩ := head
      obtain ⟨below, ascending⟩ := List.pairwise_cons.mp ascending
      rw [removeSlot]
      split
      next same =>
        subst same
        rw [lookup_cons_ite]
        split
        next isFirst => rw [isFirst, lookup_eq_none_of_lt below]
        next => rfl
      next apart =>
        rw [lookup_cons_ite, ih ascending, lookup_cons_ite]
        by_cases isFirst : other = first
        · rw [if_pos isFirst, if_neg fun same => apart (isFirst.symm.trans same), if_pos isFirst]
        · rw [if_neg isFirst, if_neg isFirst]

end Slots

/-! ## Partial functions from bytes -/

section Occupancy

variable {α : Type} {children : Byte → Option α} {byte : Byte}

/-- The number of bytes that have a child. -/
def occupancy (children : Byte → Option α) : Nat :=
  (Finset.univ.filter fun byte => (children byte).isSome).card

theorem occupancy_insert (absent : children byte = none) (child : α) :
    occupancy (Function.update children byte (some child)) = occupancy children + 1 := by
  rw [occupancy, occupancy, ← Finset.card_insert_of_notMem (a := byte) (by simp [absent])]
  congr 1
  ext other
  rcases eq_or_ne other byte with rfl | apart
  · simp
  · simp [apart]

theorem occupancy_replace (present : (children byte).isSome) (child : α) :
    occupancy (Function.update children byte (some child)) = occupancy children := by
  rw [occupancy, occupancy]
  congr 1
  ext other
  rcases eq_or_ne other byte with rfl | apart
  · simp [present]
  · simp [apart]

theorem occupancy_erase (present : (children byte).isSome) :
    occupancy (Function.update children byte none) + 1 = occupancy children := by
  have member : byte ∈ Finset.univ.filter fun byte => (children byte).isSome := by
    simpa using present
  rw [occupancy, occupancy, ← Finset.card_erase_add_one member]
  congr 2
  ext other
  rcases eq_or_ne other byte with rfl | apart
  · simp
  · simp [apart]

theorem occupancy_lookup {slots : List (Byte × α)} (ascending : Ascending slots) :
    (occupancy fun byte => slots.lookup byte) = slots.length := by
  rw [occupancy, ← slots.length_map Prod.fst, ← List.toFinset_card_of_nodup ascending.nodup]
  congr 1
  ext byte
  rw [Finset.mem_filter, List.mem_toFinset, isSome_lookup_iff]
  simp

/-- The entries of a partial function, in the order of their bytes. -/
def entriesOf (children : Byte → Option α) : List (Byte × α) :=
  (List.finRange 256).filterMap fun byte => (children byte).map (Prod.mk byte)

theorem mem_entriesOf {child : α} : (byte, child) ∈ entriesOf children ↔ children byte = some child := by
  rw [entriesOf, List.mem_filterMap]
  constructor
  · rintro ⟨other, -, found⟩
    obtain ⟨_, held, same⟩ := Option.map_eq_some_iff.mp found
    cases same
    exact held
  · intro held
    exact ⟨byte, List.mem_finRange byte, by rw [held]; rfl⟩

theorem ascending_entriesOf (children : Byte → Option α) : Ascending (entriesOf children) := by
  refine List.Pairwise.filterMap _ ?_ (List.pairwise_lt_finRange 256)
  intro first second less one isOne two isTwo
  obtain ⟨_, -, rfl⟩ := Option.map_eq_some_iff.mp isOne
  obtain ⟨_, -, rfl⟩ := Option.map_eq_some_iff.mp isTwo
  exact less

theorem lookup_entriesOf (children : Byte → Option α) (byte : Byte) :
    (entriesOf children).lookup byte = children byte := by
  refine Option.ext fun child => ?_
  rw [lookup_eq_some_iff (ascending_entriesOf children).nodup, mem_entriesOf]

theorem length_entriesOf (children : Byte → Option α) :
    (entriesOf children).length = occupancy children := by
  rw [← occupancy_lookup (ascending_entriesOf children)]
  simp only [lookup_entriesOf]

theorem occupancy_eq_countP (children : Byte → Option α) :
    occupancy children = (List.finRange 256).countP fun byte => (children byte).isSome := by
  rw [← length_entriesOf, entriesOf, List.length_filterMap_eq_countP]
  simp only [Option.isSome_map]

end Occupancy

namespace Layout

variable {α : Type}

def findChild : Layout α → Byte → Option α
  | node4 slots, byte => slots.lookup byte
  | node16 slots, byte => slots.lookup byte
  | node48 _ childIndex children, byte => (childIndex byte).bind children
  | node256 _ children, byte => children byte

def numChildren : Layout α → Nat
  | node4 slots => slots.length
  | node16 slots => slots.length
  | node48 numChildren _ _ => numChildren
  | node256 numChildren _ => numChildren

/-- Add a child.  The caller makes room first. -/
def addChild : Layout α → Byte → α → Layout α
  | node4 slots, byte, child => node4 (insertSlot slots byte child)
  | node16 slots, byte, child => node16 (insertSlot slots byte child)
  | node48 numChildren childIndex children, byte, child =>
      match (List.finRange 48).find? fun slot => (children slot).isNone with
      | some slot =>
          node48 (numChildren + 1) (Function.update childIndex byte (some slot))
            (Function.update children slot (some child))
      | none => node48 numChildren childIndex children
  | node256 numChildren children, byte, child =>
      node256 (numChildren + 1) (Function.update children byte (some child))

/-- Write the child of a byte through the pointer that `find_child_mut` gives. -/
def setChild : Layout α → Byte → α → Layout α
  | node4 slots, byte, child => node4 (writeSlot slots byte child)
  | node16 slots, byte, child => node16 (writeSlot slots byte child)
  | node48 numChildren childIndex children, byte, child =>
      match childIndex byte with
      | some slot => node48 numChildren childIndex (Function.update children slot (some child))
      | none => node48 numChildren childIndex children
  | node256 numChildren children, byte, child =>
      node256 numChildren (Function.update children byte (some child))

def removeChild : Layout α → Byte → Layout α
  | node4 slots, byte => node4 (removeSlot slots byte)
  | node16 slots, byte => node16 (removeSlot slots byte)
  | node48 numChildren childIndex children, byte =>
      match childIndex byte with
      | some slot =>
          node48 (numChildren - 1) (Function.update childIndex byte none)
            (Function.update children slot none)
      | none => node48 numChildren childIndex children
  | node256 numChildren children, byte =>
      if (children byte).isSome then
        node256 (numChildren - 1) (Function.update children byte none)
      else node256 numChildren children

/-- The children in the order of their bytes. -/
def childrenSorted : Layout α → List (Byte × α)
  | node4 slots => slots
  | node16 slots => slots
  | node48 _ childIndex children =>
      (List.finRange 256).filterMap fun byte =>
        ((childIndex byte).bind children).map (Prod.mk byte)
  | node256 _ children =>
      (List.finRange 256).filterMap fun byte => (children byte).map (Prod.mk byte)

/-- The slot that a byte gets when 48 slots are filled in order. -/
def firstSlot (slots : List (Byte × α)) (byte : Byte) : Option (Fin 48) :=
  let position := slots.findIdx fun slot => slot.1 = byte
  if used : position < slots.length ∧ position < 48 then some ⟨position, used.2⟩ else none

/-- A table of 48 slots that holds the given children in its first slots. -/
def fill48 (numChildren : Nat) (slots : List (Byte × α)) : Layout α :=
  node48 numChildren (firstSlot slots) fun slot => slots[slot.val]?.map Prod.snd

def shouldGrow : Layout α → Bool
  | node4 slots => 4 ≤ slots.length
  | node16 slots => 16 ≤ slots.length
  | node48 numChildren _ _ => 48 ≤ numChildren
  | node256 _ _ => false

def shouldShrink : Layout α → Bool
  | node4 _ => false
  | node16 slots => slots.length ≤ 4
  | node48 numChildren _ _ => numChildren ≤ 16
  | node256 numChildren _ => numChildren ≤ 48

def grow : Layout α → Layout α
  | node4 slots => node16 slots
  | node16 slots => fill48 slots.length slots
  | node48 _ childIndex children =>
      node256 ((List.finRange 256).countP fun byte => (childIndex byte).isSome)
        fun byte => (childIndex byte).bind children
  | node256 numChildren children => node256 numChildren children

def shrink : Layout α → Layout α
  | node4 slots => node4 slots
  | node16 slots => node4 slots
  | node48 numChildren childIndex children =>
      node16 (node48 numChildren childIndex children).childrenSorted
  | node256 numChildren children =>
      fill48 numChildren (node256 numChildren children).childrenSorted

/-! ## Well-formed tables -/

/-- A byte index and the slots that it points into. -/
structure Indexed (childIndex : Byte → Option (Fin 48)) (children : Fin 48 → Option α) : Prop where
  filled : ∀ byte slot, childIndex byte = some slot → (children slot).isSome
  separate : ∀ byte other slot, childIndex byte = some slot → childIndex other = some slot → byte = other
  covered : ∀ slot, (children slot).isSome → ∃ byte, childIndex byte = some slot

/-- What every operation keeps: the small layouts are sorted, the indexed one uses every filled slot
for one byte, and the counters are right. -/
def Ok : Layout α → Prop
  | node4 slots => Ascending slots
  | node16 slots => Ascending slots
  | node48 numChildren childIndex children =>
      Indexed childIndex children ∧
        numChildren = occupancy fun byte => (childIndex byte).bind children
  | node256 numChildren children => numChildren = occupancy children

theorem numChildren_eq {layout : Layout α} (ok : layout.Ok) :
    layout.numChildren = occupancy layout.findChild := by
  cases layout with
  | node4 slots => exact (occupancy_lookup ok).symm
  | node16 slots => exact (occupancy_lookup ok).symm
  | node48 numChildren childIndex children => exact ok.2
  | node256 numChildren children => exact ok

theorem mem_childrenSorted {layout : Layout α} (ok : layout.Ok) {byte : Byte} {child : α} :
    (byte, child) ∈ layout.childrenSorted ↔ layout.findChild byte = some child := by
  cases layout with
  | node4 slots => exact (lookup_eq_some_iff ok.nodup).symm
  | node16 slots => exact (lookup_eq_some_iff ok.nodup).symm
  | node48 numChildren childIndex children => exact mem_entriesOf
  | node256 numChildren children => exact mem_entriesOf

/-- The children are listed in the order of their bytes. -/
theorem ascending_childrenSorted {layout : Layout α} (ok : layout.Ok) :
    Ascending layout.childrenSorted := by
  cases layout with
  | node4 slots => exact ok
  | node16 slots => exact ok
  | node48 numChildren childIndex children => exact ascending_entriesOf _
  | node256 numChildren children => exact ascending_entriesOf _

theorem exists_child {layout : Layout α} (ok : layout.Ok) (inhabited : 0 < layout.numChildren) :
    ∃ byte child, layout.findChild byte = some child := by
  rw [numChildren_eq ok, occupancy, Finset.card_pos] at inhabited
  obtain ⟨byte, member⟩ := inhabited
  exact ⟨byte, Option.isSome_iff_exists.mp (Finset.mem_filter.mp member).2⟩

/-! ## Adding, writing and removing a child -/

/-- A table of 48 slots that are not all used has a free one. -/
theorem exists_free {childIndex : Byte → Option (Fin 48)} {children : Fin 48 → Option α}
    (indexed : Indexed childIndex children)
    (room : (occupancy fun byte => (childIndex byte).bind children) < 48) :
    ∃ slot, (List.finRange 48).find? (fun slot => (children slot).isNone) = some slot ∧
      children slot = none := by
  have free : ∃ slot, children slot = none := by
    by_contra full
    have covered : ∀ slot, ∃ byte, childIndex byte = some slot := fun slot =>
      indexed.covered slot (Option.isSome_iff_ne_none.mpr fun none => full ⟨slot, none⟩)
    choose byteOf isByte using covered
    have injective : Function.Injective byteOf := by
      intro first second same
      have equal := isByte first
      rw [same, isByte second] at equal
      exact (Option.some.inj equal).symm
    have bound : (Finset.univ.map ⟨byteOf, injective⟩).card ≤
        occupancy fun byte => (childIndex byte).bind children := by
      apply Finset.card_le_card
      intro byte member
      obtain ⟨slot, -, rfl⟩ := Finset.mem_map.mp member
      have filled := indexed.filled _ _ (isByte slot)
      simpa [isByte slot] using filled
    rw [Finset.card_map, Finset.card_univ, Fintype.card_fin] at bound
    omega
  obtain ⟨slot, isFree⟩ := free
  have found : ((List.finRange 48).find? fun slot => (children slot).isNone).isSome := by
    rw [List.find?_isSome]
    exact ⟨slot, List.mem_finRange slot, by rw [isFree]; rfl⟩
  obtain ⟨first, isFirst⟩ := Option.isSome_iff_exists.mp found
  exact ⟨first, isFirst, Option.isNone_iff_eq_none.mp (by simpa using List.find?_some isFirst)⟩

namespace Indexed

variable {childIndex : Byte → Option (Fin 48)} {children : Fin 48 → Option α} {byte : Byte}
  {slot : Fin 48}

theorem unused (indexed : Indexed childIndex children) (isFree : children slot = none)
    (other : Byte) : childIndex other ≠ some slot := by
  intro points
  have filled := indexed.filled other slot points
  rw [isFree] at filled
  cases filled

theorem bind_insert (indexed : Indexed childIndex children) (isFree : children slot = none)
    (child : α) :
    (fun other => (Function.update childIndex byte (some slot) other).bind
        (Function.update children slot (some child))) =
      Function.update (fun other => (childIndex other).bind children) byte (some child) := by
  funext other
  rcases eq_or_ne other byte with rfl | apart
  · simp
  · rw [Function.update_of_ne apart, Function.update_of_ne apart]
    cases points : childIndex other with
    | none => rfl
    | some used =>
        have differs : used ≠ slot := fun same => indexed.unused isFree other (same ▸ points)
        exact Function.update_of_ne differs _ _

theorem insert (indexed : Indexed childIndex children) (isFree : children slot = none)
    (absent : (childIndex byte).bind children = none) (child : α) :
    Indexed (Function.update childIndex byte (some slot))
      (Function.update children slot (some child)) where
  filled := by
    intro other used points
    rcases eq_or_ne used slot with rfl | differs
    · simp
    · rw [Function.update_of_ne differs]
      rcases eq_or_ne other byte with rfl | apart
      · rw [Function.update_self] at points
        exact absurd (Option.some.inj points).symm differs
      · rw [Function.update_of_ne apart] at points
        exact indexed.filled other used points
  separate := by
    intro first second used one two
    rcases eq_or_ne first byte with rfl | apart
    · rcases eq_or_ne second first with rfl | differs
      · rfl
      · rw [Function.update_self] at one
        rw [Function.update_of_ne differs, ← one] at two
        exact absurd two (indexed.unused isFree second)
    · rw [Function.update_of_ne apart] at one
      rcases eq_or_ne second byte with rfl | later
      · rw [Function.update_self] at two
        exact absurd (one.trans two.symm) (indexed.unused isFree first)
      · rw [Function.update_of_ne later] at two
        exact indexed.separate first second used one two
  covered := by
    intro used filled
    rcases eq_or_ne used slot with rfl | differs
    · exact ⟨byte, Function.update_self _ _ _⟩
    · rw [Function.update_of_ne differs] at filled
      obtain ⟨other, points⟩ := indexed.covered used filled
      have apart : other ≠ byte := by
        rintro rfl
        rw [points, Option.bind_some] at absent
        rw [absent] at filled
        cases filled
      exact ⟨other, by rw [Function.update_of_ne apart, points]⟩

theorem bind_replace (indexed : Indexed childIndex children) (points : childIndex byte = some slot)
    (child : Option α) :
    (fun other => (childIndex other).bind (Function.update children slot child)) =
      Function.update (fun other => (childIndex other).bind children) byte child := by
  funext other
  rcases eq_or_ne other byte with rfl | apart
  · simp [points]
  · rw [Function.update_of_ne apart]
    cases elsewhere : childIndex other with
    | none => rfl
    | some used =>
        have differs : used ≠ slot := by
          rintro rfl
          exact apart (indexed.separate other byte used elsewhere points)
        exact Function.update_of_ne differs _ _

theorem replace (indexed : Indexed childIndex children) (points : childIndex byte = some slot)
    (child : α) : Indexed childIndex (Function.update children slot (some child)) where
  filled := by
    intro other used here
    rcases eq_or_ne used slot with rfl | differs
    · simp
    · rw [Function.update_of_ne differs]
      exact indexed.filled other used here
  separate := indexed.separate
  covered := by
    intro used filled
    rcases eq_or_ne used slot with rfl | differs
    · exact ⟨byte, points⟩
    · rw [Function.update_of_ne differs] at filled
      exact indexed.covered used filled

theorem bind_erase (indexed : Indexed childIndex children) (points : childIndex byte = some slot) :
    (fun other => (Function.update childIndex byte none other).bind
        (Function.update children slot none)) =
      Function.update (fun other => (childIndex other).bind children) byte none := by
  rw [← indexed.bind_replace points none]
  funext other
  rcases eq_or_ne other byte with rfl | apart
  · simp [points]
  · rw [Function.update_of_ne apart]

theorem erase (indexed : Indexed childIndex children) (points : childIndex byte = some slot) :
    Indexed (Function.update childIndex byte none) (Function.update children slot none) where
  filled := by
    intro other used here
    rcases eq_or_ne other byte with rfl | apart
    · rw [Function.update_self] at here
      cases here
    · rw [Function.update_of_ne apart] at here
      have differs : used ≠ slot := by
        rintro rfl
        exact apart (indexed.separate other byte used here points)
      rw [Function.update_of_ne differs]
      exact indexed.filled other used here
  separate := by
    intro first second used one two
    have apart : ∀ other, Function.update childIndex byte none other = some used →
        childIndex other = some used := by
      intro other here
      rcases eq_or_ne other byte with rfl | apart
      · rw [Function.update_self] at here
        cases here
      · rwa [Function.update_of_ne apart] at here
    exact indexed.separate first second used (apart first one) (apart second two)
  covered := by
    intro used filled
    rcases eq_or_ne used slot with rfl | differs
    · rw [Function.update_self] at filled
      cases filled
    · rw [Function.update_of_ne differs] at filled
      obtain ⟨other, here⟩ := indexed.covered used filled
      have apart : other ≠ byte := by
        rintro rfl
        exact differs (Option.some.inj (here.symm.trans points))
      exact ⟨other, by rw [Function.update_of_ne apart, here]⟩

end Indexed

section Changes

variable {layout : Layout α} {byte : Byte}

/-- What an added child does to a well-formed table. -/
theorem addChild_spec (ok : layout.Ok) (room : layout.shouldGrow = false)
    (absent : layout.findChild byte = none) (child : α) :
    (layout.addChild byte child).Ok ∧
      (layout.addChild byte child).findChild =
        Function.update layout.findChild byte (some child) := by
  cases layout with
  | node4 slots =>
      refine ⟨ascending_insertSlot ok absent child, funext fun other => ?_⟩
      rw [Function.update_apply]
      exact lookup_insertSlot absent child other
  | node16 slots =>
      refine ⟨ascending_insertSlot ok absent child, funext fun other => ?_⟩
      rw [Function.update_apply]
      exact lookup_insertSlot absent child other
  | node48 numChildren childIndex children =>
      obtain ⟨indexed, count⟩ := ok
      have below : numChildren < 48 := by simpa [shouldGrow] using room
      obtain ⟨slot, isFirst, isFree⟩ := exists_free indexed (count ▸ below)
      have shows := @Indexed.bind_insert _ _ _ byte slot indexed isFree child
      rw [addChild, isFirst]
      refine ⟨⟨indexed.insert isFree absent child, ?_⟩, shows⟩
      rw [shows, count]
      exact (occupancy_insert absent child).symm
  | node256 numChildren children =>
      refine ⟨?_, rfl⟩
      exact (congrArg (· + 1) ok).trans (occupancy_insert absent child).symm

/-- What a written child does to a well-formed table. -/
theorem setChild_spec (ok : layout.Ok) (present : (layout.findChild byte).isSome) (child : α) :
    (layout.setChild byte child).Ok ∧
      (layout.setChild byte child).findChild =
        Function.update layout.findChild byte (some child) := by
  cases layout with
  | node4 slots =>
      refine ⟨ascending_writeSlot ok byte child, funext fun other => ?_⟩
      rw [Function.update_apply]
      exact lookup_writeSlot present child other
  | node16 slots =>
      refine ⟨ascending_writeSlot ok byte child, funext fun other => ?_⟩
      rw [Function.update_apply]
      exact lookup_writeSlot present child other
  | node48 numChildren childIndex children =>
      obtain ⟨indexed, count⟩ := ok
      obtain ⟨old, found⟩ := Option.isSome_iff_exists.mp present
      obtain ⟨slot, points, -⟩ := Option.bind_eq_some_iff.mp found
      have shows := indexed.bind_replace points (some child)
      rw [setChild, points]
      refine ⟨⟨indexed.replace points child, ?_⟩, shows⟩
      rw [shows, count]
      exact (occupancy_replace present child).symm
  | node256 numChildren children =>
      refine ⟨?_, rfl⟩
      exact ok.trans (occupancy_replace present child).symm

/-- What removing a child does to a well-formed table. -/
theorem removeChild_spec (ok : layout.Ok) (present : (layout.findChild byte).isSome) :
    (layout.removeChild byte).Ok ∧
      (layout.removeChild byte).findChild = Function.update layout.findChild byte none := by
  cases layout with
  | node4 slots =>
      refine ⟨ok.sublist (sublist_removeSlot slots byte), funext fun other => ?_⟩
      rw [Function.update_apply]
      exact lookup_removeSlot ok byte other
  | node16 slots =>
      refine ⟨ok.sublist (sublist_removeSlot slots byte), funext fun other => ?_⟩
      rw [Function.update_apply]
      exact lookup_removeSlot ok byte other
  | node48 numChildren childIndex children =>
      obtain ⟨indexed, count⟩ := ok
      obtain ⟨old, found⟩ := Option.isSome_iff_exists.mp present
      obtain ⟨slot, points, -⟩ := Option.bind_eq_some_iff.mp found
      have shows := indexed.bind_erase points
      rw [removeChild, points]
      refine ⟨⟨indexed.erase points, ?_⟩, shows⟩
      rw [shows]
      exact Nat.sub_eq_of_eq_add (count.trans (occupancy_erase present).symm)
  | node256 numChildren children =>
      have held : (children byte).isSome := present
      rw [removeChild, if_pos held]
      refine ⟨?_, rfl⟩
      exact Nat.sub_eq_of_eq_add (Eq.trans ok (occupancy_erase present).symm)

theorem numChildren_addChild (ok : layout.Ok) (room : layout.shouldGrow = false)
    (absent : layout.findChild byte = none) (child : α) :
    (layout.addChild byte child).numChildren = layout.numChildren + 1 := by
  obtain ⟨ok', shows⟩ := addChild_spec ok room absent child
  rw [numChildren_eq ok', shows, occupancy_insert absent, numChildren_eq ok]

theorem numChildren_setChild (ok : layout.Ok) (present : (layout.findChild byte).isSome)
    (child : α) : (layout.setChild byte child).numChildren = layout.numChildren := by
  obtain ⟨ok', shows⟩ := setChild_spec ok present child
  rw [numChildren_eq ok', shows, occupancy_replace present, numChildren_eq ok]

theorem numChildren_removeChild (ok : layout.Ok) (present : (layout.findChild byte).isSome) :
    (layout.removeChild byte).numChildren + 1 = layout.numChildren := by
  obtain ⟨ok', shows⟩ := removeChild_spec ok present
  rw [numChildren_eq ok', shows, occupancy_erase present, numChildren_eq ok]

end Changes

/-! ## Growing and shrinking -/

section Resize

theorem firstSlot_eq_some {slots : List (Byte × α)} {byte : Byte} {slot : Fin 48} :
    firstSlot slots byte = some slot ↔
      (slots.findIdx fun slot => slot.1 = byte) = slot.val ∧ slot.val < slots.length := by
  rw [firstSlot]
  constructor
  · intro points
    split at points
    next used =>
      cases points
      exact ⟨rfl, used.1⟩
    next => cases points
  · rintro ⟨position, inside⟩
    have used : (slots.findIdx fun slot => slot.1 = byte) < slots.length ∧
        (slots.findIdx fun slot => slot.1 = byte) < 48 := by
      rw [position]
      exact ⟨inside, slot.isLt⟩
    rw [dif_pos used]
    exact congrArg some (Fin.ext position)

/-- The byte of the slot that a byte gets is that byte. -/
theorem byte_of_firstSlot {slots : List (Byte × α)} {byte : Byte} {slot : Fin 48}
    (points : firstSlot slots byte = some slot) :
    ∃ child, slots[slot.val]? = some (byte, child) := by
  obtain ⟨position, inside⟩ := firstSlot_eq_some.mp points
  have same := (List.findIdx_eq inside).mp position
  refine ⟨slots[slot.val].2, ?_⟩
  rw [List.getElem?_eq_getElem inside, ← of_decide_eq_true same.1]

/-- A table of 48 slots filled in order shows the children that it was filled with. -/
theorem fill48_spec {slots : List (Byte × α)} (ascending : Ascending slots)
    (fits : slots.length ≤ 48) :
    (fill48 slots.length slots).Ok ∧
      (fill48 slots.length slots).findChild = fun byte => slots.lookup byte := by
  have shows : (fill48 slots.length slots).findChild = fun byte => slots.lookup byte := by
    funext byte
    rw [lookup_eq_findIdx]
    by_cases inside : (slots.findIdx fun slot => slot.1 = byte) < slots.length
    · have points := (@firstSlot_eq_some _ slots byte ⟨_, inside.trans_le fits⟩).mpr ⟨rfl, inside⟩
      rw [fill48, findChild, points, Option.bind_some]
    · have absent : firstSlot slots byte = none := dif_neg fun used => inside used.1
      rw [fill48, findChild, absent, List.getElem?_eq_none (not_lt.mp inside)]
      rfl
  refine ⟨⟨⟨?_, ?_, ?_⟩, ?_⟩, shows⟩
  · intro byte slot points
    obtain ⟨child, held⟩ := byte_of_firstSlot points
    rw [held]
    rfl
  · intro first second slot one two
    obtain ⟨_, isFirst⟩ := byte_of_firstSlot one
    obtain ⟨_, isSecond⟩ := byte_of_firstSlot two
    exact congrArg Prod.fst (Option.some.inj (isFirst.symm.trans isSecond))
  · intro slot filled
    have inside : slot.val < slots.length := by
      by_contra beyond
      rw [List.getElem?_eq_none (not_lt.mp beyond)] at filled
      cases filled
    refine ⟨slots[slot.val].1, firstSlot_eq_some.mpr ⟨?_, inside⟩⟩
    rw [List.findIdx_eq inside]
    refine ⟨decide_eq_true rfl, fun earlier before => decide_eq_false (ne_of_lt ?_)⟩
    exact List.pairwise_iff_getElem.mp ascending earlier slot.val _ inside before
  · exact (occupancy_lookup ascending).symm.trans (congrArg occupancy shows.symm)

variable {layout : Layout α}

/-- The least number of children for which a layout is used. -/
def lowest : Layout α → Nat
  | node4 _ => 2
  | node16 _ => 5
  | node48 _ _ _ => 17
  | node256 _ _ => 49

/-- The largest number of children of a layout. -/
def capacity : Layout α → Nat
  | node4 _ => 4
  | node16 _ => 16
  | node48 _ _ _ => 48
  | node256 _ _ => 256

/-- A table with at least two children in the smallest layout that holds them. -/
def Snug (layout : Layout α) : Prop :=
  layout.lowest ≤ layout.numChildren ∧ layout.numChildren ≤ layout.capacity

theorem Snug.inhabited (snug : layout.Snug) : 0 < layout.numChildren := by
  have least : 2 ≤ layout.lowest := by cases layout <;> simp [lowest]
  exact Nat.lt_of_lt_of_le Nat.zero_lt_two (least.trans snug.1)

theorem grow_spec (ok : layout.Ok) (fits : layout.numChildren ≤ layout.capacity) :
    layout.grow.Ok ∧ layout.grow.findChild = layout.findChild := by
  cases layout with
  | node4 slots => exact ⟨ok, rfl⟩
  | node16 slots => exact fill48_spec ok (Nat.le_trans fits (show 16 ≤ 48 by decide))
  | node48 numChildren childIndex children =>
      obtain ⟨indexed, -⟩ := ok
      refine ⟨?_, rfl⟩
      rw [grow, Ok, occupancy_eq_countP]
      congr 1
      funext byte
      cases points : childIndex byte with
      | none => rfl
      | some slot => exact (indexed.filled byte slot points).symm
  | node256 numChildren children => exact ⟨ok, rfl⟩

theorem shrink_spec (ok : layout.Ok) (sparse : layout.shouldShrink = true) :
    layout.shrink.Ok ∧ layout.shrink.findChild = layout.findChild := by
  cases layout with
  | node4 slots => exact ⟨ok, rfl⟩
  | node16 slots => exact ⟨ok, rfl⟩
  | node48 numChildren childIndex children =>
      exact ⟨ascending_entriesOf _, funext fun byte => lookup_entriesOf _ byte⟩
  | node256 numChildren children =>
      have few : numChildren ≤ 48 := by simpa [shouldShrink] using sparse
      have length : numChildren = (entriesOf children).length :=
        Eq.trans ok (length_entriesOf children).symm
      subst length
      obtain ⟨filled, shows⟩ := fill48_spec (ascending_entriesOf children) few
      exact ⟨filled, shows.trans (funext (lookup_entriesOf children))⟩

end Resize

/-! ## What insertion and deletion do to a table -/

/-- Add a child, in the next larger layout when this one is full. -/
def insertChild (layout : Layout α) (byte : Byte) (child : α) : Layout α :=
  (if layout.shouldGrow then layout.grow else layout).addChild byte child

/-- Write back what is left of a child. -/
def storeChild (layout : Layout α) (byte : Byte) (left : Option α) : Layout α :=
  match left with
  | some child => layout.setChild byte child
  | none => layout.removeChild byte

/-- Move a table that has become too small to the next smaller layout. -/
def shrinkIfSparse (layout : Layout α) : Layout α :=
  if layout.shouldShrink then layout.shrink else layout

section Snug

variable {layout : Layout α} {byte : Byte}

theorem numChildren_le (ok : layout.Ok) : layout.numChildren ≤ 256 := by
  rw [numChildren_eq ok]
  exact (Finset.card_le_univ _).trans (by simp)

theorem bounds_addChild (layout : Layout α) (byte : Byte) (child : α) :
    (layout.addChild byte child).lowest = layout.lowest ∧
      (layout.addChild byte child).capacity = layout.capacity := by
  cases layout with
  | node4 slots => exact ⟨rfl, rfl⟩
  | node16 slots => exact ⟨rfl, rfl⟩
  | node48 numChildren childIndex children =>
      rw [addChild]
      split <;> exact ⟨rfl, rfl⟩
  | node256 numChildren children => exact ⟨rfl, rfl⟩

theorem bounds_setChild (layout : Layout α) (byte : Byte) (child : α) :
    (layout.setChild byte child).lowest = layout.lowest ∧
      (layout.setChild byte child).capacity = layout.capacity := by
  cases layout with
  | node4 slots => exact ⟨rfl, rfl⟩
  | node16 slots => exact ⟨rfl, rfl⟩
  | node48 numChildren childIndex children =>
      rw [setChild]
      split <;> exact ⟨rfl, rfl⟩
  | node256 numChildren children => exact ⟨rfl, rfl⟩

theorem bounds_removeChild (layout : Layout α) (byte : Byte) :
    (layout.removeChild byte).lowest = layout.lowest ∧
      (layout.removeChild byte).capacity = layout.capacity := by
  cases layout with
  | node4 slots => exact ⟨rfl, rfl⟩
  | node16 slots => exact ⟨rfl, rfl⟩
  | node48 numChildren childIndex children =>
      rw [removeChild]
      split <;> exact ⟨rfl, rfl⟩
  | node256 numChildren children =>
      rw [removeChild]
      split <;> exact ⟨rfl, rfl⟩

theorem snug_addChild (ok : layout.Ok) (room : layout.shouldGrow = false)
    (absent : layout.findChild byte = none) (enough : layout.lowest ≤ layout.numChildren + 1)
    (child : α) : (layout.addChild byte child).Snug := by
  obtain ⟨low, high⟩ := bounds_addChild layout byte child
  refine ⟨by rwa [low, numChildren_addChild ok room absent], ?_⟩
  rw [high]
  cases layout with
  | node256 numChildren children => exact numChildren_le (addChild_spec ok room absent child).1
  | _ =>
      rw [numChildren_addChild ok room absent]
      simp only [shouldGrow, decide_eq_false_iff_not, not_le] at room
      exact room

/-- A full table grows to a layout in which one more child is the least number. -/
theorem bounds_grow (snug : layout.Snug) (full : layout.shouldGrow = true) :
    layout.grow.lowest = layout.numChildren + 1 ∧ layout.grow.shouldGrow = false := by
  obtain ⟨-, high⟩ := snug
  cases layout with
  | node4 slots =>
      simp only [shouldGrow, decide_eq_true_eq, numChildren, capacity] at full high
      have exact : slots.length = 4 := Nat.le_antisymm high full
      simp [grow, lowest, numChildren, shouldGrow, exact]
  | node16 slots =>
      simp only [shouldGrow, decide_eq_true_eq, numChildren, capacity] at full high
      have exact : slots.length = 16 := Nat.le_antisymm high full
      simp [grow, fill48, lowest, numChildren, shouldGrow, exact]
  | node48 numChildren childIndex children =>
      simp only [shouldGrow, decide_eq_true_eq, Layout.numChildren, capacity] at full high
      have exact : numChildren = 48 := Nat.le_antisymm high full
      simp [grow, lowest, Layout.numChildren, shouldGrow, exact]
  | node256 numChildren children => cases full

/-- A sparse table that lacks one child at most shrinks to a layout that it fills. -/
theorem bounds_shrink (most : layout.lowest ≤ layout.numChildren + 1)
    (sparse : layout.shouldShrink = true) :
    layout.shrink.lowest ≤ layout.numChildren ∧ layout.numChildren ≤ layout.shrink.capacity := by
  cases layout with
  | node4 slots => cases sparse
  | node16 slots =>
      simp only [shouldShrink, decide_eq_true_eq, lowest, numChildren] at sparse most
      simp only [shrink, lowest, capacity, numChildren]
      omega
  | node48 numChildren childIndex children =>
      simp only [shouldShrink, decide_eq_true_eq, lowest, Layout.numChildren] at sparse most
      simp only [shrink, lowest, capacity, Layout.numChildren]
      omega
  | node256 numChildren children =>
      simp only [shouldShrink, decide_eq_true_eq, lowest, Layout.numChildren] at sparse most
      simp only [shrink, fill48, lowest, capacity, Layout.numChildren]
      omega

/-- A table that lacks one child at most and is not sparse is snug, or it is a small one with a
single child. -/
theorem snug_or_single (most : layout.lowest ≤ layout.numChildren + 1)
    (fits : layout.numChildren ≤ layout.capacity) (dense : layout.shouldShrink = false) :
    layout.Snug ∨ ∃ slot, layout = node4 [slot] := by
  cases layout with
  | node4 slots =>
      match slots with
      | [] => simp [lowest, numChildren] at most
      | [slot] => exact .inr ⟨slot, rfl⟩
      | first :: second :: rest => exact .inl ⟨by simp [lowest, numChildren], fits⟩
  | _ =>
      simp only [shouldShrink, decide_eq_false_iff_not, not_le] at dense
      exact .inl ⟨dense, fits⟩

theorem insertChild_spec (ok : layout.Ok) (snug : layout.Snug)
    (absent : layout.findChild byte = none) (child : α) :
    (layout.insertChild byte child).Ok ∧ (layout.insertChild byte child).Snug ∧
      (layout.insertChild byte child).findChild =
        Function.update layout.findChild byte (some child) := by
  rw [insertChild]
  cases full : layout.shouldGrow with
  | true =>
      obtain ⟨grown, shows⟩ := grow_spec ok snug.2
      have same : layout.grow.numChildren = layout.numChildren := by
        rw [numChildren_eq grown, shows, numChildren_eq ok]
      have absent' : layout.grow.findChild byte = none := by rw [shows, absent]
      obtain ⟨least, room⟩ := bounds_grow snug full
      rw [if_pos rfl]
      obtain ⟨added, shows'⟩ := addChild_spec grown room absent' child
      refine ⟨added, snug_addChild grown room absent' ?_ child, ?_⟩
      · rw [least, same]
      · rw [shows', shows]
  | false =>
      rw [if_neg Bool.false_ne_true]
      obtain ⟨added, shows⟩ := addChild_spec ok full absent child
      exact ⟨added, snug_addChild ok full absent (snug.1.trans (Nat.le_succ _)) child, shows⟩

theorem shrinkIfSparse_of_snug (snug : layout.Snug) : layout.shrinkIfSparse = layout := by
  have dense : layout.shouldShrink = false := by
    obtain ⟨low, -⟩ := snug
    cases layout with
    | node4 slots => rfl
    | _ => exact decide_eq_false (not_le.mpr low)
  rw [shrinkIfSparse, dense, if_neg Bool.false_ne_true]

theorem setChild_snug (ok : layout.Ok) (snug : layout.Snug)
    (present : (layout.findChild byte).isSome) (child : α) :
    (layout.setChild byte child).Snug := by
  obtain ⟨low, high⟩ := bounds_setChild layout byte child
  rw [Snug, low, high, numChildren_setChild ok present]
  exact snug

theorem removeChild_shrink (ok : layout.Ok) (snug : layout.Snug)
    (present : (layout.findChild byte).isSome) :
    (layout.removeChild byte).shrinkIfSparse.Ok ∧
      (layout.removeChild byte).shrinkIfSparse.findChild =
        Function.update layout.findChild byte none ∧
      ((layout.removeChild byte).shrinkIfSparse.Snug ∨
        ∃ slot, (layout.removeChild byte).shrinkIfSparse = node4 [slot]) := by
  obtain ⟨removed, shows⟩ := removeChild_spec ok present
  obtain ⟨low, high⟩ := bounds_removeChild layout byte
  have fewer := numChildren_removeChild ok present
  have most : (layout.removeChild byte).lowest ≤ (layout.removeChild byte).numChildren + 1 := by
    rw [low, fewer]
    exact snug.1
  have fits : (layout.removeChild byte).numChildren ≤ (layout.removeChild byte).capacity := by
    rw [high]
    exact (Nat.le_succ _).trans (fewer.trans_le snug.2)
  rw [shrinkIfSparse]
  cases sparse : (layout.removeChild byte).shouldShrink with
  | true =>
      obtain ⟨shrunk, shows'⟩ := shrink_spec removed sparse
      have same : (layout.removeChild byte).shrink.numChildren =
          (layout.removeChild byte).numChildren := by
        rw [numChildren_eq shrunk, shows', numChildren_eq removed]
      rw [if_pos rfl]
      refine ⟨shrunk, shows'.trans shows, .inl ?_⟩
      rw [Snug, same]
      exact bounds_shrink most sparse
  | false =>
      rw [if_neg Bool.false_ne_true]
      exact ⟨removed, shows, snug_or_single most fits sparse⟩

/-- After a child is written back a table is in the smallest layout again, or it is a small one with
a single child. -/
theorem storeChild_spec (ok : layout.Ok) (snug : layout.Snug)
    (present : (layout.findChild byte).isSome) (left : Option α) :
    (layout.storeChild byte left).shrinkIfSparse.Ok ∧
      (layout.storeChild byte left).shrinkIfSparse.findChild =
        Function.update layout.findChild byte left ∧
      ((layout.storeChild byte left).shrinkIfSparse.Snug ∨
        ∃ slot, (layout.storeChild byte left).shrinkIfSparse = node4 [slot]) := by
  cases left with
  | none => exact removeChild_shrink ok snug present
  | some child =>
      have still := setChild_snug ok snug present child
      rw [storeChild, shrinkIfSparse_of_snug still]
      obtain ⟨written, shows⟩ := setChild_spec ok present child
      exact ⟨written, shows, .inl still⟩

end Snug

end Layout

end JouleDB.Art
