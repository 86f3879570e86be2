import JouleDB.Index.Gin

/-!
# Candidate searches

Containment of JSON values and LIKE patterns are answered with candidates: the records that have all
keys of the query.  Positions in arrays are part of the keys of paths, and the wildcards of a
pattern are part of its trigrams, so a record that should be found may lack such a key.
-/

namespace JouleDB.Gin

/-! ## Searches -/

/-- A pattern without the `%` at its ends. -/
def trimPercent (pattern : List Char) : List Char :=
  ((pattern.dropWhile fun char => char = '%').reverse.dropWhile fun char => char = '%').reverse

namespace GinIndex

/-- Find the ids whose values may contain the query. -/
def searchJsonbContains (index : GinIndex) (query : Json) : Finset U64 :=
  match index.config.strategy with
  | .jsonbPathOps => index.searchContainsAll (extractJsonbPathOps "" query)
  | .jsonbOps => index.searchContainsAll (extractJsonbOps query)
  | _ => ∅

/-- Find the ids whose texts may match a LIKE pattern. -/
def searchTrigram (index : GinIndex) (unicode : Unicode) (pattern : String) : Finset U64 :=
  let stripped := trimPercent (unicode.toLowercase pattern).toList
  if (String.ofList stripped).utf8ByteSize < 3 then index.forward.keys.toFinset
  else
    let trigramKeys := (windows stripped).eraseDups
    if trigramKeys.isEmpty then index.forward.keys.toFinset
    else index.searchContainsAll trigramKeys

end GinIndex

/-! ## Containment -/

namespace Json

mutual

/-- A value contains a query: objects with all entries, arrays with all elements in any order, and
scalars if they are equal. -/
def contains (value : Json) : Json → Bool
  | .null => match value with | .null => true | _ => false
  | .bool flag => match value with | .bool other => other == flag | _ => false
  | .number text => match value with | .number other => other == text | _ => false
  | .string text => match value with | .string other => other == text | _ => false
  | .array items => match value with | .array values => containsItems values items | _ => false
  | .object entries =>
      match value with | .object values => containsEntries values entries | _ => false

/-- Each element of a query is contained in some element. -/
def containsItems (values : List Json) : List Json → Bool
  | [] => true
  | item :: items => values.any (fun value => contains value item) && containsItems values items

/-- Each entry of a query is contained in an entry with its key. -/
def containsEntries (values : List (String × Json)) : List (String × Json) → Bool
  | [] => true
  | (key, item) :: entries =>
      values.any (fun value => value.1 == key && contains value.2 item) &&
        containsEntries values entries

end

/-- The value is neither an array nor an object. -/
def IsScalar (value : Json) : Prop :=
  (∀ items, value ≠ .array items) ∧ ∀ entries, value ≠ .object entries

@[elab_as_elim] theorem parts {motive : Json → Prop}
    (scalar : ∀ value, IsScalar value → motive value)
    (array : ∀ items, (∀ item ∈ items, motive item) → motive (.array items))
    (object : ∀ entries, (∀ entry ∈ entries, motive entry.2) → motive (.object entries))
    (value : Json) : motive value := by
  refine @Json.rec motive (fun items => ∀ item ∈ items, motive item)
    (fun entries => ∀ entry ∈ entries, motive entry.2) (fun entry => motive entry.2)
    ?_ ?_ ?_ ?_ array object ?_ ?_ ?_ ?_ ?_ value
  case refine_5 => simp
  case refine_6 => exact fun item items here there => List.forall_mem_cons.mpr ⟨here, there⟩
  case refine_7 => simp
  case refine_8 => exact fun entry entries here there => List.forall_mem_cons.mpr ⟨here, there⟩
  case refine_9 => exact fun _ _ here => here
  all_goals
    intros
    exact scalar _ ⟨nofun, nofun⟩

theorem containsItems_iff {values items : List Json} :
    containsItems values items = true ↔ ∀ item ∈ items, ∃ value ∈ values, value.contains item := by
  induction items with
  | nil => simp [containsItems]
  | cons item items ih => simp [containsItems, ih]

theorem containsEntries_iff {values entries : List (String × Json)} :
    containsEntries values entries = true ↔
      ∀ entry ∈ entries, ∃ value, (entry.1, value) ∈ values ∧ value.contains entry.2 := by
  induction entries with
  | nil => simp [containsEntries]
  | cons entry entries ih =>
      obtain ⟨key, item⟩ := entry
      simp [containsEntries, ih]

/-- Only an equal value contains a scalar. -/
theorem eq_of_contains {value query : Json} (scalar : query.IsScalar)
    (contained : value.contains query = true) : value = query := by
  cases query with
  | null => cases value <;> simp [contains] at contained ⊢
  | bool flag => cases value <;> simp_all [contains]
  | number text => cases value <;> simp_all [contains]
  | string text => cases value <;> simp_all [contains]
  | array items => exact absurd rfl (scalar.1 items)
  | object entries => exact absurd rfl (scalar.2 entries)

theorem contains_array {value : Json} {items : List Json} :
    value.contains (.array items) = true ↔
      ∃ values, value = .array values ∧ ∀ item ∈ items, ∃ value ∈ values, value.contains item := by
  cases value <;> simp [contains, containsItems_iff]

theorem contains_object {value : Json} {entries : List (String × Json)} :
    value.contains (.object entries) = true ↔
      ∃ values, value = .object values ∧
        ∀ entry ∈ entries, ∃ value, (entry.1, value) ∈ values ∧ value.contains entry.2 := by
  cases value <;> simp [contains, containsEntries_iff]

theorem contains_scalar {value : Json} (scalar : value.IsScalar) : value.contains value = true := by
  cases value with
  | array items => exact absurd rfl (scalar.1 items)
  | object entries => exact absurd rfl (scalar.2 entries)
  | _ => simp [contains]

theorem contains_refl (value : Json) : value.contains value = true := by
  induction value using parts with
  | scalar value scalar => exact contains_scalar scalar
  | array items ih =>
      exact contains_array.mpr ⟨items, rfl, fun item member => ⟨item, member, ih item member⟩⟩
  | object entries ih =>
      exact contains_object.mpr
        ⟨entries, rfl, fun entry member => ⟨entry.2, member, ih entry member⟩⟩

end Json

/-! ## Keys of paths -/

mutual

/-- The keys of the leaves that are in no array. -/
def freeKeys (path : String) : Json → List String
  | .object entries => freeKeysOfEntries path entries
  | .array _ => []
  | value => [path ++ "=" ++ value.valueToString]

/-- The keys of the leaves of entries that are in no array. -/
def freeKeysOfEntries (path : String) : List (String × Json) → List String
  | [] => []
  | (key, value) :: entries => freeKeys (joinPath path key) value ++ freeKeysOfEntries path entries

end

mutual

/-- The keys of the leaves that are in an array. -/
def boundKeys (path : String) : Json → List String
  | .object entries => boundKeysOfEntries path entries
  | .array items => pathOpsOfItems path 0 items
  | _ => []

/-- The keys of the leaves of entries that are in an array. -/
def boundKeysOfEntries (path : String) : List (String × Json) → List String
  | [] => []
  | (key, value) :: entries =>
      boundKeys (joinPath path key) value ++ boundKeysOfEntries path entries

end

section Paths

variable {path : String} {query value : Json} {items : List Json} {entries : List (String × Json)}

/-- A scalar has one key, which is in no array. -/
theorem keys_scalar (scalar : value.IsScalar) :
    extractJsonbPathOps path value = [path ++ "=" ++ value.valueToString] ∧
      freeKeys path value = [path ++ "=" ++ value.valueToString] ∧ boundKeys path value = [] ∧
        extractJsonbOps value = [value.valueToString] := by
  cases value with
  | array items => exact absurd rfl (scalar.1 items)
  | object entries => exact absurd rfl (scalar.2 entries)
  | _ => exact ⟨rfl, rfl, rfl, rfl⟩

theorem mem_pathOpsOfItems {start : Nat} :
    key ∈ pathOpsOfItems path start items ↔ ∃ index item, items[index]? = some item ∧
      key ∈ extractJsonbPathOps (joinPath path (toString (start + index))) item := by
  induction items generalizing start with
  | nil => simp [pathOpsOfItems]
  | cons item items ih =>
      rw [pathOpsOfItems, List.mem_append, ih]
      constructor
      · rintro (here | ⟨index, other, found, there⟩)
        · exact ⟨0, item, rfl, here⟩
        · exact ⟨index + 1, other, found, by rwa [Nat.add_right_comm] at there⟩
      · rintro ⟨index | index, other, found, there⟩
        · cases found
          exact .inl there
        · exact .inr ⟨index, other, found, by rwa [Nat.add_right_comm]⟩

theorem mem_pathOpsOfEntries : key ∈ pathOpsOfEntries path entries ↔
    ∃ entry ∈ entries, key ∈ extractJsonbPathOps (joinPath path entry.1) entry.2 := by
  induction entries with
  | nil => simp [pathOpsOfEntries]
  | cons entry entries ih => simp [pathOpsOfEntries, ih]

theorem mem_freeKeysOfEntries : key ∈ freeKeysOfEntries path entries ↔
    ∃ entry ∈ entries, key ∈ freeKeys (joinPath path entry.1) entry.2 := by
  induction entries with
  | nil => simp [freeKeysOfEntries]
  | cons entry entries ih => simp [freeKeysOfEntries, ih]

theorem mem_boundKeysOfEntries : key ∈ boundKeysOfEntries path entries ↔
    ∃ entry ∈ entries, key ∈ boundKeys (joinPath path entry.1) entry.2 := by
  induction entries with
  | nil => simp [boundKeysOfEntries]
  | cons entry entries ih => simp [boundKeysOfEntries, ih]

/-- A leaf is in an array or in none. -/
theorem mem_extractJsonbPathOps :
    key ∈ extractJsonbPathOps path value ↔
      key ∈ freeKeys path value ∨ key ∈ boundKeys path value := by
  induction value using Json.parts generalizing path with
  | scalar value scalar =>
      obtain ⟨path, free, bound, -⟩ := @keys_scalar path value scalar
      simp [path, free, bound]
  | array items => simp [extractJsonbPathOps, freeKeys, boundKeys]
  | object entries ih =>
      rw [extractJsonbPathOps, freeKeys, boundKeys, mem_pathOpsOfEntries, mem_freeKeysOfEntries,
        mem_boundKeysOfEntries]
      constructor
      · rintro ⟨entry, member, extracted⟩
        exact ((ih entry member).mp extracted).imp (fun free => ⟨entry, member, free⟩)
          fun bound => ⟨entry, member, bound⟩
      · rintro (⟨entry, member, free⟩ | ⟨entry, member, bound⟩)
        · exact ⟨entry, member, (ih entry member).mpr (.inl free)⟩
        · exact ⟨entry, member, (ih entry member).mpr (.inr bound)⟩

/-- A leaf of the query that is in no array is a leaf of every value that contains the query. -/
theorem freeKeys_subset (contained : value.contains query = true)
    (free : key ∈ freeKeys path query) : key ∈ freeKeys path value := by
  induction query using Json.parts generalizing path value with
  | scalar query scalar => rwa [Json.eq_of_contains scalar contained]
  | array items => simp [freeKeys] at free
  | object entries ih =>
      obtain ⟨values, rfl, each⟩ := Json.contains_object.mp contained
      rw [freeKeys, mem_freeKeysOfEntries] at free ⊢
      obtain ⟨entry, member, free⟩ := free
      obtain ⟨value, inside, contained⟩ := each entry member
      exact ⟨(entry.1, value), inside, ih entry member contained free⟩

theorem joinPath_length (path part : String) : path.length ≤ (joinPath path part).length ∧
    part.length ≤ (joinPath path part).length := by
  rw [joinPath]
  split
  next empty => simp [String.isEmpty_iff.mp empty]
  next => simp; omega

/-- A key begins with its path. -/
theorem path_length_le (extracted : key ∈ extractJsonbPathOps path value) :
    path.length ≤ key.length := by
  induction value using Json.parts generalizing path with
  | scalar value scalar =>
      rw [(keys_scalar scalar).1, List.mem_singleton] at extracted
      simp [extracted]
      omega
  | array items ih =>
      rw [extractJsonbPathOps, mem_pathOpsOfItems] at extracted
      obtain ⟨index, item, found, extracted⟩ := extracted
      exact (joinPath_length _ _).1.trans (ih item (List.mem_of_getElem? found) extracted)
  | object entries ih =>
      rw [extractJsonbPathOps, mem_pathOpsOfEntries] at extracted
      obtain ⟨entry, member, extracted⟩ := extracted
      exact (joinPath_length _ _).1.trans (ih entry member extracted)

end Paths

/-! ## Values with their arrays moved on -/

mutual

/-- Put empty arrays in front of the elements of every array. -/
def shift (count : Nat) : Json → Json
  | .array items => .array (List.replicate count (.array []) ++ shiftItems count items)
  | .object entries => .object (shiftEntries count entries)
  | value => value

/-- Shift the elements of an array. -/
def shiftItems (count : Nat) : List Json → List Json
  | [] => []
  | item :: items => shift count item :: shiftItems count items

/-- Shift the entries of an object. -/
def shiftEntries (count : Nat) : List (String × Json) → List (String × Json)
  | [] => []
  | (key, value) :: entries => (key, shift count value) :: shiftEntries count entries

end

section Shift

variable {path : String} {query : Json} {count : Nat}

theorem shiftItems_eq (items : List Json) : shiftItems count items = items.map (shift count) := by
  induction items with
  | nil => rfl
  | cons item items ih => rw [shiftItems, ih, List.map_cons]

theorem shiftEntries_eq (entries : List (String × Json)) :
    shiftEntries count entries = entries.map fun entry => (entry.1, shift count entry.2) := by
  induction entries with
  | nil => rfl
  | cons entry entries ih => rw [shiftEntries, ih, List.map_cons]

theorem shift_scalar (scalar : query.IsScalar) : shift count query = query := by
  cases query with
  | array items => exact absurd rfl (scalar.1 items)
  | object entries => exact absurd rfl (scalar.2 entries)
  | _ => rw [shift]; all_goals nofun

/-- A shifted value contains the value. -/
theorem contains_shift (count : Nat) (query : Json) :
    (shift count query).contains query = true := by
  induction query using Json.parts with
  | scalar query scalar =>
      rw [shift_scalar scalar]
      exact Json.contains_scalar scalar
  | array items ih =>
      rw [shift, shiftItems_eq]
      refine Json.contains_array.mpr
        ⟨_, rfl, fun item member => ⟨shift count item, ?_, ih item member⟩⟩
      exact List.mem_append_right _ (List.mem_map_of_mem member)
  | object entries ih =>
      rw [shift, shiftEntries_eq]
      refine Json.contains_object.mpr
        ⟨_, rfl, fun entry member => ⟨shift count entry.2, ?_, ih entry member⟩⟩
      exact List.mem_map.mpr ⟨entry, member, rfl⟩

/-- The keys of a shifted value are those of leaves in no array, and keys that are longer than any
number below the shift. -/
theorem mem_extract_shift (extracted : key ∈ extractJsonbPathOps path (shift count query)) :
    key ∈ freeKeys path query ∨ ∃ index, count ≤ index ∧ (toString index).length ≤ key.length := by
  induction query using Json.parts generalizing path with
  | scalar query scalar =>
      rw [shift_scalar scalar, (keys_scalar scalar).1] at extracted
      exact .inl ((keys_scalar scalar).2.1 ▸ extracted)
  | array items =>
      rw [shift, extractJsonbPathOps, mem_pathOpsOfItems] at extracted
      obtain ⟨index, item, found, extracted⟩ := extracted
      rw [Nat.zero_add] at extracted
      refine .inr ⟨index, ?_, (joinPath_length _ _).2.trans (path_length_le extracted)⟩
      by_contra below
      rw [List.getElem?_append_left (by simpa using below),
        List.getElem?_replicate_of_lt (Nat.lt_of_not_le below)] at found
      cases found
      simp [extractJsonbPathOps, pathOpsOfItems] at extracted
  | object entries ih =>
      rw [shift, shiftEntries_eq, extractJsonbPathOps, mem_pathOpsOfEntries] at extracted
      obtain ⟨_, isEntry, extracted⟩ := extracted
      obtain ⟨entry, member, rfl⟩ := List.mem_map.mp isEntry
      refine (ih entry member extracted).imp_left fun free => ?_
      rw [freeKeys, mem_freeKeysOfEntries]
      exact ⟨entry, member, free⟩

/-- A key that is not that of a leaf in no array is lost by shifting far enough. -/
theorem not_mem_extract_shift (bound : key ∉ freeKeys path query) :
    key ∉ extractJsonbPathOps path (shift (10 ^ (key.length + 1)) query) := by
  intro extracted
  obtain free | ⟨index, above, short⟩ := mem_extract_shift extracted
  · exact bound free
  · have below := (Nat.length_repr_le_iff (Nat.succ_pos key.length)).mp
      (Nat.le_succ_of_le short)
    exact absurd above (Nat.not_le_of_lt below)

end Shift

/-! ## Keys and leaves -/

/-- A scalar is somewhere in the value. -/
inductive HasLeaf : Json → Prop where
  | scalar {value : Json} (isScalar : value.IsScalar) : HasLeaf value
  | item {items : List Json} {item : Json} (member : item ∈ items) (leaf : HasLeaf item) :
      HasLeaf (.array items)
  | entry {entries : List (String × Json)} {entry : String × Json} (member : entry ∈ entries)
      (leaf : HasLeaf entry.2) : HasLeaf (.object entries)

/-- A scalar or an entry of an object is somewhere in the value. -/
inductive HasText : Json → Prop where
  | scalar {value : Json} (isScalar : value.IsScalar) : HasText value
  | item {items : List Json} {item : Json} (member : item ∈ items) (text : HasText item) :
      HasText (.array items)
  | entry {entries : List (String × Json)} {entry : String × Json} (member : entry ∈ entries) :
      HasText (.object entries)

section Leaves

variable {path : String} {query value : Json} {items : List Json} {entries : List (String × Json)}

theorem hasLeaf_iff : HasLeaf value ↔ ∃ key, key ∈ extractJsonbPathOps path value := by
  constructor
  · intro leaf
    induction leaf generalizing path with
    | scalar isScalar => exact ⟨_, (keys_scalar isScalar).1 ▸ List.mem_singleton_self _⟩
    | item member _ ih =>
        obtain ⟨index, found⟩ := List.getElem?_of_mem member
        obtain ⟨key, extracted⟩ := ih
        exact ⟨key, mem_pathOpsOfItems.mpr ⟨index, _, found, extracted⟩⟩
    | entry member _ ih =>
        obtain ⟨key, extracted⟩ := ih
        exact ⟨key, mem_pathOpsOfEntries.mpr ⟨_, member, extracted⟩⟩
  · rintro ⟨key, extracted⟩
    induction value using Json.parts generalizing path with
    | scalar value scalar => exact .scalar scalar
    | array items ih =>
        obtain ⟨index, item, found, extracted⟩ := mem_pathOpsOfItems.mp extracted
        have member := List.mem_of_getElem? found
        exact .item member (ih item member extracted)
    | object entries ih =>
        obtain ⟨entry, member, extracted⟩ := mem_pathOpsOfEntries.mp extracted
        exact .entry member (ih entry member extracted)

theorem mem_jsonbOpsOfItems :
    key ∈ jsonbOpsOfItems items ↔ ∃ item ∈ items, key ∈ extractJsonbOps item := by
  induction items with
  | nil => simp [jsonbOpsOfItems]
  | cons item items ih => simp [jsonbOpsOfItems, ih]

theorem mem_jsonbOpsOfEntries : key ∈ jsonbOpsOfEntries entries ↔
    ∃ entry ∈ entries, key = entry.1 ∨ key ∈ extractJsonbOps entry.2 := by
  induction entries with
  | nil => simp [jsonbOpsOfEntries]
  | cons entry entries ih => simp [jsonbOpsOfEntries, ih, or_assoc]

theorem hasText_iff : HasText value ↔ ∃ key, key ∈ extractJsonbOps value := by
  constructor
  · intro text
    induction text with
    | scalar isScalar =>
        exact ⟨_, (@keys_scalar "" _ isScalar).2.2.2 ▸ List.mem_singleton_self _⟩
    | item member _ ih =>
        obtain ⟨key, extracted⟩ := ih
        exact ⟨key, mem_jsonbOpsOfItems.mpr ⟨_, member, extracted⟩⟩
    | entry member => exact ⟨_, mem_jsonbOpsOfEntries.mpr ⟨_, member, .inl rfl⟩⟩
  · rintro ⟨key, extracted⟩
    induction value using Json.parts with
    | scalar value scalar => exact .scalar scalar
    | array items ih =>
        obtain ⟨item, member, extracted⟩ := mem_jsonbOpsOfItems.mp extracted
        exact .item member (ih item member extracted)
    | object entries =>
        obtain ⟨entry, member, -⟩ := mem_jsonbOpsOfEntries.mp extracted
        exact .entry member

/-- Keys and leaves do not depend on where they are, so that a value that contains the query has all
of those of the query. -/
theorem extractJsonbOps_subset (contained : value.contains query = true)
    (extracted : key ∈ extractJsonbOps query) : key ∈ extractJsonbOps value := by
  induction query using Json.parts generalizing value with
  | scalar query scalar => rwa [Json.eq_of_contains scalar contained]
  | array items ih =>
      obtain ⟨values, rfl, each⟩ := Json.contains_array.mp contained
      obtain ⟨item, member, extracted⟩ := mem_jsonbOpsOfItems.mp extracted
      obtain ⟨value, inside, contained⟩ := each item member
      exact mem_jsonbOpsOfItems.mpr ⟨value, inside, ih item member contained extracted⟩
  | object entries ih =>
      obtain ⟨values, rfl, each⟩ := Json.contains_object.mp contained
      obtain ⟨entry, member, extracted⟩ := mem_jsonbOpsOfEntries.mp extracted
      obtain ⟨value, inside, contained⟩ := each entry member
      exact mem_jsonbOpsOfEntries.mpr
        ⟨_, inside, extracted.imp_right (ih entry member contained)⟩

end Leaves

/-! ## LIKE patterns -/

/-- The wildcards of LIKE. -/
def IsWildcard (char : Char) : Prop := char = '%' ∨ char = '_'

instance (char : Char) : Decidable (IsWildcard char) := inferInstanceAs (Decidable (_ ∨ _))

/-- A text matches a LIKE pattern: `%` stands for any characters and `_` for one. -/
inductive Like : List Char → List Char → Prop where
  | nil : Like [] []
  | percent {pattern text : List Char} (skipped : List Char) (rest : Like pattern text) :
      Like ('%' :: pattern) (skipped ++ text)
  | underscore {pattern text : List Char} (char : Char) (rest : Like pattern text) :
      Like ('_' :: pattern) (char :: text)
  | literal {pattern text : List Char} {char : Char} (literal : ¬IsWildcard char)
      (rest : Like pattern text) : Like (char :: pattern) (char :: text)

section Patterns

variable {pattern text front back window : List Char} {char : Char}

theorem Like.of_append (like : Like (front ++ pattern) text) :
    ∃ before after, text = before ++ after ∧ Like pattern after := by
  induction front generalizing text with
  | nil => exact ⟨[], text, rfl, like⟩
  | cons char front ih =>
      cases like with
      | percent skipped rest =>
          obtain ⟨before, after, rfl, like⟩ := ih rest
          exact ⟨skipped ++ before, after, (List.append_assoc _ _ _).symm, like⟩
      | underscore other rest =>
          obtain ⟨before, after, rfl, like⟩ := ih rest
          exact ⟨other :: before, after, rfl, like⟩
      | literal _ rest =>
          obtain ⟨before, after, rfl, like⟩ := ih rest
          exact ⟨char :: before, after, rfl, like⟩

theorem Like.literal_append (literal : ∀ char ∈ window, ¬IsWildcard char)
    (like : Like (window ++ pattern) text) : ∃ after, text = window ++ after := by
  induction window generalizing text with
  | nil => exact ⟨text, rfl⟩
  | cons char window ih =>
      have here := literal char List.mem_cons_self
      cases like with
      | percent skipped rest => exact absurd (.inl rfl) here
      | underscore other rest => exact absurd (.inr rfl) here
      | literal _ rest =>
          obtain ⟨after, rfl⟩ :=
            ih (fun other member => literal other (List.mem_cons_of_mem _ member)) rest
          exact ⟨after, rfl⟩

/-- A character of a pattern is a wildcard or one of the text. -/
theorem Like.mem (like : Like pattern text) (member : char ∈ pattern) :
    IsWildcard char ∨ char ∈ text := by
  induction like with
  | nil => cases member
  | percent skipped rest ih =>
      rcases List.mem_cons.mp member with rfl | later
      · exact .inl (.inl rfl)
      · exact (ih later).imp_right (List.mem_append_right skipped)
  | underscore other rest ih =>
      rcases List.mem_cons.mp member with rfl | later
      · exact .inl (.inr rfl)
      · exact (ih later).imp_right (List.mem_cons_of_mem other)
  | literal _ rest ih =>
      rcases List.mem_cons.mp member with rfl | later
      · exact .inr List.mem_cons_self
      · exact (ih later).imp_right (List.mem_cons_of_mem _)

/-- A part of a pattern without wildcards is a part of every text that matches. -/
theorem Like.isInfix (like : Like pattern text) (part : window <:+: pattern)
    (literal : ∀ char ∈ window, ¬IsWildcard char) : window <:+: text := by
  obtain ⟨front, back, rfl⟩ := part
  rw [List.append_assoc] at like
  obtain ⟨before, after, rfl, follows⟩ := like.of_append
  obtain ⟨rest, rfl⟩ := follows.literal_append literal
  exact ⟨before, rest, List.append_assoc _ _ _⟩

theorem trimPercent_isInfix (pattern : List Char) : trimPercent pattern <:+: pattern := by
  have front : (pattern.dropWhile fun char => char = '%') <:+ pattern := List.dropWhile_suffix _
  have back := List.dropWhile_suffix (l := (pattern.dropWhile fun char => char = '%').reverse)
    fun char => char = '%'
  exact (List.reverse_suffix.mp (by rwa [trimPercent, List.reverse_reverse])).isInfix.trans
    front.isInfix

/-- The keys of a text are its parts of three characters. -/
theorem mem_windows {key : String} :
    key ∈ windows text ↔ key.toList.length = 3 ∧ key.toList <:+: text := by
  fun_induction windows text with
  | case1 first second third rest ih =>
      rw [List.mem_cons, List.infix_cons_iff, ih]
      constructor
      · rintro (rfl | ⟨length, part⟩)
        · rw [String.toList_ofList]
          exact ⟨rfl, .inl ⟨rest, rfl⟩⟩
        · exact ⟨length, .inr part⟩
      · rintro ⟨length, ⟨back, same⟩ | part⟩
        · refine .inl ?_
          have front : key.toList = [first, second, third] := by
            obtain ⟨a, b, c, isKey⟩ := List.length_eq_three.mp length
            rw [isKey] at same ⊢
            injection same with same₁ same
            injection same with same₂ same
            injection same with same₃ same
            rw [same₁, same₂, same₃]
          rw [← front, String.ofList_toList]
        · exact .inr ⟨length, part⟩
  | case2 text short =>
      refine iff_of_false List.not_mem_nil ?_
      rintro ⟨length, part⟩
      have enough := part.length_le
      match text, short with
      | [], _ | [_], _ | [_, _], _ => simp [length] at enough
      | first :: second :: third :: rest, short => exact short first second third rest rfl

/-- Every character of a text of at least three characters is in one of its keys. -/
theorem exists_mem_windows (long : 3 ≤ text.length) (member : char ∈ text) :
    ∃ key ∈ windows text, char ∈ key.toList := by
  fun_induction windows text with
  | case1 first second third rest ih =>
      by_cases here : char ∈ [first, second, third]
      · exact ⟨_, List.mem_cons_self, by rwa [String.toList_ofList]⟩
      · have later : char ∈ rest := by simp_all
        obtain ⟨fourth, rest, rfl⟩ := List.exists_cons_of_ne_nil (List.ne_nil_of_mem later)
        obtain ⟨key, isKey, inKey⟩ := ih (by simp) (by simp [later])
        exact ⟨key, List.mem_cons_of_mem _ isKey, inKey⟩
  | case2 text short =>
      match text, short with
      | [], _ | [_], _ | [_, _], _ => simp at long
      | first :: second :: third :: rest, short => exact absurd rfl (short first second third rest)

end Patterns

/-! ## What is claimed -/

variable {unicode : Unicode} {config : GinConfig} {changes : List Change} {index : GinIndex}
  {id other : U64} {key : String}

/-- The value was inserted for an id that was not removed since. -/
def Present (changes : List Change) (id : U64) (value : Json) : Prop :=
  ∃ front back, changes = front ++ .insert id value :: back ∧ .remove id ∉ back

theorem holds_iff : Holds unicode config changes id key ↔
    ∃ value, Present changes id value ∧ key ∈ extractKeys unicode config value := by
  constructor
  · rintro ⟨front, value, back, split, kept, extracted⟩
    exact ⟨value, ⟨front, back, split, kept⟩, extracted⟩
  · rintro ⟨value, ⟨front, back, split, kept⟩, extracted⟩
    exact ⟨front, value, back, split, kept, extracted⟩

theorem present_single {value : Json} : Present [.insert id value] id value :=
  ⟨[], [], rfl, List.not_mem_nil⟩

theorem holds_single {value : Json} :
    Holds unicode config [.insert id value] other key ↔
      other = id ∧ key ∈ extractKeys unicode config value := by
  rw [← List.nil_append [Change.insert id value], holds_append]
  constructor
  · rintro (⟨held, -⟩ | ⟨_, ⟨⟩, extracted⟩)
    · exact absurd held holds_nil
    · exact ⟨rfl, extracted⟩
  · rintro ⟨rfl, extracted⟩
    exact .inr ⟨value, rfl, extracted⟩

/-- A search for keys finds the ids that have all of them, and nothing without keys. -/
theorem found_iff (runs : run unicode config changes = some index) {keys : List String} :
    id ∈ index.searchContainsAll keys ↔
      (∃ key, key ∈ keys) ∧ ∀ key ∈ keys, Holds unicode config changes id key := by
  obtain ⟨_, ends, reflects⟩ := reflects_run unicode config changes
  cases runs.symm.trans ends
  by_cases none : keys = []
  · subst none
    simp [searchContainsAll_nil]
  · rw [mem_searchContainsAll none]
    simp only [reflects.view]
    exact (and_iff_right (List.exists_mem_of_ne_nil keys none)).symm

/-- The search finds all records whose values contain the query. -/
def FindsContaining (unicode : Unicode) (config : GinConfig) (changes : List Change)
    (query : Json) : Prop :=
  ∀ index, run unicode config changes = some index → ∀ id value, Present changes id value →
    value.contains query = true → id ∈ index.searchJsonbContains query

/-- A text of ASCII characters. -/
def IsAscii (text : String) : Prop := ∀ char ∈ text.toList, char.toNat < 128

instance (text : String) : Decidable (IsAscii text) := List.decidableBAll _ text.toList

/-- The search finds all records whose texts are of ASCII characters and match the pattern without
regard to case. -/
def FindsMatching (unicode : Unicode) (config : GinConfig) (changes : List Change)
    (pattern : String) : Prop :=
  ∀ index, run unicode config changes = some index → ∀ id text, Present changes id (.string text) →
    IsAscii text → Like (unicode.toLowercase pattern).toList (unicode.toLowercase text).toList →
      id ∈ index.searchTrigram unicode pattern

/-- Every leaf of the query is that of a leaf in no array. -/
def Placed (query : Json) : Prop :=
  HasLeaf query ∧ ∀ key ∈ boundKeys "" query, key ∈ freeKeys "" query

/-- A pattern whose keys have no wildcards, or that no text of ASCII characters matches. -/
def Plain (unicode : Unicode) (pattern : String) : Prop :=
  (∃ char ∈ (unicode.toLowercase pattern).toList, ¬(char.toNat < 128 ∧ char.toLower = char)) ∨
    (trimPercent (unicode.toLowercase pattern).toList).length < 3 ∨
      ∀ char ∈ trimPercent (unicode.toLowercase pattern).toList, ¬IsWildcard char

/-- Texts of ASCII characters are lowered character by character. -/
def Unicode.LowersAscii (unicode : Unicode) : Prop :=
  ∀ text, IsAscii text → (unicode.toLowercase text).toList = text.toList.map Char.toLower

section Paths

variable {query value : Json}

theorem extractKeys_pathOps (strategy : config.strategy = .jsonbPathOps) :
    extractKeys unicode config value = extractJsonbPathOps "" value := by
  simp [extractKeys, strategy]

theorem extractKeys_ops (strategy : config.strategy = .jsonbOps) :
    extractKeys unicode config value = extractJsonbOps value := by
  simp [extractKeys, strategy]

theorem findsContaining_pathOps (strategy : config.strategy = .jsonbPathOps) :
    FindsContaining unicode config changes query ↔ ∀ id value, Present changes id value →
      value.contains query = true →
        HasLeaf query ∧ ∀ key ∈ boundKeys "" query, Holds unicode config changes id key := by
  obtain ⟨index, runs, reflects⟩ := reflects_run unicode config changes
  have search : index.searchJsonbContains query =
      index.searchContainsAll (extractJsonbPathOps "" query) := by
    rw [GinIndex.searchJsonbContains, reflects.configured, strategy]
  have found : ∀ id, id ∈ index.searchJsonbContains query ↔ HasLeaf query ∧
      ∀ key ∈ extractJsonbPathOps "" query, Holds unicode config changes id key := by
    intro id
    rw [search, found_iff runs, ← hasLeaf_iff]
  constructor
  · intro finds id value present contained
    obtain ⟨leaf, held⟩ := (found id).mp (finds index runs id value present contained)
    exact ⟨leaf, fun key bound => held key (mem_extractJsonbPathOps.mpr (.inr bound))⟩
  · intro bound other isIndex id value present contained
    cases runs.symm.trans isIndex
    obtain ⟨leaf, held⟩ := bound id value present contained
    refine (found id).mpr ⟨leaf, fun key extracted => ?_⟩
    rcases mem_extractJsonbPathOps.mp extracted with free | inArray
    · refine holds_iff.mpr ⟨value, present, ?_⟩
      rw [extractKeys_pathOps strategy]
      exact mem_extractJsonbPathOps.mpr (.inl (freeKeys_subset contained free))
    · exact held key inArray

theorem findsContaining_pathOps_all (strategy : config.strategy = .jsonbPathOps) :
    (∀ changes, FindsContaining unicode config changes query) ↔ Placed query := by
  constructor
  · intro finds
    refine ⟨?_, fun key bound => ?_⟩
    · exact ((findsContaining_pathOps strategy).mp (finds [.insert 1 query]) 1 query present_single
        (Json.contains_refl query)).1
    · by_contra inNone
      have held := ((findsContaining_pathOps strategy).mp (finds [.insert 1 _]) 1 _ present_single
        (contains_shift (10 ^ (key.length + 1)) query)).2 key bound
      have extracted := (holds_single.mp held).2
      rw [extractKeys_pathOps strategy] at extracted
      exact not_mem_extract_shift inNone extracted
  · rintro ⟨leaf, placed⟩ changes
    refine (findsContaining_pathOps strategy).mpr fun id value present contained => ?_
    refine ⟨leaf, fun key bound => holds_iff.mpr ⟨value, present, ?_⟩⟩
    rw [extractKeys_pathOps strategy]
    exact mem_extractJsonbPathOps.mpr (.inl (freeKeys_subset contained (placed key bound)))

theorem findsContaining_ops (strategy : config.strategy = .jsonbOps) :
    FindsContaining unicode config changes query ↔ ∀ id value, Present changes id value →
      value.contains query = true → HasText query := by
  obtain ⟨index, runs, reflects⟩ := reflects_run unicode config changes
  have search : index.searchJsonbContains query =
      index.searchContainsAll (extractJsonbOps query) := by
    rw [GinIndex.searchJsonbContains, reflects.configured, strategy]
  have found : ∀ id, id ∈ index.searchJsonbContains query ↔ HasText query ∧
      ∀ key ∈ extractJsonbOps query, Holds unicode config changes id key := by
    intro id
    rw [search, found_iff runs, ← hasText_iff]
  constructor
  · intro finds id value present contained
    exact ((found id).mp (finds index runs id value present contained)).1
  · intro text other isIndex id value present contained
    cases runs.symm.trans isIndex
    refine (found id).mpr ⟨text id value present contained, fun key extracted => ?_⟩
    refine holds_iff.mpr ⟨value, present, ?_⟩
    rw [extractKeys_ops strategy]
    exact extractJsonbOps_subset contained extracted

theorem findsContaining_ops_all (strategy : config.strategy = .jsonbOps) :
    (∀ changes, FindsContaining unicode config changes query) ↔ HasText query := by
  constructor
  · intro finds
    exact (findsContaining_ops strategy).mp (finds [.insert 1 query]) 1 query present_single
      (Json.contains_refl query)
  · exact fun text changes => (findsContaining_ops strategy).mpr fun _ _ _ _ => text

end Paths

section Trigrams

variable {pattern text : String}

theorem extractKeys_trigrams (strategy : config.strategy = .trigramOps) :
    extractKeys unicode config (.string text) = extractTrigrams unicode text := by
  simp [extractKeys, strategy]

theorem extractTrigrams_ascii (lowers : unicode.LowersAscii) (ascii : IsAscii text) :
    key ∈ extractTrigrams unicode text ↔ key.toList.length = 3 ∧
      key.toList <:+: [' ', ' '] ++ (unicode.toLowercase text).toList ++ [' '] := by
  have padded : IsAscii ("  " ++ text ++ " ") := by
    intro char member
    simp only [String.toList_append, List.mem_append] at member
    rcases member with (front | inside) | back
    · simp_all
    · exact ascii char inside
    · simp_all
  rw [extractTrigrams, List.mem_eraseDups, mem_windows, lowers _ padded, lowers _ ascii]
  simp

theorem length_le_utf8ByteSize (text : List Char) :
    text.length ≤ (String.ofList text).utf8ByteSize := by
  induction text with
  | nil => exact Nat.zero_le _
  | cons char text ih =>
      have positive := char.utf8Size_pos
      rw [String.ofList_cons, String.utf8ByteSize_append, String.utf8ByteSize_singleton,
        List.length_cons]
      omega

theorem windows_eq_nil {text : List Char} (short : text.length < 3) : windows text = [] := by
  refine List.eq_nil_iff_forall_not_mem.mpr fun key isKey => ?_
  obtain ⟨length, part⟩ := mem_windows.mp isKey
  have enough := part.length_le
  omega

/-- A text is found if it has all trigrams of the pattern. -/
theorem mem_searchTrigram (lowers : unicode.LowersAscii) (strategy : config.strategy = .trigramOps)
    (runs : run unicode config changes = some index) (present : Present changes id (.string text))
    (ascii : IsAscii text) : id ∈ index.searchTrigram unicode pattern ↔
      ∀ key ∈ windows (trimPercent (unicode.toLowercase pattern).toList),
        Holds unicode config changes id key := by
  have indexed : id ∈ index.forward.keys.toFinset := by
    obtain ⟨_, ends, reflects⟩ := reflects_run unicode config changes
    cases runs.symm.trans ends
    rw [List.mem_toFinset, Std.ExtTreeMap.mem_keys, Std.ExtTreeMap.mem_iff_contains,
      reflects.contains_iff]
    have blank : ' ' ∈ [' ', ' '] ++ (unicode.toLowercase text).toList ++ [' '] := by simp
    obtain ⟨key, isKey, -⟩ := exists_mem_windows (by simp) blank
    refine ⟨key, holds_iff.mpr ⟨_, present, ?_⟩⟩
    rw [extractKeys_trigrams strategy, extractTrigrams_ascii lowers ascii]
    exact mem_windows.mp isKey
  rw [GinIndex.searchTrigram]
  generalize trimPercent (unicode.toLowercase pattern).toList = stripped
  dsimp only
  split
  next few =>
    have short : stripped.length < 3 := (length_le_utf8ByteSize stripped).trans_lt few
    simp [indexed, windows_eq_nil short]
  next =>
    split
    next none =>
      have empty : windows stripped = [] := by
        refine List.eq_nil_iff_forall_not_mem.mpr fun key isKey => ?_
        rw [← List.mem_eraseDups, List.isEmpty_iff.mp none] at isKey
        exact List.not_mem_nil isKey
      simp [indexed, empty]
    next some =>
      have keys := List.exists_mem_of_ne_nil _ fun empty => some (List.isEmpty_iff.mpr empty)
      rw [found_iff runs, and_iff_right keys]
      simp only [List.mem_eraseDups]

-- From here on the search is known by its members alone.
attribute [irreducible] GinIndex.searchTrigram

theorem findsMatching (lowers : unicode.LowersAscii) (strategy : config.strategy = .trigramOps) :
    FindsMatching unicode config changes pattern ↔ ∀ id text, Present changes id (.string text) →
      IsAscii text → Like (unicode.toLowercase pattern).toList (unicode.toLowercase text).toList →
        ∀ key ∈ windows (trimPercent (unicode.toLowercase pattern).toList),
          (∃ char ∈ key.toList, IsWildcard char) → Holds unicode config changes id key := by
  obtain ⟨index, runs, reflects⟩ := reflects_run unicode config changes
  constructor
  · intro finds id text present ascii like key isKey _
    have found := finds index runs id text present ascii like
    rw [mem_searchTrigram lowers strategy runs present ascii] at found
    exact found key isKey
  · intro held other isIndex id text present ascii like
    cases runs.symm.trans isIndex
    rw [mem_searchTrigram lowers strategy runs present ascii]
    intro key isKey
    by_cases wild : ∃ char ∈ key.toList, IsWildcard char
    · exact held id text present ascii like key isKey wild
    · obtain ⟨length, part⟩ := mem_windows.mp isKey
      have inText := like.isInfix (part.trans (trimPercent_isInfix _))
        fun char member isWild => wild ⟨char, member, isWild⟩
      refine holds_iff.mpr ⟨_, present, ?_⟩
      rw [extractKeys_trigrams strategy, extractTrigrams_ascii lowers ascii]
      exact ⟨length, inText.trans ⟨[' ', ' '], [' '], rfl⟩⟩

/-- A text without wildcards that matches a pattern. -/
def sample (pattern : List Char) : List Char :=
  (pattern.filter fun char => char ≠ '%').map fun char => if char = '_' then 'a' else char

theorem like_sample (pattern : List Char) : Like pattern (sample pattern) := by
  induction pattern with
  | nil => exact .nil
  | cons char pattern ih =>
      by_cases percent : char = '%'
      · subst percent
        exact .percent [] ih
      · rw [sample, List.filter_cons_of_pos (by simpa using percent), List.map_cons]
        split
        next underscore =>
          subst underscore
          exact .underscore 'a' ih
        next literal => exact .literal (fun wild => wild.elim percent literal) ih

theorem mem_sample {pattern : List Char} {char : Char} (member : char ∈ sample pattern) :
    ¬IsWildcard char ∧ (char = 'a' ∨ char ∈ pattern) := by
  obtain ⟨other, inside, rfl⟩ := List.mem_map.mp member
  obtain ⟨inside, notPercent⟩ := List.mem_filter.mp inside
  split
  next => exact ⟨by decide, .inl rfl⟩
  next notUnderscore =>
    exact ⟨fun wild => wild.elim (by simpa using notPercent) notUnderscore, .inr inside⟩

theorem notWildcard_space (char : Char) (space : char = ' ') : ¬IsWildcard char := by
  subst space
  decide

theorem ascii_of_wildcard {char : Char} (wildcard : IsWildcard char) :
    char.toNat < 128 ∧ char.toLower = char := by
  rcases wildcard with rfl | rfl <;> decide

theorem ascii_toLower {char : Char} (ascii : char.toNat < 128) :
    char.toLower.toNat < 128 ∧ char.toLower.toLower = char.toLower := by
  have every : ∀ code < 128, (Char.ofNat code).toLower.toNat < 128 ∧
      (Char.ofNat code).toLower.toLower = (Char.ofNat code).toLower := by decide
  have here := every char.toNat ascii
  rwa [Char.ofNat_toNat] at here

theorem findsMatching_all (lowers : unicode.LowersAscii)
    (strategy : config.strategy = .trigramOps) :
    (∀ changes, FindsMatching unicode config changes pattern) ↔ Plain unicode pattern := by
  constructor
  · intro finds
    by_contra notPlain
    rw [Plain, not_or, not_or] at notPlain
    obtain ⟨noOther, long, wild⟩ := notPlain
    have lowered : ∀ char ∈ (unicode.toLowercase pattern).toList,
        char.toNat < 128 ∧ char.toLower = char :=
      fun char member => by_contra fun other => noOther ⟨char, member, other⟩
    obtain ⟨wildcard, inside, isWildcard⟩ :
        ∃ char ∈ trimPercent (unicode.toLowercase pattern).toList, IsWildcard char :=
      by_contra fun none => wild fun char member isWild => none ⟨char, member, isWild⟩
    obtain ⟨key, isKey, inKey⟩ := exists_mem_windows (Nat.le_of_not_lt long) inside
    have members : ∀ char ∈ sample (unicode.toLowercase pattern).toList,
        char.toNat < 128 ∧ char.toLower = char := by
      intro char member
      rcases (mem_sample member).2 with rfl | inside
      · decide
      · exact lowered char inside
    have ascii : IsAscii (String.ofList (sample (unicode.toLowercase pattern).toList)) := by
      intro char member
      exact (members char (by rwa [String.toList_ofList] at member)).1
    have same : (unicode.toLowercase
        (String.ofList (sample (unicode.toLowercase pattern).toList))).toList =
          sample (unicode.toLowercase pattern).toList := by
      rw [lowers _ ascii, String.toList_ofList]
      exact (List.map_congr_left fun char member => (members char member).2).trans (List.map_id _)
    have held := (findsMatching lowers strategy).mp (finds [.insert 1 (.string _)]) 1 _
      present_single ascii (by rw [same]; exact like_sample _) key isKey
      ⟨wildcard, inKey, isWildcard⟩
    have extracted := (holds_single.mp held).2
    rw [extractKeys_trigrams strategy] at extracted
    obtain ⟨-, part⟩ := (extractTrigrams_ascii lowers ascii).mp extracted
    have member := part.subset inKey
    rw [same] at member
    rcases List.mem_append.mp member with front | back
    · rcases List.mem_append.mp front with space | inside
      · exact notWildcard_space wildcard (by simpa using space) isWildcard
      · exact (mem_sample inside).1 isWildcard
    · exact notWildcard_space wildcard (by simpa using back) isWildcard
  · intro plain changes
    refine (findsMatching lowers strategy).mpr fun id text present ascii like key isKey wild => ?_
    obtain ⟨wildcard, inKey, isWildcard⟩ := wild
    obtain ⟨length, part⟩ := mem_windows.mp isKey
    rcases plain with ⟨char, member, notLowered⟩ | short | literal
    · rcases like.mem member with isWild | inText
      · exact absurd (ascii_of_wildcard isWild) notLowered
      · rw [lowers _ ascii] at inText
        obtain ⟨other, inside, rfl⟩ := List.mem_map.mp inText
        exact absurd (ascii_toLower (ascii other inside)) notLowered
    · rw [windows_eq_nil short] at isKey
      cases isKey
    · exact absurd isWildcard (literal wildcard (part.subset inKey))

end Trigrams

/-- Which candidate searches miss nothing.  Under the keys of paths, a query has to have a leaf, and
its leaves in arrays have to be found at the same places; for all values this is so only if leaves
in no array have the same keys.  Under keys and leaves, it has to have one of these.  Trigrams of a
pattern that have wildcards have to be found as they are; for all texts this is so only if there
are none. -/
theorem candidates_complete (lowers : unicode.LowersAscii) (config : GinConfig) :
    (config.strategy = .jsonbPathOps → ∀ query,
      (∀ changes, FindsContaining unicode config changes query ↔ ∀ id value,
        Present changes id value → value.contains query = true →
          HasLeaf query ∧ ∀ key ∈ boundKeys "" query, Holds unicode config changes id key) ∧
      ((∀ changes, FindsContaining unicode config changes query) ↔ Placed query)) ∧
    (config.strategy = .jsonbOps → ∀ query,
      (∀ changes, FindsContaining unicode config changes query ↔ ∀ id value,
        Present changes id value → value.contains query = true → HasText query) ∧
      ((∀ changes, FindsContaining unicode config changes query) ↔ HasText query)) ∧
    (config.strategy = .trigramOps → ∀ pattern,
      (∀ changes, FindsMatching unicode config changes pattern ↔ ∀ id text,
        Present changes id (.string text) → IsAscii text →
          Like (unicode.toLowercase pattern).toList (unicode.toLowercase text).toList →
            ∀ key ∈ windows (trimPercent (unicode.toLowercase pattern).toList),
              (∃ char ∈ key.toList, IsWildcard char) → Holds unicode config changes id key) ∧
      ((∀ changes, FindsMatching unicode config changes pattern) ↔ Plain unicode pattern)) :=
  ⟨fun strategy _ =>
      ⟨fun _ => findsContaining_pathOps strategy, findsContaining_pathOps_all strategy⟩,
    fun strategy _ => ⟨fun _ => findsContaining_ops strategy, findsContaining_ops_all strategy⟩,
    fun strategy _ =>
      ⟨fun _ => findsMatching lowers strategy, findsMatching_all lowers strategy⟩⟩

/-- Lower case of ASCII characters. -/
def asciiLower : Unicode :=
  ⟨fun text => String.ofList (text.toList.map Char.toLower), Char.isAlphanum⟩

theorem lowersAscii_asciiLower : asciiLower.LowersAscii := fun _ _ => String.toList_ofList

/-- Paths of leaves are the keys. -/
def pathConfig : GinConfig := ⟨.jsonbPathOps, false, [], false⟩

theorem candidates_complete_pathConfig :
    FindsContaining asciiLower pathConfig
      [.insert 1 (.object [("age", .number "30"), ("name", .string "alice")])]
      (.object [("name", .string "alice")]) :=
  ((candidates_complete lowersAscii_asciiLower pathConfig).1 rfl
    (.object [("name", .string "alice")])).2.mpr
      ⟨.entry (List.mem_singleton_self _) (.scalar ⟨nofun, nofun⟩), fun _ bound => by cases bound⟩ _

/-- A tag at another place and a pattern with a wildcard inside are not found. -/
theorem not_candidates_complete :
    ¬FindsContaining asciiLower pathConfig
        [.insert 1 (.object [("tags", .array [.string "rust", .string "db"])])]
        (.object [("tags", .array [.string "db"])]) ∧
      ¬FindsMatching asciiLower ⟨.trigramOps, false, [], false⟩ [.insert 1 (.string "abxcd")]
        "ab%cd" := by
  constructor
  · intro finds
    have held := ((findsContaining_pathOps rfl).mp finds 1 _ present_single
      (by decide +kernel)).2 "tags.0=db" (by decide +kernel)
    exact absurd (holds_single.mp held).2 (by decide +kernel)
  · intro finds
    have ascii : IsAscii "abxcd" := by decide +kernel
    have like : Like (asciiLower.toLowercase "ab%cd").toList
        (asciiLower.toLowercase "abxcd").toList := by
      rw [asciiLower, String.toList_ofList, String.toList_ofList]
      exact .literal (by decide) (.literal (by decide) (.percent ['x'] (.literal (by decide)
        (.literal (by decide) .nil))))
    have held := (findsMatching lowersAscii_asciiLower rfl).mp finds 1 _ present_single ascii like
      "b%c" (by decide +kernel) ⟨'%', by decide +kernel, .inl rfl⟩
    exact absurd (holds_single.mp held).2 (by decide +kernel)

end JouleDB.Gin
