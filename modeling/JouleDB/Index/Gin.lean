import Mathlib.Data.Finset.Basic
import Mathlib.Data.Set.Card
import JouleDB.Lib.Bytes
import JouleDB.Lib.FiniteMap

/-!
# The generalized inverted index

The index maps keys that are extracted from values to sets of record ids.  The keys of a record are
kept in the postings, or in a list of pending entries until it is flushed, and in a map from the
record that is needed to remove it.
-/

namespace JouleDB.Gin

/-! ## Values -/

/-- A JSON value.  A number is given by its text. -/
inductive Json where
  | null
  | bool (value : Bool)
  | number (text : String)
  | string (text : String)
  | array (items : List Json)
  | object (entries : List (String × Json))

/-- A character in a JSON string. -/
def escapeChar (char : Char) : String :=
  match char.toNat with
  | 0x08 => "\\b"
  | 0x09 => "\\t"
  | 0x0a => "\\n"
  | 0x0c => "\\f"
  | 0x0d => "\\r"
  | 0x22 => "\\\""
  | 0x5c => "\\\\"
  | code =>
      if code < 0x20 then
        "\\u00" ++ String.ofList [Nat.digitChar (code / 16), Nat.digitChar (code % 16)]
      else String.singleton char

/-- A string in JSON. -/
def quote (text : String) : String := "\"" ++ String.join (text.toList.map escapeChar) ++ "\""

namespace Json

mutual

/-- The text of a value. -/
def toText : Json → String
  | .null => "null"
  | .bool value => if value then "true" else "false"
  | .number text => text
  | .string text => quote text
  | .array items => "[" ++ ",".intercalate (itemTexts items) ++ "]"
  | .object entries => "\x7b" ++ ",".intercalate (entryTexts entries) ++ "\x7d"

/-- The texts of the elements of an array. -/
def itemTexts : List Json → List String
  | [] => []
  | item :: items => item.toText :: itemTexts items

/-- The texts of the entries of an object. -/
def entryTexts : List (String × Json) → List String
  | [] => []
  | (key, value) :: entries => (quote key ++ ":" ++ value.toText) :: entryTexts entries

end

/-- Convert a value to the text that is indexed. -/
def valueToString : Json → String
  | .string text => text
  | value => value.toText

end Json

/-! ## Extraction of keys -/

/-- What kind of keys an index extracts. -/
inductive GinStrategy where
  | jsonbPathOps
  | jsonbOps
  | arrayOps
  | textSearchOps
  | trigramOps
  deriving DecidableEq, Repr

/-- Configuration of an index. -/
structure GinConfig where
  strategy : GinStrategy
  enableStemming : Bool
  stopWords : List String
  fastUpdate : Bool
  deriving DecidableEq, Repr

/-- Lower case and the letters and digits of Unicode. -/
structure Unicode where
  toLowercase : String → String
  isAlphanumeric : Char → Bool

/-- The path of a part of a value. -/
def joinPath (path part : String) : String := if path.isEmpty then part else path ++ "." ++ part

mutual

/-- A key for each leaf, with its path. -/
def extractJsonbPathOps (path : String) : Json → List String
  | .object entries => pathOpsOfEntries path entries
  | .array items => pathOpsOfItems path 0 items
  | value => [path ++ "=" ++ value.valueToString]

/-- The keys of the elements of an array, from an index on. -/
def pathOpsOfItems (path : String) (index : Nat) : List Json → List String
  | [] => []
  | item :: items =>
      extractJsonbPathOps (joinPath path (toString index)) item ++
        pathOpsOfItems path (index + 1) items

/-- The keys of the entries of an object. -/
def pathOpsOfEntries (path : String) : List (String × Json) → List String
  | [] => []
  | (key, value) :: entries =>
      extractJsonbPathOps (joinPath path key) value ++ pathOpsOfEntries path entries

end

mutual

/-- All keys and leaves as separate keys. -/
def extractJsonbOps : Json → List String
  | .object entries => jsonbOpsOfEntries entries
  | .array items => jsonbOpsOfItems items
  | value => [value.valueToString]

/-- The keys of the elements of an array. -/
def jsonbOpsOfItems : List Json → List String
  | [] => []
  | item :: items => extractJsonbOps item ++ jsonbOpsOfItems items

/-- The keys of the entries of an object. -/
def jsonbOpsOfEntries : List (String × Json) → List String
  | [] => []
  | (key, value) :: entries => key :: (extractJsonbOps value ++ jsonbOpsOfEntries entries)

end

/-- A key for each element of an array. -/
def extractArrayOps : Json → List String
  | .array items => items.map Json.valueToString
  | _ => []

/-- The text before a suffix. -/
def stripSuffix (word suffix : String) : Option String :=
  let front := word.toList.take (word.toList.length - suffix.toList.length)
  if front ++ suffix.toList = word.toList then some (String.ofList front) else none

/-- Suffixes that are stripped, how many bytes have to be left, and what is put in their place. -/
def stemRules : List (String × Nat × String) :=
  [("ying", 0, "y"), ("ies", 0, "y"), ("ness", 0, ""), ("ment", 3, ""), ("tion", 2, "te"),
    ("ing", 3, ""), ("ting", 2, "te"), ("ed", 3, ""), ("es", 3, ""), ("s", 3, "")]

/-- Strip a common suffix. -/
def stemWord (word : String) : String :=
  if word.utf8ByteSize ≤ 3 then word
  else
    (stemRules.findSome? fun (suffix, least, ending) =>
      (stripSuffix word suffix).bind fun base =>
        if least ≤ base.utf8ByteSize then some (base ++ ending) else none).getD word

/-- The words of a text, without stop words. -/
def tokenizeText (unicode : Unicode) (config : GinConfig) (text : String) : List String :=
  let words := (unicode.toLowercase text).toList.splitOnP fun char => !unicode.isAlphanumeric char
  let kept := (words.map String.ofList).filter fun word =>
    !word.isEmpty && decide (word ∉ config.stopWords)
  if config.enableStemming then kept.map stemWord else kept

/-- The words of a value. -/
def extractTextTokens (unicode : Unicode) (config : GinConfig) : Json → List String
  | .string text => tokenizeText unicode config text
  | value => tokenizeText unicode config value.toText

/-- Three characters at a time. -/
def windows : List Char → List String
  | first :: second :: third :: rest =>
      String.ofList [first, second, third] :: windows (second :: third :: rest)
  | _ => []

/-- The trigrams of a text between spaces. -/
def extractTrigrams (unicode : Unicode) (text : String) : List String :=
  (windows (unicode.toLowercase ("  " ++ text ++ " ")).toList).eraseDups

/-- Extract the keys of a value. -/
def extractKeys (unicode : Unicode) (config : GinConfig) (value : Json) : List String :=
  match config.strategy with
  | .jsonbPathOps => extractJsonbPathOps "" value
  | .jsonbOps => extractJsonbOps value
  | .arrayOps => extractArrayOps value
  | .textSearchOps => extractTextTokens unicode config value
  | .trigramOps =>
      match value with
      | .string text => extractTrigrams unicode text
      | value => extractTrigrams unicode value.toText

/-! ## The index -/

/-- The ids of each key. -/
abbrev Postings := FiniteMap String (Finset U64)

/-- A generalized inverted index. -/
structure GinIndex where
  config : GinConfig
  postings : Postings
  forward : FiniteMap U64 (Finset String)
  pending : List (U64 × List String)
  count : Nat

/-- Add an id to the postings of a key. -/
def addPosting (id : U64) (postings : Postings) (key : String) : Postings :=
  postings.insert key (insert id (postings.getD key ∅))

/-- Add an id to the postings of several keys. -/
def addPostings (postings : Postings) (entry : U64 × List String) : Postings :=
  entry.2.foldl (addPosting entry.1) postings

/-- Drop an id from the postings of some keys, and the keys that no id is left for. -/
def dropPostings (id : U64) (keys : Finset String) (postings : Postings) : Postings :=
  postings.filterMap fun key ids =>
    if key ∈ keys then
      if ids.erase id = ∅ then none else some (ids.erase id)
    else some ids

namespace GinIndex

/-- An empty index. -/
def new (config : GinConfig) : GinIndex := ⟨config, ∅, ∅, [], 0⟩

/-- Insert the value of a record. -/
def insert (index : GinIndex) (unicode : Unicode) (id : U64) (value : Json) : GinIndex :=
  let keys := extractKeys unicode index.config value
  if keys.isEmpty then index
  else
    let forward := index.forward.insert id (index.forward.getD id ∅ ∪ keys.toFinset)
    if index.config.fastUpdate then
      { index with
        pending := index.pending ++ [(id, keys)]
        forward := forward
        count := index.count + 1 }
    else
      { index with
        postings := addPostings index.postings (id, keys)
        forward := forward
        count := index.count + 1 }

/-- Remove a record; counting below zero panics. -/
def remove (index : GinIndex) (id : U64) : Option (GinIndex × Bool) :=
  match index.forward[id]? with
  | none => some (index, false)
  | some keys =>
      if index.count = 0 then none
      else
        some ({ index with
          postings := dropPostings id keys index.postings
          forward := index.forward.erase id
          pending := index.pending.filter fun entry => decide (entry.1 ≠ id)
          count := index.count - 1 }, true)

/-- Flush the pending entries. -/
def flushPending (index : GinIndex) : GinIndex :=
  { index with
    postings := index.pending.foldl addPostings index.postings
    pending := [] }

/-- The postings with the pending entries. -/
def flushView (index : GinIndex) : Postings := index.pending.foldl addPostings index.postings

/-- Find the ids that have all of some keys. -/
def searchContainsAll (index : GinIndex) (keys : List String) : Finset U64 :=
  (keys.foldl (fun result key =>
    let ids := index.flushView.getD key ∅
    match result with
    | none => some ids
    | some found => some (found ∩ ids)) none).getD ∅

/-- Find the ids that have any of some keys. -/
def searchContainsAny (index : GinIndex) (keys : List String) : Finset U64 :=
  keys.foldl (fun result key => result ∪ index.flushView.getD key ∅) ∅

/-- The number of indexed records. -/
def len (index : GinIndex) : Nat := index.count

end GinIndex

/-- Changes of an index. -/
inductive Change where
  | insert (id : U64) (value : Json)
  | remove (id : U64)
  | flushPending

/-- The index after a change. -/
def GinIndex.change (unicode : Unicode) (index : GinIndex) : Change → Option GinIndex
  | .insert id value => some (index.insert unicode id value)
  | .remove id => (index.remove id).map Prod.fst
  | .flushPending => some index.flushPending

/-- The index that changes lead to. -/
def run (unicode : Unicode) (config : GinConfig) (changes : List Change) : Option GinIndex :=
  changes.foldlM (GinIndex.change unicode) (.new config)

/-! ## What an index should hold -/

variable {unicode : Unicode} {config : GinConfig} {changes : List Change} {index after : GinIndex}
  {id other : U64} {key : String}

/-- A key was extracted from a value that was inserted for an id, which was not removed since. -/
def Holds (unicode : Unicode) (config : GinConfig) (changes : List Change) (id : U64)
    (key : String) : Prop :=
  ∃ front value back, changes = front ++ .insert id value :: back ∧ .remove id ∉ back ∧
    key ∈ extractKeys unicode config value

/-- No value with keys is inserted for an id that has keys. -/
def Fresh (unicode : Unicode) (config : GinConfig) (changes : List Change) : Prop :=
  ∀ front id value back, changes = front ++ .insert id value :: back →
    extractKeys unicode config value ≠ [] → ∀ key, ¬Holds unicode config front id key

theorem holds_nil : ¬Holds unicode config [] id key := by
  rintro ⟨front, value, back, split, -⟩
  exact absurd split.symm (List.append_ne_nil_of_right_ne_nil _ (List.cons_ne_nil _ _))

/-- What an index should hold after one more change. -/
theorem holds_append {last : Change} :
    Holds unicode config (changes ++ [last]) id key ↔
      Holds unicode config changes id key ∧ last ≠ .remove id ∨
        ∃ value, last = .insert id value ∧ key ∈ extractKeys unicode config value := by
  constructor
  · rintro ⟨front, value, back, split, kept, extracted⟩
    rcases List.eq_nil_or_concat back with rfl | ⟨back, final, rfl⟩
    · obtain ⟨rfl, same⟩ := List.append_inj' split rfl
      cases same
      exact .inr ⟨value, rfl, extracted⟩
    · rw [List.concat_eq_append] at split kept
      rw [← List.cons_append, ← List.append_assoc] at split
      obtain ⟨rfl, same⟩ := List.append_inj' split rfl
      cases same
      rw [List.mem_append, not_or, List.mem_singleton] at kept
      exact .inl ⟨⟨front, value, back, rfl, kept.1, extracted⟩, Ne.symm kept.2⟩
  · rintro (⟨⟨front, value, back, rfl, kept, extracted⟩, apart⟩ | ⟨value, rfl, extracted⟩)
    · refine ⟨front, value, back ++ [last], ?_, ?_, extracted⟩
      · rw [List.append_assoc, List.cons_append]
      · rw [List.mem_append, not_or, List.mem_singleton]
        exact ⟨kept, Ne.symm apart⟩
    · exact ⟨changes, value, [], rfl, List.not_mem_nil, extracted⟩

theorem fresh_append {last : Change} :
    Fresh unicode config (changes ++ [last]) ↔
      Fresh unicode config changes ∧ ∀ id value, last = .insert id value →
        extractKeys unicode config value ≠ [] → ∀ key, ¬Holds unicode config changes id key := by
  constructor
  · intro fresh
    refine ⟨fun front id value back split => ?_, fun id value same => ?_⟩
    · refine fresh front id value (back ++ [last]) ?_
      rw [split, List.append_assoc, List.cons_append]
    · exact fresh changes id value [] (by rw [same])
  · rintro ⟨fresh, now⟩ front id value back split
    rcases List.eq_nil_or_concat back with rfl | ⟨back, final, rfl⟩
    · obtain ⟨rfl, same⟩ := List.append_inj' split rfl
      cases same
      exact now id value rfl
    · rw [List.concat_eq_append, ← List.cons_append, ← List.append_assoc] at split
      obtain ⟨rfl, -⟩ := List.append_inj' split rfl
      exact fresh front id value back rfl

/-! ## Postings -/

theorem mem_addPosting {postings : Postings} {added : String} :
    other ∈ (addPosting id postings added).getD key ∅ ↔
      other ∈ postings.getD key ∅ ∨ other = id ∧ key = added := by
  rw [addPosting, Std.ExtTreeMap.getD_insert]
  by_cases same : key = added
  · subst same
    simp [or_comm]
  · simp [same, Ne.symm same]

theorem mem_addPostings {postings : Postings} {keys : List String} :
    other ∈ (addPostings postings (id, keys)).getD key ∅ ↔
      other ∈ postings.getD key ∅ ∨ other = id ∧ key ∈ keys := by
  change other ∈ (keys.foldl (addPosting id) postings).getD key ∅ ↔ _
  induction keys generalizing postings with
  | nil => simp
  | cons added keys ih =>
      rw [List.foldl_cons, ih, mem_addPosting, List.mem_cons]
      tauto

theorem mem_foldl_addPostings {postings : Postings} {entries : List (U64 × List String)} :
    id ∈ (entries.foldl addPostings postings).getD key ∅ ↔
      id ∈ postings.getD key ∅ ∨ ∃ entry ∈ entries, entry.1 = id ∧ key ∈ entry.2 := by
  induction entries generalizing postings with
  | nil => simp
  | cons entry entries ih =>
      rw [List.foldl_cons, ih, mem_addPostings]
      simp only [List.mem_cons, exists_eq_or_imp]
      rw [or_assoc, eq_comm]

theorem mem_dropPostings {postings : Postings} {keys : Finset String} :
    other ∈ (dropPostings id keys postings).getD key ∅ ↔
      other ∈ postings.getD key ∅ ∧ ¬(other = id ∧ key ∈ keys) := by
  rw [dropPostings, Std.ExtTreeMap.getD_eq_getD_getElem?, Std.ExtTreeMap.getD_eq_getD_getElem?,
    Std.ExtTreeMap.getElem?_filterMap']
  cases found : postings[key]? with
  | none => simp
  | some ids =>
      by_cases dropped : key ∈ keys
      · by_cases empty : ids.erase id = ∅
        · have none_left : ∀ other ∈ ids, other = id := by
            intro other member
            by_contra apart
            exact Finset.notMem_empty other (empty ▸ Finset.mem_erase.mpr ⟨apart, member⟩)
          simp only [Option.bind_some, dropped, empty, if_true, Option.getD_none,
            Finset.notMem_empty, Option.getD_some, and_true, false_iff, not_and, not_not]
          exact none_left other
        · simp [dropped, empty, and_comm]
      · simp [dropped]

/-! ## What an index reflects -/

/-- An index reflects changes: it finds what it should hold, and it has counted the ids that have
keys, and more if keys were inserted for one of them. -/
structure Reflects (unicode : Unicode) (config : GinConfig) (changes : List Change)
    (index : GinIndex) : Prop where
  configured : index.config = config
  view : ∀ id key, id ∈ index.flushView.getD key ∅ ↔ Holds unicode config changes id key
  forward : ∀ id key, key ∈ index.forward.getD id ∅ ↔ Holds unicode config changes id key
  nonempty : ∀ (id : U64) (keys : Finset String), index.forward[id]? = some keys → keys ≠ ∅
  counted : index.forward.size ≤ index.count
  exact : index.count = index.forward.size ↔ Fresh unicode config changes

theorem reflects_new (unicode : Unicode) (config : GinConfig) :
    Reflects unicode config [] (.new config) where
  configured := rfl
  view id key := iff_of_false (by simp [GinIndex.new, GinIndex.flushView]) holds_nil
  forward id key := iff_of_false (by simp [GinIndex.new]) holds_nil
  nonempty id keys found := by simp [GinIndex.new] at found
  counted := Nat.le_refl 0
  exact := by
    refine iff_of_true rfl fun front id value back split => ?_
    exact absurd split.symm (List.append_ne_nil_of_right_ne_nil _ (List.cons_ne_nil _ _))

namespace Reflects

/-- An id has an entry in the forward map if and only if it has keys. -/
theorem contains_iff (reflects : Reflects unicode config changes index) :
    index.forward.contains id = true ↔ ∃ key, Holds unicode config changes id key := by
  have held : ∀ key, Holds unicode config changes id key ↔ key ∈ index.forward[id]?.getD ∅ := by
    intro key
    rw [← reflects.forward, Std.ExtTreeMap.getD_eq_getD_getElem?]
  rw [Std.ExtTreeMap.contains_eq_isSome_getElem?, exists_congr held]
  cases found : index.forward[id]? with
  | none => simp
  | some keys =>
      refine iff_of_true rfl ?_
      obtain ⟨key, member⟩ := Finset.nonempty_iff_ne_empty.mpr (reflects.nonempty id keys found)
      exact ⟨key, member⟩

theorem flushPending (reflects : Reflects unicode config changes index) :
    Reflects unicode config (changes ++ [.flushPending]) index.flushPending where
  configured := reflects.configured
  view id key := by
    change id ∈ index.flushView.getD key ∅ ↔ _
    rw [holds_append, reflects.view]
    simp
  forward id key := by
    change key ∈ index.forward.getD id ∅ ↔ _
    rw [holds_append, reflects.forward]
    simp
  nonempty := reflects.nonempty
  counted := reflects.counted
  exact := by
    change index.count = index.forward.size ↔ _
    rw [fresh_append, reflects.exact]
    simp

/-- What inserting a value with keys does, wherever the keys are kept. -/
theorem insert_keys (reflects : Reflects unicode config changes index) {value : Json}
    (some : extractKeys unicode config value ≠ [])
    (sameConfig : after.config = index.config)
    (view : ∀ other key, other ∈ after.flushView.getD key ∅ ↔
      other ∈ index.flushView.getD key ∅ ∨ other = id ∧ key ∈ extractKeys unicode config value)
    (forward : after.forward = index.forward.insert id
      (index.forward.getD id ∅ ∪ (extractKeys unicode config value).toFinset))
    (count : after.count = index.count + 1) :
    Reflects unicode config (changes ++ [.insert id value]) after where
  configured := sameConfig.trans reflects.configured
  view other key := by
    rw [view, reflects.view, holds_append]
    simp only [ne_eq, reduceCtorEq, not_false_eq_true, and_true, Change.insert.injEq]
    refine or_congr_right ⟨?_, ?_⟩
    · rintro ⟨rfl, member⟩
      exact ⟨value, ⟨rfl, rfl⟩, member⟩
    · rintro ⟨_, ⟨rfl, rfl⟩, member⟩
      exact ⟨rfl, member⟩
  forward other key := by
    rw [forward, Std.ExtTreeMap.getD_insert, holds_append, ← reflects.forward]
    simp only [ne_eq, reduceCtorEq, not_false_eq_true, and_true, Change.insert.injEq,
      Std.LawfulEqCmp.compare_eq_iff_eq]
    split
    next same =>
      subst same
      simp
    next apart =>
      refine (or_iff_left ?_).symm
      rintro ⟨_, ⟨same, rfl⟩, -⟩
      exact apart same
  nonempty other keys found := by
    rw [forward, Std.ExtTreeMap.getElem?_insert] at found
    split at found
    next =>
      cases found
      obtain ⟨key, rest, shape⟩ := List.exists_cons_of_ne_nil some
      refine Finset.nonempty_iff_ne_empty.mp ⟨key, Finset.mem_union_right _ ?_⟩
      rw [List.mem_toFinset, shape]
      exact List.mem_cons_self
    next => exact reflects.nonempty other keys found
  counted := by
    have bound := reflects.counted
    rw [forward, count, Std.ExtTreeMap.size_insert]
    split <;> omega
  exact := by
    have exact_ := reflects.exact
    have bound := reflects.counted
    have present := @contains_iff unicode config changes index id reflects
    have now : (∀ id' value', Change.insert id value = .insert id' value' →
        extractKeys unicode config value' ≠ [] →
          ∀ key, ¬Holds unicode config changes id' key) ↔
        ¬∃ key, Holds unicode config changes id key := by
      rw [not_exists]
      constructor
      · exact fun absent => absent id value rfl some
      · rintro absent _ _ ⟨⟩ -
        exact absent
    rw [fresh_append, now, ← present, ← exact_, forward, count, Std.ExtTreeMap.size_insert]
    by_cases inside : index.forward.contains id = true
    · simp only [if_pos inside]
      refine iff_of_false ?_ fun both => both.2 inside
      omega
    · simp only [if_neg inside]
      rw [and_iff_left inside, Nat.succ_inj]

theorem insert (reflects : Reflects unicode config changes index) (id : U64) (value : Json) :
    Reflects unicode config (changes ++ [.insert id value]) (index.insert unicode id value) := by
  have same := reflects.configured
  by_cases none : extractKeys unicode config value = []
  · have kept : index.insert unicode id value = index := by
      rw [GinIndex.insert, same]
      exact if_pos (List.isEmpty_iff.mpr none)
    have holds : ∀ other key, Holds unicode config (changes ++ [.insert id value]) other key ↔
        Holds unicode config changes other key := by
      intro other key
      rw [holds_append]
      simp only [ne_eq, reduceCtorEq, not_false_eq_true, and_true, Change.insert.injEq]
      refine or_iff_left ?_
      rintro ⟨_, ⟨-, rfl⟩, member⟩
      rw [none] at member
      cases member
    have fresh : Fresh unicode config (changes ++ [.insert id value]) ↔
        Fresh unicode config changes := by
      rw [fresh_append]
      refine and_iff_left ?_
      rintro _ _ ⟨⟩ some
      exact absurd none some
    rw [kept]
    exact ⟨same, fun other key => by rw [holds, reflects.view],
      fun other key => by rw [holds, reflects.forward], reflects.nonempty, reflects.counted,
      by rw [fresh, reflects.exact]⟩
  · have some : ¬(extractKeys unicode config value).isEmpty = true := by rwa [List.isEmpty_iff]
    cases fast : config.fastUpdate with
    | true =>
        have added : index.insert unicode id value = { index with
            pending := index.pending ++ [(id, extractKeys unicode config value)]
            forward := index.forward.insert id
              (index.forward.getD id ∅ ∪ (extractKeys unicode config value).toFinset)
            count := index.count + 1 } := by
          rw [GinIndex.insert, same]
          exact (if_neg some).trans (if_pos fast)
        rw [added]
        refine reflects.insert_keys none rfl (fun other key => ?_) rfl rfl
        rw [GinIndex.flushView, List.foldl_append]
        exact mem_addPostings
    | false =>
        have added : index.insert unicode id value = { index with
            postings := addPostings index.postings (id, extractKeys unicode config value)
            forward := index.forward.insert id
              (index.forward.getD id ∅ ∪ (extractKeys unicode config value).toFinset)
            count := index.count + 1 } := by
          rw [GinIndex.insert, same]
          exact (if_neg some).trans (if_neg (by rw [fast]; exact Bool.false_ne_true))
        rw [added]
        refine reflects.insert_keys none rfl (fun other key => ?_) rfl rfl
        rw [GinIndex.flushView, GinIndex.flushView, mem_foldl_addPostings, mem_foldl_addPostings,
          mem_addPostings]
        exact or_right_comm

theorem remove (reflects : Reflects unicode config changes index) (id : U64) :
    ∃ after removed, index.remove id = some (after, removed) ∧
      Reflects unicode config (changes ++ [.remove id]) after := by
  have present := @contains_iff unicode config changes index id reflects
  rw [Std.ExtTreeMap.contains_eq_isSome_getElem?] at present
  have holds : ∀ other key, Holds unicode config (changes ++ [.remove id]) other key ↔
      Holds unicode config changes other key ∧ other ≠ id := by
    intro other key
    rw [holds_append]
    simp only [ne_eq, Change.remove.injEq, reduceCtorEq, false_and, exists_false, or_false]
    rw [eq_comm]
  have fresh : Fresh unicode config (changes ++ [.remove id]) ↔ Fresh unicode config changes := by
    rw [fresh_append]
    exact and_iff_left nofun
  rw [GinIndex.remove]
  cases found : index.forward[id]? with
  | none =>
      rw [found] at present
      have absent : ∀ key, ¬Holds unicode config changes id key :=
        not_exists.mp fun held => Bool.false_ne_true (present.mpr held)
      have same : ∀ other key, Holds unicode config (changes ++ [.remove id]) other key ↔
          Holds unicode config changes other key := by
        intro other key
        rw [holds]
        exact and_iff_left_of_imp fun held equal => absent key (equal ▸ held)
      exact ⟨index, false, rfl, reflects.configured,
        fun other key => by rw [same, reflects.view],
        fun other key => by rw [same, reflects.forward], reflects.nonempty, reflects.counted,
        by rw [fresh, reflects.exact]⟩
  | some keys =>
      have inside : index.forward.contains id = true := by
        rw [Std.ExtTreeMap.contains_eq_isSome_getElem?, found]
        rfl
      have positive : 0 < index.forward.size := by
        refine Nat.pos_of_ne_zero fun zero => ?_
        rw [Std.ExtTreeMap.eq_empty_iff_size_eq_zero.mpr zero] at found
        simp at found
      have counted := reflects.counted
      have exact_ := reflects.exact
      have fits : index.count ≠ 0 := by omega
      have stored : ∀ key, key ∈ keys ↔ Holds unicode config changes id key := by
        intro key
        rw [← reflects.forward, Std.ExtTreeMap.getD_eq_getD_getElem?, found]
        rfl
      dsimp only
      rw [if_neg fits]
      refine ⟨_, true, rfl, reflects.configured, fun other key => ?_, fun other key => ?_,
        fun other keys' isStored => ?_, ?_, ?_⟩
      · rw [holds, ← reflects.view, GinIndex.flushView, GinIndex.flushView, mem_foldl_addPostings,
          mem_foldl_addPostings, mem_dropPostings, stored]
        simp only [List.mem_filter, decide_eq_true_eq]
        constructor
        · rintro (⟨posted, kept⟩ | ⟨entry, ⟨member, apart⟩, rfl, has⟩)
          · refine ⟨.inl posted, fun same => kept ⟨same, ?_⟩⟩
            rw [← same, ← reflects.view, GinIndex.flushView, mem_foldl_addPostings]
            exact .inl posted
          · exact ⟨.inr ⟨entry, member, rfl, has⟩, apart⟩
        · rintro ⟨posted | ⟨entry, member, rfl, has⟩, apart⟩
          · exact .inl ⟨posted, fun both => apart both.1⟩
          · exact .inr ⟨entry, ⟨member, apart⟩, rfl, has⟩
      · rw [holds, Std.ExtTreeMap.getD_erase, ← reflects.forward]
        simp only [Std.LawfulEqCmp.compare_eq_iff_eq]
        split
        next same => simp [same]
        next apart => exact (and_iff_left (Ne.symm apart)).symm
      · rw [Std.ExtTreeMap.getElem?_erase] at isStored
        split at isStored
        next => cases isStored
        next => exact reflects.nonempty other keys' isStored
      · change (index.forward.erase id).size ≤ index.count - 1
        rw [Std.ExtTreeMap.size_erase, if_pos inside]
        omega
      · change index.count - 1 = (index.forward.erase id).size ↔ _
        rw [fresh, ← exact_, Std.ExtTreeMap.size_erase, if_pos inside]
        omega

theorem change (reflects : Reflects unicode config changes index) (last : Change) :
    ∃ after, index.change unicode last = some after ∧
      Reflects unicode config (changes ++ [last]) after := by
  cases last with
  | insert id value => exact ⟨_, rfl, reflects.insert id value⟩
  | remove id =>
      obtain ⟨after, removed, removes, later⟩ := reflects.remove id
      exact ⟨after, by rw [GinIndex.change, removes]; rfl, later⟩
  | flushPending => exact ⟨_, rfl, reflects.flushPending⟩

end Reflects

/-- Every run ends, and its index reflects its changes. -/
theorem reflects_run (unicode : Unicode) (config : GinConfig) (changes : List Change) :
    ∃ index, run unicode config changes = some index ∧ Reflects unicode config changes index := by
  induction changes using List.reverseRecOn with
  | nil => exact ⟨_, rfl, reflects_new unicode config⟩
  | append_singleton changes last ih =>
      obtain ⟨index, runs, reflects⟩ := ih
      obtain ⟨after, ends, later⟩ := reflects.change last
      refine ⟨after, ?_, later⟩
      rw [run] at runs
      rw [run, List.foldlM_append, runs]
      change [last].foldlM (GinIndex.change unicode) index = some after
      rw [List.foldlM_cons, ends]
      rfl

/-! ## Searches -/

theorem mem_searchContainsAny {keys : List String} :
    id ∈ index.searchContainsAny keys ↔ ∃ key ∈ keys, id ∈ index.flushView.getD key ∅ := by
  suffices found : ∀ start : Finset U64,
      id ∈ keys.foldl (fun result key => result ∪ index.flushView.getD key ∅) start ↔
        id ∈ start ∨ ∃ key ∈ keys, id ∈ index.flushView.getD key ∅ by
    rw [GinIndex.searchContainsAny, found]
    simp
  induction keys with
  | nil => simp
  | cons first keys ih =>
      intro start
      rw [List.foldl_cons, ih, Finset.mem_union]
      simp only [List.mem_cons, exists_eq_or_imp]
      rw [or_assoc]

/-- Intersecting with the ids of one key after the other. -/
theorem mem_intersections {view : Postings} {keys : List String} (start : Finset U64) :
    ∃ result, keys.foldl (fun result key =>
        let ids := view.getD key ∅
        match result with
        | none => some ids
        | some found => some (found ∩ ids)) (some start) = some result ∧
      (id ∈ result ↔ id ∈ start ∧ ∀ key ∈ keys, id ∈ view.getD key ∅) := by
  induction keys generalizing start with
  | nil => exact ⟨start, rfl, by simp⟩
  | cons first keys ih =>
      obtain ⟨result, ends, members⟩ := ih (start ∩ view.getD first ∅)
      refine ⟨result, ends, ?_⟩
      rw [members, Finset.mem_inter, List.forall_mem_cons, and_assoc]

theorem mem_searchContainsAll {keys : List String} (nonempty : keys ≠ []) :
    id ∈ index.searchContainsAll keys ↔ ∀ key ∈ keys, id ∈ index.flushView.getD key ∅ := by
  obtain ⟨first, keys, rfl⟩ := List.exists_cons_of_ne_nil nonempty
  obtain ⟨result, ends, members⟩ :=
    @mem_intersections id index.flushView keys (index.flushView.getD first ∅)
  rw [List.forall_mem_cons, ← members, GinIndex.searchContainsAll, List.foldl_cons, ends]
  rfl

theorem searchContainsAll_nil : index.searchContainsAll [] = ∅ := rfl

/-! ## What is claimed -/

theorem Reflects.size_eq (reflects : Reflects unicode config changes index) :
    index.forward.size = {id | ∃ key, Holds unicode config changes id key}.ncard := by
  have same : {id | ∃ key, Holds unicode config changes id key} =
      (index.forward.keys.toFinset : Set U64) := by
    ext id
    rw [Set.mem_ofPred_eq, ← reflects.contains_iff, Finset.mem_coe, List.mem_toFinset,
      Std.ExtTreeMap.mem_keys, Std.ExtTreeMap.mem_iff_contains]
  rw [same, Set.ncard_coe_finset, List.toFinset_card_of_nodup Std.ExtTreeMap.nodup_keys,
    Std.ExtTreeMap.length_keys]

/-- Changes other than flushing. -/
def Change.isFlush : Change → Bool
  | .flushPending => true
  | _ => false

/-- What an index should hold does not depend on where it is flushed. -/
theorem holds_filter :
    Holds unicode config (changes.filter fun change => !change.isFlush) id key ↔
      Holds unicode config changes id key := by
  induction changes using List.reverseRecOn with
  | nil => exact Iff.rfl
  | append_singleton changes last ih =>
      rw [List.filter_append, holds_append, ← ih]
      cases last with
      | flushPending => simp [Change.isFlush]
      | insert id value =>
          rw [List.filter_cons_of_pos rfl, List.filter_nil, holds_append]
      | remove id =>
          rw [List.filter_cons_of_pos rfl, List.filter_nil, holds_append]

/-- After every run the searches find the ids with any or with all of the keys, wherever the index
was flushed, a record that is removed is found no more, and removing does not panic.  The number of
records is the number of ids with keys if and only if no value with keys was inserted for an id
that had keys. -/
theorem searches_exact (unicode : Unicode) (config : GinConfig) (changes : List Change) :
    ∃ index, run unicode config changes = some index ∧
      (∀ keys id, id ∈ index.searchContainsAny keys ↔
        ∃ key ∈ keys, Holds unicode config changes id key) ∧
      (∀ keys, keys ≠ [] → ∀ id, id ∈ index.searchContainsAll keys ↔
        ∀ key ∈ keys, Holds unicode config changes id key) ∧
      (∀ others : List Change, (others.filter fun change => !change.isFlush) =
          (changes.filter fun change => !change.isFlush) →
        ∀ other, run unicode config others = some other → ∀ keys,
          other.searchContainsAny keys = index.searchContainsAny keys ∧
            other.searchContainsAll keys = index.searchContainsAll keys) ∧
      (∀ id, ∃ after removed, index.remove id = some (after, removed) ∧ ∀ keys,
        id ∉ after.searchContainsAny keys ∧ id ∉ after.searchContainsAll keys) ∧
      (index.len = {id | ∃ key, Holds unicode config changes id key}.ncard ↔
        Fresh unicode config changes) := by
  obtain ⟨index, runs, reflects⟩ := reflects_run unicode config changes
  have any : ∀ {changes index}, Reflects unicode config changes index → ∀ keys id,
      id ∈ index.searchContainsAny keys ↔ ∃ key ∈ keys, Holds unicode config changes id key := by
    intro changes index reflects keys id
    rw [mem_searchContainsAny]
    simp only [reflects.view]
  have all : ∀ {changes index}, Reflects unicode config changes index → ∀ keys, keys ≠ [] → ∀ id,
      id ∈ index.searchContainsAll keys ↔ ∀ key ∈ keys, Holds unicode config changes id key := by
    intro changes index reflects keys nonempty id
    rw [mem_searchContainsAll nonempty]
    simp only [reflects.view]
  refine ⟨index, runs, any reflects, all reflects, ?_, fun id => ?_, ?_⟩
  · intro others same other runs' keys
    obtain ⟨other', runs'', reflects'⟩ := reflects_run unicode config others
    cases runs'.symm.trans runs''
    have holds : ∀ id key, Holds unicode config others id key ↔
        Holds unicode config changes id key := by
      intro id key
      rw [← holds_filter, same, holds_filter]
    constructor
    · ext id
      rw [any reflects', any reflects]
      simp only [holds]
    · by_cases none : keys = []
      · rw [none, searchContainsAll_nil, searchContainsAll_nil]
      · ext id
        rw [all reflects' keys none, all reflects keys none]
        simp only [holds]
  · obtain ⟨after, removed, removes, later⟩ := reflects.remove id
    have gone : ∀ key, ¬Holds unicode config (changes ++ [.remove id]) id key := by
      intro key
      rw [holds_append]
      simp
    refine ⟨after, removed, removes, fun keys => ⟨?_, ?_⟩⟩
    · rw [any later]
      rintro ⟨key, -, held⟩
      exact gone key held
    · by_cases none : keys = []
      · rw [none, searchContainsAll_nil]
        exact Finset.notMem_empty id
      · rw [all later keys none]
        obtain ⟨key, rest, rfl⟩ := List.exists_cons_of_ne_nil none
        exact fun held => gone key (held key List.mem_cons_self)
  · rw [GinIndex.len, ← reflects.size_eq, reflects.exact]

/-- Two values are inserted for one id. -/
def insertTwice : List Change :=
  [.insert 1 (.array [.string "a"]), .insert 1 (.array [.string "b"])]

/-- Texts as they are. -/
def plain : Unicode := ⟨fun text => text, Char.isAlphanum⟩

/-- The index counts an id twice if values are inserted for it twice. -/
theorem not_searches_exact_insertTwice :
    ¬∀ index, run plain ⟨.arrayOps, false, [], false⟩ insertTwice = some index →
      index.len = {id | ∃ key, Holds plain ⟨.arrayOps, false, [], false⟩ insertTwice id key}.ncard := by
  intro counted
  obtain ⟨index, runs, reflects⟩ :=
    reflects_run plain ⟨.arrayOps, false, [], false⟩ insertTwice
  have fresh := reflects.exact.mp ((counted index runs).trans reflects.size_eq.symm)
  refine fresh [.insert 1 (.array [.string "a"])] 1 (.array [.string "b"]) [] rfl ?_ "a" ?_
  · exact List.cons_ne_nil _ _
  · exact ⟨[], _, [], rfl, List.not_mem_nil, List.mem_cons_self⟩

end JouleDB.Gin
