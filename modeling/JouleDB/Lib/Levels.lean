import Mathlib.Data.List.Basic
import Mathlib.Data.List.Sort

/-!
# Versions of a key in tables and levels

A read asks the tables of a level, the one with the highest stamp first, and the levels from the
top.  The first version found is the answer; a version without a value is a deletion.
-/

namespace JouleDB

section Newest

variable {τ β : Type} {stamp : τ → Nat} {read : τ → Option β} {tables : List τ} {value : β}

/-- The tables, the one with the highest stamp first. -/
def newestFirst (stamp : τ → Nat) (tables : List τ) : List τ :=
  tables.insertionSort fun first second => stamp second ≤ stamp first

/-- The first version in the order of the stamps. -/
def newest (stamp : τ → Nat) (read : τ → Option β) (tables : List τ) : Option β :=
  (newestFirst stamp tables).findSome? read

theorem newestFirst_perm : (newestFirst stamp tables).Perm tables :=
  List.perm_insertionSort _ _

theorem newestFirst_pairwise :
    (newestFirst stamp tables).Pairwise fun first second => stamp second ≤ stamp first := by
  have total : Std.Total fun first second : τ => stamp second ≤ stamp first :=
    ⟨fun first second => Nat.le_total _ _⟩
  have transitive : IsTrans τ fun first second => stamp second ≤ stamp first :=
    ⟨fun _ _ _ first second => second.trans first⟩
  exact List.pairwise_insertionSort _ tables

theorem newest_singleton (table : τ) : newest stamp read [table] = read table := by
  rw [newest, newestFirst, List.insertionSort_cons, List.insertionSort_nil,
    List.orderedInsert_nil, List.findSome?_singleton]

theorem newest_eq_none_iff : newest stamp read tables = none ↔ ∀ table ∈ tables, read table = none := by
  rw [newest, List.findSome?_eq_none_iff]
  constructor
  · intro none table member
    exact none table (newestFirst_perm.mem_iff.mpr member)
  · intro none table member
    exact none table (newestFirst_perm.mem_iff.mp member)

/-- The version that is found stands in a table whose stamp is highest among those with a
version. -/
theorem exists_of_newest_eq_some (found : newest stamp read tables = some value) :
    ∃ table ∈ tables, read table = some value ∧
      ∀ other ∈ tables, read other ≠ none → stamp other ≤ stamp table := by
  obtain ⟨before, table, after, split, isRead, unread⟩ := List.findSome?_eq_some_iff.mp found
  have sorted : (newestFirst stamp tables).Pairwise _ := newestFirst_pairwise
  rw [split, List.pairwise_append, List.pairwise_cons] at sorted
  have held : table ∈ newestFirst stamp tables := by
    rw [split]
    exact List.mem_append_right _ List.mem_cons_self
  refine ⟨table, newestFirst_perm.mem_iff.mp held, isRead, ?_⟩
  intro other member present
  rcases List.mem_append.mp (split ▸ newestFirst_perm.mem_iff.mpr member) with early | late
  · exact absurd (unread other early) present
  · rcases List.mem_cons.mp late with rfl | later
    · exact Nat.le_refl _
    · exact sorted.2.1.1 other later

/-- A version in the table with the highest stamp is found. -/
theorem newest_eq_some_of_forall {table : τ} (member : table ∈ tables)
    (isRead : read table = some value)
    (highest : ∀ other ∈ tables, read other ≠ none → other ≠ table → stamp other < stamp table) :
    newest stamp read tables = some value := by
  cases found : newest stamp read tables with
  | none =>
      rw [newest_eq_none_iff.mp found table member] at isRead
      cases isRead
  | some first =>
      obtain ⟨holder, holds, isFirst, above⟩ := exists_of_newest_eq_some found
      have present : read table ≠ none := by simp [isRead]
      have least := above table member present
      by_cases same : holder = table
      · rw [← isFirst, same, isRead]
      · have less := highest holder holds (by simp [isFirst]) same
        omega

theorem newest_congr {other : τ → Option β} (same : ∀ table ∈ tables, read table = other table) :
    newest stamp read tables = newest stamp other tables := by
  have sorted : ∀ table ∈ newestFirst stamp tables, read table = other table := fun table member =>
    same table (newestFirst_perm.mem_iff.mp member)
  rw [newest, newest]
  generalize newestFirst stamp tables = ordered at sorted ⊢
  induction ordered with
  | nil => rfl
  | cons table ordered ih =>
      obtain ⟨here, later⟩ := List.forall_mem_cons.mp sorted
      rw [List.findSome?_cons, List.findSome?_cons, here, ih later]

/-- Tables that stand before others whenever they have a version of the same key. -/
theorem newest_eq_or {front back : List τ}
    (covers : ∀ table, table ∈ tables ↔ table ∈ front ∨ table ∈ back)
    (distinct : ∀ first ∈ tables, ∀ second ∈ tables, stamp first = stamp second → first = second)
    (newer : ∀ first ∈ front, ∀ second ∈ back, read first ≠ none → read second ≠ none →
      stamp second < stamp first) :
    newest stamp read tables = (newest stamp read front).or (newest stamp read back) := by
  -- A table with the highest stamp in one of the two lists, where no other list has a higher one.
  have highest : ∀ part : List τ, (∀ table ∈ part, table ∈ tables) → ∀ value,
      newest stamp read part = some value →
      (∀ table ∈ part, read table ≠ none → ∀ other ∈ tables, other ∉ part → read other ≠ none →
        stamp other < stamp table) →
      newest stamp read tables = some value := by
    intro part within value found above
    obtain ⟨holder, holds, isRead, top⟩ := exists_of_newest_eq_some found
    apply newest_eq_some_of_forall (within holder holds) isRead
    intro other member present apart
    by_cases inside : other ∈ part
    · have unequal : stamp other ≠ stamp holder := fun equal =>
        apart (distinct other member holder (within holder holds) equal)
      exact Nat.lt_of_le_of_ne (top other inside present) unequal
    · exact above holder holds (by simp [isRead]) other member inside present
  cases first : newest stamp read front with
  | some value =>
      rw [Option.some_or]
      apply highest front (fun table member => (covers table).mpr (.inl member)) value first
      intro table inFront present other member outside otherPresent
      rcases (covers other).mp member with inside | inBack
      · exact absurd inside outside
      · exact newer table inFront other inBack present otherPresent
  | none =>
      have frontNone := newest_eq_none_iff.mp first
      rw [Option.none_or]
      cases second : newest stamp read back with
      | some value =>
          apply highest back (fun table member => (covers table).mpr (.inr member)) value second
          intro table inBack present other member outside otherPresent
          rcases (covers other).mp member with inFront | inside
          · exact absurd (frontNone other inFront) otherPresent
          · exact absurd inside outside
      | none =>
          have backNone := newest_eq_none_iff.mp second
          apply newest_eq_none_iff.mpr
          intro table member
          rcases (covers table).mp member with inFront | inBack
          · exact frontNone table inFront
          · exact backNone table inBack

end Newest

section Levels

variable {β : Type} {levels changed : Nat → Option (Option β)} {value : Option β}

/-- The value of a key whose newest versions in the levels are given: that of the first level with a
version, and none if there is no version. -/
def Resolves (levels : Nat → Option (Option β)) (value : Option β) : Prop :=
  (∃ level, levels level = some value ∧ ∀ above < level, levels above = none) ∨
    (value = none ∧ ∀ level, levels level = none)

theorem Resolves.unique {other : Option β} (first : Resolves levels value)
    (second : Resolves levels other) : value = other := by
  rcases first with ⟨level, found, above⟩ | ⟨rfl, nowhere⟩
  · rcases second with ⟨level', found', above'⟩ | ⟨rfl, nowhere⟩
    · rcases Nat.lt_trichotomy level level' with less | rfl | greater
      · rw [above' level less] at found
        cases found
      · rw [found] at found'
        cases found'
        rfl
      · rw [above level' greater] at found'
        cases found'
    · rw [nowhere level] at found
      cases found
  · rcases second with ⟨level', found', above'⟩ | ⟨rfl, nowhere⟩
    · rw [nowhere level'] at found'
      cases found'
    · rfl

/-- A first level without a version does not matter. -/
theorem Resolves.shift (first : levels 0 = none)
    (resolves : Resolves (fun level => levels (level + 1)) value) : Resolves levels value := by
  rcases resolves with ⟨level, found, above⟩ | ⟨isNone, nowhere⟩
  · refine .inl ⟨level + 1, found, ?_⟩
    intro other less
    cases other with
    | zero => exact first
    | succ other => exact above other (Nat.lt_of_succ_lt_succ less)
  · refine .inr ⟨isNone, ?_⟩
    intro level
    cases level with
    | zero => exact first
    | succ level => exact nowhere level

/-- A version is moved from a level to the next one, where it replaces what was there; a deletion
may be dropped when there is no level below. -/
theorem Resolves.push {level : Nat} {source target rest below output : Option (Option β)}
    (resolves : Resolves levels value)
    (others : ∀ other, other ≠ level → other ≠ level + 1 → changed other = levels other)
    (here : levels level = source.or rest) (here' : changed level = rest)
    (next : levels (level + 1) = target.or below)
    (next' : changed (level + 1) = output.or below)
    (alone : source ≠ none → rest = none)
    (covers : source ≠ none ∨ target ≠ none → below = none)
    (moved : output = source.or target ∨
      output = none ∧ source.or target = some none ∧ ∀ other > level + 1, levels other = none) :
    Resolves changed value := by
  have above : ∀ other < level, changed other = levels other := fun other less =>
    others other (by omega) (by omega)
  -- By the version that the upper level had; if it had none, by that of the lower one.
  cases source with
  | some version =>
      rw [alone (by simp)] at here'
      rw [covers (.inl (by simp))] at next'
      rcases resolves with ⟨found, isFound, unseen⟩ | ⟨_, nowhere⟩
      · rcases Nat.lt_trichotomy found level with less | rfl | greater
        · refine .inl ⟨found, (above found less).trans isFound, ?_⟩
          intro other smaller
          exact (above other (smaller.trans less)).trans (unseen other smaller)
        · rw [here] at isFound
          cases isFound
          have upper : ∀ other < found + 1, changed other = none := by
            intro other less
            rcases Nat.lt_succ_iff_lt_or_eq.mp less with smaller | rfl
            · exact (above other smaller).trans (unseen other smaller)
            · exact here'
          rcases moved with kept | ⟨dropped, isDeletion, nothing⟩
          · rw [kept] at next'
            exact .inl ⟨found + 1, next', upper⟩
          · rw [dropped] at next'
            cases isDeletion
            refine .inr ⟨rfl, ?_⟩
            intro other
            rcases Nat.lt_trichotomy other (found + 1) with less | rfl | greater
            · exact upper other less
            · exact next'
            · exact (others other (by omega) (by omega)).trans (nothing other greater)
        · have missing := unseen level greater
          rw [here] at missing
          cases missing
      · have missing := nowhere level
        rw [here] at missing
        cases missing
  | none =>
      have same : changed level = levels level := here'.trans here.symm
      rw [Option.none_or] at moved
      rcases moved with kept | ⟨dropped, isDeletion, nothing⟩
      · have unchanged : changed = levels := by
          funext other
          by_cases isHere : other = level
          · rw [isHere, same]
          · by_cases isNext : other = level + 1
            · rw [isNext, next', kept, next]
            · exact others other isHere isNext
        rwa [unchanged]
      · rw [isDeletion] at next covers
        rw [dropped, covers (.inr (by simp))] at next'
        have upper : ∀ other ≤ level, changed other = levels other := by
          intro other bound
          rcases Nat.lt_or_eq_of_le bound with less | rfl
          · exact above other less
          · exact same
        rcases resolves with ⟨found, isFound, unseen⟩ | ⟨_, nowhere⟩
        · rcases Nat.lt_trichotomy found (level + 1) with less | rfl | greater
          · refine .inl ⟨found, (upper found (by omega)).trans isFound, ?_⟩
            intro other smaller
            exact (upper other (by omega)).trans (unseen other smaller)
          · rw [next] at isFound
            cases isFound
            refine .inr ⟨rfl, ?_⟩
            intro other
            rcases Nat.lt_trichotomy other (level + 1) with less | rfl | greater
            · exact (upper other (by omega)).trans (unseen other less)
            · exact next'
            · exact (others other (by omega) (by omega)).trans (nothing other greater)
          · have missing := unseen (level + 1) greater
            rw [next] at missing
            cases missing
        · have missing := nowhere (level + 1)
          rw [next] at missing
          cases missing

end Levels

end JouleDB
