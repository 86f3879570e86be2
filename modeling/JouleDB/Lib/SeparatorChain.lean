import Mathlib.Order.WithBot
import Mathlib.Data.List.Basic

/-!
# Chains of separators

The keys of an internal node of a search tree cut an interval into pieces, one for each
child.  `Chain` says that every child fits its piece and that the pieces are not empty.
A part of a chain can be replaced by any other chain between the same bounds.
-/

namespace JouleDB

/-- A bound of an interval of keys: a key, or nothing on one of the two sides. -/
abbrev Fence (κ : Type) := WithBot (WithTop κ)

/-- A key as a bound. -/
def fence {κ : Type} (key : κ) : Fence κ := ((key : WithTop κ) : WithBot (WithTop κ))

section Fence

variable {κ : Type} [LinearOrder κ] {first second : κ}

@[simp] theorem fence_lt_fence : fence first < fence second ↔ first < second := by
  simp [fence]

@[simp] theorem fence_le_fence : fence first ≤ fence second ↔ first ≤ second := by
  simp [fence]

@[simp] theorem bot_lt_fence (key : κ) : (⊥ : Fence κ) < fence key := WithBot.bot_lt_coe _

@[simp] theorem fence_lt_top (key : κ) : fence key < (⊤ : Fence κ) :=
  WithBot.coe_lt_coe.mpr (WithTop.coe_lt_top _)

end Fence

section Bounds

variable {κ : Type}

/-- The bound to the right of some keys. -/
def lower (lo : Fence κ) (keys : List κ) : Fence κ := keys.getLast?.elim lo fence

/-- The bound to the left of some keys. -/
def upper (keys : List κ) (hi : Fence κ) : Fence κ := keys.head?.elim hi fence

@[simp] theorem lower_nil (lo : Fence κ) : lower lo [] = lo := rfl

@[simp] theorem upper_nil (hi : Fence κ) : upper [] hi = hi := rfl

@[simp] theorem upper_cons (key : κ) (keys : List κ) (hi : Fence κ) :
    upper (key :: keys) hi = fence key := rfl

@[simp] theorem lower_cons (lo : Fence κ) (key : κ) (keys : List κ) :
    lower lo (key :: keys) = lower (fence key) keys := by
  cases keys with
  | nil => rfl
  | cons next keys => simp [lower, List.getLast?_cons]

@[simp] theorem lower_concat (lo : Fence κ) (keys : List κ) (key : κ) :
    lower lo (keys ++ [key]) = fence key := by
  simp [lower]

theorem lower_append (lo : Fence κ) (front back : List κ) :
    lower lo (front ++ back) = lower (lower lo front) back := by
  induction front generalizing lo with
  | nil => rfl
  | cons key front ih => rw [List.cons_append, lower_cons, lower_cons, ih]

theorem upper_append (front back : List κ) (hi : Fence κ) :
    upper (front ++ back) hi = upper front (upper back hi) := by
  cases front <;> rfl

end Bounds

variable {κ β : Type} [LinearOrder κ]

/-- The children fit the pieces of the interval from `lo` to `hi` that the keys cut out. -/
inductive Chain (fits : Fence κ → Fence κ → β → Prop) :
    Fence κ → List κ → List β → Fence κ → Prop where
  | last {lo hi : Fence κ} {child : β} (nonempty : lo < hi) (here : fits lo hi child) :
      Chain fits lo [] [child] hi
  | cons {lo hi : Fence κ} {key : κ} {child : β} {keys : List κ} {children : List β}
      (nonempty : lo < fence key) (here : fits lo (fence key) child)
      (rest : Chain fits (fence key) keys children hi) :
      Chain fits lo (key :: keys) (child :: children) hi

/-- A bound that is above the keys and the start is above the last of them. -/
theorem lower_le {lo bound : Fence κ} {keys : List κ} (start : lo ≤ bound)
    (above : ∀ key ∈ keys, fence key ≤ bound) : lower lo keys ≤ bound := by
  rw [lower]
  cases found : keys.getLast? with
  | none => exact start
  | some key => exact above key (List.mem_of_getLast? found)

/-- A bound that is below the keys and the end is below the first of them. -/
theorem lt_upper {hi bound : Fence κ} {keys : List κ} (last : bound < hi)
    (below : ∀ key ∈ keys, bound < fence key) : bound < upper keys hi := by
  cases keys with
  | nil => exact last
  | cons key keys => exact below key List.mem_cons_self

namespace Chain

variable {fits : Fence κ → Fence κ → β → Prop} {lo hi : Fence κ}
variable {keys : List κ} {children : List β}

theorem lt (chain : Chain fits lo keys children hi) : lo < hi := by
  induction chain with
  | last nonempty => exact nonempty
  | cons nonempty _ _ ih => exact nonempty.trans ih

theorem length (chain : Chain fits lo keys children hi) : children.length = keys.length + 1 := by
  induction chain with
  | last => rfl
  | cons _ _ _ ih => simp [ih]

theorem bounds (chain : Chain fits lo keys children hi) :
    ∀ key ∈ keys, lo < fence key ∧ fence key < hi := by
  induction chain with
  | last => simp
  | @cons lo hi key child keys children nonempty here rest ih =>
      intro other member
      rcases List.mem_cons.mp member with rfl | later
      · exact ⟨nonempty, rest.lt⟩
      · exact ⟨nonempty.trans (ih other later).1, (ih other later).2⟩

theorem sorted (chain : Chain fits lo keys children hi) : keys.Pairwise (· < ·) := by
  induction chain with
  | last => exact List.Pairwise.nil
  | @cons lo hi key child keys children nonempty here rest ih =>
      refine List.pairwise_cons.mpr ⟨fun other later => ?_, ih⟩
      exact fence_lt_fence.mp (rest.bounds other later).1

/-- Every child fits some piece between the bounds. -/
theorem exists_fits (chain : Chain fits lo keys children hi) :
    ∀ child ∈ children, ∃ low high, lo ≤ low ∧ low < high ∧ high ≤ hi ∧ fits low high child := by
  induction chain with
  | @last lo hi child nonempty here =>
      intro other member
      rw [List.mem_singleton.mp member]
      exact ⟨lo, hi, le_rfl, nonempty, le_rfl, here⟩
  | @cons lo hi key child keys children nonempty here rest ih =>
      intro other member
      rcases List.mem_cons.mp member with rfl | later
      · exact ⟨lo, fence key, le_rfl, nonempty, rest.lt.le, here⟩
      · obtain ⟨low, high, above, inside, below, itFits⟩ := ih other later
        exact ⟨low, high, nonempty.le.trans above, inside, below, itFits⟩

theorem join {key : κ} {keys' : List κ} {children' : List β}
    (front : Chain fits lo keys children (fence key))
    (back : Chain fits (fence key) keys' children' hi) :
    Chain fits lo (keys ++ key :: keys') (children ++ children') hi := by
  generalize meeting : fence key = bound at front
  induction front with
  | last nonempty here =>
      subst meeting
      exact .cons nonempty here back
  | cons nonempty here _ ih => exact .cons nonempty here (ih meeting)

theorem cut {key : κ} {keys' : List κ} {children' : List β}
    (chain : Chain fits lo (keys ++ key :: keys') (children ++ children') hi)
    (length : children.length = keys.length + 1) :
    Chain fits lo keys children (fence key) ∧ Chain fits (fence key) keys' children' hi := by
  induction keys generalizing lo children with
  | nil =>
      obtain ⟨child, rfl⟩ := List.length_eq_one_iff.mp length
      cases chain with
      | cons nonempty here rest => exact ⟨.last nonempty here, rest⟩
  | cons first keys ih =>
      cases children with
      | nil => cases length
      | cons child children =>
          cases chain with
          | cons nonempty here rest =>
              obtain ⟨front, back⟩ := ih rest (Nat.succ_inj.mp length)
              exact ⟨.cons nonempty here front, back⟩

/-- A part of a chain can be replaced by another chain between the same bounds. -/
theorem focus {front middle back : List κ} {before inside after : List β}
    (chain : Chain fits lo (front ++ middle ++ back) (before ++ inside ++ after) hi)
    (frontLength : before.length = front.length) (middleLength : inside.length = middle.length + 1) :
    Chain fits (lower lo front) middle inside (upper back hi) ∧
      ∀ {middle' inside'}, Chain fits (lower lo front) middle' inside' (upper back hi) →
        Chain fits lo (front ++ middle' ++ back) (before ++ inside' ++ after) hi := by
  induction front generalizing lo before with
  | nil =>
      obtain rfl := List.length_eq_zero_iff.mp frontLength
      simp only [List.nil_append, lower_nil] at chain ⊢
      cases back with
      | nil =>
          have none : after = [] := by
            have total := chain.length
            simp only [List.append_nil, List.length_append] at total
            exact List.length_eq_zero_iff.mp (by omega)
          subst none
          simp only [List.append_nil, upper_nil] at chain ⊢
          exact ⟨chain, id⟩
      | cons key back =>
          obtain ⟨here, rest⟩ := chain.cut middleLength
          exact ⟨here, fun replaced => replaced.join rest⟩
  | cons key front ih =>
      cases before with
      | nil => cases frontLength
      | cons child before =>
          cases chain with
          | cons nonempty here rest =>
              obtain ⟨part, replace⟩ := ih rest (Nat.succ_inj.mp frontLength)
              rw [lower_cons]
              exact ⟨part, fun replaced => .cons nonempty here (replace replaced)⟩

/-- The children before a place fit below it, and those after it fit above it. -/
theorem around {front middle back : List κ} {before inside after : List β}
    (chain : Chain fits lo (front ++ middle ++ back) (before ++ inside ++ after) hi)
    (frontLength : before.length = front.length) (middleLength : inside.length = middle.length + 1) :
    (∀ child ∈ before, ∃ low high, high ≤ lower lo front ∧ fits low high child) ∧
      ∀ child ∈ after, ∃ low high, upper back hi ≤ low ∧ fits low high child := by
  induction front generalizing lo before with
  | nil =>
      obtain rfl := List.length_eq_zero_iff.mp frontLength
      simp only [List.nil_append] at chain ⊢
      refine ⟨by simp, ?_⟩
      cases back with
      | nil =>
          have none : after = [] := by
            have total := chain.length
            simp only [List.append_nil, List.length_append] at total
            exact List.length_eq_zero_iff.mp (by omega)
          simp [none]
      | cons key back =>
          intro child member
          obtain ⟨low, high, above, -, -, here⟩ := (chain.cut middleLength).2.exists_fits child member
          exact ⟨low, high, above, here⟩
  | cons key front ih =>
      cases before with
      | nil => cases frontLength
      | cons child before =>
          cases chain with
          | cons nonempty here rest =>
              obtain ⟨below, above⟩ := ih rest (Nat.succ_inj.mp frontLength)
              rw [lower_cons]
              have start : fence key ≤ lower (fence key) front := by
                rw [lower]
                cases found : front.getLast? with
                | none => exact le_rfl
                | some other =>
                    refine (rest.bounds other ?_).1.le
                    simp [List.mem_of_getLast? found]
              refine ⟨fun other member => ?_, above⟩
              rcases List.mem_cons.mp member with rfl | later
              · exact ⟨lo, fence key, start, here⟩
              · exact below other later

end Chain

end JouleDB
