import Mathlib.Data.List.Chain

/-!
# One remembered answer

A cell keeps the last answer that was computed, with the key it was asked under.  The same key is
answered from the cell, whatever the right answer has become.  Such a cell answers rightly exactly
if two requests that follow each other under the same key have the same right answer.
-/

namespace JouleDB

variable {κ β : Type} [DecidableEq κ]

/-- A key and the answer that was computed under it. -/
abbrev Memo (κ β : Type) := Option (κ × β)

namespace Memo

/-- Answer a request from the cell, or compute the answer and keep it. -/
def ask (memo : Memo κ β) (key : κ) (answer : β) : β × Memo κ β :=
  match memo with
  | some (known, kept) => if known = key then (kept, memo) else (answer, some (key, answer))
  | none => (answer, some (key, answer))

/-- The answers to some requests, each with its key and its right answer. -/
def answers : Memo κ β → List (κ × β) → List β
  | _, [] => []
  | memo, (key, answer) :: requests =>
      (memo.ask key answer).1 :: answers (memo.ask key answer).2 requests

/-- The same key has the same right answer. -/
def Agree (one two : κ × β) : Prop := one.1 = two.1 → one.2 = two.2

variable {memo : Memo κ β} {key : κ} {answer kept : β}

theorem ask_hit : ask (some (key, kept)) key answer = (kept, some (key, kept)) := if_pos rfl

theorem ask_miss (miss : ∀ kept, memo ≠ some (key, kept)) :
    memo.ask key answer = (answer, some (key, answer)) := by
  unfold ask
  split
  next known kept => exact if_neg fun same => miss kept (by rw [same])
  next => rfl

theorem answers_some_iff (last : κ × β) (requests : List (κ × β)) :
    answers (some last) requests = requests.map Prod.snd ↔
      (last :: requests).IsChain Agree := by
  induction requests generalizing last with
  | nil => exact iff_of_true rfl (List.isChain_singleton _)
  | cons request requests ih =>
      obtain ⟨lastKey, lastAnswer⟩ := last
      obtain ⟨key, answer⟩ := request
      rw [answers, List.map_cons, List.isChain_cons_cons]
      by_cases same : lastKey = key
      · subst same
        rw [ask_hit]
        constructor
        · intro right
          obtain ⟨now, later⟩ := List.cons.inj right
          cases now
          exact ⟨fun _ => rfl, (ih _).mp later⟩
        · rintro ⟨agree, chain⟩
          cases agree rfl
          rw [(ih _).mpr chain]
      · have miss : ∀ kept, (some (lastKey, lastAnswer) : Memo κ β) ≠ some (key, kept) := by
          rintro kept equal
          cases equal
          exact same rfl
        rw [ask_miss miss, List.cons.injEq]
        exact (and_iff_right rfl).trans ((ih _).trans
          (and_iff_right fun equal => absurd equal same).symm)

/-- From an empty cell on, all answers are right if and only if requests that follow each other
agree. -/
theorem answers_iff (requests : List (κ × β)) :
    answers none requests = requests.map Prod.snd ↔ requests.IsChain Agree := by
  cases requests with
  | nil => exact iff_of_true rfl List.isChain_nil
  | cons request requests =>
      rw [answers, List.map_cons, List.cons.injEq]
      exact (and_iff_right rfl).trans (answers_some_iff request requests)

end Memo

end JouleDB
