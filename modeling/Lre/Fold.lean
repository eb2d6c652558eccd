import Mathlib.Data.List.Basic

/-!
# Folds with an early exit

A left fold that may leave the list before a step, over any step function.

* `foldUntil f stop a bs` and `stopAt f stop a bs`: the fold, and where it stops.
* `foldl_eq_lastSome`: when each step sets the accumulator or keeps it, the fold is the last value
  set.
* `foldUntil_eq_foldl_iff`: the early exit is harmless exactly when nothing after it sets another
  value.
-/

namespace Fold

variable {α β : Type}

/-- The left fold of `f` that stops before a step at which `stop` holds. -/
def foldUntil (f : α → β → α) (stop : α → β → Bool) : α → List β → α
  | a, [] => a
  | a, b :: bs => if stop a b then a else foldUntil f stop (f a b) bs

/-- The accumulator and the remaining list where `foldUntil` stops. -/
def stopAt (f : α → β → α) (stop : α → β → Bool) : α → List β → Option (α × List β)
  | _, [] => none
  | a, b :: bs => if stop a b then some (a, b :: bs) else stopAt f stop (f a b) bs

/-- The last value that the steps of a list set. -/
def lastSome (sets : β → Option α) : List β → Option α
  | [] => none
  | b :: bs => (lastSome sets bs).or (sets b)

variable {f : α → β → α} {stop : α → β → Bool} {sets : β → Option α}

theorem foldl_eq_lastSome (hf : ∀ a b, f a b = (sets b).getD a) (a : α) (bs : List β) :
    bs.foldl f a = (lastSome sets bs).getD a := by
  induction bs generalizing a with
  | nil => rfl
  | cons b bs ih =>
    rw [List.foldl_cons, ih, hf, lastSome]
    cases lastSome sets bs <;> rfl

/-- A fold is its early exit followed by the rest of the fold. -/
theorem foldUntil_eq_foldl_iff_foldl (a : α) (bs : List β) :
    foldUntil f stop a bs = bs.foldl f a ↔
      ∀ v rest, stopAt f stop a bs = some (v, rest) → v = rest.foldl f v := by
  induction bs generalizing a with
  | nil => simp [foldUntil, stopAt]
  | cons b bs ih =>
    by_cases h : stop a b = true
    · simp [foldUntil, stopAt, h]
    · simpa [foldUntil, stopAt, h] using ih (f a b)

/-- **The early exit is harmless exactly when no later step sets another value.** -/
theorem foldUntil_eq_foldl_iff (hf : ∀ a b, f a b = (sets b).getD a) (a : α) (bs : List β) :
    foldUntil f stop a bs = bs.foldl f a ↔
      ∀ v rest, stopAt f stop a bs = some (v, rest) → (lastSome sets rest).getD v = v := by
  rw [foldUntil_eq_foldl_iff_foldl]
  refine forall_congr' fun v => forall_congr' fun rest => imp_congr_right fun _ => ?_
  rw [foldl_eq_lastSome hf, eq_comm]

end Fold
