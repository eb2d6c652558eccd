import Mathlib.Algebra.Order.Group.Nat
import Mathlib.Data.Int.Basic
import Lre.Run

/-!
# Accounts of resources

A computation on a state in which resources are outstanding. What is outstanding is owned by a
value in hand, or it is lost.

* `Accounts bal held x out P s`: from `s`, with values in hand that own `held`, `x` returns values
  that own `out`, and `P` says that it lost nothing.
* `Accounts.pure`, `Accounts.bind`, `Accounts.frame`, `Accounts.negligible_bind`: the rules.
* `Negligible bal x`: `x` changes nothing that is outstanding.
-/

namespace Ledger

open Run

variable {ε σ ι α β : Type}

/-- Nothing is owned. -/
def nothing : ι → ℕ := fun _ => 0

/-- From `s`, where the values in hand own `held`, `x` returns into a state where they own `out`,
or it stops. What else is outstanding grows by what is lost, which is nothing exactly when `P`. -/
def Accounts (bal : σ → ι → ℤ) (held : ι → ℕ) (x : Run ε σ α) (out : α → ι → ℕ) (P : Prop)
    (s : σ) : Prop :=
  wp (fun _ => True) x (fun a s' => ∃ lost : ι → ℕ,
    (∀ i, bal s' i + held i = bal s i + out a i + lost i) ∧ ((∀ i, lost i = 0) ↔ P)) s

/-- Nothing that is outstanding changes. -/
def Negligible (bal : σ → ι → ℤ) (x : Run ε σ α) : Prop :=
  ∀ s, wp (fun _ => True) x (fun _ s' => ∀ i, bal s' i = bal s i) s

variable {bal : σ → ι → ℤ} {held : ι → ℕ} {out : α → ι → ℕ} {P Q : Prop} {s : σ}

/-! ## Negligible steps -/

theorem Negligible.pure (a : α) : Negligible bal (Pure.pure a : Run ε σ α) := fun _ _ => rfl

theorem Negligible.throw (e : ε) : Negligible bal (throw e : Run ε σ α) := fun _ => trivial

theorem Negligible.bind {x : Run ε σ α} {f : α → Run ε σ β} (hx : Negligible bal x)
    (hf : ∀ a, Negligible bal (f a)) : Negligible bal (x >>= f) := by
  intro s
  apply wp_bind_run (hx s)
  intro a s' _ hs'
  apply wp_mono (hf a s')
  intro b s'' hs'' i
  rw [hs'' i, hs' i]

/-! ## The rules -/

theorem Accounts.congr {x : Run ε σ α} (h : Accounts bal held x out P s) (hPQ : P ↔ Q) :
    Accounts bal held x out Q s := by
  apply wp_mono h
  rintro a s' ⟨lost, hbal, hlost⟩
  exact ⟨lost, hbal, hlost.trans hPQ⟩

theorem Accounts.pure {a : α} (lost : ι → ℕ) (hheld : ∀ i, held i = out a i + lost i)
    (hlost : (∀ i, lost i = 0) ↔ P) : Accounts bal held (Pure.pure a : Run ε σ α) out P s := by
  refine ⟨lost, fun i => ?_, hlost⟩
  show bal s i + held i = bal s i + out a i + lost i
  rw [hheld i]
  omega

theorem Accounts.return {a : α} (hheld : held = out a) (hP : P) :
    Accounts bal held (Pure.pure a : Run ε σ α) out P s :=
  .pure nothing (fun i => congrFun hheld i) (iff_of_true (fun _ => rfl) hP)

/-- One computation after the other. -/
theorem Accounts.bind {x : Run ε σ α} {f : α → Run ε σ β} {out' : β → ι → ℕ} {W : Prop}
    (hx : Accounts bal held x out P s)
    (hf : ∀ a s', x s = .ok (a, s') → ∃ Q, Accounts bal (out a) (f a) out' Q s' ∧ (P ∧ Q ↔ W)) :
    Accounts bal held (x >>= f) out' W s := by
  apply wp_bind_run hx
  rintro a s' hrun ⟨lost, hbal, hlost⟩
  obtain ⟨Q, hQ, hW⟩ := hf a s' hrun
  apply wp_mono hQ
  rintro b s'' ⟨lost', hbal', hlost'⟩
  refine ⟨fun i => lost i + lost' i, fun i => ?_, ?_⟩
  · have hi := hbal i
    have hi' := hbal' i
    push_cast
    omega
  · simp only [Nat.add_eq_zero_iff, forall_and]
    exact (and_congr hlost hlost').trans hW

theorem Accounts.bind_lossless {x : Run ε σ α} {f : α → Run ε σ β} {out' : β → ι → ℕ}
    (hx : Accounts bal held x out P s)
    (hf : ∀ a s', x s = .ok (a, s') → Accounts bal (out a) (f a) out' True s') :
    Accounts bal held (x >>= f) out' P s :=
  hx.bind fun a s' hrun => ⟨True, hf a s' hrun, iff_of_eq (and_true P)⟩

theorem Negligible.accounts {x : Run ε σ α} (hx : Negligible bal x) (held : ι → ℕ) (s : σ) :
    Accounts bal held x (fun _ => held) True s := by
  apply wp_mono (hx s)
  intro a s' hs'
  refine ⟨nothing, fun i => ?_, iff_of_true (fun _ => rfl) trivial⟩
  show bal s' i + held i = bal s i + held i + (0 : ℕ)
  rw [hs' i]
  omega

/-- A computation after a negligible one. -/
theorem Accounts.negligible_bind {x : Run ε σ α} {f : α → Run ε σ β} {out' : β → ι → ℕ}
    (hx : Negligible bal x)
    (hf : ∀ a s', x s = .ok (a, s') → Accounts bal held (f a) out' P s') :
    Accounts bal held (x >>= f) out' P s :=
  (hx.accounts held s).bind fun a s' hrun => ⟨P, hf a s' hrun, iff_of_eq (true_and P)⟩

/-- What is held besides stays in hand. -/
theorem Accounts.frame {x : Run ε σ α} (h : Accounts bal held x out P s) (rest : ι → ℕ) :
    Accounts bal (fun i => held i + rest i) x (fun a i => out a i + rest i) P s := by
  apply wp_mono h
  rintro a s' ⟨lost, hbal, hlost⟩
  refine ⟨lost, fun i => ?_, hlost⟩
  have hi := hbal i
  push_cast
  omega

theorem Accounts.lose {x : Run ε σ α} (h : Accounts bal held x out P s) (rest : ι → ℕ) :
    Accounts bal (fun i => held i + rest i) x out (P ∧ ∀ i, rest i = 0) s := by
  apply wp_mono h
  rintro a s' ⟨lost, hbal, hlost⟩
  refine ⟨fun i => lost i + rest i, fun i => ?_, ?_⟩
  · have hi := hbal i
    push_cast
    omega
  · simp only [Nat.add_eq_zero_iff, forall_and, hlost]

theorem Accounts.drop {a : α} (hout : out a = nothing) (hlost : (∀ i, held i = 0) ↔ P) :
    Accounts bal held (Pure.pure a : Run ε σ α) out P s := by
  refine .pure held (fun i => ?_) hlost
  rw [hout]
  exact (Nat.zero_add _).symm

end Ledger
