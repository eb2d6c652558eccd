import Mathlib.Logic.Relation
import Mathlib.Data.Set.Finite.Basic
import Mathlib.Data.Finset.Card

/-!
# Long paths and cycles

* `Path r n a`: there are `n` steps of `r` in a row from `a`.
* **`exists_cycle`**: when `r` leads to finitely many places, paths of every length lead into a
  cycle.
* `path_of_cycle`: and a cycle makes paths of every length.
-/

namespace Cycle

open Relation

variable {α : Type*} {r : α → α → Prop} {a b c : α}

/-- There are `n` steps in a row from `a`. -/
def Path (r : α → α → Prop) : ℕ → α → Prop
  | 0, _ => True
  | n + 1, a => ∃ b, r a b ∧ Path r n b

theorem Path.places {n : ℕ} (h : Path r n a) :
    ∃ f : ℕ → α, f 0 = a ∧ ∀ i < n, r (f i) (f (i + 1)) := by
  induction n generalizing a with
  | zero => exact ⟨fun _ => a, rfl, nofun⟩
  | succ n ih =>
    obtain ⟨b, hab, hb⟩ := h
    obtain ⟨f, rfl, hf⟩ := ih hb
    refine ⟨fun i => i.casesOn a f, rfl, fun i hi => ?_⟩
    cases i with
    | zero => exact hab
    | succ i => exact hf i (Nat.lt_of_succ_lt_succ hi)

theorem reflTransGen_of_steps {f : ℕ → α} {i j : ℕ} (hij : i ≤ j)
    (hf : ∀ k, i ≤ k → k < j → r (f k) (f (k + 1))) : ReflTransGen r (f i) (f j) := by
  induction j, hij using Nat.le_induction with
  | base => exact .refl
  | succ j hij ih =>
    exact (ih fun k hk hlt => hf k hk (Nat.lt_succ_of_lt hlt)).tail (hf j hij (Nat.lt_succ_self j))

/-- **Paths of every length into finitely many places lead into a cycle.** -/
theorem exists_cycle (hfin : {b | ∃ a, r a b}.Finite) (h : ∀ n, Path r n a) :
    ∃ c, ReflTransGen r a c ∧ TransGen r c c := by
  obtain ⟨f, rfl, hf⟩ := (h (hfin.toFinset.card + 1)).places
  have hmaps : ∀ i ∈ Finset.range (hfin.toFinset.card + 1), f (i + 1) ∈ hfin.toFinset := by
    intro i hi
    exact hfin.mem_toFinset.mpr ⟨f i, hf i (Finset.mem_range.mp hi)⟩
  obtain ⟨i, hi, j, hj, hne, heq⟩ := Finset.exists_ne_map_eq_of_card_lt_of_maps_to
    (by rw [Finset.card_range]; exact Nat.lt_succ_self _) hmaps
  rw [Finset.mem_range] at hi hj
  have hcycle : ∀ i j, i < j → j < hfin.toFinset.card + 1 → f (i + 1) = f (j + 1) →
      ∃ c, ReflTransGen r (f 0) c ∧ TransGen r c c := by
    intro i j hij hj heq
    refine ⟨f (i + 1), reflTransGen_of_steps (Nat.zero_le _) fun k _ hk => hf k (by omega), ?_⟩
    have hstep := TransGen.head' (hf (i + 1) (by omega))
      (reflTransGen_of_steps (show i + 2 ≤ j + 1 by omega) fun k _ hk => hf k (by omega))
    rwa [← heq] at hstep
  rcases Nat.lt_or_gt_of_ne hne with hlt | hgt
  · exact hcycle i j hlt hj heq
  · exact hcycle j i hgt hi heq.symm

theorem cycle_step (h : TransGen r a a) : ∃ b, r a b ∧ TransGen r b b := by
  obtain ⟨b, hab, hba⟩ := TransGen.head'_iff.mp h
  exact ⟨b, hab, TransGen.tail' hba hab⟩

theorem path_of_cycle (h : TransGen r a a) (n : ℕ) : Path r n a := by
  induction n generalizing a with
  | zero => trivial
  | succ n ih =>
    obtain ⟨b, hab, hb⟩ := cycle_step h
    exact ⟨b, hab, ih hb⟩

theorem path_of_reaches (hac : ReflTransGen r a c) (h : TransGen r c c) (n : ℕ) : Path r n a := by
  induction hac using ReflTransGen.head_induction_on generalizing n with
  | refl => exact path_of_cycle h n
  | head hab _ ih =>
    cases n with
    | zero => trivial
    | succ n => exact ⟨_, hab, ih n⟩

end Cycle
