import Mathlib.Data.List.Nodup

/-!
# Chains of choices

From a place `s`, `children s` are the choices and `next s a` is the place that a choice leads to.

* `chains`: the chains of `k` choices, depth first.
* `mem_chains_succ`, **`nodup_chains`**: what they are, and that each comes once.
-/

namespace Chains

variable {σ α : Type} (children : σ → List α) (next : σ → α → σ)

/-- The chains of `k` choices from `s`, depth first, in the order of the choices. -/
def chains : ℕ → σ → List (List α)
  | 0, _ => [[]]
  | k + 1, s => (children s).flatMap fun a => (chains k (next s a)).map (a :: ·)

variable {children next} {k : ℕ} {s : σ} {a : α} {as : List α}

theorem mem_chains_succ : a :: as ∈ chains children next (k + 1) s ↔
    a ∈ children s ∧ as ∈ chains children next k (next s a) := by
  rw [chains, List.mem_flatMap]
  constructor
  · rintro ⟨b, hb, h⟩
    obtain ⟨bs, hbs, heq⟩ := List.mem_map.mp h
    cases heq
    exact ⟨hb, hbs⟩
  · rintro ⟨ha, has⟩
    exact ⟨a, ha, List.mem_map_of_mem has⟩

/-- **Without repeated choices there are no repeated chains.** -/
theorem nodup_chains (h : ∀ s, (children s).Nodup) (k : ℕ) (s : σ) :
    (chains children next k s).Nodup := by
  induction k generalizing s with
  | zero => exact List.nodup_singleton _
  | succ k ih =>
    rw [chains, List.nodup_flatMap]
    constructor
    · intro a _
      exact (ih (next s a)).map fun _ _ heq => (List.cons.inj heq).2
    · refine (h s).imp fun hne as has hbs => ?_
      obtain ⟨_, -, rfl⟩ := List.mem_map.mp has
      obtain ⟨_, -, heq⟩ := List.mem_map.mp hbs
      exact hne (List.cons.inj heq).1.symm

theorem filter_chains_succ (p : List α → Bool) : (chains children next (k + 1) s).filter p =
    (children s).flatMap fun a =>
      ((chains children next k (next s a)).filter fun as => p (a :: as)).map (a :: ·) := by
  rw [chains, List.filter_flatMap]
  refine congrArg (List.flatMap · _) (funext fun a => ?_)
  rw [List.filter_map]
  rfl

end Chains
