import Mathlib.Data.Multiset.Bind

/-!
# Two nested loops

* `outer`: the pairs of two lists, the elements of the first in the outer loop, and those of the
  second in the inner loop with their indices; `inner`: the other way round.
* `outer_perm_inner`, `filter_outer`: the two run through the same pairs.
* **`outer_eq_inner_iff`**: they do so in the same order only when one of the lists is short.
-/

namespace Grid

variable {α β γ : Type} (f : α → β → γ) (xs : List α) (ys : List β)

/-- The loop over `xs` with the loop over `ys` in it. -/
def outer : List (ℕ × γ) := xs.flatMap fun x => ys.zipIdx.map fun y => (y.2, f x y.1)

/-- The loop over `ys` with the loop over `xs` in it. -/
def inner : List (ℕ × γ) := ys.zipIdx.flatMap fun y => xs.map fun x => (y.2, f x y.1)

theorem outer_perm_inner : (outer f xs ys).Perm (inner f xs ys) := by
  refine Multiset.coe_eq_coe.mp ?_
  have h := Multiset.bind_map_comm (xs : Multiset α) (ys.zipIdx : Multiset (β × ℕ))
    (f := fun x y => (y.2, f x y.1))
  simp only [Multiset.coe_bind, Multiset.map_coe] at h
  exact h

theorem filter_zipIdx (ys : List β) (j k : ℕ) :
    (ys.zipIdx k).filter (fun y => decide (y.2 = k + j)) = ys[j]?.toList.map (·, k + j) := by
  induction ys generalizing j k with
  | nil => rfl
  | cons y ys ih =>
    rw [List.zipIdx_cons, List.filter_cons]
    cases j with
    | zero =>
      have hnone : (ys.zipIdx (k + 1)).filter (fun y => decide (y.2 = k + 0)) = [] := by
        rw [List.filter_eq_nil_iff]
        intro p hp
        have := List.le_snd_of_mem_zipIdx hp
        simp
        omega
      rw [hnone]
      simp
    | succ j =>
      have hne : ¬k = k + (j + 1) := by omega
      have hidx : k + (j + 1) = k + 1 + j := by omega
      simp only [hne, decide_false, Bool.false_eq_true, if_false, List.getElem?_cons_succ]
      rw [hidx]
      exact ih j (k + 1)

variable {ys} {j : ℕ} {y : β}

theorem filter_outer (hy : ys[j]? = some y) :
    ((outer f xs ys).filter fun p => decide (p.1 = j)).map (·.2) = xs.map (f · y) := by
  have hone := filter_zipIdx ys j 0
  rw [Nat.zero_add, hy, Option.toList_some, List.map_cons, List.map_nil] at hone
  induction xs with
  | nil => rfl
  | cons x xs ih =>
    have hrow : (ys.zipIdx.map fun y => (y.2, f x y.1)).filter (fun p => decide (p.1 = j)) =
        [(j, f x y)] := by
      rw [List.filter_map]
      exact congrArg _ hone
    rw [outer, List.flatMap_cons, List.filter_append, List.map_append, hrow]
    exact congrArg _ ih

theorem fst_lt_of_mem_outer {p : ℕ × γ} (h : p ∈ outer f xs ys) : p.1 < ys.length := by
  obtain ⟨x, -, h⟩ := List.mem_flatMap.mp h
  obtain ⟨⟨y, j⟩, hy, rfl⟩ := List.mem_map.mp h
  obtain ⟨hlt, -⟩ := List.mem_zipIdx' hy
  exact hlt

/-- **The two loops run in the same order exactly when one of the lists has at most one
element.** -/
theorem outer_eq_inner_iff : outer f xs ys = inner f xs ys ↔ xs.length ≤ 1 ∨ ys.length ≤ 1 := by
  match xs, ys with
  | [], ys => simp [outer, inner]
  | [x], ys =>
    rw [outer, inner, List.flatMap_singleton, List.map_eq_flatMap]
    exact iff_of_true rfl (.inl (Nat.le_refl 1))
  | x :: x' :: xs, [] => simp [outer, inner]
  | x :: x' :: xs, [y] => simp [outer, inner, List.map_eq_flatMap]
  | x :: x' :: xs, y :: y' :: ys =>
    -- the second pair has the index of the second entry in one loop and of the first in the other
    refine iff_of_false (fun h => ?_) (by simp)
    have hsecond := congrArg (fun l => l[1]?.map (·.1)) h
    simp [outer, inner] at hsecond

end Grid
