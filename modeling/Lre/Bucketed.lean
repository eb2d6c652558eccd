import Mathlib.Logic.Function.Basic

/-!
# Lists in buckets

A table has a list for each value of a hash function; a new element goes to the front of its list.

* `insert`, `foldl_insert`: each list holds the elements of its hash, the newest first.
* **`find?_foldl_insert`**: a search in one list finds what a search through all elements, the
  newest first, finds.
* `any_foldl_insert`: and finds nothing when there is nothing.
-/

namespace Bucketed

variable {α κ : Type} [DecidableEq κ] {hash : α → κ} {p : α → Bool} {k : κ}

/-- An element at the front of its list. -/
def insert (hash : α → κ) (a : α) (tbl : κ → List α) : κ → List α :=
  Function.update tbl (hash a) (a :: tbl (hash a))

theorem foldl_insert (as : List α) (tbl : κ → List α) (k : κ) :
    as.foldl (fun tbl a => insert hash a tbl) tbl k =
      (as.filter fun a => hash a = k).reverse ++ tbl k := by
  induction as generalizing tbl with
  | nil => rfl
  | cons a as ih =>
    rw [List.foldl_cons, ih, insert, List.filter_cons]
    by_cases hk : hash a = k
    · rw [if_pos (decide_eq_true hk), List.reverse_cons, List.append_assoc, hk,
        Function.update_self]
      rfl
    · rw [if_neg (by simpa using hk), Function.update_of_ne (Ne.symm hk)]

omit [DecidableEq κ] in
theorem test_of_hash (hp : ∀ a, p a = true → hash a = k) (a : α) :
    (hash a = k ∧ p a = true) ↔ p a = true :=
  ⟨fun h => h.2, fun h => ⟨hp a h, h⟩⟩

theorem find?_foldl_insert (hp : ∀ a, p a = true → hash a = k) (as : List α) :
    (as.foldl (fun tbl a => insert hash a tbl) (fun _ => []) k).find? p = as.reverse.find? p := by
  rw [foldl_insert, List.append_nil, ← List.filter_reverse, List.find?_filter]
  simp only [decide_eq_true_eq, test_of_hash hp, Bool.decide_eq_true]

theorem any_foldl_insert (hp : ∀ a, p a = true → hash a = k) (as : List α) :
    (as.foldl (fun tbl a => insert hash a tbl) (fun _ => []) k).any p = as.any p := by
  rw [foldl_insert, List.append_nil, List.any_reverse, List.any_filter]
  congr 1
  funext a
  rw [Bool.eq_iff_iff, Bool.and_eq_true, decide_eq_true_iff]
  exact test_of_hash hp a

end Bucketed
