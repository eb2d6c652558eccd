import Mathlib.Data.List.DropRight
import Mathlib.Data.List.ReduceOption
import Mathlib.Data.Set.Card
import Mathlib.Logic.Function.Basic
import Mathlib.Order.Lattice.Nat

/-!
# Lists with holes

A list of places, some of them empty, as a partial map from indices to values.

* `contents`, `put`: the map of a list, and the list with a place filled, longer where it has to be.
* `leastFree`: the first index without a value; `firstFree` finds it (`leastFree_contents`).
* `contents_put`, `contents_set_none`, `contents_rdropWhile`: what the operations do to the map.
* `firstFree_le`, `length_reduceOption_put_le`: no more places are needed than values were put.
-/

namespace Sparse

variable {α : Type}

/-- The value at an index, when there is one. -/
def contents (l : List (Option α)) (i : ℕ) : Option α := l[i]?.join

/-- The list with `a` at `i`. -/
def put (l : List (Option α)) (i : ℕ) (a : Option α) : List (Option α) :=
  (l ++ List.replicate (i + 1 - l.length) none).set i a

/-- The first empty place, or the one behind the list. -/
def firstFree (l : List (Option α)) : ℕ := l.findIdx Option.isNone

/-- The first index without a value. -/
noncomputable def leastFree (m : ℕ → Option α) : ℕ := sInf {i | m i = none}

/-! ## The map of a list -/

theorem contents_eq_none_of_le {l : List (Option α)} {i : ℕ} (h : l.length ≤ i) :
    contents l i = none := by
  rw [contents, List.getElem?_eq_none h]
  rfl

@[simp] theorem contents_nil : contents ([] : List (Option α)) = fun _ => none := rfl

theorem contents_append_none (l : List (Option α)) (n : ℕ) :
    contents (l ++ List.replicate n none) = contents l := by
  funext i
  rw [contents, contents, List.getElem?_append]
  split
  · rfl
  · rename_i h
    rw [List.getElem?_eq_none (Nat.le_of_not_lt h), List.getElem?_replicate]
    split <;> rfl

theorem contents_set {l : List (Option α)} {i : ℕ} (h : i < l.length) (a : Option α) :
    contents (l.set i a) = Function.update (contents l) i a := by
  funext j
  by_cases hj : j = i
  · subst hj
    rw [Function.update_self, contents, List.getElem?_set_self h]
    rfl
  · rw [Function.update_of_ne hj, contents, contents, List.getElem?_set_ne (Ne.symm hj)]

theorem contents_put (l : List (Option α)) (i : ℕ) (a : Option α) :
    contents (put l i a) = Function.update (contents l) i a := by
  rw [put, contents_set (by simp only [List.length_append, List.length_replicate]; omega),
    contents_append_none]

theorem contents_set_none (l : List (Option α)) (i : ℕ) :
    contents (l.set i none) = Function.update (contents l) i none := by
  by_cases h : i < l.length
  · exact contents_set h none
  · rw [List.set_eq_of_length_le (Nat.le_of_not_lt h), eq_comm, Function.update_eq_self_iff,
      contents_eq_none_of_le (Nat.le_of_not_lt h)]

theorem contents_concat (l : List (Option α)) (a : Option α) :
    contents (l ++ [a]) = Function.update (contents l) l.length a := by
  have h := contents_put l l.length a
  rwa [put, Nat.add_sub_cancel_left, List.replicate_one, List.set_append_right _ _ (Nat.le_refl _),
    Nat.sub_self, List.set_cons_zero] at h

theorem contents_rdropWhile (l : List (Option α)) :
    contents (l.rdropWhile Option.isNone) = contents l := by
  induction l using List.reverseRecOn with
  | nil => rfl
  | append_singleton l a ih =>
    cases a with
    | some v => rw [List.rdropWhile_concat_neg _ _ _ (by simp)]
    | none =>
      rw [List.rdropWhile_concat_pos _ _ _ rfl, ih]
      exact (contents_append_none l 1).symm

/-! ## Free places -/

theorem leastFree_contents (l : List (Option α)) : leastFree (contents l) = firstFree l := by
  refine le_antisymm (Nat.sInf_le ?_) (le_csInf ⟨l.length, ?_⟩ fun i hi => ?_)
  · show contents l (firstFree l) = none
    rw [contents]
    by_cases h : firstFree l < l.length
    · have hnone := List.findIdx_getElem (w := h)
      rw [List.getElem?_eq_getElem h]
      exact Option.isNone_iff_eq_none.mp hnone
    · rw [List.getElem?_eq_none (Nat.le_of_not_lt h)]
      rfl
  · exact contents_eq_none_of_le (Nat.le_refl _)
  · by_contra hlt
    have hlt : i < firstFree l := Nat.lt_of_not_le hlt
    have hfull := List.not_of_lt_findIdx hlt
    have hlen : i < l.length := hlt.trans_le List.findIdx_le_length
    have hi : contents l i = none := hi
    rw [contents, List.getElem?_eq_getElem hlen] at hi
    rw [show l[i] = none from hi] at hfull
    cases hfull

@[simp] theorem firstFree_nil : firstFree ([] : List (Option α)) = 0 := rfl

@[simp] theorem firstFree_none (l : List (Option α)) : firstFree (none :: l) = 0 := by
  simp [firstFree, List.findIdx_cons]

@[simp] theorem firstFree_some (v : α) (l : List (Option α)) :
    firstFree (some v :: l) = firstFree l + 1 := by
  simp [firstFree, List.findIdx_cons]

theorem firstFree_le (l : List (Option α)) : firstFree l ≤ l.reduceOption.length := by
  induction l with
  | nil => exact Nat.zero_le _
  | cons a l ih =>
    cases a with
    | none => exact firstFree_none l ▸ Nat.zero_le _
    | some v =>
      rw [firstFree_some, List.reduceOption_cons_of_some, List.length_cons]
      exact Nat.succ_le_succ ih

theorem filterMap_range_firstFree (l : List (Option α)) :
    (List.range (firstFree l)).filterMap (contents l) =
      (l.takeWhile Option.isSome).reduceOption := by
  induction l with
  | nil => rfl
  | cons a l ih =>
    cases a with
    | none => rw [firstFree_none]; rfl
    | some v =>
      have hhead : contents (some v :: l) 0 = some v := rfl
      rw [firstFree_some, List.range_succ_eq_map, List.filterMap_cons_some hhead,
        List.filterMap_map, List.takeWhile_cons_of_pos rfl, List.reduceOption_cons_of_some, ← ih]
      rfl

/-! ## Counting -/

theorem length_reduceOption_set_le (l : List (Option α)) (i : ℕ) (a : Option α) :
    (l.set i a).reduceOption.length ≤ l.reduceOption.length + 1 := by
  induction l generalizing i with
  | nil => exact Nat.zero_le _
  | cons b l ih =>
    cases i with
    | zero =>
      rw [List.set_cons_zero]
      cases a <;> cases b <;>
        simp only [List.reduceOption_cons_of_some, List.reduceOption_cons_of_none,
          List.length_cons] <;> omega
    | succ i =>
      have h := ih i
      rw [List.set_cons_succ]
      cases b <;>
        simp only [List.reduceOption_cons_of_some, List.reduceOption_cons_of_none,
          List.length_cons] <;> omega

theorem length_reduceOption_set_none_le (l : List (Option α)) (i : ℕ) :
    (l.set i none).reduceOption.length ≤ l.reduceOption.length := by
  induction l generalizing i with
  | nil => exact Nat.le_refl _
  | cons b l ih =>
    cases i with
    | zero =>
      rw [List.set_cons_zero, List.reduceOption_cons_of_none]
      exact ((List.sublist_cons_self b l).filterMap id).length_le
    | succ i =>
      rw [List.set_cons_succ]
      cases b with
      | none => exact ih i
      | some w => exact Nat.succ_le_succ (ih i)

theorem reduceOption_append_none (l : List (Option α)) (n : ℕ) :
    (l ++ List.replicate n none).reduceOption = l.reduceOption := by
  rw [List.reduceOption_append, List.reduceOption_replicate_none, List.append_nil]

theorem length_reduceOption_put_le (l : List (Option α)) (i : ℕ) (a : Option α) :
    (put l i a).reduceOption.length ≤ l.reduceOption.length + 1 := by
  have h := length_reduceOption_set_le (l ++ List.replicate (i + 1 - l.length) none) i a
  rwa [reduceOption_append_none] at h

theorem ncard_contents (l : List (Option α)) :
    Set.ncard {i | contents l i ≠ none} = l.reduceOption.length := by
  induction l using List.reverseRecOn with
  | nil => simp
  | append_singleton l a ih =>
    rw [List.reduceOption_append, List.length_append, ← ih, contents_concat]
    have hfin : Set.Finite {i | contents l i ≠ none} := by
      refine (Set.finite_lt_nat l.length).subset fun i hi => ?_
      by_contra hle
      exact hi (contents_eq_none_of_le (Nat.le_of_not_lt hle))
    have hlast : l.length ∉ {i | contents l i ≠ none} :=
      not_not_intro (contents_eq_none_of_le (Nat.le_refl _))
    cases a with
    | none =>
      have hsame : Function.update (contents l) l.length none = contents l :=
        Function.update_eq_self_iff.mpr (contents_eq_none_of_le (Nat.le_refl _)).symm
      rw [hsame]
      rfl
    | some v =>
      rw [List.reduceOption_singleton, Option.toList_some, List.length_singleton,
        ← Set.ncard_insert_of_notMem hlast hfin]
      congr 1
      ext i
      by_cases hi : i = l.length
      · simp [hi]
      · simp [hi]

end Sparse
