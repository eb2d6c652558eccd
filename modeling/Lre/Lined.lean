import Mathlib.Data.List.Basic

/-!
# Lines

Texts over any alphabet, with a separator of lines and a mark that a line goes on.

* `lines sep x`: the physical lines of a text; the last one may lack its separator.
* `logical cont ls`: the lines, each that ends in `cont` joined with the one behind it
  (`logical_cons_of_cont`, `logical_cons_of_not`).
* `line_cases`: what a text begins with.
-/

namespace Lined

variable {α : Type} {t u x l : List α} {ls : List (List α)} {sep cont : α}

/-- A text in front of the first line. -/
def glue (t : List α) : List (List α) → List (List α)
  | [] => [t]
  | l :: ls => (t ++ l) :: ls

@[simp] theorem glue_nil : glue t [] = [t] := rfl

@[simp] theorem glue_cons : glue t (l :: ls) = (t ++ l) :: ls := rfl

theorem glue_glue (t u : List α) (ls : List (List α)) : glue t (glue u ls) = glue (t ++ u) ls := by
  cases ls with
  | nil => rfl
  | cons l ls => rw [glue_cons, glue_cons, glue_cons, List.append_assoc]

variable [DecidableEq α]

/-- The lines of a text. -/
def lines (sep : α) : List α → List (List α)
  | [] => []
  | c :: x => if c = sep then [] :: lines sep x else glue [c] (lines sep x)

/-- The lines with those that go on joined. -/
def logical (cont : α) : List (List α) → List (List α)
  | [] => []
  | l :: ls =>
    if l.getLast? = some cont then glue l.dropLast (logical cont ls) else l :: logical cont ls

theorem lines_append (h : sep ∉ l) (x : List α) : lines sep (l ++ sep :: x) = l :: lines sep x := by
  induction l with
  | nil => exact if_pos rfl
  | cons c l ih =>
    have hc : c ≠ sep := fun heq => h (heq ▸ List.mem_cons_self)
    rw [List.cons_append, lines, if_neg hc, ih fun hmem => h (List.mem_cons_of_mem _ hmem)]
    rfl

theorem lines_of_notMem (h : sep ∉ l) (hne : l ≠ []) : lines sep l = [l] := by
  induction l with
  | nil => exact absurd rfl hne
  | cons c l ih =>
    have hc : c ≠ sep := fun heq => h (heq ▸ List.mem_cons_self)
    rw [lines, if_neg hc]
    cases l with
    | nil => rfl
    | cons d l =>
      rw [ih (fun hmem => h (List.mem_cons_of_mem _ hmem)) (List.cons_ne_nil _ _)]
      rfl

theorem lines_eq_nil_iff : lines sep x = [] ↔ x = [] := by
  cases x with
  | nil => exact iff_of_true rfl rfl
  | cons c x =>
    refine iff_of_false (fun h => ?_) (List.cons_ne_nil _ _)
    rw [lines] at h
    split_ifs at h
    cases hx : lines sep x <;> rw [hx] at h <;> cases h

theorem line_cases (sep : α) (x : List α) :
    x = [] ∨ x ≠ [] ∧ sep ∉ x ∨ ∃ l rest, sep ∉ l ∧ x = l ++ sep :: rest := by
  by_cases hmem : sep ∈ x
  · obtain ⟨l, rest, rfl, hl⟩ := List.eq_append_cons_of_mem hmem
    exact .inr (.inr ⟨l, rest, hl, rfl⟩)
  · by_cases hne : x = []
    · exact .inl hne
    · exact .inr (.inl ⟨hne, hmem⟩)

theorem logical_cons_of_cont (h : l.getLast? = some cont) :
    logical cont (l :: ls) = glue l.dropLast (logical cont ls) := if_pos h

theorem logical_cons_of_not (h : l.getLast? ≠ some cont) :
    logical cont (l :: ls) = l :: logical cont ls := if_neg h

end Lined
