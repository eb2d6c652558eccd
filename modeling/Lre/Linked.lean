import Mathlib.Data.List.Basic
import Mathlib.Data.List.Nodup
import Mathlib.Logic.Function.Basic

/-!
# Linked lists

A function `next` that says where each cell leads.

* `Links next p l`: from `p` on, `next` leads through the cells of `l`, and ends.
* `Links.unique`, **`Links.nodup`**: there is one such list, and it comes to no cell twice.
* `Links.congr`, `Links.push`: what a write elsewhere and a new first cell do.
-/

namespace Linked

variable {α : Type*} {next next' : α → Option α} {p : Option α} {a : α} {l l' : List α}

/-- From `p` on, `next` leads through the cells of the list, and ends. -/
def Links (next : α → Option α) : Option α → List α → Prop
  | p, [] => p = none
  | p, a :: l => p = some a ∧ Links next (next a) l

theorem links_none : Links next none l ↔ l = [] := by
  cases l with
  | nil => exact iff_of_true rfl rfl
  | cons a l => exact iff_of_false (fun h => nomatch h.1) (List.cons_ne_nil a l)

theorem links_some : Links next (some a) l ↔ ∃ rest, l = a :: rest ∧ Links next (next a) rest := by
  cases l with
  | nil => exact iff_of_false nofun fun ⟨_, h, _⟩ => nomatch h
  | cons b l =>
    constructor
    · rintro ⟨hb, h⟩
      cases hb
      exact ⟨l, rfl, h⟩
    · rintro ⟨rest, hrest, h⟩
      cases hrest
      exact ⟨rfl, h⟩

theorem Links.unique (h : Links next p l) (h' : Links next p l') : l = l' := by
  induction l generalizing p l' with
  | nil =>
    obtain rfl : p = none := h
    exact (links_none.mp h').symm
  | cons a l ih =>
    obtain ⟨rfl, h⟩ := h
    obtain ⟨rest, rfl, hrest⟩ := links_some.mp h'
    rw [ih h hrest]

theorem Links.of_append {l₁ l₂ : List α} (h : Links next p (l₁ ++ a :: l₂)) :
    Links next (some a) (a :: l₂) := by
  induction l₁ generalizing p with
  | nil => exact ⟨rfl, h.2⟩
  | cons b l₁ ih => exact ih h.2

/-- **A list that ends comes to no cell twice.** -/
theorem Links.nodup (h : Links next p l) : l.Nodup := by
  induction l generalizing p with
  | nil => exact List.nodup_nil
  | cons a l ih =>
    refine List.nodup_cons.mpr ⟨fun hmem => ?_, ih h.2⟩
    -- the list behind the second `a` would be the one behind the first
    obtain ⟨l₁, l₂, rfl⟩ := List.append_of_mem hmem
    have hsecond : Links next (some a) (a :: l₂) := h.2.of_append
    have hfirst : Links next (some a) (a :: (l₁ ++ a :: l₂)) := ⟨rfl, h.2⟩
    have hlen := congrArg List.length (hfirst.unique hsecond)
    simp only [List.length_cons, List.length_append] at hlen
    omega

theorem Links.congr (h : Links next p l) (hnext : ∀ a ∈ l, next' a = next a) :
    Links next' p l := by
  induction l generalizing p with
  | nil => exact h
  | cons a l ih =>
    refine ⟨h.1, ?_⟩
    rw [hnext a List.mem_cons_self]
    exact ih h.2 fun b hb => hnext b (List.mem_cons_of_mem a hb)

theorem Links.push [DecidableEq α] (h : Links next p l) (ha : a ∉ l) :
    Links (Function.update next a p) (some a) (a :: l) := by
  refine ⟨rfl, ?_⟩
  rw [Function.update_self]
  refine h.congr fun b hb => Function.update_of_ne ?_ _ _
  rintro rfl
  exact ha hb

end Linked
