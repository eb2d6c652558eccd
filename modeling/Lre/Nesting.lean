import Mathlib.Algebra.BigOperators.Group.List.Basic

/-!
# Well-nested traces

A trace of events `ε` on objects `θ`. A scope `ω` starts with its opening event, ends with its
closing events, and makes its object the innermost one in between.

* `Discipline`: what opens and closes a scope, which events use an object, and which are idle.
* `Discipline.Nested`: the well-nested traces; `Nested.append`.
* `Nested.sum_eq_zero`: in a well-nested trace the openings and the closings balance.
-/

/-- The events of a trace and the scopes they delimit. -/
structure Discipline (ε ω θ : Type) where
  opens : ω → ε
  closes : ω → List ε
  obj : ω → θ
  uses : ε → Option θ
  idle : ε → Prop

namespace Discipline

variable {ε ω θ : Type}

/-- The well-nested traces below the innermost object `top`. -/
inductive Nested (d : Discipline ε ω θ) : Option θ → List ε → Prop
  | nil {top : Option θ} : Nested d top []
  | idle {top : Option θ} {e : ε} {rest : List ε} :
      d.idle e → Nested d top rest → Nested d top (e :: rest)
  | use {t : θ} {e : ε} {rest : List ε} :
      d.uses e = some t → Nested d (some t) rest → Nested d (some t) (e :: rest)
  | scope {top : Option θ} (w : ω) {inner rest : List ε} :
      Nested d (some (d.obj w)) inner → Nested d top rest →
      Nested d top (d.opens w :: (inner ++ (d.closes w ++ rest)))

namespace Nested

variable {d : Discipline ε ω θ} {top : Option θ} {es es' : List ε}

theorem append (h : d.Nested top es) (h' : d.Nested top es') : d.Nested top (es ++ es') := by
  induction h with
  | nil => exact h'
  | idle he _ ih => exact .idle he (ih h')
  | use he _ ih => exact .use he (ih h')
  | scope w hi _ _ ih =>
    rw [List.cons_append, List.append_assoc, List.append_assoc]
    exact .scope w hi (ih h')

/-- A weight that vanishes on idle events and uses, and whose openings and closings cancel,
sums to zero. -/
theorem sum_eq_zero {M : Type} [AddCommGroup M] {f : ε → M} (h : d.Nested top es)
    (hidle : ∀ e, d.idle e → f e = 0) (huse : ∀ e t, d.uses e = some t → f e = 0)
    (hscope : ∀ w, f (d.opens w) + ((d.closes w).map f).sum = 0) : (es.map f).sum = 0 := by
  induction h with
  | nil => rfl
  | idle he _ ih => rw [List.map_cons, List.sum_cons, ih, hidle _ he, add_zero]
  | use he _ ih => rw [List.map_cons, List.sum_cons, ih, huse _ _ he, add_zero]
  | scope w _ _ ihi ihr =>
    rw [List.map_cons, List.sum_cons, List.map_append, List.sum_append, ihi, List.map_append,
      List.sum_append, ihr, add_zero, zero_add, hscope]

end Nested

end Discipline
