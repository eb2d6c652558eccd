import Mathlib.Data.Char
import Lre.Exec.ShortCircuit
import Lre.Lrc.Network
import Lre.Syntax.Tree

/-!
# Comparisons

* `strcmp`, `lreCompareString`: comparisons of strings; `Sym.Sorts` is what an operator asks of two
  strings.
* `toInt_lreCompareInt`, `toInt_lreCompareString`: with an operator between operands, the result is
  a verdict.
-/

namespace Lre

instance (op : Sym) (e v : ℤ) : Decidable (op.Compares e v) := by
  cases op <;> (unfold Sym.Compares; infer_instance)

/-- `strcmp`: of the result the sign is documented only. -/
def strcmp : Word → Word → BitVec 32
  | [], [] => 0
  | [], _ :: _ => -1
  | _ :: _, [] => 1
  | a :: as, b :: bs => if a = b then strcmp as bs else if a < b then -1 else 1

/-- `lre_compare_string`. -/
def lreCompareString (a b : Word) (op : Sym) : BitVec 32 := lreCompareInt (strcmp a b) 0 op

/-- What an operator asks of two strings. -/
def Sym.Sorts : Sym → Word → Word → Prop
  | .equal, a, b => a = b
  | .notEqual, a, b => a ≠ b
  | .gt, a, b => b < a
  | .lt, a, b => a < b
  | .gtOrEqual, a, b => ¬a < b
  | .ltOrEqual, a, b => ¬b < a
  | _, _, _ => False

instance (op : Sym) (a b : Word) : Decidable (op.Sorts a b) := by
  cases op <;> (unfold Sym.Sorts; infer_instance)

variable {a b : BitVec 32} {op : Sym}

theorem toInt_lreCompareInt (hop : op.IsComp) :
    (lreCompareInt a b op).toInt = verdict (op.Compares a.toInt b.toInt) := by
  have hanswer : ∀ (p : Prop) [Decidable p],
      (if p then 1 else 0 : BitVec 32).toInt = verdict p := by
    intro p _
    unfold verdict
    split_ifs <;> simp_all
  cases op <;> first | exact hanswer _ | exact absurd hop (by decide)

theorem strcmp_cases (a b : Word) : a = b ∧ strcmp a b = 0 ∨
    (a < b ∧ ¬b < a) ∧ strcmp a b = -1 ∨ (b < a ∧ ¬a < b) ∧ strcmp a b = 1 := by
  induction a generalizing b with
  | nil =>
    cases b with
    | nil => exact .inl ⟨rfl, rfl⟩
    | cons c b => exact .inr (.inl ⟨⟨List.nil_lt_cons c b, List.not_lt_nil _⟩, rfl⟩)
  | cons c a ih =>
    cases b with
    | nil => exact .inr (.inr ⟨⟨List.nil_lt_cons c a, List.not_lt_nil _⟩, rfl⟩)
    | cons d b =>
      rw [strcmp, List.cons_lt_cons_iff, List.cons_lt_cons_iff]
      by_cases hcd : c = d
      · subst hcd
        have hirrefl : ¬c < c := lt_irrefl c
        simpa only [if_true, hirrefl, false_or, true_and, List.cons.injEq] using ih b
      · have hdc : ¬d = c := fun h => hcd h.symm
        rw [if_neg hcd]
        simp only [hcd, hdc, false_and, or_false, List.cons.injEq, false_or]
        rcases lt_or_gt_of_ne hcd with h | h
        · exact .inl ⟨⟨h, lt_asymm h⟩, if_pos h⟩
        · exact .inr ⟨⟨h, lt_asymm h⟩, if_neg (lt_asymm h)⟩

theorem compares_strcmp {a b : Word} : op.Compares (strcmp a b).toInt 0 ↔ op.Sorts a b := by
  have hneg : (-1 : BitVec 32).toInt = -1 := rfl
  have hpos : (1 : BitVec 32).toInt = 1 := rfl
  rcases strcmp_cases a b with ⟨rfl, h⟩ | ⟨⟨hab, hba⟩, h⟩ | ⟨⟨hba, hab⟩, h⟩
  · rw [h]
    cases op <;> simp [Sym.Compares, Sym.Sorts]
  · have hne : a ≠ b := fun heq => hba (heq ▸ hab)
    rw [h, hneg]
    cases op <;> simp [Sym.Compares, Sym.Sorts, hab, hba, hne]
  · have hne : a ≠ b := fun heq => hab (heq ▸ hba)
    rw [h, hpos]
    cases op <;> simp [Sym.Compares, Sym.Sorts, hab, hba, hne]

theorem toInt_lreCompareString (hop : op.IsComp) (a b : Word) :
    (lreCompareString a b op).toInt = verdict (op.Sorts a b) := by
  rw [lreCompareString, toInt_lreCompareInt hop]
  exact congrArg verdict (decide_eq_decide.mpr compares_strcmp)

end Lre
