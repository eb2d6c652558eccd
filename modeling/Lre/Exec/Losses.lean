import Lre.Exec.Activation

/-!
# Lost heap strings

* `Moment`: what can happen to the string of a value, or to the strings that a callback stores;
  `HasMoment`: an activation comes to it directly; `Moment.Loses`: a string is lost.
* `Lossless`: nothing is lost in what an activation comes to; `lossless_call_iff`,
  `lossless_valLoop_iff`, ...: what that means for each piece of the executor.
-/

namespace Lre

open Run

variable {κ σ η D : Type}

/-! ## Moments -/

/-- What can happen to the heap string of a value, or to those that a callback stores. -/
inductive Moment (D : Type)
  /-- a callback stores into its out parameter, and succeeds or fails -/
  | stores (sets : List (SetValue D)) (ok : Bool)
  /-- a handler is given `arg`, and succeeds or fails -/
  | handled (arg : LreValue D) (ok : Bool)
  /-- the operand behind `arg` fails -/
  | fails (arg : LreValue D)
  /-- the operand `tmparg` meets the value `arg` of the operands before it -/
  | meet (opt : Sym) (arg tmparg : LreValue D)

def SetValue.isDup : SetValue D → Bool
  | .dup2String _ => true
  | _ => false

/-- The number of heap strings that stores make. -/
def dups (sets : List (SetValue D)) : ℕ := sets.countP SetValue.isDup

/-- Two numbers are calculated with, and there is a result. -/
def Calculates (R : Doubles D) (opt : Sym) : Content D → Content D → Prop
  | .int a, .int b => lreCalcInt a b opt ≠ some retDeadVal
  | .double a, .double b => R.valint (lreCalcDobule R a b opt) ≠ retDeadVal
  | _, _ => False

/-- An operand is a string, or a number and the first operand. -/
def Passes : Content D → Content D → Prop
  | _, .string _ => True
  | .unknown, .int _ => True
  | .unknown, .double _ => True
  | _, _ => False

/-- A heap string is lost: a second one is stored into the same value or the callback fails, a
handler fails, an operand fails behind a value that owns one; a value that owns one is not the one
that carries the result of a calculation, or an operand that owns one is calculated with. -/
def Moment.Loses (R : Doubles D) : Moment D → Prop
  | .stores sets ok => (if ok then 1 else 0) < dups sets
  | .handled arg ok => arg.ptr ≠ none ∧ ok = false
  | .fails arg => arg.ptr ≠ none
  | .meet opt arg tmparg => arg.ptr ≠ none ∧ ¬Calculates R opt arg.content tmparg.content ∨
      tmparg.ptr ≠ none ∧ ¬Passes arg.content tmparg.content

/-- What happens to values directly in an activation. -/
inductive HasMoment (C : Callbacks κ σ η D) (R : Doubles D) : Activation κ σ η D → Moment D → Prop
  | var {d handle valstub s} :
    HasMoment C R ⟨d, .operand handle (.var valstub), s⟩
      (.stores (C.varHandler valstub handle s.env).1.2 true)
  | callExec {d top keystub args handle s s₁ s₂ s₃ f}
    (hcons : construct C .call keystub s = .ok (some handle, s₁))
    (hpush : execCtxPushHandle handle s₁ = .ok ((), s₂))
    (hargs : executeArgs C R handle args s₂ = .ok ((0, lreRetOk), s₃))
    (hexec : C.callExec keystub = some f) :
    HasMoment C R ⟨d, .operand top (.call keystub args), s⟩
      (.stores (f handle s₃.env).1.2 ((f handle s₃.env).1.1 = 0))
  | fails {d handle node next rest opt arg ret tmparg s s'}
    (hnode : executeOperand C R handle node s = .ok ((ret, tmparg), s')) (hret : ret ≠ 0) :
    HasMoment C R ⟨d, .valLoop handle (.cons node next rest) opt arg, s⟩ (.fails arg)
  | meet {d opt arg tmparg s} : HasMoment C R ⟨d, .meet opt arg tmparg, s⟩ (.meet opt arg tmparg)
  | arg {d handle keystub vs rest arg s s'}
    (hval : executeSyntaxVal C R vs s = .ok ((0, arg), s')) :
    HasMoment C R ⟨d, .args handle (.cons keystub vs rest), s⟩
      (.handled arg ((C.argHandler keystub handle arg.content s'.env).1 = lreRetOk))
  | expr {d keystub opt vs handle arg s s'} (hget : execCtxGetHandle s = .ok (handle, s))
    (hval : executeSyntaxVal C R vs s = .ok ((0, arg), s')) :
    HasMoment C R ⟨d, .item (.expr keystub opt vs), s⟩
      (.handled arg (vaildLreResults (C.exprHandler keystub handle opt arg.content s'.env).1))

/-- Nothing is lost in what an activation comes to. -/
def Lossless (C : Callbacks κ σ η D) (R : Doubles D) (p : Activation κ σ η D) : Prop :=
  ∀ a, ComesTo C R p a → ∀ m, HasMoment C R a m → ¬m.Loses R

variable {C : Callbacks κ σ η D} {R : Doubles D} {d : ℕ} {s : ExecState κ σ η}

theorem lossless_iff {p : Activation κ σ η D} : Lossless C R p ↔
    (∀ m, HasMoment C R p m → ¬m.Loses R) ∧ ∀ q, Enters C R p q → Lossless C R q := by
  constructor
  · intro h
    exact ⟨h p .refl, fun q hq a ha => h a (.head hq ha)⟩
  · rintro ⟨hmoment, hsteps⟩ a ha
    rcases ha.cases_head with rfl | ⟨q, hq, hqa⟩
    · exact hmoment
    · exact hsteps q hq a hqa

/-- Nothing is lost in a value that starts with the innermost object. -/
def LosslessVal (C : Callbacks κ σ η D) (R : Doubles D) (d : ℕ) (vs : ResolvedVals κ)
    (s : ExecState κ σ η) : Prop :=
  ∀ top, execCtxGetHandle s = .ok (top, s) → Lossless C R ⟨d, .valLoop top vs .reserved .init, s⟩

/-! ## What an activation loses -/

theorem lossless_val {handle : η} {val : Lexeme} :
    Lossless C R ⟨d, .operand handle (.val val), s⟩ := by
  refine lossless_iff.mpr ⟨?_, ?_⟩
  · rintro m ⟨⟩
  · rintro q ⟨⟩

theorem lossless_var_iff {handle : η} {valstub : κ} :
    Lossless C R ⟨d, .operand handle (.var valstub), s⟩ ↔
      ¬(Moment.stores (C.varHandler valstub handle s.env).1.2 true).Loses R := by
  rw [lossless_iff]
  constructor
  · rintro ⟨hmoment, -⟩
    exact hmoment _ .var
  · intro h
    constructor
    · rintro m ⟨⟩
      exact h
    · rintro q ⟨⟩

theorem lossless_valblock_iff {handle : η} {childs : ResolvedVals κ} :
    Lossless C R ⟨d, .operand handle (.valblock childs), s⟩ ↔ LosslessVal C R d childs s := by
  rw [lossless_iff]
  constructor
  · rintro ⟨-, hsteps⟩ top hget
    exact hsteps _ (.valblock hget)
  · intro h
    constructor
    · rintro m ⟨⟩
    · intro q hq
      cases hq with
      | valblock hget => exact h _ hget

theorem lossless_call_iff {top : η} {keystub : κ} {args : ResolvedArgs κ} :
    Lossless C R ⟨d, .operand top (.call keystub args), s⟩ ↔
      ∀ handle s₁ s₂, construct C .call keystub s = .ok (some handle, s₁) →
        execCtxPushHandle handle s₁ = .ok ((), s₂) → Lossless C R ⟨d + 1, .args handle args, s₂⟩ ∧
          ∀ p s₃, executeArgs C R handle args s₂ = .ok (p, s₃) → p = (0, lreRetOk) →
            ∀ f, C.callExec keystub = some f → ¬(Moment.stores (f handle s₃.env).1.2
              ((f handle s₃.env).1.1 = 0)).Loses R := by
  rw [lossless_iff]
  constructor
  · rintro ⟨hmoment, hsteps⟩ handle s₁ s₂ hcons hpush
    refine ⟨hsteps _ (.callArgs hcons hpush), ?_⟩
    rintro _ s₃ hargs rfl f hf
    exact hmoment _ (.callExec hcons hpush hargs hf)
  · intro h
    constructor
    · intro m hm
      cases hm with
      | callExec hcons hpush hargs hexec => exact (h _ _ _ hcons hpush).2 _ _ hargs rfl _ hexec
    · intro q hq
      cases hq with
      | callArgs hcons hpush => exact (h _ _ _ hcons hpush).1

theorem lossless_meet_iff {opt : Sym} {arg tmparg : LreValue D} :
    Lossless C R ⟨d, .meet opt arg tmparg, s⟩ ↔ ¬(Moment.meet opt arg tmparg).Loses R := by
  rw [lossless_iff]
  constructor
  · rintro ⟨hmoment, -⟩
    exact hmoment _ .meet
  · intro h
    constructor
    · rintro m ⟨⟩
      exact h
    · rintro q ⟨⟩

theorem lossless_valLoop_nil {handle : η} {opt : Sym} {arg : LreValue D} :
    Lossless C R ⟨d, .valLoop handle .nil opt arg, s⟩ := by
  refine lossless_iff.mpr ⟨?_, ?_⟩
  · rintro m ⟨⟩
  · rintro q ⟨⟩

theorem lossless_valLoop_iff {handle : η} {node : ResolvedVal κ} {next opt : Sym}
    {rest : ResolvedVals κ} {arg : LreValue D} :
    Lossless C R ⟨d, .valLoop handle (.cons node next rest) opt arg, s⟩ ↔
      Lossless C R ⟨d, .operand handle node, s⟩ ∧
        ∀ p s', executeOperand C R handle node s = .ok (p, s') →
          (p.1 ≠ 0 → ¬(Moment.fails arg).Loses R) ∧
          (p.1 = 0 → ¬(Moment.meet opt arg p.2).Loses R ∧
            ∀ arg' s'', valStep R opt arg p.2 s' = .ok (.next arg', s'') →
              Lossless C R ⟨d, .valLoop handle rest next arg', s''⟩) := by
  rw [lossless_iff]
  constructor
  · rintro ⟨hmoment, hsteps⟩
    refine ⟨hsteps _ .valOperand, ?_⟩
    rintro ⟨ret, tmparg⟩ s' hnode
    refine ⟨fun hret => hmoment _ (.fails hnode hret), ?_⟩
    rintro rfl
    refine ⟨lossless_meet_iff.mp (hsteps _ (.valMeet hnode)), fun arg' s'' hmeet => ?_⟩
    exact hsteps _ (.valRest hnode hmeet)
  · rintro ⟨hoperand, h⟩
    constructor
    · intro m hm
      cases hm with
      | fails hnode hret => exact (h _ _ hnode).1 hret
    · intro q hq
      cases hq with
      | valOperand => exact hoperand
      | valMeet hnode => exact lossless_meet_iff.mpr ((h _ _ hnode).2 rfl).1
      | valRest hnode hmeet => exact ((h _ _ hnode).2 rfl).2 _ _ hmeet

theorem lossless_args_nil {handle : η} : Lossless C R ⟨d, .args handle .nil, s⟩ := by
  refine lossless_iff.mpr ⟨?_, ?_⟩
  · rintro m ⟨⟩
  · rintro q ⟨⟩

theorem lossless_args_iff {handle : η} {keystub : κ} {vs : ResolvedVals κ}
    {rest : ResolvedArgs κ} : Lossless C R ⟨d, .args handle (.cons keystub vs rest), s⟩ ↔
      (LosslessVal C R d vs s ∧ ∀ p s', executeSyntaxVal C R vs s = .ok (p, s') → p.1 = 0 →
        ¬(Moment.handled p.2
          ((C.argHandler keystub handle p.2.content s'.env).1 = lreRetOk)).Loses R) ∧
      ∀ p s', executeArg C handle keystub (executeSyntaxVal C R vs) s = .ok (p, s') →
        p = (0, lreRetOk) → Lossless C R ⟨d, .args handle rest, s'⟩ := by
  rw [lossless_iff]
  constructor
  · rintro ⟨hmoment, hsteps⟩
    refine ⟨⟨fun top hget => hsteps _ (.argsVal hget), ?_⟩, ?_⟩
    · rintro ⟨ret, arg⟩ s' hval rfl
      exact hmoment _ (.arg hval)
    · rintro _ s' harg rfl
      exact hsteps _ (.argsRest harg)
  · rintro ⟨⟨hval, hhandled⟩, hrest⟩
    constructor
    · intro m hm
      cases hm with
      | arg hrun => exact hhandled _ _ hrun rfl
    · intro q hq
      cases hq with
      | argsVal hget => exact hval _ hget
      | argsRest harg => exact hrest _ _ harg rfl

theorem lossless_func_iff {keystub : κ} {args : ResolvedArgs κ} {body : ResolvedItems κ} :
    Lossless C R ⟨d, .item (.func keystub args body), s⟩ ↔
      ∀ handle s₁ s₂, construct C .func keystub s = .ok (some handle, s₁) →
        execCtxPushHandle handle s₁ = .ok ((), s₂) → Lossless C R ⟨d + 1, .args handle args, s₂⟩ ∧
          ∀ p s₃, executeArgs C R handle args s₂ = .ok (p, s₃) → p = (0, lreRetOk) →
            ∀ ret s₄, executeFuncExec C keystub handle s₃ = .ok (ret, s₄) → ret = 0 →
              Lossless C R ⟨d + 1, .childsLoop body .reserved valUninitialized, s₄⟩ := by
  rw [lossless_iff]
  constructor
  · rintro ⟨-, hsteps⟩ handle s₁ s₂ hcons hpush
    refine ⟨hsteps _ (.funcArgs hcons hpush), ?_⟩
    rintro _ s₃ hargs rfl _ s₄ hexec rfl
    exact hsteps _ (.funcBody hcons hpush hargs hexec)
  · intro h
    constructor
    · rintro m ⟨⟩
    · intro q hq
      cases hq with
      | funcArgs hcons hpush => exact (h _ _ _ hcons hpush).1
      | funcBody hcons hpush hargs hexec =>
        exact (h _ _ _ hcons hpush).2 _ _ hargs rfl _ _ hexec rfl

theorem lossless_block_iff {negative : Bool} {childs : ResolvedItems κ} :
    Lossless C R ⟨d, .item (.block negative childs), s⟩ ↔
      Lossless C R ⟨d, .childsLoop childs .reserved valUninitialized,
        if negative then { s with negdepth := s.negdepth + 1 } else s⟩ := by
  rw [lossless_iff]
  constructor
  · rintro ⟨-, hsteps⟩
    exact hsteps _ .block
  · intro h
    constructor
    · rintro m ⟨⟩
    · rintro q ⟨⟩
      exact h

theorem lossless_expr_iff {keystub : κ} {opt : Sym} {vs : ResolvedVals κ} :
    Lossless C R ⟨d, .item (.expr keystub opt vs), s⟩ ↔ LosslessVal C R d vs s ∧
      ∀ handle, execCtxGetHandle s = .ok (handle, s) →
        ∀ p s', executeSyntaxVal C R vs s = .ok (p, s') → p.1 = 0 →
          ¬(Moment.handled p.2 (vaildLreResults
            (C.exprHandler keystub handle opt p.2.content s'.env).1)).Loses R := by
  rw [lossless_iff]
  constructor
  · rintro ⟨hmoment, hsteps⟩
    refine ⟨fun top hget => hsteps _ (.expr hget), fun handle hget => ?_⟩
    rintro ⟨ret, arg⟩ s' hval rfl
    exact hmoment _ (.expr hget hval)
  · rintro ⟨hval, hhandled⟩
    constructor
    · intro m hm
      cases hm with
      | expr hget hrun => exact hhandled _ hget _ _ hrun rfl
    · intro q hq
      cases hq with
      | expr hget => exact hval _ hget

theorem lossless_childsLoop_nil {opt : Sym} {res : ℤ} :
    Lossless C R ⟨d, .childsLoop .nil opt res, s⟩ := by
  refine lossless_iff.mpr ⟨?_, ?_⟩
  · rintro m ⟨⟩
  · rintro q ⟨⟩

theorem lossless_childsLoop_iff {node : ResolvedItem κ} {next opt : Sym}
    {rest : ResolvedItems κ} {res : ℤ} :
    Lossless C R ⟨d, .childsLoop (.cons node next rest) opt res, s⟩ ↔
      Lossless C R ⟨d, .item node, s⟩ ∧ ∀ ret s', executeItem C R node s = .ok (ret, s') →
        vaildLreResults ret = true → ∀ res', childsRes opt res ret = some res' →
          childsStop next res' = false → Lossless C R ⟨d, .childsLoop rest next res', s'⟩ := by
  rw [lossless_iff]
  constructor
  · rintro ⟨-, hsteps⟩
    refine ⟨hsteps _ .childsNode, fun ret s' hnode hvalid res' hres hstop => ?_⟩
    exact hsteps _ (.childsRest hnode hvalid hres hstop)
  · rintro ⟨hitem, h⟩
    constructor
    · rintro m ⟨⟩
    · intro q hq
      cases hq with
      | childsNode => exact hitem
      | childsRest hnode hvalid hres hstop => exact h _ _ hnode hvalid _ hres hstop

end Lre
