import Lre.Exec.Laws

/-!
# A logic of rules

Triples about the evaluators. A precondition speaks of the state of the components, a postcondition
of the result and the state of the components; the handle stack is as it was.

* `Yields depth stk P x Q`: from a state where `P` holds and the stack is `stk`, `x` returns into
  `Q`.
* `Yields.func`, `Yields.expr`, `Yields.block`, `Yields.join`, ..: a rule for each construct.
* `Clause`, `Formula`: the propositions over atoms that the language can write, with `eval`.
* **`yields_formula`**: when every atom has its truth value in all states of an invariant, so has
  every formula of atoms, and it keeps the invariant.
-/

namespace Lre

open Run

variable {κ σ η D α β : Type}

/-- From a state of the components with `P`, and with the handles `stk`, `x` returns into `Q`, and
leaves the stack as it was. -/
def Yields (depth : ℕ) (stk : List η) (P : σ → Prop) (x : Exec κ σ η α) (Q : α → σ → Prop) : Prop :=
  ∀ s : ExecState κ σ η, s.stackdepth = depth → s.stack = stk → P s.env →
    wp (fun _ => False) x (fun a s' => (s'.stackdepth = depth ∧ s'.stack = stk ∧
      s'.negdepth = s.negdepth) ∧ Q a s'.env) s

variable {C : Callbacks κ σ η D} {R : Doubles D} {depth : ℕ} {stk : List η} {P P' : σ → Prop}
  {Q Q' : α → σ → Prop} {x : Exec κ σ η α} {handle : η}

/-! ## Sequences -/

theorem Yields.mono (h : Yields depth stk P x Q) (hP : ∀ env, P' env → P env)
    (hQ : ∀ a env, Q a env → Q' a env) : Yields depth stk P' x Q' := by
  intro s hdepth hstk hs
  refine wp_mono (h s hdepth hstk (hP _ hs)) ?_
  rintro a s' ⟨hframe, hq⟩
  exact ⟨hframe, hQ a _ hq⟩

theorem Yields.pure {a : α} (h : ∀ env, P env → Q a env) :
    Yields depth stk P (Pure.pure a : Exec κ σ η α) Q := by
  intro s hdepth hstk hs
  exact ⟨⟨hdepth, hstk, rfl⟩, h _ hs⟩

theorem Yields.bind {f : α → Exec κ σ η β} {Q' : β → σ → Prop} (hx : Yields depth stk P x Q)
    (hf : ∀ a, Yields depth stk (Q a) (f a) Q') : Yields depth stk P (x >>= f) Q' := by
  intro s hdepth hstk hs
  rw [wp_bind]
  refine wp_mono (hx s hdepth hstk hs) ?_
  rintro a s₁ ⟨⟨hdepth₁, hstk₁, hneg₁⟩, hq⟩
  refine wp_mono (hf a s₁ hdepth₁ hstk₁ hq) ?_
  rintro b s₂ ⟨⟨hdepth₂, hstk₂, hneg₂⟩, hq'⟩
  exact ⟨⟨hdepth₂, hstk₂, hneg₂.trans hneg₁⟩, hq'⟩

theorem Yields.bind_eq {a : α} {P₁ : σ → Prop} {f : α → Exec κ σ η β} {Q' : β → σ → Prop}
    (hx : Yields depth stk P x fun b env => b = a ∧ P₁ env)
    (hf : Yields depth stk P₁ (f a) Q') : Yields depth stk P (x >>= f) Q' := by
  refine hx.bind fun b => ?_
  intro s hdepth hstk hs
  obtain ⟨rfl, hs⟩ := hs
  exact hf s hdepth hstk hs

theorem Yields.emit (e : ExecEvent κ η) :
    Yields depth stk P (Lre.emit e : Exec κ σ η Unit) fun _ env => P env := by
  intro s hdepth hstk hs
  exact ⟨⟨hdepth, hstk, rfl⟩, hs⟩

theorem Yields.callback {f : σ → α × σ} (h : ∀ env, P env → Q (f env).1 (f env).2) :
    Yields depth stk P (Lre.callback f : Exec κ σ η α) Q := by
  intro s hdepth hstk hs
  exact ⟨⟨hdepth, hstk, rfl⟩, h _ hs⟩

theorem Yields.castStub {stub : κ} {type : KeystubType} (h : C.type stub = type) :
    Yields depth stk P (Lre.castStub C stub type : Exec κ σ η Unit) fun _ env => P env := by
  rw [Lre.castStub, if_pos h]
  exact .pure fun _ hs => hs

theorem Yields.getHandle :
    Yields depth (handle :: stk) P (execCtxGetHandle : Exec κ σ η η)
      fun b env => b = handle ∧ P env := by
  intro s hdepth hstk hs
  have hget : execCtxGetHandle s = .ok (handle, s) := by
    rw [execCtxGetHandle, hstk]
  rw [wp, hget]
  exact ⟨⟨hdepth, hstk, rfl⟩, rfl, hs⟩

theorem Yields.handler {f : σ → α × σ} {e : α → ExecEvent κ η} {g : α → Exec κ σ η β}
    {Q' : β → σ → Prop} {a : α} {P₁ : σ → Prop} (hf : ∀ env, P env → (f env).1 = a ∧ P₁ (f env).2)
    (hg : Yields depth stk P₁ (g a) Q') : Yields depth stk P (do
      let a ← Lre.callback f
      Lre.emit (e a)
      g a) Q' :=
  (Yields.callback hf).bind_eq ((Yields.emit (e a)).bind fun _ => hg)

/-! ## Values -/

theorem Yields.literal (x : Lexeme) (opt : Sym) (hx : val2lreValue R x.cstr ≠ .unknown) :
    Yields depth (handle :: stk) P (do
      let handle ← execCtxGetHandle
      executeValLoop C R handle (.cons (.val x) opt .nil) .reserved .init)
      fun r env => r = (0, ⟨val2lreValue R x.cstr, none⟩) ∧ P env := by
  refine Yields.getHandle.bind_eq ?_
  rw [executeValLoop, executeOperand, pure_bind]
  show Yields _ _ _ (valNext R .reserved .init 0 ⟨val2lreValue R x.cstr, none⟩
    (executeValLoop C R handle .nil opt)) _
  rw [valNext, if_neg (not_not_intro rfl)]
  cases hval : val2lreValue R x.cstr with
  | unknown => exact absurd hval hx
  | int valint => exact .pure fun _ hs => ⟨rfl, hs⟩
  | double valdouble => exact .pure fun _ hs => ⟨rfl, hs⟩
  | string valstring => exact .pure fun _ hs => ⟨rfl, hs⟩

theorem Yields.arg {astub : κ} {val : Exec κ σ η (ℤ × LreValue D)} {content : Content D}
    {P₁ P₂ : σ → Prop} (htype : C.type astub = .arg)
    (hval : Yields depth stk P val fun r env => r = (0, ⟨content, none⟩) ∧ P₁ env)
    (hhandler : ∀ env, P₁ env → (C.argHandler astub handle content env).1 = lreRetOk ∧
      P₂ (C.argHandler astub handle content env).2) :
    Yields depth stk P (executeArg C handle astub val)
      fun r env => r = (0, lreRetOk) ∧ P₂ env := by
  rw [executeArg]
  refine hval.bind_eq ?_
  dsimp only
  rw [if_neg (not_not_intro rfl)]
  refine (Yields.castStub htype).bind fun _ => ?_
  refine Yields.handler hhandler ?_
  rw [if_neg (not_not_intro rfl)]
  exact .pure fun _ hs => ⟨rfl, hs⟩

theorem Yields.args_nil :
    Yields depth stk P (executeArgs C R handle .nil) fun r env => r = (0, lreRetOk) ∧ P env := by
  rw [executeArgs]
  exact .pure fun _ hs => ⟨rfl, hs⟩

theorem Yields.args_cons {keystub : κ} {valchilds : ResolvedVals κ} {rest : ResolvedArgs κ}
    {P₁ P₂ : σ → Prop} (harg : Yields depth stk P (executeArg C handle keystub (do
      let handle ← execCtxGetHandle
      executeValLoop C R handle valchilds .reserved .init))
      fun r env => r = (0, lreRetOk) ∧ P₁ env)
    (hrest : Yields depth stk P₁ (executeArgs C R handle rest)
      fun r env => r = (0, lreRetOk) ∧ P₂ env) :
    Yields depth stk P (executeArgs C R handle (.cons keystub valchilds rest))
      fun r env => r = (0, lreRetOk) ∧ P₂ env := by
  rw [executeArgs]
  refine harg.bind_eq ?_
  dsimp only
  rw [if_neg (by simp)]
  exact hrest

/-! ## Items -/

theorem Yields.expr {estub : κ} {opt next : Sym} {x : Lexeme} {b : Bool} {P₁ : σ → Prop}
    (htype : C.type estub = .expr) (hx : val2lreValue R x.cstr ≠ .unknown)
    (hhandler : ∀ env, P env →
      (C.exprHandler estub handle opt (val2lreValue R x.cstr) env).1 = verdict b ∧
        P₁ (C.exprHandler estub handle opt (val2lreValue R x.cstr) env).2) :
    Yields depth (handle :: stk) P (executeSyntaxExpr C R estub opt (.cons (.val x) next .nil))
      fun ret env => ret = verdict b ∧ P₁ env := by
  rw [executeSyntaxExpr]
  refine Yields.getHandle.bind_eq ?_
  refine (Yields.literal x next hx).bind_eq ?_
  dsimp only
  rw [if_neg (not_not_intro rfl)]
  refine (Yields.castStub htype).bind fun _ => ?_
  refine Yields.handler hhandler ?_
  rw [if_neg (by rw [vaildLreResults_verdict]; decide)]
  exact .pure fun _ hs => ⟨rfl, hs⟩

/-- The body of an object: its handle is pushed, and popped behind its destructor. -/
theorem Yields.object {fstub : κ} {inner : Exec κ σ η α} {destructor : η → σ → σ}
    (hroom : stk.length + execStackGap < depth)
    (hinner : Yields depth (handle :: stk) P inner Q)
    (hdestructor : C.destructor fstub = some destructor)
    (hQ : ∀ a env, Q a env → Q' a (destructor handle env)) : Yields depth stk P (do
      execCtxPushHandle handle
      let a ← inner
      executeOut C fstub handle
      Pure.pure a) Q' := by
  intro s hdepth hstk hs
  have hpush : execCtxPushHandle handle s = .ok ((), { s with stack := handle :: stk }) := by
    rw [execCtxPushHandle, hstk, hdepth, if_neg (by omega)]
  rw [wp_bind, wp, hpush]
  dsimp only
  rw [wp_bind]
  refine wp_mono (hinner _ hdepth rfl hs) ?_
  rintro a s₁ ⟨⟨hdepth₁, hstk₁, hneg₁⟩, hq⟩
  rw [executeOut, hdestructor, wp_bind]
  have hpop : (do
      Lre.callback fun env => ((), destructor handle env)
      Lre.emit (.destructor fstub handle)
      execCtxPopHandle : Exec κ σ η Unit) s₁ = .ok ((),
        { s₁ with env := destructor handle s₁.env, stack := stk,
                  trace := (s₁.negdepth, .destructor fstub handle) :: s₁.trace }) := by
    show execCtxPopHandle { s₁ with
      env := destructor handle s₁.env
      trace := (s₁.negdepth, .destructor fstub handle) :: s₁.trace } = _
    rw [execCtxPopHandle]
    simp only [hstk₁]
  dsimp only
  rw [wp, hpop]
  exact ⟨⟨hdepth₁, rfl, hneg₁⟩, hQ a _ hq⟩

/-- A function: its constructor, its arguments, its exec callback, its body and its destructor. -/
theorem Yields.func {fstub : κ} {args : η → Exec κ σ η (ℤ × ℤ)} {body : Exec κ σ η ℤ} {b : Bool}
    {exec : η → σ → ℤ × σ} {destructor : η → σ → σ} {P₁ P₂ P₃ P₄ : η → σ → Prop} {P₅ : σ → Prop}
    (htype : C.type fstub = .func) (hroom : stk.length + execStackGap < depth)
    (hconstructor : ∀ env, P env → ∃ handle, (C.constructor fstub env).1 = some handle ∧
      P₁ handle (C.constructor fstub env).2)
    (hargs : ∀ handle, Yields depth (handle :: stk) (P₁ handle) (args handle)
      fun r env => r = (0, lreRetOk) ∧ P₂ handle env)
    (hexec : C.funcExec fstub = some exec)
    (hexecs : ∀ handle env, P₂ handle env → (exec handle env).1 = 0 ∧
      P₃ handle (exec handle env).2)
    (hbody : ∀ handle, Yields depth (handle :: stk) (P₃ handle) body
      fun ret env => ret = verdict b ∧ P₄ handle env)
    (hdestructor : C.destructor fstub = some destructor)
    (hdestructs : ∀ handle env, P₄ handle env → P₅ (destructor handle env)) :
    Yields depth stk P (executeFunc C fstub args body)
      fun ret env => ret = verdict b ∧ P₅ env := by
  rw [executeFunc]
  refine (Yields.castStub htype).bind fun _ => ?_
  have hcons : Yields depth stk P
      (Lre.callback (C.constructor fstub) : Exec κ σ η (Option η))
      fun h env => ∃ handle, h = some handle ∧ P₁ handle env := .callback hconstructor
  refine hcons.bind fun h => (Yields.emit _).bind fun _ => ?_
  intro s hdepth hstk hs
  obtain ⟨handle, rfl, hs⟩ := hs
  have hinner : Yields depth (handle :: stk) (P₁ handle)
      (executeFuncInner C fstub handle (args handle) body)
      fun ret env => ret = verdict b ∧ P₄ handle env := by
    rw [executeFuncInner]
    refine (hargs handle).bind_eq ?_
    dsimp only
    rw [if_neg (by simp), hexec]
    refine Yields.handler (hexecs handle) ?_
    rw [if_neg (not_not_intro rfl)]
    exact hbody handle
  have hdone : ∀ ret env, ret = verdict b ∧ P₄ handle env →
      ret = verdict b ∧ P₅ (destructor handle env) := by
    rintro ret env ⟨rfl, hq⟩
    exact ⟨rfl, hdestructs handle env hq⟩
  have hobject : Yields depth stk (P₁ handle) (do
      execCtxPushHandle handle
      let ret ← executeFuncInner C fstub handle (args handle) body
      executeOut C fstub handle
      Pure.pure ret) fun ret env => ret = verdict b ∧ P₅ env :=
    .object hroom hinner hdestructor hdone
  exact hobject s hdepth hstk hs

theorem Yields.block {childs : Exec κ σ η ℤ} {b : Bool} {Q : σ → Prop}
    (h : Yields depth stk P childs fun ret env => ret = verdict b ∧ Q env) (negative : Bool) :
    Yields depth stk P (executeBlock negative childs)
      fun ret env => ret = verdict (negative ^^ b) ∧ Q env := by
  cases negative with
  | false => rwa [executeBlock, if_neg Bool.false_ne_true, Bool.false_xor]
  | true =>
    rw [executeBlock, if_pos rfl, Bool.true_xor]
    have hneg : Yields depth stk P (negated childs) fun ret env => ret = verdict b ∧ Q env := by
      intro s hdepth hstk hs
      have hchilds := h { s with negdepth := s.negdepth + 1 } hdepth hstk hs
      rw [wp] at hchilds
      rw [wp, negated]
      cases hrun : childs { s with negdepth := s.negdepth + 1 } with
      | error e =>
        rw [hrun] at hchilds
        exact hchilds
      | ok p =>
        rw [hrun] at hchilds
        obtain ⟨⟨hdepth', hstk', -⟩, hq⟩ := hchilds
        exact ⟨⟨hdepth', hstk', rfl⟩, hq⟩
    refine hneg.bind_eq ?_
    cases b <;> exact .pure fun _ hs => ⟨rfl, hs⟩

/-! ## Lists -/

/-- The operators that join items, and what they decide. -/
def joinOp : Bool → Sym
  | true => .or
  | false => .and

theorem Yields.last {node : ResolvedItem κ} {next : Sym} {b : Bool} {Q : σ → Prop}
    (h : Yields depth stk P (executeItem C R node) fun ret env => ret = verdict b ∧ Q env) :
    Yields depth stk P (executeChildsLoop C R (.cons node next .nil) .reserved valUninitialized)
      fun ret env => ret = verdict b ∧ Q env := by
  rw [executeChildsLoop]
  refine h.bind_eq ?_
  have hnil : executeChildsLoop C R .nil next (verdict b) = Pure.pure (verdict b) := by
    rw [executeChildsLoop]
    cases b <;> rfl
  have hnext : childsNext .reserved next valUninitialized (verdict b)
      (executeChildsLoop C R .nil next) = Pure.pure (verdict b) := by
    rw [childsNext, if_neg (by rw [vaildLreResults_verdict]; decide)]
    show (if childsStop next (verdict b) = true then _ else executeChildsLoop C R .nil next _) = _
    rw [hnil, ite_self]
  rw [hnext]
  exact .pure fun _ hs => ⟨rfl, hs⟩

theorem childsNext_joinOp (or b : Bool) {more : ℤ → Exec κ σ η ℤ} :
    childsNext .reserved (joinOp or) valUninitialized (verdict b) more =
      if b = or then Pure.pure (verdict b) else more (verdict b) := by
  rw [childsNext, if_neg (by rw [vaildLreResults_verdict]; decide)]
  cases or <;> cases b <;> rfl

theorem childsStop_joinOp {or b : Bool} (h : b ≠ or) :
    childsStop (joinOp or) (verdict b) = false := by
  cases or <;> cases b <;> first | rfl | exact absurd rfl h

/-- `x && rest` and `x || rest`, when `x` decides: the rest is not evaluated. -/
theorem Yields.join_stop {node : ResolvedItem κ} {rest : ResolvedItems κ} {or : Bool}
    {Q : σ → Prop}
    (hnode : Yields depth stk P (executeItem C R node) fun ret env => ret = verdict or ∧ Q env) :
    Yields depth stk P
      (executeChildsLoop C R (.cons node (joinOp or) rest) .reserved valUninitialized)
      fun ret env => ret = verdict or ∧ Q env := by
  rw [executeChildsLoop]
  refine hnode.bind_eq ?_
  rw [childsNext_joinOp, if_pos rfl]
  exact .pure fun _ hs => ⟨rfl, hs⟩

/-- `x && rest` and `x || rest`, when `x` leaves it open. -/
theorem Yields.join_next {node node' : ResolvedItem κ} {next : Sym} {rest : ResolvedItems κ}
    {or b : Bool} {P₁ : σ → Prop} {Q : ℤ → σ → Prop} (hb : b ≠ or)
    (hnode : Yields depth stk P (executeItem C R node) fun ret env => ret = verdict b ∧ P₁ env)
    (hrest : Yields depth stk P₁
      (executeChildsLoop C R (.cons node' next rest) .reserved valUninitialized) Q) :
    Yields depth stk P
      (executeChildsLoop C R (.cons node (joinOp or) (.cons node' next rest)) .reserved
        valUninitialized) Q := by
  have hop : joinOp or = .and ∨ joinOp or = .or := by cases or <;> simp [joinOp]
  rw [executeChildsLoop]
  refine hnode.bind_eq ?_
  rw [childsNext_joinOp, if_neg hb, executeChildsLoop_restart hop (vaildLreResults_verdict b)
    (childsStop_joinOp hb)]
  exact hrest

/-! ## Propositions -/

mutual

/-- A proposition between operators: an atom, or a list in parentheses. -/
inductive Clause (α : Type)
  | atom (a : α)
  | block (negative : Bool) (formula : Formula α)

/-- Clauses with operators between them, `true` for `||`. -/
inductive Formula (α : Type)
  | last (clause : Clause α)
  | join (clause : Clause α) (or : Bool) (rest : Formula α)

end

mutual

/-- The truth value, where the operators group to the right. -/
def Clause.eval (val : α → Bool) : Clause α → Bool
  | .atom a => val a
  | .block negative formula => negative ^^ formula.eval val

def Formula.eval (val : α → Bool) : Formula α → Bool
  | .last clause => clause.eval val
  | .join clause or rest =>
    if or then clause.eval val || rest.eval val else clause.eval val && rest.eval val

end

mutual

/-- The truth value when atoms change a state: they are evaluated one after the other, up to the
first that decides. -/
def Clause.run (step : α → β → Bool × β) : Clause α → β → Bool × β
  | .atom a, t => step a t
  | .block negative formula, t => (negative ^^ (formula.run step t).1, (formula.run step t).2)

def Formula.run (step : α → β → Bool × β) : Formula α → β → Bool × β
  | .last clause, t => clause.run step t
  | .join clause or rest, t =>
    if (clause.run step t).1 = or then clause.run step t else rest.run step (clause.run step t).2

end

section Value

variable {step : α → β → Bool × β} {val : α → Bool}

mutual

theorem Clause.run_fst (hval : ∀ a t, (step a t).1 = val a) : ∀ (clause : Clause α) (t : β),
    (clause.run step t).1 = clause.eval val
  | .atom a, t => hval a t
  | .block negative formula, t => by rw [Clause.run, Clause.eval, formula.run_fst hval t]

theorem Formula.run_fst (hval : ∀ a t, (step a t).1 = val a) : ∀ (formula : Formula α) (t : β),
    (formula.run step t).1 = formula.eval val
  | .last clause, t => clause.run_fst hval t
  | .join clause or rest, t => by
    have hrest := rest.run_fst hval (clause.run step t).2
    rw [Formula.run, Formula.eval, ← clause.run_fst hval t, ← hrest]
    cases or <;> cases hclause : (clause.run step t).1 <;> simp [hclause]

end

mutual

/-- A state that all atoms reach. -/
theorem Clause.run_snd {t' : β} (hstate : ∀ a t, (step a t).2 = t') :
    ∀ (clause : Clause α) (t : β), (clause.run step t).2 = t'
  | .atom a, t => hstate a t
  | .block _ formula, t => formula.run_snd hstate t

theorem Formula.run_snd {t' : β} (hstate : ∀ a t, (step a t).2 = t') :
    ∀ (formula : Formula α) (t : β), (formula.run step t).2 = t'
  | .last clause, t => clause.run_snd hstate t
  | .join clause or rest, t => by
    rw [Formula.run]
    split_ifs
    · exact clause.run_snd hstate t
    · exact rest.run_snd hstate _

end

end Value

mutual

/-- The items of a proposition, with those of its atoms. -/
def Clause.resolved (leaf : α → ResolvedItem κ) : Clause α → ResolvedItem κ
  | .atom a => leaf a
  | .block negative formula => .block negative (formula.resolved leaf)

def Formula.resolved (leaf : α → ResolvedItem κ) : Formula α → ResolvedItems κ
  | .last clause => .cons (clause.resolved leaf) .reserved .nil
  | .join clause or rest => .cons (clause.resolved leaf) (joinOp or) (rest.resolved leaf)

end

theorem Formula.resolved_cons (leaf : α → ResolvedItem κ) (formula : Formula α) :
    ∃ node next rest, formula.resolved leaf = .cons node next rest := by
  cases formula with
  | last clause => exact ⟨_, _, _, rfl⟩
  | join clause or rest => exact ⟨_, _, _, rfl⟩

section Sound

variable {leaf : α → ResolvedItem κ} {step : α → β → Bool × β} {I : β → σ → Prop}

mutual

theorem yields_clauseRun (hatom : ∀ a t, Yields depth stk (I t) (executeItem C R (leaf a))
    fun ret env => ret = verdict (step a t).1 ∧ I (step a t).2 env) :
    ∀ (clause : Clause α) (t : β),
      Yields depth stk (I t) (executeItem C R (clause.resolved leaf))
        fun ret env => ret = verdict (clause.run step t).1 ∧ I (clause.run step t).2 env
  | .atom a, t => hatom a t
  | .block negative formula, t => by
    rw [Clause.resolved, executeItem, Clause.run]
    exact (yields_run hatom formula t).block negative

/-- **Rules are runs of their atoms**: when each atom does to the components what `step` does to
`t`, every formula does what its run does. -/
theorem yields_run (hatom : ∀ a t, Yields depth stk (I t) (executeItem C R (leaf a))
    fun ret env => ret = verdict (step a t).1 ∧ I (step a t).2 env) :
    ∀ (formula : Formula α) (t : β),
      Yields depth stk (I t)
        (executeChildsLoop C R (formula.resolved leaf) .reserved valUninitialized)
        fun ret env => ret = verdict (formula.run step t).1 ∧ I (formula.run step t).2 env
  | .last clause, t => by
    rw [Formula.resolved, Formula.run]
    exact (yields_clauseRun hatom clause t).last
  | .join clause or rest, t => by
    have hclause := yields_clauseRun hatom clause t
    have hrest := yields_run hatom rest (clause.run step t).2
    rw [Formula.resolved, Formula.run]
    obtain ⟨node, next, items, hcons⟩ := rest.resolved_cons leaf
    rw [hcons] at hrest ⊢
    by_cases hstop : (clause.run step t).1 = or
    · rw [if_pos hstop]
      rw [hstop] at hclause ⊢
      exact hclause.join_stop
    · rw [if_neg hstop]
      exact hclause.join_next hstop hrest

end

/-- **Rules are propositions**: when the atoms have truth values that no evaluation changes, every
formula has its truth value. The first atom is evaluated in any case, from `P`. -/
theorem yields_formula {val : α → Bool} {P I : σ → Prop}
    (hatom : ∀ a, Yields depth stk I (executeItem C R (leaf a))
      fun ret env => ret = verdict (val a) ∧ I env)
    (hfirst : ∀ a, Yields depth stk P (executeItem C R (leaf a))
      fun ret env => ret = verdict (val a) ∧ I env) (formula : Formula α) :
    Yields depth stk P (executeChildsLoop C R (formula.resolved leaf) .reserved valUninitialized)
      fun ret env => ret = verdict (formula.eval val) ∧ I env := by
  let step : α → Bool → Bool × Bool := fun a _ => (val a, true)
  have hrun := @yields_run _ _ _ _ _ _ C R depth stk leaf step (fun t => if t then I else P)
    (fun a t => by cases t <;> first | exact hatom a | exact hfirst a) formula false
  have hfst : ∀ a t, (step a t).1 = val a := fun _ _ => rfl
  have hsnd : ∀ a t, (step a t).2 = true := fun _ _ => rfl
  have hval := formula.run_fst hfst false
  have hstate := formula.run_snd hsnd false
  rw [hval, hstate] at hrun
  exact hrun

end Sound

end Lre
