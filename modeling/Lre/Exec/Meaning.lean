import Lre.Exec.Joined
import Lre.Exec.ShortCircuit

/-!
# The meaning of a rule

* `meaningItem`, `meaningItems`: what a rule means, by recursion on its tree. A list of one item
  means that item; `x && rest` and `x || rest` go on with `rest` when `x` leaves it open; a negated
  block means the opposite of its list, and a function the list that is its body, behind its
  constructor, its arguments and its exec callback. There is no meaning (`none`) where one of these
  fails. `execute_syntax_expr` gives an expression its value.
* **`interpExecute_meaning`**: `execute_syntax_childs`, with its accumulator, its operator carried
  along and its early return, computes this, callback by callback.
-/

namespace Lre

open Run

variable {κ σ η D : Type}

/-- The truth value of a return code. -/
def truth? (ret : ℤ) : Option Bool := if vaildLreResults ret then some (truth ret) else none

/-- A function behind its constructor: its arguments, its exec callback and its body. -/
def meaningInner (C : Callbacks κ σ η D) (fstub : κ) (handle : η) (args : Exec κ σ η (ℤ × ℤ))
    (body : Exec κ σ η (Option Bool)) : Exec κ σ η (Option Bool) := do
  if (← args) ≠ (0, lreRetOk) then return none
  else
    match C.funcExec fstub with
    | none => body
    | some f =>
      let ret ← callback (f handle)
      emit (.funcExec fstub handle ret)
      if ret ≠ 0 then return none else body

/-- A function, given its arguments and the meaning of its body. -/
def meaningFunc (C : Callbacks κ σ η D) (fstub : κ) (args : η → Exec κ σ η (ℤ × ℤ))
    (body : Exec κ σ η (Option Bool)) : Exec κ σ η (Option Bool) := do
  castStub C fstub .func
  let handle ← callback (C.constructor fstub)
  emit (.constructor fstub handle)
  match handle with
  | none => return none
  | some handle =>
    execCtxPushHandle handle
    let b ← meaningInner C fstub handle (args handle) body
    executeOut C fstub handle
    return b

/-- `x op rest`: `rest` only when `x` leaves it open. -/
def meaningJoin (op : Sym) (x rest : Exec κ σ η (Option Bool)) : Exec κ σ η (Option Bool) := do
  match op, ← x with
  | .and, some false => return some false
  | .and, some true => rest
  | .or, some true => return some true
  | .or, some false => rest
  | _, _ => return none

mutual

/-- The meaning of an item. -/
def meaningItem (C : Callbacks κ σ η D) (R : Doubles D) :
    ResolvedItem κ → Exec κ σ η (Option Bool)
  | .func keystub args body =>
    meaningFunc C keystub (fun handle => executeArgs C R handle args) (meaningItems C R body)
  | .block true childs => do return (← negated (meaningItems C R childs)).map not
  | .block false childs => meaningItems C R childs
  | .expr keystub opt valchilds => do return truth? (← executeSyntaxExpr C R keystub opt valchilds)

/-- The meaning of a list. -/
def meaningItems (C : Callbacks κ σ η D) (R : Doubles D) :
    ResolvedItems κ → Exec κ σ η (Option Bool)
  | .nil => return none
  | .cons node _ .nil => meaningItem C R node
  | .cons node op (.cons node' op' rest) =>
    meaningJoin op (meaningItem C R node) (meaningItems C R (.cons node' op' rest))

end

/-- The meaning of a rule, in the state `interp_execute` begins with. -/
def meaning (C : Callbacks κ σ η D) (R : Doubles D) (stacksize : ℕ) (tree : ResolvedItems κ)
    (env : σ) : Except ExecFault (Option Bool × ExecState κ σ η) :=
  meaningItems C R tree ⟨env, [], stacksize, 0, [], 0⟩

/-! ## Computations with a meaning -/

/-- Nothing has failed. -/
def ExecState.Succeeded (s : ExecState κ σ η) : Prop := ∀ e ∈ s.trace, ¬e.2.Stops

/-- From `s`, `x` returns what `y` means, and when nothing fails `y` has a meaning. -/
def Computes (x : Exec κ σ η ℤ) (y : Exec κ σ η (Option Bool)) (s : ExecState κ σ η) : Prop :=
  (∀ b s', y s = .ok (some b, s') → x s = .ok (verdict b, s')) ∧
  ∀ ret s', x s = .ok (ret, s') → s'.Succeeded → ∃ b, ret = verdict b ∧ y s = .ok (some b, s')

variable {α : Type} {s s' : ExecState κ σ η} {x : Exec κ σ η ℤ} {y : Exec κ σ η (Option Bool)}

theorem Computes.bind {p : Exec κ σ η α} {f : α → Exec κ σ η ℤ}
    {g : α → Exec κ σ η (Option Bool)}
    (h : ∀ a s₁, p s = .ok (a, s₁) → Computes (f a) (g a) s₁) :
    Computes (p >>= f) (p >>= g) s := by
  constructor
  · intro b s' hy
    obtain ⟨a, s₁, hp, hg⟩ := bind_inv hy
    rw [bind_ok hp]
    exact (h a s₁ hp).1 b s' hg
  · intro ret s' hx hs'
    obtain ⟨a, s₁, hp, hf⟩ := bind_inv hx
    rw [bind_ok hp]
    exact (h a s₁ hp).2 ret s' hf hs'

/-- Where something has failed, there is no meaning. -/
theorem Computes.of_failed (h : ¬s.Succeeded) (ret : ℤ) :
    Computes (Pure.pure ret) (Pure.pure none : Exec κ σ η (Option Bool)) s := by
  constructor
  · intro b s' hy
    cases hy
  · intro ret s' hx hs'
    cases hx
    exact absurd hs' h

theorem Tracks.succeeded {p₀ : Prop} {x : Exec κ σ η α} {r : α → Prop} {a : α}
    (hx : Tracks p₀ x r) (h : x s = .ok (a, s')) (hs' : s'.Succeeded) :
    s.Succeeded ∧ (r a ↔ p₀) := by
  obtain ⟨q, ⟨-, new, hnew, -, hq⟩, hr⟩ := (hx s).of_ok h
  rw [ExecState.Succeeded, hnew] at hs'
  refine ⟨fun e he => hs' e (List.mem_append_right _ he), ?_⟩
  have hnot : ¬q := by
    rw [hq]
    rintro ⟨e, he, -, hstop⟩
    exact hs' e (List.mem_append_left _ he) hstop
  rw [hr, or_iff_left hnot]

theorem truth?_verdict (b : Bool) : truth? (verdict b) = some b := by cases b <;> rfl

theorem eq_verdict_of_truth? {ret : ℤ} {b : Bool} (h : truth? ret = some b) : ret = verdict b := by
  rw [truth?] at h
  split at h
  · rename_i hret
    cases h
    exact (verdict_truth hret).symm
  · cases h

theorem exists_verdict {ret : ℤ} (h : ¬NoVerdict ret) : ∃ b, ret = verdict b :=
  ⟨truth ret, (verdict_truth (by simpa [NoVerdict] using h)).symm⟩

theorem Computes.finish {k : Exec κ σ η Unit} (hk : Tracks False k fun _ => False)
    (h : Computes x y s) :
    Computes (do let ret ← x; k; return ret) (do let b ← y; k; return b) s := by
  constructor
  · intro b s' hy
    obtain ⟨ob, s₁, hy, hrest⟩ := bind_inv hy
    obtain ⟨⟨⟩, s₂, hk₁, hrest⟩ := bind_inv hrest
    cases hrest
    rw [bind_ok (h.1 b s₁ hy), bind_ok hk₁]
    rfl
  · intro ret s' hx hs'
    obtain ⟨ret₁, s₁, hx, hrest⟩ := bind_inv hx
    obtain ⟨⟨⟩, s₂, hk₁, hrest⟩ := bind_inv hrest
    cases hrest
    obtain ⟨b, rfl, hy⟩ := h.2 _ s₁ hx (hk.succeeded hk₁ hs').1
    refine ⟨b, rfl, ?_⟩
    rw [bind_ok hy, bind_ok hk₁]
    rfl

/-! ## Functions and blocks -/

variable {C : Callbacks κ σ η D} {R : Doubles D}

theorem not_succeeded_cons {e : ExecEvent κ η} {s : ExecState κ σ η} (he : e.Stops) :
    ¬({ s with trace := (s.negdepth, e) :: s.trace } : ExecState κ σ η).Succeeded :=
  fun h => h _ List.mem_cons_self he

theorem computes_inner {fstub : κ} {handle : η} {args : Exec κ σ η (ℤ × ℤ)}
    (hargs : Tracks False args ArgFailed) (hbody : ∀ s, Computes x y s) :
    Computes (executeFuncInner C fstub handle args x) (meaningInner C fstub handle args y) s := by
  refine Computes.bind ?_
  rintro ⟨valret, argret⟩ s₁ hrun
  have hfailed : ¬(valret ≠ 0 ∨ argret ≠ lreRetOk) ∨ ¬s₁.Succeeded := by
    by_cases hs₁ : s₁.Succeeded
    · exact .inl (mt (hargs.succeeded hrun hs₁).2.mp not_false)
    · exact .inr hs₁
  dsimp only
  by_cases hret : valret ≠ 0 ∨ argret ≠ lreRetOk
  · have hne : (valret, argret) ≠ (0, lreRetOk) := by
      rintro ⟨⟩
      simp at hret
    rw [if_pos hret, if_pos hne]
    exact .of_failed (hfailed.resolve_left (not_not_intro hret)) _
  · have heq : ¬(valret, argret) ≠ (0, lreRetOk) := by
      rw [not_or, not_ne_iff, not_ne_iff] at hret
      rw [hret.1, hret.2]
      exact not_not_intro rfl
    rw [if_neg hret, if_neg heq]
    cases C.funcExec fstub with
    | none => exact hbody s₁
    | some f =>
      refine Computes.bind fun ret s₂ _ => Computes.bind ?_
      rintro ⟨⟩ s₃ hemit
      by_cases hzero : ret ≠ 0
      · rw [if_pos hzero, if_pos hzero]
        cases hemit
        exact .of_failed (@not_succeeded_cons _ _ _ (.funcExec fstub handle ret) s₂ hzero) _
      · rw [if_neg hzero, if_neg hzero]
        exact hbody s₃

theorem computes_func {fstub : κ} {args : η → Exec κ σ η (ℤ × ℤ)}
    (hargs : ∀ handle, Tracks False (args handle) ArgFailed) (hbody : ∀ s, Computes x y s) :
    Computes (executeFunc C fstub args x) (meaningFunc C fstub args y) s := by
  refine Computes.bind fun _ _ _ => Computes.bind fun handle _ _ => Computes.bind ?_
  rintro ⟨⟩ s₃ hemit
  cases handle with
  | none =>
    cases hemit
    exact .of_failed (@not_succeeded_cons _ _ _ (.constructor fstub none) _ trivial) _
  | some handle =>
    refine Computes.bind fun _ _ _ => Computes.finish ?_ (computes_inner (hargs handle) hbody)
    exact (tracks_executeOut C fstub handle).congr Iff.rfl

theorem negated_inv {p : Exec κ σ η α} {a : α} (h : negated p s = .ok (a, s')) :
    ∃ s₁, p { s with negdepth := s.negdepth + 1 } = .ok (a, s₁) ∧
      s' = { s₁ with negdepth := s.negdepth } := by
  cases hp : p { s with negdepth := s.negdepth + 1 } with
  | error e =>
    rw [negated, hp] at h
    cases h
  | ok q =>
    rw [negated, hp] at h
    cases h
    exact ⟨q.2, rfl, rfl⟩

theorem negated_ok {p : Exec κ σ η α} {a : α}
    (h : p { s with negdepth := s.negdepth + 1 } = .ok (a, s')) :
    negated p s = .ok (a, { s' with negdepth := s.negdepth }) := by
  rw [negated, h]
  rfl

theorem computes_block (hchilds : ∀ s, Computes x y s) :
    Computes (executeBlock true x) (do return (← negated y).map not) s := by
  have hneg : ∀ b, (if verdict b = 0 then (1 : ℤ) else 0) = verdict !b := by decide
  rw [executeBlock, if_pos rfl]
  constructor
  · intro b s' hrun
    obtain ⟨ob, s₁, hy, hrest⟩ := bind_inv hrun
    obtain ⟨s₂, hy₂, rfl⟩ := negated_inv hy
    cases ob with
    | none => cases hrest
    | some b =>
      cases hrest
      rw [bind_ok (negated_ok ((hchilds _).1 b s₂ hy₂))]
      exact congrArg (fun ret => Except.ok (ret, _)) (hneg b)
  · intro ret s' hrun hs'
    obtain ⟨ret₁, s₁, hx, hrest⟩ := bind_inv hrun
    obtain ⟨s₂, hx₂, rfl⟩ := negated_inv hx
    cases hrest
    obtain ⟨b, rfl, hy₂⟩ := (hchilds _).2 _ s₂ hx₂ hs'
    refine ⟨!b, hneg b, ?_⟩
    rw [bind_ok (negated_ok hy₂)]
    rfl

theorem computes_expr {p : Exec κ σ η ℤ} (hp : Tracks False p NoVerdict) :
    Computes p (do return truth? (← p)) s := by
  constructor
  · intro b s' hrun
    obtain ⟨ret, s₁, hret, hrest⟩ := bind_inv hrun
    obtain ⟨htruth, rfl⟩ := Prod.mk.inj (Except.ok.inj hrest)
    rw [hret, eq_verdict_of_truth? htruth]
  · intro ret s' hret hs'
    obtain ⟨b, rfl⟩ := exists_verdict (mt (hp.succeeded hret hs').2.mp not_false)
    refine ⟨b, rfl, ?_⟩
    rw [bind_ok hret, truth?_verdict]
    rfl

/-! ## Lists -/

/-- The next node decides the accumulator alone. -/
def Undecided (opt : Sym) (res : ℤ) : Prop :=
  res = valUninitialized ∨ opt = .and ∧ res = verdict true ∨ opt = .or ∧ res = verdict false

theorem Undecided.childsRes {opt : Sym} {res : ℤ} (h : Undecided opt res) (b : Bool) :
    childsRes opt res (verdict b) = some (verdict b) := by
  rcases h with rfl | ⟨rfl, rfl⟩ | ⟨rfl, rfl⟩
  · rfl
  · cases b <;> rfl
  · cases b <;> rfl

theorem verdict_ne_uninitialized (b : Bool) : verdict b ≠ valUninitialized := by
  cases b <;> decide

theorem executeChildsLoop_noOperator {node : ResolvedItem κ} {next opt : Sym}
    {rest : ResolvedItems κ} {res ret : ℤ} (hand : opt ≠ .and) (hor : opt ≠ .or)
    (hres : res ≠ valUninitialized)
    (h : executeChildsLoop C R (.cons node next rest) opt res s = .ok (ret, s')) :
    NoVerdict ret := by
  obtain ⟨ret₁, s₁, -, hrest⟩ := bind_inv h
  have hnone : childsRes opt res ret₁ = none := by
    rw [childsRes.eq_def, if_neg hres]
    split
    · exact absurd rfl hand
    · exact absurd rfl hor
    · rfl
  rw [childsNext, hnone] at hrest
  split at hrest <;> · cases hrest; rfl

theorem Computes.verdict (b : Bool) :
    Computes (Pure.pure (Lre.verdict b)) (Pure.pure (some b) : Exec κ σ η (Option Bool)) s := by
  constructor
  · intro b' s' h
    cases h
    rfl
  · intro ret s' h _
    cases h
    exact ⟨b, rfl, rfl⟩

theorem meaningJoin_noOperator {op : Sym} (hand : op ≠ .and) (hor : op ≠ .or)
    (y rest : Exec κ σ η (Option Bool)) : meaningJoin op y rest = do let _ ← y; return none := by
  unfold meaningJoin
  refine bind_congr fun v => ?_
  split
  · exact absurd rfl hand
  · exact absurd rfl hand
  · exact absurd rfl hor
  · exact absurd rfl hor
  · rfl

theorem computes_tail {node : ResolvedItem κ} {op next : Sym} {rest : ResolvedItems κ} {b : Bool}
    (hrest : ∀ opt res, Undecided opt res → Computes
      (executeChildsLoop C R (.cons node op rest) opt res)
      (meaningItems C R (.cons node op rest)) s) :
    Computes (childsTail C R (.cons node op rest) next (verdict b))
      (meaningJoin next (Pure.pure (some b)) (meaningItems C R (.cons node op rest))) s := by
  by_cases hand : next = .and
  · subst hand
    cases b with
    | false => exact .verdict false
    | true => exact hrest .and (verdict true) (.inr (.inl ⟨rfl, rfl⟩))
  · by_cases hor : next = .or
    · subst hor
      cases b with
      | false => exact hrest .or (verdict false) (.inr (.inr ⟨rfl, rfl⟩))
      | true => exact .verdict true
    · have hstop : childsStop next (verdict b) = false := by simp [childsStop, hand, hor]
      have htracks := executeChildsLoop_tracks (C := C) (R := R) (.cons node op rest) next
        (verdict b) (.inr (vaildLreResults_verdict b))
      rw [childsTail, hstop]
      constructor
      · intro b' s' h
        rw [meaningJoin_noOperator hand hor] at h
        cases h
      · intro ret s' h hs'
        have hret := executeChildsLoop_noOperator hand hor (verdict_ne_uninitialized b) h
        exact absurd hret (mt (htracks.succeeded h hs').2.mp not_false)

theorem Computes.andThen {f : ℤ → Exec κ σ η ℤ} {g : Option Bool → Exec κ σ η (Option Bool)}
    (h : Computes x y s) (hf : ∀ ret, Tracks (NoVerdict ret) (f ret) NoVerdict)
    (hnone : g none = Pure.pure none) (hg : ∀ b s, Computes (f (Lre.verdict b)) (g (some b)) s) :
    Computes (x >>= f) (y >>= g) s := by
  constructor
  · intro b s' hrun
    obtain ⟨v, s₁, hy, hrest⟩ := bind_inv hrun
    cases v with
    | none =>
      rw [hnone] at hrest
      cases hrest
    | some b₁ =>
      rw [bind_ok (h.1 b₁ s₁ hy)]
      exact (hg b₁ s₁).1 b s' hrest
  · intro ret s' hrun hs'
    obtain ⟨ret₁, s₁, hx, hrest⟩ := bind_inv hrun
    obtain ⟨b₁, rfl, hy⟩ := h.2 ret₁ s₁ hx ((hf ret₁).succeeded hrest hs').1
    rw [bind_ok hy]
    exact (hg b₁ s₁).2 ret s' hrest hs'

/-- **One step of the list loop.** -/
theorem computes_cons {node : ResolvedItem κ} {next opt : Sym} {rest : ResolvedItems κ} {res : ℤ}
    (hnode : Computes (executeItem C R node) (meaningItem C R node) s)
    (hrest : ∀ opt res s, rest ≠ .nil → Undecided opt res →
      Computes (executeChildsLoop C R rest opt res) (meaningItems C R rest) s)
    (hres : Undecided opt res) :
    Computes (executeChildsLoop C R (.cons node next rest) opt res)
      (meaningItems C R (.cons node next rest)) s := by
  have hnext : ∀ b, childsNext opt next res (verdict b) (executeChildsLoop C R rest next) =
      childsTail C R rest next (verdict b) := fun b =>
    childsNext_ok (vaildLreResults_verdict b) (hres.childsRes b)
  have htracks : ∀ ret, Tracks (NoVerdict ret)
      (childsNext opt next res ret (executeChildsLoop C R rest next)) NoVerdict := fun ret =>
    tracks_childsNext fun res hres => executeChildsLoop_tracks rest next res hres
  cases rest with
  | nil =>
    have hlast : ∀ b, childsTail C R .nil next (verdict b) = Pure.pure (verdict b) := by
      intro b
      rw [childsTail, executeChildsLoop, if_neg (verdict_ne_uninitialized b)]
      exact ite_self _
    rw [meaningItems, ← bind_pure (meaningItem C R node)]
    refine hnode.andThen htracks rfl fun b s => ?_
    rw [hnext, hlast]
    exact .verdict b
  | cons node' op rest =>
    refine hnode.andThen htracks ?_ fun b s => ?_
    · cases next <;> rfl
    · rw [hnext]
      exact computes_tail fun opt res => hrest opt res s (by rintro ⟨⟩)

theorem computes_nil {opt : Sym} :
    Computes (executeChildsLoop C R .nil opt valUninitialized) (meaningItems C R .nil) s := by
  constructor
  · intro b s' h
    cases h
  · intro ret s' h hs'
    cases h
    exact absurd hs' (@not_succeeded_cons _ _ _ .listError s trivial)

mutual

theorem executeItem_computes : ∀ (node : ResolvedItem κ) (s : ExecState κ σ η),
    Computes (executeItem C R node) (meaningItem C R node) s
  | .func _ args body, _ =>
    computes_func (fun handle => executeArgs_tracks args handle) fun s =>
      executeChildsLoop_computes body _ _ s (.inl rfl) (.inr rfl)
  | .block true childs, _ =>
    computes_block fun s => executeChildsLoop_computes childs _ _ s (.inl rfl) (.inr rfl)
  | .block false childs, s => executeChildsLoop_computes childs _ _ s (.inl rfl) (.inr rfl)
  | .expr estub opt valchilds, _ => computes_expr (tracks_executeSyntaxExpr estub opt valchilds)

theorem executeChildsLoop_computes : ∀ (items : ResolvedItems κ) (opt : Sym) (res : ℤ)
    (s : ExecState κ σ η), Undecided opt res → items ≠ .nil ∨ res = valUninitialized →
    Computes (executeChildsLoop C R items opt res) (meaningItems C R items) s
  | .nil, _, _, s, _, h => by
    obtain rfl := h.resolve_left (not_not_intro rfl)
    exact computes_nil
  | .cons node _ rest, _, _, s, hres, _ =>
    computes_cons (executeItem_computes node s)
      (fun opt res s hne hres => executeChildsLoop_computes rest opt res s hres (.inl hne)) hres

end

/-! ## The meaning of a rule -/

/-- The event is no failure of a callback or a value. -/
def ExecEvent.Succeeds (e : ExecEvent κ η) : Prop := ¬e.Fails ∧ e ≠ .noExec

theorem ExecEvent.Succeeds.not_stops {e : ExecEvent κ η} (h : e.Succeeds) (hne : e ≠ .listError) :
    ¬e.Stops := by
  cases e with
  | varHandler => exact id
  | listError => exact absurd rfl hne
  | noExec => exact absurd rfl h.2
  | _ => exact h.1

/-- **`interp_execute` computes the meaning of a rule.** Where the rule has a meaning, it returns
it after the same callbacks; and a rule of joined lists whose callbacks succeed has one. -/
theorem interpExecute_meaning (C : Callbacks κ σ η D) (R : Doubles D) (stacksize : ℕ)
    (tree : ResolvedItems κ) (env : σ) (htree : tree.Joined) :
    (∀ b s, meaning C R stacksize tree env = .ok (some b, s) →
      interpExecute C R stacksize tree env = .ok (verdict b, s)) ∧
    ∀ ret s, interpExecute C R stacksize tree env = .ok (ret, s) →
      (∀ e ∈ s.trace, e.2.Succeeds) →
      ∃ b, ret = verdict b ∧ meaning C R stacksize tree env = .ok (some b, s) := by
  have hcomputes := executeChildsLoop_computes (C := C) (R := R) tree .reserved valUninitialized
    ⟨env, [], stacksize, 0, [], 0⟩ (.inl rfl) (.inr rfl)
  have hwellformed := executeChildsLoop_wellformed (C := C) (R := R) tree .reserved
    valUninitialized htree (.inl rfl)
  refine ⟨hcomputes.1, fun ret s hrun hs => hcomputes.2 ret s hrun fun e he => ?_⟩
  have hne := (hwellformed _).of_ok hrun e he
  exact (hs e he).not_stops (hne.resolve_left nofun)

/-- `f(a=1){e==1 && !(e==1 || e==1)}` -/
def negatedChain : ResolvedItem KeystubType :=
  .func .func (.cons .arg oneVal .nil) (.cons (.expr .expr .equal oneVal) .and
    (ResolvedItem.block true (.cons (.expr .expr .equal oneVal) .or
      (ResolvedItem.expr .expr .equal oneVal).single)).single)

/-- It is false, after two of its three expressions. -/
theorem interpExecute_negatedChain : ∃ s,
    interpExecute sampleCallbacks unitDoubles 8192 negatedChain.single () = .ok (verdict false, s) ∧
    s.trace = [(0, .destructor .func ()), (1, .exprHandler .expr () 1),
      (0, .exprHandler .expr () 1), (0, .argHandler .arg () 0),
      (0, .constructor .func (some ()))] := by
  have hmeaning : meaning sampleCallbacks unitDoubles 8192 negatedChain.single () =
      .ok (some false, ⟨(), [], 8192, 0, [(0, .destructor .func ()), (1, .exprHandler .expr () 1),
        (0, .exprHandler .expr () 1), (0, .argHandler .arg () 0),
        (0, .constructor .func (some ()))], 0⟩) := by
    decide +kernel
  have hjoined : negatedChain.single.Joined := ⟨trivial, .inl rfl, trivial, .inr rfl, trivial⟩
  exact ⟨_, (interpExecute_meaning _ _ _ _ _ hjoined).1 _ _ hmeaning, rfl⟩

end Lre
