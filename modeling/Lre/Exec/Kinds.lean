import Lre.Exec.Model

/-!
# Kinds of stubs

* `ResolvedItems.Kinds K`: every stub of a tree satisfies `K` at the type of its role.
* `ResolvedItems.Enclosed`: expressions stand inside functions only.
* `ResolvedItems.handles`: how many objects an execution may push.
* `Safe`: a computation casts no stub to a wrong type and, with room on the stack, never takes an
  object from an empty one.
* `interpExecute_ne_badStub`, `interpExecute_ne_emptyStack`: what kinds mean for an execution.
-/

namespace Lre

open Run

variable {κ σ η D α β : Type}

/-! ## Trees -/

section Trees

variable (K : KeystubType → κ → Prop)

mutual

def ResolvedVal.Kinds : ResolvedVal κ → Prop
  | .val _ => True
  | .var valstub => K .var valstub
  | .valblock childs => childs.Kinds
  | .call keystub args => K .call keystub ∧ args.Kinds

def ResolvedVals.Kinds : ResolvedVals κ → Prop
  | .nil => True
  | .cons node _ rest => node.Kinds ∧ rest.Kinds

def ResolvedArgs.Kinds : ResolvedArgs κ → Prop
  | .nil => True
  | .cons keystub valchilds rest => K .arg keystub ∧ valchilds.Kinds ∧ rest.Kinds

end

mutual

/-- Every stub of an item satisfies `K` at the type of its role. -/
def ResolvedItem.Kinds : ResolvedItem κ → Prop
  | .func keystub args body => K .func keystub ∧ args.Kinds K ∧ body.Kinds
  | .block _ childs => childs.Kinds
  | .expr keystub _ valchilds => K .expr keystub ∧ valchilds.Kinds K

/-- Every stub of a list of items satisfies `K` at the type of its role. -/
def ResolvedItems.Kinds : ResolvedItems κ → Prop
  | .nil => True
  | .cons node _ rest => node.Kinds ∧ rest.Kinds

end

end Trees

mutual

/-- An item without expressions outside of functions. -/
def ResolvedItem.Enclosed : ResolvedItem κ → Prop
  | .func .. => True
  | .block _ childs => childs.Enclosed
  | .expr .. => False

/-- A list of items without expressions outside of functions. -/
def ResolvedItems.Enclosed : ResolvedItems κ → Prop
  | .nil => True
  | .cons node _ rest => node.Enclosed ∧ rest.Enclosed

end

mutual

def ResolvedVal.handles : ResolvedVal κ → ℕ
  | .val _ | .var _ => 0
  | .valblock childs => childs.handles
  | .call _ args => args.handles + 1

def ResolvedVals.handles : ResolvedVals κ → ℕ
  | .nil => 0
  | .cons node _ rest => node.handles + rest.handles

def ResolvedArgs.handles : ResolvedArgs κ → ℕ
  | .nil => 0
  | .cons _ valchilds rest => valchilds.handles + rest.handles

end

mutual

/-- The number of functions and calls of an item. -/
def ResolvedItem.handles : ResolvedItem κ → ℕ
  | .func _ args body => args.handles + body.handles + 1
  | .block _ childs => childs.handles
  | .expr _ _ valchilds => valchilds.handles

/-- The number of functions and calls of a list of items. -/
def ResolvedItems.handles : ResolvedItems κ → ℕ
  | .nil => 0
  | .cons node _ rest => node.handles + rest.handles

end

/-! ## Safe computations -/

/-- The fault is no wrong cast and, if `P`, no empty stack. -/
def Allowed (P : Prop) (e : ExecFault) : Prop := e ≠ .badStub ∧ (P → e ≠ .emptyStack)

/-- `x` stops with allowed faults only. With `P`, on a stack of at least `l` objects with room for
`n` more, it leaves at most `n` more objects, and none less. -/
def Safe (P : Prop) (l n : ℕ) (x : Exec κ σ η α) : Prop :=
  ∀ s, (P → l ≤ s.stack.length ∧ s.stack.length + n + execStackGap ≤ s.stackdepth) →
    wp (Allowed P) x (fun _ s' => P → s.stack.length ≤ s'.stack.length ∧
      s'.stack.length ≤ s.stack.length + n ∧ s'.stackdepth = s.stackdepth) s

variable {P : Prop} {l m n : ℕ}

theorem Safe.bind {x : Exec κ σ η α} {f : α → Exec κ σ η β} (hx : Safe P l n x)
    (hf : ∀ a, Safe P l m (f a)) : Safe P l (n + m) (x >>= f) := by
  intro s hs
  rw [wp_bind]
  apply wp_mono (hx s fun hP => ⟨(hs hP).1, by have := hs hP; omega⟩)
  intro a s₁ h₁
  apply wp_mono (hf a s₁ fun hP => by have := hs hP; have := h₁ hP; omega)
  intro b s₂ h₂ hP
  have := h₁ hP
  have := h₂ hP
  omega

theorem Safe.mono {x : Exec κ σ η α} {l' n' : ℕ} (hx : Safe P l n x) (hl : l ≤ l') (hn : n ≤ n') :
    Safe P l' n' x := by
  intro s hs
  apply wp_mono (hx s fun hP => by have := hs hP; omega)
  intro a s' h hP
  have := h hP
  omega

theorem Safe.of_frame {x : Exec κ σ η α} (h : ∀ s, wp (Allowed True) x
    (fun _ s' => s'.stack = s.stack ∧ s'.stackdepth = s.stackdepth) s) : Safe P l n x := by
  intro s _
  have hs := wp_iff.mp (h s)
  refine wp_iff.mpr ⟨fun a s' hx _ => ?_, fun e hx => ?_⟩
  · obtain ⟨hst, hd⟩ := hs.1 a s' hx
    rw [hst, hd]
    exact ⟨Nat.le_refl _, Nat.le_add_right _ _, rfl⟩
  · exact ⟨(hs.2 e hx).1, fun _ => (hs.2 e hx).2 trivial⟩

theorem Safe.pure (a : α) : Safe P l n (pure a : Exec κ σ η α) := .of_frame fun _ => ⟨rfl, rfl⟩

theorem safe_emit (e : ExecEvent κ η) : Safe P l n (emit e : Exec κ σ η Unit) :=
  .of_frame fun _ => ⟨rfl, rfl⟩

theorem safe_callback (f : σ → α × σ) : Safe P l n (callback f : Exec κ σ η α) :=
  .of_frame fun _ => ⟨rfl, rfl⟩

theorem Safe.after {x : Exec κ σ η α} {f : α → Exec κ σ η β} (hx : Safe P l 0 x)
    (hf : ∀ a, Safe P l n (f a)) : Safe P l n (x >>= f) := by
  have := hx.bind hf
  rwa [Nat.zero_add] at this

theorem safe_setValues : ∀ (sets : List (SetValue D)) (val : LreValue D),
    Safe P l n (setValues sets val : Exec κ σ η (LreValue D))
  | [], _ => .pure _
  | .setInt _ :: sets, _ => safe_setValues sets _
  | .setDouble _ :: sets, _ => safe_setValues sets _
  | .setString _ :: sets, _ => safe_setValues sets _
  | .dup2String _ :: sets, _ =>
    Safe.after (.of_frame fun _ => ⟨rfl, rfl⟩) fun _ => safe_setValues sets _

theorem safe_lreValueRelease (val : LreValue D) :
    Safe P l n (lreValueRelease val : Exec κ σ η Unit) := by
  unfold lreValueRelease
  split
  · exact .pure _
  · exact safe_emit _

theorem safe_valdouble (c : Content D) : Safe P l n (valdouble c : Exec κ σ η D) := by
  unfold valdouble
  split
  · exact .pure _
  · exact .of_frame fun _ => ⟨nofun, nofun⟩

theorem safe_valStep (R : Doubles D) (opt : Sym) (arg tmparg : LreValue D) :
    Safe P l n (valStep R opt arg tmparg : Exec κ σ η (ValStep D)) := by
  unfold valStep
  split
  · exact .pure _
  · exact .pure _
  · exact .pure _
  · split
    · exact .of_frame fun _ => ⟨nofun, nofun⟩
    · exact .pure _
  · exact (safe_valdouble _).after fun _ => (safe_valdouble _).after fun _ => .pure _

theorem safe_castStub {C : Callbacks κ σ η D} {stub : κ} {type : KeystubType}
    (h : C.type stub = type) : Safe P l n (castStub C stub type) := by
  unfold castStub
  rw [if_pos h]
  exact .pure _

theorem safe_execCtxGetHandle {x : η → Exec κ σ η α} (hl : 1 ≤ l)
    (hx : ∀ handle, Safe P l n (x handle)) :
    Safe P l n (do let handle ← execCtxGetHandle; x handle) := by
  intro s hs
  rw [wp_bind, wp_execCtxGetHandle]
  cases hst : s.stack with
  | nil =>
    refine ⟨nofun, fun hP => ?_⟩
    have := (hs hP).1
    rw [hst, List.length_nil] at this
    omega
  | cons handle stack =>
    show wp (Allowed P) (x handle) _ s
    rw [← hst]
    exact hx handle s hs

/-- `x` takes one object from the stack, or leaves it there. -/
def Pops (P : Prop) (x : Exec κ σ η α) : Prop :=
  ∀ s, (P → 1 ≤ s.stack.length) → wp (Allowed P) x (fun _ s' => P →
    s.stack.length ≤ s'.stack.length + 1 ∧ s'.stack.length ≤ s.stack.length ∧
      s'.stackdepth = s.stackdepth) s

theorem pops_execCtxPopHandle : Pops P (execCtxPopHandle : Exec κ σ η Unit) := by
  intro s hs
  rw [wp_execCtxPopHandle]
  cases hst : s.stack with
  | nil => exact ⟨nofun, fun hP => absurd (hs hP) (by simp [hst])⟩
  | cons top stack => exact fun _ => ⟨Nat.le_refl _, Nat.le_succ _, rfl⟩

theorem pops_executeOut (C : Callbacks κ σ η D) (stub : κ) (handle : η) :
    Pops P (executeOut C stub handle) := by
  intro s hs
  unfold executeOut
  cases C.destructor stub with
  | none => exact pops_execCtxPopHandle s hs
  | some f =>
    simp only [wp_bind, wp_callback, wp_emit]
    exact pops_execCtxPopHandle { s with env := _, trace := _ } hs

theorem pops_emit_abandon : Pops P (emit .abandon : Exec κ σ η Unit) :=
  fun _ _ _ => ⟨Nat.le_succ _, Nat.le_refl _, rfl⟩

theorem Pops.bind_pure {x : Exec κ σ η α} {b : β} (h : Pops P x) :
    Pops P (do let _ ← x; return b) := by
  intro s hs
  rw [wp_bind]
  exact wp_mono (h s hs) fun _ _ h => h

theorem safe_object {handle : η} {inner : Exec κ σ η α} {close : α → Exec κ σ η β}
    (hinner : Safe P 1 n inner) (hclose : ∀ a, Pops P (close a)) :
    Safe P 0 (n + 1) (do
      execCtxPushHandle handle
      let a ← inner
      close a) := by
  intro s hs
  have hgo : ∀ s₁ : ExecState κ σ η, (P → s₁.stack.length = s.stack.length + 1 ∧
      s₁.stackdepth = s.stackdepth) → wp (Allowed P) (do let a ← inner; close a)
      (fun _ s' => P → s.stack.length ≤ s'.stack.length ∧
        s'.stack.length ≤ s.stack.length + (n + 1) ∧ s'.stackdepth = s.stackdepth) s₁ := by
    intro s₁ h₁
    rw [wp_bind]
    apply wp_mono (hinner s₁ fun hP => by have := hs hP; have := h₁ hP; omega)
    intro a s₂ h₂
    apply wp_mono (hclose a s₂ fun hP => by have := h₁ hP; have := h₂ hP; omega)
    intro b s₃ h₃ hP
    have := h₁ hP
    have := h₂ hP
    have := h₃ hP
    omega
  rw [wp_bind, wp_execCtxPushHandle]
  split
  · -- a refused push: not with room on the stack
    exact hgo _ fun hP => by have := hs hP; omega
  · exact hgo _ fun _ => ⟨rfl, rfl⟩

/-! ## The evaluators -/

variable {C : Callbacks κ σ η D} {R : Doubles D} {K : KeystubType → κ → Prop}

theorem safe_valNext {opt : Sym} {arg tmparg : LreValue D} {ret : ℤ}
    {more : LreValue D → Exec κ σ η (ℤ × LreValue D)} (hmore : ∀ arg, Safe P l n (more arg)) :
    Safe P l n (valNext R opt arg ret tmparg more) := by
  unfold valNext
  split
  · exact (safe_emit _).after fun _ => .pure _
  · apply (safe_valStep _ _ _ _).after
    intro step
    cases step with
    | error => exact (safe_emit _).after fun _ => .pure _
    | done arg => exact .pure _
    | next arg => exact hmore arg

theorem safe_executeVar {handle : η} {valstub : κ} (h : C.type valstub = .var) :
    Safe P l n (executeVar C handle valstub) :=
  (safe_castStub h).after fun _ => (safe_callback _).after fun _ => (safe_emit _).after fun _ =>
    (safe_setValues _ _).after fun _ => .pure _

theorem safe_executeArg {handle : η} {astub : κ} {val : Exec κ σ η (ℤ × LreValue D)}
    (h : C.type astub = .arg) (hval : Safe P l n val) :
    Safe P l n (executeArg C handle astub val) := by
  apply hval.bind (m := 0)
  intro ⟨ret, arg⟩
  dsimp only
  split
  · exact .pure _
  · refine (safe_castStub h).after fun _ => (safe_callback _).after fun ret' =>
      (safe_emit _).after fun _ => ?_
    split
    · exact .pure _
    · exact (safe_lreValueRelease _).after fun _ => .pure _

theorem safe_executeCallExec (cstub : κ) (handle : η) :
    Safe P l n (executeCallExec C cstub handle) := by
  unfold executeCallExec
  split
  · exact (safe_emit _).after fun _ => .pure _
  · exact (safe_callback _).after fun _ => (safe_emit _).after fun _ =>
      (safe_setValues _ _).after fun _ => .pure _

theorem safe_executeCallInner {cstub : κ} {handle : η} {args : Exec κ σ η (ℤ × ℤ)}
    (hargs : Safe P l n args) : Safe P l n (executeCallInner C cstub handle args) := by
  apply hargs.bind (m := 0)
  rintro ⟨valret, argret⟩
  dsimp only
  split
  · exact .pure _
  split
  · exact .pure _
  · exact (safe_executeCallExec _ _).after fun _ => .pure _

theorem safe_executeFuncInner {fstub : κ} {handle : η} {args : Exec κ σ η (ℤ × ℤ)}
    {body : Exec κ σ η ℤ} (hargs : Safe P l m args) (hbody : Safe P l n body) :
    Safe P l (m + n) (executeFuncInner C fstub handle args body) := by
  apply hargs.bind
  rintro ⟨valret, argret⟩
  dsimp only
  split
  · exact .pure _
  split
  · exact hbody
  · refine (safe_callback _).after fun ret => (safe_emit _).after fun _ => ?_
    split
    · exact .pure _
    · exact hbody

theorem safe_executeCall {cstub : κ} {args : η → Exec κ σ η (ℤ × ℤ)} (h : C.type cstub = .call)
    (hargs : ∀ handle, Safe P 1 n (args handle)) : Safe P 0 (n + 1) (executeCall C cstub args) := by
  refine (safe_castStub h).after fun _ => (safe_callback _).after fun handle =>
    (safe_emit _).after fun _ => ?_
  cases handle with
  | none => exact .pure _
  | some handle =>
    refine safe_object (safe_executeCallInner (hargs handle)) fun ⟨returned, r⟩ => ?_
    cases returned with
    | true => exact pops_emit_abandon.bind_pure
    | false => exact (pops_executeOut C cstub handle).bind_pure

theorem safe_executeFunc {fstub : κ} {args : η → Exec κ σ η (ℤ × ℤ)} {body : Exec κ σ η ℤ}
    (h : C.type fstub = .func) (hargs : ∀ handle, Safe P 1 m (args handle))
    (hbody : Safe P 1 n body) : Safe P 0 (m + n + 1) (executeFunc C fstub args body) := by
  refine (safe_castStub h).after fun _ => (safe_callback _).after fun handle =>
    (safe_emit _).after fun _ => ?_
  cases handle with
  | none => exact .pure _
  | some handle =>
    exact safe_object (safe_executeFuncInner (hargs handle) hbody) fun _ =>
      (pops_executeOut C fstub handle).bind_pure

section Trees

set_option linter.unusedSectionVars false

variable (hK : ∀ type stub, K type stub → C.type stub = type)

include hK

mutual

theorem executeOperand_safe : ∀ (v : ResolvedVal κ), v.Kinds K → ∀ handle : η,
    Safe P 1 v.handles (executeOperand C R handle v)
  | .val _, _, _ => .pure _
  | .var _, h, _ => safe_executeVar (hK _ _ h)
  | .valblock childs, h, _ =>
    safe_execCtxGetHandle (Nat.le_refl 1) fun handle => executeValLoop_safe childs h handle _ _
  | .call _ args, h, _ =>
    (safe_executeCall (hK _ _ h.1) fun handle => executeArgs_safe args h.2 handle).mono
      (Nat.zero_le _) (Nat.le_refl _)

theorem executeValLoop_safe : ∀ (vs : ResolvedVals κ), vs.Kinds K → ∀ (handle : η) (opt : Sym)
    (arg : LreValue D), Safe P 1 vs.handles (executeValLoop C R handle vs opt arg)
  | .nil, _, _, _, _ => .pure _
  | .cons node _ rest, h, handle, _, _ =>
    (executeOperand_safe node h.1 handle).bind fun _ =>
      safe_valNext fun arg => executeValLoop_safe rest h.2 handle _ arg

theorem executeArgs_safe : ∀ (args : ResolvedArgs κ), args.Kinds K → ∀ handle : η,
    Safe P 1 args.handles (executeArgs C R handle args)
  | .nil, _, _ => .pure _
  | .cons _ valchilds rest, h, handle => by
    refine Safe.bind (safe_executeArg (hK _ _ h.1) (safe_execCtxGetHandle (Nat.le_refl 1)
      fun handle => executeValLoop_safe valchilds h.2.1 handle _ _)) fun ⟨valret, argret⟩ => ?_
    dsimp only
    split
    · exact .pure _
    · exact executeArgs_safe rest h.2.2 handle

end

theorem safe_executeSyntaxExpr {estub : κ} {opt : Sym} {valchilds : ResolvedVals κ}
    (he : K .expr estub) (h : valchilds.Kinds K) (hl : 1 ≤ l) :
    Safe P l valchilds.handles (executeSyntaxExpr C R estub opt valchilds) := by
  refine safe_execCtxGetHandle hl fun handle => Safe.bind (m := 0) (safe_execCtxGetHandle hl
    fun handle => (executeValLoop_safe hK valchilds h handle _ _).mono hl (Nat.le_refl _))
    fun ⟨ret, arg⟩ => ?_
  dsimp only
  split
  · exact .pure _
  · refine (safe_castStub (hK _ _ he)).after fun _ => (safe_callback _).after fun ret' =>
      (safe_emit _).after fun _ => ?_
    split
    · exact .pure _
    · exact (safe_lreValueRelease _).after fun _ => .pure _

omit hK in
theorem safe_childsNext {opt next : Sym} {res ret : ℤ} {more : ℤ → Exec κ σ η ℤ}
    (hmore : ∀ res, Safe P l n (more res)) : Safe P l n (childsNext opt next res ret more) := by
  unfold childsNext
  split
  · exact .pure _
  split
  · exact (safe_emit _).after fun _ => .pure _
  split
  · exact .pure _
  · exact hmore _

omit hK in
theorem safe_executeBlock {negative : Bool} {childs : Exec κ σ η ℤ} (h : Safe P l n childs) :
    Safe P l n (executeBlock negative childs) := by
  unfold executeBlock
  split
  · refine Safe.bind (m := 0) (fun s hs => ?_) fun _ => .pure _
    rw [wp_negated]
    exact h { s with negdepth := s.negdepth + 1 } hs
  · exact h

mutual

/-- Without objects on the stack the item has to be enclosed. -/
theorem executeItem_safe : ∀ (node : ResolvedItem κ), node.Kinds K → ∀ l,
    (l = 0 → node.Enclosed) → Safe P l node.handles (executeItem C R node)
  | .func _ args body, h, l, _ =>
    (safe_executeFunc (hK _ _ h.1) (fun handle => executeArgs_safe hK args h.2.1 handle)
      (executeChildsLoop_safe body h.2.2 1 nofun _ _)).mono (Nat.zero_le l) (Nat.le_refl _)
  | .block _ childs, h, l, hl => safe_executeBlock (executeChildsLoop_safe childs h l hl _ _)
  | .expr _ _ _, h, _, hl =>
    safe_executeSyntaxExpr hK h.1 h.2 (Nat.one_le_iff_ne_zero.mpr hl)

theorem executeChildsLoop_safe : ∀ (items : ResolvedItems κ), items.Kinds K → ∀ l,
    (l = 0 → items.Enclosed) → ∀ (opt : Sym) (res : ℤ),
      Safe P l items.handles (executeChildsLoop C R items opt res)
  | .nil, _, _, _, _, res => by
    unfold executeChildsLoop
    split
    · exact (safe_emit _).after fun _ => .pure _
    · exact .pure _
  | .cons node _ rest, h, l, hl, _, _ =>
    (executeItem_safe node h.1 l fun h0 => (hl h0).1).bind fun _ =>
      safe_childsNext fun res => executeChildsLoop_safe rest h.2 l (fun h0 => (hl h0).2) _ res

end

variable {tree : ResolvedItems κ}

/-- **No execution of a tree with kinds casts a stub to a wrong type.** -/
theorem interpExecute_ne_badStub (h : tree.Kinds K) (stacksize : ℕ) (env : σ) :
    interpExecute C R stacksize tree env ≠ .error .badStub := fun he =>
  ((wp_iff.mp (executeChildsLoop_safe (P := False) hK tree h 1 nofun _ _ _ nofun)).2 _ he).1 rfl

/-- **With room for its objects, no execution of an enclosed tree takes an object from an empty
stack.** -/
theorem interpExecute_ne_emptyStack (h : tree.Kinds K) (henc : tree.Enclosed) {stacksize : ℕ}
    (hroom : tree.handles + execStackGap ≤ stacksize) (env : σ) :
    interpExecute C R stacksize tree env ≠ .error .emptyStack := fun he => by
  have hs := executeChildsLoop_safe (P := True) (R := R) hK tree h 0 (fun _ => henc) .reserved
    valUninitialized ⟨env, [], stacksize, 0, [], 0⟩ fun _ => by simpa using hroom
  exact ((wp_iff.mp hs).2 _ he).2 trivial rfl

end Trees

end Lre
