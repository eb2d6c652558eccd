import Mathlib.Logic.Relation
import Lre.Exec.Model

/-!
# Activations

What an execution comes to on its way. An activation is a piece of the executor with its arguments,
the state it starts in and the number of functions and calls around it.

* `Enters`: what an activation starts directly; `ComesTo`: what it comes to.
* `construct`: functions and calls up to the push of their object.
* `Activation.Pushes`: the activation has constructed an object and comes to push it.
-/

namespace Lre

open Run

/-- A piece of the executor. -/
inductive Place (κ η D : Type)
  | item (node : ResolvedItem κ)
  | childsLoop (items : ResolvedItems κ) (opt : Sym) (res : ℤ)
  | args (handle : η) (args : ResolvedArgs κ)
  | valLoop (handle : η) (vs : ResolvedVals κ) (opt : Sym) (arg : LreValue D)
  | operand (handle : η) (node : ResolvedVal κ)
  /-- the operand `tmparg` meets the value `arg` of the operands before it -/
  | meet (opt : Sym) (arg tmparg : LreValue D)

/-- A piece of the executor in a state, inside `depth` functions and calls. -/
structure Activation (κ σ η D : Type) where
  depth : ℕ
  place : Place κ η D
  state : ExecState κ σ η

variable {κ σ η D : Type}

/-- `execute_syntax_func` and `execute_syntax_call` up to the push. -/
def construct (C : Callbacks κ σ η D) (type : KeystubType) (stub : κ) :
    Exec κ σ η (Option η) := do
  castStub C stub type
  let handle ← callback (C.constructor stub)
  emit (.constructor stub handle)
  return handle

/-- The exec callback of a function, when it has one. -/
def executeFuncExec (C : Callbacks κ σ η D) (fstub : κ) (handle : η) : Exec κ σ η ℤ :=
  match C.funcExec fstub with
  | none => return 0
  | some f => do
    let ret ← callback (f handle)
    emit (.funcExec fstub handle ret)
    return ret

theorem construct_bind {α : Type} (C : Callbacks κ σ η D) (type : KeystubType) (stub : κ)
    (k : Option η → Exec κ σ η α) : construct C type stub >>= k = (do
      castStub C stub type
      let handle ← callback (C.constructor stub)
      emit (.constructor stub handle)
      k handle) := by
  simp only [construct, bind_assoc, pure_bind]

theorem executeFunc_eq (C : Callbacks κ σ η D) (fstub : κ) (args : η → Exec κ σ η (ℤ × ℤ))
    (body : Exec κ σ η ℤ) : executeFunc C fstub args body = (do
      match ← construct C .func fstub with
      | none => return retDead
      | some handle =>
        execCtxPushHandle handle
        let ret ← executeFuncInner C fstub handle (args handle) body
        executeOut C fstub handle
        return ret) := (construct_bind ..).symm

theorem executeCall_eq (C : Callbacks κ σ η D) (cstub : κ) (args : η → Exec κ σ η (ℤ × ℤ)) :
    executeCall C cstub args = (do
      match ← construct C .call cstub with
      | none => return (einval, .init)
      | some handle =>
        execCtxPushHandle handle
        let (returned, r) ← executeCallInner C cstub handle (args handle)
        if returned then emit .abandon else executeOut C cstub handle
        return r) := (construct_bind ..).symm

theorem executeFuncInner_eq (C : Callbacks κ σ η D) (fstub : κ) (handle : η)
    (args : Exec κ σ η (ℤ × ℤ)) (body : Exec κ σ η ℤ) :
    executeFuncInner C fstub handle args body = (do
      let (valret, argret) ← args
      if valret ≠ 0 ∨ argret ≠ lreRetOk then return retDead
      else
        let ret ← executeFuncExec C fstub handle
        if ret ≠ 0 then return retDead else body) := by
  rw [executeFuncInner, executeFuncExec]
  cases C.funcExec fstub with
  | none => simp only [pure_bind, ne_eq, not_true_eq_false, if_false]
  | some f => simp only [bind_assoc, pure_bind]

theorem castStub_ok {C : Callbacks κ σ η D} {stub : κ} {type : KeystubType} {u : Unit}
    {s s' : ExecState κ σ η} (h : castStub C stub type s = .ok (u, s')) : s' = s := by
  unfold castStub at h
  split at h
  · cases h
    rfl
  · cases h

theorem execCtxGetHandle_ok {top : η} {s s' : ExecState κ σ η}
    (h : execCtxGetHandle s = .ok (top, s')) : s' = s := by
  unfold execCtxGetHandle at h
  split at h
  · cases h
  · cases h
    rfl

/-- What an activation starts directly. -/
inductive Enters (C : Callbacks κ σ η D) (R : Doubles D) :
    Activation κ σ η D → Activation κ σ η D → Prop
  | childsNode {d node next rest opt res s} :
    Enters C R ⟨d, .childsLoop (.cons node next rest) opt res, s⟩ ⟨d, .item node, s⟩
  | childsRest {d node next rest opt res ret res' s s'}
    (hnode : executeItem C R node s = .ok (ret, s')) (hvalid : vaildLreResults ret = true)
    (hres : childsRes opt res ret = some res') (hstop : childsStop next res' = false) :
    Enters C R ⟨d, .childsLoop (.cons node next rest) opt res, s⟩
      ⟨d, .childsLoop rest next res', s'⟩
  | block {d negative childs s} :
    Enters C R ⟨d, .item (.block negative childs), s⟩ ⟨d, .childsLoop childs .reserved
      valUninitialized, if negative then { s with negdepth := s.negdepth + 1 } else s⟩
  | expr {d keystub opt vs handle s} (hget : execCtxGetHandle s = .ok (handle, s)) :
    Enters C R ⟨d, .item (.expr keystub opt vs), s⟩ ⟨d, .valLoop handle vs .reserved .init, s⟩
  | funcArgs {d keystub args body handle s s₁ s₂}
    (hcons : construct C .func keystub s = .ok (some handle, s₁))
    (hpush : execCtxPushHandle handle s₁ = .ok ((), s₂)) :
    Enters C R ⟨d, .item (.func keystub args body), s⟩ ⟨d + 1, .args handle args, s₂⟩
  | funcBody {d keystub args body handle s s₁ s₂ s₃ s₄}
    (hcons : construct C .func keystub s = .ok (some handle, s₁))
    (hpush : execCtxPushHandle handle s₁ = .ok ((), s₂))
    (hargs : executeArgs C R handle args s₂ = .ok ((0, lreRetOk), s₃))
    (hexec : executeFuncExec C keystub handle s₃ = .ok (0, s₄)) :
    Enters C R ⟨d, .item (.func keystub args body), s⟩
      ⟨d + 1, .childsLoop body .reserved valUninitialized, s₄⟩
  | callArgs {d top keystub args handle s s₁ s₂}
    (hcons : construct C .call keystub s = .ok (some handle, s₁))
    (hpush : execCtxPushHandle handle s₁ = .ok ((), s₂)) :
    Enters C R ⟨d, .operand top (.call keystub args), s⟩ ⟨d + 1, .args handle args, s₂⟩
  | valblock {d top childs handle s} (hget : execCtxGetHandle s = .ok (handle, s)) :
    Enters C R ⟨d, .operand top (.valblock childs), s⟩
      ⟨d, .valLoop handle childs .reserved .init, s⟩
  | argsVal {d handle keystub vs rest top s} (hget : execCtxGetHandle s = .ok (top, s)) :
    Enters C R ⟨d, .args handle (.cons keystub vs rest), s⟩ ⟨d, .valLoop top vs .reserved .init, s⟩
  | argsRest {d handle keystub vs rest s s'}
    (harg : executeArg C handle keystub (executeSyntaxVal C R vs) s = .ok ((0, lreRetOk), s')) :
    Enters C R ⟨d, .args handle (.cons keystub vs rest), s⟩ ⟨d, .args handle rest, s'⟩
  | valOperand {d handle node next rest opt arg s} :
    Enters C R ⟨d, .valLoop handle (.cons node next rest) opt arg, s⟩ ⟨d, .operand handle node, s⟩
  | valMeet {d handle node next rest opt arg tmparg s s'}
    (hnode : executeOperand C R handle node s = .ok ((0, tmparg), s')) :
    Enters C R ⟨d, .valLoop handle (.cons node next rest) opt arg, s⟩ ⟨d, .meet opt arg tmparg, s'⟩
  | valRest {d handle node next rest opt arg tmparg arg' s s' s''}
    (hnode : executeOperand C R handle node s = .ok ((0, tmparg), s'))
    (hmeet : valStep R opt arg tmparg s' = .ok (.next arg', s'')) :
    Enters C R ⟨d, .valLoop handle (.cons node next rest) opt arg, s⟩
      ⟨d, .valLoop handle rest next arg', s''⟩

/-- What an activation comes to. -/
abbrev ComesTo (C : Callbacks κ σ η D) (R : Doubles D) :
    Activation κ σ η D → Activation κ σ η D → Prop := Relation.ReflTransGen (Enters C R)

/-- `interp_execute` on a resolved content. -/
def Activation.start (stacksize : ℕ) (tree : ResolvedItems κ) (env : σ) : Activation κ σ η D :=
  ⟨0, .childsLoop tree .reserved valUninitialized, ⟨env, [], stacksize, 0, [], 0⟩⟩

/-- The type and the stub of the function or call that a piece of the executor executes. -/
def Place.object? : Place κ η D → Option (KeystubType × κ)
  | .item (.func keystub _ _) => some (.func, keystub)
  | .operand _ (.call keystub _) => some (.call, keystub)
  | _ => none

/-- The activation has constructed `handle` and comes to push it in the state `s`. -/
def Activation.Pushes (C : Callbacks κ σ η D) (a : Activation κ σ η D) (handle : η)
    (s : ExecState κ σ η) : Prop :=
  ∃ type stub, a.place.object? = some (type, stub) ∧
    construct C type stub a.state = .ok (some handle, s)

end Lre
