import Mathlib.Data.Int.Notation
import Lre.Run
import Lre.Exec.Tree
import Lre.Exec.Value

/-!
# The executor

`execute.c` over any components. `Callbacks` are the registered functions; they share a state `σ`
of their own, in which objects, files and output live. `ExecState` is the part of
`struct interp_context` the executor works on.

* `ExecFault`: what stops an execution without a return code.
* `ExecEvent`: the calls of callbacks with their outcome, in the order they are made. The trace
  stores with each event the number of negated blocks around it; no branch reads it.
* `executeSyntaxChilds`, `executeSyntaxFunc`, ...: the six evaluators; `interpExecute`.
-/

namespace Lre

/-- Why an execution stops without a return code. -/
inductive ExecFault
  /-- a stub is cast to a type it was not registered with -/
  | badStub
  /-- the top of an empty handle stack -/
  | emptyStack
  /-- `valdouble` of a value whose `valint` was written -/
  | badMember
  /-- the division instruction traps -/
  | division
  deriving DecidableEq, Repr

/-- The registered functions. A value handed to a callback as an out parameter comes back as the
stores the callback makes. -/
structure Callbacks (κ σ η D : Type) where
  type : κ → KeystubType
  constructor : κ → σ → Option η × σ
  destructor : κ → Option (η → σ → σ)
  funcExec : κ → Option (η → σ → ℤ × σ)
  callExec : κ → Option (η → σ → (ℤ × List (SetValue D)) × σ)
  argHandler : κ → η → Content D → σ → ℤ × σ
  exprHandler : κ → η → Sym → Content D → σ → ℤ × σ
  varHandler : κ → η → σ → (ℤ × List (SetValue D)) × σ

/-- What happens during an execution. -/
inductive ExecEvent (κ η : Type)
  | constructor (stub : κ) (handle : Option η)
  | argHandler (stub : κ) (handle : η) (ret : ℤ)
  | funcExec (stub : κ) (handle : η) (ret : ℤ)
  | callExec (stub : κ) (handle : η) (ret : ℤ)
  | exprHandler (stub : κ) (handle : η) (ret : ℤ)
  | varHandler (stub : κ) (handle : η) (ret : ℤ)
  | destructor (stub : κ) (handle : η)
  /-- `exec_ctx_push_handle` refuses -/
  | pushRefused
  /-- `execute_syntax_val` returns `-EINVAL` -/
  | valError
  /-- a missing operator or an empty list -/
  | listError
  /-- a call without an exec callback -/
  | noExec
  /-- `execute_syntax_call` returns between push and pop -/
  | abandon
  /-- `lre_value_dup2_string` allocates, `lre_value_release` frees -/
  | strdup (ptr : ℕ)
  | release (ptr : ℕ)
  deriving DecidableEq

/-- `EXEC_STACK_GAP`. -/
def execStackGap : ℕ := 64

/-- The executor's part of `struct interp_context`; the top of the stack is its head. -/
structure ExecState (κ σ η : Type) where
  env : σ
  stack : List η
  stackdepth : ℕ
  heap : ℕ
  trace : List (ℕ × ExecEvent κ η)
  negdepth : ℕ
  deriving DecidableEq

abbrev Exec (κ σ η α : Type) := Run ExecFault (ExecState κ σ η) α

variable {κ σ η D : Type}

/-- `LRE_RET_OK`. -/
def lreRetOk : ℤ := 0

/-- `RET_DEAD_VAL` as a return code. -/
def retDead : ℤ := retDeadVal.toInt

/-- `VAL_UNINITIALIZED`. -/
def valUninitialized : ℤ := 0xff

/-- `vaild_lre_results`. -/
def vaildLreResults (res : ℤ) : Bool := res = 1 ∨ res = 0

/-! ## Trace, callbacks and stack -/

/-- Append to the trace. -/
def emit (e : ExecEvent κ η) : Exec κ σ η Unit := fun s =>
  .ok ((), { s with trace := (s.negdepth, e) :: s.trace })

/-- Call a callback. -/
def callback {α : Type} (f : σ → α × σ) : Exec κ σ η α := fun s =>
  .ok ((f s.env).1, { s with env := (f s.env).2 })

/-- The cast of `stub->data`. -/
def castStub (C : Callbacks κ σ η D) (stub : κ) (type : KeystubType) : Exec κ σ η Unit :=
  if C.type stub = type then return () else throw .badStub

/-- `exec_ctx_push_handle`; the callers drop its return code. -/
def execCtxPushHandle (handle : η) : Exec κ σ η Unit := fun s =>
  if s.stack.length + execStackGap ≥ s.stackdepth then emit .pushRefused s
  else .ok ((), { s with stack := handle :: s.stack })

/-- `exec_ctx_pop_handle`; the callers drop the handle. -/
def execCtxPopHandle : Exec κ σ η Unit := fun s =>
  match s.stack with
  | [] => .error .emptyStack
  | _ :: stack => .ok ((), { s with stack := stack })

/-- `exec_ctx_get_handle`. -/
def execCtxGetHandle : Exec κ σ η η := fun s =>
  match s.stack with
  | [] => .error .emptyStack
  | handle :: _ => .ok (handle, s)

/-- `strdup`, with the number of the heap string it makes. -/
def strdup : Exec κ σ η ℕ := fun s =>
  .ok (s.heap, { s with heap := s.heap + 1, trace := (s.negdepth, .strdup s.heap) :: s.trace })

/-- The stores of a callback, in order. -/
def setValues : List (SetValue D) → LreValue D → Exec κ σ η (LreValue D)
  | [], val => return val
  | .setInt ival :: sets, val => setValues sets { val with content := .int ival }
  | .setDouble dval :: sets, val => setValues sets { val with content := .double dval }
  | .setString str :: sets, val => setValues sets { val with content := .string str }
  | .dup2String str :: sets, _ => do
    let ptr ← strdup
    setValues sets ⟨.string str, some ptr⟩

/-- `lre_value_release`. -/
def lreValueRelease (val : LreValue D) : Exec κ σ η Unit :=
  match val.ptr with
  | none => return ()
  | some ptr => emit (.release ptr)

/-! ## Values -/

/-- `arg->valdouble`. -/
def valdouble : Content D → Exec κ σ η D
  | .double d => return d
  | _ => throw .badMember

/-- How `execute_syntax_val` goes on after an operand. -/
inductive ValStep (D : Type)
  | error
  | done (arg : LreValue D)
  | next (arg : LreValue D)

/-- The body of the loop of `execute_syntax_val` after its switch: the operand `tmparg` meets
the value `arg` of the operands before it. -/
def valStep (R : Doubles D) (opt : Sym) (arg tmparg : LreValue D) : Exec κ σ η (ValStep D) :=
  match tmparg.content, arg.content with
  | .unknown, _ => return .error
  | .string _, _ => return .done tmparg
  | _, .unknown => return .next tmparg
  | .int b, .int a =>
    match lreCalcInt a b opt with
    | none => throw .division
    | some r => return if r = retDeadVal then .error else .next { arg with content := .int r }
  | b, a => do
    let r := lreCalcDobule R (← valdouble a) (← valdouble b) opt
    -- the source tests `valint`, a member the calculation did not write
    return if R.valint r = retDeadVal then .error else .next { arg with content := .double r }

/-- The end of an operand: leave the loop or go on with the next node. -/
def valNext (R : Doubles D) (opt : Sym) (arg : LreValue D) (ret : ℤ) (tmparg : LreValue D)
    (more : LreValue D → Exec κ σ η (ℤ × LreValue D)) : Exec κ σ η (ℤ × LreValue D) := do
  if ret ≠ 0 then emit .valError; return (einval, arg)
  else
    match ← valStep R opt arg tmparg with
    | .error => emit .valError; return (einval, arg)
    | .done arg => return (0, arg)
    | .next arg => more arg

/-- A `$` variable. The source drops the return code of the handler and tests `ret`, which is
zero here. -/
def executeVar (C : Callbacks κ σ η D) (handle : η) (valstub : κ) :
    Exec κ σ η (ℤ × LreValue D) := do
  castStub C valstub .var
  let (ret, sets) ← callback (C.varHandler valstub handle)
  emit (.varHandler valstub handle ret)
  let tmparg ← setValues sets .init
  return (0, tmparg)

/-- An argument: evaluate it and hand it to its handler. The first component is the return code
of `execute_syntax_val`, the second that of the handler. -/
def executeArg (C : Callbacks κ σ η D) (handle : η) (astub : κ)
    (val : Exec κ σ η (ℤ × LreValue D)) : Exec κ σ η (ℤ × ℤ) := do
  let (ret, arg) ← val
  if ret ≠ 0 then return (ret, lreRetOk)
  else
    castStub C astub .arg
    let ret ← callback (C.argHandler astub handle arg.content)
    emit (.argHandler astub handle ret)
    if ret ≠ lreRetOk then return (0, ret)
    else
      lreValueRelease arg
      return (0, lreRetOk)

/-- The label `out` of `execute_syntax_func` and `execute_syntax_call`. -/
def executeOut (C : Callbacks κ σ η D) (stub : κ) (handle : η) : Exec κ σ η Unit := do
  match C.destructor stub with
  | none => execCtxPopHandle
  | some f =>
    callback fun env => ((), f handle env)
    emit (.destructor stub handle)
    execCtxPopHandle

/-- The exec callback of a call. -/
def executeCallExec (C : Callbacks κ σ η D) (cstub : κ) (handle : η) :
    Exec κ σ η (ℤ × LreValue D) := do
  match C.callExec cstub with
  | none => emit .noExec; return (einval, .init)
  | some f =>
    let (ret, sets) ← callback (f handle)
    emit (.callExec cstub handle ret)
    let arg ← setValues sets .init
    return (if ret ≠ 0 then einval else 0, arg)

/-- `execute_syntax_call` while its object is on the stack. The first component says that it
returns without passing the label `out`. -/
def executeCallInner (C : Callbacks κ σ η D) (cstub : κ) (handle : η)
    (args : Exec κ σ η (ℤ × ℤ)) : Exec κ σ η (Bool × ℤ × LreValue D) := do
  let (valret, argret) ← args
  if valret ≠ 0 then return (true, valret, .init)
  else if argret ≠ lreRetOk then return (false, einval, .init)
  else
    let r ← executeCallExec C cstub handle
    return (false, r)

/-- `execute_syntax_call`, given its arguments. -/
def executeCall (C : Callbacks κ σ η D) (cstub : κ) (args : η → Exec κ σ η (ℤ × ℤ)) :
    Exec κ σ η (ℤ × LreValue D) := do
  castStub C cstub .call
  let handle ← callback (C.constructor cstub)
  emit (.constructor cstub handle)
  match handle with
  | none => return (einval, .init)
  | some handle =>
    execCtxPushHandle handle
    let (returned, r) ← executeCallInner C cstub handle (args handle)
    if returned then emit .abandon else executeOut C cstub handle
    return r

mutual

/-- One operand of `execute_syntax_val`: the return code and the value of its switch. -/
def executeOperand (C : Callbacks κ σ η D) (R : Doubles D) (handle : η) :
    ResolvedVal κ → Exec κ σ η (ℤ × LreValue D)
  | .val x => return (0, ⟨val2lreValue R x.cstr, none⟩)
  | .var valstub => executeVar C handle valstub
  | .valblock childs => do
    let handle ← execCtxGetHandle
    executeValLoop C R handle childs .reserved .init
  | .call keystub args => executeCall C keystub fun handle => executeArgs C R handle args

/-- The loop of `execute_syntax_val`, with the operator before the current node and the value
of the nodes before it. -/
def executeValLoop (C : Callbacks κ σ η D) (R : Doubles D) (handle : η) :
    ResolvedVals κ → Sym → LreValue D → Exec κ σ η (ℤ × LreValue D)
  | .nil, _, arg => return (0, arg)
  | .cons node next rest, opt, arg => do
    let (ret, tmparg) ← executeOperand C R handle node
    valNext R opt arg ret tmparg (executeValLoop C R handle rest next)

/-- The loop over the arguments of a function or a call. -/
def executeArgs (C : Callbacks κ σ η D) (R : Doubles D) (handle : η) :
    ResolvedArgs κ → Exec κ σ η (ℤ × ℤ)
  | .nil => return (0, lreRetOk)
  | .cons keystub valchilds rest => do
    let (valret, argret) ← executeArg C handle keystub (do
      let handle ← execCtxGetHandle
      executeValLoop C R handle valchilds .reserved .init)
    if valret ≠ 0 ∨ argret ≠ lreRetOk then return (valret, argret)
    else executeArgs C R handle rest

end

/-- `execute_syntax_val` on a value that `lre_value_init` has set. -/
def executeSyntaxVal (C : Callbacks κ σ η D) (R : Doubles D) (root : ResolvedVals κ) :
    Exec κ σ η (ℤ × LreValue D) := do
  let handle ← execCtxGetHandle
  executeValLoop C R handle root .reserved .init

/-- `execute_syntax_call`. -/
def executeSyntaxCall (C : Callbacks κ σ η D) (R : Doubles D) (keystub : κ)
    (args : ResolvedArgs κ) : Exec κ σ η (ℤ × LreValue D) :=
  executeCall C keystub fun handle => executeArgs C R handle args

/-! ## Items -/

/-- `execute_syntax_expr`. -/
def executeSyntaxExpr (C : Callbacks κ σ η D) (R : Doubles D) (estub : κ) (opt : Sym)
    (valchilds : ResolvedVals κ) : Exec κ σ η ℤ := do
  let handle ← execCtxGetHandle
  let (ret, arg) ← executeSyntaxVal C R valchilds
  if ret ≠ 0 then return retDead
  else
    castStub C estub .expr
    let ret ← callback (C.exprHandler estub handle opt arg.content)
    emit (.exprHandler estub handle ret)
    if !vaildLreResults ret then return retDead
    else
      lreValueRelease arg
      return ret

/-- `execute_syntax_func` while its object is on the stack, up to the label `out`. -/
def executeFuncInner (C : Callbacks κ σ η D) (fstub : κ) (handle : η)
    (args : Exec κ σ η (ℤ × ℤ)) (body : Exec κ σ η ℤ) : Exec κ σ η ℤ := do
  let (valret, argret) ← args
  if valret ≠ 0 ∨ argret ≠ lreRetOk then return retDead
  else
    match C.funcExec fstub with
    | none => body
    | some f =>
      let ret ← callback (f handle)
      emit (.funcExec fstub handle ret)
      if ret ≠ 0 then return retDead else body

/-- `execute_syntax_func`, given its arguments and its body. -/
def executeFunc (C : Callbacks κ σ η D) (fstub : κ) (args : η → Exec κ σ η (ℤ × ℤ))
    (body : Exec κ σ η ℤ) : Exec κ σ η ℤ := do
  castStub C fstub .func
  let handle ← callback (C.constructor fstub)
  emit (.constructor fstub handle)
  match handle with
  | none => return retDead
  | some handle =>
    execCtxPushHandle handle
    let ret ← executeFuncInner C fstub handle (args handle) body
    executeOut C fstub handle
    return ret

/-- Count the events of `x` one negated block deeper. -/
def negated {α : Type} (x : Exec κ σ η α) : Exec κ σ η α := fun s =>
  (x { s with negdepth := s.negdepth + 1 }).map fun p => (p.1, { p.2 with negdepth := s.negdepth })

/-- `execute_syntax_block`, given its list. -/
def executeBlock (negative : Bool) (childs : Exec κ σ η ℤ) : Exec κ σ η ℤ :=
  if negative then do
    let ret ← negated childs
    return if ret = 0 then 1 else 0
  else childs

/-- One step of `execute_syntax_childs`: the new `res`, when the operator before the node is one
of the two it knows. -/
def childsRes (opt : Sym) (res ret : ℤ) : Option ℤ :=
  if res = valUninitialized then some ret
  else
    match opt with
    | .and => some (if res ≠ 0 ∧ ret ≠ 0 then 1 else 0)
    | .or => some (if res ≠ 0 ∨ ret ≠ 0 then 1 else 0)
    | _ => none

/-- The early return of `execute_syntax_childs`. -/
def childsStop (opt : Sym) (res : ℤ) : Bool := opt = .and ∧ res = 0 ∨ opt = .or ∧ res ≠ 0

/-- The end of one node of `execute_syntax_childs`: return or go on. -/
def childsNext (opt next : Sym) (res ret : ℤ) (more : ℤ → Exec κ σ η ℤ) : Exec κ σ η ℤ := do
  if !vaildLreResults ret then return retDead
  else
    match childsRes opt res ret with
    | none => emit .listError; return retDead
    | some res => if childsStop next res then return res else more res

mutual

/-- The switch of `execute_syntax_childs`: `execute_syntax_func`, `execute_syntax_expr` and
`execute_syntax_block`. -/
def executeItem (C : Callbacks κ σ η D) (R : Doubles D) : ResolvedItem κ → Exec κ σ η ℤ
  | .func keystub args body =>
    executeFunc C keystub (fun handle => executeArgs C R handle args)
      (executeChildsLoop C R body .reserved valUninitialized)
  | .block negative childs =>
    executeBlock negative (executeChildsLoop C R childs .reserved valUninitialized)
  | .expr keystub opt valchilds => executeSyntaxExpr C R keystub opt valchilds

/-- The loop of `execute_syntax_childs`, with the operator before the current node and `res`. -/
def executeChildsLoop (C : Callbacks κ σ η D) (R : Doubles D) :
    ResolvedItems κ → Sym → ℤ → Exec κ σ η ℤ
  | .nil, _, res => do
    if res = valUninitialized then emit .listError
    return res
  | .cons node next rest, opt, res => do
    let ret ← executeItem C R node
    childsNext opt next res ret (executeChildsLoop C R rest next)

end

/-- `execute_syntax_childs`. -/
def executeSyntaxChilds (C : Callbacks κ σ η D) (R : Doubles D) (root : ResolvedItems κ) :
    Exec κ σ η ℤ := executeChildsLoop C R root .reserved valUninitialized

/-- `execute_syntax_func`. -/
def executeSyntaxFunc (C : Callbacks κ σ η D) (R : Doubles D) (keystub : κ)
    (args : ResolvedArgs κ) (body : ResolvedItems κ) : Exec κ σ η ℤ :=
  executeItem C R (.func keystub args body)

/-- `execute_syntax_block`. -/
def executeSyntaxBlock (C : Callbacks κ σ η D) (R : Doubles D) (negative : Bool)
    (childs : ResolvedItems κ) : Exec κ σ η ℤ := executeItem C R (.block negative childs)

/-- `interp_execute` on a resolved content, from the state `env` of the components. -/
def interpExecute (C : Callbacks κ σ η D) (R : Doubles D) (stacksize : ℕ)
    (tree : ResolvedItems κ) (env : σ) : Except ExecFault (ℤ × ExecState κ σ η) :=
  executeSyntaxChilds C R tree ⟨env, [], stacksize, 0, [], 0⟩

/-! ## Rules -/

section Rules

open Run

variable {E : ExecFault → Prop} {s : ExecState κ σ η}

@[simp] theorem wp_emit {e : ExecEvent κ η} {Q : Unit → ExecState κ σ η → Prop} :
    wp E (emit e) Q s ↔ Q () { s with trace := (s.negdepth, e) :: s.trace } := Iff.rfl

@[simp] theorem wp_callback {α : Type} {f : σ → α × σ} {Q : α → ExecState κ σ η → Prop} :
    wp E (callback f) Q s ↔ Q (f s.env).1 { s with env := (f s.env).2 } := Iff.rfl

theorem wp_execCtxPushHandle {handle : η} {Q : Unit → ExecState κ σ η → Prop} :
    wp E (execCtxPushHandle handle) Q s ↔
      if s.stack.length + execStackGap ≥ s.stackdepth then wp E (emit .pushRefused) Q s
      else Q () { s with stack := handle :: s.stack } := by
  unfold execCtxPushHandle wp
  by_cases h : s.stack.length + execStackGap ≥ s.stackdepth <;> simp only [h, if_true, if_false]

theorem wp_execCtxPopHandle {Q : Unit → ExecState κ σ η → Prop} :
    wp E execCtxPopHandle Q s ↔
      match s.stack with
      | [] => E .emptyStack
      | _ :: stack => Q () { s with stack := stack } := by
  unfold execCtxPopHandle wp
  cases hs : s.stack <;> simp only [hs]

theorem wp_execCtxGetHandle {Q : η → ExecState κ σ η → Prop} :
    wp E execCtxGetHandle Q s ↔
      match s.stack with
      | [] => E .emptyStack
      | handle :: _ => Q handle s := by
  unfold execCtxGetHandle wp
  cases hs : s.stack <;> simp only [hs]

theorem wp_negated {α : Type} {x : Exec κ σ η α} {Q : α → ExecState κ σ η → Prop} :
    wp E (negated x) Q s ↔
      wp E x (fun a s' => Q a { s' with negdepth := s.negdepth })
        { s with negdepth := s.negdepth + 1 } := by
  unfold negated wp
  cases hx : x { s with negdepth := s.negdepth + 1 } <;> simp only [hx, Except.map]

end Rules

/-! ## Inert steps -/

section Inert

open Run

/-- The events of `lre_value_dup2_string` and `lre_value_release`. -/
def ExecEvent.IsHeap : ExecEvent κ η → Prop
  | .strdup _ | .release _ => True
  | _ => False

/-- Only the components, the heap and the heap events of the trace change. -/
def Inert {α : Type} (x : Exec κ σ η α) : Prop :=
  ∀ s, wp (fun _ => True) x (fun _ s' => s'.negdepth = s.negdepth ∧ s'.stack = s.stack ∧
    ∃ new, s'.trace = new ++ s.trace ∧ ∀ e ∈ new, e.1 = s.negdepth ∧ e.2.IsHeap) s

variable {α β : Type}

/-- Only the components change. -/
def EnvOnly {α : Type} (x : Exec κ σ η α) : Prop :=
  ∀ s, wp (fun _ => True) x (fun _ s' => ∃ env, s' = { s with env := env }) s

theorem EnvOnly.pure (a : α) : EnvOnly (pure a : Exec κ σ η α) := fun s => ⟨s.env, rfl⟩

theorem EnvOnly.throw (e : ExecFault) : EnvOnly (throw e : Exec κ σ η α) := fun _ => trivial

theorem EnvOnly.bind {x : Exec κ σ η α} {f : α → Exec κ σ η β} (hx : EnvOnly x)
    (hf : ∀ a, EnvOnly (f a)) : EnvOnly (x >>= f) := by
  intro s
  refine (wp_bind ..).mpr (wp_mono (hx s) ?_)
  rintro a s₁ ⟨env, rfl⟩
  exact hf a _

theorem envOnly_callback (f : σ → α × σ) : EnvOnly (callback f : Exec κ σ η α) :=
  fun _ => ⟨_, rfl⟩

theorem envOnly_castStub (C : Callbacks κ σ η D) (stub : κ) (type : KeystubType) :
    EnvOnly (castStub C stub type) := by
  unfold castStub
  split
  · exact .pure _
  · exact .throw _

theorem envOnly_execCtxGetHandle : EnvOnly (execCtxGetHandle : Exec κ σ η η) := by
  rintro ⟨env, stack, stackdepth, heap, trace, negdepth⟩
  cases stack with
  | nil => trivial
  | cons handle stack => exact ⟨env, rfl⟩

theorem envOnly_valdouble (c : Content D) : EnvOnly (valdouble c : Exec κ σ η D) := by
  unfold valdouble
  split
  · exact .pure _
  · exact .throw _

theorem envOnly_valStep (R : Doubles D) (opt : Sym) (arg tmparg : LreValue D) :
    EnvOnly (valStep R opt arg tmparg : Exec κ σ η (ValStep D)) := by
  unfold valStep
  split
  · exact .pure _
  · exact .pure _
  · exact .pure _
  · split
    · exact .throw _
    · exact .pure _
  · exact (envOnly_valdouble _).bind fun _ => (envOnly_valdouble _).bind fun _ => .pure _

theorem Inert.of_envOnly {x : Exec κ σ η α} (h : EnvOnly x) : Inert x := by
  refine fun s => wp_mono (h s) ?_
  rintro a _ ⟨env, rfl⟩
  exact ⟨rfl, rfl, [], rfl, by simp⟩

theorem Inert.pure (a : α) : Inert (pure a : Exec κ σ η α) := .of_envOnly (.pure a)

theorem Inert.bind {x : Exec κ σ η α} {f : α → Exec κ σ η β} (hx : Inert x)
    (hf : ∀ a, Inert (f a)) : Inert (x >>= f) := by
  intro s
  refine (wp_bind ..).mpr (wp_mono (hx s) ?_)
  rintro a s₁ ⟨hd₁, hs₁, new₁, ht₁, hn₁⟩
  refine wp_mono (hf a s₁) ?_
  rintro b s₂ ⟨hd₂, hs₂, new₂, ht₂, hn₂⟩
  refine ⟨hd₂.trans hd₁, hs₂.trans hs₁, new₂ ++ new₁, by rw [ht₂, ht₁, List.append_assoc], ?_⟩
  intro e he
  rcases List.mem_append.mp he with he | he
  · exact hd₁ ▸ hn₂ e he
  · exact hn₁ e he

theorem Inert.emit {e : ExecEvent κ η} (he : e.IsHeap) : Inert (emit e : Exec κ σ η Unit) :=
  fun s => ⟨rfl, rfl, [(s.negdepth, e)], rfl, by simp [he]⟩

theorem inert_callback (f : σ → α × σ) : Inert (callback f : Exec κ σ η α) :=
  .of_envOnly (envOnly_callback f)

theorem inert_castStub (C : Callbacks κ σ η D) (stub : κ) (type : KeystubType) :
    Inert (castStub C stub type) := .of_envOnly (envOnly_castStub C stub type)

theorem inert_execCtxGetHandle : Inert (execCtxGetHandle : Exec κ σ η η) :=
  .of_envOnly envOnly_execCtxGetHandle

theorem inert_strdup : Inert (strdup : Exec κ σ η ℕ) :=
  fun s => ⟨rfl, rfl, [(s.negdepth, .strdup s.heap)], rfl, by simp [ExecEvent.IsHeap]⟩

theorem inert_setValues : ∀ (sets : List (SetValue D)) (val : LreValue D),
    Inert (setValues sets val : Exec κ σ η (LreValue D))
  | [], _ => .pure _
  | .setInt _ :: sets, _ => inert_setValues sets _
  | .setDouble _ :: sets, _ => inert_setValues sets _
  | .setString _ :: sets, _ => inert_setValues sets _
  | .dup2String _ :: sets, _ => inert_strdup.bind fun _ => inert_setValues sets _

theorem inert_lreValueRelease (val : LreValue D) :
    Inert (lreValueRelease val : Exec κ σ η Unit) := by
  unfold lreValueRelease
  split
  · exact .pure _
  · exact .emit trivial

theorem inert_valStep (R : Doubles D) (opt : Sym) (arg tmparg : LreValue D) :
    Inert (valStep R opt arg tmparg : Exec κ σ η (ValStep D)) :=
  .of_envOnly (envOnly_valStep R opt arg tmparg)

end Inert

/-! ## Sample components -/

/-- Components that always succeed and whose expressions hold; a stub stands for its type. -/
def sampleCallbacks : Callbacks KeystubType Unit Unit Unit where
  type := id
  constructor _ _ := (some (), ())
  destructor _ := some fun _ _ => ()
  funcExec _ := none
  callExec _ := some fun _ _ => ((0, [.setInt 1]), ())
  argHandler _ _ _ _ := (0, ())
  exprHandler _ _ _ _ _ := (1, ())
  varHandler _ _ _ := ((0, [.setInt 1]), ())

/-- Doubles for executions that reach none. -/
def unitDoubles : Doubles Unit where
  add _ _ := ()
  sub _ _ := ()
  mul _ _ := ()
  div _ _ := ()
  deadVal := ()
  atof _ := ()
  valint _ := 0

/-- The operand `1`. -/
def oneVal : ResolvedVals KeystubType := .cons (.val (.ident ['1'])) .reserved .nil

/-- The list of one item. -/
def ResolvedItem.single (node : ResolvedItem κ) : ResolvedItems κ := .cons node .reserved .nil

end Lre
