import Lre.Exec.Model

/-!
# Renaming stubs

The executor sees the stubs of a tree through the components only.

* `ResolvedItems.map`, `Callbacks.comap`, `ExecState.map`: a map of stubs on trees, on components
  and on states.
* `Renames`: two computations run in step up to the names of stubs in the trace.
* **`interpExecute_map`**: a renamed tree has the executions of the tree.
-/

namespace Lre

open Run

variable {κ κ' σ η D α β : Type}

/-! ## Maps of stubs -/

mutual

/-- An operand with its stubs renamed. -/
def ResolvedVal.map (f : κ → κ') : ResolvedVal κ → ResolvedVal κ'
  | .val x => .val x
  | .var valstub => .var (f valstub)
  | .valblock childs => .valblock (childs.map f)
  | .call keystub args => .call (f keystub) (args.map f)

/-- A value with its stubs renamed. -/
def ResolvedVals.map (f : κ → κ') : ResolvedVals κ → ResolvedVals κ'
  | .nil => .nil
  | .cons node opt rest => .cons (node.map f) opt (rest.map f)

/-- An argument list with its stubs renamed. -/
def ResolvedArgs.map (f : κ → κ') : ResolvedArgs κ → ResolvedArgs κ'
  | .nil => .nil
  | .cons keystub valchilds rest => .cons (f keystub) (valchilds.map f) (rest.map f)

end

mutual

/-- An item with its stubs renamed. -/
def ResolvedItem.map (f : κ → κ') : ResolvedItem κ → ResolvedItem κ'
  | .func keystub args body => .func (f keystub) (args.map f) (body.map f)
  | .block negative childs => .block negative (childs.map f)
  | .expr keystub opt valchilds => .expr (f keystub) opt (valchilds.map f)

/-- Items with their stubs renamed. -/
def ResolvedItems.map (f : κ → κ') : ResolvedItems κ → ResolvedItems κ'
  | .nil => .nil
  | .cons node opt rest => .cons (node.map f) opt (rest.map f)

end

/-- Components that read a stub through `f`. -/
def Callbacks.comap (f : κ → κ') (C : Callbacks κ' σ η D) : Callbacks κ σ η D where
  type stub := C.type (f stub)
  constructor stub := C.constructor (f stub)
  destructor stub := C.destructor (f stub)
  funcExec stub := C.funcExec (f stub)
  callExec stub := C.callExec (f stub)
  argHandler stub := C.argHandler (f stub)
  exprHandler stub := C.exprHandler (f stub)
  varHandler stub := C.varHandler (f stub)

/-- An event with its stub renamed. -/
def ExecEvent.map (f : κ → κ') : ExecEvent κ η → ExecEvent κ' η
  | .constructor stub handle => .constructor (f stub) handle
  | .argHandler stub handle ret => .argHandler (f stub) handle ret
  | .funcExec stub handle ret => .funcExec (f stub) handle ret
  | .callExec stub handle ret => .callExec (f stub) handle ret
  | .exprHandler stub handle ret => .exprHandler (f stub) handle ret
  | .varHandler stub handle ret => .varHandler (f stub) handle ret
  | .destructor stub handle => .destructor (f stub) handle
  | .pushRefused => .pushRefused
  | .valError => .valError
  | .listError => .listError
  | .noExec => .noExec
  | .abandon => .abandon
  | .strdup ptr => .strdup ptr
  | .release ptr => .release ptr

theorem ExecEvent.map_map {κ'' : Type} (f : κ → κ') (g : κ' → κ'') (e : ExecEvent κ η) :
    (e.map f).map g = e.map fun stub => g (f stub) := by
  cases e <;> rfl

/-- A state with the stubs of its trace renamed. -/
def ExecState.map (f : κ → κ') (s : ExecState κ σ η) : ExecState κ' σ η :=
  ⟨s.env, s.stack, s.stackdepth, s.heap, s.trace.map fun e => (e.1, e.2.map f), s.negdepth⟩

/-! ## Steps -/

/-- From a state and the renamed state, `x` and `y` return the same value. -/
abbrev Renames (f : κ → κ') (x : Exec κ σ η α) (y : Exec κ' σ η α) : Prop :=
  Sim (fun s t => t = s.map f) Eq x y

variable {f : κ → κ'} {C : Callbacks κ' σ η D}

theorem renames_emit (e : ExecEvent κ η) :
    Renames f (emit e : Exec κ σ η Unit) (emit (e.map f)) := by
  rintro s _ rfl
  exact ⟨rfl, rfl⟩

theorem renames_callback (g : σ → α × σ) :
    Renames f (callback g : Exec κ σ η α) (callback g) := by
  rintro s _ rfl
  exact ⟨rfl, rfl⟩

theorem renames_castStub (stub : κ) (type : KeystubType) :
    Renames f (castStub (C.comap f) stub type) (castStub C (f stub) type) := by
  show Renames f (if C.type (f stub) = type then return () else throw .badStub) _
  exact .ite (fun _ => .pure rfl) fun _ => .throw _

theorem renames_execCtxPushHandle (handle : η) :
    Renames f (execCtxPushHandle handle : Exec κ σ η Unit) (execCtxPushHandle handle) := by
  rintro s _ rfl
  by_cases h : s.stack.length + execStackGap ≥ s.stackdepth
  · rw [execCtxPushHandle, execCtxPushHandle, if_pos h,
      if_pos (show (s.map f).stack.length + execStackGap ≥ (s.map f).stackdepth from h)]
    exact renames_emit .pushRefused s _ rfl
  · rw [execCtxPushHandle, execCtxPushHandle, if_neg h,
      if_neg (show ¬(s.map f).stack.length + execStackGap ≥ (s.map f).stackdepth from h)]
    exact ⟨rfl, rfl⟩

theorem renames_execCtxPopHandle :
    Renames f (execCtxPopHandle : Exec κ σ η Unit) execCtxPopHandle := by
  rintro ⟨env, stack, stackdepth, heap, trace, negdepth⟩ _ rfl
  cases stack with
  | nil => rfl
  | cons handle stack => exact ⟨rfl, rfl⟩

theorem renames_execCtxGetHandle :
    Renames f (execCtxGetHandle : Exec κ σ η η) execCtxGetHandle := by
  rintro ⟨env, stack, stackdepth, heap, trace, negdepth⟩ _ rfl
  cases stack with
  | nil => rfl
  | cons handle stack => exact ⟨rfl, rfl⟩

theorem renames_strdup : Renames f (strdup : Exec κ σ η ℕ) strdup := by
  rintro s _ rfl
  exact ⟨rfl, rfl⟩

theorem renames_setValues : ∀ (sets : List (SetValue D)) (val : LreValue D),
    Renames f (setValues sets val : Exec κ σ η (LreValue D)) (setValues sets val)
  | [], _ => .pure rfl
  | .setInt _ :: sets, _ => renames_setValues sets _
  | .setDouble _ :: sets, _ => renames_setValues sets _
  | .setString _ :: sets, _ => renames_setValues sets _
  | .dup2String _ :: sets, _ => renames_strdup.bind_eq fun _ => renames_setValues sets _

theorem renames_lreValueRelease (val : LreValue D) :
    Renames f (lreValueRelease val : Exec κ σ η Unit) (lreValueRelease val) := by
  unfold lreValueRelease
  cases val.ptr with
  | none => exact .pure rfl
  | some ptr => exact renames_emit (.release ptr)

theorem renames_valdouble (c : Content D) :
    Renames f (valdouble c : Exec κ σ η D) (valdouble c) := by
  cases c with
  | double d => exact .pure rfl
  | unknown => exact .throw _
  | int i => exact .throw _
  | string s => exact .throw _

theorem renames_calcDobule (R : Doubles D) (opt : Sym) (arg : LreValue D) (a b : Content D) :
    Renames f (do
        let r := lreCalcDobule R (← valdouble a) (← valdouble b) opt
        return if R.valint r = retDeadVal then .error else .next { arg with content := .double r } :
          Exec κ σ η (ValStep D))
      (do
        let r := lreCalcDobule R (← valdouble a) (← valdouble b) opt
        return if R.valint r = retDeadVal then .error
          else .next { arg with content := .double r }) :=
  (renames_valdouble a).bind_eq fun _ => (renames_valdouble b).bind_eq fun _ => .pure rfl

theorem renames_valStep (R : Doubles D) (opt : Sym) (arg tmparg : LreValue D) :
    Renames f (valStep R opt arg tmparg : Exec κ σ η (ValStep D)) (valStep R opt arg tmparg) := by
  obtain ⟨b, bptr⟩ := tmparg
  obtain ⟨a, aptr⟩ := arg
  cases b with
  | unknown => exact .pure rfl
  | string b => exact .pure rfl
  | double b =>
    cases a with
    | unknown => exact .pure rfl
    | int a => exact renames_calcDobule R opt ⟨.int a, aptr⟩ (.int a) (.double b)
    | double a => exact renames_calcDobule R opt ⟨.double a, aptr⟩ (.double a) (.double b)
    | string a => exact renames_calcDobule R opt ⟨.string a, aptr⟩ (.string a) (.double b)
  | int b =>
    cases a with
    | unknown => exact .pure rfl
    | double a => exact renames_calcDobule R opt ⟨.double a, aptr⟩ (.double a) (.int b)
    | string a => exact renames_calcDobule R opt ⟨.string a, aptr⟩ (.string a) (.int b)
    | int a =>
      unfold valStep
      dsimp only
      cases lreCalcInt a b opt with
      | none => exact .throw _
      | some r => exact .pure rfl

/-! ## The evaluators -/

theorem renames_valNext {R : Doubles D} {opt : Sym} {arg tmparg : LreValue D} {ret : ℤ}
    {more : LreValue D → Exec κ σ η (ℤ × LreValue D)}
    {more' : LreValue D → Exec κ' σ η (ℤ × LreValue D)}
    (hmore : ∀ arg, Renames f (more arg) (more' arg)) :
    Renames f (valNext R opt arg ret tmparg more) (valNext R opt arg ret tmparg more') := by
  have herror : Renames f (do emit .valError; return (einval, arg) : Exec κ σ η (ℤ × LreValue D))
      (do emit .valError; return (einval, arg)) :=
    (renames_emit .valError).bind_eq fun _ => .pure rfl
  refine .ite (fun _ => herror) fun _ => ?_
  refine (renames_valStep R opt arg tmparg).bind_eq fun step => ?_
  cases step with
  | error => exact herror
  | done arg => exact .pure rfl
  | next arg => exact hmore arg

theorem renames_executeVar (handle : η) (valstub : κ) :
    Renames f (executeVar (C.comap f) handle valstub) (executeVar C handle (f valstub)) :=
  (renames_castStub valstub .var).bind_eq fun _ =>
    (renames_callback (C.varHandler (f valstub) handle)).bind_eq fun r =>
      (renames_emit (.varHandler valstub handle r.1)).bind_eq fun _ =>
        (renames_setValues r.2 .init).bind_eq fun _ => .pure rfl

theorem renames_executeArg {handle : η} {astub : κ} {val : Exec κ σ η (ℤ × LreValue D)}
    {val' : Exec κ' σ η (ℤ × LreValue D)} (hval : Renames f val val') :
    Renames f (executeArg (C.comap f) handle astub val) (executeArg C handle (f astub) val') := by
  refine hval.bind_eq fun ⟨ret, arg⟩ => ?_
  refine .ite (fun _ => .pure rfl) fun _ => ?_
  refine (renames_castStub astub .arg).bind_eq fun _ => ?_
  refine (renames_callback (C.argHandler (f astub) handle arg.content)).bind_eq fun ret' => ?_
  refine (renames_emit (.argHandler astub handle ret')).bind_eq fun _ => ?_
  refine .ite (fun _ => .pure rfl) fun _ => ?_
  exact (renames_lreValueRelease arg).bind_eq fun _ => .pure rfl

theorem renames_executeOut (stub : κ) (handle : η) :
    Renames f (executeOut (C.comap f) stub handle) (executeOut C (f stub) handle) := by
  unfold executeOut
  rw [show (C.comap f).destructor stub = C.destructor (f stub) from rfl]
  cases C.destructor (f stub) with
  | none => exact renames_execCtxPopHandle
  | some g =>
    refine (renames_callback fun env => ((), g handle env)).bind_eq fun _ => ?_
    exact (renames_emit (.destructor stub handle)).bind_eq fun _ => renames_execCtxPopHandle

theorem renames_executeCallExec (cstub : κ) (handle : η) :
    Renames f (executeCallExec (C.comap f) cstub handle) (executeCallExec C (f cstub) handle) := by
  unfold executeCallExec
  rw [show (C.comap f).callExec cstub = C.callExec (f cstub) from rfl]
  cases C.callExec (f cstub) with
  | none => exact (renames_emit .noExec).bind_eq fun _ => .pure rfl
  | some g =>
    refine (renames_callback (g handle)).bind_eq fun r => ?_
    refine (renames_emit (.callExec cstub handle r.1)).bind_eq fun _ => ?_
    exact (renames_setValues r.2 .init).bind_eq fun _ => .pure rfl

theorem renames_executeCallInner {cstub : κ} {handle : η} {args : Exec κ σ η (ℤ × ℤ)}
    {args' : Exec κ' σ η (ℤ × ℤ)} (hargs : Renames f args args') :
    Renames f (executeCallInner (C.comap f) cstub handle args)
      (executeCallInner C (f cstub) handle args') := by
  refine hargs.bind_eq ?_
  rintro ⟨valret, argret⟩
  refine .ite (fun _ => .pure rfl) fun _ => ?_
  refine .ite (fun _ => .pure rfl) fun _ => ?_
  exact (renames_executeCallExec cstub handle).bind_eq fun _ => .pure rfl

theorem renames_executeFuncInner {fstub : κ} {handle : η} {args : Exec κ σ η (ℤ × ℤ)}
    {args' : Exec κ' σ η (ℤ × ℤ)} {body : Exec κ σ η ℤ} {body' : Exec κ' σ η ℤ}
    (hargs : Renames f args args') (hbody : Renames f body body') :
    Renames f (executeFuncInner (C.comap f) fstub handle args body)
      (executeFuncInner C (f fstub) handle args' body') := by
  refine hargs.bind_eq ?_
  rintro ⟨valret, argret⟩
  refine .ite (fun _ => .pure rfl) fun _ => ?_
  rw [show (C.comap f).funcExec fstub = C.funcExec (f fstub) from rfl]
  cases C.funcExec (f fstub) with
  | none => exact hbody
  | some g =>
    refine (renames_callback (g handle)).bind_eq fun ret => ?_
    refine (renames_emit (.funcExec fstub handle ret)).bind_eq fun _ => ?_
    exact .ite (fun _ => .pure rfl) fun _ => hbody

theorem renames_executeCall {cstub : κ} {args : η → Exec κ σ η (ℤ × ℤ)}
    {args' : η → Exec κ' σ η (ℤ × ℤ)} (hargs : ∀ handle, Renames f (args handle) (args' handle)) :
    Renames f (executeCall (C.comap f) cstub args) (executeCall C (f cstub) args') := by
  refine (renames_castStub cstub .call).bind_eq fun _ => ?_
  refine (renames_callback (C.constructor (f cstub))).bind_eq fun handle => ?_
  refine (renames_emit (.constructor cstub handle)).bind_eq fun _ => ?_
  cases handle with
  | none => exact .pure rfl
  | some handle =>
    refine (renames_execCtxPushHandle handle).bind_eq fun _ => ?_
    refine (renames_executeCallInner (hargs handle)).bind_eq fun ⟨returned, r⟩ => ?_
    cases returned with
    | true => exact (renames_emit .abandon).bind_eq fun _ => .pure rfl
    | false => exact (renames_executeOut cstub handle).bind_eq fun _ => .pure rfl

theorem renames_executeFunc {fstub : κ} {args : η → Exec κ σ η (ℤ × ℤ)}
    {args' : η → Exec κ' σ η (ℤ × ℤ)} {body : Exec κ σ η ℤ} {body' : Exec κ' σ η ℤ}
    (hargs : ∀ handle, Renames f (args handle) (args' handle)) (hbody : Renames f body body') :
    Renames f (executeFunc (C.comap f) fstub args body) (executeFunc C (f fstub) args' body') := by
  refine (renames_castStub fstub .func).bind_eq fun _ => ?_
  refine (renames_callback (C.constructor (f fstub))).bind_eq fun handle => ?_
  refine (renames_emit (.constructor fstub handle)).bind_eq fun _ => ?_
  cases handle with
  | none => exact .pure rfl
  | some handle =>
    refine (renames_execCtxPushHandle handle).bind_eq fun _ => ?_
    refine (renames_executeFuncInner (hargs handle) hbody).bind_eq fun ret => ?_
    exact (renames_executeOut fstub handle).bind_eq fun _ => .pure rfl

variable {R : Doubles D}

mutual

theorem executeOperand_map : ∀ (v : ResolvedVal κ) (handle : η),
    Renames f (executeOperand (C.comap f) R handle v) (executeOperand C R handle (v.map f))
  | .val _, _ => .pure rfl
  | .var valstub, handle => renames_executeVar handle valstub
  | .valblock childs, _ =>
    renames_execCtxGetHandle.bind_eq fun handle => executeValLoop_map childs handle _ _
  | .call _ args, _ => renames_executeCall fun handle => executeArgs_map args handle

theorem executeValLoop_map : ∀ (vs : ResolvedVals κ) (handle : η) (opt : Sym) (arg : LreValue D),
    Renames f (executeValLoop (C.comap f) R handle vs opt arg)
      (executeValLoop C R handle (vs.map f) opt arg)
  | .nil, _, _, _ => .pure rfl
  | .cons node _ rest, handle, _, _ =>
    (executeOperand_map node handle).bind_eq fun _ =>
      renames_valNext fun arg => executeValLoop_map rest handle _ arg

theorem executeArgs_map : ∀ (args : ResolvedArgs κ) (handle : η),
    Renames f (executeArgs (C.comap f) R handle args) (executeArgs C R handle (args.map f))
  | .nil, _ => .pure rfl
  | .cons keystub valchilds rest, handle => by
    refine (renames_executeArg (renames_execCtxGetHandle.bind_eq fun handle =>
      executeValLoop_map valchilds handle _ _)).bind_eq fun ⟨valret, argret⟩ => ?_
    exact .ite (fun _ => .pure rfl) fun _ => executeArgs_map rest handle

end

theorem executeSyntaxExpr_map (estub : κ) (opt : Sym) (valchilds : ResolvedVals κ) :
    Renames f (executeSyntaxExpr (C.comap f) R estub opt valchilds : Exec κ σ η ℤ)
      (executeSyntaxExpr C R (f estub) opt (valchilds.map f)) := by
  refine renames_execCtxGetHandle.bind_eq fun handle => ?_
  refine (renames_execCtxGetHandle.bind_eq fun handle =>
    executeValLoop_map valchilds handle .reserved .init).bind_eq fun ⟨ret, arg⟩ => ?_
  refine .ite (fun _ => .pure rfl) fun _ => ?_
  refine (renames_castStub estub .expr).bind_eq fun _ => ?_
  refine (renames_callback (C.exprHandler (f estub) handle opt arg.content)).bind_eq fun ret' => ?_
  refine (renames_emit (.exprHandler estub handle ret')).bind_eq fun _ => ?_
  refine .ite (fun _ => .pure rfl) fun _ => ?_
  exact (renames_lreValueRelease arg).bind_eq fun _ => .pure rfl

theorem renames_negated {x : Exec κ σ η α} {y : Exec κ' σ η α} (h : Renames f x y) :
    Renames f (negated x) (negated y) := by
  rintro s _ rfl
  have hxy := agree_map_iff.mp (h { s with negdepth := s.negdepth + 1 } _ rfl)
  refine agree_map_iff.mpr ?_
  unfold negated
  rw [show { s.map f with negdepth := (s.map f).negdepth + 1 } =
    ({ s with negdepth := s.negdepth + 1 } : ExecState κ σ η).map f from rfl, hxy]
  cases x { s with negdepth := s.negdepth + 1 } with
  | error e => rfl
  | ok p => rfl

theorem renames_executeBlock {negative : Bool} {childs : Exec κ σ η ℤ} {childs' : Exec κ' σ η ℤ}
    (h : Renames f childs childs') :
    Renames f (executeBlock negative childs) (executeBlock negative childs') := by
  cases negative with
  | false => exact h
  | true => exact (renames_negated h).bind_eq fun _ => .pure rfl

theorem renames_childsNext {opt next : Sym} {res ret : ℤ} {more : ℤ → Exec κ σ η ℤ}
    {more' : ℤ → Exec κ' σ η ℤ} (hmore : ∀ res, Renames f (more res) (more' res)) :
    Renames f (childsNext opt next res ret more) (childsNext opt next res ret more') := by
  refine .ite (fun _ => .pure rfl) fun _ => ?_
  cases childsRes opt res ret with
  | none => exact (renames_emit .listError).bind_eq fun _ => .pure rfl
  | some res => exact .ite (fun _ => .pure rfl) fun _ => hmore res

mutual

theorem executeItem_map : ∀ node : ResolvedItem κ,
    Renames f (executeItem (C.comap f) R node : Exec κ σ η ℤ) (executeItem C R (node.map f))
  | .func _ args body =>
    renames_executeFunc (fun handle => executeArgs_map args handle)
      (executeChildsLoop_map body _ _)
  | .block _ childs => renames_executeBlock (executeChildsLoop_map childs _ _)
  | .expr estub opt valchilds => executeSyntaxExpr_map estub opt valchilds

theorem executeChildsLoop_map : ∀ (items : ResolvedItems κ) (opt : Sym) (res : ℤ),
    Renames f (executeChildsLoop (C.comap f) R items opt res : Exec κ σ η ℤ)
      (executeChildsLoop C R (items.map f) opt res)
  | .nil, _, res => by
    refine .ite (fun _ => ?_) fun _ => .pure rfl
    exact (renames_emit .listError).bind_eq fun _ => .pure rfl
  | .cons node _ rest, _, _ =>
    (executeItem_map node).bind_eq fun _ =>
      renames_childsNext fun res => executeChildsLoop_map rest _ res

end

/-- **The executor is natural in the stubs**: an execution of the renamed tree is one of the tree,
with the stubs of its trace renamed. -/
theorem interpExecute_map (C : Callbacks κ' σ η D) (R : Doubles D) (f : κ → κ') (stacksize : ℕ)
    (tree : ResolvedItems κ) (env : σ) :
    interpExecute C R stacksize (tree.map f) env =
      (interpExecute (C.comap f) R stacksize tree env).map fun p => (p.1, p.2.map f) :=
  agree_map_iff.mp (executeChildsLoop_map tree .reserved valUninitialized
    ⟨env, [], stacksize, 0, [], 0⟩ _ rfl)

end Lre
