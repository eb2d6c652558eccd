import Lre.Exec.Activation
import Lre.Exec.Handles
import Lre.Interp.Buffer

/-!
# The bound of the handle stack

`exec_ctx_push_handle` compares the index with the size of the stack in bytes.

* `PushSafe`: a handle is stored below the end of the stack, or the push is refused and contained.
* `Calm`: no push was refused, and the stack holds one object for each function and call around
  the current one and for each call that was left early.
* `Room`: the pushes an activation comes to are not refused in a calm state; `settles_executeItem`
  and the other evaluators: with room they return to a calm state; `ComesTo.calm`.
* **`interpExecute_pushSafe_iff`**: all pushes of an execution are safe exactly when each is made
  inside fewer functions, calls and calls left early than the stack has entries.
-/

namespace Lre

open Run

variable {κ σ η D α β : Type}

/-! ## Pushes -/

/-- `sizeof(lrc_obj_t *)`. -/
def sizeofHandle : ℕ := 8

/-- The function or the call of an activation fails in the state `s'`. -/
def Activation.Fails (C : Callbacks κ σ η D) (R : Doubles D) (a : Activation κ σ η D)
    (s' : ExecState κ σ η) : Prop :=
  match a.place with
  | .item node => ∃ ret, executeItem C R node a.state = .ok (ret, s') ∧ vaildLreResults ret = false
  | .operand top node =>
    ∃ ret arg, executeOperand C R top node a.state = .ok ((ret, arg), s') ∧ ret ≠ 0
  | _ => False

/-- It fails, calls no handler with another object and takes no entry from the stack. -/
def Activation.Contained (C : Callbacks κ σ η D) (R : Doubles D) (a : Activation κ σ η D)
    (handle : η) : Prop :=
  ∃ s' new, a.Fails C R s' ∧ s'.trace = new ++ a.state.trace ∧
    (∀ e ∈ new, ∀ h ∈ e.2.handle?, h = handle) ∧ a.state.stack <:+ s'.stack

/-- The push of `handle` in the state `s`: it is refused and the failure is contained, or the
handle is stored below the end of a stack of `stacksize` bytes. -/
def PushSafe (C : Callbacks κ σ η D) (R : Doubles D) (stacksize : ℕ) (a : Activation κ σ η D)
    (handle : η) (s : ExecState κ σ η) : Prop :=
  if s.stack.length + execStackGap ≥ s.stackdepth then a.Contained C R handle
  else s.stack.length < stacksize / sizeofHandle

/-! ## Quiet steps -/

/-- The stack stays, and no push is refused and no call left early. -/
def Quiet (x : Exec κ σ η α) : Prop :=
  ∀ s, wp (fun _ => True) x (fun _ s' => s'.stackdepth = s.stackdepth ∧ s'.stack = s.stack ∧
    ∃ new, s'.trace = new ++ s.trace ∧ Accepted new ∧ abandons new = 0) s

theorem accepted_nil : Accepted ([] : List (ℕ × ExecEvent κ η)) := fun _ he => nomatch he

theorem Quiet.of_envOnly {x : Exec κ σ η α} (h : EnvOnly x) : Quiet x := by
  refine fun s => wp_mono (h s) ?_
  rintro a _ ⟨env, rfl⟩
  exact ⟨rfl, rfl, [], rfl, accepted_nil, rfl⟩

theorem Quiet.pure (a : α) : Quiet (pure a : Exec κ σ η α) := .of_envOnly (.pure a)

theorem Quiet.bind {x : Exec κ σ η α} {f : α → Exec κ σ η β} (hx : Quiet x)
    (hf : ∀ a, Quiet (f a)) : Quiet (x >>= f) := by
  intro s
  refine (wp_bind ..).mpr (wp_mono (hx s) ?_)
  rintro a s₁ ⟨hd₁, hs₁, new₁, ht₁, hacc₁, hab₁⟩
  refine wp_mono (hf a s₁) ?_
  rintro b s₂ ⟨hd₂, hs₂, new₂, ht₂, hacc₂, hab₂⟩
  refine ⟨hd₂.trans hd₁, hs₂.trans hs₁, new₂ ++ new₁, by rw [ht₂, ht₁, List.append_assoc], ?_, ?_⟩
  · intro e he
    rcases List.mem_append.mp he with he | he
    · exact hacc₂ e he
    · exact hacc₁ e he
  · rw [abandons_append]
    omega

theorem quiet_emit (e : ExecEvent κ η) (hpush : e ≠ .pushRefused) (hab : e.isAbandon = false) :
    Quiet (emit e : Exec κ σ η Unit) := by
  intro s
  refine ⟨rfl, rfl, [(s.negdepth, e)], rfl, ?_, by simp [abandons, hab]⟩
  intro e' he'
  rw [List.mem_singleton.mp he']
  exact hpush

theorem quiet_callback (f : σ → α × σ) : Quiet (callback f : Exec κ σ η α) :=
  .of_envOnly (envOnly_callback f)

theorem quiet_castStub (C : Callbacks κ σ η D) (stub : κ) (type : KeystubType) :
    Quiet (castStub C stub type) := .of_envOnly (envOnly_castStub C stub type)

theorem quiet_strdup : Quiet (strdup : Exec κ σ η ℕ) := by
  intro s
  refine ⟨rfl, rfl, [(s.negdepth, .strdup s.heap)], rfl, ?_, rfl⟩
  intro e he
  rw [List.mem_singleton.mp he]
  nofun

theorem quiet_setValues : ∀ (sets : List (SetValue D)) (val : LreValue D),
    Quiet (setValues sets val : Exec κ σ η (LreValue D))
  | [], _ => .pure _
  | .setInt _ :: sets, _ => quiet_setValues sets _
  | .setDouble _ :: sets, _ => quiet_setValues sets _
  | .setString _ :: sets, _ => quiet_setValues sets _
  | .dup2String _ :: sets, _ => quiet_strdup.bind fun _ => quiet_setValues sets _

theorem quiet_lreValueRelease (val : LreValue D) :
    Quiet (lreValueRelease val : Exec κ σ η Unit) := by
  unfold lreValueRelease
  split
  · exact .pure _
  · exact quiet_emit _ nofun rfl

variable {C : Callbacks κ σ η D} {R : Doubles D}

theorem quiet_valStep (opt : Sym) (arg tmparg : LreValue D) :
    Quiet (valStep R opt arg tmparg : Exec κ σ η (ValStep D)) :=
  .of_envOnly (envOnly_valStep R opt arg tmparg)

theorem quiet_construct (type : KeystubType) (stub : κ) : Quiet (construct C type stub) :=
  (quiet_castStub C stub type).bind fun _ => (quiet_callback _).bind fun handle =>
    (quiet_emit (.constructor stub handle) nofun rfl).bind fun _ => .pure _

theorem quiet_executeFuncExec (fstub : κ) (handle : η) :
    Quiet (executeFuncExec C fstub handle) := by
  unfold executeFuncExec
  split
  · exact .pure _
  · exact (quiet_callback _).bind fun ret =>
      (quiet_emit (.funcExec fstub handle ret) nofun rfl).bind fun _ => .pure _

theorem quiet_executeCallExec (cstub : κ) (handle : η) :
    Quiet (executeCallExec C cstub handle) := by
  unfold executeCallExec
  split
  · exact (quiet_emit .noExec nofun rfl).bind fun _ => .pure _
  · apply (quiet_callback _).bind
    rintro ⟨ret, sets⟩
    exact (quiet_emit (.callExec cstub handle ret) nofun rfl).bind fun _ =>
      (quiet_setValues sets .init).bind fun _ => .pure _

theorem quiet_executeVar (handle : η) (valstub : κ) : Quiet (executeVar C handle valstub) := by
  apply (quiet_castStub C valstub .var).bind
  intro _
  apply (quiet_callback _).bind
  rintro ⟨ret, sets⟩
  exact (quiet_emit (.varHandler valstub handle ret) nofun rfl).bind fun _ =>
    (quiet_setValues sets .init).bind fun _ => .pure _

/-! ## Calm states -/

/-- No push was refused, and the stack, which is within its memory, holds an object for each of the
`d` functions and calls around and for each call that was left early. -/
structure Calm (size d : ℕ) (s : ExecState κ σ η) : Prop where
  stackdepth : s.stackdepth = size
  accepted : Accepted s.trace
  length : s.stack.length = d + abandons s.trace
  bound : s.stack.length ≤ size / sizeofHandle

/-- From `s`, `x` returns to a calm state. -/
def Settles (size d : ℕ) (x : Exec κ σ η α) (s : ExecState κ σ η) : Prop :=
  wp (fun _ => True) x (fun _ s' => Calm size d s') s

variable {size d e : ℕ} {s : ExecState κ σ η}

theorem Quiet.settles {x : Exec κ σ η α} (hx : Quiet x) (hs : Calm size d s) :
    Settles size d x s := by
  apply wp_mono (hx s)
  rintro a s' ⟨hdepth, hstack, new, htrace, hacc, hab⟩
  refine ⟨hdepth.trans hs.stackdepth, ?_, ?_, hstack ▸ hs.bound⟩
  · intro e he
    rw [htrace] at he
    rcases List.mem_append.mp he with he | he
    · exact hacc e he
    · exact hs.accepted e he
  · rw [hstack, hs.length, htrace, abandons_append, hab, Nat.zero_add]

theorem Settles.bind {x : Exec κ σ η α} {f : α → Exec κ σ η β} (hx : Settles size d x s)
    (hf : ∀ a s', x s = .ok (a, s') → Calm size d s' → Settles size e (f a) s') :
    Settles size e (x >>= f) s := wp_bind_run hx hf

theorem Settles.bind_quiet {x : Exec κ σ η α} {f : α → Exec κ σ η β} (hx : Settles size d x s)
    (hf : ∀ a, Quiet (f a)) : Settles size d (x >>= f) s :=
  hx.bind fun a _ _ hs' => (hf a).settles hs'

theorem Calm.accepts (hs : Calm size d s) (hsize : defaultStacksSize ≤ size) :
    ¬s.stack.length + execStackGap ≥ s.stackdepth := by
  have hbound := hs.bound
  rw [hs.stackdepth]
  unfold defaultStacksSize at hsize
  unfold sizeofHandle at hbound
  unfold execStackGap
  omega

theorem settles_execCtxPushHandle (hsize : defaultStacksSize ≤ size) (hs : Calm size d s)
    (hroom : s.stack.length < size / sizeofHandle) (handle : η) :
    Settles size (d + 1) (execCtxPushHandle handle) s := by
  refine wp_execCtxPushHandle.mpr ?_
  rw [if_neg (hs.accepts hsize)]
  refine ⟨hs.stackdepth, hs.accepted, ?_, hroom⟩
  show s.stack.length + 1 = d + 1 + abandons s.trace
  rw [hs.length]
  omega

theorem settles_execCtxPopHandle (hs : Calm size (d + 1) s) :
    Settles size d (execCtxPopHandle : Exec κ σ η Unit) s := by
  refine wp_execCtxPopHandle.mpr ?_
  cases hst : s.stack with
  | nil => trivial
  | cons top stack =>
    have hlen := hs.length
    have hbound := hs.bound
    rw [hst, List.length_cons] at hlen hbound
    refine ⟨hs.stackdepth, hs.accepted, ?_, Nat.le_of_succ_le hbound⟩
    show stack.length = d + abandons s.trace
    omega

theorem settles_executeOut (hs : Calm size (d + 1) s) (stub : κ) (handle : η) :
    Settles size d (executeOut C stub handle) s := by
  unfold executeOut
  cases C.destructor stub with
  | none => exact settles_execCtxPopHandle hs
  | some f =>
    refine ((quiet_callback _).settles hs).bind fun _ s₁ _ hs₁ => ?_
    refine ((quiet_emit (.destructor stub handle) nofun rfl).settles hs₁).bind fun _ s₂ _ hs₂ => ?_
    exact settles_execCtxPopHandle hs₂

theorem settles_abandon (hs : Calm size (d + 1) s) :
    Settles size d (emit .abandon : Exec κ σ η Unit) s := by
  refine ⟨hs.stackdepth, ?_, ?_, hs.bound⟩
  · intro e he
    rcases List.mem_cons.mp he with rfl | he
    · nofun
    · exact hs.accepted e he
  · have hab : abandons ((s.negdepth, .abandon) :: s.trace) = abandons s.trace + 1 :=
      List.countP_cons_of_pos rfl
    have hlen := hs.length
    rw [hab]
    show s.stack.length = _
    omega

/-! ## Room -/

/-- The stack has at least the bytes it is created with, and there is room on it for the pushes
that an activation comes to in calm states. -/
structure Room (C : Callbacks κ σ η D) (R : Doubles D) (size : ℕ) (p : Activation κ σ η D) :
    Prop where
  created : defaultStacksSize ≤ size
  push : ∀ q, ComesTo C R p q → ∀ handle s, q.Pushes C handle s → Calm size q.depth s →
    s.stack.length < size / sizeofHandle

theorem Room.reaches {p q : Activation κ σ η D} (h : Room C R size p) (hpq : ComesTo C R p q) :
    Room C R size q := ⟨h.created, fun r hr => h.push r (hpq.trans hr)⟩

theorem Room.enters {p q : Activation κ σ η D} (h : Room C R size p) (hpq : Enters C R p q) :
    Room C R size q := h.reaches (.single hpq)

/-- The value of an argument or an expression starts with the innermost object. -/
theorem settles_getHandle {x : η → Exec κ σ η α} (hs : Calm size d s)
    (hx : ∀ handle, execCtxGetHandle s = .ok (handle, s) → Settles size d (x handle) s) :
    Settles size d (do let handle ← execCtxGetHandle; x handle) s := by
  refine ((Quiet.of_envOnly envOnly_execCtxGetHandle).settles hs).bind fun handle s' hget _ => ?_
  obtain rfl := execCtxGetHandle_ok hget
  exact hx handle hget

/-- An object from its constructor to its end. -/
theorem settles_object {a : Activation κ σ η D} {type : KeystubType} {stub : κ}
    (hroom : Room C R size a) (hobject : a.place.object? = some (type, stub))
    (hs : Calm size a.depth a.state) {inner : η → Exec κ σ η α} {close : η → α → Exec κ σ η β}
    {fail : β}
    (hinner : ∀ handle s₁ s₂, construct C type stub a.state = .ok (some handle, s₁) →
      execCtxPushHandle handle s₁ = .ok ((), s₂) → Calm size (a.depth + 1) s₂ →
      Settles size (a.depth + 1) (inner handle) s₂)
    (hclose : ∀ handle r s', Calm size (a.depth + 1) s' →
      Settles size a.depth (close handle r) s') :
    Settles size a.depth (do
      match ← construct C type stub with
      | none => return fail
      | some handle =>
        execCtxPushHandle handle
        let r ← inner handle
        close handle r) a.state := by
  refine ((quiet_construct type stub).settles hs).bind fun handle? s₁ hcons hs₁ => ?_
  cases handle? with
  | none => exact (Quiet.pure fail).settles hs₁
  | some handle =>
    have hlt := hroom.push a .refl handle s₁ ⟨type, stub, hobject, hcons⟩ hs₁
    have hsettles := settles_execCtxPushHandle hroom.created hs₁ hlt handle
    refine hsettles.bind fun _ s₂ hpush hs₂ => ?_
    refine (hinner handle s₁ s₂ hcons hpush hs₂).bind fun r s₃ _ hs₃ => ?_
    exact hclose handle r s₃ hs₃

/-! ## The evaluators -/

theorem settles_executeArg {handle : η} {astub : κ} {val : Exec κ σ η (ℤ × LreValue D)}
    (h : Settles size d val s) : Settles size d (executeArg C handle astub val) s := by
  refine h.bind_quiet fun p => ?_
  dsimp only
  split
  · exact .pure _
  · apply (quiet_castStub C astub .arg).bind
    intro _
    apply (quiet_callback _).bind
    intro ret
    apply (quiet_emit (.argHandler astub handle ret) nofun rfl).bind
    intro _
    split
    · exact .pure _
    · exact (quiet_lreValueRelease _).bind fun _ => .pure _

theorem settles_executeCallInner {cstub : κ} {handle : η} {args : Exec κ σ η (ℤ × ℤ)}
    (h : Settles size d args s) : Settles size d (executeCallInner C cstub handle args) s := by
  refine h.bind_quiet fun p => ?_
  dsimp only
  split
  · exact .pure _
  · split
    · exact .pure _
    · exact (quiet_executeCallExec cstub handle).bind fun _ => .pure _

theorem settles_executeFuncInner {fstub : κ} {handle : η} {args : Exec κ σ η (ℤ × ℤ)}
    {body : Exec κ σ η ℤ} (hargs : Settles size d args s)
    (hbody : ∀ s₃ s₄, args s = .ok ((0, lreRetOk), s₃) →
      executeFuncExec C fstub handle s₃ = .ok (0, s₄) → Calm size d s₄ → Settles size d body s₄) :
    Settles size d (executeFuncInner C fstub handle args body) s := by
  rw [executeFuncInner_eq]
  refine hargs.bind fun p s₃ hrun hs₃ => ?_
  dsimp only
  split
  case isTrue => exact (Quiet.pure _).settles hs₃
  case isFalse hok =>
    rw [not_or, not_not, not_not] at hok
    obtain ⟨valret, argret⟩ := p
    obtain ⟨rfl, rfl⟩ := hok
    refine ((quiet_executeFuncExec fstub handle).settles hs₃).bind fun ret s₄ hexec hs₄ => ?_
    split
    case isTrue => exact (Quiet.pure _).settles hs₄
    case isFalse hret =>
      rw [not_not] at hret
      rw [hret] at hexec
      exact hbody s₃ s₄ hrun hexec hs₄

mutual

theorem settles_executeOperand : ∀ (v : ResolvedVal κ) (handle : η) (d : ℕ) (s : ExecState κ σ η),
    Room C R size ⟨d, .operand handle v, s⟩ → Calm size d s →
      Settles size d (executeOperand C R handle v) s
  | .val _, _, _, _, _, hs => (Quiet.pure _).settles hs
  | .var valstub, handle, _, _, _, hs => (quiet_executeVar handle valstub).settles hs
  | .valblock childs, _, _, _, hroom, hs =>
    settles_getHandle hs fun handle hget =>
      settles_executeValLoop childs handle _ _ _ _ (hroom.enters (.valblock hget)) hs
  | .call keystub args, top, d, s, hroom, hs => by
    rw [executeOperand, executeCall_eq]
    refine settles_object hroom rfl hs (fun handle s₁ s₂ hcons hpush hs₂ => ?_) ?_
    · exact settles_executeCallInner
        (settles_executeArgs args handle _ _ (hroom.enters (.callArgs hcons hpush)) hs₂)
    · rintro handle ⟨returned, r⟩ s' hs'
      cases returned with
      | true => exact (settles_abandon hs').bind_quiet fun _ => .pure r
      | false => exact (settles_executeOut hs' keystub handle).bind_quiet fun _ => .pure r

theorem settles_executeValLoop : ∀ (vs : ResolvedVals κ) (handle : η) (opt : Sym)
    (arg : LreValue D) (d : ℕ) (s : ExecState κ σ η),
    Room C R size ⟨d, .valLoop handle vs opt arg, s⟩ → Calm size d s →
      Settles size d (executeValLoop C R handle vs opt arg) s
  | .nil, _, _, _, _, _, _, hs => (Quiet.pure _).settles hs
  | .cons node next rest, handle, opt, arg, d, s, hroom, hs => by
    rw [executeValLoop]
    have hnode := settles_executeOperand node handle d s (hroom.enters .valOperand) hs
    refine hnode.bind ?_
    rintro ⟨ret, tmparg⟩ s₁ hrun hs₁
    dsimp only
    unfold valNext
    split
    case isTrue =>
      exact ((quiet_emit .valError nofun rfl).bind fun _ => .pure _).settles hs₁
    case isFalse hret =>
      rw [not_not] at hret
      subst hret
      refine ((quiet_valStep opt arg tmparg).settles hs₁).bind fun step s₂ hstep hs₂ => ?_
      cases step with
      | error => exact ((quiet_emit .valError nofun rfl).bind fun _ => .pure _).settles hs₂
      | done arg' => exact (Quiet.pure _).settles hs₂
      | next arg' =>
        exact settles_executeValLoop rest handle next arg' d s₂
          (hroom.enters (.valRest hrun hstep)) hs₂

theorem settles_executeArgs : ∀ (args : ResolvedArgs κ) (handle : η) (d : ℕ)
    (s : ExecState κ σ η), Room C R size ⟨d, .args handle args, s⟩ → Calm size d s →
      Settles size d (executeArgs C R handle args) s
  | .nil, _, _, _, _, hs => (Quiet.pure _).settles hs
  | .cons keystub valchilds rest, handle, d, s, hroom, hs => by
    rw [executeArgs]
    have hval : Settles size d (executeSyntaxVal C R valchilds) s :=
      settles_getHandle hs fun top hget =>
        settles_executeValLoop valchilds top _ _ d s (hroom.enters (.argsVal hget)) hs
    refine (settles_executeArg hval).bind ?_
    rintro ⟨valret, argret⟩ s₁ hrun hs₁
    dsimp only
    split
    case isTrue => exact (Quiet.pure _).settles hs₁
    case isFalse hok =>
      rw [not_or, not_not, not_not] at hok
      obtain ⟨rfl, rfl⟩ := hok
      exact settles_executeArgs rest handle d s₁ (hroom.enters (.argsRest hrun)) hs₁

end

theorem settles_executeSyntaxExpr {estub : κ} {opt : Sym} {valchilds : ResolvedVals κ}
    (hroom : Room C R size ⟨d, .item (.expr estub opt valchilds), s⟩) (hs : Calm size d s) :
    Settles size d (executeSyntaxExpr C R estub opt valchilds) s := by
  refine settles_getHandle hs fun handle _ => ?_
  have hval : Settles size d (executeSyntaxVal C R valchilds) s :=
    settles_getHandle hs fun top hget =>
      settles_executeValLoop valchilds top _ _ d s (hroom.enters (.expr hget)) hs
  refine hval.bind_quiet fun p => ?_
  dsimp only
  split
  · exact .pure _
  · apply (quiet_castStub C estub .expr).bind
    intro _
    apply (quiet_callback _).bind
    intro ret
    apply (quiet_emit (.exprHandler estub handle ret) nofun rfl).bind
    intro _
    split
    · exact .pure _
    · exact (quiet_lreValueRelease _).bind fun _ => .pure _

theorem Calm.negdepth (hs : Calm size d s) (n : ℕ) : Calm size d { s with negdepth := n } :=
  ⟨hs.stackdepth, hs.accepted, hs.length, hs.bound⟩

theorem settles_executeBlock {negative : Bool} {childs : Exec κ σ η ℤ} (h : Settles size d childs
      (if negative then { s with negdepth := s.negdepth + 1 } else s)) :
    Settles size d (executeBlock negative childs) s := by
  cases negative with
  | false => exact h
  | true =>
    have hneg : Settles size d (negated childs) s := by
      refine wp_negated.mpr (wp_mono h ?_)
      intro ret s' hs'
      exact hs'.negdepth s.negdepth
    exact hneg.bind_quiet fun _ => .pure _

mutual

theorem settles_executeItem : ∀ (node : ResolvedItem κ) (d : ℕ) (s : ExecState κ σ η),
    Room C R size ⟨d, .item node, s⟩ → Calm size d s → Settles size d (executeItem C R node) s
  | .func keystub args body, d, s, hroom, hs => by
    rw [executeItem, executeFunc_eq]
    refine settles_object hroom rfl hs (fun handle s₁ s₂ hcons hpush hs₂ => ?_) ?_
    · have hargs := settles_executeArgs args handle (d + 1) s₂
        (hroom.enters (.funcArgs hcons hpush)) hs₂
      refine settles_executeFuncInner hargs fun s₃ s₄ hrun hexec hs₄ => ?_
      exact settles_executeChildsLoop body _ _ (d + 1) s₄
        (hroom.enters (.funcBody hcons hpush hrun hexec)) hs₄
    · intro handle ret s' hs'
      exact (settles_executeOut hs' keystub handle).bind_quiet fun _ => .pure ret
  | .block negative childs, d, s, hroom, hs => by
    refine settles_executeBlock ?_
    refine settles_executeChildsLoop childs _ _ d _ (hroom.enters .block) ?_
    split
    · exact hs.negdepth _
    · exact hs
  | .expr _ _ _, _, _, hroom, hs => settles_executeSyntaxExpr hroom hs

theorem settles_executeChildsLoop : ∀ (items : ResolvedItems κ) (opt : Sym) (res : ℤ) (d : ℕ)
    (s : ExecState κ σ η), Room C R size ⟨d, .childsLoop items opt res, s⟩ → Calm size d s →
      Settles size d (executeChildsLoop C R items opt res) s
  | .nil, _, _, _, _, _, hs => by
    rw [executeChildsLoop]
    split
    · exact ((quiet_emit .listError nofun rfl).bind fun _ => .pure _).settles hs
    · exact (Quiet.pure _).settles hs
  | .cons node next rest, opt, res, d, s, hroom, hs => by
    rw [executeChildsLoop]
    refine (settles_executeItem node d s (hroom.enters .childsNode) hs).bind
      fun ret s₁ hrun hs₁ => ?_
    unfold childsNext
    split
    case isTrue => exact (Quiet.pure _).settles hs₁
    case isFalse hvalid =>
      split
      · exact ((quiet_emit .listError nofun rfl).bind fun _ => .pure _).settles hs₁
      · rename_i res' hres
        split
        case isTrue => exact (Quiet.pure _).settles hs₁
        case isFalse hstop =>
          refine settles_executeChildsLoop rest next res' d s₁ (hroom.enters ?_) hs₁
          exact .childsRest hrun (by simpa using hvalid) hres (by simpa using hstop)

end

/-! ## Reached activations -/

theorem Room.calm_push {a : Activation κ σ η D} {type : KeystubType} {stub : κ} {handle : η}
    {s₁ s₂ : ExecState κ σ η} (hroom : Room C R size a)
    (hobject : a.place.object? = some (type, stub)) (hs : Calm size a.depth a.state)
    (hcons : construct C type stub a.state = .ok (some handle, s₁))
    (hpush : execCtxPushHandle handle s₁ = .ok ((), s₂)) : Calm size (a.depth + 1) s₂ := by
  have hs₁ := ((quiet_construct type stub).settles hs).of_ok hcons
  have hlt := hroom.push a .refl handle s₁ ⟨type, stub, hobject, hcons⟩ hs₁
  exact (settles_execCtxPushHandle hroom.created hs₁ hlt handle).of_ok hpush

theorem Enters.calm {p q : Activation κ σ η D} (he : Enters C R p q) (hroom : Room C R size p)
    (hp : Calm size p.depth p.state) : Calm size q.depth q.state := by
  cases he with
  | childsNode => exact hp
  | childsRest hnode =>
    exact (settles_executeItem _ _ _ (hroom.enters .childsNode) hp).of_ok hnode
  | block =>
    dsimp only
    split
    · exact hp.negdepth _
    · exact hp
  | expr => exact hp
  | funcArgs hcons hpush => exact hroom.calm_push rfl hp hcons hpush
  | funcBody hcons hpush hargs hexec =>
    have hs₂ := hroom.calm_push rfl hp hcons hpush
    have hs₃ := (settles_executeArgs _ _ _ _ (hroom.enters (.funcArgs hcons hpush)) hs₂).of_ok hargs
    exact ((quiet_executeFuncExec _ _).settles hs₃).of_ok hexec
  | callArgs hcons hpush => exact hroom.calm_push rfl hp hcons hpush
  | valblock => exact hp
  | argsVal => exact hp
  | argsRest harg =>
    refine (settles_executeArg (settles_getHandle hp fun top hget => ?_)).of_ok harg
    exact settles_executeValLoop _ _ _ _ _ _ (hroom.enters (.argsVal hget)) hp
  | valOperand => exact hp
  | valMeet hnode =>
    exact (settles_executeOperand _ _ _ _ (hroom.enters .valOperand) hp).of_ok hnode
  | valRest hnode hmeet =>
    have hs' := (settles_executeOperand _ _ _ _ (hroom.enters .valOperand) hp).of_ok hnode
    exact ((quiet_valStep _ _ _).settles hs').of_ok hmeet

/-- **What a calm activation with room comes to is calm.** -/
theorem ComesTo.calm {p q : Activation κ σ η D} (hpq : ComesTo C R p q) (hroom : Room C R size p)
    (hp : Calm size p.depth p.state) : Calm size q.depth q.state := by
  induction hpq with
  | refl => exact hp
  | tail hpq he ih => exact he.calm (hroom.reaches hpq) ih

theorem Activation.Pushes.calm {a : Activation κ σ η D} {handle : η}
    (h : a.Pushes C handle s) (ha : Calm size a.depth a.state) : Calm size a.depth s := by
  obtain ⟨type, stub, -, hcons⟩ := h
  exact ((quiet_construct type stub).settles ha).of_ok hcons

theorem calm_start (size : ℕ) (tree : ResolvedItems κ) (env : σ) :
    Calm size 0 (Activation.start (η := η) (D := D) size tree env).state :=
  ⟨rfl, accepted_nil, rfl, Nat.zero_le _⟩

/-- **The handles of an execution are stored below the end of their stack, or their pushes are
refused and the failures contained, exactly when the functions and calls around each push and the
calls that were left early before it are fewer than the stack has entries.** -/
theorem interpExecute_pushSafe_iff (C : Callbacks κ σ η D) (R : Doubles D) {stacksize : ℕ}
    (hsize : defaultStacksSize ≤ stacksize) (tree : ResolvedItems κ) (env : σ) :
    (∀ a, ComesTo C R (.start stacksize tree env) a → ∀ handle s, a.Pushes C handle s →
      PushSafe C R stacksize a handle s) ↔
    ∀ a, ComesTo C R (.start stacksize tree env) a → ∀ handle s, a.Pushes C handle s →
      a.depth + abandons s.trace < stacksize / sizeofHandle := by
  have hstart := calm_start (η := η) (D := D) stacksize tree env
  constructor
  · intro h a ha handle s hpush
    have hroom : Room C R stacksize (.start stacksize tree env) := by
      refine ⟨hsize, fun q hq handle s hpush hs => ?_⟩
      have hsafe := h q hq handle s hpush
      rwa [PushSafe, if_neg (hs.accepts hsize)] at hsafe
    have hs := hpush.calm (ha.calm hroom hstart)
    rw [← hs.length]
    exact hroom.push a ha handle s hpush hs
  · intro h a ha handle s hpush
    have hroom : Room C R stacksize (.start stacksize tree env) := by
      refine ⟨hsize, fun q hq handle s hpush hs => ?_⟩
      rw [hs.length]
      exact h q hq handle s hpush
    have hs := hpush.calm (ha.calm hroom hstart)
    rw [PushSafe, if_neg (hs.accepts hsize)]
    exact hroom.push a ha handle s hpush hs

/-! ## Nested functions -/

/-- `n + 1` functions, each but the innermost with the next one in its body. -/
def nest : ℕ → ResolvedItem KeystubType
  | 0 => .func .func .nil (ResolvedItem.expr .expr .equal oneVal).single
  | n + 1 => .func .func .nil (nest n).single

/-- The state inside `n` of them. -/
def nestState (n : ℕ) : ExecState KeystubType Unit Unit :=
  ⟨(), List.replicate n (), defaultStacksSize, 0,
    List.replicate n (0, .constructor .func (some ())), 0⟩

/-- The state before the push of the next one. -/
def nestPush (n : ℕ) : ExecState KeystubType Unit Unit :=
  { nestState n with trace := (nestState (n + 1)).trace }

theorem construct_nest (n : ℕ) :
    construct sampleCallbacks .func .func (nestState n) = .ok (some (), nestPush n) := by
  rw [nestPush, nestState, nestState, List.replicate_succ]
  rfl

theorem execCtxPushHandle_nest {n : ℕ} (hn : n < 1024) :
    execCtxPushHandle () (nestPush n) = .ok ((), nestState (n + 1)) := by
  have hlen : (nestPush n).stack.length = n := List.length_replicate
  have hdepth : (nestPush n).stackdepth = 8192 := rfl
  have haccept : ¬(nestPush n).stack.length + execStackGap ≥ (nestPush n).stackdepth := by
    rw [hlen, hdepth, execStackGap]
    omega
  rw [execCtxPushHandle, if_neg haccept]
  rfl

/-- Inside `k` of the functions. -/
def nestInside (n k : ℕ) : Activation KeystubType Unit Unit Unit := ⟨k, .item (nest n), nestState k⟩

theorem reaches_nest (m : ℕ) : ∀ k n, k ≤ 1024 → k + n = m →
    ComesTo sampleCallbacks unitDoubles (.start defaultStacksSize (nest m).single ())
      (nestInside n k)
  | 0, n, _, hn => by
    obtain rfl : n = m := by omega
    exact .single .childsNode
  | k + 1, n, hk, hn => by
    have hbody : Enters sampleCallbacks unitDoubles (nestInside (n + 1) k)
        ⟨k + 1, .childsLoop (nest n).single .reserved valUninitialized, nestState (k + 1)⟩ :=
      .funcBody (construct_nest k) (execCtxPushHandle_nest (by omega)) rfl rfl
    exact ((reaches_nest m k (n + 1) (by omega) (by omega)).tail hbody).tail .childsNode

theorem nestInside_object? (n k : ℕ) : (nestInside n k).place.object? = some (.func, .func) := by
  cases n <;> rfl

theorem nest_pushes (n k : ℕ) : (nestInside n k).Pushes sampleCallbacks () (nestPush k) :=
  ⟨.func, .func, nestInside_object? n k, construct_nest k⟩

theorem nest_pushSafe_iff {k : ℕ} (hk : k ≤ 1024) (n : ℕ) :
    PushSafe sampleCallbacks unitDoubles defaultStacksSize (nestInside n k) () (nestPush k) ↔
      k < 1024 := by
  have hlen : (nestPush k).stack.length = k := List.length_replicate
  have hdepth : (nestPush k).stackdepth = 8192 := rfl
  have haccept : ¬(nestPush k).stack.length + execStackGap ≥ (nestPush k).stackdepth := by
    rw [hlen, hdepth, execStackGap]
    omega
  rw [PushSafe, if_neg haccept, hlen, defaultStacksSize, sizeofHandle]

/-- In `1025` nested functions the innermost handle is stored behind the end of the stack. -/
theorem nest_not_pushSafe :
    ¬∀ (stacksize : ℕ) (tree : ResolvedItems KeystubType), defaultStacksSize ≤ stacksize →
      ∀ a, ComesTo sampleCallbacks unitDoubles (.start stacksize tree ()) a →
        ∀ handle s, a.Pushes sampleCallbacks handle s →
          PushSafe sampleCallbacks unitDoubles stacksize a handle s := by
  intro hall
  obtain ⟨k, hk⟩ : ∃ k, k = 1024 := ⟨_, rfl⟩
  have hreach := reaches_nest k k 0 hk.le rfl
  have hsafe := hall _ _ (Nat.le_refl _) _ hreach () _ (nest_pushes 0 k)
  have hlt := (nest_pushSafe_iff hk.le 0).mp hsafe
  omega

/-- Pieces of the executor around `e==1`, which push nothing. -/
def Place.Plain : Place KeystubType Unit Unit → Prop
  | .item (.expr _ _ vs) => vs = oneVal
  | .item _ => False
  | .childsLoop items _ _ =>
    items = .nil ∨ items = (ResolvedItem.expr .expr .equal oneVal).single
  | .args _ list => list = .nil
  | .valLoop _ vs _ _ => vs = .nil ∨ vs = oneVal
  | .operand _ node => node = .val (.ident ['1'])
  | .meet _ _ _ => True

theorem Enters.plain {p q : Activation KeystubType Unit Unit Unit}
    (h : Enters sampleCallbacks unitDoubles p q) (hp : p.place.Plain) : q.place.Plain := by
  cases h with
  | childsNode =>
    obtain hp | hp := hp <;> cases hp
    exact rfl
  | childsRest =>
    obtain hp | hp := hp <;> cases hp
    exact .inl rfl
  | block => exact hp.elim
  | expr => exact .inr hp
  | funcArgs => exact hp.elim
  | funcBody => exact hp.elim
  | callArgs => cases hp
  | valblock => cases hp
  | argsVal => cases hp
  | argsRest => cases hp
  | valOperand =>
    obtain hp | hp := hp <;> cases hp
    exact rfl
  | valMeet => trivial
  | valRest =>
    obtain hp | hp := hp <;> cases hp
    exact .inl rfl

theorem Place.Plain.object? {place : Place KeystubType Unit Unit} (h : place.Plain) :
    place.object? = none := by
  cases place with
  | item node =>
    cases node with
    | expr => rfl
    | func => exact h.elim
    | block => exact h.elim
  | operand top node =>
    cases h
    rfl
  | _ => rfl

/-- What an execution of `m + 1` nested functions comes to. -/
def NestPart (m : ℕ) (a : Activation KeystubType Unit Unit Unit) : Prop :=
  a.place.Plain ∨ ∃ k n, k + n = m ∧ (a = nestInside n k ∨
    a = ⟨k, .childsLoop (nest n).single .reserved valUninitialized, nestState k⟩)

theorem Enters.nestPart {m : ℕ} (hm : m < 1024) {p q : Activation KeystubType Unit Unit Unit}
    (h : Enters sampleCallbacks unitDoubles p q) (hp : NestPart m p) : NestPart m q := by
  obtain hplain | ⟨k, n, hk, rfl | rfl⟩ := hp
  · exact .inl (h.plain hplain)
  · have hpush : ∀ handle s₁ s₂, construct sampleCallbacks .func .func (nestState k) =
        .ok (some handle, s₁) → execCtxPushHandle handle s₁ = .ok ((), s₂) →
        s₂ = nestState (k + 1) := by
      intro handle s₁ s₂ hcons hpush
      rw [construct_nest] at hcons
      cases hcons
      rw [execCtxPushHandle_nest (by omega)] at hpush
      cases hpush
      rfl
    cases n with
    | zero =>
      cases h with
      | funcArgs => exact .inl rfl
      | funcBody => exact .inl (.inr rfl)
    | succ n =>
      cases h with
      | funcArgs => exact .inl rfl
      | funcBody hcons hpushed hargs hexec =>
        obtain rfl := hpush _ _ _ hcons hpushed
        cases hargs
        cases hexec
        exact .inr ⟨k + 1, n, by omega, .inr rfl⟩
  · cases h with
    | childsNode => exact .inr ⟨k, n, hk, .inl rfl⟩
    | childsRest => exact .inl (.inl rfl)

theorem nest_depth_lt {m : ℕ} (hm : m < 1024) : ∀ a,
    ComesTo sampleCallbacks unitDoubles (.start defaultStacksSize (nest m).single ()) a →
      ∀ handle s, a.Pushes sampleCallbacks handle s → a.depth + abandons s.trace < 1024 := by
  intro a ha
  have hpart : NestPart m a := by
    induction ha with
    | refl => exact .inr ⟨0, m, Nat.zero_add m, .inr rfl⟩
    | tail _ he ih => exact he.nestPart hm ih
  intro handle s hpush
  obtain ⟨type, stub, hobject, hcons⟩ := hpush
  obtain hplain | ⟨k, n, hk, rfl | rfl⟩ := hpart
  · rw [hplain.object?] at hobject
    cases hobject
  · rw [nestInside_object?] at hobject
    cases hobject
    cases (construct_nest k).symm.trans hcons
    have hquiet : abandons (nestPush k).trace = 0 := by
      refine List.countP_eq_zero.mpr fun e he => ?_
      rw [List.eq_of_mem_replicate he]
      exact Bool.false_ne_true
    rw [hquiet]
    show k + 0 < 1024
    omega
  · cases hobject

/-- In `1024` nested functions every handle is stored within the stack, the last one in its last
entry. -/
theorem interpExecute_pushSafe_nest :
    (∃ a, ComesTo sampleCallbacks unitDoubles
        (.start defaultStacksSize (nest 1023).single ()) a ∧
      a.depth = 1023 ∧ a.Pushes sampleCallbacks () (nestPush 1023)) ∧
    ∀ a, ComesTo sampleCallbacks unitDoubles
        (.start defaultStacksSize (nest 1023).single ()) a →
      ∀ handle s, a.Pushes sampleCallbacks handle s →
        PushSafe sampleCallbacks unitDoubles defaultStacksSize a handle s :=
  ⟨⟨nestInside 0 1023, reaches_nest 1023 1023 0 (by decide) rfl, rfl, nest_pushes 0 1023⟩,
    (interpExecute_pushSafe_iff sampleCallbacks unitDoubles (le_refl _) (nest 1023).single ()).mpr
      (nest_depth_lt (by decide))⟩

end Lre
