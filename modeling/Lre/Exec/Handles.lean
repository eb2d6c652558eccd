import Lre.Nesting
import Lre.Exec.Sequential

/-!
# The handle stack

* `lifecycle`: the discipline of objects. A scope is an object with the stub that constructed it;
  it opens with the constructor and closes with the destructor of that stub, when there is one.
* `Handled`: what an evaluator does to the stack and which trace it leaves.
* `stack_length`: without refused pushes the stack grows by the number of calls left early.
* **`evaluator_lifecycle_iff`**: the discipline is kept exactly when no call is left early.
-/

namespace Lre

open Run Discipline

variable {κ σ η D α β : Type}

/-! ## Traces -/

/-- The events that concern an object. -/
def ExecEvent.visible : ExecEvent κ η → Bool
  | .constructor .. | .argHandler .. | .funcExec .. | .callExec .. | .exprHandler ..
  | .varHandler .. | .destructor .. => true
  | _ => false

/-- The object a handler or an exec callback is called with. -/
def ExecEvent.handle? : ExecEvent κ η → Option η
  | .argHandler _ h _ | .funcExec _ h _ | .callExec _ h _ | .exprHandler _ h _
  | .varHandler _ h _ => some h
  | _ => none

def ExecEvent.isAbandon : ExecEvent κ η → Bool
  | .abandon => true
  | _ => false

/-- The discipline of objects. -/
def lifecycle (C : Callbacks κ σ η D) : Discipline (ExecEvent κ η) (κ × η) η where
  opens w := .constructor w.1 (some w.2)
  closes w := if (C.destructor w.1).isSome then [.destructor w.1 w.2] else []
  obj w := w.2
  uses := ExecEvent.handle?
  idle e := ∃ stub, e = .constructor stub none

/-- The events of a piece of the trace that concern objects, in the order they happened. -/
def chron (new : List (ℕ × ExecEvent κ η)) : List (ExecEvent κ η) :=
  (new.reverse.map Prod.snd).filter ExecEvent.visible

/-- The calls left early in a piece of the trace. -/
def abandons (new : List (ℕ × ExecEvent κ η)) : ℕ := new.countP fun e => e.2.isAbandon

/-- No push is refused in a piece of the trace. -/
def Accepted (new : List (ℕ × ExecEvent κ η)) : Prop := ∀ e ∈ new, e.2 ≠ .pushRefused

theorem chron_append (new₁ new₂ : List (ℕ × ExecEvent κ η)) :
    chron (new₂ ++ new₁) = chron new₁ ++ chron new₂ := by simp [chron]

theorem abandons_append (new₁ new₂ : List (ℕ × ExecEvent κ η)) :
    abandons (new₂ ++ new₁) = abandons new₂ + abandons new₁ := List.countP_append

theorem chron_eq_nil {new : List (ℕ × ExecEvent κ η)} (h : ∀ e ∈ new, e.2.visible = false) :
    chron new = [] := by
  simpa [chron] using fun a b hb => h (b, a) hb

/-! ## The effect of an evaluator -/

/-- When `P` holds of the innermost object, `x` leaves the stack as it found it and a well-nested
trace, unless it leaves a call early. -/
def Handled (C : Callbacks κ σ η D) (P : Option η → Prop) (x : Exec κ σ η α) : Prop :=
  ∀ s, wp (fun _ => True) x (fun _ s' => ∃ new, s'.trace = new ++ s.trace ∧ (Accepted new →
    s'.stack.length = s.stack.length + abandons new ∧ (abandons new = 0 → P s.stack.head? →
      s'.stack = s.stack ∧ (lifecycle C).Nested s.stack.head? (chron new)))) s

variable {C : Callbacks κ σ η D} {P : Option η → Prop}

theorem Handled.bind {x : Exec κ σ η α} {f : α → Exec κ σ η β} (hx : Handled C P x)
    (hf : ∀ a, Handled C P (f a)) : Handled C P (x >>= f) := by
  intro s
  refine (wp_bind ..).mpr (wp_mono (hx s) ?_)
  rintro a s₁ ⟨new₁, ht₁, h₁⟩
  refine wp_mono (hf a s₁) ?_
  rintro b s₂ ⟨new₂, ht₂, h₂⟩
  refine ⟨new₂ ++ new₁, by rw [ht₂, ht₁, List.append_assoc], fun hacc => ?_⟩
  obtain ⟨hlen₁, hok₁⟩ := h₁ fun e he => hacc e (List.mem_append_right _ he)
  obtain ⟨hlen₂, hok₂⟩ := h₂ fun e he => hacc e (List.mem_append_left _ he)
  rw [abandons_append]
  refine ⟨by omega, fun hab hP => ?_⟩
  obtain ⟨hs₁, hn₁⟩ := hok₁ (by omega) hP
  obtain ⟨hs₂, hn₂⟩ := hok₂ (by omega) (hs₁ ▸ hP)
  rw [hs₁] at hs₂ hn₂
  rw [chron_append]
  exact ⟨hs₂, hn₁.append hn₂⟩

theorem Handled.mono {x : Exec κ σ η α} {P' : Option η → Prop} (h : Handled C P' x)
    (hP : ∀ top, P top → P' top) : Handled C P x := by
  intro s
  refine wp_mono (h s) ?_
  rintro a s' ⟨new, ht, hok⟩
  exact ⟨new, ht, fun hacc => ⟨(hok hacc).1, fun hab hp => (hok hacc).2 hab (hP _ hp)⟩⟩

theorem Handled.of_inert {x : Exec κ σ η α} (hx : Inert x) : Handled C P x := by
  intro s
  refine wp_mono (hx s) ?_
  rintro a s' ⟨-, hs, new, ht, hn⟩
  have hab : abandons new = 0 := by
    refine List.countP_eq_zero.mpr fun e he => ?_
    have := (hn e he).2
    cases h : e.2 <;> simp_all [ExecEvent.IsHeap, ExecEvent.isAbandon]
  have hch : chron new = [] := by
    refine chron_eq_nil fun e he => ?_
    have := (hn e he).2
    cases h : e.2 <;> simp_all [ExecEvent.IsHeap, ExecEvent.visible]
  exact ⟨new, ht, fun _ => ⟨by rw [hs, hab, Nat.add_zero], fun _ _ => ⟨hs, hch ▸ .nil⟩⟩⟩

theorem sequential_handled :
    Sequential fun (β : Type) (x : Exec κ σ η β) => Handled C P x := ⟨.of_inert, .bind⟩

theorem Handled.pure {a : α} : Handled C P (pure a : Exec κ σ η α) := .of_inert (.pure a)

theorem handled_emit_hidden {e : ExecEvent κ η} (hv : e.visible = false)
    (hab : e.isAbandon = false) : Handled C P (emit e : Exec κ σ η Unit) := by
  refine fun s => ⟨[(s.negdepth, e)], rfl, fun _ => ?_⟩
  simp [abandons, hab, chron, hv, Nested.nil]

theorem handled_emit_use {e : ExecEvent κ η} {handle : η} (he : e.handle? = some handle) :
    Handled C (· = some handle) (emit e : Exec κ σ η Unit) := by
  refine fun s => ⟨[(s.negdepth, e)], rfl, fun _ => ?_⟩
  have hv : e.visible = true := by cases e <;> simp_all [ExecEvent.handle?, ExecEvent.visible]
  have hab : e.isAbandon = false := by
    cases e <;> simp_all [ExecEvent.handle?, ExecEvent.isAbandon]
  refine ⟨by simp [abandons, hab], fun _ hP => ⟨rfl, ?_⟩⟩
  simp only at hP
  rw [hP]
  simpa [chron, hv] using Nested.use he .nil

/-! ## The life of an object -/

/-- `x` ends the life of the innermost object: it pops it after its destructor, or leaves it on
the stack and leaves the call early. -/
def Closes (C : Callbacks κ σ η D) (stub : κ) (handle : η) (x : Exec κ σ η α) : Prop :=
  ∀ s, wp (fun _ => True) x (fun _ s' => ∃ new, s'.trace = new ++ s.trace ∧
    (s'.stack.length + 1 = s.stack.length ∧ s'.stack = s.stack.tail ∧ abandons new = 0 ∧
        chron new = (lifecycle C).closes (stub, handle) ∨
      s'.stack = s.stack ∧ abandons new = 1)) s

theorem closes_executeOut (stub : κ) (handle : η) :
    Closes C stub handle (executeOut C stub handle) := by
  intro s
  unfold executeOut
  cases hd : C.destructor stub with
  | none =>
    refine wp_execCtxPopHandle.mpr ?_
    cases hs : s.stack with
    | nil => trivial
    | cons top stack =>
      exact ⟨[], rfl, .inl ⟨by simp, rfl, rfl, by simp [lifecycle, hd, chron]⟩⟩
  | some f =>
    simp only [wp_bind, wp_callback, wp_emit, wp_execCtxPopHandle]
    cases hs : s.stack with
    | nil => trivial
    | cons top stack =>
      exact ⟨[(s.negdepth, .destructor stub handle)], rfl, .inl ⟨by simp, rfl,
        by simp [abandons, ExecEvent.isAbandon],
        by simp [lifecycle, hd, chron, ExecEvent.visible]⟩⟩

theorem closes_emit_abandon (stub : κ) (handle : η) :
    Closes C stub handle (emit .abandon : Exec κ σ η Unit) :=
  fun s => ⟨[(s.negdepth, .abandon)], rfl, .inr ⟨rfl, rfl⟩⟩

theorem Closes.bind_pure {stub : κ} {handle : η} {x : Exec κ σ η α} {b : β}
    (h : Closes C stub handle x) : Closes C stub handle (do let _ ← x; return b) :=
  fun s => (wp_bind ..).mpr (wp_mono (h s) fun _ _ h => h)

/-- **An object from its constructor to its destructor.** -/
theorem handled_object {stub : κ} {handle : η} {inner : Exec κ σ η α} {close : α → Exec κ σ η β}
    (hinner : Handled C (· = some handle) inner) (hclose : ∀ a, Closes C stub handle (close a)) :
    Handled C P (do
      emit (.constructor stub (some handle))
      execCtxPushHandle handle
      let a ← inner
      close a) := by
  intro s
  simp only [wp_bind, wp_emit, wp_execCtxPushHandle]
  split
  · -- the push is refused: only the growth of the trace is left to show
    refine wp_mono (hinner _) ?_
    rintro a s₂ ⟨new₂, ht₂, -⟩
    refine wp_mono (hclose a s₂) ?_
    rintro b s₃ ⟨new₃, ht₃, -⟩
    refine ⟨new₃ ++ (new₂ ++ [(s.negdepth, .pushRefused),
      (s.negdepth, .constructor stub (some handle))]), by simp [ht₃, ht₂], fun hacc => ?_⟩
    exact absurd rfl (hacc (s.negdepth, .pushRefused) (by simp))
  · refine wp_mono (hinner _) ?_
    rintro a s₂ ⟨new₂, ht₂, h₂⟩
    refine wp_mono (hclose a s₂) ?_
    rintro b s₃ ⟨new₃, ht₃, h₃⟩
    refine ⟨new₃ ++ (new₂ ++ [(s.negdepth, .constructor stub (some handle))]),
      by simp [ht₃, ht₂], fun hacc => ?_⟩
    obtain ⟨hlen₂, hok₂⟩ := h₂ fun e he => hacc e (by simp [he])
    have hab : abandons (new₃ ++ (new₂ ++ [(s.negdepth, .constructor stub (some handle))])) =
        abandons new₃ + abandons new₂ := by
      simp [abandons, ExecEvent.isAbandon]
    simp only [List.length_cons, List.head?_cons] at hlen₂ hok₂
    rw [hab]
    rcases h₃ with ⟨hlen₃, hs₃, hab₃, hch₃⟩ | ⟨hs₃, hab₃⟩
    · refine ⟨by omega, fun hzero _ => ?_⟩
      obtain ⟨hs₂, hn₂⟩ := hok₂ (by omega) trivial
      refine ⟨by rw [hs₃, hs₂, List.tail_cons], ?_⟩
      have hch : chron (new₃ ++ (new₂ ++ [(s.negdepth, .constructor stub (some handle))])) =
          (lifecycle C).opens (stub, handle) ::
            (chron new₂ ++ ((lifecycle C).closes (stub, handle) ++ [])) := by
        rw [chron_append, chron_append, hch₃, List.append_nil, List.append_assoc]
        rfl
      rw [hch]
      exact .scope (stub, handle) hn₂ .nil
    · refine ⟨by rw [hs₃]; omega, fun hzero _ => by omega⟩

/-! ## The evaluators -/

variable {R : Doubles D}

theorem handled_emit_failed (stub : κ) :
    Handled C P (emit (.constructor stub none) : Exec κ σ η Unit) := by
  refine fun s => ⟨[(s.negdepth, .constructor stub none)], rfl, fun _ => ?_⟩
  refine ⟨by simp [abandons, ExecEvent.isAbandon], fun _ _ => ⟨rfl, ?_⟩⟩
  exact .idle ⟨stub, rfl⟩ .nil

theorem handled_executeCall {cstub : κ} {args : η → Exec κ σ η (ℤ × ℤ)}
    (hargs : ∀ handle, Handled C (· = some handle) (args handle)) :
    Handled C P (executeCall C cstub args) := by
  refine (Handled.of_inert (inert_castStub _ _ _)).bind fun _ => ?_
  refine (Handled.of_inert (inert_callback _)).bind fun handle => ?_
  cases handle with
  | none => exact (handled_emit_failed cstub).bind fun _ => .pure
  | some handle =>
    refine handled_object (sequential_handled.executeCallInner (handled_emit_hidden rfl rfl)
      (fun _ => handled_emit_use rfl) (hargs handle)) fun ⟨returned, r⟩ => ?_
    cases returned with
    | true => exact (closes_emit_abandon cstub handle).bind_pure
    | false => exact (closes_executeOut cstub handle).bind_pure

theorem handled_executeFunc {fstub : κ} {args : η → Exec κ σ η (ℤ × ℤ)} {body : Exec κ σ η ℤ}
    (hargs : ∀ handle, Handled C (· = some handle) (args handle))
    (hbody : Handled C (fun _ => True) body) :
    Handled C P (executeFunc C fstub args body) := by
  refine (Handled.of_inert (inert_castStub _ _ _)).bind fun _ => ?_
  refine (Handled.of_inert (inert_callback _)).bind fun handle => ?_
  cases handle with
  | none => exact (handled_emit_failed fstub).bind fun _ => .pure
  | some handle =>
    exact handled_object (sequential_handled.executeFuncInner (fun _ => handled_emit_use rfl)
      (hargs handle) (hbody.mono fun _ _ => trivial))
      fun ret => (closes_executeOut fstub handle).bind_pure

theorem handled_getHandle {x : η → Exec κ σ η α}
    (h : ∀ handle, Handled C (· = some handle) (x handle)) :
    Handled C P (do let handle ← execCtxGetHandle; x handle) := by
  intro s
  simp only [wp_bind, wp_execCtxGetHandle]
  cases hs : s.stack with
  | nil => trivial
  | cons handle stack =>
    refine wp_mono (h handle s) ?_
    rintro a s' ⟨new, ht, hok⟩
    rw [hs] at hok
    exact ⟨new, ht, fun hacc => ⟨(hok hacc).1, fun hab _ => (hok hacc).2 hab rfl⟩⟩

mutual

theorem executeOperand_handled : ∀ (v : ResolvedVal κ) (handle : η),
    Handled C (· = some handle) (executeOperand C R handle v)
  | .val _, _ => .pure
  | .var _, _ => sequential_handled.executeVar fun _ => handled_emit_use rfl
  | .valblock childs, _ => handled_getHandle fun handle => executeValLoop_handled childs handle _ _
  | .call _ args, _ => handled_executeCall fun handle => executeArgs_handled args handle

theorem executeValLoop_handled : ∀ (vs : ResolvedVals κ) (handle : η) (opt : Sym)
    (arg : LreValue D), Handled C (· = some handle) (executeValLoop C R handle vs opt arg)
  | .nil, _, _, _ => .pure
  | .cons node _ rest, handle, _, _ =>
    (executeOperand_handled node handle).bind fun _ =>
      sequential_handled.valNext (handled_emit_hidden rfl rfl)
        fun arg => executeValLoop_handled rest handle _ arg

theorem executeArgs_handled : ∀ (args : ResolvedArgs κ) (handle : η),
    Handled C (· = some handle) (executeArgs C R handle args)
  | .nil, _ => .pure
  | .cons _ valchilds rest, handle =>
    sequential_handled.argsNext
      (sequential_handled.executeArg (fun _ => handled_emit_use rfl)
        (handled_getHandle fun handle => executeValLoop_handled valchilds handle _ _))
      (executeArgs_handled rest handle)

end

theorem handled_executeSyntaxExpr (estub : κ) (opt : Sym) (valchilds : ResolvedVals κ) :
    Handled C P (executeSyntaxExpr C R estub opt valchilds) := by
  refine handled_getHandle fun handle => ?_
  exact sequential_handled.exprEnd (fun _ => handled_emit_use rfl)
    (handled_getHandle fun handle => executeValLoop_handled valchilds handle _ _)

theorem handled_executeBlock {negative : Bool} {childs : Exec κ σ η ℤ}
    (h : Handled C P childs) : Handled C P (executeBlock negative childs) := by
  unfold executeBlock
  split
  · refine Handled.bind (fun s => wp_negated.mpr ?_) fun _ => .pure
    exact wp_mono (h _) fun _ _ h => h
  · exact h

mutual

theorem executeItem_handled : ∀ node : ResolvedItem κ,
    Handled C (fun _ => True) (executeItem C R node)
  | .func _ args body =>
    handled_executeFunc (fun handle => executeArgs_handled args handle)
      (executeChildsLoop_handled body _ _)
  | .block _ childs => handled_executeBlock (executeChildsLoop_handled childs _ _)
  | .expr estub opt valchilds => handled_executeSyntaxExpr estub opt valchilds

theorem executeChildsLoop_handled : ∀ (items : ResolvedItems κ) (opt : Sym) (res : ℤ),
    Handled C (fun _ => True) (executeChildsLoop C R items opt res)
  | .nil, opt, res => sequential_handled.childsNil (handled_emit_hidden rfl rfl) opt res
  | .cons node _ rest, _, _ =>
    (executeItem_handled node).bind fun _ =>
      sequential_handled.childsNext (handled_emit_hidden rfl rfl)
        fun res => executeChildsLoop_handled rest _ res

end

/-! ## Object lifecycle -/

/-- A call of one of the six evaluators. -/
inductive Evaluator (κ : Type)
  | func (keystub : κ) (args : ResolvedArgs κ) (body : ResolvedItems κ)
  | call (keystub : κ) (args : ResolvedArgs κ)
  | expr (keystub : κ) (opt : Sym) (valchilds : ResolvedVals κ)
  | block (negative : Bool) (childs : ResolvedItems κ)
  | val (root : ResolvedVals κ)
  | childs (root : ResolvedItems κ)

/-- The return code of an evaluator. -/
def Evaluator.run (C : Callbacks κ σ η D) (R : Doubles D) : Evaluator κ → Exec κ σ η ℤ
  | .func keystub args body => executeSyntaxFunc C R keystub args body
  | .call keystub args => do return (← executeSyntaxCall C R keystub args).1
  | .expr keystub opt valchilds => executeSyntaxExpr C R keystub opt valchilds
  | .block negative root => executeSyntaxBlock C R negative root
  | .val root => do return (← executeSyntaxVal C R root).1
  | .childs root => executeSyntaxChilds C R root

theorem Evaluator.handled (ev : Evaluator κ) : Handled C (fun _ => True) (ev.run C R) := by
  cases ev with
  | func keystub args body => exact executeItem_handled (.func keystub args body)
  | call keystub args =>
    exact (handled_executeCall fun handle => executeArgs_handled args handle).bind fun _ => .pure
  | expr keystub opt valchilds => exact handled_executeSyntaxExpr keystub opt valchilds
  | block negative childs => exact executeItem_handled (.block negative childs)
  | val root =>
    exact (handled_getHandle fun handle => executeValLoop_handled root handle _ _).bind
      fun _ => .pure
  | childs root => exact executeChildsLoop_handled root _ _

/-- **Handle stack and object lifecycle, exactly.** When an evaluator returns and no push was
refused, the stack is what it was and the trace is well nested if and only if no call was left
between its push and its pop. -/
theorem evaluator_lifecycle_iff (C : Callbacks κ σ η D) (R : Doubles D) (ev : Evaluator κ)
    (s s' : ExecState κ σ η) (ret : ℤ) (new : List (ℕ × ExecEvent κ η))
    (h : ev.run C R s = .ok (ret, s')) (hnew : s'.trace = new ++ s.trace) (hpush : Accepted new) :
    (s'.stack = s.stack ∧ (lifecycle C).Nested s.stack.head? (chron new)) ↔
      ∀ e ∈ new, e.2 ≠ .abandon := by
  obtain ⟨new', hnew', hok⟩ := (ev.handled (C := C) (R := R) s).of_ok h
  obtain rfl : new' = new := List.append_cancel_right (hnew'.symm.trans hnew)
  obtain ⟨hlen, hclean⟩ := hok hpush
  have hab : abandons new' = 0 ↔ ∀ e ∈ new', e.2 ≠ .abandon := by
    refine List.countP_eq_zero.trans ⟨fun h e he hab => h e he (by rw [hab]; rfl), ?_⟩
    intro h e he hab
    refine h e he ?_
    cases hev : e.2 <;> simp_all [ExecEvent.isAbandon]
  rw [← hab]
  constructor
  · rintro ⟨hs, -⟩
    rw [hs] at hlen
    omega
  · exact fun h => hclean h trivial

theorem sum_map_sub_eq_count_sub {ε : Type} [DecidableEq ε] (a b : ε) (es : List ε) :
    (es.map fun e => ((if e = a then 1 else 0 : ℤ) - if e = b then 1 else 0)).sum =
      (es.count a : ℤ) - es.count b := by
  induction es with
  | nil => rfl
  | cons e es ih =>
    rw [List.map_cons, List.sum_cons, ih, List.count_cons, List.count_cons]
    simp only [beq_iff_eq]
    split <;> split <;> push_cast <;> omega

/-- In a well-nested trace a destructor is called as often as its constructor returned. -/
theorem count_destructor [DecidableEq κ] [DecidableEq η] {top : Option η}
    {es : List (ExecEvent κ η)} (h : (lifecycle C).Nested top es) {stub : κ} {handle : η}
    (hd : (C.destructor stub).isSome) :
    es.count (.destructor stub handle) = es.count (.constructor stub (some handle)) := by
  have hsum := h.sum_eq_zero
    (f := fun e : ExecEvent κ η => (if e = .destructor stub handle then 1 else 0 : ℤ) -
      if e = .constructor stub (some handle) then 1 else 0) ?_ ?_ ?_
  · rw [sum_map_sub_eq_count_sub] at hsum
    omega
  · rintro e ⟨stub', rfl⟩
    simp
  · intro e t he
    cases e <;> simp_all [lifecycle, ExecEvent.handle?]
  · rintro ⟨stub', handle'⟩
    by_cases hw : stub' = stub ∧ handle' = handle
    · obtain ⟨rfl, rfl⟩ := hw
      simp [lifecycle, hd]
    · have hw' : stub' = stub → handle' ≠ handle := fun h₁ h₂ => hw ⟨h₁, h₂⟩
      cases hd' : (C.destructor stub').isSome <;> simp [lifecycle, hd', hw]

/-- A rule whose call is left early: `%` is no operator of `lre_calc_int`. -/
def leftCall : Evaluator KeystubType :=
  .func .func .nil (ResolvedItem.expr .expr .equal (.cons (.call .call (.cons .arg
    (.cons (.val (.ident ['1'])) .mod oneVal) .nil)) .reserved .nil)).single

/-- `f(){e==1}` keeps the discipline. -/
theorem evaluator_lifecycle_iff_func :
    ∃ s' new, (Evaluator.func KeystubType.func .nil
      (ResolvedItem.expr .expr .equal oneVal).single).run
      sampleCallbacks unitDoubles ⟨(), [], 8192, 0, [], 0⟩ = .ok (1, s') ∧
    ((s'.stack = [] ∧ (lifecycle sampleCallbacks).Nested none (chron new)) ↔
      ∀ e ∈ new, e.2 ≠ .abandon) := by
  have h : (Evaluator.func KeystubType.func .nil (ResolvedItem.expr .expr .equal oneVal).single).run
      sampleCallbacks unitDoubles ⟨(), [], 8192, 0, [], 0⟩ = .ok (1, ⟨(), [], 8192, 0,
        [(0, .destructor .func ()), (0, .exprHandler .expr () 1),
          (0, .constructor .func (some ()))], 0⟩) := by
    decide +kernel
  exact ⟨_, _, h, evaluator_lifecycle_iff _ _ _ _ _ _ _ h (List.append_nil _).symm
    (by simp [Accepted])⟩

/-- In `f(){e==g(b=1%1)}` the object of the call `g` is left on the stack. -/
theorem leftCall_stack :
    ¬ ∀ (ev : Evaluator KeystubType) (s s' : ExecState KeystubType Unit Unit) (ret : ℤ)
        (new : List (ℕ × ExecEvent KeystubType Unit)),
      ev.run sampleCallbacks unitDoubles s = .ok (ret, s') → s'.trace = new ++ s.trace →
      Accepted new →
      s'.stack = s.stack ∧ (lifecycle sampleCallbacks).Nested s.stack.head? (chron new) := by
  intro h
  have hrun : leftCall.run sampleCallbacks unitDoubles ⟨(), [], 8192, 0, [], 0⟩ =
      .ok (retDead, ⟨(), [()], 8192, 0,
        [(0, .destructor .func ()), (0, .valError), (0, .abandon), (0, .valError),
          (0, .constructor .call (some ())), (0, .constructor .func (some ()))], 0⟩) := by
    decide +kernel
  have := (h _ _ _ _ _ hrun (List.append_nil _).symm (by simp [Accepted])).1
  simp at this

end Lre
