import Lre.Exec.Rename
import Lre.Exec.Sequential

/-!
# Owners

Which constructor built the object that a handler is called with. `Owns owner stub` says that
objects of `owner` are for the handler of `stub`.

* `Scoped`: the stubs that a tree names belong to the function or call whose object is innermost.
* `Steady`: no push was refused, and no call was left early.
* `OwnedCalls`: the handlers of a trace were called with objects of the owners of their stubs;
  those of expressions and variables while the trace was steady, those of arguments always.
* `Keeps s₀ x`: started above `s₀`, `x` adds such calls to the trace and, while it is steady,
  leaves the stack of `s₀`.
* **`interpExecute_ownedCalls`**: the executions of scoped trees.
-/

namespace Lre

open Run

variable {κ κ' σ η D α β : Type}

/-! ## Scoped trees -/

section Scoped

variable (Owns : κ → κ → Prop)

mutual

/-- The stubs named under `owner` belong to it, those named in a call to the call. -/
def ResolvedVal.Scoped (owner : Option κ) : ResolvedVal κ → Prop
  | .val _ => True
  | .var valstub => ∀ stub ∈ owner, Owns stub valstub
  | .valblock childs => childs.Scoped owner
  | .call keystub args => args.Scoped keystub

/-- The same of a value. -/
def ResolvedVals.Scoped (owner : Option κ) : ResolvedVals κ → Prop
  | .nil => True
  | .cons node _ rest => node.Scoped owner ∧ rest.Scoped owner

/-- The keys belong to `owner`, whose object is innermost when the values are evaluated. -/
def ResolvedArgs.Scoped (owner : κ) : ResolvedArgs κ → Prop
  | .nil => True
  | .cons keystub valchilds rest =>
    Owns owner keystub ∧ valchilds.Scoped (some owner) ∧ rest.Scoped owner

end

mutual

/-- The stubs named under `owner` belong to it, those named in a function to the function. -/
def ResolvedItem.Scoped (owner : Option κ) : ResolvedItem κ → Prop
  | .func keystub args body => args.Scoped Owns keystub ∧ body.Scoped (some keystub)
  | .block _ childs => childs.Scoped owner
  | .expr keystub _ valchilds =>
    (∀ stub ∈ owner, Owns stub keystub) ∧ valchilds.Scoped Owns owner

/-- The same of a list of items. -/
def ResolvedItems.Scoped (owner : Option κ) : ResolvedItems κ → Prop
  | .nil => True
  | .cons node _ rest => node.Scoped owner ∧ rest.Scoped owner

end

end Scoped

/-! ## Traces -/

/-- The stub and the object of a handler call. -/
def ExecEvent.handlerCall : ExecEvent κ η → Option (κ × η)
  | .argHandler stub handle _ | .exprHandler stub handle _ | .varHandler stub handle _ =>
    some (stub, handle)
  | _ => none

theorem ExecEvent.handlerCall_map (f : κ → κ') (e : ExecEvent κ η) :
    (e.map f).handlerCall = e.handlerCall.map fun p => (f p.1, p.2) := by
  cases e <;> rfl

/-- No push was refused, and no call was left between its push and its pop. -/
def Steady (trace : List (ℕ × ExecEvent κ η)) : Prop :=
  ∀ e ∈ trace, e.2 ≠ .pushRefused ∧ e.2 ≠ .abandon

/-- The constructor of `stub` returned `handle`. -/
def Built (trace : List (ℕ × ExecEvent κ η)) (stub : κ) (handle : η) : Prop :=
  ∃ depth, (depth, .constructor stub (some handle)) ∈ trace

/-- The handler calls for which the stack is in order: those of arguments, which do not look at it,
those of expressions and `$` variables after a steady trace. -/
def Due (before : List (ℕ × ExecEvent κ η)) : ExecEvent κ η → Prop
  | .exprHandler .. | .varHandler .. => Steady before
  | _ => True

/-- Every handler call for which `due` holds was made with an object that the constructor of an
owner of the stub had built. -/
def OwnedCalls (Owns : κ → κ → Prop) (due : List (ℕ × ExecEvent κ η) → ExecEvent κ η → Prop)
    (trace : List (ℕ × ExecEvent κ η)) : Prop :=
  ∀ after e before, trace = after ++ e :: before → due before e.2 →
    ∀ stub handle, e.2.handlerCall = some (stub, handle) →
      ∃ owner, Owns owner stub ∧ Built before owner handle

variable {Owns : κ → κ → Prop} {trace trace' : List (ℕ × ExecEvent κ η)}

theorem steady_map {f : κ → κ'} :
    Steady (trace.map fun e => (e.1, e.2.map f)) ↔ Steady trace := by
  have hmap : ∀ e : ExecEvent κ η, (e.map f ≠ .pushRefused ∧ e.map f ≠ .abandon) ↔
      e ≠ .pushRefused ∧ e ≠ .abandon := by
    rintro ⟨⟩ <;> simp [ExecEvent.map]
  unfold Steady
  rw [List.forall_mem_map]
  exact forall₂_congr fun e _ => hmap e.2

theorem Steady.of_suffix (h : Steady trace') (hs : trace <:+ trace') : Steady trace :=
  fun e he => h e (hs.subset he)

theorem Built.of_suffix {stub : κ} {handle : η} (h : Built trace stub handle)
    (hs : trace <:+ trace') : Built trace' stub handle :=
  ⟨h.choose, hs.subset h.choose_spec⟩

variable {due : List (ℕ × ExecEvent κ η) → ExecEvent κ η → Prop}

theorem ownedCalls_cons {e : ℕ × ExecEvent κ η} : OwnedCalls Owns due (e :: trace) ↔
    (due trace e.2 → ∀ stub handle, e.2.handlerCall = some (stub, handle) →
      ∃ owner, Owns owner stub ∧ Built trace owner handle) ∧ OwnedCalls Owns due trace := by
  constructor
  · intro h
    exact ⟨h [] e trace rfl, fun after e' before ht => h (e :: after) e' before (by rw [ht]; rfl)⟩
  · rintro ⟨he, h⟩ after e' before ht
    cases after with
    | nil =>
      cases ht
      exact he
    | cons e'' after =>
      exact h after e' before (List.cons.inj ht).2

theorem OwnedCalls.cons_other {e : ℕ × ExecEvent κ η} (h : OwnedCalls Owns due trace)
    (he : e.2.handlerCall = none) : OwnedCalls Owns due (e :: trace) := by
  refine ownedCalls_cons.mpr ⟨fun _ stub handle hcall => ?_, h⟩
  rw [he] at hcall
  cases hcall

theorem OwnedCalls.append_other {new : List (ℕ × ExecEvent κ η)} (h : OwnedCalls Owns due trace)
    (hn : ∀ e ∈ new, e.2.handlerCall = none) : OwnedCalls Owns due (new ++ trace) := by
  induction new with
  | nil => exact h
  | cons e new ih =>
    exact (ih fun e he => hn e (.tail _ he)).cons_other (hn e List.mem_cons_self)

theorem OwnedCalls.map {f : κ → κ'} {Owns' : κ' → κ' → Prop}
    {due' : List (ℕ × ExecEvent κ' η) → ExecEvent κ' η → Prop} (h : OwnedCalls Owns due trace)
    (hdue : ∀ after e before, trace = after ++ e :: before → due before e.2)
    (howns : ∀ e ∈ trace, ∀ stub handle, e.2.handlerCall = some (stub, handle) →
      ∀ owner, Owns owner stub → Owns' (f owner) (f stub)) :
    OwnedCalls Owns' due' (trace.map fun e => (e.1, e.2.map f)) := by
  intro after' e' before' ht hdue' stub' handle hcall
  obtain ⟨after, rest, rfl, -, hrest⟩ := List.map_eq_append_iff.mp ht
  obtain ⟨e, before, rfl, rfl, rfl⟩ := List.map_eq_cons_iff.mp hrest
  rw [ExecEvent.handlerCall_map] at hcall
  obtain ⟨⟨stub, handle⟩, hcall', heq⟩ := Option.map_eq_some_iff.mp hcall
  cases heq
  obtain ⟨owner, ho, depth, hmem⟩ := h after e before rfl (hdue _ _ _ rfl) stub handle hcall'
  refine ⟨f owner, howns e ?_ stub handle hcall' owner ho, depth, List.mem_map_of_mem hmem⟩
  exact List.mem_append_right _ List.mem_cons_self

theorem Steady.isDue {after before : List (ℕ × ExecEvent κ η)} {e : ℕ × ExecEvent κ η}
    (h : Steady (after ++ e :: before)) : Due before e.2 := by
  have hsteady := h.of_suffix ((List.suffix_cons e before).trans (List.suffix_append after _))
  cases e.2 <;> first | exact hsteady | trivial

/-! ## The logic -/

/-- `s` comes after `s₀`, and while no step disturbs it the stack is that of `s₀`. -/
def Above (s₀ s : ExecState κ σ η) : Prop :=
  s₀.trace <:+ s.trace ∧ (Steady s.trace → s.stack = s₀.stack)

theorem Above.refl (s : ExecState κ σ η) : Above s s := ⟨List.suffix_refl _, fun _ => rfl⟩

theorem Above.trans {s₁ s₂ s₃ : ExecState κ σ η} (h₁ : Above s₁ s₂) (h₂ : Above s₂ s₃) :
    Above s₁ s₃ :=
  ⟨h₁.1.trans h₂.1, fun h => (h₂.2 h).trans (h₁.2 (h.of_suffix h₂.1))⟩

/-- The innermost object was built by the constructor of `owner`, if there is one. -/
def Inside (owner : Option κ) (s : ExecState κ σ η) : Prop :=
  Steady s.trace → ∀ handle ∈ s.stack.head?, ∃ stub ∈ owner, Built s.trace stub handle

/-- `handle` was built by the constructor of `owner`. -/
def Holds (owner : Option κ) (handle : η) (s : ExecState κ σ η) : Prop :=
  Steady s.trace → ∃ stub ∈ owner, Built s.trace stub handle

theorem Inside.above {owner : Option κ} {s₀ s : ExecState κ σ η} (h : Inside owner s₀)
    (ha : Above s₀ s) : Inside owner s := by
  intro hs handle hh
  rw [ha.2 hs] at hh
  obtain ⟨stub, hstub, hb⟩ := h (hs.of_suffix ha.1) handle hh
  exact ⟨stub, hstub, hb.of_suffix ha.1⟩

variable (Owns)

/-- From a state above `s₀` with owned calls, `x` returns to one. -/
def Keeps (s₀ : ExecState κ σ η) (x : Exec κ σ η α) : Prop :=
  ∀ s, Above s₀ s → OwnedCalls Owns Due s.trace →
    wp (fun _ => True) x (fun _ s' => Above s₀ s' ∧ OwnedCalls Owns Due s'.trace) s

variable {Owns} {s₀ : ExecState κ σ η} {C : Callbacks κ σ η D}

theorem Keeps.bind {x : Exec κ σ η α} {f : α → Exec κ σ η β} (hx : Keeps Owns s₀ x)
    (hf : ∀ a, Keeps Owns s₀ (f a)) : Keeps Owns s₀ (x >>= f) :=
  fun s ha hc => (wp_bind ..).mpr (wp_mono (hx s ha hc) fun a s₁ h => hf a s₁ h.1 h.2)

theorem Keeps.of_inert {x : Exec κ σ η α} (hx : Inert x) : Keeps Owns s₀ x := by
  intro s ha hc
  refine wp_mono (hx s) ?_
  rintro a s' ⟨-, hs, new, ht, hn⟩
  refine ⟨ha.trans ⟨ht ▸ List.suffix_append new _, fun _ => hs⟩, ?_⟩
  rw [ht]
  refine hc.append_other fun e he => ?_
  have := (hn e he).2
  cases hv : e.2 <;> simp_all [ExecEvent.IsHeap, ExecEvent.handlerCall]

theorem sequential_keeps :
    Sequential fun (β : Type) (x : Exec κ σ η β) => Keeps Owns s₀ x := ⟨.of_inert, .bind⟩

theorem Keeps.pure {a : α} : Keeps Owns s₀ (pure a : Exec κ σ η α) := .of_inert (.pure a)

theorem keeps_emit {e : ExecEvent κ η} (he : ∀ trace, s₀.trace <:+ trace → Due trace e →
    ∀ stub handle, e.handlerCall = some (stub, handle) →
      ∃ owner, Owns owner stub ∧ Built s₀.trace owner handle) :
    Keeps Owns s₀ (emit e : Exec κ σ η Unit) := by
  refine fun s ha hc => ⟨ha.trans ⟨List.suffix_cons _ _, fun _ => rfl⟩, ?_⟩
  refine ownedCalls_cons.mpr ⟨fun hdue stub handle hcall => ?_, hc⟩
  obtain ⟨owner, ho, hb⟩ := he s.trace ha.1 hdue stub handle hcall
  exact ⟨owner, ho, hb.of_suffix ha.1⟩

theorem keeps_emit_other {e : ExecEvent κ η} (he : e.handlerCall = none) :
    Keeps Owns s₀ (emit e : Exec κ σ η Unit) :=
  keeps_emit fun _ _ _ stub handle hcall => by rw [he] at hcall; cases hcall

theorem keeps_getHandle {x : η → Exec κ σ η α} {owner : Option κ} (hin : Inside owner s₀)
    (h : ∀ handle s, Inside owner s → Holds owner handle s → Keeps Owns s (x handle)) :
    Keeps Owns s₀ (do let handle ← execCtxGetHandle; x handle) := by
  intro s ha hc
  simp only [wp_bind, wp_execCtxGetHandle]
  cases hs : s.stack with
  | nil => trivial
  | cons handle stack =>
    have hin' := hin.above ha
    have hhold : Holds owner handle s := fun hsteady => hin' hsteady handle (by rw [hs]; rfl)
    refine wp_mono (h handle s hin' hhold s (.refl s) hc) ?_
    rintro a s' ⟨ha', hc'⟩
    exact ⟨ha.trans ha', hc'⟩

/-! ## The life of an object -/

/-- `x` takes the innermost object from the stack, unless it disturbs the trace. -/
def Drops (x : Exec κ σ η α) : Prop :=
  ∀ s, wp (fun _ => True) x (fun _ s' => (Steady s'.trace → s'.stack = s.stack.tail) ∧
    ∃ new, s'.trace = new ++ s.trace ∧ ∀ e ∈ new, e.2.handlerCall = none) s

theorem drops_executeOut (stub : κ) (handle : η) : Drops (executeOut C stub handle) := by
  intro s
  unfold executeOut
  cases C.destructor stub with
  | none =>
    refine wp_execCtxPopHandle.mpr ?_
    cases hs : s.stack with
    | nil => trivial
    | cons top stack => exact ⟨fun _ => rfl, [], rfl, by simp⟩
  | some f =>
    simp only [wp_bind, wp_callback, wp_emit, wp_execCtxPopHandle]
    cases hs : s.stack with
    | nil => trivial
    | cons top stack =>
      exact ⟨fun _ => rfl, [(s.negdepth, .destructor stub handle)], rfl,
        by simp [ExecEvent.handlerCall]⟩

theorem drops_emit_abandon : Drops (emit .abandon : Exec κ σ η Unit) :=
  fun s => ⟨fun h => absurd rfl (h _ List.mem_cons_self).2, [(s.negdepth, .abandon)], rfl,
    by simp [ExecEvent.handlerCall]⟩

theorem Drops.bind_pure {x : Exec κ σ η α} {b : β} (h : Drops x) :
    Drops (do let _ ← x; return b) :=
  fun s => (wp_bind ..).mpr (wp_mono (h s) fun _ _ h => h)

/-- **An object from its constructor to its destructor**: inside it, its constructor built the
innermost object. -/
theorem keeps_object {stub : κ} {handle : η} {inner : Exec κ σ η α} {close : α → Exec κ σ η β}
    (hinner : ∀ s, Inside (some stub) s → Built s.trace stub handle → Keeps Owns s inner)
    (hclose : ∀ a, Drops (close a)) :
    Keeps Owns s₀ (do
      emit (.constructor stub (some handle))
      execCtxPushHandle handle
      let a ← inner
      close a) := by
  intro s ha hc
  have hc₁ : OwnedCalls Owns Due
      ((s.negdepth, .constructor stub (some handle)) :: s.trace) := hc.cons_other rfl
  simp only [wp_bind, wp_emit, wp_execCtxPushHandle]
  split
  · -- the push is refused: from here on the trace is not steady
    have hbroken : ∀ s₁ : ExecState κ σ η, (s.negdepth, .pushRefused) ∈ s₁.trace →
        ¬Steady s₁.trace := fun s₁ hm h => (h _ hm).1 rfl
    refine wp_mono (hinner _ (fun h => absurd h (hbroken _ List.mem_cons_self))
      ⟨s.negdepth, by simp⟩ _ (.refl _) (hc₁.cons_other rfl)) ?_
    rintro a s₂ ⟨⟨hsuf, -⟩, hc₂⟩
    refine wp_mono (hclose a s₂) ?_
    rintro b s₃ ⟨-, new₃, ht₃, hn₃⟩
    refine ⟨⟨?_, fun h => absurd h (hbroken _ ?_)⟩, ht₃ ▸ hc₂.append_other hn₃⟩
    · refine ha.1.trans ?_
      rw [ht₃]
      exact ((List.suffix_cons _ _).trans (List.suffix_cons _ _)).trans
        (hsuf.trans (List.suffix_append _ _))
    · rw [ht₃]
      exact List.mem_append_right _ (hsuf.subset List.mem_cons_self)
  · refine wp_mono (hinner _ ?_ ⟨s.negdepth, List.mem_cons_self⟩ _ (.refl _) hc₁) ?_
    · rintro - top htop
      cases htop
      exact ⟨stub, rfl, s.negdepth, List.mem_cons_self⟩
    · rintro a s₂ ⟨⟨hsuf, hs₂⟩, hc₂⟩
      refine wp_mono (hclose a s₂) ?_
      rintro b s₃ ⟨hs₃, new₃, ht₃, hn₃⟩
      refine ⟨ha.trans ⟨?_, fun h => ?_⟩, ht₃ ▸ hc₂.append_other hn₃⟩
      · rw [ht₃]
        exact (List.suffix_cons _ _).trans (hsuf.trans (List.suffix_append _ _))
      · rw [hs₃ h, hs₂ (h.of_suffix (ht₃ ▸ List.suffix_append _ _)), List.tail_cons]

/-! ## The evaluators -/

variable {R : Doubles D} {owner : Option κ} {handle : η}

theorem keeps_executeVar {valstub : κ} (hscoped : ∀ stub ∈ owner, Owns stub valstub)
    (hhold : Holds owner handle s₀) : Keeps Owns s₀ (executeVar C handle valstub) := by
  refine sequential_keeps.executeVar fun ret => keeps_emit ?_
  rintro trace hsuf hsteady _ _ ⟨⟩
  obtain ⟨stub, hstub, hb⟩ := hhold (hsteady.of_suffix hsuf)
  exact ⟨stub, hscoped stub hstub, hb⟩

/-- The handler of an argument is given the object of its call or function, whatever the stack. -/
theorem keeps_executeArg {stub astub : κ} {val : Exec κ σ η (ℤ × LreValue D)}
    (howns : Owns stub astub) (hb : Built s₀.trace stub handle) (hval : Keeps Owns s₀ val) :
    Keeps Owns s₀ (executeArg C handle astub val) := by
  refine sequential_keeps.executeArg (fun ret => keeps_emit ?_) hval
  rintro trace hsuf - _ _ ⟨⟩
  exact ⟨stub, howns, hb⟩

theorem keeps_executeCall {cstub : κ} {args : η → Exec κ σ η (ℤ × ℤ)}
    (hargs : ∀ handle s, Inside (some cstub) s → Built s.trace cstub handle →
      Keeps Owns s (args handle)) :
    Keeps Owns s₀ (executeCall C cstub args) := by
  refine (Keeps.of_inert (inert_castStub _ _ _)).bind fun _ => ?_
  refine (Keeps.of_inert (inert_callback _)).bind fun handle => ?_
  cases handle with
  | none => exact (keeps_emit_other rfl).bind fun _ => .pure
  | some handle =>
    refine keeps_object (fun s hin hb => sequential_keeps.executeCallInner (keeps_emit_other rfl)
      (fun _ => keeps_emit_other rfl) (hargs handle s hin hb)) fun ⟨returned, r⟩ => ?_
    cases returned with
    | true => exact drops_emit_abandon.bind_pure
    | false => exact (drops_executeOut cstub handle).bind_pure

theorem keeps_executeFunc {fstub : κ} {args : η → Exec κ σ η (ℤ × ℤ)} {body : Exec κ σ η ℤ}
    (hargs : ∀ handle s, Inside (some fstub) s → Built s.trace fstub handle →
      Keeps Owns s (args handle))
    (hbody : ∀ s, Inside (some fstub) s → Keeps Owns s body) :
    Keeps Owns s₀ (executeFunc C fstub args body) := by
  refine (Keeps.of_inert (inert_castStub _ _ _)).bind fun _ => ?_
  refine (Keeps.of_inert (inert_callback _)).bind fun handle => ?_
  cases handle with
  | none => exact (keeps_emit_other rfl).bind fun _ => .pure
  | some handle =>
    exact keeps_object (fun s hin hb => sequential_keeps.executeFuncInner
      (fun _ => keeps_emit_other rfl) (hargs handle s hin hb) (hbody s hin))
      fun ret => (drops_executeOut fstub handle).bind_pure

mutual

theorem executeOperand_keeps : ∀ (v : ResolvedVal κ) (owner : Option κ) (handle : η)
    (s₀ : ExecState κ σ η), v.Scoped Owns owner → Inside owner s₀ → Holds owner handle s₀ →
      Keeps Owns s₀ (executeOperand C R handle v)
  | .val _, _, _, _, _, _, _ => .pure
  | .var _, _, _, _, h, _, hhold => keeps_executeVar h hhold
  | .valblock childs, owner, _, _, h, hin, _ =>
    keeps_getHandle hin fun handle s hin hhold =>
      executeValLoop_keeps childs owner handle s h hin hhold _ _
  | .call keystub args, _, _, _, h, _, _ =>
    keeps_executeCall fun handle s hin hb => executeArgs_keeps args keystub handle s h hin hb

theorem executeValLoop_keeps : ∀ (vs : ResolvedVals κ) (owner : Option κ) (handle : η)
    (s₀ : ExecState κ σ η), vs.Scoped Owns owner → Inside owner s₀ → Holds owner handle s₀ →
      ∀ (opt : Sym) (arg : LreValue D),
        Keeps Owns s₀ (executeValLoop C R handle vs opt arg)
  | .nil, _, _, _, _, _, _, _, _ => .pure
  | .cons node _ rest, owner, handle, s₀, h, hin, hhold, _, _ =>
    (executeOperand_keeps node owner handle s₀ h.1 hin hhold).bind fun _ =>
      sequential_keeps.valNext (keeps_emit_other rfl)
        fun arg => executeValLoop_keeps rest owner handle s₀ h.2 hin hhold _ arg

theorem executeArgs_keeps : ∀ (args : ResolvedArgs κ) (owner : κ) (handle : η)
    (s₀ : ExecState κ σ η), args.Scoped Owns owner → Inside (some owner) s₀ →
      Built s₀.trace owner handle → Keeps Owns s₀ (executeArgs C R handle args)
  | .nil, _, _, _, _, _, _ => .pure
  | .cons _ valchilds rest, owner, handle, s₀, h, hin, hb =>
    sequential_keeps.argsNext
      (keeps_executeArg h.1 hb (keeps_getHandle hin fun handle s hin hhold =>
        executeValLoop_keeps valchilds _ handle s h.2.1 hin hhold _ _))
      (executeArgs_keeps rest owner handle s₀ h.2.2 hin hb)

end

theorem keeps_executeSyntaxExpr {estub : κ} {opt : Sym} {valchilds : ResolvedVals κ}
    (hscoped : ∀ stub ∈ owner, Owns stub estub) (hval : valchilds.Scoped Owns owner)
    (hin : Inside owner s₀) :
    Keeps Owns s₀ (executeSyntaxExpr C R estub opt valchilds) := by
  refine keeps_getHandle hin fun handle s hin hhold => ?_
  refine sequential_keeps.exprEnd (fun ret => keeps_emit ?_)
    (keeps_getHandle hin fun handle s hin hhold =>
      executeValLoop_keeps valchilds owner handle s hval hin hhold _ _)
  rintro trace hsuf hsteady _ _ ⟨⟩
  obtain ⟨stub, hstub, hb⟩ := hhold (hsteady.of_suffix hsuf)
  exact ⟨stub, hscoped stub hstub, hb⟩

theorem keeps_executeBlock {negative : Bool} {childs : Exec κ σ η ℤ}
    (h : Keeps Owns s₀ childs) : Keeps Owns s₀ (executeBlock negative childs) := by
  unfold executeBlock
  split
  · refine Keeps.bind (fun s ha hc => wp_negated.mpr ?_) fun _ => .pure
    exact wp_mono (h { s with negdepth := s.negdepth + 1 } ha hc) fun _ _ h => h
  · exact h

mutual

theorem executeItem_keeps : ∀ (node : ResolvedItem κ) (owner : Option κ) (s₀ : ExecState κ σ η),
    node.Scoped Owns owner → Inside owner s₀ → Keeps Owns s₀ (executeItem C R node)
  | .func keystub args body, _, _, h, _ =>
    keeps_executeFunc (fun handle s hin hb => executeArgs_keeps args keystub handle s h.1 hin hb)
      fun s hin => executeChildsLoop_keeps body (some keystub) s h.2 hin _ _
  | .block _ childs, owner, s₀, h, hin =>
    keeps_executeBlock (executeChildsLoop_keeps childs owner s₀ h hin _ _)
  | .expr _ _ _, _, _, h, hin => keeps_executeSyntaxExpr h.1 h.2 hin

theorem executeChildsLoop_keeps : ∀ (items : ResolvedItems κ) (owner : Option κ)
    (s₀ : ExecState κ σ η), items.Scoped Owns owner → Inside owner s₀ →
      ∀ (opt : Sym) (res : ℤ), Keeps Owns s₀ (executeChildsLoop C R items opt res)
  | .nil, _, _, _, _, opt, res => sequential_keeps.childsNil (keeps_emit_other rfl) opt res
  | .cons node _ rest, owner, s₀, h, hin, _, _ =>
    (executeItem_keeps node owner s₀ h.1 hin).bind fun _ =>
      sequential_keeps.childsNext (keeps_emit_other rfl)
        fun res => executeChildsLoop_keeps rest owner s₀ h.2 hin _ res

end

/-- **In an execution of a scoped tree every handler call that is due is given an object that the
constructor of an owner of its stub built.** -/
theorem interpExecute_ownedCalls {tree : ResolvedItems κ} (h : tree.Scoped Owns none)
    {stacksize : ℕ} {env : σ} {ret : ℤ} {s : ExecState κ σ η}
    (hs : interpExecute C R stacksize tree env = .ok (ret, s)) :
    OwnedCalls Owns Due s.trace := by
  have hin : Inside none (⟨env, [], stacksize, 0, [], 0⟩ : ExecState κ σ η) := by
    rintro - handle ⟨⟩
  have hnil : OwnedCalls Owns Due ([] : List (ℕ × ExecEvent κ η)) := by
    intro after e before ht
    simp at ht
  exact ((executeChildsLoop_keeps tree none _ h hin .reserved valUninitialized _ (.refl _)
    hnil).of_ok hs).2

end Lre
