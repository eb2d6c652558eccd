import Lre.Exec.Model

/-!
# Failures and verdicts

* `ExecEvent.Fails`: a callback or a value evaluation fails. `ExecEvent.Stops`: the evaluators
  return an error on account of it; the return code of a `$` handler is not looked at.
* `Tracks p₀ x r`: when the status before `x` is `p₀`, the status after it is `r`. The status says
  that a stopping event was emitted at the current number of negated blocks.
* `executeChildsLoop_tracks`: an evaluator returns an error exactly on that status.
* **`interpExecute_failClosed_iff`**: when a failure keeps a rule from having a verdict.
-/

namespace Lre

open Run

variable {κ σ η D α β : Type}

/-- A callback or a value evaluation fails. -/
def ExecEvent.Fails : ExecEvent κ η → Prop
  | .constructor _ none => True
  | .argHandler _ _ ret => ret ≠ lreRetOk
  | .funcExec _ _ ret => ret ≠ 0
  | .callExec _ _ ret => ret ≠ 0
  | .exprHandler _ _ ret => vaildLreResults ret = false
  | .varHandler _ _ ret => ret ≠ lreRetOk
  | .valError => True
  | _ => False

/-- The evaluators return an error on account of the event. -/
def ExecEvent.Stops : ExecEvent κ η → Prop
  | .varHandler .. => False
  | .listError | .noExec => True
  | e => e.Fails

/-! ## The status logic -/

/-- From `s` to `s'` the trace grows, and `p` holds when a stopping event was emitted at the
number of negated blocks of `s`. -/
def Logs (p : Prop) (s s' : ExecState κ σ η) : Prop :=
  s'.negdepth = s.negdepth ∧ ∃ new, s'.trace = new ++ s.trace ∧
    (∀ e ∈ new, s.negdepth ≤ e.1) ∧ (p ↔ ∃ e ∈ new, e.1 = s.negdepth ∧ e.2.Stops)

theorem Logs.trans {p q : Prop} {s₁ s₂ s₃ : ExecState κ σ η} (h₁ : Logs p s₁ s₂)
    (h₂ : Logs q s₂ s₃) : Logs (p ∨ q) s₁ s₃ := by
  obtain ⟨hd₁, new₁, ht₁, hn₁, hp⟩ := h₁
  obtain ⟨hd₂, new₂, ht₂, hn₂, hq⟩ := h₂
  rw [hd₁] at hn₂ hq
  refine ⟨hd₂.trans hd₁, new₂ ++ new₁, by rw [ht₂, ht₁, List.append_assoc], ?_, ?_⟩
  · intro e he
    exact (List.mem_append.mp he).elim (hn₂ e) (hn₁ e)
  · rw [hp, hq]
    simp only [List.mem_append, or_and_right, exists_or]
    exact or_comm

/-- `x` ends with the status `r` of its result when it starts with the status `p₀`. -/
def Tracks (p₀ : Prop) (x : Exec κ σ η α) (r : α → Prop) : Prop :=
  ∀ s, wp (fun _ => True) x (fun a s' => ∃ q, Logs q s s' ∧ (r a ↔ p₀ ∨ q)) s

variable {p₀ : Prop}

theorem Tracks.bind {x : Exec κ σ η α} {f : α → Exec κ σ η β} {p : α → Prop} {r : β → Prop}
    (hx : Tracks p₀ x p) (hf : ∀ a, Tracks (p a) (f a) r) : Tracks p₀ (x >>= f) r := by
  intro s
  refine (wp_bind ..).mpr (wp_mono (hx s) ?_)
  rintro a s₁ ⟨q₁, hl₁, hq₁⟩
  refine wp_mono (hf a s₁) ?_
  rintro b s₂ ⟨q₂, hl₂, hq₂⟩
  exact ⟨q₁ ∨ q₂, hl₁.trans hl₂, by rw [hq₂, hq₁, or_assoc]⟩

theorem Tracks.congr {x : Exec κ σ η α} {p₁ : Prop} {r : α → Prop} (h : Tracks p₁ x r)
    (hp : p₀ ↔ p₁) : Tracks p₀ x r := by
  rw [propext hp]
  exact h

theorem Tracks.of_inert {x : Exec κ σ η α} (hx : Inert x) : Tracks p₀ x fun _ => p₀ := by
  intro s
  refine wp_mono (hx s) ?_
  rintro a s' ⟨hd, -, new, ht, hn⟩
  refine ⟨False, ⟨hd, new, ht, fun e he => Nat.le_of_eq (hn e he).1.symm, ?_⟩, by simp⟩
  simp only [false_iff, not_exists, not_and]
  intro e he _ hs
  have hheap := (hn e he).2
  cases h : e.2 <;> simp_all [ExecEvent.IsHeap, ExecEvent.Stops, ExecEvent.Fails]

theorem Tracks.pure {a : α} {r : α → Prop} (h : r a ↔ p₀) :
    Tracks p₀ (pure a : Exec κ σ η α) r :=
  fun s => ⟨False, ⟨rfl, [], rfl, by simp, by simp⟩, by simp [h]⟩

theorem Tracks.throw {e : ExecFault} {r : α → Prop} :
    Tracks p₀ (throw e : Exec κ σ η α) r := fun _ => trivial

theorem tracks_emit (e : ExecEvent κ η) :
    Tracks p₀ (emit e : Exec κ σ η Unit) fun _ => p₀ ∨ e.Stops :=
  fun s => ⟨e.Stops, ⟨rfl, [(s.negdepth, e)], rfl, by simp, by simp⟩, Iff.rfl⟩

theorem tracks_execCtxPushHandle (handle : η) :
    Tracks p₀ (execCtxPushHandle handle : Exec κ σ η Unit) fun _ => p₀ := by
  refine fun s => wp_execCtxPushHandle.mpr ?_
  split
  · exact ⟨False, ⟨rfl, [(s.negdepth, .pushRefused)], rfl, by simp,
      by simp [ExecEvent.Stops, ExecEvent.Fails]⟩, by simp⟩
  · exact ⟨False, ⟨rfl, [], rfl, by simp, by simp⟩, by simp⟩

theorem tracks_execCtxPopHandle :
    Tracks p₀ (execCtxPopHandle : Exec κ σ η Unit) fun _ => p₀ := by
  refine fun s => wp_execCtxPopHandle.mpr ?_
  cases s.stack with
  | nil => trivial
  | cons h stack => exact ⟨False, ⟨rfl, [], rfl, by simp, by simp⟩, by simp⟩

theorem tracks_executeOut (C : Callbacks κ σ η D) (stub : κ) (handle : η) :
    Tracks p₀ (executeOut C stub handle) fun _ => p₀ := by
  unfold executeOut
  split
  · exact tracks_execCtxPopHandle
  · refine (Tracks.of_inert (inert_callback _)).bind fun _ => ?_
    refine (tracks_emit _).bind fun _ => tracks_execCtxPopHandle.congr ?_
    simp [ExecEvent.Stops, ExecEvent.Fails]

/-! ## The evaluators -/

variable {C : Callbacks κ σ η D} {R : Doubles D}

/-- The status of `execute_syntax_val` and `execute_syntax_call`. -/
abbrev ValFailed (r : ℤ × LreValue D) : Prop := r.1 ≠ 0

/-- The status of an argument: of its value or of its handler. -/
abbrev ArgFailed (r : ℤ × ℤ) : Prop := r.1 ≠ 0 ∨ r.2 ≠ lreRetOk

/-- The status of an item. -/
abbrev NoVerdict (ret : ℤ) : Prop := vaildLreResults ret = false

theorem tracks_valNext {opt : Sym} {arg tmparg : LreValue D} {ret : ℤ}
    {more : LreValue D → Exec κ σ η (ℤ × LreValue D)}
    (hmore : ∀ arg, Tracks False (more arg) ValFailed) :
    Tracks (ret ≠ 0) (valNext R opt arg ret tmparg more) ValFailed := by
  unfold valNext
  split
  · rename_i hret
    refine (tracks_emit _).bind fun _ => .pure ?_
    simp [ValFailed, einval, ExecEvent.Stops, ExecEvent.Fails]
  · rename_i hret
    refine (Tracks.of_inert (inert_valStep _ _ _ _)).bind fun step => ?_
    cases step with
    | error =>
      refine (tracks_emit _).bind fun _ => .pure ?_
      simp [ValFailed, einval, ExecEvent.Stops, ExecEvent.Fails]
    | done arg => exact .pure (by simp [ValFailed, hret])
    | next arg => exact (hmore arg).congr (by simp [hret])

theorem tracks_executeVar (handle : η) (valstub : κ) :
    Tracks False (executeVar C handle valstub) ValFailed := by
  unfold executeVar
  refine (Tracks.of_inert (inert_castStub _ _ _)).bind fun _ => ?_
  refine (Tracks.of_inert (inert_callback _)).bind fun ⟨ret, sets⟩ => ?_
  refine (tracks_emit _).bind fun _ => ?_
  refine (Tracks.of_inert (inert_setValues _ _)).bind fun tmparg => .pure ?_
  simp [ValFailed, ExecEvent.Stops]

theorem tracks_executeArg {handle : η} {astub : κ} {val : Exec κ σ η (ℤ × LreValue D)}
    (hval : Tracks False val ValFailed) :
    Tracks False (executeArg C handle astub val) ArgFailed := by
  unfold executeArg
  refine hval.bind fun ⟨ret, arg⟩ => ?_
  dsimp only
  split
  · rename_i hret
    exact .pure (by simp [ValFailed, ArgFailed, hret])
  · rename_i hret
    refine (Tracks.of_inert (inert_castStub _ _ _)).bind fun _ => ?_
    refine (Tracks.of_inert (inert_callback _)).bind fun ret' => ?_
    refine (tracks_emit _).bind fun _ => ?_
    split
    · rename_i hret'
      exact .pure (by simp [ArgFailed, hret', ExecEvent.Stops, ExecEvent.Fails])
    · rename_i hret'
      refine (Tracks.of_inert (inert_lreValueRelease _)).bind fun _ => .pure ?_
      simp_all [ArgFailed, ExecEvent.Stops, ExecEvent.Fails]

theorem tracks_executeCallExec (cstub : κ) (handle : η) :
    Tracks False (executeCallExec C cstub handle) ValFailed := by
  unfold executeCallExec
  split
  · exact (tracks_emit _).bind fun _ => .pure (by simp [ValFailed, einval, ExecEvent.Stops])
  · refine (Tracks.of_inert (inert_callback _)).bind fun ⟨ret, sets⟩ => ?_
    refine (tracks_emit _).bind fun _ => ?_
    refine (Tracks.of_inert (inert_setValues _ _)).bind fun arg => .pure ?_
    by_cases h : ret = 0 <;> simp [ValFailed, h, einval, ExecEvent.Stops, ExecEvent.Fails]

theorem tracks_executeCallInner {cstub : κ} {handle : η} {args : Exec κ σ η (ℤ × ℤ)}
    (hargs : Tracks False args ArgFailed) :
    Tracks False (executeCallInner C cstub handle args) fun r => ValFailed r.2 := by
  refine hargs.bind fun ⟨valret, argret⟩ => ?_
  dsimp only
  split
  · rename_i h
    exact .pure (by simp [ArgFailed, ValFailed, h])
  · rename_i h
    split
    · rename_i h'
      exact .pure (by simp [ArgFailed, ValFailed, h', einval])
    · rename_i h'
      exact ((tracks_executeCallExec _ _).congr (by simp_all [ArgFailed])).bind
        fun _ => .pure Iff.rfl

theorem tracks_executeCall {cstub : κ} {args : η → Exec κ σ η (ℤ × ℤ)}
    (hargs : ∀ handle, Tracks False (args handle) ArgFailed) :
    Tracks False (executeCall C cstub args) ValFailed := by
  unfold executeCall
  refine (Tracks.of_inert (inert_castStub _ _ _)).bind fun _ => ?_
  refine (Tracks.of_inert (inert_callback _)).bind fun handle => ?_
  refine (tracks_emit _).bind fun _ => ?_
  cases handle with
  | none => exact .pure (by simp [ValFailed, einval, ExecEvent.Stops, ExecEvent.Fails])
  | some handle =>
    refine (tracks_execCtxPushHandle handle).bind fun _ => ?_
    refine ((tracks_executeCallInner (hargs handle)).congr
      (by simp [ExecEvent.Stops, ExecEvent.Fails])).bind fun ⟨returned, r⟩ => ?_
    cases returned with
    | true => exact (tracks_emit _).bind fun _ => .pure (by simp [ExecEvent.Stops, ExecEvent.Fails])
    | false => exact (tracks_executeOut _ _ _).bind fun _ => .pure Iff.rfl

mutual

theorem executeOperand_tracks : ∀ (v : ResolvedVal κ) (handle : η),
    Tracks False (executeOperand C R handle v) ValFailed
  | .val x, _ => .pure (by simp [ValFailed])
  | .var valstub, handle => tracks_executeVar handle valstub
  | .valblock childs, _ =>
    (Tracks.of_inert inert_execCtxGetHandle).bind fun handle =>
      executeValLoop_tracks childs handle _ _
  | .call _ args, _ => tracks_executeCall fun handle => executeArgs_tracks args handle

theorem executeValLoop_tracks : ∀ (vs : ResolvedVals κ) (handle : η) (opt : Sym)
    (arg : LreValue D), Tracks False (executeValLoop C R handle vs opt arg) ValFailed
  | .nil, _, _, _ => .pure (by simp [ValFailed])
  | .cons node _ rest, handle, _, _ =>
    (executeOperand_tracks node handle).bind fun _ =>
      tracks_valNext fun arg => executeValLoop_tracks rest handle _ arg

theorem executeArgs_tracks : ∀ (args : ResolvedArgs κ) (handle : η),
    Tracks False (executeArgs C R handle args) ArgFailed
  | .nil, _ => .pure (by simp [ArgFailed])
  | .cons _ valchilds rest, handle => by
    refine (tracks_executeArg ((Tracks.of_inert inert_execCtxGetHandle).bind fun handle =>
      executeValLoop_tracks valchilds handle _ _)).bind fun ⟨valret, argret⟩ => ?_
    dsimp only
    split
    · rename_i h
      exact .pure (by simp [ArgFailed, h])
    · rename_i h
      exact (executeArgs_tracks rest handle).congr (by simp [ArgFailed, h])

end

/-- What `res` holds between two nodes of `execute_syntax_childs`. -/
def ChildsRes (res : ℤ) : Prop := res = valUninitialized ∨ vaildLreResults res = true

theorem childsRes_valid {opt : Sym} {res ret res' : ℤ} (hret : vaildLreResults ret = true)
    (h : childsRes opt res ret = some res') : vaildLreResults res' = true := by
  unfold childsRes at h
  split at h
  · exact Option.some.inj h ▸ hret
  · split at h
    · obtain rfl := Option.some.inj h
      split <;> rfl
    · obtain rfl := Option.some.inj h
      split <;> rfl
    · simp at h

theorem tracks_childsNext {opt next : Sym} {res ret : ℤ} {more : ℤ → Exec κ σ η ℤ}
    (hmore : ∀ res, ChildsRes res → Tracks False (more res) NoVerdict) :
    Tracks (NoVerdict ret) (childsNext opt next res ret more) NoVerdict := by
  unfold childsNext
  split
  · rename_i h
    exact .pure (by simpa [NoVerdict, retDead, retDeadVal, vaildLreResults] using h)
  · rename_i h
    have hret : vaildLreResults ret = true := by simpa using h
    cases hres : childsRes opt res ret with
    | none =>
      refine (tracks_emit _).bind fun _ => .pure ?_
      simp [NoVerdict, retDead, retDeadVal, vaildLreResults, ExecEvent.Stops]
    | some res' =>
      have hres' := childsRes_valid hret hres
      dsimp only
      split
      · exact .pure (by simp [NoVerdict, hret, hres'])
      · exact (hmore res' (.inr hres')).congr (by simp [NoVerdict, hret])

theorem tracks_negated {x : Exec κ σ η α} {p : α → Prop} (hx : Tracks False x p) :
    Tracks False (negated x) fun _ => False := by
  refine fun s => wp_negated.mpr (wp_mono (hx _) ?_)
  rintro a s' ⟨q, ⟨-, new, ht, hn, -⟩, -⟩
  refine ⟨False, ⟨rfl, new, ht, fun e he => Nat.le_of_succ_le (hn e he), ?_⟩, by simp⟩
  simp only [false_iff, not_exists, not_and]
  intro e he hd
  exact absurd (hn e he) (by simp [hd])

theorem tracks_executeBlock {negative : Bool} {childs : Exec κ σ η ℤ}
    (hchilds : Tracks False childs NoVerdict) :
    Tracks False (executeBlock negative childs) NoVerdict := by
  unfold executeBlock
  split
  · refine (tracks_negated hchilds).bind fun ret => .pure ?_
    by_cases h : ret = 0 <;> simp [NoVerdict, vaildLreResults, h]
  · exact hchilds

theorem tracks_executeSyntaxExpr (estub : κ) (opt : Sym) (valchilds : ResolvedVals κ) :
    Tracks False (executeSyntaxExpr C R estub opt valchilds) NoVerdict := by
  unfold executeSyntaxExpr executeSyntaxVal
  refine (Tracks.of_inert inert_execCtxGetHandle).bind fun handle => ?_
  refine ((Tracks.of_inert inert_execCtxGetHandle).bind fun handle =>
    executeValLoop_tracks valchilds handle _ _).bind fun ⟨ret, arg⟩ => ?_
  dsimp only
  split
  · rename_i h
    exact .pure (by simp [ValFailed, NoVerdict, h, retDead, retDeadVal, vaildLreResults])
  · rename_i h
    refine (Tracks.of_inert (inert_castStub _ _ _)).bind fun _ => ?_
    refine (Tracks.of_inert (inert_callback _)).bind fun ret' => ?_
    refine (tracks_emit _).bind fun _ => ?_
    split
    · rename_i h'
      refine .pure ?_
      simp_all [ExecEvent.Stops, ExecEvent.Fails, NoVerdict, retDead, retDeadVal, vaildLreResults]
    · rename_i h'
      refine (Tracks.of_inert (inert_lreValueRelease _)).bind fun _ => .pure ?_
      simp_all [ExecEvent.Stops, ExecEvent.Fails, NoVerdict]

theorem tracks_executeFuncInner {fstub : κ} {handle : η} {args : Exec κ σ η (ℤ × ℤ)}
    {body : Exec κ σ η ℤ} (hargs : Tracks False args ArgFailed)
    (hbody : Tracks False body NoVerdict) :
    Tracks False (executeFuncInner C fstub handle args body) NoVerdict := by
  refine hargs.bind fun ⟨valret, argret⟩ => ?_
  dsimp only
  split
  · rename_i h
    exact .pure (by simp [h, ArgFailed, NoVerdict, retDead, retDeadVal, vaildLreResults])
  · rename_i h
    split
    · exact hbody.congr (by simp [h, ArgFailed])
    · refine (Tracks.of_inert (inert_callback _)).bind fun ret => ?_
      refine (tracks_emit _).bind fun _ => ?_
      split
      · rename_i h'
        refine .pure ?_
        simp [h', ExecEvent.Stops, ExecEvent.Fails, NoVerdict, retDead, retDeadVal,
          vaildLreResults]
      · rename_i h'
        exact hbody.congr (by simp_all [ArgFailed, ExecEvent.Stops, ExecEvent.Fails])

theorem tracks_executeFunc {fstub : κ} {args : η → Exec κ σ η (ℤ × ℤ)} {body : Exec κ σ η ℤ}
    (hargs : ∀ handle, Tracks False (args handle) ArgFailed)
    (hbody : Tracks False body NoVerdict) :
    Tracks False (executeFunc C fstub args body) NoVerdict := by
  unfold executeFunc
  refine (Tracks.of_inert (inert_castStub _ _ _)).bind fun _ => ?_
  refine (Tracks.of_inert (inert_callback _)).bind fun handle => ?_
  refine (tracks_emit _).bind fun _ => ?_
  cases handle with
  | none =>
    refine .pure ?_
    simp [ExecEvent.Stops, ExecEvent.Fails, NoVerdict, retDead, retDeadVal, vaildLreResults]
  | some handle =>
    refine (tracks_execCtxPushHandle handle).bind fun _ => ?_
    refine ((tracks_executeFuncInner (hargs handle) hbody).congr
      (by simp [ExecEvent.Stops, ExecEvent.Fails])).bind fun ret => ?_
    exact (tracks_executeOut _ _ _).bind fun _ => .pure Iff.rfl

mutual

theorem executeItem_tracks : ∀ node : ResolvedItem κ,
    Tracks False (executeItem C R node) NoVerdict
  | .func _ args body =>
    tracks_executeFunc (fun handle => executeArgs_tracks args handle)
      (executeChildsLoop_tracks body _ _ (.inl rfl))
  | .block _ childs => tracks_executeBlock (executeChildsLoop_tracks childs _ _ (.inl rfl))
  | .expr estub opt valchilds => tracks_executeSyntaxExpr estub opt valchilds

/-- **An item list has no verdict exactly when a stopping event was emitted in it**, negated
blocks apart. -/
theorem executeChildsLoop_tracks : ∀ (items : ResolvedItems κ) (opt : Sym) (res : ℤ),
    ChildsRes res → Tracks False (executeChildsLoop C R items opt res) NoVerdict
  | .nil, _, res, hres => by
    unfold executeChildsLoop
    split
    · rename_i h
      refine (tracks_emit _).bind fun _ => .pure ?_
      simp [h, NoVerdict, valUninitialized, vaildLreResults, ExecEvent.Stops]
    · rename_i h
      exact .pure (by simp [NoVerdict, hres.resolve_left h])
  | .cons node _ rest, _, _, _ =>
    (executeItem_tracks node).bind fun _ =>
      tracks_childsNext fun res hres => executeChildsLoop_tracks rest _ res hres

end

/-! ## Fail-closed evaluation -/

/-- **Fail-closed, exactly.** In an execution that returns, a failing callback or value evaluation
keeps the rule from having a verdict if and only if nothing fails, or an event that stops the
evaluators is emitted outside all negated blocks. -/
theorem interpExecute_failClosed_iff (C : Callbacks κ σ η D) (R : Doubles D) (stacksize : ℕ)
    (tree : ResolvedItems κ) (env : σ) (ret : ℤ) (s : ExecState κ σ η)
    (h : interpExecute C R stacksize tree env = .ok (ret, s)) :
    ((∃ e ∈ s.trace, e.2.Fails) → ret ≠ 0 ∧ ret ≠ 1) ↔
      (∀ e ∈ s.trace, ¬ e.2.Fails) ∨ ∃ e ∈ s.trace, e.1 = 0 ∧ e.2.Stops := by
  have ht := executeChildsLoop_tracks (C := C) (R := R) tree .reserved valUninitialized (.inl rfl)
    ⟨env, [], stacksize, 0, [], 0⟩
  obtain ⟨q, ⟨-, new, hnew, -, hq⟩, hret⟩ := ht.of_ok h
  rw [List.append_nil] at hnew
  subst hnew
  have hverdict : ret ≠ 0 ∧ ret ≠ 1 ↔ ∃ e ∈ s.trace, e.1 = 0 ∧ e.2.Stops := by
    rw [← hq, ← false_or (p := q), ← hret]
    simp [NoVerdict, vaildLreResults, and_comm]
  rw [hverdict]
  constructor
  · intro h
    by_cases hf : ∃ e ∈ s.trace, e.2.Fails
    · exact .inr (h hf)
    · exact .inl (by simpa using hf)
  · rintro (h | h) ⟨e, he, hf⟩
    · exact absurd hf (h e he)
    · exact h

/-- The sample components with argument handlers that fail. -/
def failingArgs : Callbacks KeystubType Unit Unit Unit :=
  { sampleCallbacks with argHandler := fun _ _ _ _ => (-1, ()) }

/-- `f(a=1){e==1}` -/
def argFunc : ResolvedItem KeystubType :=
  .func .func (.cons .arg oneVal .nil) (ResolvedItem.expr .expr .equal oneVal).single

/-- Outside a negated block the failure of the argument handler keeps the rule from a verdict. -/
theorem interpExecute_argFunc :
    ∃ s, interpExecute failingArgs unitDoubles 8192 argFunc.single () =
      .ok (retDead, s) ∧
    (((∃ e ∈ s.trace, e.2.Fails) → retDead ≠ 0 ∧ retDead ≠ 1) ↔
      (∀ e ∈ s.trace, ¬ e.2.Fails) ∨ ∃ e ∈ s.trace, e.1 = 0 ∧ e.2.Stops) := by
  have h : interpExecute failingArgs unitDoubles 8192 argFunc.single () =
      .ok (retDead, ⟨(), [], 8192, 0,
        [(0, .destructor .func ()), (0, .argHandler .arg () (-1)),
          (0, .constructor .func (some ()))], 0⟩) := by
    decide +kernel
  exact ⟨_, h, interpExecute_failClosed_iff _ _ _ _ _ _ _ h⟩

/-- In the negated block `!(f(a=1){e==1})` the same failure ends in the verdict FALSE. -/
theorem interpExecute_negated_failure :
    ¬ ∀ (tree : ResolvedItems KeystubType) (ret : ℤ) (s : ExecState KeystubType Unit Unit),
      interpExecute failingArgs unitDoubles 8192 tree () = .ok (ret, s) →
      (∃ e ∈ s.trace, e.2.Fails) → ret ≠ 0 ∧ ret ≠ 1 := by
  intro h
  have hrun : interpExecute failingArgs unitDoubles 8192
      (ResolvedItem.block true argFunc.single).single () =
      .ok (0, ⟨(), [], 8192, 0,
        [(1, .destructor .func ()), (1, .argHandler .arg () (-1)),
          (1, .constructor .func (some ()))], 0⟩) := by
    decide +kernel
  have hret := h _ _ _ hrun ⟨(1, .argHandler .arg () (-1)), by simp,
    by simp [ExecEvent.Fails, lreRetOk]⟩
  exact hret.1 rfl

end Lre
