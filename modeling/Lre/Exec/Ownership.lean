import Lre.Ledger
import Lre.Exec.Losses

/-!
# The heap strings of values

* `FreedOnce`: every string that `lre_value_dup2_string` made is freed by one `lre_value_release`.
* `account_setValues`, `account_valStep`, ..., `account_executeChildsLoop`: the executor keeps
  account of the strings that values own, and loses one exactly when an activation does.
* **`interpExecute_freedOnce_iff`**: an execution that returns has freed every string exactly once
  exactly when it lost none on its way.
-/

namespace Lre

open Run Ledger

variable {κ σ η D α β : Type}

/-! ## The purpose -/

/-- `lre_value_release` of a string. -/
def ExecEvent.isRelease (ptr : ℕ) : ExecEvent κ η → Bool
  | .release p => p = ptr
  | _ => false

/-- How often a string is freed. -/
def releases (trace : List (ℕ × ExecEvent κ η)) (ptr : ℕ) : ℕ :=
  trace.countP fun e => e.2.isRelease ptr

/-- Every heap string is freed exactly once; `strdup` numbers them from zero on. -/
def FreedOnce (s : ExecState κ σ η) : Prop := ∀ ptr, ptr < s.heap → releases s.trace ptr = 1

/-! ## What values own -/

/-- The heap strings that are not freed. -/
def outstanding (s : ExecState κ σ η) (ptr : ℕ) : ℤ :=
  (if ptr < s.heap then 1 else 0) - releases s.trace ptr

/-- The string that a value owns. -/
def LreValue.owns (v : LreValue D) (ptr : ℕ) : ℕ := if v.ptr = some ptr then 1 else 0

def ValStep.owns : ValStep D → ℕ → ℕ
  | .error => nothing
  | .done arg => arg.owns
  | .next arg => arg.owns

/-- The string that an operand hands on, when it does not fail. -/
def operandOwns (r : ℤ × LreValue D) : ℕ → ℕ := if r.1 = 0 then r.2.owns else nothing

theorem forall_owns_eq_zero_iff {v : LreValue D} : (∀ ptr, v.owns ptr = 0) ↔ v.ptr = none := by
  constructor
  · intro h
    cases hptr : v.ptr with
    | none => rfl
    | some ptr =>
      have hzero := h ptr
      rw [LreValue.owns, if_pos hptr] at hzero
      omega
  · intro hptr ptr
    rw [LreValue.owns, hptr]
    exact if_neg nofun

theorem owns_of_ptr_eq_none {v : LreValue D} (h : v.ptr = none) : v.owns = nothing :=
  funext (forall_owns_eq_zero_iff.mpr h)

variable {C : Callbacks κ σ η D} {R : Doubles D} {d : ℕ} {s : ExecState κ σ η}

/-! ## Steps without strings -/

theorem negligible_of_envOnly {x : Exec κ σ η α} (h : EnvOnly x) : Negligible outstanding x := by
  refine fun s => wp_mono (h s) ?_
  rintro a _ ⟨env, rfl⟩ ptr
  rfl

theorem negligible_emit {e : ExecEvent κ η} (he : ∀ ptr, e.isRelease ptr = false) :
    Negligible outstanding (emit e : Exec κ σ η Unit) := by
  intro s ptr
  have hcount : releases ((s.negdepth, e) :: s.trace) ptr = releases s.trace ptr :=
    List.countP_cons_of_neg (by simp [he])
  show (if ptr < s.heap then 1 else 0) - (releases ((s.negdepth, e) :: s.trace) ptr : ℤ) = _
  rw [hcount, outstanding]

theorem negligible_callback (f : σ → α × σ) :
    Negligible outstanding (callback f : Exec κ σ η α) := negligible_of_envOnly (envOnly_callback f)

theorem negligible_castStub (C : Callbacks κ σ η D) (stub : κ) (type : KeystubType) :
    Negligible outstanding (castStub C stub type) :=
  negligible_of_envOnly (envOnly_castStub C stub type)

theorem negligible_execCtxPopHandle :
    Negligible outstanding (execCtxPopHandle : Exec κ σ η Unit) := by
  refine fun s => wp_execCtxPopHandle.mpr ?_
  cases s.stack with
  | nil => trivial
  | cons handle stack => exact fun _ => rfl

theorem negligible_execCtxPushHandle (handle : η) :
    Negligible outstanding (execCtxPushHandle handle : Exec κ σ η Unit) := by
  intro s
  refine wp_execCtxPushHandle.mpr ?_
  split
  · exact negligible_emit (fun _ => rfl) s
  · exact fun _ => rfl

theorem negligible_construct (type : KeystubType) (stub : κ) :
    Negligible outstanding (construct C type stub) :=
  (negligible_castStub C stub type).bind fun _ => (negligible_callback _).bind fun _ =>
    (negligible_emit fun _ => rfl).bind fun _ => .pure _

theorem negligible_executeFuncExec (fstub : κ) (handle : η) :
    Negligible outstanding (executeFuncExec C fstub handle) := by
  unfold executeFuncExec
  split
  · exact .pure _
  · exact (negligible_callback _).bind fun _ => (negligible_emit fun _ => rfl).bind fun _ => .pure _

theorem negligible_executeOut (stub : κ) (handle : η) :
    Negligible outstanding (executeOut C stub handle) := by
  unfold executeOut
  split
  · exact negligible_execCtxPopHandle
  · exact (negligible_callback _).bind fun _ => (negligible_emit fun _ => rfl).bind fun _ =>
      negligible_execCtxPopHandle

/-! ## Strings made and freed -/

theorem account_strdup : Accounts outstanding nothing (strdup : Exec κ σ η ℕ)
    (fun ptr i => if ptr = i then 1 else 0) True s := by
  refine ⟨nothing, fun ptr => ?_, iff_of_true (fun _ => rfl) trivial⟩
  have hcount : releases ((s.negdepth, .strdup s.heap) :: s.trace) ptr = releases s.trace ptr :=
    List.countP_cons_of_neg nofun
  show (if ptr < s.heap + 1 then 1 else 0) -
    (releases ((s.negdepth, .strdup s.heap) :: s.trace) ptr : ℤ) + (0 : ℕ) =
      (if ptr < s.heap then 1 else 0) - (releases s.trace ptr : ℤ) +
        (if s.heap = ptr then 1 else 0 : ℕ) + (0 : ℕ)
  rw [hcount]
  by_cases hptr : s.heap = ptr
  · rw [if_pos (by omega), if_neg (by omega), if_pos hptr]
    omega
  · rw [if_neg hptr]
    by_cases hlt : ptr < s.heap
    · rw [if_pos (by omega), if_pos hlt]
      omega
    · rw [if_neg (by omega), if_neg hlt]
      omega

/-- The last string that is stored is owned in the end; the ones before it are lost. -/
theorem account_setValues (sets : List (SetValue D)) (val : LreValue D) (s : ExecState κ σ η) :
    Accounts outstanding val.owns (setValues sets val) LreValue.owns
      (dups sets = 0 ∨ dups sets = 1 ∧ val.ptr = none) s := by
  induction sets generalizing val s with
  | nil => exact .return rfl (.inl rfl)
  | cons set sets ih =>
    cases set with
    | setInt ival => exact ih { val with content := .int ival } s
    | setDouble dval => exact ih { val with content := .double dval } s
    | setString str => exact ih { val with content := .string str } s
    | dup2String str =>
      have hdups : dups (.dup2String str :: sets) = dups sets + 1 := List.countP_cons_of_pos rfl
      -- the string of the value is lost
      have hnew := (account_strdup (s := s)).lose val.owns
      simp only [nothing, Nat.zero_add] at hnew
      refine hnew.bind fun ptr s' _ => ⟨dups sets = 0, ?_, ?_⟩
      · have hheld : (fun i => if ptr = i then 1 else 0) =
            LreValue.owns (⟨.string str, some ptr⟩ : LreValue D) := by
          funext i
          simp [LreValue.owns]
        rw [hheld]
        refine (ih ⟨.string str, some ptr⟩ s').congr ?_
        simp
      · rw [hdups, forall_owns_eq_zero_iff, true_and]
        constructor
        · rintro ⟨hptr, hzero⟩
          exact .inr ⟨by omega, hptr⟩
        · rintro (hzero | ⟨hone, hptr⟩)
          · omega
          · exact ⟨hptr, by omega⟩

theorem ptr_setValues {sets : List (SetValue D)} {val v : LreValue D} {s s' : ExecState κ σ η}
    (h : setValues sets val s = .ok (v, s')) : v.ptr = none ↔ val.ptr = none ∧ dups sets = 0 := by
  induction sets generalizing val s with
  | nil =>
    cases h
    exact (and_iff_left rfl).symm
  | cons set sets ih =>
    cases set with
    | setInt ival => exact @ih { val with content := .int ival } s h
    | setDouble dval => exact @ih { val with content := .double dval } s h
    | setString str => exact @ih { val with content := .string str } s h
    | dup2String str =>
      have hdups : dups (.dup2String str :: sets) = dups sets + 1 := List.countP_cons_of_pos rfl
      obtain ⟨ptr, s₁, hstrdup, hrest⟩ := bind_inv h
      rw [ih hrest, hdups]
      exact iff_of_false (fun h => nomatch h.1) fun h => nomatch h.2

theorem account_stores (sets : List (SetValue D)) (s : ExecState κ σ η) {ret : ℤ} {ok : Bool}
    (hok : ok = true ↔ ret = 0) : Accounts outstanding nothing (do
        let arg ← setValues sets .init
        return (ret, arg)) operandOwns (¬(Moment.stores sets ok).Loses R) s := by
  have hnone : (LreValue.init : LreValue D).ptr = none := rfl
  have hstores := account_setValues sets .init s
  rw [owns_of_ptr_eq_none hnone] at hstores
  refine hstores.bind fun v s' hrun => ?_
  by_cases hret : ret = 0
  · have howns : operandOwns (ret, v) = v.owns := if_pos hret
    refine ⟨True, .return howns.symm trivial, ?_⟩
    rw [Moment.Loses, if_pos (hok.mpr hret), and_true, and_iff_left hnone]
    omega
  · have howns : operandOwns (ret, v) = nothing := if_neg hret
    refine ⟨v.ptr = none, .drop howns forall_owns_eq_zero_iff, ?_⟩
    rw [ptr_setValues hrun, Moment.Loses, if_neg (mt hok.mp hret), and_iff_right hnone,
      and_iff_left hnone]
    omega

theorem account_lreValueRelease (val : LreValue D) (s : ExecState κ σ η) :
    Accounts outstanding val.owns (lreValueRelease val) (fun _ => nothing) True s := by
  unfold lreValueRelease
  cases hptr : val.ptr with
  | none => exact .return (owns_of_ptr_eq_none hptr) trivial
  | some ptr =>
    refine ⟨nothing, fun i => ?_, iff_of_true (fun _ => rfl) trivial⟩
    have hcount : releases ((s.negdepth, .release ptr) :: s.trace) i =
        releases s.trace i + val.owns i := by
      rw [releases, List.countP_cons, LreValue.owns, hptr]
      simp [ExecEvent.isRelease, releases]
    show (if i < s.heap then 1 else 0) -
      (releases ((s.negdepth, .release ptr) :: s.trace) i : ℤ) + val.owns i =
        (if i < s.heap then 1 else 0) - (releases s.trace i : ℤ) + (0 : ℕ) + (0 : ℕ)
    rw [hcount]
    omega

/-! ## Operands that meet -/

section Meet

variable {opt : Sym} {arg tmparg : LreValue D} {step : ValStep D}

theorem account_meet_error (hcalc : ¬Calculates R opt arg.content tmparg.content)
    (hpass : ¬Passes arg.content tmparg.content) :
    Accounts outstanding (fun i => arg.owns i + tmparg.owns i)
      (pure .error : Exec κ σ η (ValStep D)) ValStep.owns
        (¬(Moment.meet opt arg tmparg).Loses R) s := by
  refine .drop rfl ?_
  simp only [Nat.add_eq_zero_iff, forall_and, forall_owns_eq_zero_iff]
  simp [Moment.Loses, hcalc, hpass]

theorem account_meet_passes (hcalc : ¬Calculates R opt arg.content tmparg.content)
    (hpass : Passes arg.content tmparg.content) (hstep : step.owns = tmparg.owns) :
    Accounts outstanding (fun i => arg.owns i + tmparg.owns i)
      (pure step : Exec κ σ η (ValStep D)) ValStep.owns
        (¬(Moment.meet opt arg tmparg).Loses R) s := by
  refine .pure arg.owns (fun i => ?_) (forall_owns_eq_zero_iff.trans ?_)
  · rw [hstep]
    exact Nat.add_comm _ _
  · simp [Moment.Loses, hcalc, hpass]

theorem account_meet_calculates (hcalc : Calculates R opt arg.content tmparg.content)
    (hpass : ¬Passes arg.content tmparg.content) (hstep : step.owns = arg.owns) :
    Accounts outstanding (fun i => arg.owns i + tmparg.owns i)
      (pure step : Exec κ σ η (ValStep D)) ValStep.owns
        (¬(Moment.meet opt arg tmparg).Loses R) s := by
  refine .pure tmparg.owns (fun i => ?_) (forall_owns_eq_zero_iff.trans ?_)
  · rw [hstep]
  · simp [Moment.Loses, hcalc, hpass]

theorem account_valStep (opt : Sym) (arg tmparg : LreValue D) (s : ExecState κ σ η) :
    Accounts outstanding (fun i => arg.owns i + tmparg.owns i) (valStep R opt arg tmparg)
      ValStep.owns (¬(Moment.meet opt arg tmparg).Loses R) s := by
  obtain ⟨carg, parg⟩ := arg
  obtain ⟨ctmparg, ptmparg⟩ := tmparg
  unfold valStep
  cases ctmparg with
  | unknown => exact account_meet_error (by simp [Calculates]) (by simp [Passes])
  | string str => exact account_meet_passes (by simp [Calculates]) (by simp [Passes]) rfl
  | int b =>
    cases carg with
    | unknown => exact account_meet_passes (by simp [Calculates]) trivial rfl
    | int a =>
      dsimp only
      cases hcalc : lreCalcInt a b opt with
      | none => trivial
      | some r =>
        dsimp only
        by_cases hdead : r = retDeadVal
        · rw [if_pos hdead]
          exact account_meet_error (by simp [Calculates, hcalc, hdead]) (by simp [Passes])
        · rw [if_neg hdead]
          exact account_meet_calculates (by simp [Calculates, hcalc, hdead]) (by simp [Passes]) rfl
    | double a => trivial
    | string str => trivial
  | double b =>
    cases carg with
    | unknown => exact account_meet_passes (by simp [Calculates]) trivial rfl
    | int a => trivial
    | double a =>
      dsimp only [valdouble]
      rw [pure_bind, pure_bind]
      by_cases hdead : R.valint (lreCalcDobule R a b opt) = retDeadVal
      · rw [if_pos hdead]
        exact account_meet_error (by simp [Calculates, hdead]) (by simp [Passes])
      · rw [if_neg hdead]
        exact account_meet_calculates (by simp [Calculates, hdead]) (by simp [Passes]) rfl
    | string str => trivial

end Meet

/-! ## Callbacks -/

theorem account_executeVar (handle : η) (valstub : κ) (s : ExecState κ σ η) :
    Accounts outstanding nothing (executeVar C handle valstub) operandOwns
      (¬(Moment.stores (C.varHandler valstub handle s.env).1.2 true).Loses R) s := by
  refine .negligible_bind (negligible_castStub C valstub .var) fun _ s₁ hcast => ?_
  obtain rfl := castStub_ok hcast
  refine .negligible_bind (negligible_callback _) fun r s₂ hcall => ?_
  cases hcall
  refine .negligible_bind (negligible_emit fun _ => rfl) fun _ s₃ _ => ?_
  exact account_stores _ s₃ (iff_of_true rfl rfl)

theorem account_executeCallExec (cstub : κ) (handle : η) (s : ExecState κ σ η) :
    Accounts outstanding nothing (executeCallExec C cstub handle) operandOwns
      (∀ f, C.callExec cstub = some f → ¬(Moment.stores (f handle s.env).1.2
        ((f handle s.env).1.1 = 0)).Loses R) s := by
  unfold executeCallExec
  cases hexec : C.callExec cstub with
  | none =>
    refine .negligible_bind (negligible_emit fun _ => rfl) fun _ s₁ _ => ?_
    exact .return rfl fun f hf => absurd hf (by simp)
  | some f =>
    refine .negligible_bind (negligible_callback _) fun r s₁ hcall => ?_
    cases hcall
    refine .negligible_bind (negligible_emit fun _ => rfl) fun _ s₂ _ => ?_
    have hok : decide ((f handle s.env).1.1 = 0) = true ↔
        (if (f handle s.env).1.1 ≠ 0 then einval else 0) = 0 := by
      by_cases hret : (f handle s.env).1.1 = 0
      · simp [hret]
      · simp [hret, einval]
    simp only [Option.some.injEq, forall_eq']
    exact account_stores _ s₂ hok

theorem account_handled (ok : Bool) {bad : Prop} [Decidable bad] (hbad : bad ↔ ok = false)
    (arg : LreValue D) (a b : α) (s : ExecState κ σ η) :
    Accounts outstanding arg.owns (if bad then return a else do
        lreValueRelease arg
        return b) (fun _ => nothing) (¬(Moment.handled arg ok).Loses R) s := by
  by_cases h : bad
  · rw [if_pos h]
    refine .drop rfl (forall_owns_eq_zero_iff.trans ?_)
    simp [Moment.Loses, hbad.mp h]
  · rw [if_neg h]
    have hrelease := account_lreValueRelease arg s
    refine (hrelease.bind_lossless fun _ s' _ => .return rfl trivial).congr ?_
    simp [Moment.Loses, mt hbad.mpr h]

theorem account_executeArg {handle : η} {astub : κ} {val : Exec κ σ η (ℤ × LreValue D)}
    {P : Prop} (hval : Accounts outstanding nothing val operandOwns P s) :
    Accounts outstanding nothing (executeArg C handle astub val) (fun _ => nothing)
      (P ∧ ∀ p s', val s = .ok (p, s') → p.1 = 0 → ¬(Moment.handled p.2
        ((C.argHandler astub handle p.2.content s'.env).1 = lreRetOk)).Loses R) s := by
  refine hval.bind ?_
  rintro ⟨ret, arg⟩ s₁ hrun
  refine ⟨_, ?_, and_congr_right fun _ => (forall_ok_iff hrun).symm⟩
  dsimp only
  by_cases hret : ret = 0
  · rw [if_neg (not_not.mpr hret)]
    have howns : operandOwns (ret, arg) = arg.owns := if_pos hret
    rw [howns]
    refine .negligible_bind (negligible_castStub C astub .arg) fun _ s₂ hcast => ?_
    obtain rfl := castStub_ok hcast
    refine .negligible_bind (negligible_callback _) fun r s₃ hcall => ?_
    cases hcall
    refine .negligible_bind (negligible_emit fun _ => rfl) fun _ s₄ _ => ?_
    rw [forall_prop_of_true hret]
    exact account_handled _ (by simp) arg _ _ s₄
  · rw [if_pos hret]
    have howns : operandOwns (ret, arg) = nothing := if_neg hret
    rw [howns]
    exact .return rfl fun h => absurd h hret

/-! ## The evaluators -/

theorem account_executeSyntaxVal {vs : ResolvedVals κ} (h : ∀ top,
      execCtxGetHandle s = .ok (top, s) → Accounts outstanding nothing
        (executeValLoop C R top vs .reserved .init) operandOwns
          (Lossless C R ⟨d, .valLoop top vs .reserved .init, s⟩) s) :
    Accounts outstanding nothing (executeSyntaxVal C R vs) operandOwns
      (LosslessVal C R d vs s) s := by
  refine .negligible_bind (negligible_of_envOnly envOnly_execCtxGetHandle) fun top s' hget => ?_
  obtain rfl := execCtxGetHandle_ok hget
  refine (h top hget).congr ⟨fun hloss top' hget' => ?_, fun hloss => hloss top hget⟩
  cases hget.symm.trans hget'
  exact hloss

/-- A function or a call: its object is constructed, pushed and taken off. -/
theorem account_object {type : KeystubType} {stub : κ} {inner : η → Exec κ σ η α}
    {close : η → α → Exec κ σ η β} {fail : β} {mid : α → ℕ → ℕ} {out : β → ℕ → ℕ}
    {P : η → ExecState κ σ η → Prop}
    (hinner : ∀ handle s₁ s₂, construct C type stub s = .ok (some handle, s₁) →
      execCtxPushHandle handle s₁ = .ok ((), s₂) →
        Accounts outstanding nothing (inner handle) mid (P handle s₂) s₂)
    (hclose : ∀ handle r s', Accounts outstanding (mid r) (close handle r) out True s')
    (hfail : out fail = nothing) :
    Accounts outstanding nothing (do
      match ← construct C type stub with
      | none => return fail
      | some handle =>
        execCtxPushHandle handle
        let r ← inner handle
        close handle r) out
      (∀ handle s₁ s₂, construct C type stub s = .ok (some handle, s₁) →
        execCtxPushHandle handle s₁ = .ok ((), s₂) → P handle s₂) s := by
  refine .negligible_bind (negligible_construct type stub) fun handle? s₁ hcons => ?_
  cases handle? with
  | none =>
    refine .return hfail.symm fun handle s₁' s₂ hcons' => ?_
    cases hcons.symm.trans hcons'
  | some handle =>
    refine .negligible_bind (negligible_execCtxPushHandle handle) fun _ s₂ hpush => ?_
    refine ((hinner handle s₁ s₂ hcons hpush).bind_lossless fun r s₃ _ =>
      hclose handle r s₃).congr ⟨fun hP handle' s₁' s₂' hcons' hpush' => ?_, fun hP => ?_⟩
    · cases hcons.symm.trans hcons'
      cases hpush.symm.trans hpush'
      exact hP
    · exact hP handle s₁ s₂ hcons hpush

theorem argsFailed_iff {valret argret : ℤ} :
    valret ≠ 0 ∨ argret ≠ lreRetOk ↔ (valret, argret) ≠ (0, lreRetOk) := by
  simp only [ne_eq, Prod.mk.injEq, not_and_or]

theorem account_unlessFailed {valret argret : ℤ} {a : α} {next : Exec κ σ η α} {P : Prop}
    (hnext : (valret, argret) = (0, lreRetOk) →
      Accounts outstanding nothing next (fun _ => nothing) P s) :
    Accounts outstanding nothing (if valret ≠ 0 ∨ argret ≠ lreRetOk then return a else next)
      (fun _ => nothing) ((valret, argret) = (0, lreRetOk) → P) s := by
  by_cases hok : (valret, argret) = (0, lreRetOk)
  · rw [if_neg (mt argsFailed_iff.mp (not_not.mpr hok)), forall_prop_of_true hok]
    exact hnext hok
  · rw [if_pos (argsFailed_iff.mpr hok)]
    exact .return rfl fun h => absurd h hok

theorem account_executeCallInner {cstub : κ} {handle : η} {args : Exec κ σ η (ℤ × ℤ)} {P : Prop}
    (hargs : Accounts outstanding nothing args (fun _ => nothing) P s) :
    Accounts outstanding nothing (executeCallInner C cstub handle args)
      (fun r => operandOwns r.2)
      (P ∧ ∀ p s₃, args s = .ok (p, s₃) → p = (0, lreRetOk) → ∀ f, C.callExec cstub = some f →
        ¬(Moment.stores (f handle s₃.env).1.2 ((f handle s₃.env).1.1 = 0)).Loses R) s := by
  refine hargs.bind ?_
  rintro ⟨valret, argret⟩ s₃ hrun
  refine ⟨_, ?_, and_congr_right fun _ => (forall_ok_iff hrun).symm⟩
  dsimp only
  by_cases hval : valret = 0
  · rw [if_neg (not_not.mpr hval)]
    by_cases harg : argret = lreRetOk
    · rw [if_neg (not_not.mpr harg), hval, harg, forall_prop_of_true rfl]
      exact (account_executeCallExec cstub handle s₃).bind_lossless fun r s' _ =>
        .return rfl trivial
    · rw [if_pos harg]
      exact .return rfl fun hp => absurd (Prod.ext_iff.mp hp).2 harg
  · rw [if_pos hval]
    have howns : operandOwns (valret, (LreValue.init : LreValue D)) = nothing := if_neg hval
    exact .return howns.symm fun hp => absurd (Prod.ext_iff.mp hp).1 hval

theorem account_executeFuncInner {fstub : κ} {handle : η} {args : Exec κ σ η (ℤ × ℤ)}
    {body : Exec κ σ η ℤ} {P : Prop} {Q : ExecState κ σ η → Prop}
    (hargs : Accounts outstanding nothing args (fun _ => nothing) P s)
    (hbody : ∀ s₃ s₄, args s = .ok ((0, lreRetOk), s₃) →
      executeFuncExec C fstub handle s₃ = .ok (0, s₄) →
        Accounts outstanding nothing body (fun _ => nothing) (Q s₄) s₄) :
    Accounts outstanding nothing (executeFuncInner C fstub handle args body) (fun _ => nothing)
      (P ∧ ∀ p s₃, args s = .ok (p, s₃) → p = (0, lreRetOk) → ∀ ret s₄,
        executeFuncExec C fstub handle s₃ = .ok (ret, s₄) → ret = 0 → Q s₄) s := by
  rw [executeFuncInner_eq]
  refine hargs.bind ?_
  rintro ⟨valret, argret⟩ s₃ hrun
  refine ⟨_, ?_, and_congr_right fun _ => (forall_ok_iff hrun).symm⟩
  refine account_unlessFailed fun hok => ?_
  cases hok
  refine .negligible_bind (negligible_executeFuncExec fstub handle) fun ret s₄ hexec => ?_
  rw [forall_ok_iff hexec]
  by_cases hret : ret = 0
  · subst hret
    rw [if_neg (not_not.mpr rfl), forall_prop_of_true rfl]
    exact hbody s₃ s₄ hrun hexec
  · rw [if_pos hret]
    exact .return rfl fun h => absurd h hret

theorem account_valNext {opt : Sym} {arg tmparg : LreValue D} {ret : ℤ}
    {more : LreValue D → Exec κ σ η (ℤ × LreValue D)} {Q : LreValue D → ExecState κ σ η → Prop}
    (hmore : ∀ arg' s', valStep R opt arg tmparg s = .ok (.next arg', s') →
      Accounts outstanding arg'.owns (more arg') operandOwns (Q arg' s') s') :
    Accounts outstanding (fun i => operandOwns (ret, tmparg) i + arg.owns i)
      (valNext R opt arg ret tmparg more) operandOwns
      ((ret ≠ 0 → ¬(Moment.fails arg).Loses R) ∧ (ret = 0 →
        ¬(Moment.meet opt arg tmparg).Loses R ∧ ∀ arg' s',
          valStep R opt arg tmparg s = .ok (.next arg', s') → Q arg' s')) s := by
  unfold valNext
  by_cases hret : ret = 0
  · have howns : operandOwns (ret, tmparg) = tmparg.owns := if_pos hret
    rw [howns, if_neg (not_not.mpr hret), forall_prop_of_true hret]
    simp only [Nat.add_comm (tmparg.owns _)]
    refine (account_valStep opt arg tmparg s).bind fun step s₁ hstep => ?_
    have hvacuous : ret ≠ 0 → ¬(Moment.fails arg).Loses R := fun h => absurd hret h
    refine ⟨∀ arg' s', valStep R opt arg tmparg s = .ok (.next arg', s') → Q arg' s', ?_,
      (and_iff_right hvacuous).symm⟩
    cases step with
    | error =>
      refine .negligible_bind (negligible_emit fun _ => rfl) fun _ _ _ => .return rfl ?_
      intro arg' s' hstep'
      cases hstep.symm.trans hstep'
    | done arg' =>
      refine .return (if_pos rfl).symm ?_
      intro arg'' s' hstep'
      cases hstep.symm.trans hstep'
    | next arg' =>
      refine (hmore arg' s₁ hstep).congr ⟨fun hQ arg'' s' hstep' => ?_, fun hQ => hQ _ _ hstep⟩
      cases hstep.symm.trans hstep'
      exact hQ
  · have howns : operandOwns (ret, tmparg) = nothing := if_neg hret
    rw [howns, if_pos hret]
    simp only [nothing, Nat.zero_add]
    refine .negligible_bind (negligible_emit fun _ => rfl) fun _ _ _ => .drop (if_neg nofun) ?_
    rw [forall_owns_eq_zero_iff, Moment.Loses]
    simp [hret]

mutual

/-- **The strings of an operand.** -/
theorem account_executeOperand : ∀ (v : ResolvedVal κ) (handle : η) (d : ℕ)
    (s : ExecState κ σ η), Accounts outstanding nothing (executeOperand C R handle v) operandOwns
      (Lossless C R ⟨d, .operand handle v, s⟩) s
  | .val _, _, _, _ => .return rfl lossless_val
  | .var valstub, handle, _, s => (account_executeVar handle valstub s).congr lossless_var_iff.symm
  | .valblock childs, _, d, s =>
    (account_executeSyntaxVal fun top _ =>
      account_executeValLoop childs top .reserved .init d s).congr lossless_valblock_iff.symm
  | .call keystub args, top, d, s => by
    rw [executeOperand, executeCall_eq]
    refine (account_object (fun handle s₁ s₂ hcons hpush => account_executeCallInner
      (account_executeArgs args handle (d + 1) s₂)) ?_ rfl).congr lossless_call_iff.symm
    rintro handle ⟨returned, r⟩ s'
    cases returned with
    | true => exact .negligible_bind (negligible_emit fun _ => rfl) fun _ _ _ => .return rfl trivial
    | false =>
      exact .negligible_bind (negligible_executeOut keystub handle) fun _ _ _ => .return rfl trivial

/-- **The strings of a value.** -/
theorem account_executeValLoop : ∀ (vs : ResolvedVals κ) (handle : η) (opt : Sym)
    (arg : LreValue D) (d : ℕ) (s : ExecState κ σ η),
    Accounts outstanding arg.owns (executeValLoop C R handle vs opt arg) operandOwns
      (Lossless C R ⟨d, .valLoop handle vs opt arg, s⟩) s
  | .nil, _, _, _, _, _ => .return (if_pos rfl).symm lossless_valLoop_nil
  | .cons node next rest, handle, opt, arg, d, s => by
    rw [executeValLoop]
    have hnode := (account_executeOperand node handle d s).frame arg.owns
    simp only [nothing, Nat.zero_add] at hnode
    refine (hnode.bind ?_).congr lossless_valLoop_iff.symm
    rintro ⟨ret, tmparg⟩ s₁ hrun
    refine ⟨_, ?_, and_congr_right fun _ => (forall_ok_iff hrun).symm⟩
    exact account_valNext fun arg' s' _ => account_executeValLoop rest handle next arg' d s'

theorem account_executeArgs : ∀ (args : ResolvedArgs κ) (handle : η) (d : ℕ)
    (s : ExecState κ σ η), Accounts outstanding nothing (executeArgs C R handle args)
      (fun _ => nothing) (Lossless C R ⟨d, .args handle args, s⟩) s
  | .nil, _, _, _ => .return rfl lossless_args_nil
  | .cons keystub vs rest, handle, d, s => by
    rw [executeArgs]
    have hval := account_executeSyntaxVal (s := s) fun top _ =>
      account_executeValLoop vs top .reserved .init d s
    refine ((account_executeArg (R := R) hval).bind ?_).congr lossless_args_iff.symm
    rintro ⟨valret, argret⟩ s₁ hrun
    refine ⟨_, ?_, and_congr_right fun _ => (forall_ok_iff hrun).symm⟩
    refine account_unlessFailed fun hok => ?_
    cases hok
    exact account_executeArgs rest handle d s₁

end

theorem account_executeSyntaxExpr (estub : κ) (opt : Sym) (vs : ResolvedVals κ) (d : ℕ)
    (s : ExecState κ σ η) : Accounts outstanding nothing (executeSyntaxExpr C R estub opt vs)
      (fun _ => nothing) (Lossless C R ⟨d, .item (.expr estub opt vs), s⟩) s := by
  refine .negligible_bind (negligible_of_envOnly envOnly_execCtxGetHandle) fun handle s₁ hget => ?_
  obtain rfl := execCtxGetHandle_ok hget
  have hval := account_executeSyntaxVal fun top _ =>
    account_executeValLoop (C := C) (R := R) vs top .reserved .init d s₁
  refine (hval.bind ?_).congr lossless_expr_iff.symm
  rintro ⟨ret, arg⟩ s₂ hrun
  -- the handler of the expression is called with this object
  have hhandle : ∀ {Q : η → Prop}, (∀ handle', execCtxGetHandle s₁ = .ok (handle', s₁) →
      Q handle') ↔ Q handle := fun {Q} => by
    refine ⟨fun hQ => hQ handle hget, fun hQ handle' hget' => ?_⟩
    cases hget.symm.trans hget'
    exact hQ
  simp only [hhandle, forall_ok_iff hrun]
  refine ⟨_, ?_, Iff.rfl⟩
  by_cases hret : ret = 0
  · have howns : operandOwns (ret, arg) = arg.owns := if_pos hret
    rw [howns, if_neg (not_not.mpr hret), forall_prop_of_true hret]
    refine .negligible_bind (negligible_castStub C estub .expr) fun _ s₃ hcast => ?_
    obtain rfl := castStub_ok hcast
    refine .negligible_bind (negligible_callback _) fun r s₄ hcall => ?_
    cases hcall
    refine .negligible_bind (negligible_emit fun _ => rfl) fun _ s₅ _ => ?_
    exact account_handled _ (by simp) arg _ _ s₅
  · have howns : operandOwns (ret, arg) = nothing := if_neg hret
    rw [howns, if_pos hret]
    exact .return rfl fun h => absurd h hret

theorem account_executeBlock {negative : Bool} {childs : Exec κ σ η ℤ} {P : Prop}
    (h : Accounts outstanding nothing childs (fun _ => nothing) P
      (if negative then { s with negdepth := s.negdepth + 1 } else s)) :
    Accounts outstanding nothing (executeBlock negative childs) (fun _ => nothing) P s := by
  cases negative with
  | false => exact h
  | true =>
    have hneg : Accounts outstanding nothing (negated childs) (fun _ => nothing) P s :=
      wp_negated.mpr h
    exact hneg.bind_lossless fun _ _ _ => .return rfl trivial

mutual

/-- **The strings of an item.** -/
theorem account_executeItem : ∀ (node : ResolvedItem κ) (d : ℕ) (s : ExecState κ σ η),
    Accounts outstanding nothing (executeItem C R node) (fun _ => nothing)
      (Lossless C R ⟨d, .item node, s⟩) s
  | .func keystub args body, d, s => by
    rw [executeItem, executeFunc_eq]
    refine (account_object (fun handle s₁ s₂ hcons hpush => account_executeFuncInner
      (account_executeArgs args handle (d + 1) s₂) fun s₃ s₄ _ _ =>
        account_executeChildsLoop body .reserved valUninitialized (d + 1) s₄) ?_ rfl).congr
          lossless_func_iff.symm
    intro handle ret s'
    exact .negligible_bind (negligible_executeOut keystub handle) fun _ _ _ => .return rfl trivial
  | .block negative childs, d, s =>
    (account_executeBlock (account_executeChildsLoop childs .reserved valUninitialized d _)).congr
      lossless_block_iff.symm
  | .expr estub opt vs, d, s => account_executeSyntaxExpr estub opt vs d s

/-- **The strings of a list.** -/
theorem account_executeChildsLoop : ∀ (items : ResolvedItems κ) (opt : Sym) (res : ℤ) (d : ℕ)
    (s : ExecState κ σ η), Accounts outstanding nothing (executeChildsLoop C R items opt res)
      (fun _ => nothing) (Lossless C R ⟨d, .childsLoop items opt res, s⟩) s
  | .nil, _, res, _, s => by
    rw [executeChildsLoop]
    split
    · exact .negligible_bind (negligible_emit fun _ => rfl) fun _ _ _ =>
        .return rfl lossless_childsLoop_nil
    · exact .return rfl lossless_childsLoop_nil
  | .cons node next rest, opt, res, d, s => by
    rw [executeChildsLoop]
    refine ((account_executeItem node d s).bind fun ret s₁ hrun => ?_).congr
      lossless_childsLoop_iff.symm
    refine ⟨_, ?_, and_congr_right fun _ => (forall_ok_iff hrun).symm⟩
    unfold childsNext
    by_cases hvalid : vaildLreResults ret = true
    · rw [if_neg (by simp [hvalid]), forall_prop_of_true hvalid]
      cases hres : childsRes opt res ret with
      | none =>
        refine .negligible_bind (negligible_emit fun _ => rfl) fun _ _ _ => .return rfl ?_
        rintro res' ⟨⟩
      | some res' =>
        simp only [Option.some.injEq, forall_eq']
        by_cases hstop : childsStop next res' = true
        · rw [if_pos hstop]
          exact .return rfl fun h => absurd (hstop.symm.trans h) nofun
        · rw [if_neg hstop, forall_prop_of_true (Bool.eq_false_iff.mpr hstop)]
          exact account_executeChildsLoop rest next res' d s₁
    · rw [if_pos (by simp [hvalid])]
      exact .return rfl fun h => absurd h hvalid

end

/-! ## Executions -/

section Executions

variable {stacksize : ℕ} {tree : ResolvedItems κ} {env : σ} {ret : ℤ}

/-- The strings of an execution are freed or lost. -/
theorem interpExecute_releases (h : interpExecute C R stacksize tree env = .ok (ret, s)) :
    ∃ lost : ℕ → ℕ,
      (∀ ptr, releases s.trace ptr + lost ptr = if ptr < s.heap then 1 else 0) ∧
        ((∀ ptr, lost ptr = 0) ↔ Lossless C R (.start stacksize tree env)) := by
  have haccount := account_executeChildsLoop (C := C) (R := R) tree .reserved valUninitialized 0
    (⟨env, [], stacksize, 0, [], 0⟩ : ExecState κ σ η)
  obtain ⟨lost, hbal, hlost⟩ := haccount.of_ok h
  refine ⟨lost, fun ptr => ?_, hlost⟩
  have hptr : (if ptr < s.heap then 1 else 0) - (releases s.trace ptr : ℤ) + (0 : ℕ) =
      (if ptr < 0 then 1 else 0) - (0 : ℕ) + (0 : ℕ) + lost ptr := hbal ptr
  rw [if_neg (Nat.not_lt_zero ptr)] at hptr
  by_cases hlt : ptr < s.heap
  · rw [if_pos hlt] at hptr ⊢
    omega
  · rw [if_neg hlt] at hptr ⊢
    omega

/-- No heap string is freed twice. -/
theorem releases_le_one (h : interpExecute C R stacksize tree env = .ok (ret, s)) (ptr : ℕ) :
    releases s.trace ptr ≤ 1 := by
  obtain ⟨lost, hfreed, -⟩ := interpExecute_releases h
  have hptr := hfreed ptr
  by_cases hlt : ptr < s.heap
  · rw [if_pos hlt] at hptr
    omega
  · rw [if_neg hlt] at hptr
    omega

/-- **An execution that returns has freed every heap string exactly once exactly when it lost none
on its way.** -/
theorem interpExecute_freedOnce_iff (h : interpExecute C R stacksize tree env = .ok (ret, s)) :
    FreedOnce s ↔ ∀ a, ComesTo C R (.start stacksize tree env) a →
      ∀ m, HasMoment C R a m → ¬m.Loses R := by
  obtain ⟨lost, hfreed, hlost⟩ := interpExecute_releases h
  refine Iff.trans ⟨fun hall ptr => ?_, fun hzero ptr hlt => ?_⟩ hlost
  · have hptr := hfreed ptr
    by_cases hlt : ptr < s.heap
    · rw [if_pos hlt, hall ptr hlt] at hptr
      omega
    · rw [if_neg hlt] at hptr
      omega
  · have hptr := hfreed ptr
    rwa [hzero ptr, if_pos hlt] at hptr

end Executions

/-! ## Strings of a call -/

/-- Components whose call stores a string, and whose argument handler returns `ret`. -/
def stringCallbacks (ret : ℤ) : Callbacks KeystubType Unit Unit Unit :=
  { sampleCallbacks with
    callExec := fun _ => some fun _ _ => ((0, [.dup2String ['a']]), ())
    argHandler := fun _ _ _ _ => (ret, ()) }

/-- `f(b=g()){e==1}`. -/
def stringTree : ResolvedItems KeystubType :=
  (ResolvedItem.func .func (.cons .arg (.cons (.call .call .nil) .reserved .nil) .nil)
    (ResolvedItem.expr .expr .equal oneVal).single).single

/-- The handler takes the string of the call, and it is freed. -/
theorem interpExecute_freedOnce_call : ∃ s,
    interpExecute (stringCallbacks 0) unitDoubles 8192 stringTree () = .ok (1, s) ∧ s.heap = 1 ∧
      FreedOnce s ∧ ∀ a, ComesTo (stringCallbacks 0) unitDoubles (.start 8192 stringTree ()) a →
        ∀ m, HasMoment (stringCallbacks 0) unitDoubles a m → ¬m.Loses unitDoubles := by
  have h : interpExecute (stringCallbacks 0) unitDoubles 8192 stringTree () =
      .ok (1, ⟨(), [], 8192, 1, [(0, .destructor .func ()), (0, .exprHandler .expr () 1),
        (0, .release 0), (0, .argHandler .arg () 0), (0, .destructor .call ()), (0, .strdup 0),
          (0, .callExec .call () 0), (0, .constructor .call (some ())),
            (0, .constructor .func (some ()))], 0⟩) := by
    decide +kernel
  refine ⟨_, h, rfl, ?_⟩
  have hfreed : FreedOnce (⟨(), [], 8192, 1, [(0, .destructor .func ()),
      (0, .exprHandler .expr () 1), (0, .release 0), (0, .argHandler .arg () 0),
        (0, .destructor .call ()), (0, .strdup 0), (0, .callExec .call () 0),
          (0, .constructor .call (some ())), (0, .constructor .func (some ()))], 0⟩ :
            ExecState KeystubType Unit Unit) := by
    intro ptr hlt
    obtain rfl : ptr = 0 := by
      have hone : ptr < 1 := hlt
      omega
    rfl
  exact ⟨hfreed, (interpExecute_freedOnce_iff h).mp hfreed⟩

/-- When the handler refuses it, the string is never freed. -/
theorem interpExecute_refused : ¬∀ (C : Callbacks KeystubType Unit Unit Unit)
    (tree : ResolvedItems KeystubType) (ret : ℤ) (s : ExecState KeystubType Unit Unit),
      interpExecute C unitDoubles 8192 tree () = .ok (ret, s) → FreedOnce s := by
  intro hall
  have h : interpExecute (stringCallbacks (-1)) unitDoubles 8192 stringTree () =
      .ok (retDead, ⟨(), [], 8192, 1, [(0, .destructor .func ()), (0, .argHandler .arg () (-1)),
        (0, .destructor .call ()), (0, .strdup 0), (0, .callExec .call () 0),
          (0, .constructor .call (some ())), (0, .constructor .func (some ()))], 0⟩) := by
    decide +kernel
  exact absurd (hall _ _ _ _ h 0 (Nat.lt_succ_self 0)) (by decide)

end Lre
