import Lre.Exec.Activation
import Lre.Exec.Literal

/-!
# The members of `struct lre_value`

The loop of `execute_syntax_val` on values with a tag and a union of which any member can be read.

* `RawValue`: a value with the member that was written last; `RawValue.store`: the functions that
  write one; `raw_setValues`: `LreValue` is such a value whose tag names the member.
* `rawMeet`: the body of the loop after its switch, with the members it reads; `rawMeet_step`: what
  `valStep` makes of it.
* `Disciplined`: it reads members that were written last, converts what it calculates with as a
  double, and leaves a value whose tag names the member.
* **`executeSyntaxVal_disciplined_iff`**: an evaluation does so exactly when it calculates with no
  double.
-/

namespace Lre

open Run

variable {κ σ η D : Type}

/-! ## Values with a union -/

/-- The names of the members of the union. -/
inductive MemberName
  | valint | valdouble | valstring
  deriving DecidableEq, Repr

/-- A member of the union with its value. -/
inductive Member (D : Type)
  | valint (i : BitVec 32)
  | valdouble (d : D)
  | valstring (s : Word)

def Member.name : Member D → MemberName
  | .valint _ => .valint
  | .valdouble _ => .valdouble
  | .valstring _ => .valstring

/-- `struct lre_value`: its tag, and the member that was written last. -/
structure RawValue (D : Type) where
  type : ArgType
  held : Option (Member D)

/-- `lre_value_init`, which writes no member. -/
def RawValue.init : RawValue D := ⟨.unknown, none⟩

/-- `lre_value_set_int`, `lre_value_set_double`, `lre_value_set_string`,
`lre_value_dup2_string`. -/
def RawValue.store (_ : RawValue D) : SetValue D → RawValue D
  | .setInt ival => ⟨.int, some (.valint ival)⟩
  | .setDouble dval => ⟨.double, some (.valdouble dval)⟩
  | .setString str => ⟨.string, some (.valstring str)⟩
  | .dup2String str => ⟨.string, some (.valstring str)⟩

/-- The member of a type. -/
def ArgType.member? : ArgType → Option MemberName
  | .unknown => none
  | .int => some .valint
  | .double => some .valdouble
  | .string => some .valstring

/-- The tag names the member that was written last. -/
def RawValue.Tagged (v : RawValue D) : Prop := v.held.map Member.name = v.type.member?

/-- What the union reads as through a member that was not written last. -/
structure Bytes (R : Doubles D) where
  valint : Option (Member D) → BitVec 32
  valdouble : Option (Member D) → D
  valint_double : ∀ d, valint (some (.valdouble d)) = R.valint d

/-- `val->valint`. -/
def RawValue.valint {R : Doubles D} (B : Bytes R) (v : RawValue D) : BitVec 32 :=
  match v.held with
  | some (.valint i) => i
  | held => B.valint held

/-- `val->valdouble`. -/
def RawValue.valdouble {R : Doubles D} (B : Bytes R) (v : RawValue D) : D :=
  match v.held with
  | some (.valdouble d) => d
  | held => B.valdouble held

/-! ## The meeting of two values -/

/-- A read: the member, and what the union holds. -/
structure MemberRead (D : Type) where
  name : MemberName
  held : Option (Member D)

/-- The member that was written last is read. -/
def MemberRead.Sound (r : MemberRead D) : Prop := r.held.map Member.name = some r.name

/-- How the loop goes on. -/
inductive RawStep (D : Type)
  | trap
  | error
  | done (arg : RawValue D)
  | next (arg : RawValue D)

/-- What the body of the loop does: its reads in order, the operands it hands to
`lre_calc_dobule`, and how the loop goes on. -/
structure RawMeet (D : Type) where
  reads : List (MemberRead D)
  operands : Option (D × D)
  step : RawStep D

/-- The body of the loop of `execute_syntax_val` after its switch. -/
def rawMeet {R : Doubles D} (B : Bytes R) (opt : Sym) (arg tmparg : RawValue D) : RawMeet D :=
  if tmparg.type = .unknown then ⟨[], none, .error⟩
  else if tmparg.type = .string then ⟨[], none, .done tmparg⟩
  else if arg.type = .unknown then ⟨[], none, .next tmparg⟩
  else if arg.type = .double ∨ tmparg.type = .double then
    let a := arg.valdouble B
    let b := tmparg.valdouble B
    let arg' : RawValue D := ⟨.double, some (.valdouble (lreCalcDobule R a b opt))⟩
    { reads := [⟨.valdouble, arg.held⟩, ⟨.valdouble, tmparg.held⟩, ⟨.valint, arg'.held⟩]
      operands := some (a, b)
      step := if arg'.valint B = retDeadVal then .error else .next arg' }
  else
    match lreCalcInt (arg.valint B) (tmparg.valint B) opt with
    | none => ⟨[⟨.valint, arg.held⟩, ⟨.valint, tmparg.held⟩], none, .trap⟩
    | some r =>
      let arg' : RawValue D := { arg with held := some (.valint r) }
      { reads := [⟨.valint, arg.held⟩, ⟨.valint, tmparg.held⟩, ⟨.valint, arg'.held⟩]
        operands := none
        step := if arg'.valint B = retDeadVal then .error else .next arg' }

/-! ## Values of the executor -/

/-- The tag and the union of a value. -/
def LreValue.raw (v : LreValue D) : RawValue D :=
  match v.content with
  | .unknown => .init
  | .int i => ⟨.int, some (.valint i)⟩
  | .double d => ⟨.double, some (.valdouble d)⟩
  | .string s => ⟨.string, some (.valstring s)⟩

theorem LreValue.raw_tagged (v : LreValue D) : v.raw.Tagged := by
  unfold LreValue.raw
  cases v.content <;> rfl

theorem raw_setValues : ∀ (sets : List (SetValue D)) (val : LreValue D) (s : ExecState κ σ η),
    wp (fun _ => False) (setValues sets val)
      (fun val' _ => val'.raw = sets.foldl RawValue.store val.raw) s
  | [], _, _ => rfl
  | .setInt _ :: sets, _, s => raw_setValues sets _ s
  | .setDouble _ :: sets, _, s => raw_setValues sets _ s
  | .setString _ :: sets, _, s => raw_setValues sets _ s
  | .dup2String _ :: sets, _, s => by
    rw [setValues, wp_bind]
    exact raw_setValues sets _ _

/-- The step of the executor with its values. -/
def ValStep.raw : ValStep D → RawStep D
  | .error => .error
  | .done arg => .done arg.raw
  | .next arg => .next arg.raw

variable {R : Doubles D}

theorem rawMeet_int (B : Bytes R) (opt : Sym) (a b : BitVec 32) :
    rawMeet B opt ⟨.int, some (.valint a)⟩ ⟨.int, some (.valint b)⟩ =
      match lreCalcInt a b opt with
      | none => ⟨[⟨.valint, some (.valint a)⟩, ⟨.valint, some (.valint b)⟩], none, .trap⟩
      | some r =>
        ⟨[⟨.valint, some (.valint a)⟩, ⟨.valint, some (.valint b)⟩, ⟨.valint, some (.valint r)⟩],
          none, if r = retDeadVal then .error else .next ⟨.int, some (.valint r)⟩⟩ := rfl

theorem rawMeet_double (B : Bytes R) (opt : Sym) (a b : D) :
    rawMeet B opt ⟨.double, some (.valdouble a)⟩ ⟨.double, some (.valdouble b)⟩ =
      ⟨[⟨.valdouble, some (.valdouble a)⟩, ⟨.valdouble, some (.valdouble b)⟩,
          ⟨.valint, some (.valdouble (lreCalcDobule R a b opt))⟩],
        some (a, b), if R.valint (lreCalcDobule R a b opt) = retDeadVal then .error
          else .next ⟨.double, some (.valdouble (lreCalcDobule R a b opt))⟩⟩ := by
  rw [← B.valint_double]
  rfl

/-- **Where the executor takes a step, the body of the loop takes it.** -/
theorem rawMeet_step (B : Bytes R) {opt : Sym} {arg tmparg : LreValue D} {step : ValStep D}
    {s s' : ExecState κ σ η} (h : valStep R opt arg tmparg s = .ok (step, s')) :
    (rawMeet B opt arg.raw tmparg.raw).step = step.raw := by
  obtain ⟨arg, ptr⟩ := arg
  obtain ⟨tmparg, ptr'⟩ := tmparg
  cases tmparg with
  | unknown => cases h; rfl
  | string str => cases h; rfl
  | int b =>
    cases arg with
    | unknown => cases h; rfl
    | int a =>
      refine (congrArg RawMeet.step (rawMeet_int B opt a b)).trans ?_
      unfold valStep at h
      dsimp only at h
      cases hcalc : lreCalcInt a b opt with
      | none => rw [hcalc] at h; cases h
      | some r =>
        rw [hcalc] at h
        cases h
        dsimp only
        split <;> rfl
    | double a => cases h
    | string a => cases h
  | double b =>
    cases arg with
    | unknown => cases h; rfl
    | int a => cases h
    | double a =>
      refine (congrArg RawMeet.step (rawMeet_double B opt a b)).trans ?_
      cases h
      dsimp only
      split <;> rfl
    | string a => cases h

/-! ## The discipline -/

/-- It reads members that were written last, hands `lre_calc_dobule` the number of an `int` as a
double, and leaves a value whose tag names the member. -/
structure RawMeet.Disciplined (m : RawMeet D) (ofInt : BitVec 32 → D) (arg tmparg : Content D) :
    Prop where
  reads : ∀ r ∈ m.reads, r.Sound
  converts : ∀ a b, m.operands = some (a, b) →
    (∀ i, arg = .int i → a = ofInt i) ∧ ∀ i, tmparg = .int i → b = ofInt i
  tagged : ∀ v, m.step = .done v ∨ m.step = .next v → v.Tagged

/-- So does the loop body on two values. -/
def Disciplined {R : Doubles D} (B : Bytes R) (ofInt : BitVec 32 → D) (opt : Sym)
    (arg tmparg : LreValue D) : Prop :=
  (rawMeet B opt arg.raw tmparg.raw).Disciplined ofInt arg.content tmparg.content

/-- A number. -/
def Content.IsNumeric : Content D → Prop
  | .int _ | .double _ => True
  | _ => False

/-- A double. -/
def Content.IsDouble : Content D → Prop
  | .double _ => True
  | _ => False

/-- A string. -/
def Content.IsString : Content D → Prop
  | .string _ => True
  | _ => False

/-- Two numbers meet of which one is a double. -/
def CalculatesDouble (arg tmparg : LreValue D) : Prop :=
  arg.content.IsNumeric ∧ tmparg.content.IsNumeric ∧
    (arg.content.IsDouble ∨ tmparg.content.IsDouble)

/-- After a calculation with doubles the test reads the member that was not written. -/
theorem CalculatesDouble.not_disciplined {arg tmparg : LreValue D}
    (h : CalculatesDouble arg tmparg) (B : Bytes R) (ofInt : BitVec 32 → D) (opt : Sym) :
    ¬Disciplined B ofInt opt arg tmparg := by
  obtain ⟨arg, ptr⟩ := arg
  obtain ⟨tmparg, ptr'⟩ := tmparg
  obtain ⟨harg, htmparg, hdouble⟩ := h
  have htest : ∃ d, ⟨.valint, some (.valdouble d)⟩ ∈
      (rawMeet B opt (LreValue.raw ⟨arg, ptr⟩) (LreValue.raw ⟨tmparg, ptr'⟩)).reads := by
    refine ⟨lreCalcDobule R (RawValue.valdouble B (LreValue.raw ⟨arg, ptr⟩))
      (RawValue.valdouble B (LreValue.raw ⟨tmparg, ptr'⟩)) opt, ?_⟩
    cases arg with
    | unknown => exact harg.elim
    | string _ => exact harg.elim
    | int _ =>
      cases tmparg with
      | double _ => exact .tail _ (.tail _ (.head _))
      | int _ => exact (hdouble.elim id id).elim
      | _ => exact htmparg.elim
    | double _ =>
      cases tmparg with
      | double _ => exact .tail _ (.tail _ (.head _))
      | int _ => exact .tail _ (.tail _ (.head _))
      | _ => exact htmparg.elim
  obtain ⟨d, hd⟩ := htest
  intro hdisc
  exact absurd (hdisc.reads _ hd) nofun

theorem RawMeet.Disciplined.silent {ofInt : BitVec 32 → D} {arg tmparg : Content D}
    {step : RawStep D} (h : ∀ v, step = .done v ∨ step = .next v → v.Tagged) :
    (RawMeet.mk [] none step).Disciplined ofInt arg tmparg :=
  ⟨fun _ hr => absurd hr List.not_mem_nil, nofun, h⟩

theorem disciplined_int (B : Bytes R) (ofInt : BitVec 32 → D) (opt : Sym) (a b : BitVec 32)
    (ptr ptr' : Option ℕ) : Disciplined B ofInt opt ⟨.int a, ptr⟩ ⟨.int b, ptr'⟩ := by
  show (rawMeet B opt ⟨.int, some (.valint a)⟩ ⟨.int, some (.valint b)⟩).Disciplined ofInt _ _
  have hsound : ∀ i, (⟨.valint, some (.valint i)⟩ : MemberRead D).Sound := fun _ => rfl
  rw [rawMeet_int]
  cases lreCalcInt a b opt with
  | none =>
    refine ⟨?_, nofun, fun v hv => hv.elim nofun nofun⟩
    exact List.forall_mem_cons.mpr ⟨hsound a, List.forall_mem_singleton.mpr (hsound b)⟩
  | some r =>
    refine ⟨?_, nofun, fun v hv => ?_⟩
    · exact List.forall_mem_cons.mpr ⟨hsound a, List.forall_mem_cons.mpr
        ⟨hsound b, List.forall_mem_singleton.mpr (hsound r)⟩⟩
    · dsimp only at hv
      by_cases hr : r = retDeadVal
      · rw [if_pos hr] at hv
        exact hv.elim nofun nofun
      · rw [if_neg hr] at hv
        rcases hv with hv | hv
        · cases hv
        · cases hv
          rfl

theorem disciplined_of_not {arg tmparg : LreValue D} (hstring : ¬arg.content.IsString)
    (h : ¬CalculatesDouble arg tmparg) (B : Bytes R) (ofInt : BitVec 32 → D) (opt : Sym) :
    Disciplined B ofInt opt arg tmparg := by
  have htag := tmparg.raw_tagged
  obtain ⟨arg, ptr⟩ := arg
  obtain ⟨tmparg, ptr'⟩ := tmparg
  cases tmparg with
  | unknown => exact .silent fun v hv => hv.elim nofun nofun
  | string _ => exact .silent fun v hv => hv.elim (fun hv => RawStep.done.inj hv ▸ htag) nofun
  | int b =>
    cases arg with
    | unknown => exact .silent fun v hv => hv.elim nofun fun hv => RawStep.next.inj hv ▸ htag
    | int a => exact disciplined_int B ofInt opt a b ptr ptr'
    | double _ => exact absurd ⟨trivial, trivial, .inl trivial⟩ h
    | string _ => exact absurd trivial hstring
  | double b =>
    cases arg with
    | unknown => exact .silent fun v hv => hv.elim nofun fun hv => RawStep.next.inj hv ▸ htag
    | int _ | double _ => exact absurd ⟨trivial, trivial, .inr trivial⟩ h
    | string _ => exact absurd trivial hstring

/-! ## Evaluations -/

/-- The value in front of an operand is no string, which ends the loop. -/
def Place.NoString : Place κ η D → Prop
  | .valLoop _ _ _ arg => ¬arg.content.IsString
  | .meet _ arg _ => ¬arg.content.IsString
  | _ => True

theorem valStep_noString {opt : Sym} {arg tmparg arg' : LreValue D} {s s' : ExecState κ σ η}
    (h : valStep R opt arg tmparg s = .ok (.next arg', s')) (harg : ¬arg.content.IsString) :
    ¬arg'.content.IsString := by
  obtain ⟨arg, ptr⟩ := arg
  obtain ⟨tmparg, ptr'⟩ := tmparg
  cases tmparg with
  | unknown => cases h
  | string _ => cases h
  | int b =>
    cases arg with
    | unknown => cases h; exact id
    | int a =>
      unfold valStep at h
      dsimp only at h
      cases hcalc : lreCalcInt a b opt with
      | none => rw [hcalc] at h; cases h
      | some r =>
        rw [hcalc] at h
        dsimp only at h
        split at h
        · cases h
        · cases h
          exact id
    | double _ => cases h
    | string _ => exact absurd trivial harg
  | double b =>
    cases arg with
    | unknown => cases h; exact id
    | int _ => cases h
    | double a =>
      have hstep : (if R.valint (lreCalcDobule R a b opt) = retDeadVal then .error
          else .next ⟨.double (lreCalcDobule R a b opt), ptr⟩) = ValStep.next arg' :=
        congrArg Prod.fst (Except.ok.inj h)
      split at hstep
      · cases hstep
      · cases hstep
        exact id
    | string _ => exact absurd trivial harg

variable {C : Callbacks κ σ η D}

theorem Enters.noString {p q : Activation κ σ η D} (h : Enters C R p q) (hp : p.place.NoString) :
    q.place.NoString := by
  cases h with
  | valMeet _ => exact hp
  | valRest _ hmeet => exact valStep_noString hmeet hp
  | expr _ | valblock _ | argsVal _ => exact id
  | _ => trivial

theorem ComesTo.noString {p q : Activation κ σ η D} (h : ComesTo C R p q)
    (hp : p.place.NoString) : q.place.NoString := by
  induction h with
  | refl => exact hp
  | tail _ he ih => exact he.noString ih

/-- `execute_syntax_val`, with the innermost object. -/
def Activation.val (root : ResolvedVals κ) (handle : η) (s : ExecState κ σ η) :
    Activation κ σ η D := ⟨0, .valLoop handle root .reserved .init, s⟩

/-- **An evaluation keeps the discipline of the union exactly when it never calculates with a
double.** -/
theorem executeSyntaxVal_disciplined_iff (C : Callbacks κ σ η D) {R : Doubles D} (B : Bytes R)
    (ofInt : BitVec 32 → D) (root : ResolvedVals κ) (handle : η) (s : ExecState κ σ η) :
    (∀ q, ComesTo C R (.val root handle s) q → ∀ opt arg tmparg, q.place = .meet opt arg tmparg →
      Disciplined B ofInt opt arg tmparg) ↔
    ∀ q, ComesTo C R (.val root handle s) q → ∀ opt arg tmparg, q.place = .meet opt arg tmparg →
      ¬CalculatesDouble arg tmparg := by
  constructor
  · intro h q hq opt arg tmparg hplace hdouble
    exact hdouble.not_disciplined B ofInt opt (h q hq opt arg tmparg hplace)
  · intro h q hq opt arg tmparg hplace
    have hstring : q.place.NoString := hq.noString id
    rw [hplace] at hstring
    exact disciplined_of_not hstring (h q hq opt arg tmparg hplace) B ofInt opt

/-! ## A double -/

/-- The sample components with variables that are doubles. -/
def doubleCallbacks : Callbacks KeystubType Unit Unit Unit :=
  { sampleCallbacks with varHandler := fun _ _ _ => ((0, [.setDouble ()]), ()) }

/-- `$v + 1`. -/
def varPlusOne : ResolvedVals KeystubType := .cons (.var .var) .add oneVal

/-- In `$v + 1`, with a double in `$v`, the `1` is read as a double. -/
theorem varPlusOne_not_disciplined :
    ¬∀ (C : Callbacks KeystubType Unit Unit Unit) (B : Bytes unitDoubles)
        (ofInt : BitVec 32 → Unit) (root : ResolvedVals KeystubType) (handle : Unit)
        (s : ExecState KeystubType Unit Unit) (q : Activation KeystubType Unit Unit Unit),
      ComesTo C unitDoubles (.val root handle s) q → ∀ opt arg tmparg,
        q.place = .meet opt arg tmparg → Disciplined B ofInt opt arg tmparg := by
  intro hall
  let s₀ : ExecState KeystubType Unit Unit := ⟨(), [()], 8192, 0, [], 0⟩
  let s₁ : ExecState KeystubType Unit Unit := { s₀ with trace := [(0, .varHandler .var () 0)] }
  have hvar : executeOperand doubleCallbacks unitDoubles () (.var .var) s₀ =
      .ok ((0, ⟨.double (), none⟩), s₁) := rfl
  have hrest : Enters doubleCallbacks unitDoubles (.val varPlusOne () s₀)
      ⟨0, .valLoop () oneVal .add ⟨.double (), none⟩, s₁⟩ := .valRest hvar rfl
  have hmeet : Enters doubleCallbacks unitDoubles
      ⟨0, .valLoop () oneVal .add ⟨.double (), none⟩, s₁⟩
      ⟨0, .meet .add ⟨.double (), none⟩ ⟨.int 1, none⟩, s₁⟩ := .valMeet rfl
  have hcalc : CalculatesDouble (⟨.double (), none⟩ : LreValue Unit) ⟨.int 1, none⟩ :=
    ⟨trivial, trivial, .inl trivial⟩
  let B : Bytes unitDoubles := ⟨fun _ => 0, fun _ => (), fun _ => rfl⟩
  refine hcalc.not_disciplined B (fun _ => ()) .add ?_
  exact hall doubleCallbacks B _ varPlusOne () s₀ _ (.head hrest (.single hmeet)) _ _ _ rfl

end Lre
