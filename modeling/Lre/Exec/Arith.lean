import Lre.Exec.Literal

/-!
# Integer values

Values of integer literals, parentheses and operators.

* `arith`: the 32-bit value of an operation; `lreCalcInt_eq`: what `lre_calc_int` makes of it.
* `ResolvedVals.intVal`: the value from the left to the right, without precedence.
* `ResolvedVals.calcs`: the operations that evaluation comes to, the last of which may fail.
* `executeSyntaxVal_outcome`: an execution stops at the first operation that fails, or whose value
  is `RET_DEAD_VAL`.
* **`executeSyntaxVal_int_iff`**: when `execute_syntax_val` returns that value, or an error where
  there is none.
-/

namespace Lre

open Run

/-! ## Operations -/

/-- The numbers of 32 bits. -/
def Representable (n : ℤ) : Prop := -2 ^ 31 ≤ n ∧ n < 2 ^ 31

instance (n : ℤ) : Decidable (Representable n) := inferInstanceAs (Decidable (_ ∧ _))

/-- The 32-bit value of an operation; `none` for an operator that is not supported, a divisor that
is zero and a quotient that is not representable. -/
def arith (a b : BitVec 32) : Sym → Option (BitVec 32)
  | .add => some (.ofInt 32 (a.toInt + b.toInt))
  | .sub => some (.ofInt 32 (a.toInt - b.toInt))
  | .mul => some (.ofInt 32 (a.toInt * b.toInt))
  | .div =>
    if b.toInt = 0 ∨ ¬Representable (a.toInt.tdiv b.toInt) then none
    else some (.ofInt 32 (a.toInt.tdiv b.toInt))
  | _ => none

theorem representable_toInt (a : BitVec 32) : Representable a.toInt :=
  ⟨BitVec.le_toInt a, BitVec.toInt_lt⟩

theorem trap_iff (a b : BitVec 32) : (b = 0 ∨ a = BitVec.intMin 32 ∧ b = -1) ↔
    (b.toInt = 0 ∨ ¬Representable (a.toInt.tdiv b.toInt)) := by
  constructor
  · rintro (rfl | ⟨rfl, rfl⟩)
    · exact .inl (by decide)
    · exact .inr (by decide)
  · rintro (hzero | hrep)
    · exact .inl (BitVec.eq_of_toInt_eq (hzero.trans (by decide)))
    · by_contra hnot
      rw [not_or, not_and_or] at hnot
      apply hrep
      rw [← BitVec.toInt_sdiv_of_ne_or_ne a b hnot.2]
      exact representable_toInt _

/-- **`lre_calc_int`**: where there is no value, a division traps and any other operator gives
`RET_DEAD_VAL`. -/
theorem lreCalcInt_eq (a b : BitVec 32) (opt : Sym) : lreCalcInt a b opt =
    match arith a b opt with
    | some r => some r
    | none => if opt = .div then none else some retDeadVal := by
  cases opt with
  | add => simp [lreCalcInt, arith, BitVec.ofInt_add]
  | sub =>
    have hsub : a - b = BitVec.ofInt 32 (a.toInt - b.toInt) :=
      BitVec.eq_of_toInt_eq (by rw [BitVec.toInt_sub, BitVec.toInt_ofInt])
    simp [lreCalcInt, arith, hsub]
  | mul => simp [lreCalcInt, arith, BitVec.ofInt_mul]
  | div =>
    rw [lreCalcInt, arith]
    by_cases htrap : b = 0 ∨ a = BitVec.intMin 32 ∧ b = -1
    · rw [if_pos htrap, if_pos ((trap_iff a b).mp htrap)]
      rfl
    · rw [if_neg htrap, if_neg (mt (trap_iff a b).mpr htrap)]
      rw [not_or, not_and_or] at htrap
      refine congrArg some (BitVec.eq_of_toInt_eq ?_)
      rw [BitVec.toInt_sdiv, BitVec.toInt_ofInt]
  | _ => rfl

/-- An operation with its operands. -/
structure Calc where
  a : BitVec 32
  opt : Sym
  b : BitVec 32
  deriving DecidableEq

/-- Its value. -/
def Calc.value (c : Calc) : Option (BitVec 32) := arith c.a c.b c.opt

/-- A division without a value. -/
def Calc.Traps (c : Calc) : Prop := c.opt = .div ∧ c.value = none

/-- An operation whose value reads as the error marker. -/
def Calc.Dead (c : Calc) : Prop := c.value = some retDeadVal

instance (c : Calc) : Decidable c.Traps := inferInstanceAs (Decidable (_ ∧ _))

instance (c : Calc) : Decidable c.Dead := inferInstanceAs (Decidable (_ = _))

/-! ## Values -/

variable {κ σ η D : Type}

mutual

/-- An integer literal, or integers in parentheses. -/
def ResolvedVal.Integral : ResolvedVal κ → Prop
  | .val x => isDigit x.cstr
  | .valblock childs => childs.Integral
  | .var _ => False
  | .call _ _ => False

/-- Integers and operators. -/
def ResolvedVals.Integral : ResolvedVals κ → Prop
  | .nil => False
  | .cons node _ rest => node.Integral ∧ rest.AllIntegral

/-- The same of what stands behind an operator, if anything does. -/
def ResolvedVals.AllIntegral : ResolvedVals κ → Prop
  | .nil => True
  | .cons node _ rest => node.Integral ∧ rest.AllIntegral

end

mutual

/-- The value of an operand. -/
def ResolvedVal.intVal : ResolvedVal κ → Option (BitVec 32)
  | .val x => some (atoi x.cstr)
  | .valblock childs => childs.intVal
  | .var _ => none
  | .call _ _ => none

/-- The value of a list, from the left to the right. -/
def ResolvedVals.intVal : ResolvedVals κ → Option (BitVec 32)
  | .nil => none
  | .cons node next rest => do
    let a ← node.intVal
    rest.intValFrom next a

/-- The same, from the value `a` of what stands in front of the operator `opt`. -/
def ResolvedVals.intValFrom : ResolvedVals κ → Sym → BitVec 32 → Option (BitVec 32)
  | .nil, _, a => some a
  | .cons node next rest, opt, a => do
    let b ← node.intVal
    let r ← arith a b opt
    rest.intValFrom next r

end

mutual

/-- The operations that the evaluation of an operand comes to. -/
def ResolvedVal.calcs : ResolvedVal κ → List Calc
  | .val _ => []
  | .valblock childs => childs.calcs
  | .var _ => []
  | .call _ _ => []

/-- The operations that the evaluation of a list comes to. -/
def ResolvedVals.calcs : ResolvedVals κ → List Calc
  | .nil => []
  | .cons node next rest => node.calcs ++ node.intVal.elim [] fun a => rest.calcsFrom next a

/-- The same, from the value `a` of what stands in front of the operator `opt`. -/
def ResolvedVals.calcsFrom : ResolvedVals κ → Sym → BitVec 32 → List Calc
  | .nil, _, _ => []
  | .cons node next rest, opt, a =>
    node.calcs ++ node.intVal.elim [] fun b =>
      ⟨a, opt, b⟩ :: (arith a b opt).elim [] fun r => rest.calcsFrom next r

end

mutual

theorem ResolvedVal.value_ne_none : ∀ (node : ResolvedVal κ), node.intVal ≠ none →
    ∀ c ∈ node.calcs, c.value ≠ none
  | .val _, _, _, hc => absurd hc List.not_mem_nil
  | .valblock childs, h, c, hc => childs.value_ne_none h c hc
  | .var _, h, _, _ => absurd rfl h
  | .call _ _, h, _, _ => absurd rfl h

theorem ResolvedVals.value_ne_none : ∀ (vs : ResolvedVals κ), vs.intVal ≠ none →
    ∀ c ∈ vs.calcs, c.value ≠ none
  | .nil, h, _, _ => absurd rfl h
  | .cons node next rest, h, c, hc => by
    rw [ResolvedVals.intVal] at h
    rw [ResolvedVals.calcs] at hc
    cases hnode : node.intVal with
    | none => exact absurd (by rw [hnode]; rfl) h
    | some a =>
      rw [hnode] at h hc
      rcases List.mem_append.mp hc with hc | hc
      · exact node.value_ne_none (by rw [hnode]; nofun) c hc
      · exact rest.value_ne_none_from next a h c hc

theorem ResolvedVals.value_ne_none_from : ∀ (vs : ResolvedVals κ) (opt : Sym) (a : BitVec 32),
    vs.intValFrom opt a ≠ none → ∀ c ∈ vs.calcsFrom opt a, c.value ≠ none
  | .nil, _, _, _, _, hc => absurd hc List.not_mem_nil
  | .cons node next rest, opt, a, h, c, hc => by
    rw [ResolvedVals.intValFrom] at h
    rw [ResolvedVals.calcsFrom] at hc
    cases hnode : node.intVal with
    | none => exact absurd (by rw [hnode]; rfl) h
    | some b =>
      rw [hnode] at h hc
      cases hr : arith a b opt with
      | none => exact absurd (by rw [Option.bind_eq_bind, Option.bind_some, hr]; rfl) h
      | some r =>
        rw [Option.bind_eq_bind, Option.bind_some, hr] at h
        rw [Option.elim_some, hr] at hc
        rcases List.mem_append.mp hc with hc | hc
        · exact node.value_ne_none (by rw [hnode]; nofun) c hc
        · rcases List.mem_cons.mp hc with rfl | hc
          · rw [Calc.value, hr]
            nofun
          · exact rest.value_ne_none_from next r h c hc

end

/-! ## Outcomes -/

/-- How the evaluation of integers ends. -/
inductive Outcome
  | value (v : BitVec 32)
  | error
  | trap

/-- The outcome of the code: the first operation that fails, or whose value reads as the error
marker, ends the evaluation. -/
def outcome (calcs : List Calc) (v : Option (BitVec 32)) : Outcome :=
  if ∃ c ∈ calcs, c.Dead then .error
  else if ∃ c ∈ calcs, c.Traps then .trap
  else
    match v with
    | none => .error
    | some v => .value v

/-- The outcome of what goes on after an outcome. -/
def Outcome.next (o : Outcome) (f : BitVec 32 → Outcome) : Outcome :=
  match o with
  | .value v => f v
  | .error => .error
  | .trap => .trap

theorem outcome_append {pre : List Calc} {v : Option (BitVec 32)}
    (hv : v ≠ none → ∀ c ∈ pre, c.value ≠ none) (f : BitVec 32 → List Calc)
    (g : BitVec 32 → Option (BitVec 32)) :
    outcome (pre ++ v.elim [] f) (v.bind g) =
      (outcome pre v).next fun b => outcome (f b) (g b) := by
  cases v with
  | none =>
    rw [Option.elim_none, List.append_nil, Option.bind_none]
    unfold outcome
    split
    · rfl
    · split <;> rfl
  | some b =>
    have htraps : ¬∃ c ∈ pre, c.Traps := fun ⟨c, hc, ht⟩ => hv nofun c hc ht.2
    by_cases hdead : ∃ c ∈ pre, c.Dead
    · obtain ⟨c, hc, hd⟩ := hdead
      have hpre : outcome pre (some b) = .error := if_pos ⟨c, hc, hd⟩
      have hall : outcome (pre ++ f b) (g b) = .error := if_pos ⟨c, List.mem_append_left _ hc, hd⟩
      rw [hpre]
      exact hall
    · have hdead' : (∃ c ∈ pre ++ f b, c.Dead) ↔ ∃ c ∈ f b, c.Dead := by
        simp only [List.mem_append, or_and_right, exists_or, hdead, false_or]
      have htraps' : (∃ c ∈ pre ++ f b, c.Traps) ↔ ∃ c ∈ f b, c.Traps := by
        simp only [List.mem_append, or_and_right, exists_or, htraps, false_or]
      have hpre : outcome pre (some b) = .value b := by
        rw [outcome, if_neg hdead, if_neg htraps]
      rw [hpre]
      simp only [outcome, Option.elim_some, hdead', htraps', Option.bind_some, Outcome.next]

theorem outcome_singleton (a b : BitVec 32) (opt : Sym) :
    outcome [⟨a, opt, b⟩] (arith a b opt) =
      match arith a b opt with
      | some r => if r = retDeadVal then .error else .value r
      | none => if opt = .div then .trap else .error := by
  have hdead : Calc.Dead ⟨a, opt, b⟩ ↔ arith a b opt = some retDeadVal := Iff.rfl
  have htraps : Calc.Traps ⟨a, opt, b⟩ ↔ opt = .div ∧ arith a b opt = none := Iff.rfl
  simp only [outcome, List.mem_singleton, exists_eq_left, hdead, htraps]
  cases arith a b opt with
  | none => simp
  | some r => simp

/-- An evaluation from `s` has ended with the outcome. -/
def Outcome.Of (s : ExecState κ σ η) (r : Except ExecFault ((ℤ × LreValue D) × ExecState κ σ η)) :
    Outcome → Prop
  | .value v => r = .ok ((0, ⟨.int v, none⟩), s)
  | .error => ∃ arg s', r = .ok ((einval, arg), s')
  | .trap => r = .error .division

/-- `x` ends with the outcome, on any stack with an object. -/
def Gives (x : Exec κ σ η (ℤ × LreValue D)) (o : Outcome) : Prop :=
  ∀ s, s.stack ≠ [] → o.Of s (x s)

variable {C : Callbacks κ σ η D} {R : Doubles D}

/-- The end of an operand: an error ends the list. -/
theorem Gives.valNext {x : Exec κ σ η (ℤ × LreValue D)} {o : Outcome} (h : Gives x o) {opt : Sym}
    {arg : LreValue D} {more : LreValue D → Exec κ σ η (ℤ × LreValue D)}
    {f : BitVec 32 → Outcome}
    (hf : ∀ b, Gives (valNext R opt arg 0 ⟨.int b, none⟩ more) (f b)) :
    Gives (do let (ret, tmparg) ← x; valNext R opt arg ret tmparg more) (o.next f) := by
  intro s hs
  have hx := h s hs
  cases o with
  | value b =>
    rw [bind_ok hx]
    exact hf b s hs
  | error =>
    obtain ⟨tmparg, s', hx⟩ := hx
    rw [bind_ok hx]
    exact ⟨_, _, rfl⟩
  | trap =>
    have hx : x s = .error .division := hx
    rw [bind_apply, hx]
    rfl

theorem gives_operation (a b : BitVec 32) (opt : Sym)
    {more : LreValue D → Exec κ σ η (ℤ × LreValue D)} {f : BitVec 32 → Outcome}
    (hf : ∀ r, Gives (more ⟨.int r, none⟩) (f r)) :
    Gives (valNext R opt ⟨.int a, none⟩ 0 ⟨.int b, none⟩ more)
      ((outcome [⟨a, opt, b⟩] (arith a b opt)).next f) := by
  have hstep : valStep R opt ⟨.int a, none⟩ ⟨.int b, none⟩ = (match lreCalcInt a b opt with
    | none => throw .division
    | some r => return if r = retDeadVal then .error else .next ⟨.int r, none⟩ :
      Exec κ σ η (ValStep D)) := rfl
  rw [valNext, if_neg (by decide), hstep, lreCalcInt_eq, outcome_singleton]
  intro s hs
  cases arith a b opt with
  | none =>
    by_cases hdiv : opt = .div
    · simp only [if_pos hdiv]
      exact rfl
    · simp only [if_neg hdiv]
      exact ⟨_, _, rfl⟩
  | some r =>
    by_cases hr : r = retDeadVal
    · simp only [if_pos hr]
      exact ⟨_, _, rfl⟩
    · simp only [if_neg hr]
      exact hf r s hs

/-! ## Executions -/

theorem execCtxGetHandle_of_ne_nil {s : ExecState κ σ η} (hs : s.stack ≠ []) :
    ∃ top, execCtxGetHandle s = .ok (top, s) := by
  obtain ⟨top, stack, hstack⟩ := List.exists_cons_of_ne_nil hs
  exact ⟨top, by rw [execCtxGetHandle, hstack]⟩

theorem outcome_calcsFrom (node : ResolvedVal κ) (next opt : Sym) (rest : ResolvedVals κ)
    (a : BitVec 32) :
    outcome ((ResolvedVals.cons node next rest).calcsFrom opt a)
        ((ResolvedVals.cons node next rest).intValFrom opt a) =
      (outcome node.calcs node.intVal).next fun b =>
        (outcome [⟨a, opt, b⟩] (arith a b opt)).next fun r =>
          outcome (rest.calcsFrom next r) (rest.intValFrom next r) := by
  refine (outcome_append node.value_ne_none
    (fun b => ⟨a, opt, b⟩ :: (arith a b opt).elim [] fun r => rest.calcsFrom next r)
    (fun b => (arith a b opt).bind fun r => rest.intValFrom next r)).trans ?_
  congr 1
  funext b
  have hone : arith a b opt ≠ none → ∀ c ∈ [Calc.mk a opt b], c.value ≠ none := by
    intro h c hc
    rw [List.mem_singleton.mp hc]
    exact h
  exact outcome_append hone (fun r => rest.calcsFrom next r) (fun r => rest.intValFrom next r)

mutual

theorem gives_executeOperand (handle : η) : ∀ (node : ResolvedVal κ), node.Integral →
    Gives (executeOperand C R handle node) (outcome node.calcs node.intVal)
  | .val x, h => by
    intro s _
    have hval : val2lreValue R x.cstr = .int (atoi x.cstr) := if_pos h
    rw [executeOperand, hval]
    rfl
  | .valblock childs, h => by
    intro s hs
    obtain ⟨top, hget⟩ := execCtxGetHandle_of_ne_nil hs
    rw [executeOperand, bind_ok hget]
    exact gives_executeValLoop top childs h s hs
  | .var _, h => h.elim
  | .call _ _, h => h.elim

theorem gives_executeValLoop (handle : η) : ∀ (vs : ResolvedVals κ), vs.Integral →
    Gives (executeValLoop C R handle vs .reserved .init) (outcome vs.calcs vs.intVal)
  | .nil, h => h.elim
  | .cons node next rest, h => by
    rw [executeValLoop]
    have hout : outcome (ResolvedVals.cons node next rest).calcs
        (ResolvedVals.cons node next rest).intVal = (outcome node.calcs node.intVal).next
          fun b => outcome (rest.calcsFrom next b) (rest.intValFrom next b) :=
      outcome_append node.value_ne_none (fun b => rest.calcsFrom next b)
        (fun b => rest.intValFrom next b)
    rw [hout]
    refine (gives_executeOperand handle node h.1).valNext fun b => ?_
    exact gives_executeValLoopFrom handle rest h.2 next b

theorem gives_executeValLoopFrom (handle : η) : ∀ (vs : ResolvedVals κ), vs.AllIntegral →
    ∀ opt a, Gives (executeValLoop C R handle vs opt ⟨.int a, none⟩)
      (outcome (vs.calcsFrom opt a) (vs.intValFrom opt a))
  | .nil, _, opt, a => fun s _ => rfl
  | .cons node next rest, h, opt, a => by
    rw [executeValLoop, outcome_calcsFrom]
    refine (gives_executeOperand handle node h.1).valNext fun b => ?_
    refine gives_operation a b opt fun r => ?_
    exact gives_executeValLoopFrom handle rest h.2 next r

end

/-- `execute_syntax_val` ends with the outcome of the operations. -/
theorem executeSyntaxVal_outcome (C : Callbacks κ σ η D) (R : Doubles D) {vs : ResolvedVals κ}
    (h : vs.Integral) : Gives (executeSyntaxVal C R vs) (outcome vs.calcs vs.intVal) := by
  intro s hs
  obtain ⟨top, hget⟩ := execCtxGetHandle_of_ne_nil hs
  rw [executeSyntaxVal, bind_ok hget]
  exact gives_executeValLoop top vs h s hs

/-- What an execution has to come to: the value, or an error where there is none. -/
structure IntRead (v : Option (BitVec 32))
    (r : Except ExecFault ((ℤ × LreValue D) × ExecState κ σ η)) : Prop where
  value : ∀ i, v = some i → ∃ s, r = .ok ((0, ⟨.int i, none⟩), s)
  error : v = none → ∃ ret arg s, r = .ok ((ret, arg), s) ∧ ret ≠ 0

theorem intRead_iff {s : ExecState κ σ η} {calcs : List Calc} {v : Option (BitVec 32)}
    {r : Except ExecFault ((ℤ × LreValue D) × ExecState κ σ η)} (h : (outcome calcs v).Of s r) :
    IntRead v r ↔
      if ∃ c ∈ calcs, c.Dead then v = none else ¬∃ c ∈ calcs, c.Traps := by
  by_cases hdead : ∃ c ∈ calcs, c.Dead
  · rw [outcome.eq_def, if_pos hdead] at h
    obtain ⟨arg, s', rfl⟩ := h
    rw [if_pos hdead]
    constructor
    · intro hread
      by_contra hv
      obtain ⟨i, hi⟩ := Option.ne_none_iff_exists'.mp hv
      obtain ⟨_, hr⟩ := hread.value i hi
      cases hr
    · rintro rfl
      exact ⟨nofun, fun _ => ⟨_, _, _, rfl, by decide⟩⟩
  · rw [outcome.eq_def, if_neg hdead] at h
    rw [if_neg hdead]
    by_cases htraps : ∃ c ∈ calcs, c.Traps
    · rw [if_pos htraps] at h
      obtain rfl : r = .error .division := h
      refine iff_of_false (fun hread => ?_) (not_not_intro htraps)
      cases v with
      | none =>
        obtain ⟨_, _, _, hr, -⟩ := hread.error rfl
        cases hr
      | some i =>
        obtain ⟨_, hr⟩ := hread.value i rfl
        cases hr
    · rw [if_neg htraps] at h
      refine iff_of_true ?_ htraps
      cases v with
      | none =>
        obtain ⟨arg, s', rfl⟩ := h
        exact ⟨nofun, fun _ => ⟨_, _, _, rfl, by decide⟩⟩
      | some i =>
        refine ⟨?_, nofun⟩
        rintro _ ⟨⟩
        exact ⟨s, h⟩

/-- **Integer literals, parentheses and operators evaluate to their value from the left to the
right, or to an error where there is none, exactly when no division traps and no value that is
found on the way to another one is `RET_DEAD_VAL`.** -/
theorem executeSyntaxVal_int_iff (C : Callbacks κ σ η D) (R : Doubles D) (s : ExecState κ σ η)
    {vs : ResolvedVals κ} (hint : vs.Integral) :
    IntRead vs.intVal (executeSyntaxVal C R vs s) ↔
      s.stack ≠ [] ∧
        if ∃ c ∈ vs.calcs, c.Dead then vs.intVal = none else ¬∃ c ∈ vs.calcs, c.Traps := by
  by_cases hs : s.stack = []
  · have hget : executeSyntaxVal C R vs s = .error .emptyStack := by
      rw [executeSyntaxVal, bind_apply, execCtxGetHandle, hs]
      rfl
    rw [hget]
    refine iff_of_false (fun hread => ?_) (fun h => h.1 hs)
    cases hv : vs.intVal with
    | none =>
      obtain ⟨_, _, _, hr, -⟩ := hread.error hv
      cases hr
    | some i =>
      obtain ⟨_, hr⟩ := hread.value i hv
      cases hr
  · rw [intRead_iff (executeSyntaxVal_outcome C R hint s hs)]
    exact (and_iff_right hs).symm

/-! ## Samples -/

/-- `a - b`. -/
def difference (a b : String) : ResolvedVals κ :=
  .cons (.val (.ident a.toList)) .sub (.cons (.val (.ident b.toList)) .reserved .nil)

/-- `a / b`. -/
def quotient (a b : String) : ResolvedVals κ :=
  .cons (.val (.ident a.toList)) .div (.cons (.val (.ident b.toList)) .reserved .nil)

/-- An execution that has an object on the stack. -/
def sampleState : ExecState KeystubType Unit Unit := ⟨(), [()], 4096, 0, [], 0⟩

/-- `7 - 3`. -/
theorem executeSyntaxVal_int_difference :
    (difference (κ := KeystubType) "7" "3").Integral ∧
    IntRead (some 4) (executeSyntaxVal sampleCallbacks unitDoubles (difference "7" "3")
      sampleState) := by
  have hint : (difference (κ := KeystubType) "7" "3").Integral := ⟨rfl, rfl, trivial⟩
  refine ⟨hint, ?_⟩
  have hval : (difference (κ := KeystubType) "7" "3").intVal = some 4 := by decide
  rw [← hval]
  refine (executeSyntaxVal_int_iff sampleCallbacks unitDoubles sampleState hint).mpr ⟨nofun, ?_⟩
  decide

/-- `1 / 0` divides, and `0 - 559030547`, which is `RET_DEAD_VAL`, is taken for an error. -/
theorem executeSyntaxVal_int_trap :
    executeSyntaxVal sampleCallbacks unitDoubles (quotient "1" "0") sampleState =
      .error .division ∧
    (∃ arg s, executeSyntaxVal sampleCallbacks unitDoubles (difference "0" "559030547")
      sampleState = .ok ((einval, arg), s)) ∧
    ¬∀ vs : ResolvedVals KeystubType, vs.Integral →
      IntRead vs.intVal (executeSyntaxVal sampleCallbacks unitDoubles vs sampleState) := by
  have htrap : executeSyntaxVal sampleCallbacks unitDoubles (quotient "1" "0") sampleState =
      .error .division := rfl
  refine ⟨htrap, ⟨_, _, rfl⟩, fun hall => ?_⟩
  have hread := hall (quotient "1" "0") ⟨rfl, rfl, trivial⟩
  obtain ⟨_, _, _, hr, -⟩ := hread.error (by decide)
  rw [htrap] at hr
  cases hr

end Lre
