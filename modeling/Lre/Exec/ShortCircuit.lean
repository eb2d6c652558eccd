import Lre.Fold
import Lre.Exec.Model

/-!
# The early return of item lists

`execute_syntax_childs` leaves the whole list at the first operator that decides.

* `evaluateChilds`: every node of a list, in order; `accumulate`: the accumulator loop of
  `execute_syntax_childs` over their values, without the early return.
* `executeSyntaxChilds_eq_foldUntil`: with the early return it is the fold with an early exit.
* **`executeSyntaxChilds_shortCircuit_iff`**: when the early return keeps the value.
-/

namespace Lre

open Run Fold

variable {κ σ η D : Type}

/-- Evaluate every node of a list: the values, each with the operator after it. -/
def evaluateChilds (C : Callbacks κ σ η D) (R : Doubles D) :
    ResolvedItems κ → Exec κ σ η (List (ℤ × Sym))
  | .nil => return []
  | .cons node next rest => do
    let ret ← executeItem C R node
    let vals ← evaluateChilds C R rest
    return (ret, next) :: vals

/-- The accumulator loop of `execute_syntax_childs` on all values. -/
def accumulate : List (ℤ × Sym) → Sym → ℤ → ℤ
  | [], _, res => res
  | (ret, next) :: vals, opt, res =>
    if !vaildLreResults ret then retDead
    else
      match childsRes opt res ret with
      | none => retDead
      | some res => accumulate vals next res

/-! ## Operands -/

/-- The truth of a return code. -/
def truth (ret : ℤ) : Bool := ret ≠ 0

/-- The values after the first one, each with the operator before it. -/
def operands : Sym → List (ℤ × Sym) → List (Sym × Bool)
  | _, [] => []
  | opt, (ret, next) :: vals => (opt, truth ret) :: operands next vals

/-- `res = res && ret` and `res = res || ret`. -/
def combine (res : Bool) (o : Sym × Bool) : Bool := if o.1 = .and then res && o.2 else res || o.2

/-- The early return before an operand. -/
def stops (res : Bool) (o : Sym × Bool) : Bool := childsStop o.1 (if res then 1 else 0)

/-- The value an operand forces: a false one after `&&`, a true one after `||`. -/
def decides (o : Sym × Bool) : Option Bool :=
  if o.1 = .and then if o.2 then none else some false
  else if o.2 then some true else none

theorem combine_eq_decides (res : Bool) (o : Sym × Bool) :
    combine res o = (decides o).getD res := by
  obtain ⟨opt, v⟩ := o
  unfold combine decides
  by_cases h : opt = .and <;> cases res <;> cases v <;> simp [h]

/-- The return code of a truth value. -/
def verdict (b : Bool) : ℤ := if b then 1 else 0

theorem vaildLreResults_verdict (b : Bool) : vaildLreResults (verdict b) = true := by
  cases b <;> rfl

theorem verdict_truth {ret : ℤ} (h : vaildLreResults ret = true) : verdict (truth ret) = ret := by
  have : ret = 1 ∨ ret = 0 := of_decide_eq_true h
  rcases this with rfl | rfl <;> rfl

theorem verdict_injective {a b : Bool} (h : verdict a = verdict b) : a = b := by
  cases a <;> cases b <;> simp_all [verdict]

theorem childsRes_verdict {opt : Sym} (hopt : opt = .and ∨ opt = .or) (res : Bool) {ret : ℤ}
    (hret : vaildLreResults ret = true) :
    childsRes opt (verdict res) ret = some (verdict (combine res (opt, truth ret))) := by
  have : ret = 1 ∨ ret = 0 := of_decide_eq_true hret
  rcases hopt with rfl | rfl <;> rcases this with rfl | rfl <;> cases res <;> rfl

theorem accumulate_eq_foldl (opt : Sym) (res : Bool) (vals : List (ℤ × Sym))
    (hv : ∀ c ∈ vals, vaildLreResults c.1 = true)
    (hj : ∀ o ∈ operands opt vals, o.1 = .and ∨ o.1 = .or) :
    accumulate vals opt (verdict res) = verdict ((operands opt vals).foldl combine res) := by
  induction vals generalizing opt res with
  | nil => rfl
  | cons c vals ih =>
    obtain ⟨ret, next⟩ := c
    have hret : vaildLreResults ret = true := hv _ List.mem_cons_self
    have hopt : opt = .and ∨ opt = .or := hj (opt, truth ret) List.mem_cons_self
    simp only [accumulate, hret, Bool.not_true, Bool.false_eq_true, if_false,
      childsRes_verdict hopt res hret]
    exact ih next _ (fun c hc => hv c (List.mem_cons_of_mem _ hc))
      fun o ho => hj o (List.mem_cons_of_mem _ ho)

/-! ## The loop -/

variable {C : Callbacks κ σ η D} {R : Doubles D}

/-- `execute_syntax_childs` after a node with the operator `next`. -/
def childsTail (C : Callbacks κ σ η D) (R : Doubles D) (rest : ResolvedItems κ) (next : Sym)
    (res : ℤ) : Exec κ σ η ℤ :=
  if childsStop next res then return res else executeChildsLoop C R rest next res

theorem childsNext_ok {opt next : Sym} {res ret res' : ℤ} {rest : ResolvedItems κ}
    (hret : vaildLreResults ret = true) (hres : childsRes opt res ret = some res') :
    childsNext opt next res ret (executeChildsLoop C R rest next) =
      childsTail C R rest next res' := by
  simp only [childsNext, hret, Bool.not_true, Bool.false_eq_true, if_false, hres, childsTail]

theorem evaluateChilds_cons {node : ResolvedItem κ} {next : Sym} {rest : ResolvedItems κ}
    {s s' : ExecState κ σ η} {vals : List (ℤ × Sym)}
    (h : evaluateChilds C R (.cons node next rest) s = .ok (vals, s')) :
    ∃ ret vals' s₁, vals = (ret, next) :: vals' ∧ executeItem C R node s = .ok (ret, s₁) ∧
      evaluateChilds C R rest s₁ = .ok (vals', s') := by
  obtain ⟨ret, s₁, h₁, h⟩ := bind_inv h
  obtain ⟨vals', s₂, h₂, h⟩ := bind_inv h
  cases h
  exact ⟨ret, vals', s₁, rfl, h₁, h₂⟩

theorem childsTail_eq_foldUntil : ∀ (rest : ResolvedItems κ) (next : Sym) (b : Bool)
    (vals : List (ℤ × Sym)) (s s₁ : ExecState κ σ η),
    evaluateChilds C R rest s = .ok (vals, s₁) → (∀ c ∈ vals, vaildLreResults c.1 = true) →
    (∀ o ∈ operands next vals, o.1 = .and ∨ o.1 = .or) →
    ∃ s', childsTail C R rest next (verdict b) s =
      .ok (verdict (foldUntil combine stops b (operands next vals)), s')
  | .nil, next, b, vals, s, s₁, h, _, _ => by
    cases h
    refine ⟨s, ?_⟩
    have hb : verdict b ≠ valUninitialized := by cases b <;> decide
    unfold childsTail
    split
    · rfl
    · rw [executeChildsLoop, if_neg hb]
      rfl
  | .cons node next' rest, next, b, vals, s, s₁, h, hv, hj => by
    obtain ⟨ret, vals', s₂, rfl, hnode, hrest⟩ := evaluateChilds_cons h
    have hret : vaildLreResults ret = true := hv _ List.mem_cons_self
    have hopt : next = .and ∨ next = .or := hj (next, truth ret) List.mem_cons_self
    by_cases hstop : childsStop next (verdict b) = true
    · have hs : stops b (next, truth ret) = true := hstop
      exact ⟨s, by simp [childsTail, hstop, operands, foldUntil, hs]⟩
    · have hs : stops b (next, truth ret) = false := Bool.eq_false_iff.mpr hstop
      obtain ⟨s', hs'⟩ := childsTail_eq_foldUntil rest next' (combine b (next, truth ret)) vals' s₂
        s₁ hrest (fun c hc => hv c (List.mem_cons_of_mem _ hc))
        fun o ho => hj o (List.mem_cons_of_mem _ ho)
      refine ⟨s', ?_⟩
      rw [childsTail, if_neg hstop, executeChildsLoop, bind_ok hnode,
        childsNext_ok hret (childsRes_verdict hopt b hret), hs', operands, foldUntil, hs]
      rfl

/-- The list loop is a fold with an early exit over the values of its nodes. -/
theorem executeSyntaxChilds_eq_foldUntil {root : ResolvedItems κ} {s s₁ : ExecState κ σ η}
    {ret : ℤ} {next : Sym} {vals : List (ℤ × Sym)}
    (h : evaluateChilds C R root s = .ok ((ret, next) :: vals, s₁))
    (hv : ∀ c ∈ (ret, next) :: vals, vaildLreResults c.1 = true)
    (hj : ∀ o ∈ operands next vals, o.1 = .and ∨ o.1 = .or) :
    ∃ s', executeSyntaxChilds C R root s =
      .ok (verdict (foldUntil combine stops (truth ret) (operands next vals)), s') := by
  cases root with
  | nil => cases h
  | cons node next' rest =>
    obtain ⟨ret', vals', s₂, heq, hnode, hrest⟩ := evaluateChilds_cons h
    obtain ⟨⟨rfl, rfl⟩, rfl⟩ : (ret = ret' ∧ next = next') ∧ vals = vals' := by simpa using heq
    have hret : vaildLreResults ret = true := hv _ List.mem_cons_self
    have hres : childsRes .reserved valUninitialized ret = some (verdict (truth ret)) := by
      rw [verdict_truth hret]
      rfl
    obtain ⟨s', hs'⟩ := childsTail_eq_foldUntil rest next (truth ret) vals s₂ s₁ hrest
      (fun c hc => hv c (List.mem_cons_of_mem _ hc)) hj
    exact ⟨s', by rw [executeSyntaxChilds, executeChildsLoop, bind_ok hnode,
      childsNext_ok hret hres, hs']⟩

/-- **The early return, exactly.** On a list whose nodes all have a truth value and are joined by
`&&` and `||`, `execute_syntax_childs` returns the value of its accumulator loop over all nodes if
and only if, after the node at which it returns, the last operand that forces a value forces the
one it returned. -/
theorem executeSyntaxChilds_shortCircuit_iff (C : Callbacks κ σ η D) (R : Doubles D)
    (root : ResolvedItems κ) (s s₁ : ExecState κ σ η) (ret : ℤ) (next : Sym)
    (vals : List (ℤ × Sym)) (h : evaluateChilds C R root s = .ok ((ret, next) :: vals, s₁))
    (hv : ∀ c ∈ (ret, next) :: vals, vaildLreResults c.1 = true)
    (hj : ∀ o ∈ operands next vals, o.1 = .and ∨ o.1 = .or) :
    (∃ s', executeSyntaxChilds C R root s =
        .ok (accumulate ((ret, next) :: vals) .reserved valUninitialized, s')) ↔
      ∀ res rest, stopAt combine stops (truth ret) (operands next vals) = some (res, rest) →
        (lastSome decides rest).getD res = res := by
  have hret : vaildLreResults ret = true := hv _ List.mem_cons_self
  have hacc : accumulate ((ret, next) :: vals) .reserved valUninitialized =
      verdict ((operands next vals).foldl combine (truth ret)) := by
    rw [← accumulate_eq_foldl next (truth ret) vals
      (fun c hc => hv c (List.mem_cons_of_mem _ hc)) hj, verdict_truth hret]
    simp only [accumulate, hret, Bool.not_true, Bool.false_eq_true, if_false]
    rfl
  rw [hacc, ← foldUntil_eq_foldl_iff combine_eq_decides]
  obtain ⟨s', hs'⟩ := executeSyntaxChilds_eq_foldUntil h hv hj
  constructor
  · rintro ⟨s'', hs''⟩
    rw [hs'] at hs''
    exact verdict_injective (congrArg Prod.fst (Except.ok.inj hs''))
  · intro heq
    exact ⟨s', by rw [hs', heq]⟩

/-- The sample components with the expressions `==` true and all others false. -/
def equalHolds : Callbacks KeystubType Unit Unit Unit :=
  { sampleCallbacks with exprHandler := fun _ _ opt _ _ => (if opt = .equal then 1 else 0, ()) }

/-- The body of `f(){e!=1 && e==1 op e==1}`. -/
def mixedChain (op : Sym) : ResolvedItems KeystubType :=
  .cons (.expr .expr .notEqual oneVal) .and (.cons (.expr .expr .equal oneVal) op
    (ResolvedItem.expr .expr .equal oneVal).single)

theorem evaluateChilds_mixedChain (op : Sym) :
    evaluateChilds equalHolds unitDoubles (mixedChain op) ⟨(), [()], 8192, 0, [], 0⟩ =
      .ok ([(0, .and), (1, op), (1, .reserved)], ⟨(), [()], 8192, 0,
        [(0, .exprHandler .expr () 1), (0, .exprHandler .expr () 1),
          (0, .exprHandler .expr () 0)], 0⟩) := by
  rfl

/-- On `F && T && T` the early return keeps the value. -/
theorem executeSyntaxChilds_andChain :
    (∃ s', executeSyntaxChilds equalHolds unitDoubles (mixedChain .and)
        ⟨(), [()], 8192, 0, [], 0⟩ =
        .ok (accumulate [(0, .and), (1, .and), (1, .reserved)] .reserved valUninitialized, s')) ↔
      ∀ res rest, stopAt combine stops (truth 0) (operands .and [(1, .and), (1, .reserved)]) =
        some (res, rest) → (lastSome decides rest).getD res = res :=
  executeSyntaxChilds_shortCircuit_iff _ _ _ _ _ _ _ _ (evaluateChilds_mixedChain .and)
    (by decide) (by decide)

/-- On `F && T || T` it returns FALSE, the accumulator loop TRUE. -/
theorem executeSyntaxChilds_mixedChain :
    ¬ ∀ (root : ResolvedItems KeystubType) (s s₁ : ExecState KeystubType Unit Unit) (ret : ℤ)
        (next : Sym) (vals : List (ℤ × Sym)),
      evaluateChilds equalHolds unitDoubles root s = .ok ((ret, next) :: vals, s₁) →
      (∀ c ∈ (ret, next) :: vals, vaildLreResults c.1 = true) →
      (∀ o ∈ operands next vals, o.1 = .and ∨ o.1 = .or) →
      ∃ s', executeSyntaxChilds equalHolds unitDoubles root s =
        .ok (accumulate ((ret, next) :: vals) .reserved valUninitialized, s') := by
  intro h
  obtain ⟨s', hs'⟩ := h _ _ _ _ _ _ (evaluateChilds_mixedChain .or) (by decide) (by decide)
  have hrun : executeSyntaxChilds equalHolds unitDoubles (mixedChain .or)
      ⟨(), [()], 8192, 0, [], 0⟩ =
      .ok (0, ⟨(), [()], 8192, 0, [(0, .exprHandler .expr () 0)], 0⟩) := by
    decide +kernel
  rw [hrun] at hs'
  have hret : (0 : ℤ) = accumulate [(0, .and), (1, .or), (1, .reserved)] .reserved
      valUninitialized := congrArg Prod.fst (Except.ok.inj hs')
  exact absurd hret (by decide)

end Lre
