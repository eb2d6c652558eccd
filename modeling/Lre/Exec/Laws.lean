import Lre.Exec.Joined
import Lre.Exec.ShortCircuit

/-!
# Laws of the rule language

`execute_syntax_childs` returns as soon as an operand decides, whatever stands behind it. So the
operators have no precedence, and a list groups to the right.

* `nested`: the rest of every list in parentheses of its own.
* `interpExecute_nested`: these parentheses change nothing: the same components are called in the
  same order, and the result is the same.
* `dual`: every item of a list in a negated block of its own, and `&&` and `||` exchanged.
* `executeSyntaxBlock_dual`: a negated block is the dual of its list, when no item of the list that
  is evaluated fails.
-/

namespace Lre

open Run

variable {κ σ η D : Type}

mutual

/-- An item with its lists nested. -/
def ResolvedItem.nested : ResolvedItem κ → ResolvedItem κ
  | .func keystub args body => .func keystub args body.nested
  | .block negative childs => .block negative childs.nested
  | .expr keystub opt valchilds => .expr keystub opt valchilds

/-- `x && (y || (z && ..))` for `x && y || z && ..`, and so in every list of the items. -/
def ResolvedItems.nested : ResolvedItems κ → ResolvedItems κ
  | .nil => .nil
  | .cons node opt .nil => .cons node.nested opt .nil
  | .cons node opt (.cons node' opt' rest) =>
    .cons node.nested opt
      (.cons (.block false (ResolvedItems.cons node' opt' rest).nested) .reserved .nil)

end

variable {C : Callbacks κ σ η D} {R : Doubles D}

/-! ## Steps of the loop -/

theorem childsNext_congr {opt next : Sym} {res ret : ℤ} {more more' : ℤ → Exec κ σ η ℤ}
    (h : ∀ res, vaildLreResults res = true → childsStop next res = false → more res = more' res) :
    childsNext opt next res ret more = childsNext opt next res ret more' := by
  unfold childsNext
  split
  · rfl
  · rename_i hret
    cases hres : childsRes opt res ret with
    | none => rfl
    | some res' =>
      dsimp only
      split
      · rfl
      · rename_i hstop
        exact h res' (childsRes_valid (by simpa using hret) hres) (by simpa using hstop)

theorem executeChildsLoop_congr {node node' : ResolvedItem κ} {next : Sym}
    {rest rest' : ResolvedItems κ} (hnode : executeItem C R node = executeItem C R node')
    (hrest : ∀ res, vaildLreResults res = true → childsStop next res = false →
      executeChildsLoop C R rest next res = executeChildsLoop C R rest' next res)
    (opt : Sym) (res : ℤ) :
    executeChildsLoop C R (.cons node next rest) opt res =
      executeChildsLoop C R (.cons node' next rest') opt res := by
  rw [executeChildsLoop, executeChildsLoop, hnode]
  exact congrArg (executeItem C R node' >>= ·) (funext fun ret => childsNext_congr hrest)

/-- A list that has items ends with a result or with an error. -/
theorem executeChildsLoop_ends : ∀ (node : ResolvedItem κ) (next : Sym) (rest : ResolvedItems κ)
    (opt : Sym) (res : ℤ) (s : ExecState κ σ η),
    wp (fun _ => True) (executeChildsLoop C R (.cons node next rest) opt res)
      (fun ret _ => vaildLreResults ret = true ∨ ret = retDead) s
  | node, next, rest, opt, res, s => by
    rw [executeChildsLoop]
    refine wp_bind_of_forall fun ret s₁ => ?_
    unfold childsNext
    split
    · exact .inr rfl
    · rename_i hret
      cases hres : childsRes opt res ret with
      | none => exact .inr rfl
      | some res' =>
        have hvalid := childsRes_valid (by simpa using hret) hres
        dsimp only
        split
        · exact .inl hvalid
        · cases rest with
          | nil =>
            rw [executeChildsLoop, if_neg (by rintro rfl; cases hvalid)]
            exact .inl hvalid
          | cons node' next' rest => exact executeChildsLoop_ends node' next' rest next res' s₁

/-- Where a list goes on behind an operator, it goes on as if it began there. -/
theorem executeChildsLoop_restart {op : Sym} {res : ℤ} (hop : op = .and ∨ op = .or)
    (hres : vaildLreResults res = true) (hstop : childsStop op res = false)
    (node : ResolvedItem κ) (next : Sym) (rest : ResolvedItems κ) :
    executeChildsLoop C R (.cons node next rest) op res =
      executeChildsLoop C R (.cons node next rest) .reserved valUninitialized := by
  have hchilds : ∀ ret, vaildLreResults ret = true → childsRes op res ret = some ret := by
    intro ret hret
    have h₁ : res = 1 ∨ res = 0 := of_decide_eq_true hres
    have h₂ : ret = 1 ∨ ret = 0 := of_decide_eq_true hret
    rcases hop with rfl | rfl <;> rcases h₁ with rfl | rfl <;> rcases h₂ with rfl | rfl <;>
      first | rfl | cases hstop
  rw [executeChildsLoop, executeChildsLoop]
  refine congrArg (executeItem C R node >>= ·) (funext fun ret => ?_)
  unfold childsNext
  split
  · rfl
  · rename_i hret
    rw [hchilds ret (by simpa using hret)]
    rfl

theorem executeChildsLoop_block {op : Sym} {res : ℤ} (hop : op = .and ∨ op = .or)
    (hres : vaildLreResults res = true) (hstop : childsStop op res = false)
    (node : ResolvedItem κ) (next : Sym) (rest : ResolvedItems κ) :
    executeChildsLoop C R (.cons (.block false (.cons node next rest)) .reserved .nil) op res =
      executeChildsLoop C R (.cons node next rest) op res := by
  have hrestart := @executeChildsLoop_restart _ _ _ _ C R op res hop hres hstop
  rw [hrestart, hrestart, executeChildsLoop]
  have hblock : executeItem C R (.block false (.cons node next rest)) =
      executeChildsLoop C R (.cons node next rest) .reserved valUninitialized := rfl
  rw [hblock]
  funext s
  calc (executeChildsLoop C R (.cons node next rest) .reserved valUninitialized >>= fun ret =>
      childsNext .reserved .reserved valUninitialized ret (executeChildsLoop C R .nil .reserved)) s
    _ = (executeChildsLoop C R (.cons node next rest) .reserved valUninitialized >>= pure) s := by
      refine bind_congr_of_wp (executeChildsLoop_ends node next rest _ _ s) ?_
      rintro ret (hret | rfl)
      · have hvalid : ret = 1 ∨ ret = 0 := of_decide_eq_true hret
        rcases hvalid with rfl | rfl <;> rfl
      · rfl
    _ = executeChildsLoop C R (.cons node next rest) .reserved valUninitialized s := by
      rw [bind_pure]

/-! ## Nesting -/

theorem ResolvedItems.nested_cons (node : ResolvedItem κ) (op : Sym) (rest : ResolvedItems κ) :
    ∃ node' op' rest', (ResolvedItems.cons node op rest).nested = .cons node' op' rest' := by
  cases rest with
  | nil => exact ⟨_, _, _, rfl⟩
  | cons node' op' rest => exact ⟨_, _, _, rfl⟩

mutual

theorem executeItem_nested : ∀ node : ResolvedItem κ, node.Joined →
    executeItem C R node.nested = executeItem C R node
  | .func keystub args body, h => by
    rw [ResolvedItem.nested, executeItem, executeItem, executeChildsLoop_nested body h]
  | .block negative childs, h => by
    rw [ResolvedItem.nested, executeItem, executeItem, executeChildsLoop_nested childs h]
  | .expr .., _ => rfl

theorem executeChildsLoop_nested : ∀ items : ResolvedItems κ, items.Joined →
    ∀ (opt : Sym) (res : ℤ),
      executeChildsLoop C R items.nested opt res = executeChildsLoop C R items opt res
  | .nil, h, _, _ => h.elim
  | .cons node op .nil, h, opt, res =>
    executeChildsLoop_congr (executeItem_nested node h) (fun _ _ _ => rfl) opt res
  | .cons node op (.cons node' op' rest), ⟨hnode, hop, hrest⟩, opt, res => by
    refine executeChildsLoop_congr (executeItem_nested node hnode) (fun res hres hstop => ?_) opt
      res
    have ih := executeChildsLoop_nested (.cons node' op' rest) hrest op res
    obtain ⟨node₁, op₁, rest₁, hcons⟩ := ResolvedItems.nested_cons node' op' rest
    rw [hcons] at ih ⊢
    exact (executeChildsLoop_block hop hres hstop node₁ op₁ rest₁).trans ih

end

/-- **The operators group to the right**: with the rest of every list in parentheses, a rule calls
the same components in the same order, and has the same result. -/
theorem interpExecute_nested (C : Callbacks κ σ η D) (R : Doubles D) (stacksize : ℕ)
    {tree : ResolvedItems κ} (h : tree.Joined) (env : σ) :
    interpExecute C R stacksize tree.nested env = interpExecute C R stacksize tree env :=
  congrFun (executeChildsLoop_nested tree h .reserved valUninitialized) _

/-- `T && (F || T)` is nested, and `(T && F) || T` is another rule. -/
theorem interpExecute_nested_mixedChain :
    interpExecute equalHolds unitDoubles 8192 (mixedChain .or).nested () =
      interpExecute equalHolds unitDoubles 8192 (mixedChain .or) () :=
  have hjoined : (mixedChain .or).Joined := ⟨trivial, .inl rfl, trivial, .inr rfl, trivial⟩
  interpExecute_nested _ _ _ hjoined _

/-! ## Duality -/

/-- `&&` for `||`, and `||` for `&&`. -/
def Sym.dual : Sym → Sym
  | .and => .or
  | .or => .and
  | s => s

/-- `!(x) || !(y)` for `x && y`, and so along the list. -/
def ResolvedItems.dual : ResolvedItems κ → ResolvedItems κ
  | .nil => .nil
  | .cons node op rest => .cons (.block true node.single) op.dual rest.dual

/-- No item fails that the evaluation of a list from `s` comes to. -/
def Verdicts (C : Callbacks κ σ η D) (R : Doubles D) : ResolvedItems κ → ExecState κ σ η → Prop
  | .nil, _ => True
  | .cons node op rest, s => wp (fun _ => True) (executeItem C R node)
      (fun ret s' => vaildLreResults ret = true ∧
        (childsStop op ret = false → Verdicts C R rest s')) s

/-- `!ret`. -/
def notRet (ret : ℤ) : ℤ := if ret = 0 then 1 else 0

/-- The state a negated block runs in. -/
def ExecState.deeper (s : ExecState κ σ η) : ExecState κ σ η :=
  { s with negdepth := s.negdepth + 1 }

/-- The state behind a negated block that began at depth `d`. -/
def ExecState.atDepth (s : ExecState κ σ η) (d : ℕ) : ExecState κ σ η := { s with negdepth := d }

theorem vaildLreResults_notRet {ret : ℤ} : vaildLreResults (notRet ret) = true := by
  unfold notRet
  split <;> rfl

theorem childsStop_dual {op : Sym} {ret : ℤ} (hret : vaildLreResults ret = true) :
    childsStop op.dual (notRet ret) = childsStop op ret := by
  have h : ret = 1 ∨ ret = 0 := of_decide_eq_true hret
  cases op <;> rcases h with rfl | rfl <;> rfl

theorem executeItem_negdepth (node : ResolvedItem κ) {s s' : ExecState κ σ η} {ret : ℤ}
    (h : executeItem C R node s = .ok (ret, s')) : s'.negdepth = s.negdepth := by
  obtain ⟨q, hlog, -⟩ := (executeItem_tracks node s).of_ok h
  exact hlog.1

theorem executeChildsLoop_first {node : ResolvedItem κ} {op : Sym} {rest : ResolvedItems κ}
    {s s' : ExecState κ σ η} {ret : ℤ} (h : executeItem C R node s = .ok (ret, s'))
    (hret : vaildLreResults ret = true) :
    executeChildsLoop C R (.cons node op rest) .reserved valUninitialized s =
      if childsStop op ret then .ok (ret, s') else executeChildsLoop C R rest op ret s' := by
  rw [executeChildsLoop, bind_ok h, childsNext, hret]
  by_cases hstop : childsStop op ret = true
  · rw [if_pos hstop]
    simp only [childsRes, if_true, hstop]
    rfl
  · rw [if_neg hstop]
    simp only [childsRes, if_true, hstop]
    rfl

theorem executeChildsLoop_nil {op : Sym} {ret : ℤ} {s : ExecState κ σ η}
    (hret : vaildLreResults ret = true) :
    executeChildsLoop C R .nil op ret s = .ok (ret, s) := by
  rw [executeChildsLoop, if_neg (by rintro rfl; cases hret)]
  rfl

theorem executeItem_negated {node : ResolvedItem κ} {s s' : ExecState κ σ η} {ret : ℤ}
    (h : executeItem C R node s.deeper = .ok (ret, s')) (hret : vaildLreResults ret = true) :
    executeItem C R (.block true node.single) s = .ok (notRet ret, s'.atDepth s.negdepth) := by
  have hfirst := @executeChildsLoop_first _ _ _ _ C R node .reserved .nil _ _ _ h hret
  rw [executeChildsLoop_nil hret, ite_self] at hfirst
  have hneg : negated (executeChildsLoop C R node.single .reserved valUninitialized) s =
      .ok (ret, s'.atDepth s.negdepth) := by
    rw [negated]
    exact congrArg (Except.map fun p => (p.1, { p.2 with negdepth := s.negdepth })) hfirst
  rw [executeItem, executeBlock, if_pos rfl, bind_ok hneg]
  rfl

theorem executeItem_negated_error {node : ResolvedItem κ} {s : ExecState κ σ η} {e : ExecFault}
    (h : executeItem C R node s.deeper = .error e) :
    executeItem C R (.block true node.single) s = .error e := by
  have hloop :
      executeChildsLoop C R node.single .reserved valUninitialized s.deeper = .error e := by
    rw [ResolvedItem.single, executeChildsLoop, bind_apply, h]
    rfl
  have hneg : negated (executeChildsLoop C R node.single .reserved valUninitialized) s =
      .error e := by
    rw [negated]
    exact congrArg (Except.map fun p => (p.1, { p.2 with negdepth := s.negdepth })) hloop
  rw [executeItem, executeBlock, if_pos rfl, bind_apply, hneg]
  rfl

/-- The dual of a list goes along with the list in a negated block. -/
theorem executeChildsLoop_dual : ∀ (items : ResolvedItems κ) (s : ExecState κ σ η),
    items.Joined → Verdicts C R items s.deeper →
    executeChildsLoop C R items.dual .reserved valUninitialized s =
      (executeChildsLoop C R items .reserved valUninitialized s.deeper).map
        fun p => (notRet p.1, p.2.atDepth s.negdepth)
  | .nil, _, hjoined, _ => hjoined.elim
  | .cons node op rest, s, hjoined, hverdicts => by
    rw [ResolvedItems.dual]
    rw [Verdicts] at hverdicts
    cases hnode : executeItem C R node s.deeper with
    | error e =>
      rw [executeChildsLoop, executeChildsLoop, bind_apply, bind_apply, hnode,
        executeItem_negated_error hnode]
      rfl
    | ok p =>
      obtain ⟨ret, s'⟩ := p
      obtain ⟨hret, hgo⟩ := hverdicts.of_ok hnode
      have hdepth : s'.negdepth = s.negdepth + 1 := executeItem_negdepth node hnode
      rw [executeChildsLoop_first hnode hret,
        executeChildsLoop_first (executeItem_negated hnode hret) vaildLreResults_notRet,
        childsStop_dual hret]
      split
      · rfl
      · rename_i hstop
        have hstop : childsStop op ret = false := by simpa using hstop
        cases rest with
        | nil =>
          rw [ResolvedItems.dual, executeChildsLoop_nil hret,
            executeChildsLoop_nil vaildLreResults_notRet]
          rfl
        | cons node' op' rest =>
          obtain ⟨-, hop, hrest⟩ := hjoined
          have hback : (s'.atDepth s.negdepth).deeper = s' := by
            rw [ExecState.deeper, ExecState.atDepth, ← hdepth]
          have ih := executeChildsLoop_dual (.cons node' op' rest) (s'.atDepth s.negdepth) hrest
            (by rw [hback]; exact hgo hstop)
          have hdual : op.dual = .and ∨ op.dual = .or := by
            rcases hop with rfl | rfl <;> simp [Sym.dual]
          rw [executeChildsLoop_restart hop hret hstop]
          rw [ResolvedItems.dual] at ih ⊢
          rw [executeChildsLoop_restart hdual vaildLreResults_notRet
            (by rw [childsStop_dual hret, hstop]), ih, hback]
          rfl

/-- **Duality**: a negated block is the dual of its list, when no item that is evaluated fails: the
same components are called in the same order, and the result is the same. -/
theorem executeSyntaxBlock_dual {items : ResolvedItems κ} {s : ExecState κ σ η}
    (hjoined : items.Joined) (hverdicts : Verdicts C R items s.deeper) :
    executeSyntaxBlock C R true items s = executeSyntaxChilds C R items.dual s := by
  rw [executeSyntaxChilds, executeChildsLoop_dual items s hjoined hverdicts, executeSyntaxBlock,
    executeItem, executeBlock, if_pos rfl, bind_apply, negated]
  show Except.bind (Except.map _ (executeChildsLoop C R items _ _ s.deeper)) _ = _
  cases executeChildsLoop C R items .reserved valUninitialized s.deeper <;> rfl

/-- `!(F && T && T)` is `!(F) || !(T) || !(T)`. -/
theorem executeSyntaxBlock_dual_mixedChain :
    executeSyntaxBlock equalHolds unitDoubles true (mixedChain .and) ⟨(), [()], 8192, 0, [], 0⟩ =
      executeSyntaxChilds equalHolds unitDoubles (mixedChain .and).dual
        ⟨(), [()], 8192, 0, [], 0⟩ := by
  have hjoined : (mixedChain .and).Joined := ⟨trivial, .inl rfl, trivial, .inl rfl, trivial⟩
  -- the first item is false, and nothing else is evaluated
  have hfirst : executeItem equalHolds unitDoubles (.expr .expr .notEqual oneVal)
      ⟨(), [()], 8192, 0, [], 1⟩ =
        .ok (0, ⟨(), [()], 8192, 0, [(1, .exprHandler .expr () 0)], 1⟩) := by rfl
  refine executeSyntaxBlock_dual hjoined (wp_iff.mpr ⟨fun ret s' h => ?_, fun _ _ => trivial⟩)
  cases hfirst.symm.trans h
  exact ⟨rfl, fun hstop => absurd hstop (by decide)⟩

end Lre
