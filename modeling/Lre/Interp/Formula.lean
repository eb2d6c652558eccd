import Lre.Exec.Literal
import Lre.Exec.Logic
import Lre.Interp.History
import Lre.Keyword.Coverage
import Lre.Syntax.Written

/-!
# Propositions as rules

* `Formula.tree`: the syntax tree of a proposition, given those of its atoms; it is well formed when
  these are.
* `semaniticParseChilds_tree`: it resolves to `Formula.resolved`.
* `ruleRun`: a rule, with the state that the components are left in; `ruleRun_of_toks`: a code that
  is spelled like a tree is executed as the tree.
* **`ruleRun_formula`**: a code that is spelled like a proposition is executed as the proposition.
* `argsTree`, `exprTree`, `funcTree`: items with literals; they resolve to the stubs of a registered
  component.
-/

namespace Lre

open Run

variable {σ η D α : Type}

mutual

/-- The item of a proposition between operators. -/
def Clause.tree (leaf : α → SyntaxItem Unit) : Clause α → SyntaxItem Unit
  | .atom a => leaf a
  | .block negative formula => .block () negative (formula.tree leaf)

/-- The items of a proposition. -/
def Formula.tree (leaf : α → SyntaxItem Unit) : Formula α → SyntaxItems Unit
  | .last clause => .cons (clause.tree leaf) .reserved .nil
  | .join clause or rest => .cons (clause.tree leaf) (joinOp or) (rest.tree leaf)

end

/-- The atom at the front, when there is no parenthesis in front of it. -/
def Formula.head? : Formula α → Option α
  | .last (.atom a) => some a
  | .join (.atom a) _ _ => some a
  | _ => none

section Tree

variable {leaf : α → SyntaxItem Unit}

theorem joinOp_isJoin (or : Bool) : (joinOp or).IsJoin := by
  cases or
  · exact .inl rfl
  · exact .inr rfl

mutual

theorem Clause.tree_wf (hleaf : ∀ a, (leaf a).WF) : ∀ clause : Clause α, (clause.tree leaf).WF
  | .atom a => hleaf a
  | .block _ formula => formula.tree_wf hleaf

theorem Formula.tree_wf (hleaf : ∀ a, (leaf a).WF) : ∀ formula : Formula α, (formula.tree leaf).WF
  | .last clause => ⟨clause.tree_wf hleaf, .inl ⟨rfl, rfl⟩⟩
  | .join clause or rest => ⟨clause.tree_wf hleaf, .inr ⟨joinOp_isJoin or, rest.tree_wf hleaf⟩⟩

end

theorem Formula.tree_endsWithExpr (hleaf : ∀ a, (leaf a).isExpr = false) : ∀ formula : Formula α,
    (formula.tree leaf).endsWithExpr = false
  | .last (.atom a) => hleaf a
  | .last (.block _ _) => rfl
  | .join _ _ (.last clause) => (Formula.last clause).tree_endsWithExpr hleaf
  | .join _ _ (.join clause or rest) => (Formula.join clause or rest).tree_endsWithExpr hleaf

mutual

theorem semaniticParseItem_tree {tab : KeywordTable σ η D} {kwvec : Option (Slots ℕ)}
    {leaf' : α → ResolvedItem (KeywordStub σ η D)}
    (hleaf : ∀ a, semaniticParseItem (fun _ => []) tab kwvec (leaf a) = some (leaf' a)) :
    ∀ clause : Clause α, semaniticParseItem (fun _ => []) tab kwvec (clause.tree leaf) =
      some (clause.resolved leaf')
  | .atom a => hleaf a
  | .block negative formula => by
    rw [Clause.tree, semaniticParseItem, semaniticParseChilds_tree hleaf formula]
    rfl

theorem semaniticParseChilds_tree {tab : KeywordTable σ η D} {kwvec : Option (Slots ℕ)}
    {leaf' : α → ResolvedItem (KeywordStub σ η D)}
    (hleaf : ∀ a, semaniticParseItem (fun _ => []) tab kwvec (leaf a) = some (leaf' a)) :
    ∀ formula : Formula α, semaniticParseChilds (fun _ => []) tab kwvec (formula.tree leaf) =
      some (formula.resolved leaf')
  | .last clause => by
    rw [Formula.tree, semaniticParseChilds, semaniticParseItem_tree hleaf clause]
    rfl
  | .join clause or rest => by
    rw [Formula.tree, semaniticParseChilds, semaniticParseItem_tree hleaf clause,
      semaniticParseChilds_tree hleaf rest]
    rfl

end

end Tree

/-! ## Codes -/

section Rule

variable {E : Engine σ η D} {env : σ} {tree : SyntaxItems Unit} {code : Word}

/-- A tree is parsed back from its tokens. -/
theorem interpSyntaxParse_unit_toks (hwf : tree.WF) (hlast : tree.endsWithExpr = false) :
    ∃ m s, interpSyntaxParse NodePool.unit tree.toks () = .ok (some (m, tree), s) := by
  have hwp := wp_interpSyntaxParse (P := NodePool.unit) (E := fun _ => False) tree hwf ()
    (by simp [hlast])
  obtain ⟨hok, herr⟩ := wp_iff.mp hwp
  cases hr : interpSyntaxParse NodePool.unit tree.toks () with
  | error e => exact (herr e hr).elim
  | ok p =>
    obtain ⟨r, s⟩ := p
    rcases hok r s hr with ⟨m, t, rfl, he, -, -⟩ | ⟨-, hends⟩
    · rw [t.erase_unit] at he
      exact ⟨m, s, by rw [he]⟩
    · rw [hlast] at hends
      cases hends

/-- `rule`, with the state that the components are left in. -/
def ruleRun (E : Engine σ η D) (n : ℕ) (code : Word) (env : σ) :
    Except ExecuteFault (ℤ × Env σ) :=
  match macroLoop E.tbl n code with
  | .err => .ok (einval, env, [])
  | .fuel => .error .fuel
  | .handed toks =>
    match interpSyntaxParse NodePool.unit toks () with
    | .error fault => .error (.parse fault)
    | .ok (none, _) => .ok (einval, env, [])
    | .ok (some (_, tree), _) =>
      match interpSemanticAnalysis (fun _ => []) E.tab tree with
      | none => .ok (einval, env, [])
      | some tree =>
        match interpExecute stubCallbacks E.doubles defaultStacksSize tree (env, []) with
        | .error fault => .error (.exec fault)
        | .ok (ret, s) => .ok (ret, s.env)

theorem rule_eq (E : Engine σ η D) (n : ℕ) (code : Word) (env : σ) :
    rule E n code env = (ruleRun E n code env).map fun p => (p.1, p.2.2) := by
  rw [rule, ruleRun]
  cases macroLoop E.tbl n code with
  | err => rfl
  | fuel => rfl
  | handed toks =>
    dsimp only
    rw [ruleToks]
    cases interpSyntaxParse NodePool.unit toks () with
    | error fault => rfl
    | ok p =>
      obtain ⟨_ | ⟨m, tree⟩, s⟩ := p
      · rfl
      · dsimp only
        cases interpSemanticAnalysis (fun _ => []) E.tab tree with
        | none => rfl
        | some tree =>
          dsimp only
          rw [ruleTree]
          cases interpExecute stubCallbacks E.doubles defaultStacksSize tree (env, []) with
          | error fault => rfl
          | ok p => rfl

/-- **A code that is spelled like a tree is executed as the tree.** -/
theorem ruleRun_of_toks {items : ResolvedItems (KeywordStub (Env σ) η D)} {b : Bool}
    {I Q : Env σ → Prop} (hlex : lex code = (tree.toks, .eof)) (hwf : tree.WF)
    (hlast : tree.endsWithExpr = false) (hpre : interpPreprocess E.tbl tree.toks = .ok)
    (hsem : interpSemanticAnalysis (fun _ => []) E.tab tree = some items)
    (h : Yields defaultStacksSize [] I (executeSyntaxChilds stubCallbacks E.doubles items)
      fun ret env => ret = verdict b ∧ Q env) (henv : I (env, [])) (n : ℕ) :
    ∃ env', ruleRun E (n + 1) code env = .ok (verdict b, env') ∧ Q env' := by
  obtain ⟨m, s, hparse⟩ := interpSyntaxParse_unit_toks hwf hlast
  have hwp := h ⟨(env, []), [], defaultStacksSize, 0, [], 0⟩ rfl rfl henv
  rw [wp] at hwp
  rw [ruleRun, macroLoop_of_ok hlex hpre n]
  dsimp only
  rw [hparse]
  dsimp only
  rw [hsem]
  dsimp only
  rw [interpExecute]
  cases hrun : executeSyntaxChilds stubCallbacks E.doubles items
      ⟨(env, []), [], defaultStacksSize, 0, [], 0⟩ with
  | error e =>
    rw [hrun] at hwp
    exact hwp.elim
  | ok p =>
    rw [hrun] at hwp
    obtain ⟨-, hret, hq⟩ := hwp
    exact ⟨p.2.env, by rw [← hret], hq⟩

theorem interpPreprocess_tree {leaf : α → SyntaxItem Unit} {tbl : MacroTable} {formula : Formula α}
    {a : α} {w : Word} (hhead : formula.head? = some a) {ts : List Token}
    (hleaf : (leaf a).toks = .word (.ident w) :: ts) (hnot : isLreMacro tbl w = false) :
    interpPreprocess tbl (formula.tree leaf).toks = .ok := by
  have hplain : ∀ ts, interpPreprocess tbl (.word (.ident w) :: ts) = .ok := fun ts => by
    rw [interpPreprocess, hnot]
    rfl
  cases formula with
  | last clause =>
    cases clause with
    | atom a' =>
      cases hhead
      rw [Formula.tree, SyntaxItems.toks, Clause.tree, hleaf]
      exact hplain _
    | block negative formula => cases hhead
  | join clause or rest =>
    cases clause with
    | atom a' =>
      cases hhead
      rw [Formula.tree, SyntaxItems.toks, Clause.tree, hleaf]
      exact hplain _
    | block negative formula => cases hhead

/-- The code is spelled like the proposition, and begins with an atom. -/
def Spells (leaf : α → SyntaxItem Unit) (code : Word) (formula : Formula α) : Prop :=
  formula.head?.isSome ∧ lex code = ((formula.tree leaf).toks, .eof)

/-- **A code that is spelled like a proposition is executed as the proposition.** -/
theorem ruleRun_formula {leaf : α → SyntaxItem Unit}
    {leaf' : α → ResolvedItem (KeywordStub (Env σ) η D)} {P Q : Env σ → Prop} {b : Bool}
    {formula : Formula α} {w : Word} (hcode : Spells leaf code formula)
    (hword : ∀ a, ∃ ts, (leaf a).toks = .word (.ident w) :: ts)
    (hnot : isLreMacro E.tbl w = false) (hwf : ∀ a, (leaf a).WF)
    (hexpr : ∀ a, (leaf a).isExpr = false)
    (hsem : ∀ a, semaniticParseItem (fun _ => []) E.tab E.tab.root (leaf a) = some (leaf' a))
    (h : Yields defaultStacksSize [] P
      (executeChildsLoop stubCallbacks E.doubles (formula.resolved leaf') .reserved
        valUninitialized)
      fun ret env => ret = verdict b ∧ Q env) (henv : P (env, [])) (n : ℕ) :
    ∃ env', ruleRun E (n + 1) code env = .ok (verdict b, env') ∧ Q env' := by
  obtain ⟨hhead, hlex⟩ := hcode
  obtain ⟨a, hhead⟩ := Option.isSome_iff_exists.mp hhead
  obtain ⟨ts, hts⟩ := hword a
  exact ruleRun_of_toks hlex (formula.tree_wf hwf) (formula.tree_endsWithExpr hexpr)
    (interpPreprocess_tree hhead hts hnot) (semaniticParseChilds_tree hsem formula) h henv n

end Rule

/-! ## Literals and arguments -/

section Component

variable {κ β : Type} {C : Callbacks κ σ η D} {R : Doubles D} {depth : ℕ} {handle : η}
  {stk : List η} {key : α → Word} {literal : α → Lexeme}

/-- The text of a literal without its quotes. -/
def literalText (x : Lexeme) : Word :=
  if x.cstr.head? = some '"' then x.cstr.tail.dropLast else x.cstr

theorem val2lreValue_literalText {x : Lexeme} (h : ¬IsNumber x.cstr) :
    val2lreValue R x.cstr = .string (literalText x) := by
  rw [val2lreValue_string h, literalText]
  split <;> rfl

/-- A literal as a value. -/
def literalTree (x : Lexeme) : SyntaxVals Unit := .cons (.val () x false) .reserved .nil

/-- A literal as a value behind the semantic analysis. -/
def literalVals (x : Lexeme) : ResolvedVals κ := .cons (.val x) .reserved .nil

theorem literalTree_wf (x : Lexeme) : (literalTree x).WF :=
  ⟨fun h => absurd h Bool.false_ne_true, .inl ⟨rfl, rfl⟩⟩

/-- Arguments with literals. -/
def argsTree (key : α → Word) (literal : α → Lexeme) : List α → SyntaxArgs Unit
  | [] => .nil
  | arg :: args => .cons (.ident (key arg)) (literalTree (literal arg)) (argsTree key literal args)

/-- Arguments with literals, and with their stubs. -/
def argsResolved (stub : α → κ) (literal : α → Lexeme) : List α → ResolvedArgs κ
  | [] => .nil
  | arg :: args => .cons (stub arg) (literalVals (literal arg)) (argsResolved stub literal args)

theorem count_argsTree (args : List α) : (argsTree key literal args).count = args.length := by
  induction args with
  | nil => rfl
  | cons arg args ih => exact congrArg (· + 1) ih

theorem argsTree_wf (args : List α) : (argsTree key literal args).WF := by
  induction args with
  | nil => trivial
  | cons arg args ih => exact ⟨trivial, literalTree_wf _, ih⟩

theorem yields_argsResolved {stub : α → κ} {set : β → α → β} {H : β → σ → Prop}
    (harg : ∀ o arg, Yields depth (handle :: stk) (H o)
      (executeArg C handle (stub arg) (do
        let handle ← execCtxGetHandle
        executeValLoop C R handle (literalVals (literal arg)) .reserved .init))
      fun r env => r = (0, lreRetOk) ∧ H (set o arg) env) (args : List α) (o : β) :
    Yields depth (handle :: stk) (H o) (executeArgs C R handle (argsResolved stub literal args))
      fun r env => r = (0, lreRetOk) ∧ H (args.foldl set o) env := by
  induction args generalizing o with
  | nil => exact .args_nil
  | cons arg args ih =>
    rw [argsResolved, List.foldl_cons]
    exact .args_cons (harg o arg) (ih _)

/-- `key op literal` -/
def exprTree (key : Word) (op : Sym) (x : Lexeme) : SyntaxItem Unit :=
  .expr () (.ident key) op (literalTree x)

/-- `key(args){body}` -/
def funcTree (key : Word) (args : SyntaxArgs Unit) (body : SyntaxItems Unit) : SyntaxItem Unit :=
  .func () (.ident key) (some args) body

end Component

/-! ## Registered components -/

section Registered

variable {tab : KeywordTable σ η D} {e : StubData σ η D} {kstub : ℕ} {kwvec : Option (Slots ℕ)}

theorem semaniticParseArgs_argsTree (h : RootEntry tab e kstub)
    (hdistinct : (e.members.map StubData.keyword).Nodup) {stub : α → LrcStubArg σ η D}
    {key : α → Word} {literal : α → Lexeme} (hmem : ∀ arg, .arg (stub arg) ∈ e.members)
    (hkey : ∀ arg, (stub arg).keyword = key arg) (args : List α) :
    semaniticParseArgs tab (entryStub e kstub).subvec kwvec (argsTree key literal args) =
      some (argsResolved (fun arg => memberStub kstub (.arg (stub arg))) literal args) := by
  induction args with
  | nil => rfl
  | cons arg args ih =>
    have hfind : semanticFindKeystub tab (entryStub e kstub).subvec (Lexeme.ident (key arg)).cstr =
        some (memberStub kstub (.arg (stub arg))) := by
      rw [Lexeme.cstr, ← hkey arg]
      exact h.find_member hdistinct (hmem arg)
    rw [argsTree, semaniticParseArgs, hfind, ih]
    rfl

theorem semaniticParseItem_exprTree (h : RootEntry tab e kstub)
    (hdistinct : (e.members.map StubData.keyword).Nodup) {stub : LrcStubExpr σ η D}
    (hmem : .expr stub ∈ e.members) (op : Sym) (x : Lexeme) :
    semaniticParseItem (fun _ => []) tab (entryStub e kstub).subvec (exprTree stub.keyword op x) =
      some (.expr (memberStub kstub (.expr stub)) op (literalVals x)) := by
  have hfind : semanticFindKeystub tab (entryStub e kstub).subvec
      (Lexeme.ident stub.keyword).cstr = some (memberStub kstub (.expr stub)) :=
    h.find_member hdistinct hmem
  rw [exprTree, semaniticParseItem, semaniticParseExpr, hfind]
  rfl

theorem semaniticParseItem_funcTree
    (hfind : semanticFindKeystub tab kwvec e.keyword = some (entryStub e kstub))
    {args : SyntaxArgs Unit} {body : SyntaxItems Unit} {args' : ResolvedArgs (KeywordStub σ η D)}
    {body' : ResolvedItems (KeywordStub σ η D)}
    (hargs : semaniticParseArgs tab (entryStub e kstub).subvec kwvec args = some args')
    (hbody : semaniticParseChilds (fun _ => []) tab (entryStub e kstub).subvec body = some body') :
    semaniticParseItem (fun _ => []) tab kwvec (funcTree e.keyword args body) =
      some (.func (entryStub e kstub) args' body') := by
  have hkey : semanticFindKeystub tab kwvec (Lexeme.ident e.keyword).cstr =
      some (entryStub e kstub) := hfind
  rw [funcTree, semaniticParseItem, hkey]
  dsimp only [Option.bind_eq_bind, Option.bind_some, semaniticFuncArgs]
  rw [hargs, hbody]
  rfl

/-- A function is registered, beside others under other keywords, and is no macro. -/
structure Engine.Has (E : Engine σ η D) (e : StubData (Env σ) η D) : Prop where
  tab : ∃ es : List (StubData (Env σ) η D), E.tab = registerEntries es lreKeywordInit ∧
    (es.map StubData.keyword).Nodup ∧ e ∈ es
  tbl : isLreMacro E.tbl e.keyword = false

theorem Engine.Has.find {E : Engine σ η D} {e : StubData (Env σ) η D} (h : E.Has e) :
    ∃ kstub, RootEntry E.tab e kstub ∧
      semanticFindKeystub E.tab E.tab.root e.keyword = some (entryStub e kstub) := by
  obtain ⟨es, htab, hdistinct, hmem⟩ := h.tab
  rw [htab]
  exact find_entry hdistinct lreKeywordInit_formed.child
    (fun id hid => absurd hid List.not_mem_nil) hmem

end Registered

end Lre
