import Lre.Keyword.Table
import Lre.Syntax.Tree

/-!
# Semantic analysis

`semantic.c`: the walk that binds the names of a syntax tree to stubs. `none` is the return code
`-EINVAL`; otherwise the tree comes back with its stubs.

A scope is a vector of stubs, `none` for the `NULL` of a stub without members. `stale` says which
strings the keys of the argument slots read as that the memory of a function node still counts
when its rule writes no argument list; such a slot has an empty value.

* `semaniticParseChilds` and its parts: the walk.
* `SyntaxItems.Lookups`: a property of every lookup of the walk.
* **`interpSemanticAnalysis_erase`**: a closed tree is resolved alike in any node memory.
-/

namespace Lre

variable {σ η D μ : Type}

/-! ## The walk -/

/-- `semantic_find_keystub`. -/
def semanticFindKeystub (tab : KeywordTable σ η D) (kwvec : Option (Slots ℕ)) (keyword : Word) :
    Option (KeywordStub σ η D) :=
  match kwvec with
  | none => none
  | some kwvec => findStubByKeyword tab kwvec keyword

/-- The stub of a call, and the scope of the values of its arguments: a call that is not found in
`kwvec` is looked up at the root. -/
def callStub (tab : KeywordTable σ η D) (kwvec : Option (Slots ℕ)) (keyword : Word) :
    Option (KeywordStub σ η D) × Option (Slots ℕ) :=
  match semanticFindKeystub tab kwvec keyword with
  | some callstub => (some callstub, kwvec)
  | none => (semanticFindKeystub tab tab.root keyword, tab.root)

/-- The members of a stub that a lookup found. -/
def subScope (keystub : Option (KeywordStub σ η D)) : Option (Slots ℕ) :=
  keystub.bind KeywordStub.subvec

mutual

/-- The switch of `semanitic_parse_val`, with `semanitic_parse_call`. -/
def semaniticParseOperand (tab : KeywordTable σ η D) (kwvec : Option (Slots ℕ)) :
    SyntaxVal μ → Option (ResolvedVal (KeywordStub σ η D))
  | .val _ x false => some (.val x)
  | .val _ x true => return .var (← semanticFindKeystub tab kwvec x.cstr)
  | .valblock _ childs => return .valblock (← semaniticParseVal tab kwvec childs)
  | .call _ keyword args => do
    let found := callStub tab kwvec keyword.cstr
    let callstub ← found.1
    return .call callstub (← semaniticParseArgs tab callstub.subvec found.2 args)

/-- `semanitic_parse_val`. -/
def semaniticParseVal (tab : KeywordTable σ η D) (kwvec : Option (Slots ℕ)) :
    SyntaxVals μ → Option (ResolvedVals (KeywordStub σ η D))
  | .nil => some .nil
  | .cons node opt rest =>
    return .cons (← semaniticParseOperand tab kwvec node) opt (← semaniticParseVal tab kwvec rest)

/-- The loop over the arguments of a function or a call: keys are looked up in `subvec`, the names
in their values in `kwvec`. -/
def semaniticParseArgs (tab : KeywordTable σ η D) (subvec kwvec : Option (Slots ℕ)) :
    SyntaxArgs μ → Option (ResolvedArgs (KeywordStub σ η D))
  | .nil => some .nil
  | .cons key valchilds rest => do
    let argstub ← semanticFindKeystub tab subvec key.cstr
    let valchilds ← semaniticParseVal tab kwvec valchilds
    return .cons argstub valchilds (← semaniticParseArgs tab subvec kwvec rest)

end

/-- The loop over argument slots that the parser did not fill. -/
def semaniticStaleArgs (tab : KeywordTable σ η D) (subvec : Option (Slots ℕ)) :
    List Word → Option (ResolvedArgs (KeywordStub σ η D))
  | [] => some .nil
  | key :: keys => do
    let argstub ← semanticFindKeystub tab subvec key
    return .cons argstub .nil (← semaniticStaleArgs tab subvec keys)

/-- `semanitic_parse_expr`. -/
def semaniticParseExpr (tab : KeywordTable σ η D) (kwvec : Option (Slots ℕ)) (key : Lexeme)
    (opt : Sym) (valchilds : SyntaxVals μ) : Option (ResolvedItem (KeywordStub σ η D)) := do
  let keystub ← semanticFindKeystub tab kwvec key.cstr
  return .expr keystub opt (← semaniticParseVal tab kwvec valchilds)

/-- The arguments of `semanitic_parse_func`. -/
def semaniticFuncArgs (stale : μ → List Word) (tab : KeywordTable σ η D)
    (subvec kwvec : Option (Slots ℕ)) (m : μ) :
    Option (SyntaxArgs μ) → Option (ResolvedArgs (KeywordStub σ η D))
  | none => semaniticStaleArgs tab subvec (stale m)
  | some args => semaniticParseArgs tab subvec kwvec args

mutual

/-- The switch of `semanitic_parse_childs`: `semanitic_parse_func`, `semanitic_parse_expr` and
`semanitic_parse_block`. -/
def semaniticParseItem (stale : μ → List Word) (tab : KeywordTable σ η D)
    (kwvec : Option (Slots ℕ)) : SyntaxItem μ → Option (ResolvedItem (KeywordStub σ η D))
  | .func m keyword args body => do
    let funcstub ← semanticFindKeystub tab kwvec keyword.cstr
    let args ← semaniticFuncArgs stale tab funcstub.subvec kwvec m args
    return .func funcstub args (← semaniticParseChilds stale tab funcstub.subvec body)
  | .block _ negative childs =>
    return .block negative (← semaniticParseChilds stale tab kwvec childs)
  | .expr _ key opt valchilds => semaniticParseExpr tab kwvec key opt valchilds

/-- `semanitic_parse_childs`. -/
def semaniticParseChilds (stale : μ → List Word) (tab : KeywordTable σ η D)
    (kwvec : Option (Slots ℕ)) : SyntaxItems μ → Option (ResolvedItems (KeywordStub σ η D))
  | .nil => some .nil
  | .cons node opt rest =>
    return .cons (← semaniticParseItem stale tab kwvec node) opt
      (← semaniticParseChilds stale tab kwvec rest)

end

/-- `interp_semantic_analysis`, on the tree of a successful parse. -/
def interpSemanticAnalysis (stale : μ → List Word) (tab : KeywordTable σ η D)
    (tree : SyntaxItems μ) : Option (ResolvedItems (KeywordStub σ η D)) :=
  semaniticParseChilds stale tab tab.root tree

/-! ## The lookups of the walk -/

section Lookups

/-- A property of a lookup, given the role of the name and the outcome. -/
abbrev LookupProp (σ η D : Type) := KeystubType → Option (KeywordStub σ η D) → Prop

variable (P : LookupProp σ η D) (stale : μ → List Word) (tab : KeywordTable σ η D)

mutual

/-- `P` holds of every lookup for an operand in the scope `kwvec`. -/
def SyntaxVal.Lookups (kwvec : Option (Slots ℕ)) : SyntaxVal μ → Prop
  | .val _ x isvar => isvar = true → P .var (semanticFindKeystub tab kwvec x.cstr)
  | .valblock _ childs => childs.Lookups kwvec
  | .call _ keyword args =>
    let found := callStub tab kwvec keyword.cstr
    P .call found.1 ∧ args.Lookups (subScope found.1) found.2

/-- `P` holds of every lookup for a value in the scope `kwvec`. -/
def SyntaxVals.Lookups (kwvec : Option (Slots ℕ)) : SyntaxVals μ → Prop
  | .nil => True
  | .cons node _ rest => node.Lookups kwvec ∧ rest.Lookups kwvec

/-- `P` holds of every lookup for an argument list, with keys in `subvec` and values in `kwvec`. -/
def SyntaxArgs.Lookups (subvec kwvec : Option (Slots ℕ)) : SyntaxArgs μ → Prop
  | .nil => True
  | .cons key valchilds rest =>
    P .arg (semanticFindKeystub tab subvec key.cstr) ∧ valchilds.Lookups kwvec ∧
      rest.Lookups subvec kwvec

end

/-- `P` holds of every lookup for the arguments of a function. -/
def FuncArgsLookups (subvec kwvec : Option (Slots ℕ)) (m : μ) : Option (SyntaxArgs μ) → Prop
  | none => ∀ key ∈ stale m, P .arg (semanticFindKeystub tab subvec key)
  | some args => args.Lookups P tab subvec kwvec

mutual

/-- `P` holds of every lookup for an item in the scope `kwvec`. -/
def SyntaxItem.Lookups (kwvec : Option (Slots ℕ)) : SyntaxItem μ → Prop
  | .func m keyword args body =>
    let funcstub := semanticFindKeystub tab kwvec keyword.cstr
    P .func funcstub ∧ FuncArgsLookups P stale tab (subScope funcstub) kwvec m args ∧
      body.Lookups (subScope funcstub)
  | .block _ _ childs => childs.Lookups kwvec
  | .expr _ key _ valchilds =>
    P .expr (semanticFindKeystub tab kwvec key.cstr) ∧ valchilds.Lookups P tab kwvec

/-- `P` holds of every lookup for a list of items in the scope `kwvec`. -/
def SyntaxItems.Lookups (kwvec : Option (Slots ℕ)) : SyntaxItems μ → Prop
  | .nil => True
  | .cons node _ rest => node.Lookups kwvec ∧ rest.Lookups kwvec

end

end Lookups

/-! ## Trees that show no node memory -/

mutual

theorem semaniticParseOperand_erase (tab : KeywordTable σ η D) (kwvec : Option (Slots ℕ)) :
    ∀ v : SyntaxVal μ, semaniticParseOperand tab kwvec v.erase = semaniticParseOperand tab kwvec v
  | .val _ x true => rfl
  | .val _ x false => rfl
  | .valblock _ childs => by
    rw [SyntaxVal.erase, semaniticParseOperand, semaniticParseOperand, semaniticParseVal_erase]
  | .call _ keyword args => by
    rw [SyntaxVal.erase, semaniticParseOperand, semaniticParseOperand]
    simp only [semaniticParseArgs_erase]

theorem semaniticParseVal_erase (tab : KeywordTable σ η D) (kwvec : Option (Slots ℕ)) :
    ∀ vs : SyntaxVals μ, semaniticParseVal tab kwvec vs.erase = semaniticParseVal tab kwvec vs
  | .nil => rfl
  | .cons node opt rest => by
    rw [SyntaxVals.erase, semaniticParseVal, semaniticParseVal, semaniticParseOperand_erase,
      semaniticParseVal_erase]

theorem semaniticParseArgs_erase (tab : KeywordTable σ η D) (subvec kwvec : Option (Slots ℕ)) :
    ∀ args : SyntaxArgs μ,
      semaniticParseArgs tab subvec kwvec args.erase = semaniticParseArgs tab subvec kwvec args
  | .nil => rfl
  | .cons key valchilds rest => by
    rw [SyntaxArgs.erase, semaniticParseArgs, semaniticParseArgs, semaniticParseVal_erase,
      semaniticParseArgs_erase]

end

mutual

theorem semaniticParseItem_erase (stale : μ → List Word) (stale' : Unit → List Word)
    (tab : KeywordTable σ η D) (kwvec : Option (Slots ℕ)) :
    ∀ node : SyntaxItem μ, node.erase.Closed →
      semaniticParseItem stale tab kwvec node = semaniticParseItem stale' tab kwvec node.erase
  | .func m keyword none body, h => absurd h.1 nofun
  | .func m keyword (some args) body, h => by
    rw [SyntaxItem.erase, semaniticParseItem, semaniticParseItem]
    simp only [semaniticFuncArgs, Option.map_some, semaniticParseArgs_erase,
      semaniticParseChilds_erase stale stale' tab _ body h.2]
  | .block _ negative childs, h => by
    rw [SyntaxItem.erase, semaniticParseItem, semaniticParseItem,
      semaniticParseChilds_erase stale stale' tab _ childs h]
  | .expr _ key opt valchilds, _ => by
    rw [SyntaxItem.erase, semaniticParseItem, semaniticParseItem, semaniticParseExpr,
      semaniticParseExpr, semaniticParseVal_erase]

theorem semaniticParseChilds_erase (stale : μ → List Word) (stale' : Unit → List Word)
    (tab : KeywordTable σ η D) (kwvec : Option (Slots ℕ)) :
    ∀ items : SyntaxItems μ, items.erase.Closed →
      semaniticParseChilds stale tab kwvec items = semaniticParseChilds stale' tab kwvec items.erase
  | .nil, _ => rfl
  | .cons node opt rest, h => by
    rw [SyntaxItems.erase, semaniticParseChilds, semaniticParseChilds,
      semaniticParseItem_erase stale stale' tab _ node h.1,
      semaniticParseChilds_erase stale stale' tab _ rest h.2]

end

/-- **The analysis of a closed tree does not look at node memory.** -/
theorem interpSemanticAnalysis_erase (stale : μ → List Word) (stale' : Unit → List Word)
    (tab : KeywordTable σ η D) {tree : SyntaxItems μ} (h : tree.erase.Closed) :
    interpSemanticAnalysis stale tab tree = interpSemanticAnalysis stale' tab tree.erase :=
  semaniticParseChilds_erase stale stale' tab _ tree h

end Lre
