import Lre.Symbol

/-!
# Syntax trees

The nodes the parser builds, over a type `μ` of node memory: `SyntaxVal` and `SyntaxVals` for the
operands of a value, `SyntaxArgs` for an argument list, `SyntaxItem` and `SyntaxItems` for the
items of a rule, a block or a function body. A list stores with each node its `opt`, the operator
that joins it to the next one (`Sym.reserved` when there is none).

A function node written without a parenthesised list has `args = none`: the parser leaves the
argument slots of such a node as its memory had them.

* `toks`: the token list a tree stands for, in the way `dump_syntax_tree` writes trees out.
* `WF`: the grammar of rules. A token list is a sentence when it is `toks` of a tree with `WF`.
* `erase`: the tree without its node memory.
* `Closed`: every function has a parenthesised list, so that the tree shows no node memory.
-/

namespace Lre

mutual

/-- `struct syntax_val`, `struct syntax_valblock` and `struct syntax_call`. -/
inductive SyntaxVal (μ : Type)
  | val (m : μ) (val : Lexeme) (isvar : Bool)
  | valblock (m : μ) (childs : SyntaxVals μ)
  | call (m : μ) (keyword : Lexeme) (args : SyntaxArgs μ)

/-- The `valchilds` list of an argument, an expression or a parenthesised value. -/
inductive SyntaxVals (μ : Type)
  | nil
  | cons (node : SyntaxVal μ) (opt : Sym) (rest : SyntaxVals μ)

/-- The filled slots of `struct syntax_args`. -/
inductive SyntaxArgs (μ : Type)
  | nil
  | cons (key : Lexeme) (valchilds : SyntaxVals μ) (rest : SyntaxArgs μ)

end

mutual

/-- `struct syntax_func`, `struct syntax_block` and `struct syntax_expr`. -/
inductive SyntaxItem (μ : Type)
  | func (m : μ) (keyword : Lexeme) (args : Option (SyntaxArgs μ)) (body : SyntaxItems μ)
  | block (m : μ) (negative : Bool) (childs : SyntaxItems μ)
  | expr (m : μ) (key : Lexeme) (opt : Sym) (valchilds : SyntaxVals μ)

/-- The `childs` list of a content, a block or a function body. -/
inductive SyntaxItems (μ : Type)
  | nil
  | cons (node : SyntaxItem μ) (opt : Sym) (rest : SyntaxItems μ)

end

deriving instance DecidableEq for SyntaxVal, SyntaxVals, SyntaxArgs
deriving instance DecidableEq for SyntaxItem, SyntaxItems

variable {μ : Type}

/-- `args->count`. -/
def SyntaxArgs.count : SyntaxArgs μ → ℕ
  | .nil => 0
  | .cons _ _ rest => rest.count + 1

/-! ## Writing a tree out -/

/-- An operator node writes its symbol, `SYNTAX_SYM_RESERVED` nothing. -/
def optToks : Sym → List Token
  | .reserved => []
  | o => [.symbol o]

/-- A comma when further arguments follow. -/
def SyntaxArgs.sepToks : SyntaxArgs μ → List Token
  | .nil => []
  | .cons .. => [.symbol .comma]

mutual

def SyntaxVal.toks : SyntaxVal μ → List Token
  | .val _ x true => [.symbol .var, .word x]
  | .val _ x false => [.word x]
  | .valblock _ childs => .symbol .startParenthesis :: childs.toks ++ [.symbol .endParenthesis]
  | .call _ k args =>
    .word k :: .symbol .startParenthesis :: args.toks ++ [.symbol .endParenthesis]

def SyntaxVals.toks : SyntaxVals μ → List Token
  | .nil => []
  | .cons node opt rest => node.toks ++ optToks opt ++ rest.toks

def SyntaxArgs.toks : SyntaxArgs μ → List Token
  | .nil => []
  | .cons k vs rest => .word k :: .symbol .assign :: vs.toks ++ rest.sepToks ++ rest.toks

end

mutual

def SyntaxItem.toks : SyntaxItem μ → List Token
  | .func _ k none body =>
    .word k :: .symbol .startBrace :: body.toks ++ [.symbol .endBrace]
  | .func _ k (some args) body =>
    .word k :: .symbol .startParenthesis :: args.toks ++
      .symbol .endParenthesis :: .symbol .startBrace :: body.toks ++ [.symbol .endBrace]
  | .block _ true childs =>
    .symbol .not :: .symbol .startParenthesis :: childs.toks ++ [.symbol .endParenthesis]
  | .block _ false childs => .symbol .startParenthesis :: childs.toks ++ [.symbol .endParenthesis]
  | .expr _ k opt vs => .word k :: .symbol opt :: vs.toks

def SyntaxItems.toks : SyntaxItems μ → List Token
  | .nil => []
  | .cons node opt rest => node.toks ++ optToks opt ++ rest.toks

end

/-! ## The rule grammar -/

/-- The lexeme of a keyword token. -/
def Lexeme.IsIdent : Lexeme → Prop
  | .ident _ => True
  | .quoted _ => False

/-- `%  &  |  ^  +  -  *  /`. -/
def Sym.IsArith (o : Sym) : Prop := getSymbolType (some o) = .optArith

/-- `==  !=  >  <  >=  <=`. -/
def Sym.IsComp (o : Sym) : Prop := getSymbolType (some o) = .optComp

/-- `&&  ||`. -/
def Sym.IsJoin (o : Sym) : Prop := o = .and ∨ o = .or

instance : DecidablePred Lexeme.IsIdent
  | .ident _ => .isTrue trivial
  | .quoted _ => .isFalse id

instance : DecidablePred Sym.IsArith := fun o => by unfold Sym.IsArith; infer_instance
instance : DecidablePred Sym.IsComp := fun o => by unfold Sym.IsComp; infer_instance
instance : DecidablePred Sym.IsJoin := fun o => by unfold Sym.IsJoin; infer_instance

/-- `SYNTAX_ARG_MAX`. -/
def syntaxArgMax : ℕ := 8

mutual

/-- An operand: a keyword, a string, `$` KEY, `(` value `)` or KEY `(` args `)`. -/
def SyntaxVal.WF : SyntaxVal μ → Prop
  | .val _ x isvar => isvar = true → x.IsIdent
  | .valblock _ childs => childs.WF
  | .call _ k args => k.IsIdent ∧ args.WF ∧ args.count ≤ syntaxArgMax

/-- A value: one or more operands separated by arithmetic operators. -/
def SyntaxVals.WF : SyntaxVals μ → Prop
  | .nil => False
  | .cons node opt rest =>
    node.WF ∧ (rest = .nil ∧ opt = .reserved ∨ opt.IsArith ∧ rest.WF)

/-- KEY `=` value pairs. -/
def SyntaxArgs.WF : SyntaxArgs μ → Prop
  | .nil => True
  | .cons k vs rest => k.IsIdent ∧ vs.WF ∧ rest.WF

end

/-- The argument list of a function, when it is written. -/
def argsWF : Option (SyntaxArgs μ) → Prop
  | none => True
  | some args => args.WF ∧ args.count ≤ syntaxArgMax

mutual

/-- An item: KEY `{` body `}`, KEY `(` args `)` `{` body `}`, `(` body `)`, `!(` body `)` or
KEY compop value. -/
def SyntaxItem.WF : SyntaxItem μ → Prop
  | .func _ k args body => k.IsIdent ∧ argsWF args ∧ body.WF
  | .block _ _ childs => childs.WF
  | .expr _ k opt vs => k.IsIdent ∧ opt.IsComp ∧ vs.WF

/-- One or more items joined by `&&` or `||`. -/
def SyntaxItems.WF : SyntaxItems μ → Prop
  | .nil => False
  | .cons node opt rest =>
    node.WF ∧ (rest = .nil ∧ opt = .reserved ∨ opt.IsJoin ∧ rest.WF)

end

/-! ## Forgetting node memory -/

mutual

def SyntaxVal.erase : SyntaxVal μ → SyntaxVal Unit
  | .val _ x isvar => .val () x isvar
  | .valblock _ childs => .valblock () childs.erase
  | .call _ k args => .call () k args.erase

def SyntaxVals.erase : SyntaxVals μ → SyntaxVals Unit
  | .nil => .nil
  | .cons node opt rest => .cons node.erase opt rest.erase

def SyntaxArgs.erase : SyntaxArgs μ → SyntaxArgs Unit
  | .nil => .nil
  | .cons k vs rest => .cons k vs.erase rest.erase

end

mutual

def SyntaxItem.erase : SyntaxItem μ → SyntaxItem Unit
  | .func _ k args body => .func () k (args.map SyntaxArgs.erase) body.erase
  | .block _ negative childs => .block () negative childs.erase
  | .expr _ k opt vs => .expr () k opt vs.erase

def SyntaxItems.erase : SyntaxItems μ → SyntaxItems Unit
  | .nil => .nil
  | .cons node opt rest => .cons node.erase opt rest.erase

end

theorem SyntaxVals.erase_eq_nil {vs : SyntaxVals μ} : vs.erase = .nil ↔ vs = .nil := by
  cases vs <;> simp [erase]

theorem SyntaxItems.erase_eq_nil {items : SyntaxItems μ} : items.erase = .nil ↔ items = .nil := by
  cases items <;> simp [erase]

theorem SyntaxArgs.erase_sepToks {args : SyntaxArgs μ} : args.erase.sepToks = args.sepToks := by
  cases args <;> rfl

theorem SyntaxArgs.erase_count : ∀ args : SyntaxArgs μ, args.erase.count = args.count
  | .nil => rfl
  | .cons _ _ rest => congrArg (· + 1) rest.erase_count

mutual

theorem SyntaxVal.erase_toks : ∀ v : SyntaxVal μ, v.erase.toks = v.toks
  | .val _ x true => rfl
  | .val _ x false => rfl
  | .valblock _ childs => by simp only [SyntaxVal.erase, SyntaxVal.toks, childs.erase_toks]
  | .call _ k args => by simp only [SyntaxVal.erase, SyntaxVal.toks, args.erase_toks]

theorem SyntaxVals.erase_toks : ∀ vs : SyntaxVals μ, vs.erase.toks = vs.toks
  | .nil => rfl
  | .cons node opt rest => by
    simp only [SyntaxVals.erase, SyntaxVals.toks, node.erase_toks, rest.erase_toks]

theorem SyntaxArgs.erase_toks : ∀ args : SyntaxArgs μ, args.erase.toks = args.toks
  | .nil => rfl
  | .cons k vs rest => by
    simp only [SyntaxArgs.erase, SyntaxArgs.toks, vs.erase_toks, rest.erase_toks,
      rest.erase_sepToks]

end

mutual

theorem SyntaxItem.erase_toks : ∀ node : SyntaxItem μ, node.erase.toks = node.toks
  | .func _ k none body => by
    simp only [SyntaxItem.erase, SyntaxItem.toks, Option.map_none, body.erase_toks]
  | .func _ k (some args) body => by
    simp only [SyntaxItem.erase, SyntaxItem.toks, Option.map_some, args.erase_toks, body.erase_toks]
  | .block _ true childs => by simp only [SyntaxItem.erase, SyntaxItem.toks, childs.erase_toks]
  | .block _ false childs => by simp only [SyntaxItem.erase, SyntaxItem.toks, childs.erase_toks]
  | .expr _ k opt vs => by simp only [SyntaxItem.erase, SyntaxItem.toks, vs.erase_toks]

theorem SyntaxItems.erase_toks : ∀ items : SyntaxItems μ, items.erase.toks = items.toks
  | .nil => rfl
  | .cons node opt rest => by
    simp only [SyntaxItems.erase, SyntaxItems.toks, node.erase_toks, rest.erase_toks]

end

mutual

theorem SyntaxVal.erase_wf : ∀ v : SyntaxVal μ, v.erase.WF ↔ v.WF
  | .val _ x isvar => Iff.rfl
  | .valblock _ childs => childs.erase_wf
  | .call _ k args => by simp only [SyntaxVal.erase, SyntaxVal.WF, args.erase_wf, args.erase_count]

theorem SyntaxVals.erase_wf : ∀ vs : SyntaxVals μ, vs.erase.WF ↔ vs.WF
  | .nil => Iff.rfl
  | .cons node opt rest => by
    simp only [SyntaxVals.erase, SyntaxVals.WF, node.erase_wf, rest.erase_wf, rest.erase_eq_nil]

theorem SyntaxArgs.erase_wf : ∀ args : SyntaxArgs μ, args.erase.WF ↔ args.WF
  | .nil => Iff.rfl
  | .cons k vs rest => by simp only [SyntaxArgs.erase, SyntaxArgs.WF, vs.erase_wf, rest.erase_wf]

end

mutual

theorem SyntaxItem.erase_wf : ∀ node : SyntaxItem μ, node.erase.WF ↔ node.WF
  | .func _ k none body => by
    simp only [SyntaxItem.erase, SyntaxItem.WF, Option.map_none, argsWF, body.erase_wf]
  | .func _ k (some args) body => by
    simp only [SyntaxItem.erase, SyntaxItem.WF, Option.map_some, argsWF, args.erase_wf,
      args.erase_count, body.erase_wf]
  | .block _ negative childs => childs.erase_wf
  | .expr _ k opt vs => by simp only [SyntaxItem.erase, SyntaxItem.WF, vs.erase_wf]

theorem SyntaxItems.erase_wf : ∀ items : SyntaxItems μ, items.erase.WF ↔ items.WF
  | .nil => Iff.rfl
  | .cons node opt rest => by
    simp only [SyntaxItems.erase, SyntaxItems.WF, node.erase_wf, rest.erase_wf, rest.erase_eq_nil]

end

/-! ## Functions in brace form -/

mutual

/-- The item holds no function without a parenthesised list. -/
def SyntaxItem.Closed : SyntaxItem μ → Prop
  | .func _ _ args body => args.isSome ∧ body.Closed
  | .block _ _ childs => childs.Closed
  | .expr .. => True

/-- The items hold no function without a parenthesised list. -/
def SyntaxItems.Closed : SyntaxItems μ → Prop
  | .nil => True
  | .cons node _ rest => node.Closed ∧ rest.Closed

end

end Lre
