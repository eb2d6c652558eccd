import Lre.Symbol

/-!
# Resolved trees

The syntax tree as semantic analysis leaves it: each node with the stub its keyword is bound to,
over a type `κ` of stubs. Operators sit on the nodes as in `SyntaxVals` and `SyntaxItems`.
-/

namespace Lre

mutual

/-- A resolved operand: a literal, a `$` variable, a parenthesised value or a call. -/
inductive ResolvedVal (κ : Type)
  | val (val : Lexeme)
  | var (valstub : κ)
  | valblock (childs : ResolvedVals κ)
  | call (keystub : κ) (args : ResolvedArgs κ)

/-- A resolved value. -/
inductive ResolvedVals (κ : Type)
  | nil
  | cons (node : ResolvedVal κ) (opt : Sym) (rest : ResolvedVals κ)

/-- A resolved argument list. -/
inductive ResolvedArgs (κ : Type)
  | nil
  | cons (keystub : κ) (valchilds : ResolvedVals κ) (rest : ResolvedArgs κ)

end

mutual

/-- A resolved item. -/
inductive ResolvedItem (κ : Type)
  | func (keystub : κ) (args : ResolvedArgs κ) (body : ResolvedItems κ)
  | block (negative : Bool) (childs : ResolvedItems κ)
  | expr (keystub : κ) (opt : Sym) (valchilds : ResolvedVals κ)

/-- The resolved items of a content, a block or a function body. -/
inductive ResolvedItems (κ : Type)
  | nil
  | cons (node : ResolvedItem κ) (opt : Sym) (rest : ResolvedItems κ)

end

/-- The `type` of a `keyword_stub`. -/
inductive KeystubType
  | func | call | arg | expr | var
  deriving DecidableEq, Repr

end Lre
