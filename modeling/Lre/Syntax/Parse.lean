import Lre.Run
import Lre.Syntax.Tree

/-!
# The parser

The recursive descent of `syntax.c`, over any node pool. `ParseState.toks` are the tokens from
`tokenidx` on, so that `read_token` drops its head and a missing token is the end of the list.

* A parse function returns its node, or `none` for `-EINVAL`; `syntaxParseVal` and
  `syntaxParseBlock'` fill the list of their caller, so they return what they appended with the
  return code.
* `ParseFault.nullToken` is a dereference of a missing token. `ParseFault.fuel` is never reached
  from `interpSyntaxParse` (`interpSyntaxParse_ne_fuel`).
* `ParseState.slips` records the branches on which the parser goes on although the rule grammar
  does not; no branch reads it.
-/

namespace Lre

/-- Why a parse stops without a return code. -/
inductive ParseFault
  | nullToken | fuel
  deriving DecidableEq, Repr

/-- The branches on which the parser leaves the rule grammar. -/
inductive Slip
  /-- an empty token list is taken as a rule -/
  | noItem
  /-- neighbouring items without an operator -/
  | noJoin
  /-- neighbouring items joined by `!` -/
  | notJoin
  /-- an operator after the last item -/
  | danglingJoin
  /-- tokens left after the end of the content -/
  | trailing
  /-- the return code of a parenthesised value is dropped -/
  | badBlock
  /-- neighbouring arguments without a comma -/
  | noComma
  /-- an argument list of `SYNTAX_ARG_MAX` slots that is not closed -/
  | openArgs
  /-- a call whose list is skipped because of a later `(` -/
  | callSkip
  /-- a string where a KEY stands -/
  | stringKey
  deriving DecidableEq, Repr

/-- The node pool: `mem_alloc`, `mem_free`, and the store to `args.count` of a node. -/
structure NodePool (π μ : Type) where
  memAlloc : π → μ × π
  memFree : μ → π → π
  setCount : ℕ → μ → μ

/-- The pool of erased trees. -/
def NodePool.unit : NodePool Unit Unit := ⟨fun _ => ((), ()), fun _ _ => (), fun _ _ => ()⟩

/-- The part of `struct interp_context` the parser works on. -/
structure ParseState (π : Type) where
  toks : List Token
  pool : π
  slips : List Slip
  deriving DecidableEq

abbrev Parse (π α : Type) := Run ParseFault (ParseState π) α

variable {π μ : Type}

/-! ## Tokens -/

def peekCurrToken : Parse π (Option Token) := fun s => .ok (s.toks.head?, s)

def peekNextToken : Parse π (Option Token) := fun s => .ok (s.toks.tail.head?, s)

def readToken : Parse π (Option Token) := fun s =>
  .ok (s.toks.head?, { s with toks := s.toks.tail })

def readKeyword : Parse π (Option Lexeme) := do return (← readToken).bind Token.keyword?

def peekOperator : Parse π (Option Sym) := do return (← peekCurrToken).bind Token.operator?

def readOperator : Parse π (Option Sym) := do return (← readToken).bind Token.operator?

def peekComma : Parse π Bool := do return (← peekCurrToken) = some (.symbol .comma)

def readComma : Parse π Bool := do return (← readToken) = some (.symbol .comma)

def readBracket : Parse π (Option Sym) := do return (← readToken).bind Token.bracket?

def peekEndBracket : Parse π (Option Sym) := do return (← peekCurrToken).bind Token.endBracket?

def readEndBracket : Parse π (Option Sym) := do return (← readToken).bind Token.endBracket?

/-- `skip_negblock`; the second token is read without a test. -/
def skipNegblock : Parse π Unit := do
  let _ ← readToken
  match ← readToken with
  | none => throw .nullToken
  | some _ => return ()

/-- `enum expr_val_type`. -/
inductive ExprValType
  | unknown | normal | var | block | call
  deriving DecidableEq, Repr

/-- The test of `peek_expr_val_type` on the current and the next token. -/
def exprValType : Option Token → Option Token → ExprValType
  | some (.word (.ident _)), none => .unknown
  | some (.word (.ident _)), some (.symbol .startParenthesis) => .call
  | some (.word (.ident _)), some _ => .normal
  | some (.symbol .startParenthesis), _ => .block
  | some (.symbol .var), _ => .var
  | some (.word (.quoted _)), _ => .normal
  | _, _ => .unknown

def peekExprValType : Parse π ExprValType := do
  return exprValType (← peekCurrToken) (← peekNextToken)

/-- `enum expr_type`. -/
inductive ExprType
  | unknown | eof | normal | func | negBlock | block
  deriving DecidableEq, Repr

/-- The test of `peek_expr_type` on the current and the next token. -/
def exprType : Option Token → Option Token → ExprType
  | none, _ => .eof
  | some (.word (.ident _)), none => .unknown
  | some (.word (.ident _)), some (.symbol .startBrace) => .func
  | some (.word (.ident _)), some (.symbol .startParenthesis) => .func
  | some (.word (.ident _)), some _ => .normal
  | some (.symbol .startParenthesis), _ => .block
  | some (.symbol .not), some (.symbol .startParenthesis) => .negBlock
  | _, _ => .unknown

def peekExprType : Parse π ExprType := do return exprType (← peekCurrToken) (← peekNextToken)

/-! ## Pool and marks -/

def allocNode (P : NodePool π μ) : Parse π μ := fun s =>
  .ok ((P.memAlloc s.pool).1, { s with pool := (P.memAlloc s.pool).2 })

def freeNode (P : NodePool π μ) (m : μ) : Parse π Unit := fun s =>
  .ok ((), { s with pool := P.memFree m s.pool })

/-- The state with the branch `x` recorded when `b` holds. -/
def ParseState.note (s : ParseState π) (b : Bool) (x : Slip) : ParseState π :=
  { s with slips := if b then x :: s.slips else s.slips }

/-- Record the branch `x` when `b` holds. -/
def mark (b : Bool) (x : Slip) : Parse π Unit := fun s => .ok ((), s.note b x)

/-- Record the branch `x` when no token is left. -/
def markEnd (x : Slip) : Parse π Unit := do mark (← peekCurrToken).isNone x

/-- Record the branch `x` when a token is left. -/
def markMore (x : Slip) : Parse π Unit := do mark (← peekCurrToken).isSome x

def Lexeme.isQuoted : Lexeme → Bool
  | .ident _ => false
  | .quoted _ => true

/-! ## Parse functions -/

/-- The end of `syntax_parse_val`: add the operand and go on after an arithmetic operator. -/
def syntaxAddVal (node : SyntaxVal μ) (more : Parse π (Bool × SyntaxVals μ)) :
    Parse π (Bool × SyntaxVals μ) := do
  let opt ← peekOperator
  if getSymbolType opt = .optArith then
    let opt ← readOperator
    let (ret, rest) ← more
    return (ret, .cons node (opt.getD .reserved) rest)
  else return (true, .cons node .reserved .nil)

/-- A keyword, a string, or after `$` a variable. -/
def syntaxParseWord (P : NodePool π μ) (isvar : Bool) (more : Parse π (Bool × SyntaxVals μ)) :
    Parse π (Bool × SyntaxVals μ) := do
  match ← readKeyword with
  | none => return (false, .nil)
  | some x =>
    mark (isvar && x.isQuoted) .stringKey
    let m ← allocNode P
    syntaxAddVal (.val m x isvar) more

/-- The end of `syntax_parse_func`, from the body on. -/
def syntaxParseFuncEnd (P : NodePool π μ) (m : μ) (k : Lexeme) (args : Option (SyntaxArgs μ))
    (body : Parse π (Bool × SyntaxItems μ)) : Parse π (Option (SyntaxItem μ)) := do
  let (ret, childs) ← body
  if ret then
    match ← readEndBracket with
    | some .endBrace => return some (.func m k args childs)
    | _ => freeNode P m; return none
  else freeNode P m; return none

/-- A block after its opening bracket, up to the closing one. -/
def syntaxCloseBlock (negative : Bool) (block : Parse π (Option (μ × SyntaxItems μ))) :
    Parse π (Option (SyntaxItem μ)) := do
  match ← block with
  | none => return none
  | some (m, childs) =>
    match ← readEndBracket with
    | some .endParenthesis => return some (.block m negative childs)
    | _ => return none

/-- The end of the loop of `__syntax_parse_block`: add the item and go on. -/
def syntaxAddItem (node : SyntaxItem μ) (more : Parse π (Bool × SyntaxItems μ)) :
    Parse π (Bool × SyntaxItems μ) := do
  match ← peekOperator with
  | some _ =>
    let opt ← readOperator
    if getSymbolType opt = .optLogic then
      mark (opt = some .not) .notJoin
      markEnd .danglingJoin
      let (ret, rest) ← more
      return (ret, .cons node (opt.getD .reserved) rest)
    else return (false, .cons node .reserved .nil)
  | none =>
    match ← peekEndBracket with
    | some _ => return (true, .cons node .reserved .nil)
    | none =>
      markMore .noJoin
      let (ret, rest) ← more
      return (ret, .cons node .reserved rest)

mutual

/-- `syntax_parse_val`. -/
def syntaxParseVal (P : NodePool π μ) : ℕ → Parse π (Bool × SyntaxVals μ)
  | 0 => throw .fuel
  | n + 1 => do
    match ← peekExprValType with
    | .block =>
      let _ ← readBracket
      let m ← allocNode P
      -- the source drops this return code
      let (ret, childs) ← syntaxParseVal P n
      mark (!ret) .badBlock
      match ← readEndBracket with
      | some .endParenthesis => syntaxAddVal (.valblock m childs) (syntaxParseVal P n)
      | _ => freeNode P m; return (false, .nil)
    | .call =>
      match ← syntaxParseCall P n with
      | none => return (false, .nil)
      | some node => syntaxAddVal node (syntaxParseVal P n)
    | .var =>
      let _ ← readToken
      syntaxParseWord P true (syntaxParseVal P n)
    | .normal => syntaxParseWord P false (syntaxParseVal P n)
    | .unknown => return (false, .nil)

/-- `syntax_parse_call`. -/
def syntaxParseCall (P : NodePool π μ) : ℕ → Parse π (Option (SyntaxVal μ))
  | 0 => throw .fuel
  | n + 1 => do
    let m ← allocNode P
    match ← readKeyword with
    | none => freeNode P m; return none
    | some k =>
      match ← readBracket with
      | some .startParenthesis =>
        match ← peekNextToken with
        | none => throw .nullToken
        | some (.symbol .startParenthesis) =>
          mark true .callSkip
          return some (.call (P.setCount 0 m) k .nil)
        | some _ =>
          match ← syntaxParseFuncArgs P n with
          | none => freeNode P (P.setCount 0 m); return none
          | some args => return some (.call (P.setCount args.count m) k args)
      | _ => freeNode P m; return none

/-- `syntax_parse_func_args`, before its loop. -/
def syntaxParseFuncArgs (P : NodePool π μ) : ℕ → Parse π (Option (SyntaxArgs μ))
  | 0 => throw .fuel
  | n + 1 => do
    match ← peekEndBracket with
    | some .endParenthesis =>
      let _ ← readEndBracket
      return some .nil
    | _ => syntaxParseArgsLoop P n syntaxArgMax

/-- The loop of `syntax_parse_func_args`, with `k` slots left. -/
def syntaxParseArgsLoop (P : NodePool π μ) : ℕ → ℕ → Parse π (Option (SyntaxArgs μ))
  | 0, _ => throw .fuel
  | _ + 1, 0 => do
    mark true .openArgs
    return some .nil
  | n + 1, k + 1 => do
    match ← readKeyword with
    | none => return none
    | some key =>
      mark key.isQuoted .stringKey
      let opt ← readOperator
      if getSymbolType opt = .optAssign then
        let (ret, vals) ← syntaxParseVal P n
        if ret then
          if ← peekComma then
            let _ ← readComma
            let rest ← syntaxParseArgsLoop P n k
            return rest.map (.cons key vals)
          else
            match ← peekEndBracket with
            | some .endParenthesis =>
              let _ ← readEndBracket
              return some (.cons key vals .nil)
            | _ =>
              mark true .noComma
              let rest ← syntaxParseArgsLoop P n k
              return rest.map (.cons key vals)
        else return none
      else return none

end

/-- `syntax_parse_expr`. -/
def syntaxParseExpr (P : NodePool π μ) (n : ℕ) : Parse π (Option (SyntaxItem μ)) := do
  let m ← allocNode P
  match ← readKeyword with
  | none => freeNode P m; return none
  | some key =>
    let opt ← readOperator
    if getSymbolType opt = .optComp then
      let (ret, vals) ← syntaxParseVal P n
      if ret then return some (.expr m key (opt.getD .reserved) vals)
      else freeNode P m; return none
    else freeNode P m; return none

mutual

/-- `__syntax_parse_block`. -/
def syntaxParseBlock' (P : NodePool π μ) : ℕ → Parse π (Bool × SyntaxItems μ)
  | 0 => throw .fuel
  | n + 1 => do
    match ← peekExprType with
    | .eof => return (true, .nil)
    | .unknown => return (false, .nil)
    | .func =>
      match ← syntaxParseFunc P n with
      | none => return (false, .nil)
      | some node => syntaxAddItem node (syntaxParseBlock' P n)
    | .negBlock =>
      skipNegblock
      match ← syntaxCloseBlock true (syntaxParseBlock P n) with
      | none => return (false, .nil)
      | some node => syntaxAddItem node (syntaxParseBlock' P n)
    | .block =>
      let _ ← readBracket
      match ← syntaxCloseBlock false (syntaxParseBlock P n) with
      | none => return (false, .nil)
      | some node => syntaxAddItem node (syntaxParseBlock' P n)
    | .normal =>
      match ← syntaxParseExpr P n with
      | none => return (false, .nil)
      | some node => syntaxAddItem node (syntaxParseBlock' P n)

/-- `syntax_parse_block`. -/
def syntaxParseBlock (P : NodePool π μ) : ℕ → Parse π (Option (μ × SyntaxItems μ))
  | 0 => throw .fuel
  | n + 1 => do
    let m ← allocNode P
    let (ret, childs) ← syntaxParseBlock' P n
    if ret then return some (m, childs)
    else freeNode P m; return none

/-- `syntax_parse_func`. -/
def syntaxParseFunc (P : NodePool π μ) : ℕ → Parse π (Option (SyntaxItem μ))
  | 0 => throw .fuel
  | n + 1 => do
    let m ← allocNode P
    match ← readKeyword with
    | none => freeNode P m; return none
    | some k =>
      match ← readBracket with
      | some .startParenthesis =>
        match ← syntaxParseFuncArgs P n with
        | none => freeNode P (P.setCount 0 m); return none
        | some args =>
          match ← readBracket with
          | some .startBrace =>
            syntaxParseFuncEnd P (P.setCount args.count m) k (some args) (syntaxParseBlock' P n)
          | _ => freeNode P (P.setCount args.count m); return none
      | some .startBrace => syntaxParseFuncEnd P m k none (syntaxParseBlock' P n)
      | _ => freeNode P m; return none

end

/-- `syntax_parse_content`; the node of a failed content is not freed. -/
def syntaxParseContent (P : NodePool π μ) (n : ℕ) : Parse π (Option (μ × SyntaxItems μ)) := do
  let m ← allocNode P
  markEnd .noItem
  let (ret, childs) ← syntaxParseBlock' P n
  if ret then
    markMore .trailing
    return some (m, childs)
  else return none

/-- A call consumes a token at least every third level, so this bounds the recursion. -/
def parseFuel (toks : List Token) : ℕ := 3 * toks.length + 3

/-- `interp_syntax_parse`: the return code with `ctx->tree`, and the state it leaves. -/
def interpSyntaxParse (P : NodePool π μ) (toks : List Token) (pool : π) :
    Except ParseFault (Option (μ × SyntaxItems μ) × ParseState π) :=
  syntaxParseContent P (parseFuel toks) ⟨toks, pool, []⟩

/-! ## Rules -/

section Rules

open Run

variable {E : ParseFault → Prop} {α : Type} {s : ParseState π}

@[simp] theorem ParseState.note_false {x : Slip} : s.note false x = s := rfl

@[simp] theorem ParseState.note_toks {b : Bool} {x : Slip} : (s.note b x).toks = s.toks := rfl

@[simp] theorem ParseState.note_pool {b : Bool} {x : Slip} : (s.note b x).pool = s.pool := rfl

@[simp] theorem ParseState.note_slips_eq_nil {b : Bool} {x : Slip} :
    (s.note b x).slips = [] ↔ b = false ∧ s.slips = [] := by
  cases b <;> simp [note]

@[simp] theorem wp_peekCurrToken {Q : Option Token → ParseState π → Prop} :
    wp E peekCurrToken Q s ↔ Q s.toks.head? s := Iff.rfl

@[simp] theorem wp_peekNextToken {Q : Option Token → ParseState π → Prop} :
    wp E peekNextToken Q s ↔ Q s.toks.tail.head? s := Iff.rfl

@[simp] theorem wp_readToken {Q : Option Token → ParseState π → Prop} :
    wp E readToken Q s ↔ Q s.toks.head? { s with toks := s.toks.tail } := Iff.rfl

@[simp] theorem wp_readKeyword {Q : Option Lexeme → ParseState π → Prop} :
    wp E readKeyword Q s ↔
      Q (s.toks.head?.bind Token.keyword?) { s with toks := s.toks.tail } := Iff.rfl

@[simp] theorem wp_peekOperator {Q : Option Sym → ParseState π → Prop} :
    wp E peekOperator Q s ↔ Q (s.toks.head?.bind Token.operator?) s := Iff.rfl

@[simp] theorem wp_readOperator {Q : Option Sym → ParseState π → Prop} :
    wp E readOperator Q s ↔
      Q (s.toks.head?.bind Token.operator?) { s with toks := s.toks.tail } := Iff.rfl

@[simp] theorem wp_peekComma {Q : Bool → ParseState π → Prop} :
    wp E peekComma Q s ↔ Q (s.toks.head? = some (.symbol .comma)) s := Iff.rfl

@[simp] theorem wp_readComma {Q : Bool → ParseState π → Prop} :
    wp E readComma Q s ↔
      Q (s.toks.head? = some (.symbol .comma)) { s with toks := s.toks.tail } := Iff.rfl

@[simp] theorem wp_readBracket {Q : Option Sym → ParseState π → Prop} :
    wp E readBracket Q s ↔
      Q (s.toks.head?.bind Token.bracket?) { s with toks := s.toks.tail } := Iff.rfl

@[simp] theorem wp_peekEndBracket {Q : Option Sym → ParseState π → Prop} :
    wp E peekEndBracket Q s ↔ Q (s.toks.head?.bind Token.endBracket?) s := Iff.rfl

@[simp] theorem wp_readEndBracket {Q : Option Sym → ParseState π → Prop} :
    wp E readEndBracket Q s ↔
      Q (s.toks.head?.bind Token.endBracket?) { s with toks := s.toks.tail } := Iff.rfl

@[simp] theorem wp_peekExprValType {Q : ExprValType → ParseState π → Prop} :
    wp E peekExprValType Q s ↔ Q (exprValType s.toks.head? s.toks.tail.head?) s := Iff.rfl

@[simp] theorem wp_peekExprType {Q : ExprType → ParseState π → Prop} :
    wp E peekExprType Q s ↔ Q (exprType s.toks.head? s.toks.tail.head?) s := Iff.rfl

@[simp] theorem wp_allocNode {P : NodePool π μ} {Q : μ → ParseState π → Prop} :
    wp E (allocNode P) Q s ↔
      Q (P.memAlloc s.pool).1 { s with pool := (P.memAlloc s.pool).2 } := Iff.rfl

@[simp] theorem wp_freeNode {P : NodePool π μ} {m : μ} {Q : Unit → ParseState π → Prop} :
    wp E (freeNode P m) Q s ↔ Q () { s with pool := P.memFree m s.pool } := Iff.rfl

@[simp] theorem wp_mark {b : Bool} {x : Slip} {Q : Unit → ParseState π → Prop} :
    wp E (mark b x) Q s ↔ Q () (s.note b x) := Iff.rfl

@[simp] theorem wp_markEnd {x : Slip} {Q : Unit → ParseState π → Prop} :
    wp E (markEnd x) Q s ↔ Q () (s.note s.toks.head?.isNone x) := Iff.rfl

@[simp] theorem wp_markMore {x : Slip} {Q : Unit → ParseState π → Prop} :
    wp E (markMore x) Q s ↔ Q () (s.note s.toks.head?.isSome x) := Iff.rfl

@[simp] theorem wp_skipNegblock {Q : Unit → ParseState π → Prop} :
    wp E skipNegblock Q s ↔
      if s.toks.tail.head?.isSome then Q () { s with toks := s.toks.tail.tail }
      else E .nullToken := by
  unfold skipNegblock
  simp only [wp_bind, wp_readToken]
  cases s.toks.tail.head? <;> simp

end Rules

end Lre
