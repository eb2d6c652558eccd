import Mathlib.Algebra.Ring.Int.Defs
import Mathlib.Algebra.Ring.Nat
import Mathlib.Data.List.Basic

/-!
# Symbols and tokens

* `Sym`, `SymType`, `symWords`: the symbol table of the interpreter, with its gap at
  `Sym.invert`.
* `Lexeme`, `Token`: what the lexer hands to the later stages. A token of type
  `TOKEN_TYPE_KEYWORD` is `word (ident w)`, one of type `TOKEN_TYPE_STRING` is
  `word (quoted w)`; a string keeps its quotes in `Lexeme.cstr`.
-/

namespace Lre

/-- `-EINVAL`. -/
def einval : ℤ := -22

/-- `-ENOMEM`. -/
def enomem : ℤ := -12

/-- The characters of a C string, without its terminator. -/
abbrev Word := List Char

/-- `enum syntax_sym_id`. -/
inductive Sym
  | reserved | and | or | not | assign | equal | notEqual | gt | lt | gtOrEqual | ltOrEqual
  | startBrace | endBrace | startParenthesis | endParenthesis | comma | var
  | mod | bitand | bitor | bitxor | add | sub | mul | div | invert
  | addEqual | subEqual | mulEqual | divEqual
  deriving DecidableEq, Repr

/-- `enum syntax_sym_type`. -/
inductive SymType
  | unknown | optLogic | optAssign | optComp | optArith | optArithAssign | bracket | comma
  deriving DecidableEq, Repr

/-- The table `sym_words`; the entry of `SYNTAX_SYM_INVERT` is commented out in the source. -/
def symWords : Sym → Option Word × SymType
  | .reserved => (some [], .unknown)
  | .and => (some ['&', '&'], .optLogic)
  | .or => (some ['|', '|'], .optLogic)
  | .not => (some ['!'], .optLogic)
  | .assign => (some ['='], .optAssign)
  | .equal => (some ['=', '='], .optComp)
  | .notEqual => (some ['!', '='], .optComp)
  | .gt => (some ['>'], .optComp)
  | .lt => (some ['<'], .optComp)
  | .gtOrEqual => (some ['>', '='], .optComp)
  | .ltOrEqual => (some ['<', '='], .optComp)
  | .startBrace => (some ['{'], .bracket)
  | .endBrace => (some ['}'], .bracket)
  | .startParenthesis => (some ['('], .bracket)
  | .endParenthesis => (some [')'], .bracket)
  | .comma => (some [','], .comma)
  | .var => (some ['$'], .unknown)
  | .mod => (some ['%'], .optArith)
  | .bitand => (some ['&'], .optArith)
  | .bitor => (some ['|'], .optArith)
  | .bitxor => (some ['^'], .optArith)
  | .add => (some ['+'], .optArith)
  | .sub => (some ['-'], .optArith)
  | .mul => (some ['*'], .optArith)
  | .div => (some ['/'], .optArith)
  | .invert => (none, .unknown)
  | .addEqual => (some ['+', '='], .optArithAssign)
  | .subEqual => (some ['-', '='], .optArithAssign)
  | .mulEqual => (some ['*', '='], .optArithAssign)
  | .divEqual => (some ['/', '='], .optArithAssign)

/-- `get_symbol_type`; `none` is the `-EINVAL` of the operator readers. -/
def getSymbolType : Option Sym → SymType
  | none => .unknown
  | some .reserved => .unknown
  | some s => (symWords s).2

/-- A word of the word area: an identifier, or a string with its quotes. -/
inductive Lexeme
  | ident (w : Word)
  | quoted (w : Word)
  deriving DecidableEq, Repr

/-- The C string a word pointer refers to. -/
def Lexeme.cstr : Lexeme → Word
  | .ident w => w
  | .quoted w => '"' :: (w ++ ['"'])

/-- `struct lex_token`. -/
inductive Token
  | word (x : Lexeme)
  | symbol (s : Sym)
  deriving DecidableEq, Repr

namespace Token

/-- A keyword token. -/
abbrev key (w : Word) : Token := .word (.ident w)

/-- The operators `peek_operator` and `read_operator` recognise. -/
def operator? : Token → Option Sym
  | .word _ => none
  | .symbol s =>
    match s with
    | .and | .or | .not | .assign | .equal | .notEqual | .gt | .lt | .gtOrEqual | .ltOrEqual
    | .mod | .bitand | .bitor | .bitxor | .add | .sub | .mul | .div
    | .addEqual | .subEqual | .mulEqual | .divEqual => some s
    | _ => none

/-- What `read_bracket` accepts. -/
def bracket? : Token → Option Sym
  | .symbol .startParenthesis => some .startParenthesis
  | .symbol .startBrace => some .startBrace
  | _ => none

/-- What `peek_end_bracket` and `read_end_bracket` accept. -/
def endBracket? : Token → Option Sym
  | .symbol .endParenthesis => some .endParenthesis
  | .symbol .endBrace => some .endBrace
  | _ => none

/-- What `read_keyword` accepts: a keyword or a string. -/
def keyword? : Token → Option Lexeme
  | .word x => some x
  | .symbol _ => none

end Token

end Lre
