import Lre.Exec.Output
import Lre.Interp.Load
import Lre.Lexer.Words
import Lre.Macro.Preprocess
import Lre.Semantic.Resolve
import Lre.Syntax.Pool

/-!
# Executing a rule

`interpreter_execute`, from the string it is given to the registers and the details it leaves.

* `Engine`: what is set up once: the keyword and macro tables, and the doubles of the machine.
* `World`: what the C library does during one execution.
* `executeLoop`, `interpreterExecute`: the source. A component that calls `handle->output` adds
  the string to the second part of `Env`, whose last string is the first of the list.
* `Interp.report`: what a caller of `lre_execute` gets.
-/

namespace Lre

open CString

/-- The state of the components in an execution, and the strings they have written. -/
abbrev Env (σ : Type) := σ × List Word

/-- The keyword table with the components in it, the macro table, and the doubles. -/
structure Engine (σ η D : Type) where
  tab : KeywordTable (Env σ) η D
  tbl : MacroTable
  doubles : Doubles D

/-- What the C library does during an execution: the results of `realloc`, by round or by string,
and what memory that nobody has written reads as. -/
structure World where
  codebuf : ℕ → Option Memory
  workmem : ℕ → Option Memory
  outbuf : ℕ → Option Memory
  /-- `args.count` of a node that `malloc` has just made -/
  count : ℕ → ℕ
  /-- the key that an argument slot of a node points to, when the parser has not filled it -/
  key : ℕ → ℕ → Word

/-- The keys of the argument slots that the memory of a node still counts. -/
def World.stale (w : World) (m : SyntaxNode) : List Word := (List.range m.count).map (w.key m.id)

/-- Why an execution does not return. -/
inductive ExecuteFault
  | load (fault : LoadFault)
  /-- the lexer writes behind a buffer, or a C string does not end in its buffer -/
  | overflow
  | parse (fault : ParseFault)
  | exec (fault : ExecFault)
  /-- the loop does not end in the rounds given -/
  | fuel
  deriving DecidableEq

variable {σ η D : Type}

instance (ctx : LexContext) : Decidable ctx.InBounds := by
  unfold LexContext.InBounds
  infer_instance

/-- One pass of the loop of `interpreter_execute` through the lexer: its return code, and the
tokens. -/
def lexerRound (realloc : Option Memory) (interp : Interp Mempool) :
    Except ExecuteFault (Except ℤ (List Token) × Interp Mempool) :=
  match interp.codebuf.read 0 with
  | none => .error .overflow
  | some code =>
    let (ret, ctx) := interpLexerAnalysis realloc code interp
    let interp := { interp with workmem := ctx.workmem }
    if ctx.InBounds then
      match ret, ctx.readTokens with
      | none, _ => .error .fuel
      | some 0, none => .error .overflow
      | some 0, some toks => .ok (.ok toks, interp)
      | some ret, _ => .ok (.error ret, interp)
    else .error .overflow

/-- The loop of `interpreter_execute` up to the parser, in at most `n` rounds: a return code other
than zero, or the tokens. -/
def executeLoop (tbl : MacroTable) (w : World) :
    ℕ → Interp Mempool → Except ExecuteFault (Except ℤ (List Token) × Interp Mempool)
  | 0, _ => .error .fuel
  | n + 1, interp =>
    match lexerRound (w.workmem n) interp with
    | .error fault => .error fault
    | .ok (.error ret, interp) => .ok (.error ret, interp)
    | .ok (.ok toks, interp) =>
      match interpPreprocess tbl toks with
      | .ok => .ok (.ok toks, interp)
      | .err => .ok (.error einval, interp)
      | .resRepeat code =>
        match interpContextReloadCode (w.codebuf n) code interp with
        | (0, interp) => executeLoop tbl w n interp
        | (_, interp) => .ok (.error einval, interp)

/-- The end of `interpreter_execute`, with the result of `interp_execute` or with the return code
at the label `err`; no other return code is a result. -/
def executeEnd (ret : ℤ) (interp : Interp Mempool) : ℤ × Interp Mempool :=
  if vaildLreResults ret then (0, { interp with results := ret, errcode := lreRetOk })
  else (ret, { interp with results := retDead, errcode := ret })

/-- `interp_execute` on a resolved rule, with what the components write. -/
def executeTree (E : Engine σ η D) (w : World)
    (tree : ResolvedItems (KeywordStub (Env σ) η D)) (env : σ) (interp : Interp Mempool) :
    Except ExecuteFault (ℤ × Interp Mempool) :=
  match interpExecute stubCallbacks E.doubles interp.stackbuf.size tree (env, []) with
  | .error fault => .error (.exec fault)
  | .ok (ret, s) =>
    .ok (executeEnd ret
      { interp with outbuf := (execOutputs w.outbuf s.env.2 (.init interp.outbuf)).outbuf })

/-- `interpreter_execute` from the parser on. -/
def executeRule (E : Engine σ η D) (w : World) (toks : List Token) (env : σ)
    (interp : Interp Mempool) : Except ExecuteFault (ℤ × Interp Mempool) :=
  match interpSyntaxParse (syntaxMpool w.count) toks interp.syntaxMpool with
  | .error fault => .error (.parse fault)
  | .ok (none, s) => .ok (executeEnd einval { interp with syntaxMpool := s.pool })
  | .ok (some (m, tree), s) =>
    -- nothing allocates nodes from here to `interp_context_destroy`
    let interp := { interp with syntaxMpool := destroySyntaxTree m tree s.pool }
    match interpSemanticAnalysis w.stale E.tab tree with
    | none => .ok (executeEnd einval interp)
    | some tree => executeTree E w tree env interp

/-- `interpreter_execute` of the C string `code`, in at most `n` rounds; `env` is the state the
components are in. -/
def interpreterExecute (E : Engine σ η D) (n : ℕ) (w : World) (code : Word) (env : σ)
    (interp : Interp Mempool) : Except ExecuteFault (ℤ × Interp Mempool) :=
  match interpContextCreate (w.codebuf n) code interp with
  | .error fault => .error (.load fault)
  | .ok (_, interp) =>
    match executeLoop E.tbl w n interp with
    | .error fault => .error fault
    | .ok (.error ret, interp) => .ok (executeEnd ret interp)
    | .ok (.ok toks, interp) => executeRule E w toks env interp

/-- What `lre_execute` hands to its caller: `interp_get_result`, `interp_get_errcode` and the C
string at `interp_get_output`. -/
structure Report where
  result : ℤ
  errcode : ℤ
  details : Option Word
  deriving DecidableEq, Repr

/-- The report of an interpreter. -/
def Interp.report {π : Type} (interp : Interp π) : Report :=
  ⟨interp.results, interp.errcode, interp.outbuf.read 0⟩

/-- The report of an execution. -/
def reportOf {π : Type} (r : Except ExecuteFault (ℤ × Interp π)) : Except ExecuteFault Report :=
  r.map fun p => p.2.report

end Lre
