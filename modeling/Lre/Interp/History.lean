import Mathlib.Logic.Relation
import Lre.Interp.Execute
import Lre.Interp.Reach

/-!
# Executing a rule after others

* `rule`: what a rule does, with no interpreter in it: no buffers, and no node memory.
* `Contained`: a rule that fits into the buffers an interpreter begins with, details included, and
  whose functions all have a parenthesised list.
* **`interpreterExecute_refines`**: in an interpreter whose buffers have not grown, the execution of
  such a rule is what `rule` says, and the buffers do not grow.
* `History`: the interpreters that executions reach from `interpreter_create`.
* **`interpreterExecute_history`**: after any two histories of such rules, such a rule gives the
  same report.
* **`interpreterExecute_recycled`**: `args.count` of a recycled node is not set for a function in
  brace form, so that an earlier rule makes such a rule fail.
* `History.reached`: histories stay in the states of `Reached`.
-/

namespace Lre

open CString Relation Run

variable {σ η D : Type}

/-! ## Rules without an interpreter -/

/-- The result of `interp_execute` on a resolved rule, and what the components write. -/
def ruleTree (E : Engine σ η D) (tree : ResolvedItems (KeywordStub (Env σ) η D)) (env : σ) :
    Except ExecuteFault (ℤ × List Word) :=
  match interpExecute stubCallbacks E.doubles defaultStacksSize tree (env, []) with
  | .error fault => .error (.exec fault)
  | .ok (ret, s) => .ok (ret, s.env.2)

/-- The same for tokens, or the return code of the stage that refuses them. -/
def ruleToks (E : Engine σ η D) (toks : List Token) (env : σ) :
    Except ExecuteFault (ℤ × List Word) :=
  match interpSyntaxParse NodePool.unit toks () with
  | .error fault => .error (.parse fault)
  | .ok (none, _) => .ok (einval, [])
  | .ok (some (_, tree), _) =>
    match interpSemanticAnalysis (fun _ => []) E.tab tree with
    | none => .ok (einval, [])
    | some tree => ruleTree E tree env

/-- The same for a code, of which at most `n` texts are looked at. -/
def rule (E : Engine σ η D) (n : ℕ) (code : Word) (env : σ) :
    Except ExecuteFault (ℤ × List Word) :=
  match macroLoop E.tbl n code with
  | .handed toks => ruleToks E toks env
  | .err => .ok (einval, [])
  | .fuel => .error .fuel

/-- The buffer for details of a new interpreter. -/
def blankOutbuf : Buffer := .xzalloc (fun _ => nul) defaultOutbufSize

/-- The report on a rule. -/
def ruleReport (ret : ℤ) (strs : List Word) : Report :=
  let details := (execOutputs (fun _ => none) strs (.init blankOutbuf)).outbuf.read 0
  if vaildLreResults ret then ⟨ret, lreRetOk, details⟩ else ⟨retDead, ret, details⟩

/-! ## Rules that fit -/

/-- The texts that the loop of `interpreter_execute` may get into the code buffer. -/
inductive MacroText (tbl : MacroTable) (code : Word) : Word → Prop
  | self : MacroText tbl code code
  | call {text text' : Word} {rest : List Token} (h : MacroText tbl code text)
      (hcall : macroCall? tbl (lex text).1 = some (text', rest)) : MacroText tbl code text'

/-- The tokens of a text fit into the token array and the word area. -/
def LexFits (text : Word) : Prop :=
  (lex text).1.length < defaultStacksSize / sizeofLexToken ∧ lexSpace text < defaultWorkmemSize

instance : DecidablePred LexFits := fun _ => by unfold LexFits; infer_instance

/-- A rule that fits into the buffers as they are at first, and whose functions all have a
parenthesised list. -/
structure Contained (E : Engine σ η D) (code : Word) (env : σ) : Prop where
  nul_notMem : nul ∉ code
  length_lt : code.length < defaultCodebufSize
  lexFits : ∀ text, MacroText E.tbl code text → LexFits text
  noBraceForm : ∀ n toks, macroLoop E.tbl n code = .handed toks → NoBraceForm toks
  detailsFit : ∀ n ret strs, rule E n code env = .ok (ret, strs) → DetailsFit strs

theorem MacroText.of_expands {tbl : MacroTable} {code text : Word}
    (h : ReflTransGen (Expands tbl) code text) : MacroText tbl code text := by
  induction h with
  | refl => exact .self
  | tail _ hexp ih =>
    obtain ⟨toks, rest, hlex, hcall⟩ := hexp
    exact ih.call (by rw [hlex]; exact hcall)

theorem Contained.texts {E : Engine σ η D} {code : Word} {env : σ} (h : Contained E code env)
    (text : Word) (htext : ReflTransGen (Expands E.tbl) code text) : LexFits text :=
  h.lexFits text (.of_expands htext)

/-! ## Buffers that have not grown -/

/-- The buffers have the sizes `interpreter_create` gives them. -/
structure Interp.Ungrown {π : Type} (interp : Interp π) : Prop where
  codebuf : interp.codebuf.size = defaultCodebufSize
  workmem : interp.workmem.size = defaultWorkmemSize
  stackbuf : interp.stackbuf.size = defaultStacksSize
  outbuf : interp.outbuf.size = defaultOutbufSize

/-- Between a load and the end of an execution: no buffer has grown, and there are no details. -/
structure Interp.Running {π : Type} (interp : Interp π) : Prop extends interp.Ungrown where
  blank : Buffer.Same defaultOutbufSize interp.outbuf blankOutbuf

theorem interpreterCreate_ungrown {π : Type} (heap : Fin 4 → Memory) (pool : π) :
    (interpreterCreate heap pool).Ungrown := ⟨rfl, rfl, rfl, rfl⟩

section Loaded

variable {π : Type} {interp : Interp π} {code : Word}

theorem Interp.Ungrown.loaded (h : interp.Ungrown) (code : Word) :
    (interp.loaded code).Running := by
  refine ⟨⟨h.codebuf, h.workmem, h.stackbuf, h.outbuf⟩, h.outbuf, rfl, fun i hi => ?_⟩
  have hclear : memset interp.outbuf.mem nul interp.outbuf.size i = nul :=
    memset_of_lt (h.outbuf ▸ hi)
  have hblank : memset (fun _ => nul) nul defaultOutbufSize i = nul := memset_of_lt hi
  exact hclear.trans hblank.symm

theorem Interp.Ungrown.load (h : interp.Ungrown) (hcode : nul ∉ code)
    (hlt : code.length < defaultCodebufSize) (call : LoadCall) (realloc : Option Memory) :
    interpLoad call realloc code interp = .ok (0, interp.loaded code) ∧
      HoldsAt (interp.loaded code).codebuf.mem 0 code := by
  have hload := @interpLoad_of_length_lt _ realloc _ _ hcode (by rw [h.codebuf]; decide)
    (by rw [h.codebuf]; exact hlt) call
  exact ⟨hload.1, hload.2.1⟩

end Loaded

/-! ## The loop -/

/-- The end of a pass through the lexer. -/
def lexOutcome (interp : Interp Mempool) :
    List Token × LexEnd → Except ExecuteFault (Except ℤ (List Token) × Interp Mempool)
  | (toks, .eof) => .ok (.ok toks, interp)
  | _ => .ok (.error einval, interp)

/-- The end of the loop. -/
def LoopEnd.outcome (interp : Interp Mempool) :
    LoopEnd → Except ExecuteFault (Except ℤ (List Token) × Interp Mempool)
  | .handed toks => .ok (.ok toks, interp)
  | .err => .ok (.error einval, interp)
  | .fuel => .error .fuel

variable {interp : Interp Mempool} {code : Word}

theorem Interp.Ungrown.read_loaded (h : interp.Ungrown) (hcode : nul ∉ code)
    (hlt : code.length < defaultCodebufSize) :
    (interp.loaded code).codebuf.read 0 = some code := by
  rw [Buffer.read, (h.loaded code).codebuf]
  exact read_of_holdsAt (h.load hcode hlt .create none).2 hlt

/-- The lexer stays in the buffers exactly when the text fits. -/
theorem Interp.Ungrown.inBounds_iff (h : interp.Ungrown) (realloc : Option Memory) (code : Word) :
    (interpLexerAnalysis realloc code (interp.loaded code)).2.InBounds ↔ LexFits code := by
  have hrun := h.loaded code
  have hsize : ¬(interp.loaded code).codebuf.size > (interp.loaded code).workmem.size := by
    rw [hrun.codebuf, hrun.workmem]
    decide
  rw [analysis_inBounds_iff rfl (by rw [hrun.workmem]; decide), analysisWmemsize, if_neg hsize,
    hrun.workmem, hrun.stackbuf]
  exact or_iff_right fun hrefused => hsize hrefused.1

/-- **A pass through the lexer with a text that fits gives the tokens of `lex`.** -/
theorem lexerRound_loaded (h : interp.Ungrown) (hcode : nul ∉ code)
    (hlt : code.length < defaultCodebufSize) (hfits : LexFits code) (realloc : Option Memory) :
    ∃ interp', interp'.Running ∧
      lexerRound realloc (interp.loaded code) = lexOutcome interp' (lex code) := by
  have hrun := h.loaded code
  have hread := h.read_loaded hcode hlt
  have hsize : (interp.loaded code).codebuf.size ≤ (interp.loaded code).workmem.size := by
    rw [hrun.codebuf, hrun.workmem]
    decide
  have hzero : (interp.loaded code).workmem.ZeroFrom 0 := fun i _ hi => memset_of_lt hi
  have hfin := analysis_finished hsize realloc code
  have hin := (h.inBounds_iff realloc code).mpr hfits
  have hwmem : (interpLexerAnalysis realloc code (interp.loaded code)).2.workmem.size =
      defaultWorkmemSize := by
    rw [interpLexerAnalysis, if_neg (Nat.not_lt.mpr hsize),
      lexerReadToken_size (Nat.lt_succ_self code.length)]
    exact hrun.workmem
  refine ⟨{ interp.loaded code with
    workmem := (interpLexerAnalysis realloc code (interp.loaded code)).2.workmem },
    ⟨⟨hrun.codebuf, hwmem, hrun.stackbuf, hrun.outbuf⟩, hrun.blank⟩, ?_⟩
  have hret := hfin.ret
  have htoks (heof : (lex code).2 = .eof) :=
    readTokens_analysis hcode heof hsize hzero (hrun.workmem ▸ hfits.2) realloc
  rw [lexerRound, hread]
  dsimp only
  rw [if_pos hin, hret]
  cases hlex : lex code with
  | mk toks fin =>
    rw [hlex] at htoks
    cases fin with
    | eof => rw [htoks rfl]; rfl
    | unterminated w => rfl
    | unknown => rfl
    | fuel => exact absurd (congrArg Prod.snd hlex) (lex_end_ne_fuel code)

theorem executeLoop_expands {tbl : MacroTable} {code' : Word} (w : World) (n : ℕ)
    (h : interp.Ungrown) (hcode : nul ∉ code) (hlt : code.length < defaultCodebufSize)
    (hfits : LexFits code) (hexp : Expands tbl code code') :
    ∃ interp' : Interp Mempool, interp'.Ungrown ∧ nul ∉ code' ∧
      code'.length < defaultCodebufSize ∧ executeLoop tbl w (n + 1) (interp.loaded code) =
        executeLoop tbl w n (interp'.loaded code') := by
  obtain ⟨toks, rest, hlex, hcall⟩ := hexp
  obtain ⟨interp₁, hrun, hround⟩ := lexerRound_loaded h hcode hlt hfits (w.workmem n)
  have htoks : (lex code).1 = toks := congrArg Prod.fst hlex
  have hcode' : nul ∉ code' := nul_notMem_of_macroCall (htoks ▸ lex_isCString hcode) hcall
  have hlt' := length_of_macroCall hcall
  have hload := (hrun.load hcode' hlt' .reload (w.codebuf n)).1
  rw [interpLoad] at hload
  refine ⟨interp₁, hrun.toUngrown, hcode', hlt', ?_⟩
  rw [executeLoop, hround, hlex]
  dsimp only [lexOutcome]
  rw [interpPreprocess_of_call hcall]
  dsimp only
  rw [Except.ok.inj hload]
  rfl

/-- **The loop hands over what the loop on texts hands over.** -/
theorem executeLoop_loaded {tbl : MacroTable} (w : World) (n : ℕ) (h : interp.Ungrown)
    (hcode : nul ∉ code) (hlt : code.length < defaultCodebufSize)
    (hfits : ∀ text, ReflTransGen (Expands tbl) code text → LexFits text) :
    ∃ interp', interp'.Running ∧
      executeLoop tbl w n (interp.loaded code) = (macroLoop tbl n code).outcome interp' := by
  induction n generalizing interp code with
  | zero => exact ⟨_, h.loaded code, rfl⟩
  | succ n ih =>
    have hfirst := hfits code .refl
    obtain ⟨interp₁, hrun, hround⟩ := lexerRound_loaded h hcode hlt hfirst (w.workmem n)
    cases hlex : lex code with
    | mk toks fin =>
      cases fin with
      | eof =>
        cases hpre : interpPreprocess tbl toks with
        | resRepeat code' =>
          obtain ⟨rest, hcall⟩ := call_of_interpPreprocess hpre
          have hexp : Expands tbl code code' := ⟨toks, rest, hlex, hcall⟩
          obtain ⟨interp₂, hungrown, hcode', hlt', hloop⟩ :=
            executeLoop_expands w n h hcode hlt hfirst hexp
          rw [hloop, hexp.macroLoop]
          exact ih hungrown hcode' hlt' fun text htext => hfits text (.head hexp htext)
        | ok =>
          refine ⟨interp₁, hrun, ?_⟩
          rw [executeLoop, hround, macroLoop, hlex]
          dsimp only [lexOutcome]
          rw [hpre]
          rfl
        | err =>
          refine ⟨interp₁, hrun, ?_⟩
          rw [executeLoop, hround, macroLoop, hlex]
          dsimp only [lexOutcome]
          rw [hpre]
          rfl
      | _ =>
        refine ⟨interp₁, hrun, ?_⟩
        rw [executeLoop, hround, macroLoop, hlex]
        rfl

/-- An execution does what a rule says: the same fault, or the report on the rule in an interpreter
whose buffers have not grown. -/
inductive Refines :
    Except ExecuteFault (ℤ × Interp Mempool) → Except ExecuteFault (ℤ × List Word) → Prop
  | fault (fault : ExecuteFault) : Refines (.error fault) (.error fault)
  | report {interp : Interp Mempool} {r ret : ℤ} {strs : List Word} (h : interp.Ungrown)
      (hr : interp.report = ruleReport ret strs) : Refines (.ok (r, interp)) (.ok (ret, strs))

theorem Refines.reportOf {x : Except ExecuteFault (ℤ × Interp Mempool)}
    {r : Except ExecuteFault (ℤ × List Word)} (h : Refines x r) :
    reportOf x = r.map fun p => ruleReport p.1 p.2 := by
  cases h with
  | fault fault => rfl
  | report h hr => exact congrArg Except.ok hr

theorem Refines.exists_ok {x : Except ExecuteFault (ℤ × Interp Mempool)} {q : ℤ × List Word}
    (h : Refines x (.ok q)) : ∃ p, x = .ok p := by
  cases h with
  | report h hr => exact ⟨_, rfl⟩

theorem Refines.ungrown {p : ℤ × Interp Mempool} {r : Except ExecuteFault (ℤ × List Word)}
    (h : Refines (.ok p) r) : p.2.Ungrown := by
  cases h with
  | report h hr => exact h

variable {E : Engine σ η D} {env : σ}

theorem refines_executeEnd {strs : List Word} (h : interp.Ungrown)
    (hout : interp.outbuf.read 0 =
      (execOutputs (fun _ => none) strs (.init blankOutbuf)).outbuf.read 0) (ret : ℤ) :
    Refines (.ok (executeEnd ret interp)) (.ok (ret, strs)) := by
  by_cases hret : vaildLreResults ret = true
  · rw [executeEnd, if_pos hret]
    refine .report ⟨h.codebuf, h.workmem, h.stackbuf, h.outbuf⟩ ?_
    rw [ruleReport, if_pos hret, ← hout]
    rfl
  · rw [executeEnd, if_neg hret]
    refine .report ⟨h.codebuf, h.workmem, h.stackbuf, h.outbuf⟩ ?_
    rw [ruleReport, if_neg hret, ← hout]
    rfl

theorem Interp.Running.refines_error (h : interp.Running) (ret : ℤ) :
    Refines (.ok (executeEnd ret interp)) (.ok (ret, [])) := by
  have hout : interp.outbuf.read 0 =
      (execOutputs (fun _ => none) [] (.init blankOutbuf)).outbuf.read 0 := h.blank.read
  exact refines_executeEnd h.toUngrown hout ret

theorem executeTree_refines {tree : ResolvedItems (KeywordStub (Env σ) η D)} (h : interp.Running)
    (hfit : ∀ ret strs, ruleTree E tree env = .ok (ret, strs) → DetailsFit strs) (w : World) :
    Refines (executeTree E w tree env interp) (ruleTree E tree env) := by
  rw [executeTree, ruleTree, h.stackbuf]
  rw [ruleTree] at hfit
  cases hexec : interpExecute stubCallbacks E.doubles defaultStacksSize tree (env, []) with
  | error fault => exact .fault _
  | ok p =>
    obtain ⟨ret, s⟩ := p
    rw [hexec] at hfit
    have hout := (execOutputs_same h.blank (hfit ret s.env.2 rfl) w.outbuf fun _ => none).1.outbuf
    have hgrown : ({ interp with
        outbuf := (execOutputs w.outbuf s.env.2 (.init interp.outbuf)).outbuf } :
          Interp Mempool).Ungrown := ⟨h.codebuf, h.workmem, h.stackbuf, hout.size⟩
    exact refines_executeEnd hgrown hout.read ret

theorem executeRule_refines {toks : List Token} (h : interp.Running) (hno : NoBraceForm toks)
    (hfit : ∀ ret strs, ruleToks E toks env = .ok (ret, strs) → DetailsFit strs) (w : World) :
    Refines (executeRule E w toks env interp) (ruleToks E toks env) := by
  have hagree := interpSyntaxParse_agree (P := syntaxMpool w.count) (Q := NodePool.unit) hno
    interp.syntaxMpool ()
  rw [executeRule, ruleToks]
  rw [ruleToks] at hfit
  cases hp : interpSyntaxParse (syntaxMpool w.count) toks interp.syntaxMpool with
  | error fault =>
    cases hq : interpSyntaxParse NodePool.unit toks () with
    | error fault' =>
      rw [hp, hq] at hagree
      cases hagree
      exact .fault _
    | ok q => rw [hp, hq] at hagree; exact hagree.elim
  | ok p =>
    cases hq : interpSyntaxParse NodePool.unit toks () with
    | error fault' => rw [hp, hq] at hagree; exact hagree.elim
    | ok q =>
      obtain ⟨r, s⟩ := p
      obtain ⟨r', s'⟩ := q
      rw [hp, hq] at hagree
      rw [hq] at hfit
      obtain ⟨hsame, -⟩ := hagree
      cases hsame with
      | none =>
        have hrun : ({ interp with syntaxMpool := s.pool } : Interp Mempool).Running :=
          ⟨⟨h.codebuf, h.workmem, h.stackbuf, h.outbuf⟩, h.blank⟩
        exact hrun.refines_error einval
      | @some x y hblock =>
        obtain ⟨m, tree⟩ := x
        obtain ⟨m', tree'⟩ := y
        obtain ⟨herase, hclosed⟩ : tree.erase = tree'.erase ∧ tree.erase.Closed := hblock
        have hsem : interpSemanticAnalysis w.stale E.tab tree =
            interpSemanticAnalysis (fun _ => []) E.tab tree' :=
          calc interpSemanticAnalysis w.stale E.tab tree
            _ = interpSemanticAnalysis (fun _ => []) E.tab tree.erase :=
              interpSemanticAnalysis_erase _ _ _ hclosed
            _ = interpSemanticAnalysis (fun _ => []) E.tab tree'.erase := by rw [herase]
            _ = interpSemanticAnalysis (fun _ => []) E.tab tree' :=
              (interpSemanticAnalysis_erase _ _ _ (herase ▸ hclosed)).symm
        dsimp only at hfit ⊢
        rw [hsem]
        have hrun : ({ interp with
            syntaxMpool := destroySyntaxTree m tree s.pool } : Interp Mempool).Running :=
          ⟨⟨h.codebuf, h.workmem, h.stackbuf, h.outbuf⟩, h.blank⟩
        cases htree : interpSemanticAnalysis (fun _ => []) E.tab tree' with
        | none => exact hrun.refines_error einval
        | some rtree =>
          rw [htree] at hfit
          exact executeTree_refines hrun hfit w

/-- **In an interpreter whose buffers have not grown, the execution of a contained rule is what the
rule says.** -/
theorem interpreterExecute_refines (h : interp.Ungrown) (hc : Contained E code env) (n : ℕ)
    (w : World) : Refines (interpreterExecute E n w code env interp) (rule E n code env) := by
  have hload := (h.load hc.nul_notMem hc.length_lt .create (w.codebuf n)).1
  rw [interpLoad] at hload
  obtain ⟨interp₁, hrun, hloop⟩ :=
    executeLoop_loaded w n h hc.nul_notMem hc.length_lt hc.texts
  rw [interpreterExecute, hload]
  dsimp only
  rw [hloop, rule]
  have hdetails := hc.detailsFit n
  rw [rule] at hdetails
  cases hend : macroLoop E.tbl n code with
  | handed toks =>
    rw [hend] at hdetails
    exact executeRule_refines hrun (hc.noBraceForm n toks hend) hdetails w
  | err => exact hrun.refines_error einval
  | fuel => exact .fault _

/-! ## Histories -/

/-- The interpreters that executions reach from `interpreter_create`, when each of them is of a rule
and in a state of the components for which `Q` holds. -/
inductive History (E : Engine σ η D) (Q : Word → σ → Prop) : Interp Mempool → Prop
  | create (heap : Fin 4 → Memory) : History E Q (interpreterCreate heap mempoolInit)
  | execute {interp interp' : Interp Mempool} {ret : ℤ} {code : Word} {env : σ} (n : ℕ) (w : World)
      (h : History E Q interp) (hq : Q code env)
      (he : interpreterExecute E n w code env interp = .ok (ret, interp')) : History E Q interp'

theorem History.mono {Q Q' : Word → σ → Prop} (h : History E Q interp)
    (hq : ∀ code env, Q code env → Q' code env) : History E Q' interp := by
  induction h with
  | create heap => exact .create heap
  | execute n w _ hrule he ih => exact ih.execute n w (hq _ _ hrule) he

theorem History.ungrown (h : History E (Contained E) interp) : interp.Ungrown := by
  induction h with
  | create heap => exact interpreterCreate_ungrown heap _
  | execute n w _ hq he ih =>
    have href := interpreterExecute_refines ih hq n w
    rw [he] at href
    exact href.ungrown

/-- **The report on a contained rule is the same after any two histories of such rules, whatever
the C library does.** -/
theorem interpreterExecute_history {interp₁ interp₂ : Interp Mempool}
    (h₁ : History E (Contained E) interp₁) (h₂ : History E (Contained E) interp₂)
    (hc : Contained E code env) (n : ℕ) (w₁ w₂ : World) :
    reportOf (interpreterExecute E n w₁ code env interp₁) =
      reportOf (interpreterExecute E n w₂ code env interp₂) := by
  have href₁ := interpreterExecute_refines h₁.ungrown hc n w₁
  have href₂ := interpreterExecute_refines h₂.ungrown hc n w₂
  rw [href₁.reportOf, href₂.reportOf]

/-! ## A recycled node -/

/-- A function `f` with an argument `x` and an expression `e`, which holds. -/
def exampleFunc : LrcStubFunc (Env Unit) Unit Unit where
  keyword := ['f']
  constructor env := (some (), env)
  exec := none
  destructor := none
  args := [⟨['x'], fun _ _ env => (0, env)⟩]
  exprs := [⟨['e'], fun _ _ _ env => (1, env)⟩]
  vars := []
  funcs := []

/-- An engine with this function and no macros. -/
def exampleEngine : Engine Unit Unit Unit where
  tab := registerModules [⟨[exampleFunc], []⟩]
  tbl := .empty
  doubles := unitDoubles

/-- A C library that is asked for nothing. The key of a slot that semantic analysis has filled
points to a `keyword_stub`, whose first bytes are those of the number `KEYSTUB_TYPE_ARG`. -/
def exampleWorld : World where
  codebuf _ := none
  workmem _ := none
  outbuf _ := none
  count _ := 0
  key _ _ := [Char.ofNat 3]

/-- A new interpreter. -/
def newInterp : Interp Mempool := interpreterCreate (fun _ _ => nul) mempoolInit

/-- `f(x=1){e==1}`. -/
def argRule : Word := ['f', '(', 'x', '=', '1', ')', '{', 'e', '=', '=', '1', '}']

/-- `f{e==1}`. -/
def braceRule : Word := ['f', '{', 'e', '=', '=', '1', '}']

/-- A text that begins with no macro call is the only one. -/
theorem MacroText.eq_of_plain {tbl : MacroTable} {text : Word}
    (h : macroCall? tbl (lex code).1 = none) (ht : MacroText tbl code text) : text = code := by
  induction ht with
  | self => rfl
  | call _ hcall ih => rw [ih, h] at hcall; cases hcall

theorem lex_argRule : lex argRule = (exampleToks, .eof) := by decide

theorem macroCall?_argRule : macroCall? exampleEngine.tbl (lex argRule).1 = none := by
  rw [lex_argRule]
  rfl

theorem macroLoop_argRule (n : ℕ) :
    macroLoop exampleEngine.tbl (n + 1) argRule = .handed exampleToks :=
  macroLoop_of_ok lex_argRule rfl n

theorem rule_argRule (n : ℕ) : rule exampleEngine (n + 1) argRule () = .ok (1, []) := by
  have htoks : ruleToks exampleEngine exampleToks () = .ok (1, []) := by decide +kernel
  rw [rule, macroLoop_argRule]
  exact htoks

theorem contained_argRule : Contained exampleEngine argRule () where
  nul_notMem := by decide
  length_lt := by decide
  lexFits text htext := by
    rw [htext.eq_of_plain macroCall?_argRule]
    decide
  noBraceForm n toks h := by
    cases n with
    | zero => cases h
    | succ n =>
      rw [macroLoop_argRule] at h
      cases h
      decide
  detailsFit n ret strs h := by
    cases n with
    | zero => cases h
    | succ n =>
      rw [rule_argRule] at h
      cases h
      trivial

/-- After `f(x=1){e==1}`, the rule `f(x=1){e==1}` gives the report that it gives at first. -/
theorem interpreterExecute_history_argRule : ∃ ret interp,
    interpreterExecute exampleEngine 1 exampleWorld argRule () newInterp = .ok (ret, interp) ∧
    reportOf (interpreterExecute exampleEngine 1 exampleWorld argRule () interp) =
      reportOf (interpreterExecute exampleEngine 1 exampleWorld argRule () newInterp) := by
  have hnew : History exampleEngine (Contained exampleEngine) newInterp := .create _
  have href := interpreterExecute_refines hnew.ungrown contained_argRule 1 exampleWorld
  rw [rule_argRule] at href
  obtain ⟨⟨ret, interp⟩, he⟩ := href.exists_ok
  exact ⟨ret, interp, he, interpreterExecute_history
    (hnew.execute 1 exampleWorld contained_argRule he) hnew contained_argRule 1 _ _⟩

/-- `f{e==1}` holds in a new interpreter. After `f(x=1){e==1}` its node is the one that this rule
has used for `f`, which still counts an argument, and the rule is refused. -/
theorem interpreterExecute_recycled : ∃ interp,
    History exampleEngine (fun _ _ => True) interp ∧
    History exampleEngine (fun _ _ => True) newInterp ∧
    reportOf (interpreterExecute exampleEngine 1 exampleWorld braceRule () interp) =
      .ok ⟨retDead, einval, some []⟩ ∧
    reportOf (interpreterExecute exampleEngine 1 exampleWorld braceRule () newInterp) =
      .ok ⟨1, lreRetOk, some []⟩ := by
  have hnew : History exampleEngine (fun _ _ => True) newInterp := .create _
  have hrun : ((interpreterExecute exampleEngine 1 exampleWorld argRule () newInterp).bind fun p =>
      reportOf (interpreterExecute exampleEngine 1 exampleWorld braceRule () p.2)) =
        .ok ⟨retDead, einval, some []⟩ := by decide +kernel
  have hfirst : reportOf (interpreterExecute exampleEngine 1 exampleWorld braceRule () newInterp) =
      .ok ⟨1, lreRetOk, some []⟩ := by decide +kernel
  obtain ⟨⟨ret, interp⟩, he, hsecond⟩ := except_bind_inv hrun
  exact ⟨interp, hnew.execute 1 exampleWorld trivial he, hnew, hsecond, hfirst⟩

/-! ## Executions consist of the operations of `Reached` -/

theorem Buffer.writeAll_alloc (b : Buffer) (off : ℕ) (w : Word) :
    (b.writeAll off w).alloc = b.alloc := by
  induction w generalizing b off with
  | nil => rfl
  | cons c w ih => exact ih _ _

theorem Reached.writeOutbuf (h : Reached interp) {b : Buffer} (hsize : b.size = interp.outbuf.size)
    (halloc : b.alloc = interp.outbuf.alloc) : Reached { interp with outbuf := b } := by
  obtain ⟨mem, size, alloc, top⟩ := b
  cases hsize
  cases halloc
  exact h.run interp.syntaxMpool mem top interp.results interp.errcode

theorem Reached.writeUnit {out : OutContext} (h : Reached { interp with outbuf := out.outbuf })
    (str : Word) : Reached { interp with outbuf := (writeUnit str out).outbuf } :=
  h.writeOutbuf (by simp only [Lre.writeUnit, Buffer.putString, Buffer.store, Buffer.writeAll_size])
    (by simp only [Lre.writeUnit, Buffer.putString, Buffer.store, Buffer.writeAll_alloc])

theorem Reached.execOutputCb {out : OutContext} (h : Reached { interp with outbuf := out.outbuf })
    (realloc : Option Memory) (str : Word) :
    Reached { interp with outbuf := (execOutputCb realloc str out).outbuf } := by
  rw [Lre.execOutputCb]
  split
  · cases he : interpExpands outbufSizeMax realloc out.outbuf with
    | none => exact h
    | some b =>
      have hgrown : interpExpandsOutbuf realloc { interp with outbuf := out.outbuf } =
          some { interp with outbuf := b } := by rw [interpExpandsOutbuf, he]; rfl
      exact (h.expandsOutbuf realloc hgrown).writeUnit str
  · exact h.writeUnit str

theorem Reached.execOutputs (h : Reached interp) (reallocs : ℕ → Option Memory)
    (strs : List Word) : Reached { interp with
      outbuf := (execOutputs reallocs strs (.init interp.outbuf)).outbuf } := by
  induction strs with
  | nil => exact h
  | cons str strs ih => exact ih.execOutputCb _ _

theorem Reached.executeEnd {interp' : Interp Mempool} {ret r : ℤ} (h : Reached interp)
    (he : (.ok (executeEnd ret interp) : Except ExecuteFault _) = .ok (r, interp')) :
    Reached interp' := by
  have hrun : ∀ results errcode : ℤ, Reached { interp with results, errcode } :=
    h.run interp.syntaxMpool interp.outbuf.mem interp.outbuf.top
  rw [Lre.executeEnd] at he
  split at he <;> cases he <;> exact hrun _ _

theorem Reached.lexerRound {interp' : Interp Mempool} {r : Except ℤ (List Token)}
    (h : Reached interp) {realloc : Option Memory}
    (he : lexerRound realloc interp = .ok (r, interp')) : Reached interp' := by
  rw [Lre.lexerRound] at he
  split at he
  · cases he
  · dsimp only at he
    split at he
    · split at he <;> cases he <;> exact h.lex _ _
    · cases he

theorem Reached.executeLoop {interp' : Interp Mempool} {r : Except ℤ (List Token)}
    {tbl : MacroTable} {w : World} {n : ℕ} (h : Reached interp)
    (he : executeLoop tbl w n interp = .ok (r, interp')) : Reached interp' := by
  induction n generalizing interp with
  | zero => cases he
  | succ n ih =>
    rw [Lre.executeLoop] at he
    split at he
    · cases he
    · rename_i heq
      cases he
      exact h.lexerRound heq
    · rename_i interp₁ heq
      have h₁ := h.lexerRound heq
      split at he
      · cases he
        exact h₁
      · cases he
        exact h₁
      · split at he <;> rename_i hload
        · exact ih (h₁.load .reload _ _ (congrArg Except.ok hload)) he
        · cases he
          exact h₁.load .reload _ _ (congrArg Except.ok hload)

end Lre
