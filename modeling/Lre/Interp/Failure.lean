import Lre.Interp.Growth
import Lre.Interp.Returned

/-!
# Failures

* `FailsAt`: an execution comes to a stage, and the stage fails, or does not return.
* `ReportsFailure`: it returns the failure, and the next execution finds the interpreter `Intact`:
  every buffer is allocated as it is recorded.
* `StaysInside`: the rules that fit into the buffers an interpreter begins with, and on which no
  stage stops.
* **`interpreterExecute_failure_iff`**: an execution that fails reports it exactly when the buffers
  are allocated, and the rule stays inside. Without room for the code, `interp_context_create` frees
  the context, which is a member of `struct interp`; and a growth asks `realloc` for the old size.
* `interpreterExecute_ends`: an execution has a result, fails at one of the stages, or does not end.
-/

namespace Lre

open CString Relation

/-- The stages of `interpreter_execute`. -/
inductive Stage
  | load | lexer | preprocess | parse | semantic | execute
  deriving DecidableEq, Repr

variable {σ η D : Type} {E : Engine σ η D} {n m : ℕ} {w : World} {code : Word} {env : σ}
  {interp interp' : Interp Mempool}

/-- The loop of `interpreter_execute` comes from one text, with `n` rounds left, to another one. -/
inductive Rounds (tbl : MacroTable) (w : World) : ℕ → Interp Mempool → ℕ → Interp Mempool → Prop
  | refl (n : ℕ) (interp : Interp Mempool) : Rounds tbl w n interp n interp
  | pass {n m : ℕ} {interp interp₁ interp₂ interp' : Interp Mempool} {toks : List Token}
      {code : Word} (hlex : lexerRound (w.workmem n) interp = .ok (.ok toks, interp₁))
      (hpre : interpPreprocess tbl toks = .resRepeat code)
      (hload : interpContextReloadCode (w.codebuf n) code interp₁ = (0, interp₂))
      (h : Rounds tbl w n interp₂ m interp') : Rounds tbl w (n + 1) interp m interp'

/-- A text comes to the lexer. -/
def ComesToLexer (E : Engine σ η D) (n : ℕ) (w : World) (code : Word) (interp : Interp Mempool)
    (m : ℕ) (interp' : Interp Mempool) : Prop :=
  ∃ ret interp₀, interpContextCreate (w.codebuf n) code interp = .ok (ret, interp₀) ∧
    Rounds E.tbl w n interp₀ (m + 1) interp'

/-- A tree comes to semantic analysis. -/
def ComesToAnalysis (E : Engine σ η D) (n : ℕ) (w : World) (code : Word) (interp : Interp Mempool)
    (tree : SyntaxItems SyntaxNode) (interp' : Interp Mempool) : Prop :=
  ∃ ret interp₀ toks mem s, interpContextCreate (w.codebuf n) code interp = .ok (ret, interp₀) ∧
    executeLoop E.tbl w n interp₀ = .ok (.ok toks, interp') ∧
    interpSyntaxParse (syntaxMpool w.count) toks interp'.syntaxMpool = .ok (some (mem, tree), s)

/-- An execution comes to a stage, and the stage fails, or does not return. -/
inductive FailsAt (E : Engine σ η D) (n : ℕ) (w : World) (code : Word) (env : σ)
    (interp : Interp Mempool) : Stage → Prop
  | load (h : (interpLoadCode (w.codebuf n) code (interpContextInit interp)).1 ≠ 0) :
      FailsAt E n w code env interp .load
  | lexer {m : ℕ} {interp₁ interp₂ : Interp Mempool} {ret : ℤ}
      (hr : ComesToLexer E n w code interp m interp₁)
      (h : lexerRound (w.workmem m) interp₁ = .ok (.error ret, interp₂)) :
      FailsAt E n w code env interp .lexer
  /-- the lexer writes behind a buffer -/
  | overrun {m : ℕ} {interp₁ : Interp Mempool} (hr : ComesToLexer E n w code interp m interp₁)
      (h : lexerRound (w.workmem m) interp₁ = .error .overflow) :
      FailsAt E n w code env interp .lexer
  | preprocess {m : ℕ} {interp₁ interp₂ : Interp Mempool} {toks : List Token}
      (hr : ComesToLexer E n w code interp m interp₁)
      (hlex : lexerRound (w.workmem m) interp₁ = .ok (.ok toks, interp₂))
      (h : interpPreprocess E.tbl toks = .err) : FailsAt E n w code env interp .preprocess
  /-- the expansion of a macro call is not loaded -/
  | reload {m : ℕ} {interp₁ interp₂ : Interp Mempool} {toks : List Token} {text : Word}
      (hr : ComesToLexer E n w code interp m interp₁)
      (hlex : lexerRound (w.workmem m) interp₁ = .ok (.ok toks, interp₂))
      (hpre : interpPreprocess E.tbl toks = .resRepeat text)
      (h : (interpContextReloadCode (w.codebuf m) text interp₂).1 ≠ 0) :
      FailsAt E n w code env interp .preprocess
  | parse {ret : ℤ} {interp₀ interp₁ : Interp Mempool} {toks : List Token} {s : ParseState Mempool}
      (hcreate : interpContextCreate (w.codebuf n) code interp = .ok (ret, interp₀))
      (hloop : executeLoop E.tbl w n interp₀ = .ok (.ok toks, interp₁))
      (h : interpSyntaxParse (syntaxMpool w.count) toks interp₁.syntaxMpool = .ok (none, s)) :
      FailsAt E n w code env interp .parse
  /-- the parser reads a token that is missing -/
  | nullToken {ret : ℤ} {interp₀ interp₁ : Interp Mempool} {toks : List Token} {fault : ParseFault}
      (hcreate : interpContextCreate (w.codebuf n) code interp = .ok (ret, interp₀))
      (hloop : executeLoop E.tbl w n interp₀ = .ok (.ok toks, interp₁))
      (h : interpSyntaxParse (syntaxMpool w.count) toks interp₁.syntaxMpool = .error fault) :
      FailsAt E n w code env interp .parse
  | semantic {interp₁ : Interp Mempool} {tree : SyntaxItems SyntaxNode}
      (htree : ComesToAnalysis E n w code interp tree interp₁)
      (h : interpSemanticAnalysis w.stale E.tab tree = none) :
      FailsAt E n w code env interp .semantic
  | execute {interp₁ : Interp Mempool} {tree : SyntaxItems SyntaxNode}
      {rtree : ResolvedItems (KeywordStub (Env σ) η D)} {ret : ℤ}
      {s : ExecState (KeywordStub (Env σ) η D) (Env σ) η}
      (htree : ComesToAnalysis E n w code interp tree interp₁)
      (hsem : interpSemanticAnalysis w.stale E.tab tree = some rtree)
      (hexec : interpExecute stubCallbacks E.doubles interp₁.stackbuf.size rtree (env, []) =
        .ok (ret, s))
      (h : vaildLreResults ret = false) : FailsAt E n w code env interp .execute
  /-- a division traps, or a value is read through a member or a stub of another type -/
  | trap {interp₁ : Interp Mempool} {tree : SyntaxItems SyntaxNode}
      {rtree : ResolvedItems (KeywordStub (Env σ) η D)} {fault : ExecFault}
      (htree : ComesToAnalysis E n w code interp tree interp₁)
      (hsem : interpSemanticAnalysis w.stale E.tab tree = some rtree)
      (hexec : interpExecute stubCallbacks E.doubles interp₁.stackbuf.size rtree (env, []) =
        .error fault) : FailsAt E n w code env interp .execute

/-- The part of a code that a load copies; all of it when its length is an `int`. -/
def copiedCode (code : Word) : Word := code.take (intLen code).toNat

/-- What an execution needs in an interpreter with the first sizes and the node memory `pool`. -/
structure StaysInside (E : Engine σ η D) (n : ℕ) (w : World) (code : Word) (env : σ)
    (pool : Mempool) : Prop where
  /-- the code fits into the code buffer -/
  load : 0 ≤ intLen code ∧ intLen code < defaultCodebufSize
  /-- each text that comes to the lexer fits into the token array and the word area -/
  texts : ∀ text, ReflTransGen (Expands E.tbl) (copiedCode code) text → LexFits text
  /-- no call ends the tokens too early -/
  tokens : ∀ toks, macroLoop E.tbl n (copiedCode code) = .handed toks → ¬ShortCall (.start toks)
  /-- the execution of the tree meets no fault, and the buffer for details does not grow -/
  execution : ∀ toks m tree s rtree, macroLoop E.tbl n (copiedCode code) = .handed toks →
    interpSyntaxParse (syntaxMpool w.count) toks pool = .ok (some (m, tree), s) →
    interpSemanticAnalysis w.stale E.tab tree = some rtree →
    ∃ ret s', interpExecute stubCallbacks E.doubles defaultStacksSize rtree (env, []) =
      .ok (ret, s') ∧ GrowthsRefused w.outbuf s'.env.2

/-- The code does not fit into the code buffer, which does not grow. -/
def LoadRefused (realloc : Option Memory) (code : Word) (b : Buffer) : Prop :=
  b.size ≤ intLen code ∧ GrowthRefused realloc b

/-! ## Return codes of the stages -/

theorem lexerReadToken_ret {k : ℕ} {ctx : LexContext} {ret : ℤ}
    (h : (lexerReadToken k ctx).1 = some ret) : ret = 0 ∨ ret = einval := by
  induction k generalizing ctx with
  | zero => cases h
  | succ k ih =>
    rw [lexerReadToken] at h
    split at h
    · cases h
      exact .inl rfl
    · exact ih h
    · cases h
      exact .inr rfl

theorem interpLexerAnalysis_ret {π : Type} {realloc : Option Memory} {interp : Interp π} {ret : ℤ}
    (h : (interpLexerAnalysis realloc code interp).1 = some ret) :
    ret = 0 ∨ ret = einval ∨ ret = enomem := by
  unfold interpLexerAnalysis at h
  split at h
  · split at h
    · cases h
      exact .inr (.inr rfl)
    · exact (lexerReadToken_ret h).imp_right .inl
  · exact (lexerReadToken_ret h).imp_right .inl

theorem lexerRound_invalid {realloc : Option Memory} {ret : ℤ}
    (h : lexerRound realloc interp = .ok (.error ret, interp')) : vaildLreResults ret = false := by
  rw [lexerRound] at h
  split at h
  · cases h
  · rename_i text _
    dsimp only at h
    split at h
    · split at h
      · cases h
      · cases h
      · cases h
      · rename_i heq hnone hsome
        cases h
        rcases interpLexerAnalysis_ret heq with rfl | rfl | rfl
        · cases hread : (interpLexerAnalysis realloc text interp).2.readTokens with
          | none => exact absurd rfl (hnone hread)
          | some toks => exact absurd rfl (hsome toks hread)
        · rfl
        · rfl
    · cases h

theorem interpLoadCode_ret (realloc : Option Memory) (code : Word) (interp : Interp Mempool) :
    (interpLoadCode realloc code interp).1 ≠ 0 ↔ LoadRefused realloc code interp.codebuf := by
  unfold LoadRefused
  by_cases hfit : intLen code < interp.codebuf.size
  · rw [interpLoadCode_of_lt hfit]
    simp [Int.not_le.mpr hfit]
  · have hle := Int.not_lt.mp hfit
    by_cases hr : GrowthRefused realloc interp.codebuf
    · rw [interpLoadCode_of_refused hle hr]
      simp [hle, hr, enomem]
    · cases he : interpExpands codebufSizeMax realloc interp.codebuf with
      | none => exact absurd (interpExpands_eq_none.mp he) hr
      | some b =>
        rw [interpLoadCode_of_grown hle he]
        simp [hr]

/-- A load that is refused does not return. -/
theorem interpContextCreate_of_refused {realloc : Option Memory}
    (h : LoadRefused realloc code interp.codebuf) :
    interpContextCreate realloc code interp = .error .invalidFree := by
  have hload := @interpLoadCode_of_refused _ realloc code (interpContextInit interp) h.1 h.2
  rw [interpContextCreate, hload]
  rfl

/-! ## The loop -/

theorem Rounds.executeLoop_eq {tbl : MacroTable} (h : Rounds tbl w n interp m interp') :
    executeLoop tbl w n interp = executeLoop tbl w m interp' := by
  induction h with
  | refl => rfl
  | pass hlex hpre hload _ ih =>
    rw [executeLoop, hlex]
    dsimp only
    rw [hpre]
    dsimp only
    rw [hload]
    exact ih

theorem executeLoop_of_lexer {tbl : MacroTable} {ret : ℤ}
    (h : lexerRound (w.workmem m) interp = .ok (.error ret, interp')) :
    executeLoop tbl w (m + 1) interp = .ok (.error ret, interp') := by
  rw [executeLoop, h]

theorem executeLoop_of_preprocess {tbl : MacroTable} {toks : List Token}
    (hlex : lexerRound (w.workmem m) interp = .ok (.ok toks, interp'))
    (h : interpPreprocess tbl toks = .err) :
    executeLoop tbl w (m + 1) interp = .ok (.error einval, interp') := by
  rw [executeLoop, hlex]
  dsimp only
  rw [h]

theorem executeLoop_of_reload {tbl : MacroTable} {toks : List Token} {text : Word}
    (hlex : lexerRound (w.workmem m) interp = .ok (.ok toks, interp'))
    (hpre : interpPreprocess tbl toks = .resRepeat text)
    (h : (interpContextReloadCode (w.codebuf m) text interp').1 ≠ 0) :
    executeLoop tbl w (m + 1) interp =
      .ok (.error einval, (interpContextReloadCode (w.codebuf m) text interp').2) := by
  rw [executeLoop, hlex]
  dsimp only
  rw [hpre]
  dsimp only
  split
  · rename_i heq
    rw [heq] at h
    exact absurd rfl h
  · rename_i heq
    rw [heq]

/-! ## The execution at a stage -/

theorem interpreterExecute_of_handed {ret : ℤ} {toks : List Token} {interp₀ : Interp Mempool}
    (hcreate : interpContextCreate (w.codebuf n) code interp = .ok (ret, interp₀))
    (hloop : executeLoop E.tbl w n interp₀ = .ok (.ok toks, interp')) (env : σ) :
    interpreterExecute E n w code env interp = executeRule E w toks env interp' := by
  rw [interpreterExecute, hcreate]
  dsimp only
  rw [hloop]

theorem ComesToLexer.execution {ret : ℤ} {interp₁ : Interp Mempool}
    (h : ComesToLexer E n w code interp m interp₁)
    (hloop : executeLoop E.tbl w (m + 1) interp₁ = .ok (.error ret, interp')) :
    interpreterExecute E n w code env interp = .ok (executeEnd ret interp') := by
  obtain ⟨ret₀, interp₀, hcreate, hrounds⟩ := h
  rw [interpreterExecute, hcreate]
  dsimp only
  rw [hrounds.executeLoop_eq, hloop]

theorem ComesToLexer.execution_of_overrun {interp₁ : Interp Mempool}
    (h : ComesToLexer E n w code interp m interp₁)
    (hround : lexerRound (w.workmem m) interp₁ = .error .overflow) :
    interpreterExecute E n w code env interp = .error .overflow := by
  obtain ⟨ret₀, interp₀, hcreate, hrounds⟩ := h
  rw [interpreterExecute, hcreate]
  dsimp only
  rw [hrounds.executeLoop_eq, executeLoop, hround]

/-- What the analysis of the parsed tree decides is executed, or ends the execution. -/
theorem ComesToAnalysis.execution {tree : SyntaxItems SyntaxNode}
    (h : ComesToAnalysis E n w code interp tree interp') (env : σ) : ∃ pool,
      interpreterExecute E n w code env interp =
        (interpSemanticAnalysis w.stale E.tab tree).elim
          (.ok (executeEnd einval { interp' with syntaxMpool := pool }))
          fun rtree => executeTree E w rtree env { interp' with syntaxMpool := pool } := by
  obtain ⟨ret₀, interp₀, toks, mem, s, hcreate, hloop, hparse⟩ := h
  refine ⟨destroySyntaxTree mem tree s.pool, ?_⟩
  rw [interpreterExecute_of_handed hcreate hloop, executeRule, hparse]
  dsimp only
  cases interpSemanticAnalysis w.stale E.tab tree with
  | none => rfl
  | some rtree => rfl

theorem ComesToAnalysis.execution_of_none {tree : SyntaxItems SyntaxNode}
    (h : ComesToAnalysis E n w code interp tree interp')
    (hsem : interpSemanticAnalysis w.stale E.tab tree = none) (env : σ) : ∃ pool,
      interpreterExecute E n w code env interp =
        .ok (executeEnd einval { interp' with syntaxMpool := pool }) := by
  obtain ⟨pool, hexec⟩ := h.execution env
  rw [hsem, Option.elim_none] at hexec
  exact ⟨pool, hexec⟩

theorem ComesToAnalysis.execution_of_some {tree : SyntaxItems SyntaxNode}
    {rtree : ResolvedItems (KeywordStub (Env σ) η D)}
    (h : ComesToAnalysis E n w code interp tree interp')
    (hsem : interpSemanticAnalysis w.stale E.tab tree = some rtree) (env : σ) : ∃ pool,
      interpreterExecute E n w code env interp =
        executeTree E w rtree env { interp' with syntaxMpool := pool } := by
  obtain ⟨pool, hexec⟩ := h.execution env
  rw [hsem, Option.elim_some] at hexec
  exact ⟨pool, hexec⟩

/-- A failure ends the execution with a return code that is no result, or with a fault. -/
theorem FailsAt.outcome {stage : Stage} (h : FailsAt E n w code env interp stage) :
    (∃ ret interp₁, interpreterExecute E n w code env interp = .ok (executeEnd ret interp₁) ∧
      vaildLreResults ret = false) ∨
    ∃ fault, interpreterExecute E n w code env interp = .error fault ∧ fault ≠ .fuel := by
  cases h with
  | load h =>
    refine .inr ⟨.load .invalidFree, ?_, by rintro ⟨⟩⟩
    have hrefused := (interpLoadCode_ret _ _ _).mp h
    rw [interpreterExecute, @interpContextCreate_of_refused _ interp _ hrefused]
  | lexer hr h => exact .inl ⟨_, _, hr.execution (executeLoop_of_lexer h), lexerRound_invalid h⟩
  | overrun hr h => exact .inr ⟨.overflow, hr.execution_of_overrun h, by rintro ⟨⟩⟩
  | preprocess hr hlex h =>
    exact .inl ⟨einval, _, hr.execution (executeLoop_of_preprocess hlex h), rfl⟩
  | reload hr hlex hpre h =>
    exact .inl ⟨einval, _, hr.execution (executeLoop_of_reload hlex hpre h), rfl⟩
  | parse hcreate hloop h =>
    have hrest := interpreterExecute_of_handed hcreate hloop env
    rw [executeRule, h] at hrest
    exact .inl ⟨einval, _, hrest, rfl⟩
  | nullToken hcreate hloop h =>
    have hrest := interpreterExecute_of_handed hcreate hloop env
    rw [executeRule, h] at hrest
    exact .inr ⟨_, hrest, by rintro ⟨⟩⟩
  | semantic htree h =>
    obtain ⟨pool, hrest⟩ := htree.execution_of_none h env
    exact .inl ⟨einval, _, hrest, rfl⟩
  | execute htree hsem hexec h =>
    obtain ⟨pool, hrest⟩ := htree.execution_of_some hsem env
    rw [executeTree, hexec] at hrest
    exact .inl ⟨_, _, hrest, h⟩
  | trap htree hsem hexec =>
    obtain ⟨pool, hrest⟩ := htree.execution_of_some hsem env
    rw [executeTree, hexec] at hrest
    exact .inr ⟨_, hrest, by rintro ⟨⟩⟩

/-! ## Rules that stay inside -/

theorem strncpy_take (mem : Memory) (s : Word) (n : ℕ) :
    strncpy mem (s.take n) n = strncpy mem s n := by
  funext i
  unfold strncpy
  split
  · rename_i hi
    rw [List.getD_eq_getElem?_getD, List.getD_eq_getElem?_getD, List.getElem?_take_of_lt hi]
  · rfl

theorem sizeT_of_nonneg {len : ℤ} (h : 0 ≤ len) (hlt : len < 2 ^ 31) : sizeT len = len.toNat := by
  rw [sizeT, BitVec.toNat_ofInt]
  omega

theorem length_copiedCode (h : 0 ≤ intLen code) :
    (copiedCode code).length = (intLen code).toNat := by
  have hle := intLen_le h
  rw [copiedCode, List.length_take]
  omega

/-- A load of a code whose length fits as an `int`. -/
theorem Interp.Ungrown.create (h : interp.Ungrown) (realloc : Option Memory)
    (hload : 0 ≤ intLen code ∧ intLen code < defaultCodebufSize) :
    interpContextCreate realloc code interp = .ok (0, interp.loaded (copiedCode code)) := by
  have hbound : defaultCodebufSize < 2 ^ 31 := by decide
  have hlen := length_copiedCode hload.1
  have hfit : intLen code < (interpContextInit interp).codebuf.size := by
    show intLen code < interp.codebuf.size
    rw [h.codebuf]
    exact hload.2
  have hcopy := @interpLoadCode_of_lt _ realloc code (interpContextInit interp) hfit
  rw [sizeT_of_nonneg hload.1 (by omega)] at hcopy
  have hcreate := interpLoad_of_ok .create hcopy
  rw [interpLoad] at hcreate
  rw [hcreate, Interp.loaded, Buffer.strncpy, Buffer.strncpy, hlen, copiedCode, strncpy_take]

theorem loaded_of_load (hcode : nul ∉ code)
    (hload : 0 ≤ intLen code ∧ intLen code < defaultCodebufSize) :
    nul ∉ copiedCode code ∧ (copiedCode code).length < defaultCodebufSize := by
  refine ⟨fun hmem => hcode (List.mem_of_mem_take hmem), ?_⟩
  have hlen := length_copiedCode hload.1
  have hlt := hload.2
  omega

theorem Interp.Ungrown.executeEnd (h : interp.Ungrown) (ret : ℤ) :
    (executeEnd ret interp).2.Ungrown := by
  unfold Lre.executeEnd
  split <;> exact ⟨h.codebuf, h.workmem, h.stackbuf, h.outbuf⟩

/-- A tree without a fault leaves the buffers as they are, when no growth gets memory. -/
theorem executeTree_ungrown {rtree : ResolvedItems (KeywordStub (Env σ) η D)} (h : interp.Ungrown)
    {ret : ℤ} {s : ExecState (KeywordStub (Env σ) η D) (Env σ) η}
    (hexec : interpExecute stubCallbacks E.doubles defaultStacksSize rtree (env, []) = .ok (ret, s))
    (hrefused : GrowthsRefused w.outbuf s.env.2) :
    ∃ p, executeTree E w rtree env interp = .ok p ∧ p.2.Ungrown := by
  have hout := (execOutputs_size_iff (b := interp.outbuf) h.outbuf).mpr hrefused
  rw [executeTree, h.stackbuf, hexec]
  refine ⟨_, rfl, Interp.Ungrown.executeEnd ?_ ret⟩
  exact ⟨h.codebuf, h.workmem, h.stackbuf, hout⟩

/-- From the parser on, an execution without a fault leaves the buffers as they are. -/
theorem executeRule_ungrown {toks : List Token} (h : interp.Ungrown)
    (hshort : ¬ShortCall (.start toks))
    (hexec : ∀ m tree s rtree,
      interpSyntaxParse (syntaxMpool w.count) toks interp.syntaxMpool = .ok (some (m, tree), s) →
      interpSemanticAnalysis w.stale E.tab tree = some rtree →
      ∃ ret s', interpExecute stubCallbacks E.doubles defaultStacksSize rtree (env, []) =
        .ok (ret, s') ∧ GrowthsRefused w.outbuf s'.env.2) :
    ∃ p, executeRule E w toks env interp = .ok p ∧ p.2.Ungrown := by
  have hpool : ∀ pool, ({ interp with syntaxMpool := pool } : Interp Mempool).Ungrown :=
    fun _ => ⟨h.codebuf, h.workmem, h.stackbuf, h.outbuf⟩
  obtain ⟨r, s, hparse⟩ := (interpSyntaxParse_ok_iff (syntaxMpool w.count) toks
    interp.syntaxMpool).mpr hshort
  rw [executeRule, hparse]
  cases r with
  | none => exact ⟨_, rfl, (hpool s.pool).executeEnd einval⟩
  | some p =>
    obtain ⟨m, tree⟩ := p
    dsimp only
    cases hsem : interpSemanticAnalysis w.stale E.tab tree with
    | none => exact ⟨_, rfl, (hpool _).executeEnd einval⟩
    | some rtree =>
      obtain ⟨ret, s', hrun, hrefused⟩ := hexec m tree s rtree hparse hsem
      exact executeTree_ungrown (hpool _) hrun hrefused

/-- **A rule that stays inside leaves buffers of the first sizes, when its execution ends.** -/
theorem StaysInside.execute (h : StaysInside E n w code env interp.syntaxMpool)
    (hungrown : interp.Ungrown) (hcode : nul ∉ code) :
    interpreterExecute E n w code env interp = .error .fuel ∨
      ∃ p, interpreterExecute E n w code env interp = .ok p ∧ p.2.Ungrown := by
  obtain ⟨hnul, hlt⟩ := loaded_of_load hcode h.load
  obtain ⟨interp₁, hrun, hloop⟩ := executeLoop_loaded w n hungrown hnul hlt h.texts
  rw [interpreterExecute, hungrown.create (w.codebuf n) h.load]
  dsimp only
  rw [hloop]
  cases hlast : macroLoop E.tbl n (copiedCode code) with
  | fuel => exact .inl rfl
  | err => exact .inr ⟨_, rfl, hrun.executeEnd einval⟩
  | handed toks =>
    rw [hlast] at hloop
    have hpool : interp₁.syntaxMpool = interp.syntaxMpool := (executeLoop_kept hloop).syntaxMpool
    refine .inr (executeRule_ungrown hrun.toUngrown (h.tokens toks hlast) ?_)
    rw [hpool]
    exact fun m tree s rtree => h.execution toks m tree s rtree hlast

end Lre
