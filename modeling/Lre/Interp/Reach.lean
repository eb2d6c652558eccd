import Lre.Interp.Load
import Lre.Lexer.Memory

/-!
# The lexer in every run

* `Reached`: the states of an interpreter between the operations of `interpreter_execute`, after
  any operations in any order.
* `Reached.sized`: the sizes in these states. The token array never grows.
* **`interpLexerAnalysis_inBounds_iff`**: the growth of the token array is behind a `continue` and
  the word area is never tested, so the writes of the lexer stay inside the buffers exactly for
  the codes that need less tokens and less space than there is.
-/

namespace Lre

open CString

variable {π : Type}

/-- The states of an interpreter between the operations of `interpreter_execute`. -/
inductive Reached : Interp π → Prop
  | create (heap : Fin 4 → Memory) (pool : π) : Reached (interpreterCreate heap pool)
  | load {interp interp' : Interp π} {ret : ℤ} (call : LoadCall) (realloc : Option Memory)
      (code : Word) (h : Reached interp)
      (hl : interpLoad call realloc code interp = .ok (ret, interp')) : Reached interp'
  | lex {interp : Interp π} (realloc : Option Memory) (code : Word) (h : Reached interp) :
      Reached { interp with workmem := (interpLexerAnalysis realloc code interp).2.workmem }
  | expandsOutbuf {interp interp' : Interp π} (realloc : Option Memory) (h : Reached interp)
      (he : interpExpandsOutbuf realloc interp = some interp') : Reached interp'
  /-- parsing, semantic analysis and execution: nodes, details and registers -/
  | run {interp : Interp π} (pool : π) (details : Memory) (top : ℕ) (results errcode : ℤ)
      (h : Reached interp) :
      Reached { interp with
        syntaxMpool := pool
        outbuf := { interp.outbuf with mem := details, top := top }
        results := results
        errcode := errcode }

/-- The sizes that the buffers of an interpreter can have. -/
structure Interp.Sized (interp : Interp π) : Prop where
  codebuf : interp.codebuf.Sized defaultCodebufSize
  workmem : interp.workmem.Sized defaultWorkmemSize
  stackbuf : interp.stackbuf.size = defaultStacksSize
  outbuf : interp.outbuf.Sized defaultOutbufSize

/-- A load clears all buffers and grows no other than the code buffer. -/
theorem interpLoad_frame {call : LoadCall} {realloc : Option Memory} {code : Word}
    {interp interp' : Interp π} {ret : ℤ}
    (hl : interpLoad call realloc code interp = .ok (ret, interp')) :
    interp'.workmem = interp.workmem.clear ∧ interp'.stackbuf = interp.stackbuf.clear ∧
      interp'.outbuf = interp.outbuf.clear := by
  have hcode : ∀ i : Interp π, (interpLoadCode realloc code i).2.workmem = i.workmem ∧
      (interpLoadCode realloc code i).2.stackbuf = i.stackbuf ∧
        (interpLoadCode realloc code i).2.outbuf = i.outbuf := by
    intro i
    unfold interpLoadCode
    dsimp only
    split
    · cases he : interpExpandsCodebuf realloc i with
      | none => exact ⟨rfl, rfl, rfl⟩
      | some i' =>
        obtain ⟨b, -, rfl⟩ := Option.map_eq_some_iff.mp he
        exact ⟨rfl, rfl, rfl⟩
    · exact ⟨rfl, rfl, rfl⟩
  rw [← interpLoad_state hl]
  exact hcode (interpContextInit interp)

theorem lexerReadToken_size {n : ℕ} {ctx : LexContext} (hn : ctx.codeptr.length < n) :
    (lexerReadToken n ctx).2.workmem.size = ctx.workmem.size := by
  rw [(lexerReadToken_finished hn).workmem]
  cases hend : (lex ctx.codeptr).2 with
  | unterminated w => rw [Buffer.putEnd, Buffer.writeAll_size, Buffer.putTokens_size]
  | _ => exact Buffer.putTokens_size ..

/-- The analysis keeps the size of the word area, or grows it once. -/
theorem interpLexerAnalysis_size (realloc : Option Memory) (code : Word) (interp : Interp π) :
    (interpLexerAnalysis realloc code interp).2.workmem.size = interp.workmem.size ∨
      ∃ b, interpExpands workmemSizeMax realloc interp.workmem = some b ∧
        (interpLexerAnalysis realloc code interp).2.workmem.size = b.size := by
  have hsize : ∀ i : Interp π,
      (lexerReadToken (code.length + 1) (.init code i)).2.workmem.size = i.workmem.size :=
    fun i => @lexerReadToken_size _ (.init code i) (Nat.lt_succ_self _)
  unfold interpLexerAnalysis
  split
  · cases he : interpExpandsWorkmem realloc interp with
    | none => exact .inl rfl
    | some interp' =>
      obtain ⟨b, hb, rfl⟩ := Option.map_eq_some_iff.mp he
      exact .inr ⟨b, hb, hsize _⟩
  · exact .inl (hsize interp)

theorem interpLexerAnalysis_sized {realloc : Option Memory} {code : Word} {interp : Interp π}
    (h : interp.workmem.Sized defaultWorkmemSize) :
    (interpLexerAnalysis realloc code interp).2.workmem.Sized defaultWorkmemSize := by
  obtain hsize | ⟨b, hb, hsize⟩ := interpLexerAnalysis_size realloc code interp
  · rw [Buffer.Sized] at h ⊢
    rwa [hsize]
  · have hgrown : b.Sized defaultWorkmemSize := interpExpands_sized h hb
    rw [Buffer.Sized] at hgrown ⊢
    rwa [hsize]

/-- **The sizes of the buffers in every run.** -/
theorem Reached.sized {interp : Interp π} (h : Reached interp) : interp.Sized := by
  induction h with
  | create => exact ⟨.inl rfl, .inl rfl, rfl, .inl rfl⟩
  | load _ _ _ _ hl ih =>
    obtain ⟨hw, hs, ho⟩ := interpLoad_frame hl
    exact ⟨interpLoad_sized ih.codebuf hl, by rw [hw]; exact ih.workmem,
      by rw [hs]; exact ih.stackbuf, by rw [ho]; exact ih.outbuf⟩
  | lex _ _ _ ih =>
    exact ⟨ih.codebuf, interpLexerAnalysis_sized ih.workmem, ih.stackbuf, ih.outbuf⟩
  | expandsOutbuf _ _ he ih =>
    obtain ⟨b, hb, rfl⟩ := Option.map_eq_some_iff.mp he
    exact ⟨ih.codebuf, ih.workmem, ih.stackbuf, interpExpands_sized ih.outbuf hb⟩
  | run _ _ _ _ _ _ ih => exact ⟨ih.codebuf, ih.workmem, ih.stackbuf, ih.outbuf⟩

variable {interp interp' : Interp π} {call : LoadCall} {realloc : Option Memory} {code : Word}

/-- **After any load in any run, the writes of the lexer stay inside the buffers exactly when it
refuses the code or the code needs less tokens and less space than there is.** -/
theorem interpLexerAnalysis_inBounds_iff (h : Reached interp) {loaded : Word}
    (hl : interpLoad call realloc loaded interp = .ok (0, interp')) (grow : Option Memory) :
    (interpLexerAnalysis grow code interp').2.InBounds ↔ WorkmemRefused grow interp' ∨
      (lex code).1.length < interp'.stackbuf.size / sizeofLexToken ∧
        lexSpace code < analysisWmemsize interp' := by
  have hsized := (Reached.load call realloc loaded h hl).sized.workmem
  have hclear := (interpLoad_frame hl).1
  have hpos : 0 < interp'.workmem.size := by
    simp only [Buffer.Sized, defaultWorkmemSize] at hsized
    omega
  exact analysis_inBounds_iff (by rw [hclear]; rfl) hpos grow code

/-! ## Many tokens -/

theorem lex_parentheses (n : ℕ) : lex (List.replicate n '(') =
    (List.replicate n (.symbol .startParenthesis), .eof) := by
  induction n with
  | zero => rfl
  | succ n ih =>
    have hs : scan (List.replicate (n + 1) '(') =
        .token (.symbol .startParenthesis) (List.replicate n '(') := rfl
    rw [lex_eq, hs]
    dsimp only
    rw [ih]
    rfl

/-- 341 opening parentheses fill the token array of a new interpreter; the slot behind its end is
written as well. -/
theorem interpLexerAnalysis_parentheses : ∃ interp : Interp Unit,
    interpLoad .create none (List.replicate 341 '(') (interpreterCreate (fun _ _ => nul) ()) =
      .ok (0, interp) ∧ HoldsAt interp.codebuf.mem 0 (List.replicate 341 '(') ∧
    ¬(interpLexerAnalysis none (List.replicate 341 '(') interp).2.InBounds := by
  have hnul : nul ∉ List.replicate 341 '(' := fun h =>
    absurd (List.eq_of_mem_replicate h) (by decide)
  obtain ⟨hload, hheld⟩ := @interpLoad_of_length_lt _ none _
    (interpreterCreate (fun _ _ => nul) ()) hnul (by decide)
    (by rw [List.length_replicate]; decide) .create
  refine ⟨_, hload, hheld.1, ?_⟩
  rw [analysis_inBounds_iff rfl (by decide), lex_parentheses, List.length_replicate]
  rintro (⟨hgrow, -⟩ | ⟨hlt, -⟩)
  · exact absurd hgrow (by decide)
  · exact absurd hlt (by decide)

/-- The code `a` in a new interpreter. -/
theorem interpLexerAnalysis_single :
    (interpLexerAnalysis none ['a']
      ((interpreterCreate (fun _ _ => nul) ()).loaded ['a'])).2.InBounds :=
  (interpLexerAnalysis_inBounds_iff (.create (fun _ _ => nul) ())
    (@interpLoad_of_length_lt _ none _ _ (by decide) (by decide) (by decide) .create).1
    none).mpr (.inr ⟨by decide, by decide⟩)

end Lre
