import Lre.Interp.Buffer
import Lre.Lexer.Scan

/-!
# The lexer

`lexer.c` with its writes. `LexContext` is the part of `struct interp_context` it works on: the
rest of the code from `codeptr` on, the word area, and the tokens before `tokenidx`, which equals
`tokencnt`. `tokentop` watches the writes to the token array.

* `nextToken`, `lexerReadToken`, `interpLexerAnalysis`: the source.
* `nextToken_eq`: what `next_token` reads is what `scan` reads; a token stores its word, and its
  terminator behind a gap of one byte (`Buffer.putWord`).
* `lexerReadToken_finished`: the lexer stores the tokens of `lex` one after the other.
* `analysis_inBounds_iff`: when they stay inside the buffers.
-/

namespace Lre

open CString

/-- `struct lex_token`; `word` is an offset in the word area. -/
inductive LexToken
  | keyword (word : ℕ)
  | string (word : ℕ)
  | symbol (symbol : Sym)
  deriving DecidableEq, Repr

/-- The lexer's part of `struct interp_context`. -/
structure LexContext where
  codeptr : Word
  wordptr : ℕ
  workmem : Buffer
  tokens : List LexToken
  tokencap : ℕ
  /-- one more than the highest index of a token written -/
  tokentop : ℕ

/-- `T_OK`, `T_EOF` and `T_ERR`. -/
inductive TokenRet
  | ok | eof | err
  deriving DecidableEq, Repr

/-- The loop of `next_token` over the characters of a keyword. -/
def wordLoop (b : Buffer) (s : ℕ) : Word → Buffer × ℕ × Word
  | [] => (b, s, [])
  | c :: x => if isWordChar c then wordLoop (b.store s c) (s + 1) x else (b, s, c :: x)

/-- The loop of `next_token` over a string, behind its opening quote. -/
def quoteLoop (b : Buffer) (s : ℕ) : Word → Buffer × ℕ × Option Word
  | [] => (b, s, none)
  | c :: x =>
    if c = '"' then (b.store s c, s + 1, some x) else quoteLoop (b.store s c) (s + 1) x

/-- `next_token`. -/
def nextToken (ctx : LexContext) : TokenRet × LexContext :=
  -- `lex_token_init` writes to the slot at `tokenidx`
  let ctx := { ctx with
    codeptr := skipBlank ctx.codeptr
    tokentop := max ctx.tokentop (ctx.tokens.length + 1) }
  match ctx.codeptr with
  | [] => (.eof, ctx)
  | c :: x =>
    if isWordChar c then
      let (b, s, rest) := wordLoop ctx.workmem ctx.wordptr (c :: x)
      (.ok, { ctx with
        codeptr := rest
        wordptr := s + 1
        workmem := b.store (s + 1) nul
        tokens := ctx.tokens ++ [.keyword ctx.wordptr] })
    else if c = '"' then
      match quoteLoop (ctx.workmem.store ctx.wordptr c) (ctx.wordptr + 1) x with
      | (b, _, none) => (.err, { ctx with workmem := b })
      | (b, s, some rest) =>
        (.ok, { ctx with
          codeptr := rest
          wordptr := s + 1
          workmem := b.store (s + 1) nul
          tokens := ctx.tokens ++ [.string ctx.wordptr] })
    else
      match scanSymbol c x with
      | none => (.err, ctx)
      | some (symbol, rest) =>
        (.ok, { ctx with codeptr := rest, tokens := ctx.tokens ++ [.symbol symbol] })

/-- The loop of `lexer_read_token`, with fuel; `none` is never reached from
`interpLexerAnalysis`. -/
def lexerReadToken : ℕ → LexContext → Option ℤ × LexContext
  | 0, ctx => (none, ctx)
  | n + 1, ctx =>
    match nextToken ctx with
    | (.eof, ctx) => (some 0, ctx)
    -- the growth of the token array stands behind this `continue`
    | (.ok, ctx) => lexerReadToken n ctx
    | (.err, ctx) => (some einval, ctx)

/-- `sizeof(struct lex_token)`. -/
def sizeofLexToken : ℕ := 24

variable {π : Type}

/-- The context of a lexical analysis of the code in the buffer. -/
def LexContext.init (code : Word) (interp : Interp π) : LexContext where
  codeptr := code
  wordptr := 0
  workmem := interp.workmem
  tokens := []
  tokencap := interp.stackbuf.size / sizeofLexToken
  tokentop := 0

/-- `interp_lexer_analysis` of the C string `code` in the code buffer. -/
def interpLexerAnalysis (realloc : Option Memory) (code : Word) (interp : Interp π) :
    Option ℤ × LexContext :=
  if interp.codebuf.size > interp.workmem.size then
    match interpExpandsWorkmem realloc interp with
    | none => (some enomem, .init code interp)
    | some interp => lexerReadToken (code.length + 1) (.init code interp)
  else lexerReadToken (code.length + 1) (.init code interp)

/-! ## What a token writes -/

/-- A word with its gap and its terminator. -/
def Buffer.putWord (b : Buffer) (off : ℕ) (w : Word) : Buffer :=
  (b.writeAll off w).store (off + w.length + 1) nul

/-- What a token stores in the word area. -/
def Buffer.putToken (b : Buffer) (off : ℕ) : Token → Buffer
  | .word x => b.putWord off x.cstr
  | .symbol _ => b

/-- The bytes of the word area that a token takes. -/
def Token.space : Token → ℕ
  | .word x => x.cstr.length + 1
  | .symbol _ => 0

/-- The entry of a token whose word is stored at `off`. -/
def Token.entry (off : ℕ) : Token → LexToken
  | .word (.ident _) => .keyword off
  | .word (.quoted _) => .string off
  | .symbol s => .symbol s

/-- What a list of tokens stores. -/
def Buffer.putTokens (b : Buffer) (off : ℕ) : List Token → Buffer
  | [] => b
  | t :: ts => (b.putToken off t).putTokens (off + t.space) ts

/-- The bytes that a list of tokens takes. -/
def tokensSpace (ts : List Token) : ℕ := (ts.map Token.space).sum

theorem tokensSpace_cons (t : Token) (ts : List Token) :
    tokensSpace (t :: ts) = t.space + tokensSpace ts := by
  rw [tokensSpace, List.map_cons, List.sum_cons]
  rfl

/-- The entries of a list of tokens. -/
def tokenEntries (off : ℕ) : List Token → List LexToken
  | [] => []
  | t :: ts => t.entry off :: tokenEntries (off + t.space) ts

/-- What is stored at the end of the tokens: the beginning of a string that is not closed. -/
def Buffer.putEnd (b : Buffer) (off : ℕ) : LexEnd → Buffer
  | .unterminated w => b.writeAll off ('"' :: w)
  | _ => b

/-- How far that reaches behind its first byte. -/
def LexEnd.space : LexEnd → ℕ
  | .unterminated w => w.length
  | _ => 0

/-- The return code of the lexer. -/
def LexEnd.ret : LexEnd → Option ℤ
  | .eof => some 0
  | .fuel => none
  | _ => some einval

theorem wordLoop_eq (b : Buffer) (s : ℕ) (x : Word) : wordLoop b s x =
    (b.writeAll s (x.takeWhile isWordChar), s + (x.takeWhile isWordChar).length,
      x.dropWhile isWordChar) := by
  induction x generalizing b s with
  | nil => rfl
  | cons c x ih =>
    rw [wordLoop]
    by_cases hc : isWordChar c = true
    · rw [if_pos hc, ih, List.takeWhile_cons_of_pos hc, List.dropWhile_cons_of_pos hc,
        List.length_cons, Nat.add_assoc, Nat.add_comm 1]
      rfl
    · rw [if_neg hc, List.takeWhile_cons_of_neg hc, List.dropWhile_cons_of_neg hc]
      rfl

theorem quoteLoop_some {x w rest : Word} (h : scanQuote x = (w, some rest)) (b : Buffer) (s : ℕ) :
    quoteLoop b s x = (b.writeAll s (w ++ ['"']), s + w.length + 1, some rest) := by
  induction x generalizing b s w with
  | nil => cases h
  | cons c x ih =>
    rw [scanQuote] at h
    rw [quoteLoop]
    by_cases hc : c = '"'
    · rw [if_pos hc] at h ⊢
      cases h
      rw [hc]
      rfl
    · rw [if_neg hc] at h ⊢
      cases hx : scanQuote x with
      | mk w' rest' =>
        rw [hx] at h
        cases h
        rw [ih hx, List.length_cons, Nat.add_assoc s, Nat.add_comm 1]
        rfl

theorem quoteLoop_none {x w : Word} (h : scanQuote x = (w, none)) (b : Buffer) (s : ℕ) :
    quoteLoop b s x = (b.writeAll s w, s + w.length, none) := by
  induction x generalizing b s w with
  | nil =>
    cases h
    rfl
  | cons c x ih =>
    rw [scanQuote] at h
    rw [quoteLoop]
    by_cases hc : c = '"'
    · rw [if_pos hc] at h
      cases h
    · rw [if_neg hc] at h ⊢
      cases hx : scanQuote x with
      | mk w' rest' =>
        rw [hx] at h
        cases h
        rw [ih hx, List.length_cons, Nat.add_assoc s, Nat.add_comm 1]
        rfl

/-- The context in front of the next token. -/
def LexContext.seek (ctx : LexContext) : LexContext :=
  { ctx with
    codeptr := skipBlank ctx.codeptr
    tokentop := max ctx.tokentop (ctx.tokens.length + 1) }

/-- The context behind the token `t`. -/
def LexContext.push (ctx : LexContext) (t : Token) (rest : Word) : LexContext :=
  { ctx.seek with
    codeptr := rest
    wordptr := ctx.wordptr + t.space
    workmem := ctx.workmem.putToken ctx.wordptr t
    tokens := ctx.tokens ++ [t.entry ctx.wordptr] }

/-- **`next_token` does what `scan` says.** -/
theorem nextToken_eq (ctx : LexContext) : nextToken ctx =
    match scan ctx.codeptr with
    | .eof => (.eof, ctx.seek)
    | .unknown => (.err, ctx.seek)
    | .unterminated w =>
      (.err, { ctx.seek with workmem := ctx.workmem.writeAll ctx.wordptr ('"' :: w) })
    | .token t rest => (.ok, ctx.push t rest) := by
  unfold nextToken scan
  cases hx : skipBlank ctx.codeptr with
  | nil => simp only [LexContext.seek, hx]
  | cons c x =>
    dsimp only
    rw [scanToken]
    by_cases hc : isWordChar c = true
    · rw [if_pos hc, if_pos hc, wordLoop_eq, List.takeWhile_cons_of_pos hc,
        List.dropWhile_cons_of_pos hc]
      rfl
    · rw [if_neg hc, if_neg hc]
      by_cases hq : c = '"'
      · rw [if_pos hq, if_pos hq]
        subst hq
        cases hs : scanQuote x with
        | mk w rest =>
          cases rest with
          | none =>
            rw [quoteLoop_none hs]
            simp only [LexContext.seek, hx]
            rfl
          | some rest =>
            have hlen : (Lexeme.quoted w).cstr.length = w.length + 2 := by simp [Lexeme.cstr]
            have hword : ctx.workmem.putWord ctx.wordptr (Lexeme.quoted w).cstr =
                ((ctx.workmem.store ctx.wordptr '"').writeAll (ctx.wordptr + 1)
                  (w ++ ['"'])).store (ctx.wordptr + 1 + w.length + 1 + 1) nul := by
              rw [Buffer.putWord, hlen, show ctx.wordptr + (w.length + 2) + 1 =
                ctx.wordptr + 1 + w.length + 1 + 1 by omega]
              rfl
            rw [quoteLoop_some hs]
            simp only [LexContext.push, LexContext.seek, Token.space, Token.entry,
              Buffer.putToken, hword, hlen]
            rw [show ctx.wordptr + (w.length + 2 + 1) = ctx.wordptr + 1 + w.length + 1 + 1 by omega]
      · rw [if_neg hq, if_neg hq]
        cases hs : scanSymbol c x with
        | none => simp only [LexContext.seek, hx]
        | some r => rfl

/-- What the lexer leaves behind. -/
structure LexContext.Finished (ctx : LexContext) (code : Word) (r : Option ℤ × LexContext) :
    Prop where
  ret : r.1 = (lex code).2.ret
  tokens : r.2.tokens = ctx.tokens ++ tokenEntries ctx.wordptr (lex code).1
  workmem : r.2.workmem = (ctx.workmem.putTokens ctx.wordptr (lex code).1).putEnd
    (ctx.wordptr + tokensSpace (lex code).1) (lex code).2
  tokentop : r.2.tokentop = max ctx.tokentop (ctx.tokens.length + (lex code).1.length + 1)
  tokencap : r.2.tokencap = ctx.tokencap

theorem LexContext.Finished.push {ctx : LexContext} {t : Token} {rest : Word}
    {r : Option ℤ × LexContext} (hs : scan ctx.codeptr = .token t rest)
    (h : (ctx.push t rest).Finished rest r) : ctx.Finished ctx.codeptr r := by
  obtain ⟨hret, htoks, hmem, htop, hcap⟩ := h
  refine ⟨?_, ?_, ?_, ?_, hcap⟩ <;> rw [lex_eq, hs] <;> dsimp only
  · exact hret
  · rw [htoks]
    exact List.append_assoc _ _ _
  · rw [hmem, tokensSpace_cons, ← Nat.add_assoc]
    rfl
  · rw [htop]
    simp only [LexContext.push, LexContext.seek, List.length_append, List.length_cons,
      List.length_nil]
    omega

/-- **The lexer stores the tokens of the code one after the other.** -/
theorem lexerReadToken_finished {n : ℕ} {ctx : LexContext} (hn : ctx.codeptr.length < n) :
    ctx.Finished ctx.codeptr (lexerReadToken n ctx) := by
  induction n generalizing ctx with
  | zero => omega
  | succ n ih =>
    have hnext := nextToken_eq ctx
    rw [lexerReadToken]
    cases hs : scan ctx.codeptr with
    | token t rest =>
      rw [hs] at hnext
      rw [hnext]
      have hlt := scan_length hs
      have hpush : (ctx.push t rest).codeptr.length < n := by
        show rest.length < n
        omega
      exact (ih hpush).push hs
    | _ =>
      rw [hs] at hnext
      rw [hnext]
      have hlex := lex_eq ctx.codeptr
      rw [hs] at hlex
      dsimp only at hlex
      refine ⟨?_, ?_, ?_, ?_, rfl⟩ <;> rw [hlex]
      · rfl
      · exact (List.append_nil _).symm
      · rfl
      · rfl

/-! ## How far the writes reach -/

theorem Buffer.writeAll_top {b : Buffer} {off : ℕ} (h : off ≤ b.top) (w : Word) :
    (b.writeAll off w).top = max b.top (off + w.length) := by
  induction w generalizing b off with
  | nil => exact (Nat.max_eq_left h).symm
  | cons c w ih =>
    have hstore : (b.store off c).top = max b.top (off + 1) := rfl
    rw [Buffer.writeAll, ih (by rw [hstore]; exact Nat.le_max_right _ _), hstore, List.length_cons]
    omega

/-- A word area in which the writes up to `off` stay inside exactly when `off` does. -/
structure Buffer.Upto (b : Buffer) (off : ℕ) : Prop where
  le : off ≤ b.top
  iff : b.top ≤ b.size ↔ off < b.size

theorem Buffer.Upto.putToken {b : Buffer} {off : ℕ} (h : b.Upto off) (t : Token) :
    (b.putToken off t).Upto (off + t.space) := by
  cases t with
  | symbol s => exact h
  | word x =>
    have htop : (b.putWord off x.cstr).top = max b.top (off + x.cstr.length + 2) := by
      show max (b.writeAll off x.cstr).top _ = _
      rw [Buffer.writeAll_top h.le]
      omega
    have hsize : (b.putWord off x.cstr).size = b.size := Buffer.writeAll_size ..
    have := h.iff
    constructor <;> simp only [Buffer.putToken, Token.space, htop, hsize]
    · omega
    · omega

theorem Buffer.Upto.putTokens {b : Buffer} {off : ℕ} (h : b.Upto off) (ts : List Token) :
    (b.putTokens off ts).Upto (off + tokensSpace ts) := by
  induction ts generalizing b off with
  | nil => exact h
  | cons t ts ih =>
    rw [tokensSpace_cons, ← Nat.add_assoc]
    exact ih (h.putToken t)

theorem Buffer.Upto.putEnd {b : Buffer} {off : ℕ} (h : b.Upto off) (e : LexEnd) :
    (b.putEnd off e).top ≤ (b.putEnd off e).size ↔ off + e.space < b.size := by
  cases e with
  | unterminated w =>
    rw [Buffer.putEnd, Buffer.writeAll_top h.le, Buffer.writeAll_size, List.length_cons,
      LexEnd.space]
    have := h.iff
    omega
  | _ => exact h.iff

theorem Buffer.putTokens_size (b : Buffer) (off : ℕ) (ts : List Token) :
    (b.putTokens off ts).size = b.size := by
  induction ts generalizing b off with
  | nil => rfl
  | cons t ts ih =>
    rw [Buffer.putTokens, ih]
    cases t with
    | symbol s => rfl
    | word x => exact Buffer.writeAll_size ..

/-- The space a code takes in the word area, less one. -/
def lexSpace (code : Word) : ℕ := tokensSpace (lex code).1 + (lex code).2.space

/-- No write of the analysis lies behind the token array or the word area. -/
def LexContext.InBounds (ctx : LexContext) : Prop :=
  ctx.tokentop ≤ ctx.tokencap ∧ ctx.workmem.top ≤ ctx.workmem.size

theorem LexContext.Finished.inBounds_iff {ctx : LexContext} {code : Word}
    {r : Option ℤ × LexContext} (h : ctx.Finished code r) (hup : ctx.workmem.Upto ctx.wordptr)
    (htop : ctx.tokentop = 0) (htoks : ctx.tokens = []) :
    r.2.InBounds ↔ (lex code).1.length < ctx.tokencap ∧
      ctx.wordptr + lexSpace code < ctx.workmem.size := by
  rw [LexContext.InBounds, h.tokentop, h.tokencap, h.workmem, (hup.putTokens _).putEnd,
    Buffer.putTokens_size, htop, htoks, lexSpace, List.length_nil]
  omega

/-- The size of the word area during the analysis. -/
def analysisWmemsize (interp : Interp π) : ℕ :=
  if interp.codebuf.size > interp.workmem.size then min (interp.workmem.size * 2) workmemSizeMax
  else interp.workmem.size

/-- The word area would have to grow and does not. -/
def WorkmemRefused (realloc : Option Memory) (interp : Interp π) : Prop :=
  interp.codebuf.size > interp.workmem.size ∧
    (workmemSizeMax ≤ interp.workmem.size ∨ realloc = none)

variable {interp : Interp π}

/-- **The writes of an analysis stay inside the buffers exactly when the word area is refused, or
the code has less tokens than the array and takes less space than the word area.** The word area
is one that `interp_context_init` has just set to zero. -/
theorem analysis_inBounds_iff (htop : interp.workmem.top = interp.workmem.size)
    (hpos : 0 < interp.workmem.size) (realloc : Option Memory) (code : Word) :
    (interpLexerAnalysis realloc code interp).2.InBounds ↔ WorkmemRefused realloc interp ∨
      (lex code).1.length < interp.stackbuf.size / sizeofLexToken ∧
        lexSpace code < analysisWmemsize interp := by
  have hrun : ∀ interp' : Interp π, interp'.workmem.Upto 0 →
      ((lexerReadToken (code.length + 1) (.init code interp')).2.InBounds ↔
        (lex code).1.length < interp'.stackbuf.size / sizeofLexToken ∧
          lexSpace code < interp'.workmem.size) := by
    intro interp' hup
    have hfin : (LexContext.init code interp').Finished code
        (lexerReadToken (code.length + 1) (.init code interp')) :=
      lexerReadToken_finished (Nat.lt_succ_self _)
    have h := hfin.inBounds_iff hup rfl rfl
    rwa [show (LexContext.init code interp').wordptr = 0 from rfl, Nat.zero_add] at h
  unfold interpLexerAnalysis WorkmemRefused analysisWmemsize
  by_cases hgrow : interp.codebuf.size > interp.workmem.size
  · rw [if_pos hgrow, if_pos hgrow]
    cases he : interpExpands workmemSizeMax realloc interp.workmem with
    | none =>
      have hr := interpExpands_eq_none.mp he
      simp only [interpExpandsWorkmem, he, Option.map_none]
      exact iff_of_true ⟨Nat.zero_le _, Nat.le_of_eq htop⟩ (.inl ⟨hgrow, hr⟩)
    | some b =>
      have hr : ¬(workmemSizeMax ≤ interp.workmem.size ∨ realloc = none) := fun hr => by
        rw [interpExpands_eq_none.mpr hr] at he; cases he
      rw [not_or, Nat.not_le] at hr
      obtain ⟨heap, rfl⟩ := Option.ne_none_iff_exists'.mp hr.2
      rw [interpExpands_of_some hr.1] at he
      cases he
      simp only [interpExpandsWorkmem, interpExpands_of_some hr.1, Option.map_some]
      rw [hrun]
      · simp [hgrow, Nat.not_le.mpr hr.1, Buffer.grow]
      · constructor <;> simp only [Buffer.grow]
        · exact Nat.zero_le _
        · rw [htop]
          omega
  · rw [if_neg hgrow, if_neg hgrow, hrun _ ⟨Nat.zero_le _, by omega⟩]
    simp [hgrow]

end Lre
