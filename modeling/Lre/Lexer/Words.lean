import Lre.Lexer.Memory

/-!
# What the tokens say

The later stages read a token through its pointer into the word area.

* `LexContext.readTokens`: the tokens as they read them.
* **`readTokens_analysis`**: after an analysis that stays inside the buffers, these are the tokens
  of `lex`; the gap behind each word ends it, as long as the word area was zero there.
-/

namespace Lre

open CString

/-- A token with the word it points to. -/
def LexToken.read (b : Buffer) : LexToken → Option Token
  | .keyword word => (b.read word).map fun s => .word (.ident s)
  | .string word => (b.read word).map fun s => .word (.quoted s.tail.dropLast)
  | .symbol s => some (.symbol s)

/-- The tokens of a context with their words. -/
def LexContext.readTokens (ctx : LexContext) : Option (List Token) :=
  ctx.tokens.mapM (LexToken.read ctx.workmem)

/-! ## Reading back -/

/-- The bytes from `off` on are zero, up to the end of the buffer. -/
def Buffer.ZeroFrom (b : Buffer) (off : ℕ) : Prop := ∀ i, off ≤ i → i < b.size → b.mem i = nul

theorem Buffer.holdsAt_writeAll {b : Buffer} {off : ℕ} {w : Word} (hw : nul ∉ w)
    (hend : b.mem (off + w.length) = nul) : HoldsAt (b.writeAll off w).mem off w := by
  induction w generalizing b off with
  | nil => exact hend
  | cons c w ih =>
    rw [List.mem_cons, not_or] at hw
    have hlen : off + 1 + w.length = off + (c :: w).length := by
      rw [List.length_cons]
      omega
    refine ⟨?_, Ne.symm hw.1, ih hw.2 ?_⟩
    · rw [Buffer.writeAll, Buffer.writeAll_mem_of_lt (Nat.lt_succ_self _)]
      exact store_self
    · rw [hlen, ← hend]
      exact store_of_ne (by rw [List.length_cons]; omega)

/-- A stored token changes the bytes of its space, its gap and its terminator. -/
theorem Buffer.putToken_mem {b : Buffer} {off i : ℕ} (t : Token)
    (h : i < off ∨ off + t.space < i) : (b.putToken off t).mem i = b.mem i := by
  cases t with
  | symbol s => rfl
  | word x =>
    rw [Token.space] at h
    have hstore : (b.putWord off x.cstr).mem i = (b.writeAll off x.cstr).mem i :=
      store_of_ne (by omega)
    show (b.putWord off x.cstr).mem i = b.mem i
    rw [hstore]
    rcases h with h | h
    · exact Buffer.writeAll_mem_of_lt h _
    · exact Buffer.writeAll_mem_of_le (by omega)

theorem Buffer.putToken_size (b : Buffer) (off : ℕ) (t : Token) :
    (b.putToken off t).size = b.size := by
  cases t with
  | symbol s => rfl
  | word x => exact Buffer.writeAll_size ..

theorem Buffer.ZeroFrom.putToken {b : Buffer} {off : ℕ} (h : b.ZeroFrom off) (t : Token) :
    (b.putToken off t).ZeroFrom (off + t.space) := by
  intro i hi hlt
  rw [Buffer.putToken_size] at hlt
  cases t with
  | symbol s => exact h i hi hlt
  | word x =>
    rw [Token.space] at hi
    by_cases heq : i = off + x.cstr.length + 1
    · subst heq
      exact store_self
    · rw [Buffer.putToken_mem _ (.inr (by rw [Token.space]; omega))]
      exact h i (by omega) hlt

/-- Later tokens leave the bytes in front of them alone. -/
theorem Buffer.putTokens_mem_of_lt {b : Buffer} {off i : ℕ} (h : i < off) (ts : List Token) :
    (b.putTokens off ts).mem i = b.mem i := by
  induction ts generalizing b off with
  | nil => rfl
  | cons t ts ih =>
    rw [Buffer.putTokens, ih (by omega), Buffer.putToken_mem t (.inl h)]

theorem LexToken.read_of_holdsAt {b : Buffer} {off : ℕ} {x : Lexeme}
    (h : HoldsAt b.mem off x.cstr) (hlt : off + x.cstr.length < b.size) :
    ((Token.word x).entry off).read b = some (.word x) := by
  have hread : b.read off = some x.cstr := CString.read_of_holdsAt h (by omega)
  cases x with
  | ident w =>
    show (b.read off).map _ = _
    rw [hread]
    rfl
  | quoted w =>
    show (b.read off).map _ = _
    rw [hread]
    simp [Lexeme.cstr]

theorem Buffer.mapM_read_putTokens {b : Buffer} {off : ℕ} {ts : List Token}
    (hts : ∀ t ∈ ts, t.IsCString) (hzero : b.ZeroFrom off) (hlt : off + tokensSpace ts < b.size) :
    (tokenEntries off ts).mapM (LexToken.read (b.putTokens off ts)) = some ts := by
  induction ts generalizing b off with
  | nil => rfl
  | cons t ts ih =>
    rw [tokensSpace_cons] at hlt
    have hrest := ih (b := b.putToken off t) (fun u hu => hts u (List.mem_cons_of_mem _ hu))
      (hzero.putToken t) (by rw [Buffer.putToken_size]; omega)
    have hhead : (t.entry off).read ((b.putToken off t).putTokens (off + t.space) ts) =
        some t := by
      cases t with
      | symbol s => rfl
      | word x =>
        have hword : HoldsAt (b.putToken off (.word x)).mem off x.cstr := by
          rw [Token.space] at hlt
          have hwrite : HoldsAt (b.writeAll off x.cstr).mem off x.cstr :=
            Buffer.holdsAt_writeAll (hts _ List.mem_cons_self)
              (hzero _ (Nat.le_add_right _ _) (by omega))
          exact hwrite.congr fun i _ hle => store_of_ne (by omega)
        refine LexToken.read_of_holdsAt (hword.congr fun i _ hle => ?_) ?_
        · exact Buffer.putTokens_mem_of_lt (by rw [Token.space]; omega) _
        · rw [Buffer.putTokens_size, Buffer.putToken_size]
          rw [Token.space] at hlt
          omega
    rw [tokenEntries, List.mapM_cons, Buffer.putTokens, hhead, hrest]
    rfl

variable {π : Type} {interp : Interp π}

theorem analysis_finished (hsize : interp.codebuf.size ≤ interp.workmem.size)
    (realloc : Option Memory) (code : Word) : (LexContext.init code interp).Finished code
      (interpLexerAnalysis realloc code interp) := by
  rw [interpLexerAnalysis, if_neg (Nat.not_lt.mpr hsize)]
  exact lexerReadToken_finished (Nat.lt_succ_self code.length)

/-- **After an analysis in a zero word area that need not grow, the later stages read the tokens of
the code.** -/
theorem readTokens_analysis {code : Word} (hcode : nul ∉ code) (hlex : (lex code).2 = .eof)
    (hsize : interp.codebuf.size ≤ interp.workmem.size) (hzero : interp.workmem.ZeroFrom 0)
    (hlt : lexSpace code < interp.workmem.size) (realloc : Option Memory) :
    (interpLexerAnalysis realloc code interp).2.readTokens = some (lex code).1 := by
  have hfin := analysis_finished hsize realloc code
  rw [LexContext.readTokens, hfin.tokens, hfin.workmem, hlex]
  rw [lexSpace, hlex] at hlt
  exact Buffer.mapM_read_putTokens (lex_isCString hcode) hzero
    (by rw [show (LexContext.init code interp).wordptr = 0 from rfl, Nat.zero_add]; exact hlt)

end Lre
