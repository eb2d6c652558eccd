import Lre.Lexer.Munch
import Lre.Lexer.Words

/-!
# Faithful tokenisation

* `Faithful`: the tokens of an analysis stand for the longest-match slices of the code, their words
  lie apart, and the words joined by blanks are cut the same.
* `wordGaps`: the byte behind each word, which `next_token` steps over on its way to the terminator
  it writes.
* **`interpLexerAnalysis_faithful_iff`**: an analysis that succeeds is faithful exactly when no `~`
  stands outside the strings of the code and all these bytes are zero before it.
-/

namespace Lre

open CString

/-- A token stands for a slice: its word is the text of the slice. The word, the type and the
number of a symbol are those of one entry of `symWords`. -/
def LexToken.Stands (b : Buffer) : LexToken → Slice → Prop
  | .keyword word, .ident w => HoldsAt b.mem word w
  | .string word, .string w => HoldsAt b.mem word w
  | .symbol s, .symbol w => (symWords s).1 = some w
  | _, _ => False

/-- From the first byte of each word in the word area to its terminator. -/
def wordSpans : List LexToken → List Slice → List (ℕ × ℕ)
  | .keyword word :: tokens, slice :: slices | .string word :: tokens, slice :: slices =>
    (word, word + slice.text.length) :: wordSpans tokens slices
  | _ :: tokens, _ :: slices => wordSpans tokens slices
  | _, _ => []

/-- The tokens of a context are those of the code. -/
structure Faithful (code : Word) (ctx : LexContext) (slices : List Slice) : Prop where
  tokenisation : Tokenisation code slices
  stands : List.Forall₂ (LexToken.Stands ctx.workmem) ctx.tokens slices
  apart : (wordSpans ctx.tokens slices).Pairwise fun p q => p.2 < q.1
  relexed : Tokenisation (joined slices) slices

/-- The word area an analysis works on. -/
def analysisWorkmem {π : Type} (realloc : Option Memory) (interp : Interp π) : Buffer :=
  if interp.codebuf.size > interp.workmem.size then
    ((interpExpandsWorkmem realloc interp).getD interp).workmem
  else interp.workmem

/-- The bytes behind the words, where the first word is at `off`; a word has one more byte, the
terminator it writes. -/
def wordGaps (off : ℕ) : List Slice → List ℕ
  | [] => []
  | .symbol _ :: slices => wordGaps off slices
  | .ident w :: slices | .string w :: slices =>
    (off + w.length) :: wordGaps (off + w.length + 1) slices

/-! ## The word area -/

theorem Buffer.holdsAt_putWord_iff {b : Buffer} {off : ℕ} {w : Word} (hw : nul ∉ w) :
    HoldsAt (b.putWord off w).mem off w ↔ b.mem (off + w.length) = nul := by
  have hgap : (b.putWord off w).mem (off + w.length) = b.mem (off + w.length) :=
    (store_of_ne (Nat.ne_of_lt (Nat.lt_succ_self _))).trans
      (Buffer.writeAll_mem_of_le (Nat.le_refl _))
  constructor
  · intro h
    rw [← hgap]
    exact (holdsAt_iff.mp h).2.2
  · intro h
    exact (Buffer.holdsAt_writeAll hw h).congr fun i _ hle => store_of_ne (by omega)

theorem Slice.Proper.text_ne_nil {s : Slice} (h : s.Proper) : 0 < s.text.length := by
  cases s with
  | ident w => exact List.length_pos_iff.mpr h.1
  | string w =>
    obtain ⟨v, rfl, -⟩ := h
    exact Nat.succ_pos _
  | symbol w => exact List.length_pos_iff.mpr h.1

theorem lt_of_mem_wordGaps {off i : ℕ} {slices : List Slice} (hproper : ∀ s ∈ slices, s.Proper)
    (h : i ∈ wordGaps off slices) : off < i := by
  induction slices generalizing off with
  | nil => cases h
  | cons s slices ih =>
    have hs := (hproper s List.mem_cons_self).text_ne_nil
    have hrest := fun s' hmem => hproper s' (List.mem_cons_of_mem _ hmem)
    cases s with
    | symbol w => exact ih hrest h
    | _ w =>
      rcases List.mem_cons.mp h with rfl | h
      · exact Nat.lt_add_of_pos_right hs
      · have hlt := ih hrest h
        omega

/-- Stored tokens stand for their slices exactly when the bytes behind the words are zero. -/
theorem stands_putTokens_iff {b : Buffer} {off : ℕ} {ts : List Token} {slices : List Slice}
    (hmap : ts.map Token.slice = slices.map some) (hts : ∀ t ∈ ts, t.IsCString)
    (hproper : ∀ s ∈ slices, s.Proper) :
    List.Forall₂ (LexToken.Stands (b.putTokens off ts)) (tokenEntries off ts) slices ↔
      ∀ i ∈ wordGaps off slices, b.mem i = nul := by
  induction ts generalizing b off slices with
  | nil =>
    cases slices with
    | nil => exact iff_of_true .nil nofun
    | cons s slices => cases hmap
  | cons t ts ih =>
    cases slices with
    | nil => cases hmap
    | cons s slices =>
      obtain ⟨hslice, hmap⟩ := List.cons.inj hmap
      have hrest := fun s' hmem => hproper s' (List.mem_cons_of_mem _ hmem)
      have htail := @ih (b.putToken off t) (off + t.space) slices hmap
        (fun u hu => hts u (List.mem_cons_of_mem _ hu)) hrest
      rw [tokenEntries, Buffer.putTokens, List.forall₂_cons, htail]
      cases t with
      | symbol sym =>
        obtain ⟨w, hw, rfl⟩ := Option.map_eq_some_iff.mp hslice
        exact and_iff_right hw
      | word x =>
        -- the word itself, and that later words leave it alone
        have hhead : HoldsAt ((b.putToken off (.word x)).putTokens
            (off + (Token.word x).space) ts).mem off x.cstr ↔
              b.mem (off + x.cstr.length) = nul := by
          rw [← Buffer.holdsAt_putWord_iff (hts _ List.mem_cons_self)]
          have hsame : ∀ i ≤ off + x.cstr.length, ((b.putToken off (.word x)).putTokens
              (off + (Token.word x).space) ts).mem i = (b.putWord off x.cstr).mem i :=
            fun i hi => Buffer.putTokens_mem_of_lt (Nat.lt_succ_of_le hi) ts
          exact ⟨fun h => h.congr fun i _ hi => (hsame i hi).symm,
            fun h => h.congr fun i _ hi => hsame i hi⟩
        have hgaps : (∀ i ∈ wordGaps (off + (Token.word x).space) slices,
            (b.putToken off (.word x)).mem i = nul) ↔
              ∀ i ∈ wordGaps (off + (Token.word x).space) slices, b.mem i = nul := by
          refine forall₂_congr fun i hi => ?_
          rw [Buffer.putToken_mem _ (.inr (lt_of_mem_wordGaps hrest hi))]
        rw [hgaps]
        have hcons : (∀ i ∈ (off + x.cstr.length) ::
            wordGaps (off + (Token.word x).space) slices, b.mem i = nul) ↔
              b.mem (off + x.cstr.length) = nul ∧
                ∀ i ∈ wordGaps (off + (Token.word x).space) slices, b.mem i = nul :=
          List.forall_mem_cons
        rw [← hhead] at hcons
        cases x with
        | ident w =>
          cases hslice
          exact hcons.symm
        | quoted w =>
          cases hslice
          exact hcons.symm

theorem wordSpans_tokenEntries {off : ℕ} {ts : List Token} {slices : List Slice}
    (hmap : ts.map Token.slice = slices.map some) :
    (∀ p ∈ wordSpans (tokenEntries off ts) slices, off ≤ p.1) ∧
      (wordSpans (tokenEntries off ts) slices).Pairwise fun p q => p.2 < q.1 := by
  induction ts generalizing off slices with
  | nil => exact ⟨nofun, .nil⟩
  | cons t ts ih =>
    cases slices with
    | nil => cases hmap
    | cons s slices =>
      obtain ⟨hslice, hmap⟩ := List.cons.inj hmap
      obtain ⟨hle, hapart⟩ := @ih (off + t.space) slices hmap
      cases t with
      | symbol sym =>
        obtain ⟨w, -, rfl⟩ := Option.map_eq_some_iff.mp hslice
        exact ⟨hle, hapart⟩
      | word x =>
        have hspace : off + (Token.word x).space = off + x.cstr.length + 1 := rfl
        rw [hspace] at hle
        have hfirst : ∀ p ∈ (off, off + x.cstr.length) :: wordSpans
            (tokenEntries (off + (Token.word x).space) ts) slices, off ≤ p.1 := by
          intro p hp
          rcases List.mem_cons.mp hp with rfl | hp
          · exact Nat.le_refl _
          · have hpos := hle p hp
            omega
        have hall : ((off, off + x.cstr.length) :: wordSpans
            (tokenEntries (off + (Token.word x).space) ts) slices).Pairwise
              fun p q => p.2 < q.1 := List.pairwise_cons.mpr ⟨hle, hapart⟩
        cases x with
        | ident w =>
          cases hslice
          exact ⟨hfirst, hall⟩
        | quoted w =>
          cases hslice
          exact ⟨hfirst, hall⟩

/-! ## An analysis -/

variable {π : Type} {interp : Interp π}

theorem analysis_of_ret {realloc : Option Memory} {code : Word}
    (hret : (interpLexerAnalysis realloc code interp).1 = some 0) :
    (lex code).2 = .eof ∧
    (interpLexerAnalysis realloc code interp).2.tokens = tokenEntries 0 (lex code).1 ∧
    (interpLexerAnalysis realloc code interp).2.workmem =
      (analysisWorkmem realloc interp).putTokens 0 (lex code).1 := by
  have hrun : ∀ interp' : Interp π,
      (lexerReadToken (code.length + 1) (.init code interp')).1 = some 0 →
      (lex code).2 = .eof ∧
      (lexerReadToken (code.length + 1) (.init code interp')).2.tokens =
        tokenEntries 0 (lex code).1 ∧
      (lexerReadToken (code.length + 1) (.init code interp')).2.workmem =
        interp'.workmem.putTokens 0 (lex code).1 := by
    intro interp' hret
    have hfin : (LexContext.init code interp').Finished code
        (lexerReadToken (code.length + 1) (.init code interp')) :=
      lexerReadToken_finished (Nat.lt_succ_self _)
    have hend : (lex code).2 = .eof := by
      rw [hfin.ret] at hret
      cases hend : (lex code).2 with
      | eof => rfl
      | _ => rw [hend] at hret; cases hret
    exact ⟨hend, hfin.tokens, by rw [hfin.workmem, hend]; rfl⟩
  unfold interpLexerAnalysis at hret ⊢
  unfold analysisWorkmem
  split
  · rename_i hgrow
    rw [if_pos hgrow] at hret
    cases he : interpExpandsWorkmem realloc interp with
    | none =>
      rw [he] at hret
      cases hret
    | some grown =>
      rw [he] at hret
      exact hrun grown hret
  · rename_i hgrow
    rw [if_neg hgrow] at hret
    exact hrun interp hret

/-- **A lexical analysis that succeeds is faithful exactly when no `~` stands outside the strings of
the code, and the bytes behind the words were zero.** -/
theorem interpLexerAnalysis_faithful_iff (realloc : Option Memory) (code : Word)
    (interp : Interp π) (hcode : nul ∉ code)
    (hret : (interpLexerAnalysis realloc code interp).1 = some 0) :
    (∃ slices, Faithful code (interpLexerAnalysis realloc code interp).2 slices) ↔
      tildeOutside false code = false ∧
        ∀ slices, Tokenisation code slices →
          ∀ i ∈ wordGaps 0 slices, (analysisWorkmem realloc interp).mem i = nul := by
  obtain ⟨hend, htokens, hmem⟩ := analysis_of_ret hret
  have hlex : lex code = ((lex code).1, .eof) := Prod.ext rfl hend
  have hiff : ∀ slices, Tokenisation code slices → (lex code).1.map Token.slice =
      slices.map some → (List.Forall₂ (LexToken.Stands
        (interpLexerAnalysis realloc code interp).2.workmem)
        (interpLexerAnalysis realloc code interp).2.tokens slices ↔
      ∀ i ∈ wordGaps 0 slices, (analysisWorkmem realloc interp).mem i = nul) := by
    intro slices htok hmap
    rw [htokens, hmem]
    exact stands_putTokens_iff hmap (lex_isCString hcode) htok.proper
  constructor
  · rintro ⟨slices, htok, hstands, -, -⟩
    obtain ⟨ts, hts, hmap⟩ := htok.lex
    obtain ⟨rfl, -⟩ := Prod.mk.inj (hts.symm.trans hlex)
    constructor
    · rw [← Bool.not_eq_true, ← invert_mem_lex_iff hts]
      intro hinvert
      have hnone := List.mem_map_of_mem (f := Token.slice) hinvert
      rw [hmap] at hnone
      obtain ⟨s, -, hs⟩ := List.mem_map.mp hnone
      cases hs
    · intro slices' htok'
      obtain rfl := htok.unique htok'
      exact (hiff slices htok hmap).mp hstands
  · rintro ⟨htilde, hgaps⟩
    have hinvert : .symbol .invert ∉ (lex code).1 := by
      rw [invert_mem_lex_iff hlex, htilde]
      exact Bool.false_ne_true
    obtain ⟨slices, htok, hmap⟩ := tokenisation_of_lex hlex hinvert
    refine ⟨slices, htok, (hiff slices htok hmap).mpr (hgaps slices htok), ?_, htok.joined⟩
    rw [htokens]
    exact (wordSpans_tokenEntries hmap).2

/-! ## Two codes in a new interpreter -/

/-- A new interpreter. -/
def createdInterp : Interp Unit := interpreterCreate (fun _ _ => nul) ()

theorem createdInterp_workmem (i : ℕ) : createdInterp.workmem.mem i = nul :=
  ite_self nul

/-- The code `a==1` is lexed faithfully. -/
theorem interpLexerAnalysis_faithful_equal : ∃ slices, Faithful ['a', '=', '=', '1']
    (interpLexerAnalysis none ['a', '=', '=', '1'] createdInterp).2 slices :=
  (interpLexerAnalysis_faithful_iff none ['a', '=', '=', '1'] createdInterp (by decide) rfl).mpr
    ⟨rfl, fun _ _ i _ => createdInterp_workmem i⟩

/-- The code `~` is lexed with success to a token without a word. -/
theorem interpLexerAnalysis_tilde :
    (interpLexerAnalysis none ['~'] createdInterp).1 = some 0 ∧
    (interpLexerAnalysis none ['~'] createdInterp).2.tokens = [.symbol .invert] ∧
    (symWords .invert).1 = none ∧
    ¬∃ slices, Faithful ['~'] (interpLexerAnalysis none ['~'] createdInterp).2 slices := by
  refine ⟨rfl, rfl, rfl, ?_⟩
  rintro ⟨slices, -, hstands, -, -⟩
  have htokens : (interpLexerAnalysis none ['~'] createdInterp).2.tokens = [.symbol .invert] := rfl
  rw [htokens] at hstands
  cases hstands with
  | @cons _ slice _ _ hhead =>
    cases slice with
    | symbol w => cases hhead
    | _ w => exact hhead

end Lre
