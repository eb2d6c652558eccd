import Lre.Syntax.Accept

/-!
# Parser soundness

What a parse without slips accepts is a sentence of the rule grammar.

* `SoundVals`, `SoundArgs`, `SoundItems`: what one reader guarantees. They also say that no reader
  gives tokens back, which is the termination argument of the descent.
* `syntaxParseVal_sound`, `syntaxParseBlock'_sound`: by induction on the fuel.
* `interpSyntaxParse_slips_iff`: the parser is sound on an input exactly when it records no slip.
-/

namespace Lre

open Run

variable {π μ : Type} {P : NodePool π μ}

/-! ## Reading the head of the input -/

theorem head?_bind_eq_some {α β : Type} {ts : List α} {f : α → Option β} {b : β}
    (h : ts.head?.bind f = some b) : ∃ t ts', f t = some b ∧ ts = t :: ts' := by
  cases ts with
  | nil => simp at h
  | cons t ts => exact ⟨t, ts, by simpa using h, rfl⟩

theorem Token.eq_of_operator? {t : Token} {o : Sym} (h : t.operator? = some o) : t = .symbol o := by
  cases t with
  | word x => simp [operator?] at h
  | symbol s => cases s <;> simp_all [operator?]

theorem Token.eq_of_keyword? {t : Token} {x : Lexeme} (h : t.keyword? = some x) : t = .word x := by
  cases t with
  | word y => simpa [keyword?] using h
  | symbol s => simp [keyword?] at h

theorem Token.eq_of_bracket? {t : Token} {o : Sym} (h : t.bracket? = some o) : t = .symbol o := by
  cases t with
  | word x => simp [bracket?] at h
  | symbol s => cases s <;> simp_all [bracket?]

theorem Token.eq_of_endBracket? {t : Token} {o : Sym} (h : t.endBracket? = some o) :
    t = .symbol o := by
  cases t with
  | word x => simp [endBracket?] at h
  | symbol s => cases s <;> simp_all [endBracket?]

theorem eq_cons_of_keyword? {ts : List Token} {x : Lexeme}
    (h : ts.head?.bind Token.keyword? = some x) : ∃ ts', ts = .word x :: ts' := by
  obtain ⟨t, ts', ht, rfl⟩ := head?_bind_eq_some h
  obtain rfl := Token.eq_of_keyword? ht
  exact ⟨ts', rfl⟩

theorem eq_cons_of_bracket? {ts : List Token} {o : Sym}
    (h : ts.head?.bind Token.bracket? = some o) :
    ∃ ts', ts = .symbol o :: ts' ∧ ts'.length + 1 = ts.length := by
  obtain ⟨t, ts', ht, rfl⟩ := head?_bind_eq_some h
  obtain rfl := Token.eq_of_bracket? ht
  exact ⟨ts', rfl, rfl⟩

theorem eq_cons_of_endBracket? {ts : List Token} {o : Sym}
    (h : ts.head?.bind Token.endBracket? = some o) : ∃ ts', ts = .symbol o :: ts' := by
  obtain ⟨t, ts', ht, rfl⟩ := head?_bind_eq_some h
  obtain rfl := Token.eq_of_endBracket? ht
  exact ⟨ts', rfl⟩

theorem getSymbolType_eq {ts : List Token} {y : SymType} (hy : y ≠ .unknown)
    (h : getSymbolType (ts.head?.bind Token.operator?) = y) :
    ∃ o ts', getSymbolType (some o) = y ∧ (Token.symbol o).operator? = some o ∧
      ts = .symbol o :: ts' := by
  cases ho : ts.head?.bind Token.operator? with
  | none => rw [ho] at h; exact absurd h.symm hy
  | some o =>
    obtain ⟨t, ts', ht, hts⟩ := head?_bind_eq_some ho
    obtain rfl := Token.eq_of_operator? ht
    exact ⟨o, ts', ho ▸ h, ht, hts⟩

/-! ## Values -/

/-- What `syntax_parse_val` guarantees. -/
def SoundVals (s : ParseState π) (r : Bool × SyntaxVals μ) (s' : ParseState π) : Prop :=
  s'.toks.length ≤ s.toks.length ∧ (s'.slips = [] → s.slips = [] ∧
    (r.1 = true → s.toks = r.2.toks ++ s'.toks ∧ r.2.WF))

/-- What `syntax_parse_call` guarantees. -/
def SoundCall (s : ParseState π) (r : Option (SyntaxVal μ)) (s' : ParseState π) : Prop :=
  (∀ node, r = some node → s'.toks.length < s.toks.length) ∧
    s'.toks.length ≤ s.toks.length ∧ (s'.slips = [] → s.slips = [] ∧
      ∀ node, r = some node → s.toks = node.toks ++ s'.toks ∧ node.WF)

/-- What the readers of an argument list with `k` slots guarantee. -/
def SoundArgs (k : ℕ) (s : ParseState π) (r : Option (SyntaxArgs μ)) (s' : ParseState π) : Prop :=
  s'.toks.length ≤ s.toks.length ∧ (s'.slips = [] → s.slips = [] ∧
    ∀ args, r = some args →
      s.toks = args.toks ++ .symbol .endParenthesis :: s'.toks ∧ args.WF ∧ args.count ≤ k)

/-- The end of an operand: `s₁` is the state after it. -/
theorem wp_syntaxAddVal_sound {node : SyntaxVal μ} {more : Parse π (Bool × SyntaxVals μ)}
    {s s₁ : ParseState π} (hlt : s₁.toks.length < s.toks.length)
    (hnode : s₁.slips = [] → s.slips = [] ∧ s.toks = node.toks ++ s₁.toks ∧ node.WF)
    (hmore : ∀ s₂ : ParseState π, s₂.toks.length < s.toks.length →
      wp (· = .nullToken) more (SoundVals s₂) s₂) :
    wp (· = .nullToken) (syntaxAddVal node more) (SoundVals s) s₁ := by
  unfold syntaxAddVal
  simp only [wp_bind, wp_peekOperator]
  split
  · rename_i h
    obtain ⟨o, ts, ho, hop, hts⟩ := getSymbolType_eq (by simp) h
    have hlt' : ts.length + 1 < s.toks.length := by simpa [hts] using hlt
    simp only [wp_bind, wp_readOperator, hts, List.head?_cons, Option.bind_some, hop,
      List.tail_cons, Option.getD_some]
    refine wp_mono (hmore _ (by simp only; omega)) ?_
    rintro ⟨ret, rest⟩ s' ⟨hl, hr⟩
    refine ⟨Nat.le_trans hl (by simp only; omega), fun hsl => ?_⟩
    obtain ⟨h₁, h₂⟩ := hr hsl
    obtain ⟨h₃, h₄, h₅⟩ := hnode h₁
    refine ⟨h₃, fun hret => ?_⟩
    obtain ⟨h₆, h₇⟩ : ts = rest.toks ++ s'.toks ∧ rest.WF := h₂ hret
    refine ⟨?_, h₅, Or.inr ⟨ho, h₇⟩⟩
    rw [h₄, hts, h₆]
    simp [SyntaxVals.toks, optToks_of_isArith ho]
  · refine ⟨Nat.le_of_lt hlt, fun hsl => ?_⟩
    obtain ⟨h₁, h₂, h₃⟩ := hnode hsl
    refine ⟨h₁, fun _ => ⟨?_, h₃, Or.inl ⟨rfl, rfl⟩⟩⟩
    simpa [SyntaxVals.toks, optToks] using h₂

/-- A keyword, a string, or after `$` a variable, when the operand starts at `s`. -/
theorem wp_syntaxParseWord_sound {isvar : Bool} {more : Parse π (Bool × SyntaxVals μ)}
    {s s₁ : ParseState π} (hle : s₁.toks.length ≤ s.toks.length) (hsl : s₁.slips = s.slips)
    (hvar : isvar = true → s.toks = .symbol .var :: s₁.toks)
    (hword : isvar = false → s.toks = s₁.toks)
    (hmore : ∀ s₂ : ParseState π, s₂.toks.length < s.toks.length →
      wp (· = .nullToken) more (SoundVals s₂) s₂) :
    wp (· = .nullToken) (syntaxParseWord P isvar more) (SoundVals s) s₁ := by
  unfold syntaxParseWord
  simp only [wp_bind, wp_readKeyword]
  cases hk : s₁.toks.head?.bind Token.keyword? with
  | none =>
    have : s₁.toks.tail.length ≤ s₁.toks.length := by simp
    exact ⟨Nat.le_trans this hle, fun h => ⟨hsl ▸ h, by simp⟩⟩
  | some x =>
    obtain ⟨ts, hts⟩ := eq_cons_of_keyword? hk
    simp only [hts, List.tail_cons, wp_bind, wp_mark, wp_allocNode]
    have hlt : ts.length < s.toks.length := by
      rw [hts] at hle
      exact hle
    cases isvar with
    | true =>
      cases x with
      | ident w =>
        refine wp_syntaxAddVal_sound hlt (fun h => ⟨hsl ▸ h, ?_, fun _ => trivial⟩) hmore
        rw [hvar rfl, hts]
        rfl
      | quoted w =>
        refine wp_syntaxAddVal_sound hlt (fun h => ?_) hmore
        simp [Lexeme.isQuoted] at h
    | false =>
      refine wp_syntaxAddVal_sound hlt (fun h => ⟨hsl ▸ h, ?_, by simp [SyntaxVal.WF]⟩) hmore
      rw [hword rfl, hts]
      rfl

theorem eq_assign_of_getSymbolType {o : Sym} (h : getSymbolType (some o) = .optAssign) :
    o = .assign := by
  cases o <;> first | rfl | exact absurd h (by decide)

theorem isJoin_of_getSymbolType {o : Sym} (h : getSymbolType (some o) = .optLogic)
    (hne : o ≠ .not) : o.IsJoin := by
  cases o <;> first | exact Or.inl rfl | exact Or.inr rfl | exact absurd rfl hne |
    exact absurd h (by decide)

theorem eq_of_exprValType_block {a b : Option Token} (h : exprValType a b = .block) :
    a = some (.symbol .startParenthesis) := by
  unfold exprValType at h
  split at h <;> simp_all

theorem eq_of_exprValType_call {a b : Option Token} (h : exprValType a b = .call) :
    ∃ w, a = some (.key w) ∧ b = some (.symbol .startParenthesis) := by
  unfold exprValType at h
  split at h <;> simp_all

theorem eq_of_exprValType_var {a b : Option Token} (h : exprValType a b = .var) :
    a = some (.symbol .var) := by
  unfold exprValType at h
  split at h <;> simp_all

theorem eq_cons_of_head? {α : Type} {ts : List α} {t : α} (h : ts.head? = some t) :
    ∃ ts', ts = t :: ts' := by
  cases ts with
  | nil => simp at h
  | cons t' ts => exact ⟨ts, by simpa using h⟩

/-- What stands between the states before and after an argument, when its value was read. -/
def SoundArg (key : Lexeme) (vals : SyntaxVals μ) (s s₁ : ParseState π) : Prop :=
  s₁.slips = [] → s.slips = [] ∧ key.IsIdent ∧ vals.WF ∧
    s.toks = .word key :: .symbol .assign :: (vals.toks ++ s₁.toks)

theorem SoundArg.last {k : ℕ} {key : Lexeme} {vals : SyntaxVals μ} {s s₁ : ParseState π}
    {ts : List Token} (h : SoundArg key vals s s₁)
    (hts : s₁.toks = .symbol .endParenthesis :: ts) (hlen : ts.length ≤ s.toks.length) :
    SoundArgs (k + 1) s (some (.cons key vals .nil)) { s₁ with toks := ts } := by
  refine ⟨hlen, fun hslips => ?_⟩
  obtain ⟨h₁, hkey, hvals, htoks⟩ := h hslips
  refine ⟨h₁, fun args hargs => ?_⟩
  obtain rfl : _ = args := Option.some.inj hargs
  refine ⟨?_, ⟨hkey, hvals, trivial⟩, Nat.succ_le_succ (Nat.zero_le _)⟩
  rw [htoks, hts]
  simp [SyntaxArgs.toks, SyntaxArgs.sepToks]

theorem SoundArg.comma {k : ℕ} {key : Lexeme} {vals : SyntaxVals μ} {s s₁ s₃ : ParseState π}
    {ts : List Token} {r : Option (SyntaxArgs μ)} (h : SoundArg key vals s s₁)
    (hts : s₁.toks = .symbol .comma :: ts) (hlen : ts.length ≤ s.toks.length)
    (hr : SoundArgs k { s₁ with toks := ts } r s₃) (hne : s₃.slips = [] → r ≠ some .nil) :
    SoundArgs (k + 1) s (r.map (.cons key vals)) s₃ := by
  refine ⟨Nat.le_trans hr.1 hlen, fun hslips => ?_⟩
  obtain ⟨h₁, hrest⟩ := hr.2 hslips
  obtain ⟨h₂, hkey, hvals, htoks⟩ := h h₁
  refine ⟨h₂, fun args hargs => ?_⟩
  obtain ⟨rest, rfl, rfl⟩ := Option.map_eq_some_iff.mp hargs
  obtain ⟨hrtoks, hrwf, hrcount⟩ := hrest rest rfl
  have hsep : rest.sepToks = [.symbol .comma] := by
    cases rest with
    | nil => exact absurd rfl (hne hslips)
    | cons _ _ _ => rfl
  refine ⟨?_, ⟨hkey, hvals, hrwf⟩, Nat.succ_le_succ hrcount⟩
  simp only at hrtoks
  rw [htoks, hts, hrtoks]
  simp [SyntaxArgs.toks, hsep]

mutual

theorem syntaxParseVal_sound : ∀ (n : ℕ) (s : ParseState π), 3 * s.toks.length + 2 ≤ n →
    wp (· = .nullToken) (syntaxParseVal P n) (SoundVals s) s
  | n + 1, s, hn => by
    have hmore : ∀ s₂ : ParseState π, s₂.toks.length < s.toks.length →
        wp (· = .nullToken) (syntaxParseVal P n) (SoundVals s₂) s₂ :=
      fun s₂ h => syntaxParseVal_sound n s₂ (by omega)
    simp only [syntaxParseVal, wp_bind, wp_peekExprValType]
    cases hty : exprValType s.toks.head? s.toks.tail.head? with
    | unknown => exact ⟨Nat.le_refl _, fun h => ⟨h, by simp⟩⟩
    | normal =>
      exact wp_syntaxParseWord_sound (Nat.le_refl _) rfl (by simp) (fun _ => rfl) hmore
    | var =>
      obtain ⟨ts, hts⟩ := eq_cons_of_head? (eq_of_exprValType_var hty)
      simp only [wp_bind, wp_readToken]
      refine wp_syntaxParseWord_sound ?_ rfl (fun _ => ?_) (by simp) hmore
      · simp
      · simp [hts]
    | block =>
      obtain ⟨ts, hts⟩ := eq_cons_of_head? (eq_of_exprValType_block hty)
      have hlen : ts.length + 1 = s.toks.length := by simp [hts]
      simp only [wp_bind, wp_readBracket, hts, List.tail_cons, wp_allocNode]
      refine wp_mono (hmore _ (by simp only; omega)) ?_
      rintro ⟨ret, childs⟩ s₁ ⟨hl, hr⟩
      have hl : s₁.toks.length ≤ ts.length := hl
      simp only [wp_bind, wp_mark, wp_readEndBracket, ParseState.note_toks]
      split
      · rename_i h
        obtain ⟨ts₁, hts₁⟩ := eq_cons_of_endBracket? h
        rw [hts₁] at hl
        simp only [hts₁, List.tail_cons]
        refine wp_syntaxAddVal_sound (by simp only [List.length_cons] at hl ⊢; omega)
          (fun h₂ => ?_) hmore
        obtain ⟨hret, h₃⟩ := ParseState.note_slips_eq_nil.mp h₂
        obtain rfl : ret = true := by simpa using hret
        obtain ⟨h₄, h₅⟩ := hr h₃
        obtain ⟨h₆, h₇⟩ : ts = childs.toks ++ s₁.toks ∧ childs.WF := h₅ rfl
        refine ⟨h₄, ?_, h₇⟩
        rw [hts, h₆, hts₁]
        simp [SyntaxVal.toks]
      · have htl : s₁.toks.tail.length ≤ s₁.toks.length := by simp
        simp only [wp_bind, wp_freeNode, wp_pure]
        exact ⟨Nat.le_trans htl (by omega), fun h₂ =>
          ⟨(hr (ParseState.note_slips_eq_nil.mp h₂).2).1, by simp⟩⟩
    | call =>
      simp only [wp_bind]
      obtain ⟨w, hw, -⟩ := eq_of_exprValType_call hty
      refine wp_mono (syntaxParseCall_sound n s w hw (by omega)) ?_
      rintro (_ | node) s₁ ⟨hlt, hl, hr⟩
      · exact ⟨hl, fun h => ⟨(hr h).1, by simp⟩⟩
      · exact wp_syntaxAddVal_sound (hlt node rfl)
          (fun h => ⟨(hr h).1, (hr h).2 node rfl⟩) hmore

theorem syntaxParseCall_sound : ∀ (n : ℕ) (s : ParseState π) (w : Word),
    s.toks.head? = some (.key w) → 3 * s.toks.length + 1 ≤ n →
    wp (· = .nullToken) (syntaxParseCall P n) (SoundCall s) s
  | n + 1, s, w, hw, hn => by
    obtain ⟨ts, hts⟩ := eq_cons_of_head? hw
    have hlen : ts.length + 1 = s.toks.length := by simp [hts]
    have htl : ts.tail.length ≤ ts.length := by simp
    simp only [syntaxParseCall, wp_bind, wp_allocNode, wp_readKeyword, hts, List.head?_cons,
      Option.bind_some, Token.keyword?, List.tail_cons, wp_readBracket]
    split
    · rename_i h
      obtain ⟨ts₁, hts₁, hlen₁⟩ := eq_cons_of_bracket? h
      simp only [hts₁, List.tail_cons, wp_bind, wp_peekNextToken]
      split
      · rfl
      · simp only [wp_mark, wp_pure, wp_bind]
        have hl : ts₁.length < s.toks.length := by omega
        refine ⟨fun _ _ => hl, Nat.le_of_lt hl, fun h => by simp at h⟩
      · simp only [wp_bind]
        refine wp_mono (syntaxParseFuncArgs_sound n _ (by simp only; omega)) ?_
        rintro (_ | args) s₁ ⟨hl, hr⟩
        · have hl : s₁.toks.length ≤ ts₁.length := hl
          refine ⟨by simp, by simp only; omega, fun h => ⟨(hr h).1, by simp⟩⟩
        · have hl : s₁.toks.length ≤ ts₁.length := hl
          refine ⟨fun _ _ => by simp only; omega, by simp only; omega, fun h => ?_⟩
          obtain ⟨h₁, h₂⟩ := hr h
          obtain ⟨h₃, h₄, h₅⟩ : ts₁ = _ ∧ _ := h₂ args rfl
          refine ⟨h₁, fun node hnode => ?_⟩
          obtain rfl : _ = node := Option.some.inj hnode
          refine ⟨?_, trivial, h₄, h₅⟩
          rw [hts, hts₁, h₃]
          simp [SyntaxVal.toks]
    · simp only [wp_bind, wp_freeNode, wp_pure]
      refine ⟨by simp, by simp only; omega, fun h => ⟨h, by simp⟩⟩

theorem syntaxParseFuncArgs_sound : ∀ (n : ℕ) (s : ParseState π), 3 * s.toks.length + 2 ≤ n →
    wp (· = .nullToken) (syntaxParseFuncArgs P n) (SoundArgs syntaxArgMax s) s
  | n + 1, s, hn => by
    simp only [syntaxParseFuncArgs, wp_bind, wp_peekEndBracket]
    split
    · rename_i h
      obtain ⟨ts, hts⟩ := eq_cons_of_endBracket? h
      simp only [wp_bind, wp_readEndBracket, wp_pure, hts, List.tail_cons]
      refine ⟨by simp [hts], fun h => ⟨h, fun args hargs => ?_⟩⟩
      obtain rfl : _ = args := Option.some.inj hargs
      exact ⟨hts, trivial, Nat.zero_le _⟩
    · exact wp_mono (syntaxParseArgsLoop_sound n syntaxArgMax s (by omega)) fun _ _ h => h.1

theorem syntaxParseArgsLoop_sound : ∀ (n k : ℕ) (s : ParseState π), 3 * s.toks.length + 1 ≤ n →
    wp (· = .nullToken) (syntaxParseArgsLoop P n k)
      (fun r s' => SoundArgs k s r s' ∧ (s'.slips = [] → r ≠ some .nil)) s
  | n + 1, 0, s, _ => by
    simp only [syntaxParseArgsLoop, wp_bind, wp_mark, wp_pure]
    exact ⟨⟨Nat.le_refl _, fun h => by simp at h⟩, fun h => by simp at h⟩
  | n + 1, k + 1, s, hn => by
    have htl : s.toks.tail.length ≤ s.toks.length := by simp
    simp only [syntaxParseArgsLoop, wp_bind, wp_readKeyword]
    cases hk : s.toks.head?.bind Token.keyword? with
    | none => exact ⟨⟨htl, fun h => ⟨h, by simp⟩⟩, by simp⟩
    | some key =>
      obtain ⟨ts, hts⟩ := eq_cons_of_keyword? hk
      have hlen : ts.length + 1 = s.toks.length := by simp [hts]
      have htl₁ : ts.tail.length ≤ ts.length := by simp
      have hkey : key.isQuoted = false → key.IsIdent := by
        cases key <;> simp [Lexeme.isQuoted, Lexeme.IsIdent]
      simp only [hts, List.tail_cons, wp_bind, wp_mark, wp_readOperator]
      split
      · rename_i h
        obtain ⟨o, ts₁, ho, -, hts₁⟩ := getSymbolType_eq (by simp) h
        have hts₁ : ts = .symbol o :: ts₁ := hts₁
        obtain rfl := eq_assign_of_getSymbolType ho
        have hlen₁ : ts₁.length + 1 = ts.length := by simp [hts₁]
        simp only [ParseState.note_toks, hts₁, List.tail_cons, wp_bind]
        refine wp_mono (syntaxParseVal_sound n _ (by simp only; omega)) ?_
        rintro ⟨ret, vals⟩ s₁ ⟨hl, hr⟩
        have hl : s₁.toks.length ≤ ts₁.length := hl
        have hslips : s₁.slips = [] → s.slips = [] ∧ key.IsIdent := fun h =>
          ⟨(ParseState.note_slips_eq_nil.mp (hr h).1).2,
            hkey (ParseState.note_slips_eq_nil.mp (hr h).1).1⟩
        cases ret with
        | false =>
          simp only [Bool.false_eq_true, if_false, wp_pure]
          exact ⟨⟨Nat.le_trans hl (by omega), fun h => ⟨(hslips h).1, by simp⟩⟩, by simp⟩
        | true =>
          have harg : SoundArg key vals s s₁ := by
            intro h
            obtain ⟨hvtoks, hvals⟩ : ts₁ = vals.toks ++ s₁.toks ∧ vals.WF := (hr h).2 rfl
            exact ⟨(hslips h).1, (hslips h).2, hvals, by rw [hts, hts₁, hvtoks]⟩
          simp only [if_true, wp_bind, wp_peekComma]
          split
          · rename_i hc
            obtain ⟨ts₂, hts₂⟩ := eq_cons_of_head? (of_decide_eq_true hc)
            have hlen₂ : ts₂.length + 1 = s₁.toks.length := by simp [hts₂]
            simp only [wp_bind, wp_readComma, hts₂, List.tail_cons]
            refine wp_mono (syntaxParseArgsLoop_sound n k _ (by simp only; omega)) ?_
            rintro r s₃ ⟨hrest, hne⟩
            refine ⟨harg.comma hts₂ (by omega) hrest hne, fun _ => ?_⟩
            cases r <;> simp
          · simp only [wp_bind, wp_peekEndBracket]
            split
            · rename_i h
              obtain ⟨ts₂, hts₂⟩ := eq_cons_of_endBracket? h
              have hlen₂ : ts₂.length + 1 = s₁.toks.length := by simp [hts₂]
              simp only [wp_bind, wp_readEndBracket, wp_pure, hts₂, List.tail_cons]
              exact ⟨harg.last hts₂ (by omega), by simp⟩
            · -- arguments without a comma: the slip is noted
              simp only [wp_bind, wp_mark]
              refine wp_mono (syntaxParseArgsLoop_sound n k _ (by simp; omega)) ?_
              rintro r s₃ ⟨⟨hl₃, hr₃⟩, hne⟩
              refine ⟨⟨Nat.le_trans hl₃ (Nat.le_trans hl (by omega)), fun h => ?_⟩, fun _ => ?_⟩
              · exact absurd (hr₃ h).1 (by simp)
              · cases r <;> simp
      · simp only [wp_pure]
        exact ⟨⟨Nat.le_trans htl₁ (by omega),
          fun h => ⟨(ParseState.note_slips_eq_nil.mp h).2, by simp⟩⟩, by simp⟩

end

/-! ## Items -/

/-- What `__syntax_parse_block` guarantees. -/
def SoundItems (s : ParseState π) (r : Bool × SyntaxItems μ) (s' : ParseState π) : Prop :=
  s'.toks.length ≤ s.toks.length ∧ (s'.slips = [] → s.slips = [] ∧
    (r.1 = true → s.toks = r.2.toks ++ s'.toks ∧ (r.2.WF ∨ r.2 = .nil ∧ s.toks = [])))

/-- What the readers of one item guarantee. -/
def SoundItem (s : ParseState π) (r : Option (SyntaxItem μ)) (s' : ParseState π) : Prop :=
  (∀ node, r = some node → s'.toks.length < s.toks.length) ∧
    s'.toks.length ≤ s.toks.length ∧ (s'.slips = [] → s.slips = [] ∧
      ∀ node, r = some node → s.toks = node.toks ++ s'.toks ∧ node.WF)

/-- The empty list is only accepted at the end of the input. -/
theorem SoundItems.wf {s s' : ParseState π} {r : Bool × SyntaxItems μ} {t : Token}
    {ts : List Token} (h : SoundItems s r s') (hsl : s'.slips = []) (hret : r.1 = true)
    (hts : s'.toks = t :: ts) : s.toks = r.2.toks ++ t :: ts ∧ r.2.WF := by
  obtain ⟨h₁, h₂ | ⟨h₂, h₃⟩⟩ := (h.2 hsl).2 hret
  · exact ⟨hts ▸ h₁, h₂⟩
  · rw [h₃, h₂, hts] at h₁
    simp [SyntaxItems.toks] at h₁

theorem syntaxParseExpr_sound (n : ℕ) (s : ParseState π) (w : Word)
    (hw : s.toks.head? = some (.key w)) (hn : 3 * s.toks.length ≤ n + 1) :
    wp (· = .nullToken) (syntaxParseExpr P n) (SoundItem s) s := by
  obtain ⟨ts, hts⟩ := eq_cons_of_head? hw
  have hlen : ts.length + 1 = s.toks.length := by simp [hts]
  have htl : ts.tail.length ≤ ts.length := by simp
  simp only [syntaxParseExpr, wp_bind, wp_allocNode, wp_readKeyword, hts, List.head?_cons,
    Option.bind_some, Token.keyword?, List.tail_cons, wp_readOperator]
  split
  · rename_i h
    obtain ⟨o, ts₁, ho, hop, hts₁⟩ := getSymbolType_eq (by simp) h
    have hlen₁ : ts₁.length + 1 = ts.length := by simp [hts₁]
    simp only [hts₁, List.head?_cons, Option.bind_some, hop, List.tail_cons, wp_bind]
    refine wp_mono (syntaxParseVal_sound n _ (by simp only; omega)) ?_
    rintro ⟨ret, vals⟩ s₁ ⟨hl, hr⟩
    have hl : s₁.toks.length ≤ ts₁.length := hl
    cases ret with
    | false =>
      simp only [Bool.false_eq_true, if_false, wp_bind, wp_freeNode, wp_pure]
      exact ⟨by simp, Nat.le_trans hl (by omega), fun h => ⟨(hr h).1, by simp⟩⟩
    | true =>
      simp only [if_true, wp_pure, Option.getD_some]
      refine ⟨fun _ _ => Nat.lt_of_le_of_lt hl (by omega), Nat.le_trans hl (by omega),
        fun h => ⟨(hr h).1, ?_⟩⟩
      obtain ⟨h₁, h₂⟩ : ts₁ = vals.toks ++ s₁.toks ∧ vals.WF := (hr h).2 rfl
      intro node hnode
      obtain rfl : _ = node := Option.some.inj hnode
      refine ⟨?_, trivial, ho, h₂⟩
      rw [hts, hts₁, h₁]
      rfl
  · simp only [wp_bind, wp_freeNode, wp_pure]
    exact ⟨by simp, by simp only; omega, fun h => ⟨h, by simp⟩⟩

/-- The end of an item: `s₁` is the state after it. -/
theorem wp_syntaxAddItem_sound {node : SyntaxItem μ} {more : Parse π (Bool × SyntaxItems μ)}
    {s s₁ : ParseState π} (hlt : s₁.toks.length < s.toks.length)
    (hnode : s₁.slips = [] → s.slips = [] ∧ s.toks = node.toks ++ s₁.toks ∧ node.WF)
    (hmore : ∀ s₂ : ParseState π, s₂.toks.length < s.toks.length →
      wp (· = .nullToken) more (SoundItems s₂) s₂) :
    wp (· = .nullToken) (syntaxAddItem node more) (SoundItems s) s₁ := by
  unfold syntaxAddItem
  simp only [wp_bind, wp_peekOperator]
  split
  · rename_i o h
    obtain ⟨t, ts, ht, hts⟩ := head?_bind_eq_some h
    obtain rfl := Token.eq_of_operator? ht
    have hlt' : ts.length + 1 < s.toks.length := by simpa [hts] using hlt
    simp only [wp_bind, wp_readOperator, hts, List.head?_cons, Option.bind_some, ht,
      List.tail_cons]
    split
    · rename_i hlog
      simp only [wp_bind, wp_mark, wp_markEnd]
      refine wp_mono (hmore _ (Nat.lt_of_succ_lt hlt')) ?_
      rintro ⟨ret, rest⟩ s' hr
      have hl : s'.toks.length ≤ ts.length := hr.1
      refine ⟨Nat.le_trans hl (by omega), fun hsl => ?_⟩
      obtain ⟨h₁, h₂⟩ := hr.2 hsl
      obtain ⟨hend, h₃⟩ := ParseState.note_slips_eq_nil.mp h₁
      obtain ⟨hnot, h₄⟩ := ParseState.note_slips_eq_nil.mp h₃
      obtain ⟨h₅, h₆, h₇⟩ := hnode h₄
      refine ⟨h₅, fun hret => ?_⟩
      obtain ⟨h₈, h₉⟩ : ts = rest.toks ++ s'.toks ∧ (rest.WF ∨ rest = .nil ∧ ts = []) := h₂ hret
      have hne : ts ≠ [] := by
        rintro rfl
        simp at hend
      have hrest : rest.WF := h₉.resolve_right fun h => hne h.2
      have hjoin : o.IsJoin := isJoin_of_getSymbolType hlog (by simpa using hnot)
      refine ⟨?_, Or.inl ⟨h₇, Or.inr ⟨hjoin, hrest⟩⟩⟩
      rw [h₆, hts, h₈]
      simp [SyntaxItems.toks, optToks_of_isJoin hjoin]
    · simp only [wp_pure]
      exact ⟨Nat.le_of_lt (Nat.lt_of_succ_lt hlt'), fun h => ⟨(hnode h).1, by simp⟩⟩
  · simp only [wp_bind, wp_peekEndBracket]
    split
    · refine ⟨Nat.le_of_lt hlt, fun hsl => ?_⟩
      obtain ⟨h₁, h₂, h₃⟩ := hnode hsl
      refine ⟨h₁, fun _ => ⟨?_, Or.inl ⟨h₃, Or.inl ⟨rfl, rfl⟩⟩⟩⟩
      simpa [SyntaxItems.toks, optToks] using h₂
    · simp only [wp_bind, wp_markMore]
      refine wp_mono (hmore _ hlt) ?_
      rintro ⟨ret, rest⟩ s' hr
      refine ⟨Nat.le_trans hr.1 (Nat.le_of_lt hlt), fun hsl => ?_⟩
      obtain ⟨h₁, h₂⟩ := hr.2 hsl
      obtain ⟨hend, h₃⟩ := ParseState.note_slips_eq_nil.mp h₁
      obtain ⟨h₄, h₅, h₆⟩ := hnode h₃
      refine ⟨h₄, fun hret => ?_⟩
      obtain ⟨h₇, h₈⟩ : s₁.toks = rest.toks ++ s'.toks ∧ (rest.WF ∨ rest = .nil ∧ s₁.toks = []) :=
        h₂ hret
      have hnil : s₁.toks = [] := by simpa using hend
      have hrest : rest = .nil := by
        rcases h₈ with h₈ | ⟨rfl, -⟩
        · rw [hnil] at h₇
          exact absurd (List.append_eq_nil_iff.mp h₇.symm).1 (SyntaxItems.toks_ne_nil h₈)
        · rfl
      obtain rfl := hrest
      refine ⟨?_, Or.inl ⟨h₆, Or.inl ⟨rfl, rfl⟩⟩⟩
      rw [h₅, h₇]
      simp [SyntaxItems.toks, optToks]

/-- A block after its opening bracket. -/
theorem wp_syntaxCloseBlock_sound {negative : Bool} {n : ℕ} {s : ParseState π}
    (hchilds : ∀ s₁ : ParseState π, s₁.toks = s.toks →
      wp (· = .nullToken) (syntaxParseBlock' P n) (SoundItems s₁) s₁) :
    wp (· = .nullToken) (syntaxCloseBlock negative (syntaxParseBlock P (n + 1)))
      (fun r s' => s'.toks.length ≤ s.toks.length ∧ (s'.slips = [] → s.slips = [] ∧
        ∀ node, r = some node → ∃ m childs, node = .block m negative childs ∧
          s.toks = childs.toks ++ .symbol .endParenthesis :: s'.toks ∧ childs.WF)) s := by
  simp only [syntaxCloseBlock, syntaxParseBlock, wp_bind, wp_allocNode]
  refine wp_mono (hchilds _ rfl) ?_
  rintro ⟨ret, childs⟩ s₁ hr
  have hl : s₁.toks.length ≤ s.toks.length := hr.1
  cases ret with
  | false =>
    simp only [Bool.false_eq_true, if_false, wp_bind, wp_freeNode, wp_pure]
    exact ⟨hl, fun h => ⟨(hr.2 h).1, by simp⟩⟩
  | true =>
    have htl : s₁.toks.tail.length ≤ s₁.toks.length := by simp
    simp only [if_true, wp_pure, wp_bind, wp_readEndBracket]
    split
    · rename_i h
      obtain ⟨ts, hts⟩ := eq_cons_of_endBracket? h
      refine ⟨Nat.le_trans htl hl, fun hsl => ⟨(hr.2 hsl).1, fun node hnode => ?_⟩⟩
      obtain rfl : _ = node := Option.some.inj hnode
      obtain ⟨h₁, h₂⟩ := hr.wf hsl rfl hts
      refine ⟨_, childs, rfl, ?_, h₂⟩
      simpa [hts] using h₁
    · exact ⟨Nat.le_trans htl hl, fun hsl => ⟨(hr.2 hsl).1, by simp⟩⟩

/-- The opening tokens of a block. -/
def blockOpen : Bool → List Token
  | true => [.symbol .not, .symbol .startParenthesis]
  | false => [.symbol .startParenthesis]

theorem block_toks {m : μ} {negative : Bool} {childs : SyntaxItems μ} :
    (SyntaxItem.block m negative childs).toks =
      blockOpen negative ++ (childs.toks ++ [.symbol .endParenthesis]) := by
  cases negative <;> simp [SyntaxItem.toks, blockOpen]

/-- A block item of a list that starts at `s`; `s₁` is the state after the opening tokens. -/
theorem wp_syntaxBlock_sound {negative : Bool} {n : ℕ} {more : Parse π (Bool × SyntaxItems μ)}
    {s s₁ : ParseState π} (hs : s.toks = blockOpen negative ++ s₁.toks)
    (hsl : s₁.slips = s.slips)
    (hchilds : ∀ s₂ : ParseState π, s₂.toks = s₁.toks →
      wp (· = .nullToken) (syntaxParseBlock' P n) (SoundItems s₂) s₂)
    (hmore : ∀ s₂ : ParseState π, s₂.toks.length < s.toks.length →
      wp (· = .nullToken) more (SoundItems s₂) s₂) :
    wp (· = .nullToken) (do
      match ← syntaxCloseBlock negative (syntaxParseBlock P (n + 1)) with
      | none => return (false, .nil)
      | some node => syntaxAddItem node more) (SoundItems s) s₁ := by
  have hlt : s₁.toks.length < s.toks.length := by
    rw [hs, List.length_append]
    cases negative <;> simp [blockOpen]
  refine (wp_bind ..).mpr (wp_mono (wp_syntaxCloseBlock_sound hchilds) ?_)
  rintro (_ | node) s₂ ⟨hl, hr⟩
  · exact ⟨Nat.le_of_lt (Nat.lt_of_le_of_lt hl hlt), fun h => ⟨hsl ▸ (hr h).1, by simp⟩⟩
  · refine wp_syntaxAddItem_sound (Nat.lt_of_le_of_lt hl hlt) (fun h => ?_) hmore
    obtain ⟨m, childs, rfl, h₁, h₂⟩ := (hr h).2 node rfl
    refine ⟨hsl ▸ (hr h).1, ?_, h₂⟩
    rw [hs, h₁, block_toks]
    simp

/-- `syntax_parse_func` from the body on; `s₁` is the state after the opening brace. -/
theorem wp_syntaxParseFuncEnd_sound {m : μ} {k : Lexeme} {args : Option (SyntaxArgs μ)}
    {more : Parse π (Bool × SyntaxItems μ)} {s s₁ : ParseState π}
    (hbody : wp (· = .nullToken) more (SoundItems s₁) s₁)
    (hlt : s₁.toks.length < s.toks.length)
    (hfunc : s₁.slips = [] → s.slips = [] ∧ ∀ (body : SyntaxItems μ) (rest : List Token),
      s₁.toks = body.toks ++ .symbol .endBrace :: rest → body.WF →
      s.toks = (SyntaxItem.func m k args body).toks ++ rest ∧
        (SyntaxItem.func m k args body).WF) :
    wp (· = .nullToken) (syntaxParseFuncEnd P m k args more) (SoundItem s) s₁ := by
  unfold syntaxParseFuncEnd
  refine (wp_bind ..).mpr (wp_mono hbody ?_)
  rintro ⟨ret, body⟩ s₂ hr
  have hl : s₂.toks.length < s.toks.length := Nat.lt_of_le_of_lt hr.1 hlt
  have hsl : s₂.slips = [] → s.slips = [] := fun h => (hfunc (hr.2 h).1).1
  cases ret with
  | false =>
    simp only [Bool.false_eq_true, if_false, wp_bind, wp_freeNode, wp_pure]
    exact ⟨by simp, Nat.le_of_lt hl, fun h => ⟨hsl h, by simp⟩⟩
  | true =>
    have htl : s₂.toks.tail.length < s.toks.length := by
      simp only [List.length_tail]
      omega
    simp only [if_true, wp_bind, wp_readEndBracket]
    split
    · rename_i h
      obtain ⟨ts, hts⟩ := eq_cons_of_endBracket? h
      refine ⟨fun _ _ => htl, Nat.le_of_lt htl, fun h => ⟨hsl h, fun node hnode => ?_⟩⟩
      obtain rfl : _ = node := Option.some.inj hnode
      obtain ⟨h₁, h₂⟩ := hr.wf h rfl hts
      have := (hfunc (hr.2 h).1).2 body ts h₁ h₂
      simpa [hts] using this
    · simp only [wp_bind, wp_freeNode, wp_pure]
      exact ⟨by simp, Nat.le_of_lt htl, fun h => ⟨hsl h, by simp⟩⟩

theorem eq_of_exprType_func {a b : Option Token} (h : exprType a b = .func) :
    ∃ w, a = some (.key w) := by
  unfold exprType at h
  split at h <;> simp_all

theorem eq_of_exprType_normal {a b : Option Token} (h : exprType a b = .normal) :
    ∃ w, a = some (.key w) := by
  unfold exprType at h
  split at h <;> simp_all

theorem eq_of_exprType_block {a b : Option Token} (h : exprType a b = .block) :
    a = some (.symbol .startParenthesis) := by
  unfold exprType at h
  split at h <;> simp_all

theorem eq_of_exprType_negBlock {a b : Option Token} (h : exprType a b = .negBlock) :
    a = some (.symbol .not) ∧ b = some (.symbol .startParenthesis) := by
  unfold exprType at h
  split at h <;> simp_all

theorem eq_of_exprType_eof {a b : Option Token} (h : exprType a b = .eof) : a = none := by
  unfold exprType at h
  split at h <;> simp_all

mutual

theorem syntaxParseBlock'_sound : ∀ (n : ℕ) (s : ParseState π), 3 * s.toks.length + 2 ≤ n →
    wp (· = .nullToken) (syntaxParseBlock' P n) (SoundItems s) s
  | n + 1, s, hn => by
    have hmore : ∀ s₂ : ParseState π, s₂.toks.length < s.toks.length →
        wp (· = .nullToken) (syntaxParseBlock' P n) (SoundItems s₂) s₂ :=
      fun s₂ h => syntaxParseBlock'_sound n s₂ (by omega)
    simp only [syntaxParseBlock', wp_bind, wp_peekExprType]
    cases hty : exprType s.toks.head? s.toks.tail.head? with
    | eof =>
      have hts : s.toks = [] := List.head?_eq_none_iff.mp (eq_of_exprType_eof hty)
      exact ⟨Nat.le_refl _, fun h => ⟨h, fun _ => ⟨rfl, Or.inr ⟨rfl, hts⟩⟩⟩⟩
    | unknown => exact ⟨Nat.le_refl _, fun h => ⟨h, by simp⟩⟩
    | func =>
      obtain ⟨w, hw⟩ := eq_of_exprType_func hty
      simp only [wp_bind]
      refine wp_mono (syntaxParseFunc_sound n s w hw (by omega)) ?_
      rintro (_ | node) s₁ ⟨hlt, hl, hr⟩
      · exact ⟨hl, fun h => ⟨(hr h).1, by simp⟩⟩
      · exact wp_syntaxAddItem_sound (hlt node rfl) (fun h => ⟨(hr h).1, (hr h).2 node rfl⟩) hmore
    | normal =>
      obtain ⟨w, hw⟩ := eq_of_exprType_normal hty
      simp only [wp_bind]
      refine wp_mono (syntaxParseExpr_sound n s w hw (by omega)) ?_
      rintro (_ | node) s₁ ⟨hlt, hl, hr⟩
      · exact ⟨hl, fun h => ⟨(hr h).1, by simp⟩⟩
      · exact wp_syntaxAddItem_sound (hlt node rfl) (fun h => ⟨(hr h).1, (hr h).2 node rfl⟩) hmore
    | negBlock =>
      obtain ⟨h₁, h₂⟩ := eq_of_exprType_negBlock hty
      obtain ⟨ts, hts⟩ := eq_cons_of_head? h₁
      rw [hts] at h₂
      obtain ⟨ts₁, rfl⟩ := eq_cons_of_head? h₂
      have hlen : ts₁.length + 2 = s.toks.length := by simp [hts]
      obtain ⟨n, rfl⟩ : ∃ m, n = m + 1 := ⟨n - 1, by omega⟩
      simp only [wp_bind, wp_skipNegblock, hts, List.tail_cons, List.head?_cons,
        Option.isSome_some, if_true]
      refine (wp_bind ..).mp (wp_syntaxBlock_sound hts rfl (fun s₂ h => ?_) hmore)
      have hl : s₂.toks.length = ts₁.length := congrArg List.length h
      exact syntaxParseBlock'_sound n s₂ (by omega)
    | block =>
      obtain ⟨ts, hts⟩ := eq_cons_of_head? (eq_of_exprType_block hty)
      have hlen : ts.length + 1 = s.toks.length := by simp [hts]
      obtain ⟨n, rfl⟩ : ∃ m, n = m + 1 := ⟨n - 1, by omega⟩
      simp only [wp_bind, wp_readBracket, hts, List.tail_cons]
      refine (wp_bind ..).mp (wp_syntaxBlock_sound hts rfl (fun s₂ h => ?_) hmore)
      have hl : s₂.toks.length = ts.length := congrArg List.length h
      exact syntaxParseBlock'_sound n s₂ (by omega)

theorem syntaxParseFunc_sound : ∀ (n : ℕ) (s : ParseState π) (w : Word),
    s.toks.head? = some (.key w) → 3 * s.toks.length + 1 ≤ n →
    wp (· = .nullToken) (syntaxParseFunc P n) (SoundItem s) s
  | n + 1, s, w, hw, hn => by
    obtain ⟨ts, hts⟩ := eq_cons_of_head? hw
    have hlen : ts.length + 1 = s.toks.length := by simp [hts]
    have htl : ts.tail.length ≤ ts.length := by simp
    simp only [syntaxParseFunc, wp_bind, wp_allocNode, wp_readKeyword, hts, List.head?_cons,
      Option.bind_some, Token.keyword?, List.tail_cons, wp_readBracket]
    split
    · rename_i h
      obtain ⟨ts₁, hts₁, hlen₁⟩ := eq_cons_of_bracket? h
      simp only [hts₁, List.tail_cons, wp_bind]
      refine wp_mono (syntaxParseFuncArgs_sound n _ (by simp only; omega)) ?_
      rintro (_ | args) s₁ ⟨hl, hr⟩
      · simp only [wp_bind, wp_freeNode, wp_pure]
        have hl : s₁.toks.length ≤ ts₁.length := hl
        exact ⟨by simp, by simp only; omega, fun h => ⟨(hr h).1, by simp⟩⟩
      · have hl : s₁.toks.length ≤ ts₁.length := hl
        have htl₁ : s₁.toks.tail.length ≤ s₁.toks.length := by simp
        simp only [wp_bind, wp_readBracket]
        split
        · rename_i h
          obtain ⟨ts₂, hts₂, hlen₂⟩ := eq_cons_of_bracket? h
          simp only [hts₂, List.tail_cons]
          refine wp_syntaxParseFuncEnd_sound (syntaxParseBlock'_sound n _ ?_) ?_ fun h => ?_
          · simp only
            omega
          · simp only
            omega
          obtain ⟨h₁, h₂⟩ := hr h
          obtain ⟨h₃, h₄, h₅⟩ : ts₁ = _ ∧ _ := h₂ args rfl
          refine ⟨h₁, fun body rest h₆ h₇ => ⟨?_, trivial, ⟨h₄, h₅⟩, h₇⟩⟩
          simp only at h₆
          rw [hts, hts₁, h₃, hts₂, h₆]
          simp [SyntaxItem.toks]
        · simp only [wp_bind, wp_freeNode, wp_pure]
          exact ⟨by simp, by simp only; omega, fun h => ⟨(hr h).1, by simp⟩⟩
    · rename_i h
      obtain ⟨ts₁, hts₁, hlen₁⟩ := eq_cons_of_bracket? h
      simp only [hts₁, List.tail_cons]
      refine wp_syntaxParseFuncEnd_sound (syntaxParseBlock'_sound n _ (by simp only; omega))
        (by simp only; omega) fun h => ⟨h, fun body rest h₁ h₂ => ⟨?_, trivial, trivial, h₂⟩⟩
      simp only at h₁
      rw [hts, hts₁, h₁]
      simp [SyntaxItem.toks]
    · simp only [wp_bind, wp_freeNode, wp_pure]
      exact ⟨by simp, by simp only; omega, fun h => ⟨h, by simp⟩⟩

end

/-! ## The content -/

theorem syntaxParseContent_sound (n : ℕ) (s : ParseState π) (hn : 3 * s.toks.length + 2 ≤ n) :
    wp (· = .nullToken) (syntaxParseContent P n) (fun r s' => s'.slips = [] →
      ∀ m t, r = some (m, t) → s'.toks = [] ∧ t.WF ∧ t.toks = s.toks) s := by
  simp only [syntaxParseContent, wp_bind, wp_allocNode, wp_markEnd]
  refine wp_mono (syntaxParseBlock'_sound n _ hn) ?_
  rintro ⟨ret, t⟩ s₁ hr
  cases ret with
  | false => simp
  | true =>
    simp only [if_true, wp_bind, wp_markMore, wp_pure]
    intro hsl m t' h
    obtain ⟨hmore, h₁⟩ := ParseState.note_slips_eq_nil.mp hsl
    obtain ⟨hend, -⟩ := ParseState.note_slips_eq_nil.mp (hr.2 h₁).1
    obtain rfl : t = t' := congrArg Prod.snd (Option.some.inj h)
    obtain ⟨h₂, h₃⟩ : s.toks = t.toks ++ s₁.toks ∧ (t.WF ∨ t = .nil ∧ s.toks = []) :=
      (hr.2 h₁).2 rfl
    have hnil : s₁.toks = [] := by simpa using hmore
    have hne : s.toks ≠ [] := by
      intro h
      rw [h] at hend
      simp at hend
    exact ⟨hnil, h₃.resolve_right fun h => hne h.2, by rw [h₂, hnil, List.append_nil]⟩

theorem interpSyntaxParse_ne_fuel (P : NodePool π μ) (toks : List Token) (pool : π) :
    interpSyntaxParse P toks pool ≠ .error .fuel := by
  have h := syntaxParseContent_sound (P := P) (parseFuel toks) ⟨toks, pool, []⟩
    (by simp [parseFuel])
  intro he
  exact absurd ((wp_iff.mp h).2 _ he) (by simp)

/-- What `interp_syntax_parse` accepts is the tree of the whole token list if and only if it takes
no branch of `Slip`. -/
theorem interpSyntaxParse_slips_iff (P : NodePool π μ) (toks : List Token) (pool : π) :
    (∀ m t s, interpSyntaxParse P toks pool = .ok (some (m, t), s) →
        s.toks = [] ∧ t.WF ∧ t.toks = toks) ↔
      ∀ m t s, interpSyntaxParse P toks pool = .ok (some (m, t), s) → s.slips = [] := by
  constructor
  · intro h m t s hr
    obtain ⟨-, hwf, rfl⟩ := h m t s hr
    have hacc := wp_interpSyntaxParse (P := P) (E := fun _ => True) t.erase
      (t.erase_wf.mpr hwf) pool fun _ => trivial
    rw [t.erase_toks] at hacc
    rcases (wp_iff.mp hacc).1 _ s hr with ⟨-, -, -, -, -, hsl⟩ | ⟨h, -⟩
    · exact hsl
    · simp at h
  · intro h m t s hr
    have hsound := syntaxParseContent_sound (P := P) (parseFuel toks) ⟨toks, pool, []⟩
      (by simp [parseFuel])
    exact (wp_iff.mp hsound).1 _ s hr (h m t s hr) m t rfl

/-- `k{e=="1"}` -/
def plainFunc (k : Word) : SyntaxItem Unit :=
  .func () (.ident k) none (.cons (.expr () (.ident ['e']) .equal
    (.cons (.val () (.quoted ['1']) false) .reserved .nil)) .reserved .nil)

end Lre
