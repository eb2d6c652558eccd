import Lre.Syntax.Parse

/-!
# Printing and parsing

The parser rebuilds every tree of the rule grammar from the tokens it stands for.

* `SyntaxVals.accept`, `SyntaxArgs.accept`, `SyntaxItems.accept`: one case for each node kind. At
  the very end of the input the look-ahead fails for a last operand that is a keyword or a call
  without arguments, so `rest = []` leaves a second outcome open.
-/

namespace Lre

open Run

variable {π μ : Type} {P : NodePool π μ} {E : ParseFault → Prop}

/-! ## Values -/

/-- What may follow a value: no `(` and no arithmetic operator. -/
def ValFollow (rest : List Token) : Prop :=
  rest.head? ≠ some (.symbol .startParenthesis) ∧
    getSymbolType (rest.head?.bind Token.operator?) ≠ .optArith

theorem optToks_of_isArith {o : Sym} (h : o.IsArith) : optToks o = [.symbol o] := by
  cases o <;> first | rfl | exact absurd h (by decide)

theorem operator?_of_isArith {o : Sym} (h : o.IsArith) : (Token.symbol o).operator? = some o := by
  cases o <;> first | rfl | exact absurd h (by decide)

theorem ne_startParenthesis_of_isArith {o : Sym} (h : o.IsArith) : o ≠ .startParenthesis := by
  rintro rfl
  exact absurd h (by decide)

/-- `syntax_parse_val` after an operand that an arithmetic operator follows. -/
theorem wp_syntaxAddVal_arith {node : SyntaxVal μ} {more : Parse π (Bool × SyntaxVals μ)} {o : Sym}
    {ts : List Token} {Q : Bool × SyntaxVals μ → ParseState π → Prop} {s : ParseState π}
    (ho : o.IsArith) (hs : s.toks = .symbol o :: ts)
    (h : wp E more (fun r s' => Q (r.1, .cons node o r.2) s') { s with toks := ts }) :
    wp E (syntaxAddVal node more) Q s := by
  have hty : getSymbolType (some o) = .optArith := ho
  unfold syntaxAddVal
  simp only [wp_bind, wp_peekOperator, hs, List.head?_cons, Option.bind_some,
    operator?_of_isArith ho, hty, if_true, wp_readOperator, List.tail_cons, Option.getD_some]
  exact h

theorem wp_syntaxAddVal_last {node : SyntaxVal μ} {more : Parse π (Bool × SyntaxVals μ)}
    {Q : Bool × SyntaxVals μ → ParseState π → Prop} {s : ParseState π}
    (ht : getSymbolType (s.toks.head?.bind Token.operator?) ≠ .optArith)
    (h : Q (true, .cons node .reserved .nil) s) : wp E (syntaxAddVal node more) Q s := by
  unfold syntaxAddVal
  simp only [wp_bind, wp_peekOperator, if_neg ht, wp_pure]
  exact h

theorem wp_syntaxParseWord {x : Lexeme} {isvar : Bool} {more : Parse π (Bool × SyntaxVals μ)}
    {ts : List Token} {Q : Bool × SyntaxVals μ → ParseState π → Prop} {s : ParseState π}
    (hs : s.toks = .word x :: ts) (hx : isvar = true → x.IsIdent)
    (h : ∀ m s', s'.toks = ts → s'.slips = s.slips →
      wp E (syntaxAddVal (.val m x isvar) more) Q s') :
    wp E (syntaxParseWord P isvar more) Q s := by
  have hq : (isvar && x.isQuoted) = false := by
    cases isvar
    · rfl
    · cases x
      · rfl
      · exact (hx rfl).elim
  unfold syntaxParseWord
  simp only [wp_bind, wp_readKeyword, hs, List.head?_cons, Option.bind_some, Token.keyword?,
    wp_mark, hq, ParseState.note_false, wp_allocNode]
  exact h _ _ rfl rfl

theorem valFollow_comma {ts : List Token} : ValFollow (.symbol .comma :: ts) :=
  ⟨by simp, by simp [Token.operator?, getSymbolType]⟩

theorem valFollow_endParenthesis {ts : List Token} : ValFollow (.symbol .endParenthesis :: ts) :=
  ⟨by simp, by simp [Token.operator?, getSymbolType]⟩

/-- What a reader of an argument list does with the tokens of `args`. -/
def ReadsArgs (s : ParseState π) (args : SyntaxArgs Unit) (rest : List Token)
    (r : Option (SyntaxArgs μ)) (s' : ParseState π) : Prop :=
  r.map SyntaxArgs.erase = some args ∧ s'.toks = rest ∧ s'.slips = s.slips

theorem wp_syntaxParseFuncArgs {args : SyntaxArgs Unit} {n : ℕ} {rest : List Token}
    {s : ParseState π} (hs : s.toks = args.toks ++ .symbol .endParenthesis :: rest)
    (hloop : args ≠ .nil → wp E (syntaxParseArgsLoop P n syntaxArgMax) (ReadsArgs s args rest) s) :
    wp E (syntaxParseFuncArgs P (n + 1)) (ReadsArgs s args rest) s := by
  simp only [syntaxParseFuncArgs, wp_bind, wp_peekEndBracket]
  cases args with
  | nil =>
    have hs' : s.toks = .symbol .endParenthesis :: rest := hs
    simp only [hs', List.head?_cons, Option.bind_some, Token.endBracket?, wp_bind,
      wp_readEndBracket, List.tail_cons, wp_pure]
    exact ⟨rfl, rfl, rfl⟩
  | cons key vs args =>
    have hhead : s.toks.head? = some (.word key) := by rw [hs]; rfl
    simpa only [hhead, Option.bind_some, Token.endBracket?] using hloop (by simp)

theorem wp_syntaxParseCall {w : Word} {args : SyntaxArgs Unit} {n : ℕ} {tail : List Token}
    {s : ParseState π} {Q : Option (SyntaxVal μ) → ParseState π → Prop}
    (hs : s.toks = .key w :: .symbol .startParenthesis ::
      (args.toks ++ .symbol .endParenthesis :: tail))
    (ht : tail.head? ≠ some (.symbol .startParenthesis)) (hE : tail = [] → E .nullToken)
    (hargs : ∀ s' : ParseState π, s'.toks = args.toks ++ .symbol .endParenthesis :: tail →
      wp E (syntaxParseFuncArgs P n) (ReadsArgs s' args tail) s')
    (hok : ∀ m args' s', args'.erase = args → s'.toks = tail → s'.slips = s.slips →
      Q (some (.call m (.ident w) args')) s') :
    wp E (syntaxParseCall P (n + 1)) Q s := by
  have hnext : (args.toks ++ .symbol .endParenthesis :: tail).tail.head? = none → tail = [] := by
    cases args with
    | nil => exact List.head?_eq_none_iff.mp
    | cons key vs args => simp [SyntaxArgs.toks]
  have hskip : (args.toks ++ .symbol .endParenthesis :: tail).tail.head? ≠
      some (.symbol .startParenthesis) := by
    cases args with
    | nil => exact ht
    | cons key vs args => simp [SyntaxArgs.toks]
  simp only [syntaxParseCall, wp_bind, wp_allocNode, wp_readKeyword, hs, List.head?_cons,
    Option.bind_some, Token.keyword?, wp_readBracket, List.tail_cons, Token.bracket?,
    wp_peekNextToken]
  split
  · rename_i h
    exact hE (hnext h)
  · rename_i h
    exact absurd h hskip
  · simp only [wp_bind]
    refine wp_mono (hargs _ rfl) ?_
    rintro (_ | args') s' ⟨he, hts, hsl⟩
    · simp at he
    · exact hok _ args' s' (by simpa using he) hts hsl

mutual

theorem SyntaxVal.accept (node : SyntaxVal Unit) (hwf : node.WF) {n : ℕ} {tail : List Token}
    {s : ParseState π} {Q : Bool × SyntaxVals μ → ParseState π → Prop}
    (hs : s.toks = node.toks ++ tail) (hn : 3 * s.toks.length + 2 ≤ n + 1)
    (ht : tail.head? ≠ some (.symbol .startParenthesis)) (hE : tail = [] → E .nullToken)
    (hfail : tail = [] → ∀ s', Q (false, .nil) s')
    (hok : ∀ node' s', node'.erase = node → s'.toks = tail → s'.slips = s.slips →
      wp E (syntaxAddVal node' (syntaxParseVal P n)) Q s') :
    wp E (syntaxParseVal P (n + 1)) Q s := by
  cases node with
  | val m x isvar =>
    simp only [syntaxParseVal, wp_bind, wp_peekExprValType]
    cases isvar with
    | true =>
      have hs' : s.toks = .symbol .var :: .word x :: tail := hs
      simp only [hs', List.head?_cons, exprValType, wp_bind, wp_readToken, List.tail_cons]
      exact wp_syntaxParseWord rfl hwf fun m' s' h1 h2 => hok _ s' rfl h1 h2
    | false =>
      have hs' : s.toks = .word x :: tail := hs
      simp only [hs', List.head?_cons, List.tail_cons]
      have hword : wp E (syntaxParseWord P false (syntaxParseVal P n)) Q s :=
        wp_syntaxParseWord hs' hwf fun m' s' h1 h2 => hok _ s' rfl h1 h2
      cases x with
      | quoted w => simpa only [exprValType] using hword
      | ident w =>
        cases tail with
        | nil => simpa only [exprValType, List.head?_nil, wp_pure] using hfail rfl s
        | cons t ts =>
          have : exprValType (some (.word (.ident w))) (some t) = .normal := by
            unfold exprValType
            split <;> simp_all
          simpa only [this, List.head?_cons] using hword
  | valblock m childs =>
    have hs' : s.toks = .symbol .startParenthesis ::
        (childs.toks ++ .symbol .endParenthesis :: tail) := by
      simpa [SyntaxVal.toks] using hs
    simp only [syntaxParseVal, wp_bind, wp_peekExprValType, hs', List.head?_cons, exprValType,
      wp_readBracket, List.tail_cons, wp_allocNode]
    refine wp_mono (childs.accept hwf rfl ?_ valFollow_endParenthesis (by simp)) ?_
    · simp only [hs', List.length_cons] at hn ⊢
      omega
    · rintro ⟨ret, childs'⟩ s' (⟨rfl, he, hts, hsl⟩ | ⟨-, h⟩)
      · simp only [wp_mark, Bool.not_true, ParseState.note_false, hts, List.head?_cons,
          Option.bind_some, Token.endBracket?, wp_readEndBracket, List.tail_cons, wp_bind]
        exact hok _ _ (by simp only [SyntaxVal.erase, he]) rfl hsl
      · simp at h
  | call m k args =>
    obtain ⟨hk, hargs, hcount⟩ := hwf
    cases k with
    | quoted w => exact hk.elim
    | ident w =>
      have hs' : s.toks = .key w :: .symbol .startParenthesis ::
          (args.toks ++ .symbol .endParenthesis :: tail) := by
        simpa [SyntaxVal.toks] using hs
      have hlen := congrArg List.length hs'
      simp only [List.length_cons] at hlen
      simp only [syntaxParseVal, wp_bind, wp_peekExprValType, hs', List.head?_cons, List.tail_cons,
        exprValType]
      obtain ⟨n, rfl⟩ : ∃ m, n = m + 2 := ⟨n - 2, by omega⟩
      refine wp_syntaxParseCall hs' ht hE (fun s' hts => ?_) fun m' args' s' he hts hsl => ?_
      · refine wp_syntaxParseFuncArgs hts fun hne => args.accept hargs hne hcount hts ?_
        rw [hts]
        omega
      · exact hok _ s' (by simp only [SyntaxVal.erase, he]) hts hsl

theorem SyntaxVals.accept (vs : SyntaxVals Unit) (hwf : vs.WF) {n : ℕ} {rest : List Token}
    {s : ParseState π} (hs : s.toks = vs.toks ++ rest) (hn : 3 * s.toks.length + 2 ≤ n)
    (ht : ValFollow rest) (hE : rest = [] → E .nullToken) :
    wp E (syntaxParseVal P n) (fun r s' =>
      (r.1 = true ∧ r.2.erase = vs ∧ s'.toks = rest ∧ s'.slips = s.slips) ∨
        (r.1 = false ∧ rest = [])) s := by
  cases vs with
  | nil => exact hwf.elim
  | cons node opt vs =>
    obtain ⟨n, rfl⟩ : ∃ m, n = m + 1 := ⟨n - 1, by omega⟩
    obtain ⟨hnode, ⟨rfl, rfl⟩ | ⟨hopt, hvs⟩⟩ := hwf
    · have htoks : s.toks = node.toks ++ rest := by simpa [SyntaxVals.toks, optToks] using hs
      refine node.accept hnode htoks hn ht.1 hE (fun h s' => Or.inr ⟨rfl, h⟩)
        fun node' s' he htoks hsl => ?_
      refine wp_syntaxAddVal_last (htoks ▸ ht.2) (Or.inl ⟨rfl, ?_, htoks, hsl⟩)
      simp only [SyntaxVals.erase, he]
    · have htoks : s.toks = node.toks ++ (.symbol opt :: (vs.toks ++ rest)) := by
        simpa [SyntaxVals.toks, optToks_of_isArith hopt] using hs
      refine node.accept hnode htoks hn ?_ (by simp) (by simp) fun node' s' he hts hsl => ?_
      · simpa using ne_startParenthesis_of_isArith hopt
      refine wp_syntaxAddVal_arith hopt hts (wp_mono (vs.accept hvs rfl ?_ ht hE) ?_)
      · have := congrArg List.length htoks
        simp only [List.length_append, List.length_cons] at this ⊢
        omega
      · rintro r s'' (⟨h1, h2, h3, h4⟩ | ⟨h1, h2⟩)
        · exact Or.inl ⟨h1, by simp only [SyntaxVals.erase, he, h2], h3, h4.trans hsl⟩
        · exact Or.inr ⟨h1, h2⟩

theorem SyntaxArgs.accept (args : SyntaxArgs Unit) (hwf : args.WF) {n k : ℕ} {rest : List Token}
    {s : ParseState π} (hne : args ≠ .nil) (hk : args.count ≤ k)
    (hs : s.toks = args.toks ++ .symbol .endParenthesis :: rest) (hn : 3 * s.toks.length + 1 ≤ n) :
    wp E (syntaxParseArgsLoop P n k) (ReadsArgs s args rest) s := by
  cases args with
  | nil => exact absurd rfl hne
  | cons key vs args =>
    obtain ⟨hkey, hvs, hargs⟩ := hwf
    cases key with
    | quoted w => exact hkey.elim
    | ident w =>
      simp only [SyntaxArgs.count] at hk
      obtain ⟨k, rfl⟩ : ∃ m, k = m + 1 := ⟨k - 1, by omega⟩
      obtain ⟨n, rfl⟩ : ∃ m, n = m + 1 := ⟨n - 1, by omega⟩
      have hs' : s.toks = .key w :: .symbol .assign ::
          (vs.toks ++ (args.sepToks ++ (args.toks ++ .symbol .endParenthesis :: rest))) := by
        simpa [SyntaxArgs.toks] using hs
      have hlen := congrArg List.length hs'
      simp only [List.length_cons] at hlen
      have hassign : getSymbolType (some .assign) = .optAssign := rfl
      simp only [syntaxParseArgsLoop, wp_bind, wp_readKeyword, hs', List.head?_cons,
        Option.bind_some, Token.keyword?, wp_mark, Lexeme.isQuoted, ParseState.note_false,
        wp_readOperator, List.tail_cons, Token.operator?, hassign, if_true]
      have hfollow :
          ValFollow (args.sepToks ++ (args.toks ++ .symbol .endParenthesis :: rest)) := by
        cases args with
        | nil => exact valFollow_endParenthesis
        | cons _ _ _ => exact valFollow_comma
      refine wp_mono (vs.accept hvs rfl (by simp only; omega) hfollow (by simp)) ?_
      rintro ⟨ret, vs'⟩ s' (⟨rfl, he, hts, hsl⟩ | ⟨-, h⟩)
      · simp only [if_true, wp_bind, wp_peekComma]
        have ih : ∀ s₁ : ParseState π, args ≠ .nil →
            s₁.toks = args.toks ++ .symbol .endParenthesis :: rest →
            3 * s₁.toks.length + 1 ≤ n →
            wp E (syntaxParseArgsLoop P n k) (ReadsArgs s₁ args rest) s₁ :=
          fun s₁ hne h₁ h₂ => args.accept hargs hne (by omega) h₁ h₂
        cases args with
        | nil =>
          have hts' : s'.toks = .symbol .endParenthesis :: rest := hts
          have hcomma : (some (Token.symbol .endParenthesis) = some (.symbol .comma)) = False := by
            simp
          simp only [hts', List.head?_cons, hcomma, decide_false, Bool.false_eq_true, if_false,
            wp_bind, wp_peekEndBracket, Option.bind_some, Token.endBracket?, wp_readEndBracket,
            wp_pure, List.tail_cons]
          refine ⟨?_, rfl, hsl⟩
          simp only [Option.map_some, SyntaxArgs.erase, he]
        | cons key' vs₂ args =>
          have hts' : s'.toks = .symbol .comma ::
              ((SyntaxArgs.cons key' vs₂ args).toks ++ .symbol .endParenthesis :: rest) := hts
          simp only [hts', List.head?_cons, decide_true, if_true, wp_bind, wp_readComma,
            List.tail_cons]
          refine wp_mono (ih _ (by simp) rfl ?_) ?_
          · simp only [SyntaxArgs.sepToks, List.length_append, List.length_cons] at hlen ⊢
            omega
          · rintro r s'' ⟨h₁, h₂, h₃⟩
            refine ⟨?_, h₂, h₃.trans hsl⟩
            cases r with
            | none => simp at h₁
            | some args' =>
              simp only [Option.map_some, Option.some.injEq] at h₁ ⊢
              simp only [SyntaxArgs.erase, he, h₁]
      · simp at h

end

/-! ## Items -/

/-- The item is a comparison expression. -/
def SyntaxItem.isExpr : SyntaxItem μ → Bool
  | .expr .. => true
  | _ => false

/-- The last item is a comparison expression. -/
def SyntaxItems.endsWithExpr : SyntaxItems μ → Bool
  | .nil => false
  | .cons node _ .nil => node.isExpr
  | .cons _ _ rest => rest.endsWithExpr

/-- What may follow a list of items: the end of the input or a closing bracket. -/
def ItemsFollow (rest : List Token) : Prop :=
  rest = [] ∨ ∃ ts, rest = .symbol .endParenthesis :: ts ∨ rest = .symbol .endBrace :: ts

theorem ItemsFollow.valFollow {rest : List Token} (h : ItemsFollow rest) : ValFollow rest := by
  rcases h with rfl | ⟨ts, rfl | rfl⟩ <;>
    exact ⟨by simp, by simp [Token.operator?, getSymbolType]⟩

theorem valFollow_of_isJoin {o : Sym} (h : o.IsJoin) (ts : List Token) :
    ValFollow (.symbol o :: ts) := by
  rcases h with rfl | rfl <;>
    exact ⟨by simp, by simp [Token.operator?, getSymbolType, symWords]⟩

theorem optToks_of_isJoin {o : Sym} (h : o.IsJoin) : optToks o = [.symbol o] := by
  rcases h with rfl | rfl <;> rfl

theorem operator?_of_isComp {o : Sym} (h : o.IsComp) : (Token.symbol o).operator? = some o := by
  cases o <;> first | rfl | exact absurd h (by decide)

theorem exprType_of_isComp {o : Sym} (h : o.IsComp) (w : Word) :
    exprType (some (.key w)) (some (.symbol o)) = .normal := by
  cases o <;> first | rfl | exact absurd h (by decide)

/-- `__syntax_parse_block` after an item that `&&` or `||` follows. -/
theorem wp_syntaxAddItem_join {node : SyntaxItem μ} {more : Parse π (Bool × SyntaxItems μ)}
    {o : Sym} {ts : List Token} {Q : Bool × SyntaxItems μ → ParseState π → Prop}
    {s : ParseState π} (ho : o.IsJoin) (hs : s.toks = .symbol o :: ts) (hne : ts ≠ [])
    (h : wp E more (fun r s' => Q (r.1, .cons node o r.2) s') { s with toks := ts }) :
    wp E (syntaxAddItem node more) Q s := by
  have hop : (Token.symbol o).operator? = some o := by rcases ho with rfl | rfl <;> rfl
  have hty : getSymbolType (some o) = .optLogic := by rcases ho with rfl | rfl <;> rfl
  have hnot : (some o = some .not) = False := by rcases ho with rfl | rfl <;> simp
  have hsome : ts.head?.isNone = false := by cases ts <;> simp_all
  unfold syntaxAddItem
  simp only [wp_bind, wp_peekOperator, hs, List.head?_cons, Option.bind_some, hop, wp_readOperator,
    List.tail_cons, hty, if_true, wp_mark, hnot, decide_false, ParseState.note_false, wp_markEnd,
    hsome, Option.getD_some]
  exact h

theorem wp_syntaxAddItem_last {node : SyntaxItem μ} {n : ℕ} {rest : List Token}
    {Q : Bool × SyntaxItems μ → ParseState π → Prop} {s : ParseState π} (hs : s.toks = rest)
    (hrest : ItemsFollow rest) (h : Q (true, .cons node .reserved .nil) s) :
    wp E (syntaxAddItem node (syntaxParseBlock' P (n + 1))) Q s := by
  unfold syntaxAddItem
  rcases hrest with rfl | ⟨ts, rfl | rfl⟩
  · simp only [wp_bind, wp_peekOperator, hs, List.head?_nil, Option.bind_none, wp_peekEndBracket,
      wp_markMore, Option.isSome_none, ParseState.note_false, syntaxParseBlock',
      wp_peekExprType, exprType, wp_pure]
    exact h
  all_goals
    simp only [wp_bind, wp_peekOperator, hs, List.head?_cons, Option.bind_some, Token.operator?,
      wp_peekEndBracket, Token.endBracket?, wp_pure]
    exact h

theorem SyntaxItem.one_le_length_toks (node : SyntaxItem μ) : 1 ≤ node.toks.length := by
  cases node with
  | func m k args body => cases args <;> simp [toks]
  | block m negative childs => cases negative <;> simp [toks]
  | expr m k opt vs => simp [toks]

theorem SyntaxItems.toks_ne_nil {items : SyntaxItems μ} (h : items.WF) : items.toks ≠ [] := by
  cases items with
  | nil => exact h.elim
  | cons node opt rest =>
    have := node.one_le_length_toks
    intro he
    simp only [toks, List.append_eq_nil_iff] at he
    simp [he.1.1] at this

/-- What a reader of an item list does with the tokens of `items`. -/
def ReadsItems (s : ParseState π) (items : SyntaxItems Unit) (rest : List Token)
    (r : Bool × SyntaxItems μ) (s' : ParseState π) : Prop :=
  r.1 = true ∧ r.2.erase = items ∧ s'.toks = rest ∧ s'.slips = s.slips

theorem wp_syntaxParseFuncEnd {m : μ} {k : Lexeme} {args : Option (SyntaxArgs μ)}
    {more : Parse π (Bool × SyntaxItems μ)} {body : SyntaxItems Unit} {tail : List Token}
    {Q : Option (SyntaxItem μ) → ParseState π → Prop} {s : ParseState π}
    (hbody : wp E more (ReadsItems s body (.symbol .endBrace :: tail)) s)
    (hok : ∀ body' s', body'.erase = body → s'.toks = tail → s'.slips = s.slips →
      Q (some (.func m k args body')) s') :
    wp E (syntaxParseFuncEnd P m k args more) Q s := by
  unfold syntaxParseFuncEnd
  refine (wp_bind ..).mpr (wp_mono hbody ?_)
  rintro ⟨ret, body'⟩ s' ⟨rfl, he, hts, hsl⟩
  simp only [if_true, wp_bind, wp_readEndBracket, hts, List.head?_cons, Option.bind_some,
    Token.endBracket?, List.tail_cons, wp_pure]
  exact hok body' _ he rfl hsl

theorem wp_syntaxCloseBlock {negative : Bool} {n : ℕ} {childs : SyntaxItems Unit}
    {tail : List Token} {Q : Option (SyntaxItem μ) → ParseState π → Prop} {s : ParseState π}
    (hchilds : ∀ s' : ParseState π, s'.toks = s.toks →
      wp E (syntaxParseBlock' P n) (ReadsItems s' childs (.symbol .endParenthesis :: tail)) s')
    (hok : ∀ m childs' s', childs'.erase = childs → s'.toks = tail → s'.slips = s.slips →
      Q (some (.block m negative childs')) s') :
    wp E (syntaxCloseBlock negative (syntaxParseBlock P (n + 1))) Q s := by
  simp only [syntaxCloseBlock, syntaxParseBlock, wp_bind, wp_allocNode]
  refine wp_mono (hchilds _ rfl) ?_
  rintro ⟨ret, childs'⟩ s' ⟨rfl, he, hts, hsl⟩
  simp only [if_true, wp_pure, wp_bind, wp_readEndBracket, hts, List.head?_cons, Option.bind_some,
    Token.endBracket?, List.tail_cons]
  exact hok _ childs' _ he rfl hsl

/-- The fuel for a token is there, and what the tokens behind it need is left. -/
theorem exists_fuel {s : ParseState π} {t : Token} {ts : List Token} {n : ℕ} (hs : s.toks = t :: ts)
    (hn : 3 * s.toks.length + 2 ≤ n + 1) : ∃ m, n = m + 1 ∧ 3 * ts.length + 3 ≤ m := by
  rw [hs, List.length_cons] at hn
  exact ⟨n - 1, by omega, by omega⟩

theorem SyntaxItem.accept_func {m : Unit} {w : Word} {args : Option (SyntaxArgs Unit)}
    {body : SyntaxItems Unit} (hargs : argsWF args) {n : ℕ}
    {tail : List Token} {s : ParseState π} {Q : Bool × SyntaxItems μ → ParseState π → Prop}
    (hs : s.toks = (SyntaxItem.func m (.ident w) args body).toks ++ tail)
    (hn : 3 * s.toks.length + 2 ≤ n + 1)
    (ih : ∀ (l : ℕ) (s₁ : ParseState π), s₁.toks = body.toks ++ .symbol .endBrace :: tail →
      3 * s₁.toks.length + 2 ≤ l →
      wp E (syntaxParseBlock' P l) (ReadsItems s₁ body (.symbol .endBrace :: tail)) s₁)
    (hok : ∀ node' s', node'.erase = .func m (.ident w) args body → s'.toks = tail →
      s'.slips = s.slips → wp E (syntaxAddItem node' (syntaxParseBlock' P n)) Q s') :
    wp E (syntaxParseBlock' P (n + 1)) Q s := by
  cases args with
  | none =>
    have hs' : s.toks = .key w :: .symbol .startBrace ::
        (body.toks ++ .symbol .endBrace :: tail) := by
      simpa [SyntaxItem.toks] using hs
    obtain ⟨n, rfl, hroom⟩ := exists_fuel hs' hn
    rw [List.length_cons] at hroom
    simp only [syntaxParseBlock', wp_bind, wp_peekExprType, hs', List.head?_cons,
      List.tail_cons, exprType, syntaxParseFunc, wp_allocNode, wp_readKeyword,
      Option.bind_some, Token.keyword?, wp_readBracket, Token.bracket?]
    refine wp_syntaxParseFuncEnd (ih n _ rfl (by simp only; omega)) ?_
    intro body' s' he hts hsl
    exact hok _ s' (by simp only [SyntaxItem.erase, he, Option.map_none]) hts hsl
  | some args =>
    have hs' : s.toks = .key w :: .symbol .startParenthesis :: (args.toks ++
        .symbol .endParenthesis :: .symbol .startBrace ::
          (body.toks ++ .symbol .endBrace :: tail)) := by
      simpa [SyntaxItem.toks] using hs
    have hlen := congrArg List.length hs'
    simp only [List.length_cons, List.length_append] at hlen
    obtain ⟨n, rfl⟩ : ∃ m, n = m + 2 := ⟨n - 2, by omega⟩
    simp only [syntaxParseBlock', wp_bind, wp_peekExprType, hs', List.head?_cons,
      List.tail_cons, exprType, syntaxParseFunc, wp_allocNode, wp_readKeyword,
      Option.bind_some, Token.keyword?, wp_readBracket, Token.bracket?]
    refine wp_mono (wp_syntaxParseFuncArgs rfl fun hne => ?_) ?_
    · refine args.accept hargs.1 hne hargs.2 rfl ?_
      simp only [List.length_append, List.length_cons]
      omega
    rintro (_ | args') s₁ ⟨he, hts, hsl⟩
    · simp at he
    simp only [wp_bind, wp_readBracket, hts, List.head?_cons, Option.bind_some,
      Token.bracket?, List.tail_cons]
    refine wp_syntaxParseFuncEnd (ih (n + 1) _ rfl ?_) fun body' s' he' hts' hsl' => ?_
    · simp only [List.length_append, List.length_cons]
      omega
    refine hok _ s' ?_ hts' (hsl'.trans hsl)
    simp only [SyntaxItem.erase, he, he']

theorem SyntaxItem.accept_block {m : Unit} {negative : Bool} {childs : SyntaxItems Unit} {n : ℕ}
    {tail : List Token} {s : ParseState π} {Q : Bool × SyntaxItems μ → ParseState π → Prop}
    (hs : s.toks = (SyntaxItem.block m negative childs).toks ++ tail)
    (hn : 3 * s.toks.length + 2 ≤ n + 1)
    (ih : ∀ (l : ℕ) (s₁ : ParseState π),
      s₁.toks = childs.toks ++ .symbol .endParenthesis :: tail → 3 * s₁.toks.length + 2 ≤ l →
      wp E (syntaxParseBlock' P l) (ReadsItems s₁ childs (.symbol .endParenthesis :: tail)) s₁)
    (hok : ∀ node' s', node'.erase = .block m negative childs → s'.toks = tail →
      s'.slips = s.slips → wp E (syntaxAddItem node' (syntaxParseBlock' P n)) Q s') :
    wp E (syntaxParseBlock' P (n + 1)) Q s := by
  cases negative with
  | true =>
    have hs' : s.toks = .symbol .not :: .symbol .startParenthesis ::
        (childs.toks ++ .symbol .endParenthesis :: tail) := by
      simpa [SyntaxItem.toks] using hs
    obtain ⟨n, rfl, hroom⟩ := exists_fuel hs' hn
    rw [List.length_cons] at hroom
    simp only [syntaxParseBlock', wp_bind, wp_peekExprType, hs', List.head?_cons,
      List.tail_cons, exprType, wp_skipNegblock, Option.isSome_some, if_true]
    refine wp_syntaxCloseBlock (fun s' h => ih n s' h ?_) fun m' childs' s' he hts hsl => ?_
    · simp only [h]
      omega
    · exact hok _ s' (by simp only [SyntaxItem.erase, he]) hts hsl
  | false =>
    have hs' : s.toks = .symbol .startParenthesis ::
        (childs.toks ++ .symbol .endParenthesis :: tail) := by
      simpa [SyntaxItem.toks] using hs
    obtain ⟨n, rfl, hroom⟩ := exists_fuel hs' hn
    simp only [syntaxParseBlock', wp_bind, wp_peekExprType, hs', List.head?_cons,
      List.tail_cons, exprType, wp_readBracket]
    refine wp_syntaxCloseBlock (fun s' h => ih n s' h ?_) fun m' childs' s' he hts hsl => ?_
    · simp only [h]
      omega
    · exact hok _ s' (by simp only [SyntaxItem.erase, he]) hts hsl

/-- An expression; the last one of a rule may end the tokens. -/
theorem SyntaxItem.accept_expr {m : Unit} {w : Word} {opt : Sym} {vs : SyntaxVals Unit}
    (hopt : opt.IsComp) (hvs : vs.WF) {n : ℕ} {tail : List Token} {s : ParseState π}
    {Q : Bool × SyntaxItems μ → ParseState π → Prop}
    (hs : s.toks = (SyntaxItem.expr m (.ident w) opt vs).toks ++ tail)
    (hn : 3 * s.toks.length + 2 ≤ n + 1) (ht : ValFollow tail) (hE : tail = [] → E .nullToken)
    (hfail : tail = [] → ∀ s', Q (false, .nil) s')
    (hok : ∀ node' s', node'.erase = .expr m (.ident w) opt vs → s'.toks = tail →
      s'.slips = s.slips → wp E (syntaxAddItem node' (syntaxParseBlock' P n)) Q s') :
    wp E (syntaxParseBlock' P (n + 1)) Q s := by
  have hs' : s.toks = .key w :: .symbol opt :: (vs.toks ++ tail) := hs
  have hlen := congrArg List.length hs'
  simp only [List.length_cons] at hlen
  have hcomp : getSymbolType (some opt) = .optComp := hopt
  simp only [syntaxParseBlock', wp_bind, wp_peekExprType, hs', List.head?_cons,
    List.tail_cons, exprType_of_isComp hopt, syntaxParseExpr, wp_allocNode, wp_readKeyword,
    Option.bind_some, Token.keyword?, wp_readOperator, operator?_of_isComp hopt, hcomp, if_true]
  refine wp_mono (vs.accept hvs rfl (by simp only; omega) ht hE) ?_
  rintro ⟨ret, vs'⟩ s' (⟨rfl, he, hts, hsl⟩ | ⟨rfl, h⟩)
  · simp only [if_true, wp_pure, Option.getD_some]
    exact hok _ s' (by simp only [SyntaxItem.erase, he]) hts hsl
  · simp only [Bool.false_eq_true, if_false, wp_bind, wp_freeNode, wp_pure]
    exact hfail h _

mutual

theorem SyntaxItem.accept (node : SyntaxItem Unit) (hwf : node.WF) {n : ℕ} {tail : List Token}
    {s : ParseState π} {Q : Bool × SyntaxItems μ → ParseState π → Prop}
    (hs : s.toks = node.toks ++ tail) (hn : 3 * s.toks.length + 2 ≤ n + 1) (ht : ValFollow tail)
    (hE : tail = [] → node.isExpr = true → E .nullToken)
    (hfail : tail = [] → node.isExpr = true → ∀ s', Q (false, .nil) s')
    (hok : ∀ node' s', node'.erase = node → s'.toks = tail → s'.slips = s.slips →
      wp E (syntaxAddItem node' (syntaxParseBlock' P n)) Q s') :
    wp E (syntaxParseBlock' P (n + 1)) Q s := by
  cases node with
  | func m k args body =>
    obtain ⟨hk, hargs, hbody⟩ := hwf
    cases k with
    | quoted w => exact hk.elim
    | ident w =>
      refine SyntaxItem.accept_func hargs hs hn (fun l s₁ h₁ h₂ => ?_) hok
      exact wp_mono (body.accept hbody h₁ h₂ (Or.inr ⟨tail, Or.inr rfl⟩) (by simp))
        fun r s' h => h.resolve_right (by simp)
  | block m negative childs =>
    refine SyntaxItem.accept_block hs hn (fun l s₁ h₁ h₂ => ?_) hok
    exact wp_mono (childs.accept hwf h₁ h₂ (Or.inr ⟨tail, Or.inl rfl⟩) (by simp))
      fun r s' h => h.resolve_right (by simp)
  | expr m k opt vs =>
    obtain ⟨hk, hopt, hvs⟩ := hwf
    cases k with
    | quoted w => exact hk.elim
    | ident w =>
      exact SyntaxItem.accept_expr hopt hvs hs hn ht (fun h => hE h rfl) (fun h => hfail h rfl) hok

theorem SyntaxItems.accept (items : SyntaxItems Unit) (hwf : items.WF) {n : ℕ}
    {rest : List Token} {s : ParseState π} (hs : s.toks = items.toks ++ rest)
    (hn : 3 * s.toks.length + 2 ≤ n) (ht : ItemsFollow rest)
    (hE : rest = [] → items.endsWithExpr = true → E .nullToken) :
    wp E (syntaxParseBlock' P n) (fun r s' => ReadsItems s items rest r s' ∨
      (r.1 = false ∧ rest = [] ∧ items.endsWithExpr = true)) s := by
  cases items with
  | nil => exact hwf.elim
  | cons node opt items =>
    obtain ⟨n, rfl⟩ : ∃ m, n = m + 1 := ⟨n - 1, by omega⟩
    obtain ⟨hnode, ⟨rfl, rfl⟩ | ⟨hopt, hitems⟩⟩ := hwf
    · have htoks : s.toks = node.toks ++ rest := by simpa [SyntaxItems.toks, optToks] using hs
      refine node.accept hnode htoks hn ht.valFollow hE (fun h hx s' => Or.inr ⟨rfl, h, hx⟩)
        fun node' s' he hts hsl => ?_
      have hpos : 1 ≤ s.toks.length := by
        rw [htoks, List.length_append]
        exact Nat.le_trans node.one_le_length_toks (Nat.le_add_right ..)
      obtain ⟨n, rfl⟩ : ∃ m, n = m + 1 := ⟨n - 1, by omega⟩
      refine wp_syntaxAddItem_last hts ht (Or.inl ⟨rfl, ?_, hts, hsl⟩)
      simp only [SyntaxItems.erase, he]
    · have htoks : s.toks = node.toks ++ (.symbol opt :: (items.toks ++ rest)) := by
        simpa [SyntaxItems.toks, optToks_of_isJoin hopt] using hs
      refine node.accept hnode htoks hn (valFollow_of_isJoin hopt _) (by simp) (by simp)
        fun node' s' he hts hsl => ?_
      have hends : (SyntaxItems.cons node opt items).endsWithExpr = items.endsWithExpr := by
        cases items with
        | nil => exact hitems.elim
        | cons node₂ opt₂ items₂ => rfl
      rw [hends] at hE ⊢
      have hlen := congrArg List.length htoks
      simp only [List.length_append, List.length_cons] at hlen
      refine wp_syntaxAddItem_join hopt hts ?_ (wp_mono (items.accept hitems rfl ?_ ht hE) ?_)
      · simp [SyntaxItems.toks_ne_nil hitems]
      · simp only [List.length_append]
        omega
      · rintro r s'' (⟨h₁, h₂, h₃, h₄⟩ | h)
        · exact Or.inl ⟨h₁, by simp only [SyntaxItems.erase, he, h₂], h₃, h₄.trans hsl⟩
        · exact Or.inr h

end

/-! ## The content -/

/-- `interp_syntax_parse` on the tokens of a tree: it rebuilds the tree, or a last operand at the
end of the input makes it fail. -/
theorem wp_interpSyntaxParse (items : SyntaxItems Unit) (hwf : items.WF) (pool : π)
    (hE : items.endsWithExpr = true → E .nullToken) :
    wp E (syntaxParseContent P (parseFuel items.toks)) (fun r s' =>
      (∃ m t, r = some (m, t) ∧ t.erase = items ∧ s'.toks = [] ∧ s'.slips = []) ∨
        (r = none ∧ items.endsWithExpr = true)) ⟨items.toks, pool, []⟩ := by
  have hne : items.toks.head?.isNone = false := by
    have := SyntaxItems.toks_ne_nil hwf
    cases h : items.toks <;> simp_all
  simp only [syntaxParseContent, wp_bind, wp_allocNode, wp_markEnd, hne, ParseState.note_false]
  refine wp_mono (items.accept hwf (by simp) (by simp [parseFuel]) (Or.inl rfl)
    fun _ h => hE h) ?_
  rintro ⟨ret, t⟩ s' (⟨rfl, he, hts, hsl⟩ | ⟨rfl, -, h⟩)
  · simp only [if_true, wp_bind, wp_markMore, hts, List.head?_nil, Option.isSome_none,
      wp_pure]
    exact Or.inl ⟨_, t, rfl, he, hts, hsl⟩
  · simp only [Bool.false_eq_true, if_false, wp_pure]
    exact Or.inr ⟨trivial, h⟩

/-- **Print-parse round trip.** The tokens of a rule tree whose last item is not a bare comparison
parse back to that tree, and none is left. -/
theorem interpSyntaxParse_toks (P : NodePool π μ) (pool : π) (items : SyntaxItems Unit)
    (hwf : items.WF) (hlast : items.endsWithExpr = false) :
    ∃ m t s, interpSyntaxParse P items.toks pool = .ok (some (m, t), s) ∧
      t.erase = items ∧ s.toks = [] := by
  have h := wp_interpSyntaxParse (P := P) (E := fun _ => False) items hwf pool (by simp [hlast])
  obtain ⟨hok, herr⟩ := wp_iff.mp h
  cases hr : syntaxParseContent P (parseFuel items.toks) ⟨items.toks, pool, []⟩ with
  | error e => exact (herr e hr).elim
  | ok p =>
    obtain ⟨r, s⟩ := p
    rcases hok r s hr with ⟨m, t, rfl, he, hts, -⟩ | ⟨-, h⟩
    · exact ⟨m, t, s, hr, he, hts⟩
    · simp [hlast] at h

/-- `f(a=$v+g()){e==1} && !(f(){e>"s"})` -/
def roundTripTree : SyntaxItems Unit :=
  .cons (.func () (.ident ['f'])
      (some (.cons (.ident ['a']) (.cons (.val () (.ident ['v']) true) .add
        (.cons (.call () (.ident ['g']) .nil) .reserved .nil)) .nil))
      (.cons (.expr () (.ident ['e']) .equal
        (.cons (.val () (.ident ['1']) false) .reserved .nil)) .reserved .nil)) .and
    (.cons (.block () true (.cons (.func () (.ident ['f']) (some .nil)
      (.cons (.expr () (.ident ['e']) .gt
        (.cons (.val () (.quoted ['s']) false) .reserved .nil)) .reserved .nil)) .reserved .nil))
      .reserved .nil)

theorem interpSyntaxParse_roundTripTree : ∃ m t s,
    interpSyntaxParse NodePool.unit roundTripTree.toks () = .ok (some (m, t), s) ∧
      t.erase = roundTripTree ∧ s.toks = [] := by
  refine interpSyntaxParse_toks NodePool.unit () roundTripTree ?_ rfl
  simp [roundTripTree, SyntaxItems.WF, SyntaxItem.WF, argsWF, SyntaxArgs.WF, SyntaxVals.WF,
    SyntaxVal.WF, SyntaxArgs.count, Lexeme.IsIdent, Sym.IsArith, Sym.IsComp, Sym.IsJoin,
    getSymbolType, symWords, syntaxArgMax]

end Lre
