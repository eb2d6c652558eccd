import Lre.Lexer.Munch
import Lre.Syntax.Tree

/-!
# Writing a rule out

`dump_syntax_tree` writes a syntax tree as the text of a rule. An empty argument list is not
written, so a call `g()` comes out as the word `g`, and `f(){..}` as `f{..}`.

* `dumpSyntaxTree`: the text. A function in brace form shows the arguments its memory counts.
* `dumped`: the tree as it is written.
* `Spelled`: the words of tokens are as the lexer reads them.
* `lex_dumpSyntaxTree`: the tokens of the text are those of the tree as it is written.
-/

namespace Lre

variable {μ : Type}

/-! ## The text of a tree -/

/-- `get_symbol_str`. -/
def getSymbolStr : Sym → Option Word
  | .reserved => none
  | s => (symWords s).1

/-- What `%s` writes for a string pointer. -/
def stringText : Option Word → Word
  | some w => w
  | none => ['(', 'n', 'u', 'l', 'l', ')']

/-- ` %s ` of an operator. -/
def optText (opt : Sym) : Word := ' ' :: (stringText (getSymbolStr opt) ++ [' '])

/-- The operator behind a node, `node->opt`, if it has one. -/
def dumpOpt (opt : Sym) : Word := if opt = .reserved then [] else optText opt

/-- The comma behind an argument that is not the last. -/
def SyntaxArgs.comma : SyntaxArgs μ → Word
  | .nil => []
  | .cons .. => [',']

mutual

/-- A node of `dump_syntax_val`; `dump_syntax_call` for a call. -/
def dumpSyntaxVal : SyntaxVal μ → Word
  | .val _ x isvar => (if isvar then ['$'] else []) ++ x.cstr
  | .valblock _ childs => '(' :: (dumpSyntaxVals childs ++ [')'])
  | .call _ k args =>
    k.cstr ++ if args.count = 0 then [] else '(' :: (dumpSyntaxArgs args ++ [')'])

/-- `dump_syntax_val`. -/
def dumpSyntaxVals : SyntaxVals μ → Word
  | .nil => []
  | .cons node opt rest => dumpSyntaxVal node ++ dumpOpt opt ++ dumpSyntaxVals rest

/-- The arguments between the parentheses. -/
def dumpSyntaxArgs : SyntaxArgs μ → Word
  | .nil => []
  | .cons k vs rest => k.cstr ++ '=' :: (dumpSyntaxVals vs ++ rest.comma ++ dumpSyntaxArgs rest)

end

/-- The argument list of a function; in brace form, the keys that its memory still counts, each
with a list of operands that the parser has emptied. -/
def dumpFuncArgs (stale : μ → List Word) (m : μ) : Option (SyntaxArgs μ) → Word
  | some args => if args.count = 0 then [] else '(' :: (dumpSyntaxArgs args ++ [')'])
  | none =>
    if stale m = [] then [] else
      '(' :: ([','].intercalate ((stale m).map (· ++ ['='])) ++ [')'])

mutual

/-- `dump_syntax_func`, `dump_syntax_block` and `dump_syntax_expr`. -/
def dumpSyntaxItem (stale : μ → List Word) : SyntaxItem μ → Word
  | .func m k args body =>
    k.cstr ++ dumpFuncArgs stale m args ++ '{' :: (dumpSyntaxChilds stale body ++ ['}'])
  | .block _ negative childs =>
    (if negative then ['!'] else []) ++ '(' :: (dumpSyntaxChilds stale childs ++ [')'])
  | .expr _ k opt vs => k.cstr ++ optText opt ++ dumpSyntaxVals vs

/-- `dump_syntax_childs`. -/
def dumpSyntaxChilds (stale : μ → List Word) : SyntaxItems μ → Word
  | .nil => []
  | .cons node opt rest => dumpSyntaxItem stale node ++ dumpOpt opt ++ dumpSyntaxChilds stale rest

end

/-- `dump_syntax_tree`: what it writes to its buffer. -/
def dumpSyntaxTree (stale : μ → List Word) (tree : SyntaxItems μ) : Word :=
  dumpSyntaxChilds stale tree

/-! ## The tree as it is written -/

mutual

/-- An operand as it is written: a call without arguments becomes its word. -/
def SyntaxVal.dumped : SyntaxVal μ → SyntaxVal Unit
  | .val _ x isvar => .val () x isvar
  | .valblock _ childs => .valblock () childs.dumped
  | .call _ k args => if args.count = 0 then .val () k false else .call () k args.dumped

def SyntaxVals.dumped : SyntaxVals μ → SyntaxVals Unit
  | .nil => .nil
  | .cons node opt rest => .cons node.dumped opt rest.dumped

def SyntaxArgs.dumped : SyntaxArgs μ → SyntaxArgs Unit
  | .nil => .nil
  | .cons k vs rest => .cons k vs.dumped rest.dumped

end

/-- An empty list of arguments is not written. -/
def argsDumped : Option (SyntaxArgs μ) → Option (SyntaxArgs Unit)
  | none => none
  | some args => if args.count = 0 then none else some args.dumped

mutual

def SyntaxItem.dumped : SyntaxItem μ → SyntaxItem Unit
  | .func _ k args body => .func () k (argsDumped args) body.dumped
  | .block _ negative childs => .block () negative childs.dumped
  | .expr _ k opt vs => .expr () k opt vs.dumped

def SyntaxItems.dumped : SyntaxItems μ → SyntaxItems Unit
  | .nil => .nil
  | .cons node opt rest => .cons node.dumped opt rest.dumped

end

/-! ## Tokens in front of a text -/

/-- A lexeme as the lexer reads it: a word of keyword characters, or a string without a quote. -/
def Lexeme.Spelled : Lexeme → Prop
  | .ident w => w ≠ [] ∧ ∀ c ∈ w, isWordChar c = true
  | .quoted w => '"' ∉ w

/-- The words of the tokens are as the lexer reads them. -/
def Spelled (toks : List Token) : Prop := ∀ x, .word x ∈ toks → x.Spelled

/-- A text that does not go on with a keyword character. -/
def Breaks (rest : Word) : Prop := ∀ c ∈ rest.head?, isWordChar c = false

/-- The tokens, and then what is lexed behind them. -/
def withToks (toks : List Token) (p : List Token × LexEnd) : List Token × LexEnd :=
  (toks ++ p.1, p.2)

@[simp] theorem withToks_nil (p : List Token × LexEnd) : withToks [] p = p := rfl

theorem withToks_append (ts us : List Token) (p : List Token × LexEnd) :
    withToks (ts ++ us) p = withToks ts (withToks us p) := by
  simp only [withToks, List.append_assoc]

theorem spelled_append {ts us : List Token} : Spelled (ts ++ us) ↔ Spelled ts ∧ Spelled us := by
  constructor
  · exact fun h => ⟨fun x hx => h x (List.mem_append_left _ hx),
      fun x hx => h x (List.mem_append_right _ hx)⟩
  · rintro ⟨hts, hus⟩ x hx
    rcases List.mem_append.mp hx with hx | hx
    · exact hts x hx
    · exact hus x hx

theorem spelled_word {x : Lexeme} {ts : List Token} :
    Spelled (.word x :: ts) ↔ x.Spelled ∧ Spelled ts := by
  constructor
  · exact fun h => ⟨h x List.mem_cons_self, fun y hy => h y (List.mem_cons_of_mem _ hy)⟩
  · rintro ⟨hx, hts⟩ y hy
    rcases List.mem_cons.mp hy with hy | hy
    · cases hy
      exact hx
    · exact hts y hy

theorem spelled_symbol {s : Sym} {ts : List Token} :
    Spelled (.symbol s :: ts) ↔ Spelled ts := by
  constructor
  · exact fun h y hy => h y (List.mem_cons_of_mem _ hy)
  · rintro hts y hy
    rcases List.mem_cons.mp hy with hy | hy
    · cases hy
    · exact hts y hy

theorem scan_spelled {code rest : Word} {x : Lexeme} (h : scan code = .token (.word x) rest) :
    x.Spelled := by
  unfold scan at h
  split at h
  · cases h
  · rename_i c text _
    unfold scanToken at h
    split at h
    · rename_i hc
      cases h
      refine ⟨List.cons_ne_nil _ _, fun d hd => ?_⟩
      rcases List.mem_cons.mp hd with rfl | hd
      · exact hc
      · exact List.mem_takeWhile_imp hd
    · split at h
      · split at h
        · rename_i heq
          cases h
          exact scanQuote_notMem heq
        · cases h
      · split at h <;> cases h

theorem spelled_of_lex {code : Word} {toks : List Token} {e : LexEnd} (h : lex code = (toks, e)) :
    Spelled toks := by
  induction code using lex_induction generalizing toks e with
  | step code ih =>
    rw [lex_eq] at h
    cases hscan : scan code with
    | token t rest =>
      rw [hscan] at h
      cases h
      have hrest := ih t rest hscan rfl
      cases t with
      | symbol s => exact spelled_symbol.mpr hrest
      | word x =>
        exact spelled_word.mpr ⟨scan_spelled hscan, hrest⟩
    | _ =>
      rw [hscan] at h
      cases h
      exact fun x hx => absurd hx List.not_mem_nil

theorem lex_of_scan {code rest : Word} {t : Token} (h : scan code = .token t rest) :
    lex code = withToks [t] (lex rest) := by
  rw [lex_eq, h]
  rfl

theorem lex_word {x : Lexeme} (hx : x.Spelled) {rest : Word} (hrest : Breaks rest) :
    lex (x.cstr ++ rest) = withToks [.word x] (lex rest) := by
  cases x with
  | ident w => exact lex_of_scan (scan_ident hx.1 hx.2 hrest)
  | quoted w =>
    refine lex_of_scan ?_
    show scan ('"' :: (w ++ ['"'] ++ rest)) = _
    rw [List.append_assoc]
    exact scan_string hx

theorem lex_symbol {c : Char} {s : Sym} {rest : Word} (hblank : isBlank c = false)
    (hword : isWordChar c = false) (hquote : c ≠ '"') (hs : scanSymbol c rest = some (s, rest)) :
    lex (c :: rest) = withToks [.symbol s] (lex rest) := by
  refine lex_of_scan ?_
  rw [scan_of_not_blank hblank, scanToken, if_neg (by rw [hword]; exact Bool.false_ne_true),
    if_neg hquote, hs]

theorem lex_startParenthesis (rest : Word) :
    lex ('(' :: rest) = withToks [.symbol .startParenthesis] (lex rest) :=
  lex_symbol (by decide) (by decide) (by decide) rfl

theorem lex_endParenthesis (rest : Word) :
    lex (')' :: rest) = withToks [.symbol .endParenthesis] (lex rest) :=
  lex_symbol (by decide) (by decide) (by decide) rfl

theorem lex_startBrace (rest : Word) :
    lex ('{' :: rest) = withToks [.symbol .startBrace] (lex rest) :=
  lex_symbol (by decide) (by decide) (by decide) rfl

theorem lex_endBrace (rest : Word) :
    lex ('}' :: rest) = withToks [.symbol .endBrace] (lex rest) :=
  lex_symbol (by decide) (by decide) (by decide) rfl

theorem lex_comma (rest : Word) : lex (',' :: rest) = withToks [.symbol .comma] (lex rest) :=
  lex_symbol (by decide) (by decide) (by decide) rfl

theorem lex_var (rest : Word) : lex ('$' :: rest) = withToks [.symbol .var] (lex rest) :=
  lex_symbol (by decide) (by decide) (by decide) rfl

/-- `!` in front of a parenthesis is no part of `!=`. -/
theorem lex_negblock (rest : Word) :
    lex ('!' :: '(' :: rest) = withToks [.symbol .not] (lex ('(' :: rest)) :=
  lex_symbol (by decide) (by decide) (by decide) rfl

/-- `=` is no part of `==` when no `=` follows. -/
theorem lex_assign {c : Char} {rest : Word} (hc : c ≠ '=') :
    lex ('=' :: c :: rest) = withToks [.symbol .assign] (lex (c :: rest)) := by
  refine lex_symbol (by decide) (by decide) (by decide) ?_
  show some (scanPair '=' Sym.equal .assign (c :: rest)) = _
  rw [scanPair, if_neg hc]

theorem lex_optText {opt : Sym} (hopt : opt.IsArith ∨ opt.IsComp ∨ opt.IsJoin) (rest : Word) :
    lex (optText opt ++ rest) = withToks [.symbol opt] (lex rest) := by
  have hblank : ∀ code, lex (' ' :: code) = lex code := fun code => lex_blank rfl code
  rw [optText, List.cons_append, hblank, List.append_assoc, List.singleton_append,
    ← hblank rest]
  refine lex_of_scan ?_
  cases opt <;> first | rfl | exact absurd hopt (by decide)

/-! ## The tokens of the text -/

theorem breaks_cons {c : Char} (hc : isWordChar c = false) (rest : Word) : Breaks (c :: rest) := by
  intro d hd
  cases hd
  exact hc

theorem SyntaxArgs.eq_nil_of_count {args : SyntaxArgs μ} (h : args.count = 0) : args = .nil := by
  cases args with
  | nil => rfl
  | cons k vs rest => cases h

theorem SyntaxArgs.dumped_count (args : SyntaxArgs μ) : args.dumped.count = args.count := by
  cases args with
  | nil => rfl
  | cons k vs rest => exact congrArg (· + 1) rest.dumped_count

theorem dumpSyntaxVals_head {vs : SyntaxVals μ} (hwf : vs.WF) (hsp : Spelled vs.toks) :
    ∃ c text, dumpSyntaxVals vs = c :: text ∧ c ≠ '=' := by
  have hword : ∀ {x : Lexeme}, x.Spelled → ∃ c text, x.cstr = c :: text ∧ c ≠ '=' := by
    intro x hx
    cases x with
    | ident w =>
      obtain ⟨c, w, rfl⟩ := List.exists_cons_of_ne_nil hx.1
      refine ⟨c, w, rfl, ?_⟩
      rintro rfl
      exact absurd (hx.2 _ List.mem_cons_self) (by decide)
    | quoted w => exact ⟨'"', _, rfl, by decide⟩
  cases vs with
  | nil => exact hwf.elim
  | cons node opt rest =>
    rw [SyntaxVals.toks, List.append_assoc] at hsp
    have hnode := (spelled_append.mp hsp).1
    cases node with
    | val m x isvar =>
      cases isvar with
      | true => exact ⟨'$', _, rfl, by decide⟩
      | false =>
        obtain ⟨c, text, hc, hne⟩ := hword (spelled_word.mp hnode).1
        exact ⟨c, _, by simp only [dumpSyntaxVals, dumpSyntaxVal, hc]; rfl, hne⟩
    | valblock m childs => exact ⟨'(', _, rfl, by decide⟩
    | call m k args =>
      obtain ⟨c, text, hc, hne⟩ := hword (spelled_word.mp hnode).1
      exact ⟨c, _, by simp only [dumpSyntaxVals, dumpSyntaxVal, hc]; rfl, hne⟩

theorem breaks_optText (opt : Sym) (rest : Word) : Breaks (optText opt ++ rest) :=
  breaks_cons (by decide) _

mutual

theorem lex_dumpSyntaxVal : ∀ {node : SyntaxVal μ} {rest : Word}, node.WF → Spelled node.toks →
    Breaks rest →
    lex (dumpSyntaxVal node ++ rest) = withToks node.dumped.toks (lex rest)
  | .val _ x true, rest, _, hsp, hrest => by
    have hx := (spelled_word.mp (spelled_symbol.mp hsp)).1
    show lex ('$' :: (x.cstr ++ rest)) = _
    rw [lex_var, lex_word hx hrest]
    rfl
  | .val _ x false, rest, _, hsp, hrest => lex_word (spelled_word.mp hsp).1 hrest
  | .valblock _ childs, rest, hwf, hsp, hrest => by
    have hchilds := (spelled_append.mp (spelled_symbol.mp hsp)).1
    have htext : dumpSyntaxVal (.valblock ‹μ› childs) ++ rest =
        '(' :: (dumpSyntaxVals childs ++ ')' :: rest) := by
      simp [dumpSyntaxVal]
    rw [htext, lex_startParenthesis, lex_dumpSyntaxVals hwf hchilds (breaks_cons (by decide) _),
      lex_endParenthesis, ← withToks_append, ← withToks_append]
    simp [SyntaxVal.dumped, SyntaxVal.toks]
  | .call m k args, rest, hwf, hsp, hrest => by
    obtain ⟨-, hargs, -⟩ := hwf
    obtain ⟨hk, hsp⟩ := spelled_word.mp hsp
    have hsp := (spelled_append.mp (spelled_symbol.mp hsp)).1
    rw [dumpSyntaxVal, SyntaxVal.dumped]
    split
    · rw [List.append_nil]
      exact lex_word hk hrest
    · have htext : k.cstr ++ '(' :: (dumpSyntaxArgs args ++ [')']) ++ rest =
          k.cstr ++ '(' :: (dumpSyntaxArgs args ++ ')' :: rest) := by simp
      rw [htext, lex_word hk (breaks_cons (by decide) _), lex_startParenthesis,
        lex_dumpSyntaxArgs hargs hsp (breaks_cons (by decide) _), lex_endParenthesis,
        ← withToks_append, ← withToks_append, ← withToks_append]
      simp [SyntaxVal.toks]

theorem lex_dumpSyntaxVals : ∀ {vs : SyntaxVals μ} {rest : Word}, vs.WF → Spelled vs.toks →
    Breaks rest →
    lex (dumpSyntaxVals vs ++ rest) = withToks vs.dumped.toks (lex rest)
  | .nil, rest, hwf, _, _ => hwf.elim
  | .cons node opt .nil, rest, hwf, hsp, hrest => by
    obtain ⟨hnode, ⟨-, rfl⟩ | ⟨-, hnil⟩⟩ := hwf
    · simp only [SyntaxVals.toks, optToks, List.append_nil] at hsp
      have htext : dumpSyntaxVals (.cons node .reserved .nil) ++ rest =
          dumpSyntaxVal node ++ rest := by simp [dumpSyntaxVals, dumpOpt]
      rw [htext, lex_dumpSyntaxVal hnode hsp hrest]
      simp [SyntaxVals.dumped, SyntaxVals.toks, optToks]
    · exact hnil.elim
  | .cons node opt (.cons node₂ opt₂ rest₂), rest, hwf, hsp, hrest => by
    obtain ⟨hnode, ⟨hnil, -⟩ | ⟨hopt, hvs⟩⟩ := hwf
    · cases hnil
    · have hne : opt ≠ .reserved := by rintro rfl; exact absurd hopt (by decide)
      have htoks : optToks opt = [.symbol opt] := by
        cases opt <;> first | rfl | exact (hne rfl).elim
      rw [SyntaxVals.toks, htoks, List.append_assoc, spelled_append] at hsp
      have htext : dumpSyntaxVals (.cons node opt (.cons node₂ opt₂ rest₂)) ++ rest =
          dumpSyntaxVal node ++ (optText opt ++
            (dumpSyntaxVals (.cons node₂ opt₂ rest₂) ++ rest)) := by
        rw [dumpSyntaxVals, dumpOpt, if_neg hne, List.append_assoc, List.append_assoc]
      rw [htext, lex_dumpSyntaxVal hnode hsp.1 (breaks_optText _ _), lex_optText (.inl hopt),
        lex_dumpSyntaxVals hvs (spelled_symbol.mp hsp.2) hrest, ← withToks_append,
        ← withToks_append]
      simp only [SyntaxVals.dumped, SyntaxVals.toks, htoks, List.append_assoc]

theorem lex_dumpSyntaxArgs : ∀ {args : SyntaxArgs μ} {rest : Word}, args.WF → Spelled args.toks →
    Breaks rest →
    lex (dumpSyntaxArgs args ++ rest) = withToks args.dumped.toks (lex rest)
  | .nil, rest, _, _, _ => rfl
  | .cons k vs .nil, rest, hwf, hsp, hrest => by
    obtain ⟨-, hvs, -⟩ := hwf
    simp only [SyntaxArgs.toks, SyntaxArgs.sepToks, List.append_nil, spelled_word,
      spelled_symbol] at hsp
    obtain ⟨hk, hsp⟩ := hsp
    obtain ⟨c, text, htext, hc⟩ := dumpSyntaxVals_head hvs hsp
    have hlex := lex_dumpSyntaxVals hvs hsp hrest
    have hcons : dumpSyntaxArgs (.cons k vs .nil) ++ rest =
        k.cstr ++ '=' :: (c :: (text ++ rest)) := by
      simp [dumpSyntaxArgs, SyntaxArgs.comma, htext]
    rw [htext, List.cons_append] at hlex
    rw [hcons, lex_word hk (breaks_cons (by decide) _), lex_assign hc, hlex, ← withToks_append,
      ← withToks_append]
    simp [SyntaxArgs.dumped, SyntaxArgs.toks, SyntaxArgs.sepToks]
  | .cons k vs (.cons k₂ vs₂ rest₂), rest, hwf, hsp, hrest => by
    obtain ⟨-, hvs, hargs⟩ := hwf
    rw [SyntaxArgs.toks] at hsp
    simp only [SyntaxArgs.sepToks, List.append_assoc, List.cons_append, List.nil_append,
      spelled_word, spelled_symbol, spelled_append] at hsp
    obtain ⟨hk, hspv, hspr⟩ := hsp
    obtain ⟨c, text, htext, hc⟩ := dumpSyntaxVals_head hvs hspv
    have hlex := @lex_dumpSyntaxVals vs (',' :: (dumpSyntaxArgs (.cons k₂ vs₂ rest₂) ++ rest))
      hvs hspv (breaks_cons (by decide) _)
    have hcons : dumpSyntaxArgs (.cons k vs (.cons k₂ vs₂ rest₂)) ++ rest =
        k.cstr ++ '=' :: (c :: (text ++ ',' :: (dumpSyntaxArgs (.cons k₂ vs₂ rest₂) ++ rest))) := by
      rw [dumpSyntaxArgs, htext]
      simp [SyntaxArgs.comma]
    rw [htext, List.cons_append] at hlex
    rw [hcons, lex_word hk (breaks_cons (by decide) _), lex_assign hc, hlex, lex_comma,
      lex_dumpSyntaxArgs hargs hspr hrest, ← withToks_append, ← withToks_append,
      ← withToks_append, ← withToks_append]
    simp [SyntaxArgs.dumped, SyntaxArgs.toks, SyntaxArgs.sepToks]

end

theorem argsDumped_of_count {args : SyntaxArgs μ} (h : args.count ≠ 0) :
    argsDumped (some args) = some args.dumped := if_neg h

mutual

theorem lex_dumpSyntaxItem {stale : μ → List Word} : ∀ {node : SyntaxItem μ} {rest : Word},
    node.WF → node.Closed → Spelled node.toks → Breaks rest →
    lex (dumpSyntaxItem stale node ++ rest) = withToks node.dumped.toks (lex rest)
  | .func _ k none body, rest, _, hclosed, _, _ => absurd hclosed.1 Bool.false_ne_true
  | .func m k (some args) body, rest, hwf, hclosed, hsp, hrest => by
    obtain ⟨-, ⟨hargs, -⟩, hbody⟩ := hwf
    rw [SyntaxItem.toks] at hsp
    simp only [List.append_assoc, List.cons_append, spelled_word, spelled_symbol,
      spelled_append] at hsp
    obtain ⟨hk, hspa, hspb, -⟩ := hsp
    have hlex := @lex_dumpSyntaxChilds stale body ('}' :: rest) hbody hclosed.2 hspb
      (breaks_cons (by decide) _)
    by_cases hcount : args.count = 0
    · have htext : dumpSyntaxItem stale (.func m k (some args) body) ++ rest =
          k.cstr ++ '{' :: (dumpSyntaxChilds stale body ++ '}' :: rest) := by
        simp [dumpSyntaxItem, dumpFuncArgs, hcount]
      rw [htext, lex_word hk (breaks_cons (by decide) _), lex_startBrace, hlex, lex_endBrace,
        ← withToks_append, ← withToks_append, ← withToks_append]
      simp [SyntaxItem.dumped, argsDumped, hcount, SyntaxItem.toks]
    · have htext : dumpSyntaxItem stale (.func m k (some args) body) ++ rest =
          k.cstr ++ '(' :: (dumpSyntaxArgs args ++ ')' :: '{' ::
            (dumpSyntaxChilds stale body ++ '}' :: rest)) := by
        simp [dumpSyntaxItem, dumpFuncArgs, hcount]
      rw [htext, lex_word hk (breaks_cons (by decide) _), lex_startParenthesis,
        lex_dumpSyntaxArgs hargs hspa (breaks_cons (by decide) _), lex_endParenthesis,
        lex_startBrace, hlex, lex_endBrace, ← withToks_append, ← withToks_append,
        ← withToks_append, ← withToks_append, ← withToks_append, ← withToks_append]
      simp [SyntaxItem.dumped, argsDumped_of_count hcount, SyntaxItem.toks]
  | .block m true childs, rest, hwf, hclosed, hsp, hrest => by
    have htext : dumpSyntaxItem stale (.block m true childs) ++ rest =
        '!' :: '(' :: (dumpSyntaxChilds stale childs ++ ')' :: rest) := by simp [dumpSyntaxItem]
    simp only [SyntaxItem.toks, List.cons_append, spelled_symbol, spelled_append] at hsp
    rw [htext, lex_negblock, lex_startParenthesis,
      lex_dumpSyntaxChilds hwf hclosed hsp.1 (breaks_cons (by decide) _), lex_endParenthesis,
      ← withToks_append, ← withToks_append, ← withToks_append]
    simp [SyntaxItem.dumped, SyntaxItem.toks]
  | .block m false childs, rest, hwf, hclosed, hsp, hrest => by
    have htext : dumpSyntaxItem stale (.block m false childs) ++ rest =
        '(' :: (dumpSyntaxChilds stale childs ++ ')' :: rest) := by simp [dumpSyntaxItem]
    simp only [SyntaxItem.toks, List.cons_append, spelled_symbol, spelled_append] at hsp
    rw [htext, lex_startParenthesis,
      lex_dumpSyntaxChilds hwf hclosed hsp.1 (breaks_cons (by decide) _), lex_endParenthesis,
      ← withToks_append, ← withToks_append]
    simp [SyntaxItem.dumped, SyntaxItem.toks]
  | .expr m k opt vs, rest, hwf, _, hsp, hrest => by
    obtain ⟨-, hopt, hvs⟩ := hwf
    simp only [SyntaxItem.toks, spelled_word, spelled_symbol] at hsp
    have htext : dumpSyntaxItem stale (.expr m k opt vs) ++ rest =
        k.cstr ++ (optText opt ++ (dumpSyntaxVals vs ++ rest)) := by simp [dumpSyntaxItem]
    rw [htext, lex_word hsp.1 (breaks_optText _ _), lex_optText (.inr (.inl hopt)),
      lex_dumpSyntaxVals hvs hsp.2 hrest, ← withToks_append, ← withToks_append]
    simp [SyntaxItem.dumped, SyntaxItem.toks]

theorem lex_dumpSyntaxChilds {stale : μ → List Word} : ∀ {items : SyntaxItems μ} {rest : Word},
    items.WF → items.Closed → Spelled items.toks → Breaks rest →
    lex (dumpSyntaxChilds stale items ++ rest) = withToks items.dumped.toks (lex rest)
  | .nil, rest, hwf, _, _, _ => hwf.elim
  | .cons node opt .nil, rest, hwf, hclosed, hsp, hrest => by
    obtain ⟨hnode, ⟨-, rfl⟩ | ⟨-, hnil⟩⟩ := hwf
    · simp only [SyntaxItems.toks, optToks, List.append_nil] at hsp
      have htext : dumpSyntaxChilds stale (.cons node .reserved .nil) ++ rest =
          dumpSyntaxItem stale node ++ rest := by simp [dumpSyntaxChilds, dumpOpt]
      rw [htext, lex_dumpSyntaxItem hnode hclosed.1 hsp hrest]
      simp [SyntaxItems.dumped, SyntaxItems.toks, optToks]
    · exact hnil.elim
  | .cons node opt (.cons node₂ opt₂ rest₂), rest, hwf, hclosed, hsp, hrest => by
    obtain ⟨hnode, ⟨hnil, -⟩ | ⟨hopt, hitems⟩⟩ := hwf
    · cases hnil
    · have hne : opt ≠ .reserved := by rintro rfl; exact absurd hopt (by decide)
      have htoks : optToks opt = [.symbol opt] := by rcases hopt with rfl | rfl <;> rfl
      rw [SyntaxItems.toks, htoks, List.append_assoc, spelled_append] at hsp
      have htext : dumpSyntaxChilds stale (.cons node opt (.cons node₂ opt₂ rest₂)) ++ rest =
          dumpSyntaxItem stale node ++ (optText opt ++
            (dumpSyntaxChilds stale (.cons node₂ opt₂ rest₂) ++ rest)) := by
        rw [dumpSyntaxChilds, dumpOpt, if_neg hne, List.append_assoc, List.append_assoc]
      rw [htext, lex_dumpSyntaxItem hnode hclosed.1 hsp.1 (breaks_optText _ _),
        lex_optText (.inr (.inr hopt)),
        lex_dumpSyntaxChilds hitems hclosed.2 (spelled_symbol.mp hsp.2) hrest,
        ← withToks_append, ← withToks_append]
      simp only [SyntaxItems.dumped, SyntaxItems.toks, htoks, List.append_assoc]

end

/-- **The tokens of the text of a tree are those of the tree as it is written.** -/
theorem lex_dumpSyntaxTree {stale : μ → List Word} {tree : SyntaxItems μ} (hwf : tree.WF)
    (hclosed : tree.Closed) (hsp : Spelled tree.toks) :
    lex (dumpSyntaxTree stale tree) = (tree.dumped.toks, .eof) := by
  have h := @lex_dumpSyntaxChilds _ stale tree [] hwf hclosed hsp (fun _ hc => by cases hc)
  rw [List.append_nil] at h
  rw [dumpSyntaxTree, h]
  show (tree.dumped.toks ++ [], _) = _
  rw [List.append_nil]
  rfl

end Lre
