import Lre.Macro.Preprocess
import Lre.Syntax.Sound

/-!
# The beginning of a rule

`interp_preprocess` wants a keyword in front, where the grammar of the parser has blocks as well.

* `TokenReader`: the tokens of a context with `tokenidx`; `interpPreprocessAt`: the preprocessor
  on them; `interpPreprocessAt_fst`: it does what `interpPreprocess` does.
* `SyntaxItems.BeginsWithKeyword`: the first item is a function or an expression;
  `interpSyntaxParse_beginsWithKeyword`: in what the parser accepts, a keyword stands in front
  exactly then.
* **`interpPreprocess_untouched_iff`**: the rules without macros that reach the parser.
-/

namespace Lre

open Run

/-! ## Tokens with a position -/

/-- `tokens` and `tokenidx` of `struct interp_context`. -/
structure TokenReader where
  tokens : List Token
  tokenidx : ℕ
  deriving DecidableEq

namespace TokenReader

/-- The tokens from `tokenidx` on. -/
def rest (r : TokenReader) : List Token := r.tokens.drop r.tokenidx

/-- `peek_curr_token`. -/
def peekCurr (r : TokenReader) : Option Token := r.tokens[r.tokenidx]?

/-- `tokenidx` behind the current token. -/
def skip (r : TokenReader) : TokenReader := { r with tokenidx := r.tokenidx + 1 }

/-- `read_token`. -/
def read (r : TokenReader) : Option Token × TokenReader :=
  match r.peekCurr with
  | none => (none, r)
  | some t => (some t, r.skip)

theorem peekCurr_eq (r : TokenReader) : r.peekCurr = r.rest.head? := by
  rw [peekCurr, rest, List.head?_drop]

@[simp] theorem rest_skip (r : TokenReader) : r.skip.rest = r.rest.tail := by
  rw [skip, rest, rest, List.tail_drop]

end TokenReader

/-! ## The preprocessor -/

/-- The loop of `prase_macro_call_arg`, with the rounds that are left; `none` is `-EINVAL`. -/
def macroCallArgLoopAt : ℕ → TokenReader → Option (List Word) × TokenReader
  | 0, r => (none, r)
  | n + 1, r =>
    match r.read with
    | (some (.word x), r) =>
      match r.read with
      | (some (.symbol .comma), r) =>
        let (args, r) := macroCallArgLoopAt n r
        (args.map (x.cstr :: ·), r)
      | (some (.symbol .endParenthesis), r) => (some [x.cstr], r)
      | (_, r) => (none, r)
    | (_, r) => (none, r)

/-- `prase_macro_call_arg`. -/
def praseMacroCallArgAt (r : TokenReader) : Option (List Word) × TokenReader :=
  match r.read with
  | (some (.symbol .startParenthesis), r) =>
    match r.peekCurr with
    | none => (none, r)
    | some (.symbol .endParenthesis) => (some [], r.skip)
    | some _ => macroCallArgLoopAt lreMacroArgcMax r
  | (_, r) => (none, r)

/-- `preprocess_content` up to the reload of the code, which puts new tokens in their place. -/
def preprocessContentAt (tbl : MacroTable) (key : Word) (r : TokenReader) :
    Preprocess × TokenReader :=
  match praseMacroCallArgAt r.skip with
  | (none, r) => (.err, r)
  | (some args, r) =>
    match lreFindMacro tbl key args.length with
    | none => (.err, r)
    | some mac =>
      match lreCreateCodeByMacro mac args with
      | none => (.err, r)
      | some code => (.resRepeat code, r)

/-- `interp_preprocess`. -/
def interpPreprocessAt (tbl : MacroTable) (r : TokenReader) : Preprocess × TokenReader :=
  match r.peekCurr with
  | some (.word (.ident key)) =>
    if isLreMacro tbl key then preprocessContentAt tbl key r else (.ok, r)
  | _ => (.err, r)

theorem TokenReader.read_eq (r : TokenReader) :
    r.read = match r.rest with
      | [] => (none, r)
      | t :: _ => (some t, r.skip) := by
  rw [read, peekCurr_eq]
  cases r.rest <;> rfl

theorem macroCallArgLoopAt_fst : ∀ (n : ℕ) (r : TokenReader),
    (macroCallArgLoopAt n r).1 = (macroCallArgLoop n r.rest).map Prod.fst
  | 0, _ => rfl
  | n + 1, r => by
    have hskip := r.rest_skip
    rw [macroCallArgLoopAt, r.read_eq]
    cases hrest : r.rest with
    | nil => rfl
    | cons t toks =>
      rw [hrest, List.tail_cons] at hskip
      cases t with
      | symbol _ => rfl
      | word x =>
        have hskip₂ := r.skip.rest_skip
        dsimp only
        rw [r.skip.read_eq, hskip]
        cases toks with
        | nil => rfl
        | cons t toks =>
          rw [hskip, List.tail_cons] at hskip₂
          cases t with
          | word _ => rfl
          | symbol o =>
            cases o with
            | comma =>
              show ((macroCallArgLoopAt n r.skip.skip).1.map (x.cstr :: ·)) = _
              rw [macroCallArgLoopAt_fst n, hskip₂, macroCallArgLoop]
              rw [Option.map_map, Option.map_map]
              rfl
            | _ => rfl

theorem praseMacroCallArgAt_fst (r : TokenReader) :
    (praseMacroCallArgAt r).1 = (praseMacroCallArg r.rest).map Prod.fst := by
  have hskip := r.rest_skip
  rw [praseMacroCallArgAt, r.read_eq]
  cases hrest : r.rest with
  | nil => rfl
  | cons t toks =>
    rw [hrest, List.tail_cons] at hskip
    cases t with
    | word _ => rfl
    | symbol o =>
      cases o with
      | startParenthesis =>
        have hloop := macroCallArgLoopAt_fst lreMacroArgcMax r.skip
        rw [hskip] at hloop
        dsimp only
        rw [r.skip.peekCurr_eq, hskip]
        cases toks with
        | nil => rfl
        | cons t toks =>
          cases t with
          | word _ => exact hloop
          | symbol o =>
            cases o with
            | endParenthesis => rfl
            | _ => exact hloop
      | _ => rfl

/-- **The preprocessor at a position does what `interpPreprocess` does on the tokens from there
on.** -/
theorem interpPreprocessAt_fst (tbl : MacroTable) (r : TokenReader) :
    (interpPreprocessAt tbl r).1 = interpPreprocess tbl r.rest := by
  have hskip := r.rest_skip
  rw [interpPreprocessAt, r.peekCurr_eq]
  cases hrest : r.rest with
  | nil => rfl
  | cons t toks =>
    rw [hrest, List.tail_cons] at hskip
    cases t with
    | symbol _ => rfl
    | word x =>
      cases x with
      | quoted _ => rfl
      | ident key =>
        rw [List.head?_cons, interpPreprocess]
        dsimp only
        split
        · have hargs := praseMacroCallArgAt_fst r.skip
          rw [hskip] at hargs
          rw [preprocessContentAt, preprocessContent, macroCode]
          cases hat : praseMacroCallArgAt r.skip with | mk args? r' =>
          rw [hat] at hargs
          obtain rfl : args? = (praseMacroCallArg toks).map Prod.fst := hargs
          cases praseMacroCallArg toks with
          | none => rfl
          | some p =>
            obtain ⟨args, rest⟩ := p
            show (match lreFindMacro tbl key args.length with
              | none => (Preprocess.err, r')
              | some mac =>
                match lreCreateCodeByMacro mac args with
                | none => (.err, r')
                | some code => (.resRepeat code, r')).1 = _
            simp only [Option.bind_eq_bind, Option.bind_some]
            cases lreFindMacro tbl key args.length with
            | none => rfl
            | some mac =>
              simp only [Option.bind_some]
              cases lreCreateCodeByMacro mac args <;> rfl
        · rfl

/-! ## Accepted rules -/

variable {π μ : Type} {P : NodePool π μ}

/-- A parenthesised or negated block. -/
def SyntaxItem.IsBlock : SyntaxItem μ → Prop
  | .block .. => True
  | _ => False

/-- The first item is a function or an expression. -/
def SyntaxItems.BeginsWithKeyword : SyntaxItems μ → Prop
  | .nil => False
  | .cons node _ _ => ¬node.IsBlock

/-- A keyword stands in front. -/
def KeywordFirst (toks : List Token) : Prop := ∃ w rest, toks = .key w :: rest

theorem not_keywordFirst_of_symbol {toks : List Token} {o : Sym}
    (h : toks.head? = some (.symbol o)) : ¬KeywordFirst toks := by
  rintro ⟨w, rest, rfl⟩
  cases h

theorem wp_syntaxAddItem_first {node : SyntaxItem μ} {more : Parse π (Bool × SyntaxItems μ)}
    {s : ParseState π} : wp (fun _ => True) (syntaxAddItem node more)
      (fun r _ => ∃ opt rest, r.2 = .cons node opt rest) s := by
  unfold syntaxAddItem
  refine wp_bind_of_forall fun opt s₁ => ?_
  split
  · refine wp_bind_of_forall fun opt s₂ => ?_
    split
    · refine wp_bind_of_forall fun _ s₃ => wp_bind_of_forall fun _ s₄ => ?_
      exact wp_bind_of_forall fun _ _ => ⟨_, _, rfl⟩
    · exact ⟨_, _, rfl⟩
  · refine wp_bind_of_forall fun bracket s₂ => ?_
    split
    · exact ⟨_, _, rfl⟩
    · refine wp_bind_of_forall fun _ s₃ => ?_
      exact wp_bind_of_forall fun _ _ => ⟨_, _, rfl⟩

/-- What is parsed is no block. -/
def NoBlock (r : Option (SyntaxItem μ)) (_ : ParseState π) : Prop := ∀ node ∈ r, ¬node.IsBlock

theorem wp_freeNode_noBlock {m : μ} {s : ParseState π} :
    wp (fun _ => True) (do freeNode P m; return (none : Option (SyntaxItem μ))) NoBlock s := nofun

theorem wp_syntaxParseFuncEnd_noBlock {m : μ} {k : Lexeme} {args : Option (SyntaxArgs μ)}
    {body : Parse π (Bool × SyntaxItems μ)} {s : ParseState π} :
    wp (fun _ => True) (syntaxParseFuncEnd P m k args body) NoBlock s := by
  unfold syntaxParseFuncEnd
  refine wp_bind_of_forall fun r s₁ => ?_
  dsimp only
  split
  · refine wp_bind_of_forall fun bracket s₂ => ?_
    split
    · rintro node ⟨⟩
      exact id
    · exact wp_freeNode_noBlock
  · exact wp_freeNode_noBlock

theorem wp_syntaxParseFunc_noBlock {n : ℕ} {s : ParseState π} :
    wp (fun _ => True) (syntaxParseFunc P n) NoBlock s := by
  cases n with
  | zero => trivial
  | succ n =>
    rw [syntaxParseFunc]
    refine wp_bind_of_forall fun m s₁ => wp_bind_of_forall fun k s₂ => ?_
    split
    · exact wp_freeNode_noBlock
    · refine wp_bind_of_forall fun bracket s₃ => ?_
      split
      · refine wp_bind_of_forall fun args s₄ => ?_
        split
        · exact wp_freeNode_noBlock
        · refine wp_bind_of_forall fun brace s₅ => ?_
          split
          · exact wp_syntaxParseFuncEnd_noBlock
          · exact wp_freeNode_noBlock
      · exact wp_syntaxParseFuncEnd_noBlock
      · exact wp_freeNode_noBlock

theorem wp_syntaxParseExpr_noBlock {n : ℕ} {s : ParseState π} :
    wp (fun _ => True) (syntaxParseExpr P n) NoBlock s := by
  unfold syntaxParseExpr
  refine wp_bind_of_forall fun m s₁ => wp_bind_of_forall fun k s₂ => ?_
  split
  · exact wp_freeNode_noBlock
  · refine wp_bind_of_forall fun opt s₃ => ?_
    split
    · refine wp_bind_of_forall fun r s₄ => ?_
      dsimp only
      split
      · rintro node ⟨⟩
        exact id
      · exact wp_freeNode_noBlock
    · exact wp_freeNode_noBlock

theorem wp_syntaxCloseBlock_isBlock {negative : Bool}
    {block : Parse π (Option (μ × SyntaxItems μ))} {s : ParseState π} :
    wp (fun _ => True) (syntaxCloseBlock negative block) (fun r _ => ∀ node ∈ r, node.IsBlock)
      s := by
  unfold syntaxCloseBlock
  refine wp_bind_of_forall fun r s₁ => ?_
  split
  · exact nofun
  · refine wp_bind_of_forall fun bracket s₂ => ?_
    split
    · rintro node ⟨⟩
      trivial
    · exact nofun

theorem wp_syntaxAddItem_beginsWith {node : SyntaxItem μ}
    {more : Parse π (Bool × SyntaxItems μ)} {s : ParseState π} {toks : List Token}
    (h : ¬node.IsBlock ↔ KeywordFirst toks) : wp (fun _ => True) (syntaxAddItem node more)
      (fun r _ => r.1 = true → (r.2.BeginsWithKeyword ↔ KeywordFirst toks)) s := by
  refine wp_mono wp_syntaxAddItem_first ?_
  rintro ⟨ret, items⟩ s' ⟨opt, rest, hitems⟩ -
  obtain rfl : items = _ := hitems
  exact h

theorem wp_item_beginsWith {x : Parse π (Option (SyntaxItem μ))}
    {more : Parse π (Bool × SyntaxItems μ)} {s : ParseState π} {toks : List Token}
    (hx : wp (fun _ => True) x (fun r _ => ∀ node ∈ r, ¬node.IsBlock ↔ KeywordFirst toks) s) :
    wp (fun _ => True) (do
      match ← x with
      | none => return (false, .nil)
      | some node => syntaxAddItem node more)
      (fun r _ => r.1 = true → (r.2.BeginsWithKeyword ↔ KeywordFirst toks)) s := by
  refine (wp_bind ..).mpr (wp_mono hx ?_)
  rintro (_ | node) s₁ hnode
  · exact fun h => absurd h Bool.false_ne_true
  · exact wp_syntaxAddItem_beginsWith (hnode node rfl)

/-- **What the parser makes of a list of items.** -/
theorem wp_syntaxParseBlock'_beginsWith {n : ℕ} {s : ParseState π} :
    wp (fun _ => True) (syntaxParseBlock' P n)
      (fun r _ => r.1 = true → (r.2.BeginsWithKeyword ↔ KeywordFirst s.toks)) s := by
  cases n with
  | zero => trivial
  | succ n =>
    rw [syntaxParseBlock']
    simp only [wp_bind, wp_peekExprType]
    cases hty : exprType s.toks.head? s.toks.tail.head? with
    | eof =>
      intro _
      have hnil : s.toks = [] := List.head?_eq_none_iff.mp (eq_of_exprType_eof hty)
      refine iff_of_false id ?_
      rintro ⟨w, rest, htoks⟩
      rw [hnil] at htoks
      cases htoks
    | unknown => exact fun h => absurd h Bool.false_ne_true
    | func =>
      obtain ⟨w, hw⟩ := eq_of_exprType_func hty
      have hkey : KeywordFirst s.toks := ⟨w, eq_cons_of_head? hw⟩
      refine wp_item_beginsWith (wp_mono wp_syntaxParseFunc_noBlock ?_)
      intro r s₁ hr node hnode
      exact iff_of_true (hr node hnode) hkey
    | normal =>
      obtain ⟨w, hw⟩ := eq_of_exprType_normal hty
      have hkey : KeywordFirst s.toks := ⟨w, eq_cons_of_head? hw⟩
      refine wp_item_beginsWith (wp_mono wp_syntaxParseExpr_noBlock ?_)
      intro r s₁ hr node hnode
      exact iff_of_true (hr node hnode) hkey
    | negBlock =>
      have hkey := not_keywordFirst_of_symbol (eq_of_exprType_negBlock hty).1
      refine wp_bind_of_forall fun _ s₁ => ?_
      refine wp_item_beginsWith (wp_mono wp_syntaxCloseBlock_isBlock ?_)
      intro r s₁ hr node hnode
      exact iff_of_false (not_not_intro (hr node hnode)) hkey
    | block =>
      have hkey := not_keywordFirst_of_symbol (eq_of_exprType_block hty)
      refine wp_bind_of_forall fun _ s₁ => ?_
      refine wp_item_beginsWith (wp_mono wp_syntaxCloseBlock_isBlock ?_)
      intro r s₁ hr node hnode
      exact iff_of_false (not_not_intro (hr node hnode)) hkey

/-- **In a rule that the parser accepts, a keyword stands in front exactly when the first item is a
function or an expression.** -/
theorem interpSyntaxParse_beginsWithKeyword {toks : List Token} {pool : π} {m : μ}
    {items : SyntaxItems μ} {s : ParseState π}
    (h : interpSyntaxParse P toks pool = .ok (some (m, items), s)) :
    items.BeginsWithKeyword ↔ KeywordFirst toks := by
  rw [interpSyntaxParse, syntaxParseContent] at h
  obtain ⟨m', s₁, hm, h⟩ := bind_inv h
  cases hm
  obtain ⟨_, s₂, hmark, h⟩ := bind_inv h
  have htoks : s₂.toks = toks := by
    cases hmark
    rfl
  obtain ⟨⟨ret, childs⟩, s₃, hblock, h⟩ := bind_inv h
  have hfirst := (wp_syntaxParseBlock'_beginsWith (P := P)).of_ok hblock
  dsimp only at h
  cases ret with
  | false => cases h
  | true =>
    obtain ⟨_, s₄, -, h⟩ := bind_inv h
    cases h
    exact htoks ▸ hfirst rfl

/-- What the preprocessor leaves as it is. -/
theorem interpPreprocessAt_eq_ok_iff {tbl : MacroTable} {toks : List Token}
    (hkeys : ∀ w, .key w ∈ toks → isLreMacro tbl w = false) :
    interpPreprocessAt tbl ⟨toks, 0⟩ = (.ok, ⟨toks, 0⟩) ↔ KeywordFirst toks := by
  constructor
  · intro h
    have hok : interpPreprocess tbl toks = .ok := by
      have hfst := interpPreprocessAt_fst tbl ⟨toks, 0⟩
      rw [h] at hfst
      exact hfst.symm
    unfold interpPreprocess at hok
    split at hok
    · exact ⟨_, _, rfl⟩
    · cases hok
  · rintro ⟨w, rest, rfl⟩
    have hnone : isLreMacro tbl w = false := hkeys w List.mem_cons_self
    show (if isLreMacro tbl w then _ else (Preprocess.ok, (⟨.key w :: rest, 0⟩ : TokenReader))) = _
    rw [hnone]
    rfl

/-- **A rule that the parser accepts, and in which no keyword names a macro, passes the preprocessor
as it is exactly when its first item is a function or an expression.** -/
theorem interpPreprocess_untouched_iff {tbl : MacroTable} {toks : List Token} {pool : π} {m : μ}
    {items : SyntaxItems μ} {s : ParseState π}
    (hparse : interpSyntaxParse P toks pool = .ok (some (m, items), s))
    (hkeys : ∀ w, .key w ∈ toks → isLreMacro tbl w = false) :
    interpPreprocessAt tbl ⟨toks, 0⟩ = (.ok, ⟨toks, 0⟩) ↔ items.BeginsWithKeyword := by
  rw [interpPreprocessAt_eq_ok_iff hkeys, interpSyntaxParse_beginsWithKeyword hparse]

/-- The rule `f{e=="1"}`. -/
theorem interpPreprocess_untouched_func :
    interpPreprocessAt .empty ⟨(plainFunc ['f']).toks, 0⟩ = (.ok, ⟨(plainFunc ['f']).toks, 0⟩) := by
  have hparse : interpSyntaxParse NodePool.unit (plainFunc ['f']).toks () =
      .ok (some ((), .cons (plainFunc ['f']) .reserved .nil), ⟨[], (), []⟩) := by
    decide +kernel
  exact (interpPreprocess_untouched_iff hparse fun _ _ => rfl).mpr id

/-- The tokens of `(f{e=="1"})`. -/
def blockToks : List Token :=
  .symbol .startParenthesis :: (plainFunc ['f']).toks ++ [.symbol .endParenthesis]

/-- The rule `(f{e=="1"})` is in the grammar and does not pass the preprocessor. -/
theorem interpPreprocess_block :
    interpPreprocessAt .empty ⟨blockToks, 0⟩ = (.err, ⟨blockToks, 0⟩) ∧
    ¬∀ (tbl : MacroTable) (toks : List Token) (m : Unit) (items : SyntaxItems Unit)
        (s : ParseState Unit),
      interpSyntaxParse NodePool.unit toks () = .ok (some (m, items), s) →
      (∀ w, .key w ∈ toks → isLreMacro tbl w = false) →
      interpPreprocessAt tbl ⟨toks, 0⟩ = (.ok, ⟨toks, 0⟩) := by
  refine ⟨rfl, fun hall => ?_⟩
  have hparse : interpSyntaxParse NodePool.unit blockToks () =
      .ok (some ((), .cons (.block () false (.cons (plainFunc ['f']) .reserved .nil)) .reserved
        .nil), ⟨[], (), []⟩) := by
    decide +kernel
  exact absurd (hall .empty blockToks _ _ _ hparse fun _ _ => rfl) nofun

end Lre
