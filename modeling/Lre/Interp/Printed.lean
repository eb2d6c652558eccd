import Lre.Interp.History
import Lre.Syntax.Written

/-!
# Executing what was written out

* `rule_dumpSyntaxTree`: the text of a tree is executed as the tree: the lexer, the macros and the
  parser in front of the semantic analysis add and lose nothing.
* `interpreterExecute_dumpSyntaxTree`: a rule and its text give the same report, whatever was
  executed before.
-/

namespace Lre

open CString

variable {σ η D μ : Type}

/-! ## The analysis of a tree as it is written -/

mutual

/-- An empty argument list resolves like one that is not there, in memory that counts none. -/
theorem semaniticParseItem_dumped (stale : μ → List Word) (tab : KeywordTable σ η D)
    (kwvec : Option (Slots ℕ)) : ∀ node : SyntaxItem μ, node.Closed → node.emptyCalls = 0 →
      semaniticParseItem (fun _ => []) tab kwvec node.dumped =
        semaniticParseItem stale tab kwvec node
  | .func _ _ none _, hclosed, _ => absurd hclosed.1 Bool.false_ne_true
  | .func m keyword (some args) body, hclosed, hcalls => by
    obtain ⟨hargs, hbody⟩ := Nat.add_eq_zero_iff.mp hcalls
    have hfunc : ∀ subvec, semaniticFuncArgs (fun _ => []) tab subvec kwvec ()
        (argsDumped (some args)) = semaniticFuncArgs stale tab subvec kwvec m (some args) := by
      intro subvec
      rw [argsDumped]
      split
      · rename_i hcount
        rw [SyntaxArgs.eq_nil_of_count hcount]
        rfl
      · rw [args.dumped_eq_erase hargs]
        exact semaniticParseArgs_erase tab subvec kwvec args
    rw [SyntaxItem.dumped, semaniticParseItem, semaniticParseItem]
    simp only [hfunc, semaniticParseChilds_dumped stale tab _ body hclosed.2 hbody]
  | .block _ negative childs, hclosed, hcalls => by
    rw [SyntaxItem.dumped, semaniticParseItem, semaniticParseItem,
      semaniticParseChilds_dumped stale tab kwvec childs hclosed hcalls]
  | .expr _ key opt vs, _, hcalls => by
    rw [SyntaxItem.dumped, semaniticParseItem, semaniticParseItem, semaniticParseExpr,
      semaniticParseExpr, vs.dumped_eq_erase hcalls, semaniticParseVal_erase]

theorem semaniticParseChilds_dumped (stale : μ → List Word) (tab : KeywordTable σ η D)
    (kwvec : Option (Slots ℕ)) : ∀ items : SyntaxItems μ, items.Closed → items.emptyCalls = 0 →
      semaniticParseChilds (fun _ => []) tab kwvec items.dumped =
        semaniticParseChilds stale tab kwvec items
  | .nil, _, _ => rfl
  | .cons node opt rest, hclosed, hcalls => by
    obtain ⟨hnode, hrest⟩ := Nat.add_eq_zero_iff.mp hcalls
    rw [SyntaxItems.dumped, semaniticParseChilds, semaniticParseChilds,
      semaniticParseItem_dumped stale tab kwvec node hclosed.1 hnode,
      semaniticParseChilds_dumped stale tab kwvec rest hclosed.2 hrest]

end

/-! ## The verdict -/

section Rule

variable {E : Engine σ η D} {env : σ} {tree : SyntaxItems μ} {stale : μ → List Word}

end Rule

/-! ## Terminators -/

theorem nul_mem_scanPair {d : Char} {two one : Sym} {x : Word} (hd : d ≠ nul) (hx : nul ∈ x) :
    nul ∈ (scanPair d two one x).2 := by
  cases x with
  | nil => exact hx
  | cons e x =>
    rw [scanPair]
    split
    · rename_i he
      exact List.mem_of_ne_of_mem (by rw [he]; exact hd.symm) hx
    · exact hx

theorem nul_mem_scanSymbol {c : Char} {x : Word} {r : Sym × Word} (h : scanSymbol c x = some r)
    (hmem : nul ∈ c :: x) : nul ∈ r.2 := by
  have hc : c ≠ nul := by rintro rfl; cases h
  have hx : nul ∈ x := List.mem_of_ne_of_mem hc.symm hmem
  unfold scanSymbol at h
  split at h <;> cases h <;> first | exact nul_mem_scanPair (by decide) hx | exact hx

theorem nul_mem_scan {code rest : Word} {t : Token} (h : scan code = .token t rest)
    (hnul : nul ∈ code) : nul ∈ rest ∨ ∃ x, t = .word x ∧ nul ∈ x.cstr := by
  have hsplit := List.takeWhile_append_dropWhile (p := isBlank) (l := code)
  have hskip : nul ∈ skipBlank code := by
    rw [← hsplit] at hnul
    rcases List.mem_append.mp hnul with hblank | hskip
    · exact absurd (List.mem_takeWhile_imp hblank) (by decide)
    · exact hskip
  unfold scan at h
  split at h
  · cases h
  · rename_i c x heq
    rw [heq] at hskip
    unfold scanToken at h
    split at h
    · rename_i hc
      cases h
      have hword : nul ∉ c :: x.takeWhile isWordChar := by
        intro hmem
        rcases List.mem_cons.mp hmem with rfl | hmem
        · exact absurd hc (by decide)
        · exact absurd (List.mem_takeWhile_imp hmem) (by decide)
      rw [← List.takeWhile_append_dropWhile (p := isWordChar) (l := x), ← List.cons_append] at hskip
      exact .inl ((List.mem_append.mp hskip).resolve_left hword)
    · split at h
      · rename_i hc
        split at h
        · rename_i hquote
          cases h
          rw [scanQuote_eq hquote, hc, List.mem_cons, List.mem_append, List.mem_cons] at hskip
          rcases hskip with hq | hw | hq | hrest
          · exact absurd hq (by decide)
          · exact .inr ⟨_, rfl, List.mem_cons_of_mem _ (List.mem_append_left _ hw)⟩
          · exact absurd hq (by decide)
          · exact .inl hrest
        · cases h
      · split at h
        · rename_i hsym
          cases h
          exact .inl (nul_mem_scanSymbol hsym hskip)
        · cases h

theorem nul_notMem_of_lex_eq {code code' : Word} {toks : List Token}
    (hlex : lex code = (toks, .eof)) (hlex' : lex code' = (toks, .eof)) (hnul : nul ∉ code) :
    nul ∉ code' := by
  have hwords : ∀ x, Token.word x ∈ toks → nul ∉ x.cstr := by
    intro x hx
    have hc := lex_isCString hnul
    rw [hlex] at hc
    exact hc _ hx
  clear hlex
  intro hmem
  induction code' using lex_induction generalizing toks with
  | step code' ih =>
    rcases lex_eof_cases hlex' with ⟨-, hskip⟩ | ⟨t, rest, ts, rfl, hscan, hrest⟩
    · have hsplit := List.takeWhile_append_dropWhile (p := isBlank) (l := code')
      rw [show code'.dropWhile isBlank = [] from hskip, List.append_nil] at hsplit
      rw [← hsplit] at hmem
      exact absurd (List.mem_takeWhile_imp hmem) (by decide)
    · rcases nul_mem_scan hscan hmem with hrest' | ⟨x, rfl, hx⟩
      · exact ih t rest hscan hrest (fun x hx => hwords x (List.mem_cons_of_mem _ hx)) hrest'
      · exact hwords x List.mem_cons_self hx

/-! ## Any interpreter -/

section Interpreter

variable {E : Engine σ η D} {env : σ}

theorem MacroText.of_lex_eq {tbl : MacroTable} {code code' text : Word}
    (hlex : lex code' = lex code) (h : MacroText tbl code' text) :
    text = code' ∨ MacroText tbl code text := by
  induction h with
  | self => exact .inl rfl
  | @call text text' rest _ hcall ih =>
    rcases ih with rfl | ih
    · rw [hlex] at hcall
      exact .inr (MacroText.self.call hcall)
    · exact .inr (ih.call hcall)

theorem macroLoop_of_lex_eq {tbl : MacroTable} {code code' : Word} (hlex : lex code' = lex code)
    (n : ℕ) : macroLoop tbl n code' = macroLoop tbl n code := by
  cases n with
  | zero => rfl
  | succ n => rw [macroLoop, macroLoop, hlex]

theorem Contained.of_lex_eq {code code' : Word} (h : Contained E code env)
    (hlex : lex code' = lex code) (hnul : nul ∉ code') (hlt : code'.length < defaultCodebufSize) :
    Contained E code' env where
  nul_notMem := hnul
  length_lt := hlt
  lexFits text htext := by
    rcases htext.of_lex_eq hlex with rfl | htext
    · have hfits := h.lexFits code .self
      rw [LexFits, lexSpace] at hfits ⊢
      rwa [hlex]
    · exact h.lexFits text htext
  noBraceForm n toks htoks := h.noBraceForm n toks (by rw [← macroLoop_of_lex_eq hlex n, htoks])
  detailsFit n ret strs hret := h.detailsFit n ret strs (by
    rw [rule, macroLoop_of_lex_eq hlex n] at hret
    exact hret)

/-- **A rule and its text give the same report**, when no argument list in the rule is empty: in
interpreters with any histories of contained rules, whatever the C library does. -/
theorem interpreterExecute_dumpSyntaxTree {P : NodePool D μ} {pool : D} {m : μ}
    {tree : SyntaxItems μ} {stale : μ → List Word} {s : ParseState D} {code : Word}
    {toks : List Token} {interp₁ interp₂ : Interp Mempool} (h₁ : History E (Contained E) interp₁)
    (h₂ : History E (Contained E) interp₂) (hc : Contained E code env)
    (hlex : lex code = (toks, .eof)) (hno : NoBraceForm toks)
    (hparse : interpSyntaxParse P toks pool = .ok (some (m, tree), s)) (hs : s.slips = [])
    (hcalls : tree.emptyCalls = 0) (hfuncs : tree.emptyFuncs = 0)
    (hlen : 2 * code.length ≤ defaultCodebufSize) (n : ℕ) (w₁ w₂ : World) :
    reportOf (interpreterExecute E n w₁ (dumpSyntaxTree stale tree) env interp₁) =
      reportOf (interpreterExecute E n w₂ code env interp₂) := by
  have hp := parsed_of_interpSyntaxParse hno hparse hs
  have hdump := @Parsed.lex_dumpSyntaxTree_eq _ _ _ _ stale hp hlex hcalls hfuncs
  have hlt := @Parsed.length_dumped_lt _ _ _ _ stale hp hlex
  have hnul := nul_notMem_of_lex_eq hlex (hdump.trans hlex) hc.nul_notMem
  have hc' := hc.of_lex_eq hdump hnul (by omega)
  have href₁ := interpreterExecute_refines h₁.ungrown hc' n w₁
  have href₂ := interpreterExecute_refines h₂.ungrown hc n w₂
  rw [href₁.reportOf, href₂.reportOf, rule, macroLoop_of_lex_eq hdump n]
  rfl

/-- The tree of `f(x=1){e==1}`. -/
def argTree : SyntaxItems Unit :=
  .cons (.func () (.ident ['f'])
    (some (.cons (.ident ['x']) (.cons (.val () (.ident ['1']) false) .reserved .nil) .nil))
    (.cons (.expr () (.ident ['e']) .equal
      (.cons (.val () (.ident ['1']) false) .reserved .nil)) .reserved .nil)) .reserved .nil

theorem interpSyntaxParse_argTree :
    interpSyntaxParse NodePool.unit exampleToks () = .ok (some ((), argTree), ⟨[], (), []⟩) := by
  decide +kernel

/-- `f(x=1){e == 1}` is reported on like `f(x=1){e==1}`. -/
theorem interpreterExecute_dumpSyntaxTree_argRule :
    reportOf (interpreterExecute exampleEngine 1 exampleWorld
      ['f', '(', 'x', '=', '1', ')', '{', 'e', ' ', '=', '=', ' ', '1', '}'] () newInterp) =
      reportOf (interpreterExecute exampleEngine 1 exampleWorld argRule () newInterp) := by
  have hnew : History exampleEngine (Contained exampleEngine) newInterp := .create _
  have htext : dumpSyntaxTree (fun _ => []) argTree =
      ['f', '(', 'x', '=', '1', ')', '{', 'e', ' ', '=', '=', ' ', '1', '}'] := by decide
  rw [← htext]
  exact interpreterExecute_dumpSyntaxTree hnew hnew contained_argRule lex_argRule (by decide)
    interpSyntaxParse_argTree rfl rfl rfl (by decide) 1 _ _

end Interpreter

end Lre
