import Lre.Macro.Content

/-!
# Loading macros

* `lreMacroArgParse`, `lreMacroParse`: the source, on the tokens of a line behind `define`.
* `LoadedTable`: the tables that lines of a configuration file make.
* `LoadedTable.content`: every loaded macro is made from a content that is shorter than the line
  buffer.
-/

namespace Lre

open CString

/-- The loop of `lre_macro_arg_parse`, with the rounds that are left: the names and the tokens
behind them. -/
def macroArgLoop : ℕ → List Token → Option (List Word × List Token)
  | n + 1, .word (.ident keyword) :: .symbol .comma :: toks =>
    (macroArgLoop n toks).map fun (args, rest) => (keyword :: args, rest)
  | _ + 1, .word (.ident keyword) :: .symbol .endParenthesis :: toks => some ([keyword], toks)
  | _, _ => none

/-- `lre_macro_arg_parse`; `none` is `-EINVAL`. -/
def lreMacroArgParse : List Token → Option (List Word × List Token)
  | .symbol .startParenthesis :: .symbol .endParenthesis :: toks => some ([], toks)
  | .symbol .startParenthesis :: toks => macroArgLoop lreMacroArgcMax toks
  | _ => none

/-- How `lre_macro_parse` ends. -/
inductive MacroParse
  | ok (mac : LreMacro)
  /-- `-EINVAL` -/
  | err
  /-- `lre_macro_content2token` writes behind its array -/
  | overflow

/-- `lre_macro_parse` -/
def lreMacroParse : List Token → MacroParse
  | .word (.ident keyword) :: toks =>
    match lreMacroArgParse toks with
    | some (args, .word (.quoted content) :: _) =>
      if h : nul ∉ content then
        match lreMacroContent2token keyword args content h with
        | some mac => .ok mac
        | none => .overflow
      -- no case of the source: the words of tokens are C strings
      else .err
    | _ => .err
  | _ => .err

/-- The word that begins a definition. -/
def defineWord : Word := ['d', 'e', 'f', 'i', 'n', 'e']

/-- The tables after lines that `read_macro_line` puts into its buffer; other lines leave the table
as it is. -/
inductive LoadedTable : MacroTable → Prop
  | empty : LoadedTable .empty
  | define {tbl : MacroTable} {line : Word} {toks : List Token} {mac : LreMacro} :
    LoadedTable tbl → line.length < defaultCodebufSize →
    lex line = (.key defineWord :: toks, .eof) → lreMacroParse toks = .ok mac →
    LoadedTable (lreMacroAdd mac tbl)

/-! ## Contents -/

theorem scan_word_length {code rest : Word} {x : Lexeme}
    (h : scan code = .token (.word x) rest) : x.cstr.length ≤ code.length := by
  have hle := length_dropWhile_le isBlank code
  unfold scan at h
  split at h
  · cases h
  · rename_i c text heq
    rw [skipBlank] at heq
    rw [heq, List.length_cons] at hle
    unfold scanToken at h
    split at h
    · cases h
      have hword := (List.takeWhile_prefix (p := isWordChar) (l := text)).length_le
      show (_ :: _).length ≤ _
      rw [List.length_cons]
      omega
    · split at h
      · split at h
        · rename_i hquote
          cases h
          have hsplit := congrArg List.length (scanQuote_eq hquote)
          simp only [List.length_append, List.length_cons] at hsplit
          simp only [Lexeme.cstr, List.length_cons, List.length_append, List.length_nil]
          omega
        · cases h
      · split at h <;> cases h

theorem lex_word_length {code : Word} :
    ∀ x, .word x ∈ (lex code).1 → x.cstr.length ≤ code.length := by
  induction code using lex_induction with
  | step code ih =>
    rw [lex_eq]
    cases hs : scan code with
    | token t rest =>
      intro x hx
      rcases List.mem_cons.mp hx with rfl | hx
      · exact scan_word_length hs
      · exact Nat.le_trans (ih t rest hs x hx) (Nat.le_of_lt (scan_length hs))
    | _ => exact nofun

theorem macroArgLoop_suffix {n : ℕ} {toks rest : List Token} {args : List Word}
    (h : macroArgLoop n toks = some (args, rest)) : rest <:+ toks := by
  induction n generalizing toks args with
  | zero => cases h
  | succ n ih =>
    unfold macroArgLoop at h
    split at h
    · rename_i heq
      cases heq
      obtain ⟨⟨args', rest'⟩, hloop, heq⟩ := Option.map_eq_some_iff.mp h
      cases heq
      exact (ih hloop).trans ((List.suffix_cons _ _).trans (List.suffix_cons _ _))
    · cases h
      exact (List.suffix_cons _ _).trans (List.suffix_cons _ _)
    · cases h

theorem lreMacroArgParse_suffix {toks rest : List Token} {args : List Word}
    (h : lreMacroArgParse toks = some (args, rest)) : rest <:+ toks := by
  unfold lreMacroArgParse at h
  split at h
  · cases h
    exact (List.suffix_cons _ _).trans (List.suffix_cons _ _)
  · exact (macroArgLoop_suffix h).trans (List.suffix_cons _ _)
  · cases h

theorem lreMacroParse_eq_ok {toks : List Token} {mac : LreMacro}
    (h : lreMacroParse toks = .ok mac) :
    ∃ content, ∃ hnul : nul ∉ content, .word (.quoted content) ∈ toks ∧
      lreMacroContent2token mac.keyword mac.args content hnul = some mac := by
  unfold lreMacroParse at h
  split at h
  · rename_i keyword toks
    split at h
    · rename_i args content rest hargs
      split at h
      · rename_i hnul
        split at h
        · rename_i mac' hmac
          cases h
          have hfields : mac.keyword = keyword ∧ mac.args = args := by
            rw [lreMacroContent2token] at hmac
            split at hmac <;> cases hmac
            exact ⟨rfl, rfl⟩
          obtain ⟨rfl, rfl⟩ := hfields
          refine ⟨content, hnul, List.mem_cons_of_mem _ ?_, hmac⟩
          exact (lreMacroArgParse_suffix hargs).subset List.mem_cons_self
        · cases h
      · cases h
    · cases h
  · cases h

/-- **The content of a loaded macro is shorter than the line buffer.** -/
theorem LoadedTable.content {tbl : MacroTable} (h : LoadedTable tbl) {idx : ℕ} {mac : LreMacro}
    (hmac : mac ∈ tbl idx) : ∃ content, ∃ hnul : nul ∉ content,
      content.length < defaultCodebufSize ∧
      lreMacroContent2token mac.keyword mac.args content hnul = some mac := by
  induction h with
  | empty => cases hmac
  | @define tbl line toks new _ hline hlex hparse ih =>
    by_cases hnew : mac = new
    · subst hnew
      obtain ⟨content, hnul, hmem, hmake⟩ := lreMacroParse_eq_ok hparse
      have hword : .word (.quoted content) ∈ (lex line).1 := by
        rw [hlex]
        exact List.mem_cons_of_mem _ hmem
      have hlen := lex_word_length _ hword
      simp only [Lexeme.cstr, List.length_cons, List.length_append, List.length_nil] at hlen
      exact ⟨content, hnul, by omega, hmake⟩
    · refine ih ?_
      rw [lreMacroAdd] at hmac
      by_cases hidx : idx = hashStr new.keyword defaultMacroHlistBit
      · subst hidx
        rw [Function.update_self] at hmac
        exact (List.mem_cons.mp hmac).resolve_left hnew
      · rwa [Function.update_of_ne hidx] at hmac

end Lre
