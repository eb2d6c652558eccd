import Lre.Lexer.Scan
import Lre.Macro.Table

/-!
# Preprocessing

* `praseMacroCallArg`, `preprocessContent`, `interpPreprocess`: the source, on the tokens from
  `tokenidx` on.
* `macroLoop`: the loop of `interpreter_execute` up to the parser, on the C string in the code
  buffer. `length_of_macroCall`: the code of a macro fits into the buffer, so that a reload of it
  leaves that C string.
* `Expands`: one expansion, from the code in the buffer to the next one.
* `InPlace`: every macro call replaced by the tokens of its expansion, and every other token kept.
* **`macroLoop_inPlace_iff`**: only a call in front of the rule is seen, and what stands behind it
  goes with the old code; so the loop expands a rule in place exactly when there is nothing to
  expand, or nothing but one call.
-/

namespace Lre

open CString

/-- The loop of `prase_macro_call_arg`, with the rounds that are left: the arguments and the
tokens behind the call. -/
def macroCallArgLoop : ℕ → List Token → Option (List Word × List Token)
  | 0, _ => none
  | n + 1, .word x :: .symbol .comma :: toks =>
    (macroCallArgLoop n toks).map fun (args, rest) => (x.cstr :: args, rest)
  | _ + 1, .word x :: .symbol .endParenthesis :: toks => some ([x.cstr], toks)
  | _ + 1, _ => none

/-- `prase_macro_call_arg`; `none` is `-EINVAL`. -/
def praseMacroCallArg : List Token → Option (List Word × List Token)
  | .symbol .startParenthesis :: .symbol .endParenthesis :: toks => some ([], toks)
  | .symbol .startParenthesis :: toks => macroCallArgLoop lreMacroArgcMax toks
  | _ => none

/-- The code of the macro that is called behind `key`, and the tokens behind the call. -/
def macroCode (tbl : MacroTable) (key : Word) (toks : List Token) :
    Option (Word × List Token) := do
  let (args, rest) ← praseMacroCallArg toks
  let mac ← lreFindMacro tbl key args.length
  let code ← lreCreateCodeByMacro mac args
  return (code, rest)

/-- The results of `interp_preprocess`: `0`, `PREPROCESS_RES_REPEAT` with the new code, and
`-EINVAL`. -/
inductive Preprocess
  | ok
  | resRepeat (code : Word)
  | err
  deriving DecidableEq

/-- `preprocess_content` behind its keyword. -/
def preprocessContent (tbl : MacroTable) (key : Word) (toks : List Token) : Preprocess :=
  match macroCode tbl key toks with
  | none => .err
  | some (code, _) => .resRepeat code

/-- `interp_preprocess`. -/
def interpPreprocess (tbl : MacroTable) : List Token → Preprocess
  | .word (.ident key) :: toks =>
    if isLreMacro tbl key then preprocessContent tbl key toks else .ok
  | _ => .err

/-- How the loop of `interpreter_execute` ends. -/
inductive LoopEnd
  /-- these tokens are handed to `interp_syntax_parse` -/
  | handed (toks : List Token)
  | err
  /-- never ends in the rounds given -/
  | fuel
  deriving DecidableEq

/-- At most `n` rounds of the loop of `interpreter_execute`, on the C string in the code buffer. -/
def macroLoop (tbl : MacroTable) : ℕ → Word → LoopEnd
  | 0, _ => .fuel
  | n + 1, code =>
    match lex code with
    | (toks, .eof) =>
      match interpPreprocess tbl toks with
      | .ok => .handed toks
      | .resRepeat code => macroLoop tbl n code
      | .err => .err
    | _ => .err

/-! ## Macro calls -/

/-- The macro call a list of tokens begins with: its code, and the tokens behind it. -/
def macroCall? (tbl : MacroTable) : List Token → Option (Word × List Token)
  | .word (.ident key) :: toks => macroCode tbl key toks
  | _ => none

/-- One round of the loop of `interpreter_execute` that expands a macro. -/
def Expands (tbl : MacroTable) (code code' : Word) : Prop :=
  ∃ toks rest, lex code = (toks, .eof) ∧ macroCall? tbl toks = some (code', rest)

variable {tbl : MacroTable} {code : Word} {toks rest : List Token}

theorem macroCode_eq_some {key : Word} (h : macroCode tbl key toks = some (code, rest)) :
    ∃ args mac, praseMacroCallArg toks = some (args, rest) ∧
      lreFindMacro tbl key args.length = some mac ∧ lreCreateCodeByMacro mac args = some code := by
  rw [macroCode] at h
  obtain ⟨⟨args, rest'⟩, hargs, h⟩ := Option.bind_eq_some_iff.mp h
  obtain ⟨mac, hmac, h⟩ := Option.bind_eq_some_iff.mp h
  obtain ⟨code', hcode, h⟩ := Option.bind_eq_some_iff.mp h
  cases h
  exact ⟨args, mac, hargs, hmac, hcode⟩

/-- `lre_create_code_by_macro` is never given a wrong number of arguments. -/
theorem createCode_ne_none {key : Word} {args : List Word} {mac : LreMacro}
    (h : lreFindMacro tbl key args.length = some mac) : lreCreateCodeByMacro mac args ≠ none := by
  rw [lreCreateCodeByMacro_eq (mem_of_find h).2.2]
  exact nofun

theorem interpPreprocess_of_call (h : macroCall? tbl toks = some (code, rest)) :
    interpPreprocess tbl toks = .resRepeat code := by
  unfold macroCall? at h
  split at h
  · rename_i key toks
    obtain ⟨args, mac, -, hmac, -⟩ := macroCode_eq_some h
    rw [interpPreprocess, if_pos (isLreMacro_of_find hmac), preprocessContent, h]
  · cases h

theorem call_of_interpPreprocess (h : interpPreprocess tbl toks = .resRepeat code) :
    ∃ rest, macroCall? tbl toks = some (code, rest) := by
  unfold interpPreprocess at h
  split at h
  · rename_i key toks
    split at h
    · rw [preprocessContent] at h
      rw [macroCall?]
      cases hcode : macroCode tbl key toks with
      | none => rw [hcode] at h; cases h
      | some p => rw [hcode] at h; cases h; exact ⟨p.2, rfl⟩
    · cases h
  · cases h

/-- **The code of a macro fits into the code buffer.** -/
theorem length_of_macroCall (h : macroCall? tbl toks = some (code, rest)) :
    code.length < defaultCodebufSize := by
  unfold macroCall? at h
  split at h
  · obtain ⟨args, mac, -, -, hcode⟩ := macroCode_eq_some h
    exact length_of_createCode hcode
  · cases h

theorem macroCallArgLoop_isCString {n : ℕ} {toks rest : List Token} {args : List Word}
    (ht : ∀ t ∈ toks, t.IsCString) (h : macroCallArgLoop n toks = some (args, rest)) :
    ∀ w ∈ args, nul ∉ w := by
  induction n generalizing toks args with
  | zero => cases h
  | succ n ih =>
    unfold macroCallArgLoop at h
    split at h
    · cases h
    · rename_i x toks heq
      cases heq
      obtain ⟨⟨args', rest'⟩, hloop, heq⟩ := Option.map_eq_some_iff.mp h
      cases heq
      intro w hw
      rcases List.mem_cons.mp hw with rfl | hw
      · exact ht _ List.mem_cons_self
      · exact ih (fun t h => ht t (List.mem_cons_of_mem _ (List.mem_cons_of_mem _ h))) hloop w hw
    · cases h
      intro w hw
      rw [List.mem_singleton.mp hw]
      exact ht _ List.mem_cons_self
    · cases h

theorem praseMacroCallArg_isCString {args : List Word} (ht : ∀ t ∈ toks, t.IsCString)
    (h : praseMacroCallArg toks = some (args, rest)) : ∀ w ∈ args, nul ∉ w := by
  unfold praseMacroCallArg at h
  split at h
  · cases h
    exact nofun
  · exact macroCallArgLoop_isCString (fun t h => ht t (List.mem_cons_of_mem _ h)) h
  · cases h

theorem nul_notMem_of_macroCall (ht : ∀ t ∈ toks, t.IsCString)
    (h : macroCall? tbl toks = some (code, rest)) : nul ∉ code := by
  unfold macroCall? at h
  split at h
  · obtain ⟨args, mac, hargs, -, hcode⟩ := macroCode_eq_some h
    exact nul_notMem_of_createCode
      (praseMacroCallArg_isCString (fun t h => ht t (List.mem_cons_of_mem _ h)) hargs) hcode
  · cases h

/-! ## The loop -/

theorem Expands.macroLoop {code' : Word} (h : Expands tbl code code') (n : ℕ) :
    macroLoop tbl (n + 1) code = macroLoop tbl n code' := by
  obtain ⟨toks, rest, hlex, hcall⟩ := h
  rw [Lre.macroLoop, hlex]
  dsimp only
  rw [interpPreprocess_of_call hcall]

theorem macroLoop_of_ok (hlex : lex code = (toks, .eof)) (hpre : interpPreprocess tbl toks = .ok)
    (n : ℕ) : macroLoop tbl (n + 1) code = .handed toks := by
  rw [macroLoop, hlex]
  dsimp only
  rw [hpre]

theorem handed_cases {n : ℕ} {out : List Token} (h : macroLoop tbl n code = .handed out) :
    (lex code = (out, .eof) ∧ macroCall? tbl out = none) ∨
    ∃ m toks code' rest, n = m + 1 ∧ lex code = (toks, .eof) ∧
      macroCall? tbl toks = some (code', rest) ∧ macroLoop tbl m code' = .handed out := by
  cases n with
  | zero => cases h
  | succ m =>
    rw [macroLoop] at h
    split at h
    · rename_i toks hlex
      cases hpre : interpPreprocess tbl toks with
      | ok =>
        rw [hpre] at h
        cases h
        refine .inl ⟨hlex, ?_⟩
        cases hcall : macroCall? tbl out with
        | none => rfl
        | some p => rw [interpPreprocess_of_call hcall] at hpre; cases hpre
      | resRepeat code' =>
        rw [hpre] at h
        obtain ⟨rest, hcall⟩ := call_of_interpPreprocess hpre
        exact .inr ⟨m, toks, code', rest, rfl, hlex, hcall, h⟩
      | err => rw [hpre] at h; cases h
    · cases h

/-! ## Expansion in place -/

/-- `out` is `toks` with every macro call replaced by the tokens of its expansion. -/
inductive InPlace (tbl : MacroTable) : List Token → List Token → Prop
  | nil : InPlace tbl [] []
  | call {toks rest etoks e r : List Token} {code : Word}
      (hcall : macroCall? tbl toks = some (code, rest)) (hlex : lex code = (etoks, .eof))
      (he : InPlace tbl etoks e) (hr : InPlace tbl rest r) : InPlace tbl toks (e ++ r)
  | keep {t : Token} {toks out : List Token} (hcall : macroCall? tbl (t :: toks) = none)
      (hr : InPlace tbl toks out) : InPlace tbl (t :: toks) (t :: out)

/-- No macro call begins anywhere in the tokens. -/
def CallFree (tbl : MacroTable) : List Token → Prop
  | [] => True
  | t :: toks => macroCall? tbl (t :: toks) = none ∧ CallFree tbl toks

instance CallFree.decidable : DecidablePred (CallFree tbl)
  | [] => .isTrue trivial
  | _ :: toks => @instDecidableAnd _ _ _ (CallFree.decidable toks)

/-- No macro call, or one macro call, whose expansion is like that again, and behind which there
is nothing to be kept. -/
inductive Solo (tbl : MacroTable) : List Token → Prop
  | plain {toks : List Token} (h : CallFree tbl toks) : Solo tbl toks
  | call {toks rest etoks : List Token} {code : Word}
      (hcall : macroCall? tbl toks = some (code, rest)) (hlex : lex code = (etoks, .eof))
      (hr : InPlace tbl rest []) (he : Solo tbl etoks) : Solo tbl toks

theorem CallFree.macroCall? (h : CallFree tbl toks) : macroCall? tbl toks = none := by
  cases toks with
  | nil => rfl
  | cons t toks => exact h.1

theorem CallFree.inPlace (h : CallFree tbl toks) : InPlace tbl toks toks := by
  induction toks with
  | nil => exact .nil
  | cons t toks ih => exact .keep h.1 (ih h.2)

theorem InPlace.eq_of_callFree {out : List Token} (h : CallFree tbl toks)
    (hin : InPlace tbl toks out) : out = toks := by
  induction hin with
  | nil => rfl
  | call hcall => rw [h.macroCall?] at hcall; cases hcall
  | keep _ _ ih => rw [ih h.2]

/-- The tokens handed over are the beginning of any expansion in place. -/
theorem prefix_of_inPlace {n : ℕ} {out e : List Token} (h : macroLoop tbl n code = .handed out)
    (hlex : lex code = (toks, .eof)) (hfree : CallFree tbl out) (hin : InPlace tbl toks e) :
    out <+: e := by
  induction n generalizing code toks e with
  | zero => cases h
  | succ n ih =>
    rcases handed_cases h with ⟨hlex', -⟩ | ⟨m, toks', code', rest, hm, hlex', hcall, hloop⟩
    · rw [hlex'] at hlex
      cases hlex
      exact hin.eq_of_callFree hfree ▸ List.prefix_refl _
    · rw [hlex'] at hlex
      cases hlex
      cases hm
      -- the loop goes on with the code of the call, whose expansion stands in front
      cases hin with
      | nil => cases hcall
      | call hcall' hetoks he hr =>
        rw [hcall'] at hcall
        cases hcall
        exact (ih hloop hetoks he).trans (List.prefix_append _ _)
      | keep hnone => rw [hnone] at hcall; cases hcall

/-- **Handed over in place: the tokens of a rule are those of its expansion in place, with no
macro call left, exactly when the rule is without macro calls or one macro call and nothing else,
and so on in its expansion.** -/
theorem macroLoop_inPlace_iff {n : ℕ} {out : List Token} (h : macroLoop tbl n code = .handed out)
    (hlex : lex code = (toks, .eof)) :
    InPlace tbl toks out ∧ CallFree tbl out ↔ Solo tbl toks := by
  induction n generalizing code toks out with
  | zero => cases h
  | succ n ih =>
    rcases handed_cases h with ⟨hlex', hnone⟩ | ⟨m, toks', code', rest, hm, hlex', hcall, hloop⟩
    · rw [hlex'] at hlex
      cases hlex
      constructor
      · intro hin
        exact .plain hin.2
      · intro hsolo
        cases hsolo with
        | plain hfree => exact ⟨hfree.inPlace, hfree⟩
        | call hcall => rw [hnone] at hcall; cases hcall
    · rw [hlex'] at hlex
      cases hlex
      cases hm
      constructor
      · rintro ⟨hin, hfree⟩
        cases hin with
        | nil => cases hcall
        | @call _ _ _ e r _ hcall' hetoks he hr =>
          rw [hcall'] at hcall
          cases hcall
          -- tokens kept behind the call would make the list longer than it is
          have hle := (prefix_of_inPlace hloop hetoks hfree he).length_le
          rw [List.length_append] at hle
          have hrest : r = [] := List.length_eq_zero_iff.mp (by omega)
          subst hrest
          rw [List.append_nil] at hloop hfree
          exact .call hcall' hetoks hr ((ih hloop hetoks).mp ⟨he, hfree⟩)
        | keep hnone => rw [hnone] at hcall; cases hcall
      · intro hsolo
        cases hsolo with
        | plain hfree => rw [hfree.macroCall?] at hcall; cases hcall
        | call hcall' hetoks hr he =>
          rw [hcall'] at hcall
          cases hcall
          obtain ⟨hin, hfree⟩ := (ih hloop hetoks).mpr he
          have happ := InPlace.call hcall' hetoks hin hr
          rw [List.append_nil] at happ
          exact ⟨happ, hfree⟩

/-! ## One macro -/

/-- `define m(a) "f(x=$a){e==1}"`. -/
def exampleMacro : LreMacro where
  keyword := ['m']
  args := [['a']]
  token := [.word ['f', '(', 'x', '='], .arg 0, .word [')', '{', 'e', '=', '=', '1', '}']]
  nul_notMem := by
    intro w hw
    simp only [List.mem_cons, MacroToken.word.injEq, reduceCtorEq, List.not_mem_nil, or_false,
      false_or] at hw
    rcases hw with rfl | rfl <;> decide

/-- The table with this macro. -/
def exampleTable : MacroTable := lreMacroAdd exampleMacro .empty

/-- The tokens of `f(x=1){e==1}`. -/
def exampleToks : List Token :=
  [.key ['f'], .symbol .startParenthesis, .key ['x'], .symbol .assign, .key ['1'],
    .symbol .endParenthesis, .symbol .startBrace, .key ['e'], .symbol .equal, .key ['1'],
    .symbol .endBrace]

/-- The call `m(1)` alone. -/
def callToks : List Token :=
  [.key ['m'], .symbol .startParenthesis, .key ['1'], .symbol .endParenthesis]

/-- What stands behind the call in `m(1)&&f(x=1){e==1}`. -/
def tailToks : List Token := .symbol .and :: exampleToks

theorem macroCall?_example (toks : List Token) : macroCall? exampleTable (callToks ++ toks) =
    some (['f', '(', 'x', '=', '1', ')', '{', 'e', '=', '=', '1', '}'], toks) := by
  rfl

theorem lex_expansion : lex ['f', '(', 'x', '=', '1', ')', '{', 'e', '=', '=', '1', '}'] =
    (exampleToks, .eof) := by decide

theorem callFree_exampleToks : CallFree exampleTable exampleToks := by decide

/-- The rule `m(1)`. -/
theorem macroLoop_inPlace_call :
    InPlace exampleTable callToks exampleToks ∧ CallFree exampleTable exampleToks :=
  (@macroLoop_inPlace_iff exampleTable ['m', '(', '1', ')'] callToks 2 exampleToks (by decide)
    (by decide)).mpr
    (.call (macroCall?_example []) lex_expansion .nil (.plain callFree_exampleToks))

/-- The rule `m(1)&&f(x=1){e==1}` is handed over as `f(x=1){e==1}`. -/
theorem macroLoop_tail_dropped :
    lex ['m', '(', '1', ')', '&', '&', 'f', '(', 'x', '=', '1', ')', '{', 'e', '=', '=', '1', '}'] =
      (callToks ++ tailToks, .eof) ∧
    macroLoop exampleTable 2
        ['m', '(', '1', ')', '&', '&', 'f', '(', 'x', '=', '1', ')', '{', 'e', '=', '=', '1', '}'] =
      .handed exampleToks ∧
    ¬InPlace exampleTable (callToks ++ tailToks) exampleToks := by
  refine ⟨by decide, by decide, ?_⟩
  intro hin
  have htail : CallFree exampleTable tailToks := by decide
  generalize hout : exampleToks = out at hin
  cases hin with
  | call hcall hlex he hr =>
    rw [macroCall?_example] at hcall
    cases hcall
    rw [lex_expansion] at hlex
    cases hlex
    rw [he.eq_of_callFree callFree_exampleToks, hr.eq_of_callFree htail] at hout
    exact absurd hout (by decide)
  | keep => exact absurd (List.head_eq_of_cons_eq hout) (by decide)

end Lre
