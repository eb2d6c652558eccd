import Mathlib.Data.Set.Finite.List
import Lre.Cycle
import Lre.Lexer.Munch
import Lre.Macro.Load
import Lre.Macro.Preprocess

/-!
# Expansions that come back

The loop of `interpreter_execute` has no guard of its own.

* `macroLoop_eq_fuel`: the loop is still running after `n` rounds when there are `n` expansions in
  a row.
* **`macroLoop_terminates_iff`**: an expansion fits into the buffer, so that there are finitely
  many of them; the loop ends exactly when no expansion of the rule comes back to itself.
* `LreMacro.opening`, `OpensWith`: the token every expansion of a macro begins with, where its
  content says it, and the macros whose content begins with a name.
* `terminates_of_acyclic`: the loop ends on every rule when all contents say how they begin, and no
  macro leads back to itself.
-/

namespace Lre

open CString Cycle Relation

/-- A rule that starts with the name of a macro. -/
def StartsWithMacro (tbl : MacroTable) : List Token → Prop
  | .word (.ident key) :: _ => isLreMacro tbl key = true
  | _ => False

/-- The loop ends after finitely many rounds, with an error or a rule that does not start with the
name of a macro. -/
def Terminates (tbl : MacroTable) (code : Word) : Prop :=
  ∃ n, macroLoop tbl n code = .err ∨
    ∃ toks, macroLoop tbl n code = .handed toks ∧ ¬StartsWithMacro tbl toks

variable {tbl : MacroTable} {code code' : Word}

theorem macroLoop_succ (tbl : MacroTable) (n : ℕ) (code : Word) :
    macroLoop tbl (n + 1) code = .err ∨
    (∃ toks, macroLoop tbl (n + 1) code = .handed toks ∧ ¬StartsWithMacro tbl toks) ∨
    ∃ code', Expands tbl code code' := by
  rw [macroLoop]
  split
  · rename_i toks hlex
    cases hpre : interpPreprocess tbl toks with
    | ok =>
      refine .inr (.inl ⟨toks, rfl, fun hstart => ?_⟩)
      unfold StartsWithMacro at hstart
      split at hstart
      · rw [interpPreprocess, if_pos hstart, preprocessContent] at hpre
        split at hpre <;> cases hpre
      · exact hstart
    | resRepeat code' =>
      obtain ⟨rest, hcall⟩ := call_of_interpPreprocess hpre
      exact .inr (.inr ⟨code', toks, rest, hlex, hcall⟩)
    | err => exact .inl rfl
  · exact .inl rfl

/-- **The loop runs for `n` rounds exactly when there are `n` expansions in a row.** -/
theorem macroLoop_eq_fuel {n : ℕ} : macroLoop tbl n code = .fuel ↔ Path (Expands tbl) n code := by
  induction n generalizing code with
  | zero => exact iff_of_true rfl trivial
  | succ n ih =>
    constructor
    · intro h
      rcases macroLoop_succ tbl n code with herr | ⟨toks, hhanded, -⟩ | ⟨code', hexp⟩
      · rw [herr] at h
        cases h
      · rw [hhanded] at h
        cases h
      · rw [hexp.macroLoop] at h
        exact ⟨code', hexp, ih.mp h⟩
    · rintro ⟨code', hexp, hpath⟩
      rw [hexp.macroLoop]
      exact ih.mpr hpath

/-- The loop ends unless it runs for ever. -/
theorem terminates_iff : Terminates tbl code ↔ ∃ n, macroLoop tbl n code ≠ .fuel := by
  constructor
  · rintro ⟨n, herr | ⟨toks, hhanded, -⟩⟩
    · exact ⟨n, herr ▸ nofun⟩
    · exact ⟨n, hhanded ▸ nofun⟩
  · rintro ⟨n, hn⟩
    induction n generalizing code with
    | zero => exact absurd rfl hn
    | succ n ih =>
      rcases macroLoop_succ tbl n code with herr | hhanded | ⟨code', hexp⟩
      · exact ⟨n + 1, .inl herr⟩
      · exact ⟨n + 1, .inr hhanded⟩
      · rw [hexp.macroLoop] at hn
        obtain ⟨m, hm⟩ := ih hn
        exact ⟨m + 1, by rwa [hexp.macroLoop]⟩

instance finite_char : Finite Char :=
  Finite.of_injective (fun c : Char => c.val.toFin) fun _ _ h => Char.ext (UInt32.toFin_inj.mp h)

theorem finite_expansions (tbl : MacroTable) : {code' | ∃ code, Expands tbl code code'}.Finite := by
  refine (List.finite_length_lt Char defaultCodebufSize).subset ?_
  rintro code' ⟨code, toks, rest, -, hcall⟩
  exact length_of_macroCall hcall

theorem terminates_of_not_cycle
    (hnone : ¬∃ c, ReflTransGen (Expands tbl) code c ∧ TransGen (Expands tbl) c c) :
    Terminates tbl code := by
  rw [terminates_iff]
  by_contra hfuel
  rw [not_exists] at hfuel
  exact hnone (exists_cycle (finite_expansions tbl) fun n =>
    macroLoop_eq_fuel.mp (not_not.mp (hfuel n)))

/-- **Macro expansion of a code terminates exactly when no expansion of it comes back to
itself.** -/
theorem macroLoop_terminates_iff (tbl : MacroTable) (code : Word) :
    Terminates tbl code ↔
      ¬∃ c, ReflTransGen (Expands tbl) code c ∧ TransGen (Expands tbl) c c := by
  refine ⟨?_, terminates_of_not_cycle⟩
  rw [terminates_iff]
  rintro ⟨n, hn⟩ ⟨c, hreach, hcycle⟩
  exact hn (macroLoop_eq_fuel.mpr (path_of_reaches hreach hcycle n))

/-! ## Macros that do not lead back -/

/-- The first token of the content, when it stands in the text in front of the first reference and
does not end there. -/
def LreMacro.opening (mac : LreMacro) : Option Token :=
  match mac.token with
  | .word w :: _ =>
    match scan (w.take (defaultCodebufSize - 1)) with
    | .token t (_ :: _) => some t
    | _ => none
  | _ => none

/-- A macro of the name `k` has a content that begins with the name `k'`. -/
def OpensWith (tbl : MacroTable) (k k' : Word) : Prop :=
  ∃ idx, ∃ mac ∈ tbl idx, mac.keyword = k ∧ mac.opening = some (.key k')

/-- The name a code begins with. -/
def BeginsWith (code k : Word) : Prop := ∃ toks, (lex code).1 = .key k :: toks

theorem BeginsWith.unique {k k' : Word} (h : BeginsWith code k) (h' : BeginsWith code k') :
    k = k' := by
  obtain ⟨toks, h⟩ := h
  obtain ⟨toks', h'⟩ := h'
  rw [h] at h'
  cases h'
  rfl

/-- **The code of a macro begins with the token its content begins with.** -/
theorem scan_of_opening {mac : LreMacro} {args : List Word} {t : Token}
    (ht : mac.opening = some t) (hcode : lreCreateCodeByMacro mac args = some code) :
    ∃ rest, scan code = .token t rest := by
  have hargc : mac.argc = args.length := by
    by_contra hargc
    rw [lreCreateCodeByMacro, dif_neg hargc] at hcode
    cases hcode
  rw [lreCreateCodeByMacro_eq hargc, Option.some_inj] at hcode
  unfold LreMacro.opening at ht
  split at ht
  · rename_i w ts htoken
    split at ht
    · rename_i t' c rest hscan
      cases ht
      rw [htoken, List.map_cons, List.flatten_cons, MacroToken.text, List.take_append] at hcode
      exact ⟨_, hcode ▸ scan_append hscan (List.cons_ne_nil c rest) _⟩
    · cases ht
  · cases ht

theorem Expands.begins (h : Expands tbl code code')
    (hopen : ∀ idx, ∀ mac ∈ tbl idx, mac.opening ≠ none) : ∃ k, BeginsWith code k ∧
      ∀ k', BeginsWith code' k' → OpensWith tbl k k' := by
  obtain ⟨toks, rest, hlex, hcall⟩ := h
  unfold macroCall? at hcall
  split at hcall
  · rename_i k toks
    obtain ⟨args, mac, -, hfind, hcode⟩ := macroCode_eq_some hcall
    obtain ⟨hmem, hkey, -⟩ := mem_of_find hfind
    obtain ⟨t, ht⟩ := Option.ne_none_iff_exists'.mp (hopen _ mac hmem)
    obtain ⟨rest', hscan⟩ := scan_of_opening ht hcode
    refine ⟨k, ⟨toks, by rw [hlex]⟩, ?_⟩
    rintro k' ⟨toks', hlex'⟩
    rw [lex_eq, hscan] at hlex'
    cases hlex'
    exact ⟨_, mac, hmem, hkey, ht⟩
  · cases hcall

/-- A chain of expansions follows the names its codes begin with. -/
theorem opensWith_of_expands (hopen : ∀ idx, ∀ mac ∈ tbl idx, mac.opening ≠ none)
    (h : TransGen (Expands tbl) code code') : ∃ k, BeginsWith code k ∧
      ∀ k', BeginsWith code' k' → TransGen (OpensWith tbl) k k' := by
  induction h using TransGen.head_induction_on with
  | single h =>
    obtain ⟨k, hk, hopens⟩ := h.begins hopen
    exact ⟨k, hk, fun k' hk' => .single (hopens k' hk')⟩
  | head h _ ih =>
    obtain ⟨k, hk, hopens⟩ := h.begins hopen
    obtain ⟨k₁, hk₁, hrest⟩ := ih
    exact ⟨k, hk, fun k' hk' => .head (hopens k₁ hk₁) (hrest k' hk')⟩

/-- **Macro expansion terminates on every code when no macro leads back to itself.** -/
theorem terminates_of_acyclic (hopen : ∀ idx, ∀ mac ∈ tbl idx, mac.opening ≠ none)
    (hacyclic : ∀ k, ¬TransGen (OpensWith tbl) k k) (code : Word) : Terminates tbl code := by
  refine terminates_of_not_cycle ?_
  rintro ⟨c, -, hcycle⟩
  obtain ⟨k, hk, hopens⟩ := opensWith_of_expands hopen hcycle
  exact hacyclic k (hopens k hk)

/-! ## A macro that calls itself -/

/-- `define m() "m()"`. -/
def selfMacro : LreMacro where
  keyword := ['m']
  args := []
  token := [.word ['m', '(', ')']]
  nul_notMem := by
    intro w hw
    cases List.mem_singleton.mp hw
    decide

/-- The line of the configuration file. -/
def selfLine : Word := defineWord ++ [' ', 'm', '(', ')', ' ', '"', 'm', '(', ')', '"']

theorem selfMacro_loaded : LoadedTable (lreMacroAdd selfMacro .empty) := by
  refine @LoadedTable.define _ selfLine [.key ['m'], .symbol .startParenthesis,
    .symbol .endParenthesis, .word (.quoted ['m', '(', ')'])] _ .empty (by decide) (by decide) ?_
  have hmake : lreMacroContent2token ['m'] [] ['m', '(', ')'] (by decide) = some selfMacro := by
    simp [lreMacroContent2token, contentTokens, contentTokenMax, selfMacro]
  have hnul : nul ∉ ['m', '(', ')'] := by decide
  simp only [lreMacroParse, lreMacroArgParse, dif_pos hnul, hmake]

theorem selfMacro_expands :
    Expands (lreMacroAdd selfMacro .empty) ['m', '(', ')'] ['m', '(', ')'] :=
  ⟨[.key ['m'], .symbol .startParenthesis, .symbol .endParenthesis], [], by decide, rfl⟩

/-- The rule `m()` is expanded for ever. -/
theorem selfMacro_not_terminates : LoadedTable (lreMacroAdd selfMacro .empty) ∧
    ¬Terminates (lreMacroAdd selfMacro .empty) ['m', '(', ')'] := by
  refine ⟨selfMacro_loaded, fun ht => ?_⟩
  obtain ⟨n, hn⟩ := terminates_iff.mp ht
  exact hn (macroLoop_eq_fuel.mpr (path_of_cycle (.single selfMacro_expands) n))

end Lre
