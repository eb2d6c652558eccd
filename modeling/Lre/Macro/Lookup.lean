import Lre.Bucketed
import Lre.Macro.Config

/-!
# Macros that are found

* `DefineText`: a line that defines a macro, with its name and its parameters.
* `DefineText.parsed`: one with at most 16 references to parameters makes its macro.
* `MacroLookup`: what the table holds after lines have been loaded.
* **`confParse_lookup`**: a macro is found by its name and the number of its parameters, the newest
  definition first, and no definition is lost.
-/

namespace Lre

open Bucketed CString

/-- A line `define name(params) "content"` that fits into the buffer of a line. -/
structure DefineText where
  text : Word
  name : Word
  params : List Word
  content : Word
  toks : List Token
  rest : List Token
  isCString : nul ∉ text
  fits : text.length < defaultCodebufSize
  lexed : lex text = (.key defineWord :: .key name :: toks, .eof)
  formals : lreMacroArgParse toks = some (params, .word (.quoted content) :: rest)

/-- The tokens behind `define`. -/
abbrev DefineText.body (d : DefineText) : List Token := .key d.name :: d.toks

/-- The references to parameters that `lre_macro_content2token` finds. -/
def DefineText.found (d : DefineText) : ℕ := (scanPieces d.params d.content).countP Piece.isRef

variable {d : DefineText}

theorem DefineText.nul_notMem (d : DefineText) : nul ∉ d.content := by
  have htoks : .word (.quoted d.content) ∈ d.toks :=
    (lreMacroArgParse_suffix d.formals).subset List.mem_cons_self
  have hlex : .word (.quoted d.content) ∈ (lex d.text).1 := by
    rw [d.lexed]
    exact List.mem_cons_of_mem _ (List.mem_cons_of_mem _ htoks)
  have hword := lex_isCString d.isCString _ hlex
  exact fun hmem => hword (List.mem_cons_of_mem _ (List.mem_append_left _ hmem))

theorem lreMacroParse_body {mac : LreMacro} (d : DefineText) : lreMacroParse d.body = .ok mac ↔
    lreMacroContent2token d.name d.params d.content d.nul_notMem = some mac := by
  rw [lreMacroParse, d.formals]
  dsimp only
  rw [dif_pos d.nul_notMem]
  cases lreMacroContent2token d.name d.params d.content d.nul_notMem with
  | none => exact iff_of_false (fun h => by cases h) fun h => by cases h
  | some mac' => rw [MacroParse.ok.injEq, Option.some_inj]

theorem parse_ok_iff (d : DefineText) :
    (∃ mac, lreMacroParse d.body = .ok mac) ↔ d.found ≤ lreMacroArgcMax := by
  simp only [lreMacroParse_body]
  exact content2token_isSome

/-- The macro of a line. -/
def DefineText.mac (d : DefineText) : LreMacro :=
  ⟨d.name, d.params, contentTokens d.params [] d.content,
    nul_notMem_contentTokens nofun d.nul_notMem⟩

/-- **A line with at most 16 references makes its macro.** -/
theorem DefineText.parsed (hfound : d.found ≤ lreMacroArgcMax) :
    lreMacroParse d.body = .ok d.mac := by
  obtain ⟨mac, hmac⟩ := (parse_ok_iff d).mpr hfound
  rw [lreMacroParse_body, lreMacroContent2token] at hmac ⊢
  split_ifs at hmac ⊢
  rfl

theorem DefineText.found_le_length (d : DefineText) : d.found ≤ d.content.length :=
  List.countP_le_length.trans (length_scanPieces d.content)

theorem DefineText.confLine_eq (hfound : d.found ≤ lreMacroArgcMax) :
    confLine d.text = .define d.mac := by
  have hne : ¬defineWord = includeWord := by decide
  rw [confLine, d.lexed]
  dsimp only
  rw [if_neg hne, if_pos rfl, DefineText.parsed hfound]

/-! ## The table -/

/-- The table finds the newest definition of a name and a number of parameters, and knows the names
that are defined; the list of a hash holds all definitions with this hash, the newest first, and
the hashes are places of the array. -/
structure MacroLookup (defines : List DefineText) (tbl : MacroTable) : Prop where
  find : ∀ name argc, lreFindMacro tbl name argc =
    (defines.reverse.find? fun d => d.name = name ∧ d.params.length = argc).map DefineText.mac
  isMacro : ∀ name, isLreMacro tbl name = true ↔ ∃ d ∈ defines, d.name = name
  kept : ∀ hashidx, tbl hashidx =
    ((defines.filter fun d => hashStr d.name defaultMacroHlistBit = hashidx).map
      DefineText.mac).reverse
  inside : ∀ d ∈ defines, hashStr d.name defaultMacroHlistBit < 2 ^ defaultMacroHlistBit

variable {defines : List DefineText}

theorem hashStr_lt (str : Word) :
    hashStr str defaultMacroHlistBit < 2 ^ defaultMacroHlistBit := by
  rw [hashStr, BitVec.toNat_ushiftRight, Nat.shiftRight_eq_div_pow]
  exact Nat.div_lt_of_lt_mul (BitVec.isLt _)

/-- The hash that `lre_macro_add` takes. -/
def LreMacro.hashidx (mac : LreMacro) : ℕ := hashStr mac.keyword defaultMacroHlistBit

/-- The table of the definitions, in the order in which they are loaded. -/
def tableOf (macs : List LreMacro) : MacroTable :=
  macs.foldl (fun tbl mac => insert LreMacro.hashidx mac tbl) .empty

theorem foldlM_defines (hfound : ∀ d ∈ defines, d.found ≤ lreMacroArgcMax)
    (load : Word → ConfState → Option ConfState) (state : ConfState) :
    (defines.map fun d => d.text).foldlM (lreMacroConfParse load) state =
      some ⟨(defines.map DefineText.mac).foldl (fun tbl mac => lreMacroAdd mac tbl) state.tbl,
        state.opened⟩ := by
  induction defines generalizing state with
  | nil => rfl
  | cons d defines ih =>
    obtain ⟨hd, hrest⟩ := List.forall_mem_cons.mp hfound
    rw [List.map_cons, List.foldlM_cons, lreMacroConfParse, DefineText.confLine_eq hd]
    exact ih hrest _

theorem find_tableOf (macs : List LreMacro) (name : Word) (argc : ℕ) :
    lreFindMacro (tableOf macs) name argc =
      macs.reverse.find? fun mac => mac.keyword = name ∧ mac.argc = argc := by
  apply find?_foldl_insert
  intro mac hmac
  rw [LreMacro.hashidx, (of_decide_eq_true hmac).1]

theorem isLreMacro_tableOf (macs : List LreMacro) (name : Word) :
    isLreMacro (tableOf macs) name = macs.any fun mac => mac.keyword = name := by
  apply any_foldl_insert
  intro mac hmac
  rw [LreMacro.hashidx, of_decide_eq_true hmac]

theorem tableOf_eq (macs : List LreMacro) (hashidx : ℕ) : tableOf macs hashidx =
    (macs.filter fun mac => mac.hashidx = hashidx).reverse := by
  rw [tableOf, foldl_insert]
  exact List.append_nil _

/-- **After lines that define macros, a name and a number of parameters find their newest
definition, the names that are defined are macros, and no definition is lost.** -/
theorem confParse_lookup (defines : List DefineText)
    (hfound : ∀ d ∈ defines, d.found ≤ lreMacroArgcMax)
    (load : Word → ConfState → Option ConfState) :
    ∃ tbl, (defines.map fun d => d.text).foldlM (lreMacroConfParse load) .init = some ⟨tbl, 0⟩ ∧
      MacroLookup defines tbl := by
  refine ⟨tableOf (defines.map DefineText.mac), foldlM_defines hfound load .init, ?_, ?_, ?_,
    fun d _ => hashStr_lt d.name⟩
  · intro name argc
    rw [find_tableOf, ← List.map_reverse, List.find?_map]
    rfl
  · intro name
    rw [isLreMacro_tableOf, List.any_map, List.any_eq_true]
    exact exists_congr fun d => and_congr_right' decide_eq_true_iff
  · intro hashidx
    rw [tableOf_eq, List.filter_map]
    rfl

/-- `define m(a) "$a"` -/
def defineOne : DefineText where
  text := defineWord ++ [' ', 'm', '(', 'a', ')', ' ', '"', '$', 'a', '"']
  name := ['m']
  params := [['a']]
  content := ['$', 'a']
  toks := [.symbol .startParenthesis, .key ['a'], .symbol .endParenthesis,
    .word (.quoted ['$', 'a'])]
  rest := []
  isCString := by decide
  fits := by decide
  lexed := rfl
  formals := rfl

/-- `define m(b) "f{e==$b}"`, with the name and the number of parameters of `defineOne` -/
def defineAgain : DefineText where
  text := defineWord ++ [' ', 'm', '(', 'b', ')', ' ', '"', 'f', '{', 'e', '=', '=', '$', 'b', '}',
    '"']
  name := ['m']
  params := [['b']]
  content := ['f', '{', 'e', '=', '=', '$', 'b', '}']
  toks := [.symbol .startParenthesis, .key ['b'], .symbol .endParenthesis,
    .word (.quoted ['f', '{', 'e', '=', '=', '$', 'b', '}'])]
  rest := []
  isCString := by decide
  fits := by decide
  lexed := rfl
  formals := rfl

/-- `define m() "m(1)"`, with another number of parameters -/
def defineNone : DefineText where
  text := defineWord ++ [' ', 'm', '(', ')', ' ', '"', 'm', '(', '1', ')', '"']
  name := ['m']
  params := []
  content := ['m', '(', '1', ')']
  toks := [.symbol .startParenthesis, .symbol .endParenthesis,
    .word (.quoted ['m', '(', '1', ')'])]
  rest := []
  isCString := by decide
  fits := by decide
  lexed := rfl
  formals := rfl

theorem confParse_lookup_again : ∃ tbl,
    ([defineOne, defineNone, defineAgain].map fun d => d.text).foldlM
      (lreMacroConfParse fun _ => some) .init = some ⟨tbl, 0⟩ ∧
    lreFindMacro tbl ['m'] 1 = some defineAgain.mac ∧
    lreFindMacro tbl ['m'] 0 = some defineNone.mac ∧ lreFindMacro tbl ['m'] 2 = none ∧
    isLreMacro tbl ['m'] = true ∧ isLreMacro tbl ['n'] = false := by
  obtain ⟨tbl, hload, hlookup⟩ := confParse_lookup [defineOne, defineNone, defineAgain]
    (fun d hd => d.found_le_length.trans
      ((by decide : ∀ d ∈ [defineOne, defineNone, defineAgain], d.content.length ≤ 16) d hd))
    fun _ => some
  refine ⟨tbl, hload, hlookup.find _ _, hlookup.find _ _, hlookup.find _ _,
    (hlookup.isMacro _).mpr ⟨defineOne, List.mem_cons_self, rfl⟩, Bool.eq_false_iff.mpr ?_⟩
  rw [ne_eq, hlookup.isMacro]
  decide

end Lre
