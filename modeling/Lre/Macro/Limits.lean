import Lre.Macro.Lookup

/-!
# Limits of an expansion

* `DefineText.expansion`: the complete expansion of a definition.
* `WithinLimits`: the array of tokens is not exceeded, and no code is a part of the expansion.
* **`withinLimits_iff`**: when this holds for a definition and its actuals.
-/

namespace Lre

open CString

/-- The content with the actuals in place of the references that are found. -/
def DefineText.expansion (d : DefineText) (actuals : List Word) : Word :=
  (scanPieces d.params d.content).flatMap (Piece.text actuals)

/-- `lre_macro_content2token` stays in its array, and `lre_create_code_by_macro` returns `NULL` or
the complete expansion. -/
structure WithinLimits (d : DefineText) (actuals : List Word) : Prop where
  array : lreMacroParse d.body ≠ .overflow
  code : ∀ mac, lreMacroParse d.body = .ok mac → lreCreateCodeByMacro mac actuals = none ∨
    lreCreateCodeByMacro mac actuals = some (d.expansion actuals)

variable {d : DefineText} {actuals : List Word} {mac : LreMacro}

theorem parse_ne_overflow_iff (d : DefineText) :
    lreMacroParse d.body ≠ .overflow ↔ ∃ mac, lreMacroParse d.body = .ok mac := by
  rw [lreMacroParse, d.formals]
  dsimp only
  rw [dif_pos d.nul_notMem]
  cases lreMacroContent2token d.name d.params d.content d.nul_notMem with
  | none => exact iff_of_false (fun h => h rfl) (by rintro ⟨_, ⟨⟩⟩)
  | some mac => exact iff_of_true (fun h => by cases h) ⟨mac, rfl⟩

theorem createCode_body (hmac : lreMacroParse d.body = .ok mac)
    (hlen : actuals.length = d.params.length) : lreCreateCodeByMacro mac actuals =
      some ((d.expansion actuals).take (defaultCodebufSize - 1)) :=
  createCode_content ((lreMacroParse_body d).mp hmac) hlen

theorem createCode_of_ne (hmac : lreMacroParse d.body = .ok mac)
    (hlen : ¬actuals.length = d.params.length) : lreCreateCodeByMacro mac actuals = none := by
  have hmake := (lreMacroParse_body d).mp hmac
  rw [lreMacroContent2token] at hmake
  split_ifs at hmake
  rw [← Option.some.inj hmake, lreCreateCodeByMacro, dif_neg (Ne.symm hlen)]

theorem WithinLimits.length_lt (h : WithinLimits d actuals)
    (hlen : actuals.length = d.params.length) :
    (d.expansion actuals).length < defaultCodebufSize := by
  obtain ⟨mac, hmac⟩ := (parse_ne_overflow_iff d).mp h.array
  have hcode := createCode_body hmac hlen
  rcases h.code mac hmac with hnone | hsome
  · rw [hnone] at hcode
    cases hcode
  · rw [hsome, Option.some_inj] at hcode
    have hle := congrArg List.length hcode
    rw [List.length_take] at hle
    have hpos : 0 < defaultCodebufSize := by decide
    omega

/-- **The limits are kept exactly when at most 16 references are found in the content, and the
expansion is shorter than the buffer when there is one.** -/
theorem withinLimits_iff (d : DefineText) (actuals : List Word) : WithinLimits d actuals ↔
    d.found ≤ lreMacroArgcMax ∧
      (actuals.length = d.params.length →
        (d.expansion actuals).length < defaultCodebufSize) := by
  constructor
  · intro h
    exact ⟨(parse_ok_iff d).mp ((parse_ne_overflow_iff d).mp h.array), h.length_lt⟩
  · rintro ⟨hfound, hlt⟩
    have hok := (parse_ok_iff d).mpr hfound
    refine ⟨(parse_ne_overflow_iff d).mpr hok, fun mac hmac => ?_⟩
    by_cases hlen : actuals.length = d.params.length
    · rw [createCode_body hmac hlen, List.take_of_length_le (Nat.le_sub_one_of_lt (hlt hlen))]
      exact .inr rfl
    · exact .inl (createCode_of_ne hmac hlen)

/-! ## Many references -/

/-- `define m(a) "$a…$a"`, with `n` references. -/
def referText (n : ℕ) : Word :=
  defineWord ++ [' ', 'm', '(', 'a', ')', ' ', '"'] ++ (List.replicate n ['$', 'a']).flatten ++
    ['"']

theorem scanPieces_refer (n : ℕ) : scanPieces [['a']] (List.replicate n ['$', 'a']).flatten =
    List.replicate n (.ref 0) := by
  induction n with
  | zero => rw [List.replicate_zero, List.flatten_nil, scanPieces, List.replicate_zero]
  | succ n ih =>
    rw [List.replicate_succ, List.replicate_succ, List.flatten_cons, List.cons_append, scanPieces,
      if_pos List.mem_cons_self]
    exact congrArg (Piece.ref 0 :: ·) ih

/-- One reference. -/
def referOnce : DefineText where
  text := referText 1
  name := ['m']
  params := [['a']]
  content := (List.replicate 1 ['$', 'a']).flatten
  toks := [.symbol .startParenthesis, .key ['a'], .symbol .endParenthesis,
    .word (.quoted (List.replicate 1 ['$', 'a']).flatten)]
  rest := []
  isCString := by decide
  fits := by decide
  lexed := rfl
  formals := rfl

/-- A reference more than the array takes. -/
def referOften : DefineText where
  text := referText 17
  name := ['m']
  params := [['a']]
  content := (List.replicate 17 ['$', 'a']).flatten
  toks := [.symbol .startParenthesis, .key ['a'], .symbol .endParenthesis,
    .word (.quoted (List.replicate 17 ['$', 'a']).flatten)]
  rest := []
  isCString := by decide
  fits := by decide
  lexed := rfl
  formals := rfl

/-- 17 references exceed the array, and of an actual of 4096 characters the last one is lost. -/
theorem referOften_exceeds : ¬WithinLimits referOften [['x']] ∧
    ¬WithinLimits referOnce [List.replicate 4096 'x'] := by
  constructor
  · intro h
    have hfound := (parse_ok_iff _).mp ((parse_ne_overflow_iff _).mp h.array)
    rw [DefineText.found, referOften, scanPieces_refer] at hfound
    exact absurd hfound (by decide)
  · intro h
    have hlt := h.length_lt rfl
    have hexp : referOnce.expansion [List.replicate 4096 'x'] = List.replicate 4096 'x' := by
      rw [DefineText.expansion, referOnce, scanPieces_refer]
      exact List.append_nil _
    rw [hexp, List.length_replicate] at hlt
    exact absurd hlt (by decide)

end Lre
