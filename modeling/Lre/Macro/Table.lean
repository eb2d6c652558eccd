import Lre.Interp.Buffer
import Lre.Symbol

/-!
# Macros

* `LreMacro`, `MacroTable`: the macros of `macro.c` in their hash lists.
* `lreMacroAdd`, `lreFindMacro`, `isLreMacro`, `lreCreateCodeByMacro`: the source.
* `isLreMacro_of_find`: a macro that is found is a macro.
* `lreCreateCodeByMacro_eq`: the code of a macro is its tokens joined, cut to what fits into the
  local buffer.
-/

namespace Lre

open CString

/-- `LRE_MACRO_ARGC_MAX`. -/
def lreMacroArgcMax : ℕ := 16

/-- `DEFAULT_MACRO_HLIST_BIT`. -/
def defaultMacroHlistBit : ℕ := 8

/-! ## Tables -/

/-- `struct lre_macro_token` of a macro with `argc` arguments. -/
inductive MacroToken (argc : ℕ)
  | arg (argindex : Fin argc)
  | word (wordptr : Word)
  deriving DecidableEq

/-- `struct lre_macro`. -/
structure LreMacro where
  keyword : Word
  args : List Word
  token : List (MacroToken args.length)
  /-- the words are C strings -/
  nul_notMem : ∀ w, .word w ∈ token → nul ∉ w

/-- `argc` of a macro. -/
abbrev LreMacro.argc (mac : LreMacro) : ℕ := mac.args.length

/-- `macro_hlists`. -/
abbrev MacroTable := ℕ → List LreMacro

/-- `hash_str`; a `char` is signed. -/
def hashStr (str : Word) (bits : ℕ) : ℕ :=
  let char (c : Char) : ℤ := if c.toNat < 128 then c.toNat else c.toNat - 256
  (str.foldl (fun hash c => hash * 131 + BitVec.ofInt 32 (char c)) (0 : BitVec 32) >>>
    (32 - bits)).toNat

/-- The table `lre_macro_init` begins with. -/
def MacroTable.empty : MacroTable := fun _ => []

/-- `lre_macro_add`. -/
def lreMacroAdd (mac : LreMacro) (tbl : MacroTable) : MacroTable :=
  let hashidx := hashStr mac.keyword defaultMacroHlistBit
  Function.update tbl hashidx (mac :: tbl hashidx)

/-- `lre_find_macro`. -/
def lreFindMacro (tbl : MacroTable) (str : Word) (argc : ℕ) : Option LreMacro :=
  (tbl (hashStr str defaultMacroHlistBit)).find? fun mac => mac.keyword = str ∧ mac.argc = argc

/-- `is_lre_macro`. -/
def isLreMacro (tbl : MacroTable) (str : Word) : Bool :=
  (tbl (hashStr str defaultMacroHlistBit)).any fun mac => mac.keyword = str

theorem mem_of_find {tbl : MacroTable} {str : Word} {argc : ℕ} {mac : LreMacro}
    (h : lreFindMacro tbl str argc = some mac) :
    mac ∈ tbl (hashStr str defaultMacroHlistBit) ∧ mac.keyword = str ∧ mac.argc = argc := by
  have hmatch := List.find?_some (p := fun mac : LreMacro =>
    decide (mac.keyword = str ∧ mac.argc = argc)) h
  exact ⟨List.mem_of_find?_eq_some h, of_decide_eq_true hmatch⟩

theorem isLreMacro_of_find {tbl : MacroTable} {str : Word} {argc : ℕ} {mac : LreMacro}
    (h : lreFindMacro tbl str argc = some mac) : isLreMacro tbl str = true := by
  obtain ⟨hmem, hkey, -⟩ := mem_of_find h
  exact List.any_eq_true.mpr ⟨mac, hmem, decide_eq_true hkey⟩

/-! ## The code of a macro -/

/-- One round of `lre_create_code_by_macro`: the text in `code`, and `len`. -/
def appendCode (code : Word × ℕ) (s : Word) : Word × ℕ :=
  let (out, n) := xsnprintf (defaultCodebufSize - code.2) s
  (code.1 ++ out, code.2 + n)

/-- The string a token stands for. -/
def MacroToken.text {argc : ℕ} (args : List Word) (h : argc = args.length) :
    MacroToken argc → Word
  | .word wordptr => wordptr
  | .arg argindex => args.get (argindex.cast h)

/-- `lre_create_code_by_macro`; `none` is `NULL`. -/
def lreCreateCodeByMacro (mac : LreMacro) (args : List Word) : Option Word :=
  if h : mac.argc = args.length then
    some (mac.token.foldl (fun code t => appendCode code (t.text args h)) ([], 0)).1
  else none

theorem foldl_appendCode (ss : List Word) : ∀ s : Word,
    ss.foldl appendCode (s.take (defaultCodebufSize - 1), min s.length defaultCodebufSize) =
      ((s ++ ss.flatten).take (defaultCodebufSize - 1),
        min (s ++ ss.flatten).length defaultCodebufSize) := by
  induction ss with
  | nil => simp
  | cons w ss ih =>
    intro s
    have hstep : appendCode (s.take (defaultCodebufSize - 1), min s.length defaultCodebufSize) w =
        ((s ++ w).take (defaultCodebufSize - 1), min (s ++ w).length defaultCodebufSize) := by
      rw [appendCode, xsnprintf, List.take_append, List.length_append]
      refine Prod.ext ?_ ?_
      · show _ ++ _ = _ ++ _
        congr 2
        omega
      · show _ + (if _ then _ else _) = _
        split <;> omega
    rw [List.foldl_cons, hstep, ih, List.flatten_cons, List.append_assoc]

/-- **The code of a macro: its tokens joined, cut to what fits into the local buffer.** -/
theorem lreCreateCodeByMacro_eq {mac : LreMacro} {args : List Word} (h : mac.argc = args.length) :
    lreCreateCodeByMacro mac args =
      some ((mac.token.map (MacroToken.text args h)).flatten.take (defaultCodebufSize - 1)) := by
  have hfold := foldl_appendCode (mac.token.map (MacroToken.text args h)) []
  rw [List.foldl_map] at hfold
  rw [lreCreateCodeByMacro, dif_pos h]
  exact congrArg (some ·.1) hfold

theorem length_of_createCode {mac : LreMacro} {args : List Word} {code : Word}
    (h : lreCreateCodeByMacro mac args = some code) : code.length < defaultCodebufSize := by
  by_cases hargc : mac.argc = args.length
  · rw [lreCreateCodeByMacro_eq hargc] at h
    cases h
    exact Nat.lt_of_le_of_lt (List.length_take_le _ _) (by decide)
  · rw [lreCreateCodeByMacro, dif_neg hargc] at h
    cases h

theorem nul_notMem_of_createCode {mac : LreMacro} {args : List Word} {code : Word}
    (hargs : ∀ w ∈ args, nul ∉ w) (h : lreCreateCodeByMacro mac args = some code) :
    nul ∉ code := by
  by_cases hargc : mac.argc = args.length
  · rw [lreCreateCodeByMacro_eq hargc] at h
    cases h
    intro hnul
    obtain ⟨w, hw, hin⟩ := List.mem_flatten.mp (List.mem_of_mem_take hnul)
    obtain ⟨t, ht, rfl⟩ := List.mem_map.mp hw
    cases t with
    | word wordptr => exact mac.nul_notMem wordptr ht hin
    | arg argindex => exact hargs _ (List.get_mem _ _) hin
  · rw [lreCreateCodeByMacro, dif_neg hargc] at h
    cases h

end Lre
