import Lre.Exec.Model

/-!
# Literals

* `peekValType`, `val2lreValueRet`: `peek_val_type`, and `val2lre_value` with its return code.
* `LiteralRead`: what a word of each class has to be read as.
* `isDoubleDigit_eq_false`: the test for a double accepts nothing.
* **`val2lreValue_literal_iff`**: a word is read as it should be exactly when it is no number above
  `INT_MAX`, no decimal fraction and no word that only begins with a quote.
-/

namespace Lre

/-- The types of `struct lre_value`, `LRE_ARG_TYPE_UNKNOWN` and so on. -/
inductive ArgType
  | unknown | int | double | string
  deriving DecidableEq, Repr

/-- `peek_val_type`. -/
def peekValType (str : Word) : ArgType :=
  if isDigit str then .int
  else if isDoubleDigit str then .double
  else .string

/-- `val2lre_value`, with its return code. -/
def val2lreValueRet {D : Type} (R : Doubles D) (val : Word) : ℤ × Content D :=
  match peekValType val with
  | .string => (0, if val.head? = some '"' then .string val.tail.dropLast else .string val)
  | .int => (0, .int (atoi val))
  | .double => (0, .double (R.atof val))
  | .unknown => (einval, .unknown)

variable {D : Type} {R : Doubles D} {w : Word}

theorem val2lreValueRet_eq (R : Doubles D) (val : Word) :
    val2lreValueRet R val = (0, val2lreValue R val) := by
  unfold val2lreValueRet val2lreValue peekValType
  by_cases hint : isDigit val
  · simp only [hint, if_true]
  · by_cases hdouble : isDoubleDigit val
    · simp only [hint, hdouble, if_true, if_false, Bool.false_eq_true]
    · simp only [hint, hdouble, if_false, Bool.false_eq_true]

/-! ## The classes -/

/-- A word of decimal digits. -/
def IsNumber (w : Word) : Prop := ∀ c ∈ w, c.isDigit

/-- Digits with one point among them, which is not the first character. -/
def IsDecimal (w : Word) : Prop :=
  ∃ a b : Word, w = a ++ '.' :: b ∧ a ≠ [] ∧ IsNumber a ∧ IsNumber b

/-- The quoted word of a string. -/
def quote (s : Word) : Word := '"' :: (s ++ ['"'])

/-- What a word has to be read as: the return code and the value. -/
structure LiteralRead (w : Word) (ret : ℤ) (content : Content D) : Prop where
  fits : IsNumber w → digitsVal w < 2 ^ 31 →
    ret = 0 ∧ ∃ v, content = .int v ∧ v.toInt = digitsVal w
  rejected : IsNumber w → 2 ^ 31 ≤ digitsVal w → ret ≠ 0
  decimal : IsDecimal w → ret = 0 ∧ ∃ d, content = .double d
  quoted : ∀ s, w = quote s → ret = 0 ∧ content = .string s
  other : ¬IsNumber w → ¬IsDecimal w → (∀ s, w ≠ quote s) → ret = 0 ∧ content = .string w

/-- A number above `INT_MAX`. -/
def TooLarge (w : Word) : Prop := IsNumber w ∧ 2 ^ 31 ≤ digitsVal w

/-- A word that begins with a quote and is no quoted word. -/
def HalfQuoted (w : Word) : Prop := w.head? = some '"' ∧ ∀ s, w ≠ quote s

theorem isDigit_iff : isDigit w ↔ IsNumber w := List.all_eq_true

/-- A point is no digit, so that the loop never comes to count one. -/
theorem isDoubleDigitLoop_eq_false (flags : ℕ) (h : flags ≠ 1) :
    isDoubleDigitLoop flags w = false := by
  induction w with
  | nil => simpa [isDoubleDigitLoop] using h
  | cons c w ih =>
    rw [isDoubleDigitLoop]
    by_cases hpoint : c = '.'
    · subst hpoint
      rfl
    · simp only [hpoint, if_false]
      split
      · exact ih
      · rfl

/-- **`is_double_digit` accepts no word.** -/
theorem isDoubleDigit_eq_false (w : Word) : isDoubleDigit w = false := by
  unfold isDoubleDigit
  split
  · rfl
  · exact isDoubleDigitLoop_eq_false 0 (by decide)

theorem IsDecimal.not_isNumber (h : IsDecimal w) : ¬IsNumber w := by
  obtain ⟨a, b, rfl, -⟩ := h
  intro hnum
  have := hnum '.' (by simp)
  exact absurd this (by decide)

theorem not_isNumber_quote (s : Word) : ¬IsNumber (quote s) := fun h =>
  absurd (h '"' List.mem_cons_self) (by decide)

theorem toInt_atoi (h : digitsVal w < 2 ^ 31) : (atoi w).toInt = digitsVal w := by
  have hmin : min (digitsVal w) (2 ^ 63 - 1) = digitsVal w := by omega
  rw [atoi, hmin, BitVec.toInt_eq_toNat_of_lt]
  · rw [BitVec.toNat_ofNat, Nat.mod_eq_of_lt (by omega)]
  · rw [BitVec.toNat_ofNat, Nat.mod_eq_of_lt (by omega)]
    omega

theorem val2lreValue_number (h : IsNumber w) : val2lreValue R w = .int (atoi w) := by
  rw [val2lreValue, if_pos (isDigit_iff.mpr h)]

theorem val2lreValue_string (h : ¬IsNumber w) : val2lreValue R w =
    if w.head? = some '"' then .string w.tail.dropLast else .string w := by
  rw [val2lreValue, if_neg (mt isDigit_iff.mp h), isDoubleDigit_eq_false]
  rfl

theorem val2lreValue_quote (s : Word) : val2lreValue R (quote s) = .string s := by
  rw [val2lreValue_string (not_isNumber_quote s)]
  simp [quote]

theorem HalfQuoted.not_isNumber (h : HalfQuoted w) : ¬IsNumber w := fun hnum =>
  absurd (hnum '"' (List.mem_of_mem_head? h.1)) (by decide)

theorem HalfQuoted.not_isDecimal (h : HalfQuoted w) : ¬IsDecimal w := by
  obtain ⟨hhead, -⟩ := h
  rintro ⟨a, b, rfl, hne, ha, -⟩
  obtain ⟨c, a, rfl⟩ := List.exists_cons_of_ne_nil hne
  obtain rfl : c = '"' := Option.some.inj hhead
  exact absurd (ha '"' List.mem_cons_self) (by decide)

/-- What is stripped is shorter than the word. -/
theorem HalfQuoted.val2lreValue_ne (h : HalfQuoted w) : val2lreValue R w ≠ .string w := by
  intro hself
  rw [val2lreValue_string h.not_isNumber, if_pos h.1] at hself
  obtain ⟨w', rfl⟩ : ∃ w', w = '"' :: w' := List.head?_eq_some_iff.mp h.1
  have hlen := congrArg List.length (Content.string.inj hself)
  rw [List.tail_cons, List.length_dropLast, List.length_cons] at hlen
  omega

/-- **A literal is read as the value it stands for exactly when it is no number above `INT_MAX`, no
decimal fraction and no word that only begins with a quote.** -/
theorem val2lreValue_literal_iff (R : Doubles D) (w : Word) :
    LiteralRead w (val2lreValueRet R w).1 (val2lreValueRet R w).2 ↔
      ¬TooLarge w ∧ ¬IsDecimal w ∧ ¬HalfQuoted w := by
  rw [val2lreValueRet_eq]
  constructor
  · intro h
    refine ⟨fun hlarge => h.rejected hlarge.1 hlarge.2 rfl, fun hdec => ?_, ?_⟩
    · obtain ⟨-, d, hd⟩ := h.decimal hdec
      have hstr := hd.symm.trans (val2lreValue_string hdec.not_isNumber)
      split at hstr <;> cases hstr
    · intro hhalf
      exact hhalf.val2lreValue_ne (h.other hhalf.not_isNumber hhalf.not_isDecimal hhalf.2).2
  · rintro ⟨hlarge, hdec, hhalf⟩
    constructor
    · intro hnum hfits
      exact ⟨rfl, _, val2lreValue_number hnum, toInt_atoi hfits⟩
    · intro hnum hbig
      exact absurd ⟨hnum, hbig⟩ hlarge
    · intro h
      exact absurd h hdec
    · rintro s rfl
      exact ⟨rfl, @val2lreValue_quote _ R s⟩
    · intro hnum _ hquote
      refine ⟨rfl, ?_⟩
      show val2lreValue R w = .string w
      rw [val2lreValue_string hnum, if_neg fun hhead => hhalf ⟨hhead, hquote⟩]

/-- `2147483648` is read as the least number, where it has to be refused. -/
theorem val2lreValue_pastIntMax :
    val2lreValueRet unitDoubles ['2', '1', '4', '7', '4', '8', '3', '6', '4', '8'] =
      (0, .int (BitVec.intMin 32)) ∧
    ¬∀ w : Word, w ≠ [] →
      LiteralRead w (val2lreValueRet unitDoubles w).1 (val2lreValueRet unitDoubles w).2 := by
  refine ⟨by decide, fun hall => ?_⟩
  have hread := hall ['2', '1', '4', '7', '4', '8', '3', '6', '4', '8'] nofun
  exact hread.rejected (isDigit_iff.mp (by decide)) (by decide) rfl

/-- `1.5` is read as a string. -/
example : val2lreValue unitDoubles ['1', '.', '5'] = .string ['1', '.', '5'] := by decide

end Lre
