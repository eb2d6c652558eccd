import Mathlib.Algebra.Order.Group.Nat
import Mathlib.Data.List.Basic

/-!
# Formatted input

The `scanf` of the C library, on texts in memory.

* `Directive`, `Directive.scan`: white space, ordinary characters, decimal and hexadecimal numbers,
  and characters of a set.
* `scanf`: the values that are assigned before the first directive that fails (`scanf_cons`).
* `digits`, `number`: the digits of a number, and the number of digits (`number_digits`).
* `scan_number`, `scan_set`, `scan_space`: each directive reads what was written for it, whatever
  follows.
-/

namespace Scanf

/-- `isspace`. -/
def isSpace (c : Char) : Bool := c = ' ' || 9 ≤ c.toNat && c.toNat ≤ 13

/-- The value of a digit. -/
def digitVal (c : Char) : ℕ :=
  if c.isDigit then c.toNat - 48
  else if 'a' ≤ c ∧ c ≤ 'f' then c.toNat - 87
  else c.toNat - 55

/-- `isxdigit`. -/
def isXDigit (c : Char) : Bool := c.isDigit || 'a' ≤ c && c ≤ 'f' || 'A' ≤ c && c ≤ 'F'

/-- The bases of numbers. -/
inductive Base
  | dec
  | hex
  deriving DecidableEq

namespace Base

/-- The number of digits. -/
def size : Base → ℕ
  | dec => 10
  | hex => 16

/-- The characters that are digits. -/
def isDigit : Base → Char → Bool
  | dec => Char.isDigit
  | hex => isXDigit

end Base

/-- The number of a list of digits. -/
def number (b : Base) (ds : List Char) : ℕ := ds.foldl (fun n c => n * b.size + digitVal c) 0

/-- A directive of a format. A number is stored or suppressed; a set has a width. -/
inductive Directive
  | space
  | char (c : Char)
  | number (base : Base) (store : Bool)
  | set (width : ℕ) (p : Char → Bool)

/-- What is assigned. -/
inductive Value
  | number (negative : Bool) (n : ℕ)
  | text (w : List Char)
  deriving DecidableEq

/-- The sign of a number. -/
def scanSign (s : List Char) : Bool × List Char :=
  if s.head? = some '-' then (true, s.tail)
  else if s.head? = some '+' then (false, s.tail)
  else (false, s)

/-- The prefix of a hexadecimal number. -/
def scanPrefix (b : Base) (s : List Char) : List Char :=
  if b = .hex ∧ s.head? = some '0' ∧ (s.tail.head? = some 'x' ∨ s.tail.head? = some 'X') then
    s.drop 2
  else s

/-- A directive at the front of a text: what it assigns and what is left, or nothing when it
fails. -/
def Directive.scan : Directive → List Char → Option (Option Value × List Char)
  | .space, s => some (none, s.dropWhile isSpace)
  | .char _, [] => none
  | .char c, c' :: s => if c' = c then some (none, s) else none
  | .number b store, s =>
    let (negative, s) := scanSign (s.dropWhile isSpace)
    let s := scanPrefix b s
    let ds := s.takeWhile b.isDigit
    if ds = [] then none
    else some (if store then some (.number negative (Scanf.number b ds)) else none,
      s.dropWhile b.isDigit)
  | .set width p, s =>
    let w := (s.take width).takeWhile p
    if w = [] then none else some (some (.text w), s.drop w.length)

/-- The values that are assigned. -/
def scanf : List Directive → List Char → List Value
  | [], _ => []
  | d :: fmt, s =>
    match d.scan s with
    | none => []
    | some (v, s) => v.toList ++ scanf fmt s

theorem scanf_cons {d : Directive} {s rest : List Char} {v : Option Value}
    (h : d.scan s = some (v, rest)) (fmt : List Directive) :
    scanf (d :: fmt) s = v.toList ++ scanf fmt rest := by
  rw [scanf, h]

/-- The directives that may assign a value. -/
def Directive.assigns : Directive → Bool
  | .number _ store => store
  | .set _ _ => true
  | _ => false

theorem Directive.scan_none {d : Directive} {s rest : List Char} {v : Option Value}
    (hd : d.assigns = false) (h : d.scan s = some (v, rest)) : v = none := by
  cases d with
  | space =>
    cases h
    rfl
  | char c =>
    cases s with
    | nil => cases h
    | cons c' s =>
      rw [Directive.scan] at h
      split at h <;> cases h
      rfl
  | number b store =>
    have hd : store = false := hd
    subst hd
    rw [Directive.scan] at h
    dsimp only at h
    split at h <;> cases h
    rfl
  | set width p => cases hd

theorem scanf_eq_nil {fmt : List Directive} (h : ∀ d ∈ fmt, d.assigns = false) (s : List Char) :
    scanf fmt s = [] := by
  induction fmt generalizing s with
  | nil => rfl
  | cons d fmt ih =>
    cases hd : d.scan s with
    | none => rw [scanf, hd]
    | some r =>
      obtain ⟨v, rest⟩ := r
      rw [scanf_cons hd, Directive.scan_none (h d List.mem_cons_self) hd]
      exact ih (fun d hd => h d (List.mem_cons_of_mem _ hd)) rest

/-! ## Digits -/

/-- The digit with a value. -/
def digit (n : ℕ) : Char := if n < 10 then Char.ofNat (48 + n) else Char.ofNat (55 + n)

/-- The last `w` digits of a number. -/
def digits (b : Base) : ℕ → ℕ → List Char
  | 0, _ => []
  | w + 1, n => digits b w (n / b.size) ++ [digit (n % b.size)]

variable {b : Base}

theorem Base.size_pos (b : Base) : 0 < b.size := by cases b <;> decide

theorem digitVal_digit (b : Base) (n : ℕ) : digitVal (digit (n % b.size)) = n % b.size := by
  have h : ∀ k < 16, digitVal (digit k) = k := by decide
  have hsize : b.size ≤ 16 := by cases b <;> decide
  exact h _ (lt_of_lt_of_le (Nat.mod_lt n b.size_pos) hsize)

theorem isDigit_digit (b : Base) (n : ℕ) : b.isDigit (digit (n % b.size)) = true := by
  cases b with
  | dec =>
    have h : ∀ k < 10, (digit k).isDigit = true := by decide
    exact h _ (Nat.mod_lt n (by decide))
  | hex =>
    have h : ∀ k < 16, isXDigit (digit k) = true := by decide
    exact h _ (Nat.mod_lt n (by decide))

theorem length_digits (b : Base) (w n : ℕ) : (digits b w n).length = w := by
  induction w generalizing n with
  | zero => rfl
  | succ w ih => rw [digits, List.length_append, ih, List.length_singleton]

theorem isDigit_of_mem_digits {w n : ℕ} {c : Char} (h : c ∈ digits b w n) : b.isDigit c = true := by
  induction w generalizing n with
  | zero => cases h
  | succ w ih =>
    rcases List.mem_append.mp h with h | h
    · exact ih h
    · rw [List.mem_singleton.mp h]
      exact isDigit_digit b n

theorem number_append (b : Base) (ds : List Char) (c : Char) :
    number b (ds ++ [c]) = number b ds * b.size + digitVal c := by
  rw [number, List.foldl_append]
  rfl

/-- **The digits of a number have its value.** -/
theorem number_digits {w n : ℕ} (h : n < b.size ^ w) : number b (digits b w n) = n := by
  induction w generalizing n with
  | zero =>
    rw [pow_zero] at h
    obtain rfl : n = 0 := by omega
    rfl
  | succ w ih =>
    have hdiv : n / b.size < b.size ^ w := Nat.div_lt_of_lt_mul (by rwa [← pow_succ'])
    rw [digits, number_append, ih hdiv, digitVal_digit, Nat.mul_comm]
    exact Nat.div_add_mod n b.size

/-! ## Reading what was written -/

/-- The text does not begin with a character of the kind. -/
def Ends (p : Char → Bool) : List Char → Prop
  | [] => True
  | c :: _ => p c = false

theorem takeWhile_of_ends {p : Char → Bool} {ds rest : List Char} (hds : ∀ c ∈ ds, p c = true)
    (hrest : Ends p rest) : (ds ++ rest).takeWhile p = ds ∧ (ds ++ rest).dropWhile p = rest := by
  rw [List.takeWhile_append_of_pos hds, List.dropWhile_append_of_pos hds]
  cases rest with
  | nil => exact ⟨List.append_nil _, rfl⟩
  | cons c rest =>
    have hc : ¬p c = true := by
      rw [show p c = false from hrest]
      exact Bool.false_ne_true
    rw [List.takeWhile_cons_of_neg hc, List.dropWhile_cons_of_neg hc]
    exact ⟨List.append_nil _, rfl⟩

theorem scan_space {blanks rest : List Char} (hblanks : ∀ c ∈ blanks, isSpace c = true)
    (hrest : Ends isSpace rest) : Directive.space.scan (blanks ++ rest) = some (none, rest) := by
  rw [Directive.scan, (takeWhile_of_ends hblanks hrest).2]

theorem scan_char (c : Char) (rest : List Char) :
    (Directive.char c).scan (c :: rest) = some (none, rest) := if_pos rfl

theorem isDigit_ne {c : Char} (h : b.isDigit c = true) :
    isSpace c = false ∧ c ≠ '-' ∧ c ≠ '+' := by
  have hnat : 48 ≤ c.toNat := by
    cases b with
    | dec =>
      have h : c.isDigit = true := h
      simp only [Char.isDigit, Bool.and_eq_true, decide_eq_true_eq] at h
      exact h.1
    | hex =>
      have h : isXDigit c = true := h
      simp only [isXDigit, Char.isDigit, Bool.or_eq_true, Bool.and_eq_true, decide_eq_true_eq,
        Char.le_def] at h
      rcases h with (h | h) | h
      · exact h.1
      · exact le_trans (by decide) h.1
      · exact le_trans (by decide) h.1
  refine ⟨?_, ?_, ?_⟩
  · have hne : c ≠ ' ' := by
      rintro rfl
      exact absurd hnat (by decide)
    simp only [isSpace, hne, decide_false, Bool.false_or, Bool.and_eq_false_iff,
      decide_eq_false_iff_not]
    omega
  · rintro rfl
    exact absurd hnat (by decide)
  · rintro rfl
    exact absurd hnat (by decide)

/-- A number is read up to what is no digit of it. -/
theorem scan_number {store : Bool} {blanks ds rest : List Char}
    (hblanks : ∀ c ∈ blanks, isSpace c = true) (hds : ∀ c ∈ ds, b.isDigit c = true)
    (hne : ds ≠ []) (hrest : Ends b.isDigit rest)
    (hx : rest.head? ≠ some 'x' ∧ rest.head? ≠ some 'X') :
    (Directive.number b store).scan (blanks ++ (ds ++ rest)) =
      some (if store then some (.number false (number b ds)) else none, rest) := by
  obtain ⟨d, ds', rfl⟩ := List.exists_cons_of_ne_nil hne
  obtain ⟨hspace, hminus, hplus⟩ := isDigit_ne (hds d List.mem_cons_self)
  have hends : Ends isSpace (d :: ds' ++ rest) := hspace
  have hskip := (takeWhile_of_ends hblanks hends).2
  have hsign : scanSign (d :: ds' ++ rest) = (false, d :: ds' ++ rest) := by
    have hhead : (d :: ds' ++ rest).head? = some d := rfl
    rw [scanSign, hhead, if_neg (fun h => hminus (Option.some.inj h)),
      if_neg (fun h => hplus (Option.some.inj h))]
  have hnox : ∀ c ∈ ds', c ≠ 'x' ∧ c ≠ 'X' := by
    intro c hc
    have hdigit := hds c (List.mem_cons_of_mem _ hc)
    constructor <;> rintro rfl <;> cases b <;> exact absurd hdigit (by decide)
  have hpre : scanPrefix b (d :: ds' ++ rest) = d :: ds' ++ rest := by
    have hhead : (ds' ++ rest).head? ≠ some 'x' ∧ (ds' ++ rest).head? ≠ some 'X' := by
      cases ds' with
      | nil => exact hx
      | cons c ds' =>
        have h := hnox c List.mem_cons_self
        exact ⟨fun heq => h.1 (Option.some.inj heq), fun heq => h.2 (Option.some.inj heq)⟩
    exact if_neg fun h => h.2.2.elim hhead.1 hhead.2
  obtain ⟨htake, hdrop⟩ := takeWhile_of_ends hds hrest
  rw [Directive.scan]
  dsimp only
  rw [hskip, hsign]
  dsimp only
  rw [hpre, htake, hdrop, if_neg hne]

theorem scan_set {width : ℕ} {p : Char → Bool} {w rest : List Char} (hw : ∀ c ∈ w, p c = true)
    (hne : w ≠ []) (hlen : w.length ≤ width) (hrest : Ends p rest) :
    (Directive.set width p).scan (w ++ rest) = some (some (.text w), rest) := by
  have htake : ((w ++ rest).take width).takeWhile p = w := by
    rw [List.take_append, List.take_of_length_le hlen]
    refine (takeWhile_of_ends hw ?_).1
    cases rest with
    | nil => rw [List.take_nil]; trivial
    | cons c rest =>
      cases width - w.length with
      | zero => trivial
      | succ n => exact hrest
  rw [Directive.scan, htake, if_neg hne, List.drop_left]

end Scanf
