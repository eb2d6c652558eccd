import Mathlib.Data.Nat.Digits.Lemmas

/-!
# Digits packed into fields of bits

* `pack k ds`: the digits `ds`, each put into `k` bits by a bitwise or, the lowest digit first.
* `pack_eq_ofDigits`: digits that fit into their fields are the digits of the result.
* **`pack_digit`**: a digit that does not fit spills into the next field.
-/

namespace Packed

variable {k n : ℕ} {ds : List ℕ}

/-- The digits, each in a field of `k` bits. -/
def pack (k : ℕ) : List ℕ → ℕ
  | [] => 0
  | d :: ds => d ||| pack k ds <<< k

@[simp] theorem pack_nil : pack k [] = 0 := rfl

@[simp] theorem pack_cons (d : ℕ) (ds : List ℕ) : pack k (d :: ds) = d ||| pack k ds <<< k := rfl

theorem pack_mod (d : ℕ) (ds : List ℕ) : pack k (d :: ds) % 2 ^ k = d % 2 ^ k := by
  rw [pack_cons, Nat.or_mod_two_pow, Nat.shiftLeft_eq, Nat.mul_mod_left, Nat.or_zero]

theorem pack_div (d : ℕ) (ds : List ℕ) :
    pack k (d :: ds) / 2 ^ k = d / 2 ^ k ||| pack k ds := by
  rw [pack_cons, Nat.or_div_two_pow, Nat.shiftLeft_eq,
    Nat.mul_div_cancel _ (Nat.two_pow_pos k)]

theorem pack_eq_ofDigits (h : ∀ d ∈ ds, d < 2 ^ k) : pack k ds = Nat.ofDigits (2 ^ k) ds := by
  induction ds with
  | nil => rfl
  | cons d ds ih =>
    have hd : d < 2 ^ k := h d List.mem_cons_self
    have hrest : pack k ds = Nat.ofDigits (2 ^ k) ds :=
      ih fun e he => h e (List.mem_cons_of_mem _ he)
    rw [Nat.ofDigits_cons, ← hrest, ← Nat.div_add_mod (pack k (d :: ds)) (2 ^ k), pack_mod,
      pack_div, Nat.mod_eq_of_lt hd, Nat.div_eq_of_lt hd, Nat.zero_or, Nat.add_comm]

/-- A digit may spill as far beyond the last field as it is too large. -/
theorem pack_lt {e : ℕ} (h : ∀ d ∈ ds, d < 2 ^ (k + e)) : pack k ds < 2 ^ (k * ds.length + e) := by
  induction ds with
  | nil => exact Nat.two_pow_pos _
  | cons d ds ih =>
    have hrest : pack k ds < 2 ^ (k * ds.length + e) :=
      ih fun e he => h e (List.mem_cons_of_mem _ he)
    have hsucc : k * (d :: ds).length + e = k * ds.length + e + k := by
      rw [List.length_cons, Nat.mul_succ, Nat.add_right_comm]
    rw [pack_cons, hsucc]
    apply Nat.or_lt_two_pow
    · have hle : k + e ≤ k * ds.length + e + k := by omega
      exact Nat.lt_of_lt_of_le (h d List.mem_cons_self) (Nat.pow_le_pow_right (by decide) hle)
    · rw [Nat.shiftLeft_eq, Nat.pow_add]
      exact Nat.mul_lt_mul_of_pos_right hrest (Nat.two_pow_pos k)

/-- A field holds the low bits of its digit and what the digit below has too much. -/
theorem pack_digit (h : ∀ d ∈ ds, d < 2 ^ (2 * k)) (j : ℕ) :
    pack k ds / (2 ^ k) ^ j % 2 ^ k =
      ds.getD j 0 % 2 ^ k ||| if j = 0 then 0 else ds.getD (j - 1) 0 / 2 ^ k := by
  have hpow : ∀ i, (2 ^ k) ^ i = 2 ^ (k * i) := fun i => (Nat.pow_mul 2 k i).symm
  induction ds generalizing j with
  | nil => simp
  | cons d ds ih =>
    have hd : d / 2 ^ k < 2 ^ k := by
      apply Nat.div_lt_of_lt_mul
      rw [← Nat.pow_add, ← Nat.two_mul]
      exact h d List.mem_cons_self
    have hrest := ih fun e he => h e (List.mem_cons_of_mem _ he)
    cases j with
    | zero => rw [Nat.pow_zero, Nat.div_one, pack_mod, if_pos rfl, Nat.or_zero, List.getD_cons_zero]
    | succ j =>
      rw [Nat.pow_succ', ← Nat.div_div_eq_div_mul, pack_div, hpow, Nat.or_div_two_pow,
        Nat.or_mod_two_pow, ← hpow, hrest j, List.getD_cons_succ, if_neg j.succ_ne_zero,
        Nat.add_sub_cancel]
      cases j with
      | zero =>
        rw [Nat.pow_zero, Nat.div_one, Nat.mod_eq_of_lt hd, if_pos rfl, Nat.or_zero,
          List.getD_cons_zero, Nat.or_comm]
      | succ j =>
        have hle : 2 ^ k ≤ (2 ^ k) ^ (j + 1) := Nat.le_self_pow j.succ_ne_zero _
        rw [Nat.div_eq_of_lt (Nat.lt_of_lt_of_le hd hle), Nat.zero_mod, Nat.zero_or,
          if_neg j.succ_ne_zero, List.getD_cons_succ, Nat.add_sub_cancel]

theorem eq_of_digits {b m : ℕ} (hb : 2 ≤ b) (h : ∀ j, n / b ^ j % b = m / b ^ j % b) : n = m := by
  induction hsum : n + m using Nat.strongRecOn generalizing n m with
  | ind sum ih =>
    have hmod : n % b = m % b := by simpa using h 0
    have hdiv : ∀ j, n / b / b ^ j % b = m / b / b ^ j % b := by
      intro j
      rw [Nat.div_div_eq_div_mul, Nat.div_div_eq_div_mul, ← Nat.pow_succ']
      exact h (j + 1)
    rcases Nat.eq_zero_or_pos sum with hzero | hpos
    · omega
    · have hlt : n / b + m / b < sum := by
        have hn := Nat.div_le_div_left hb (by decide) (a := n)
        have hm := Nat.div_le_div_left hb (by decide) (a := m)
        omega
      rw [← Nat.div_add_mod n b, ← Nat.div_add_mod m b, ih _ hlt hdiv rfl, hmod]

end Packed
