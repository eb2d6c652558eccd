import Lre.Packed
import Lre.Lrc.Users

/-!
# File permissions

* `int2perm`, `perm2int`: a permission from the digits of an integer, and back.
* `LrcFile.exprPermissionHandler`: the expression `permission`.
* **`exprPermissionHandler_iff`**: when `permission == n` is true of the mode with the octal digits
  of `n` only.
* **`filePermCompare_iff`**: when `file_perm_compare` orders two permissions by inclusion.
-/

namespace Lre

open Packed

variable {D : Type}

/-! ## The component -/

/-- The loop of `int2perm`. -/
def int2permLoop (val : ℤ) (i : ℕ) (v : BitVec 32) : BitVec 32 :=
  if val = 0 then v
  else int2permLoop (val.tdiv 10) (i + 1) (v ||| BitVec.ofInt 32 (val.tmod 10) <<< (i * 3))
termination_by val.natAbs
decreasing_by
  rw [Int.natAbs_tdiv]
  exact Nat.div_lt_self (by omega) (by decide)

/-- `int2perm`. -/
def int2perm (val : BitVec 32) : BitVec 32 := int2permLoop val.toInt 0 0

/-- The loop of `perm2int`. -/
def perm2intLoop (val : ℕ) (i v : BitVec 32) : BitVec 32 :=
  if val = 0 then v
  else perm2intLoop (val >>> 3) (i * 10) (v + BitVec.ofNat 32 (val &&& 7) * i)
termination_by val
decreasing_by
  rw [Nat.shiftRight_eq_div_pow]
  exact Nat.div_lt_self (by omega) (by decide)

/-- `perm2int`; `none` when the sign is shifted in for ever. -/
def perm2int (val : BitVec 32) : Option (BitVec 32) :=
  if val.toInt < 0 then none else some (perm2intLoop val.toNat 1 0)

/-- `lre_compare`. -/
def lreCompare (a b : BitVec 64) (op : Sym) (cmp : BitVec 64 → BitVec 64 → BitVec 32) :
    BitVec 32 := lreCompareInt (cmp a b) 0 op

/-- `file_perm_compare`. -/
def filePermCompare (a b : BitVec 64) : BitVec 32 :=
  let fperm := a.setWidth 32
  let bperm := b.setWidth 32
  if fperm = bperm then 0
  else if fperm &&& ~~~bperm ≠ 0 then 1 else -1

/-- `FILE_PERMISSION_MASK`. -/
def filePermissionMask : BitVec 32 := 0xfff

/-- `struct lrc_file`, as far as it is read. -/
structure LrcFile where
  path : Option Word
  permission : BitVec 32
  state : ObjState

/-- `file_execute`, for the mode that `stat` finds. -/
def LrcFile.execute (file : LrcFile) (stMode : Option (BitVec 32)) : LrcFile × BitVec 32 :=
  match file.path with
  | none => ({ file with state := .failed }, -22)
  | some _ =>
    match stMode with
    | some stMode =>
      ({ file with permission := stMode &&& filePermissionMask, state := .success }, 0)
    | none => ({ file with permission := -1, state := .success }, 0)

/-- The text of `expr_permission_handler` for `output`, with the permission when it does not
match. -/
def permissionText (perm : Option (BitVec 32)) : Word :=
  ['\'', 'p', 'e', 'r', 'm', 'i', 's', 's', 'i', 'o', 'n', '\'', ' '] ++
    match perm with
    | none => ['m', 'a', 't', 'c', 'h', 'e', 'd', '.']
    | some perm =>
      ['n', 'o', 't', ' ', 'm', 'a', 't', 'c', 'h', 'e', 'd', '.', ' ', 'p', 'e', 'r', 'm', ':',
        ' ', '\''] ++ sprintfInt perm ++ ['\'']

/-- `expr_permission_handler`: the result and the text that is output; `none` when it does not
return. -/
def LrcFile.exprPermissionHandler (file : LrcFile) (opt : Sym) (lreval : Option (LreValue D)) :
    Option (BitVec 32 × Option Word) :=
  match file.state, lreval with
  | .success, some ⟨.int ival, _⟩ =>
    let val := int2perm ival
    let ret := lreCompare (file.permission.setWidth 64) (val.setWidth 64) opt filePermCompare
    if !vaildLreResults ret.toInt then some (ret, none)
    else if ret ≠ 0 then some (ret, some (permissionText none))
    else (perm2int file.permission).map fun perm => (ret, some (permissionText (some perm)))
  | _, _ => some (lreRetError, none)

/-! ## The purpose -/

/-- The decimal digits of the integer are the octal digits of the mode. -/
def ReadsMode (n : BitVec 32) (m : ℕ) : Prop :=
  0 ≤ n.toInt ∧ Nat.digits 10 n.toNat = Nat.digits 8 m

/-- `permission == n` is true of the mode that `n` reads as, and of no other one. -/
def PermissionVerdict (m : ℕ) (n : BitVec 32) (out : Option (BitVec 32 × Option Word)) : Prop :=
  ∃ ret text, out = some (ret, text) ∧ vaildLreResults ret.toInt = true ∧ (ret = 1 ↔ ReadsMode n m)

/-- The integer has a digit 8 or 9, and the mode has the octal digits that come out when the fourth
bit of each digit is put into the next one. -/
structure Spills (n : BitVec 32) (m : ℕ) : Prop where
  nonneg : 0 ≤ n.toInt
  digit : ∃ d ∈ Nat.digits 10 n.toNat, 8 ≤ d
  octal : ∀ j, m / 8 ^ j % 8 =
    n.toNat / 10 ^ j % 10 % 8 ||| if j = 0 then 0 else n.toNat / 10 ^ (j - 1) % 10 / 8

/-- Every bit of the one permission is in the other. -/
def PermSubset (a b : BitVec 32) : Prop := ∀ i, a.getLsbD i = true → b.getLsbD i = true

/-- `file_perm_compare` is a comparison as `lre_compare` asks for, and orders by inclusion. -/
structure PermOrdered (a b : BitVec 64) : Prop where
  sign : 0 < (filePermCompare a b).toInt ↔ (filePermCompare b a).toInt < 0
  le : lreCompare a b .ltOrEqual filePermCompare = 1 ↔ PermSubset (a.setWidth 32) (b.setWidth 32)
  lt : lreCompare a b .lt filePermCompare = 1 ↔
    PermSubset (a.setWidth 32) (b.setWidth 32) ∧ ¬PermSubset (b.setWidth 32) (a.setWidth 32)
  gt : lreCompare a b .gt filePermCompare = 1 ↔ lreCompare b a .lt filePermCompare = 1
  ge : lreCompare a b .gtOrEqual filePermCompare = 1 ↔ lreCompare b a .ltOrEqual filePermCompare = 1

variable {a b : BitVec 64} {x y n : BitVec 32} {m i : ℕ}

/-! ## Digits of an integer -/

theorem int2permLoop_natCast (n i : ℕ) (v : BitVec 32) : int2permLoop n i v =
    v ||| BitVec.ofNat 32 (pack 3 (Nat.digits 10 n) <<< (i * 3)) := by
  induction n using Nat.strongRecOn generalizing i v with
  | ind n ih =>
    rw [int2permLoop]
    rcases Nat.eq_zero_or_pos n with rfl | hpos
    · simp
    · have hne : ¬(n : ℤ) = 0 := by omega
      have hlt : n / 10 < n := Nat.div_lt_self hpos (by decide)
      have hdiv : (n : ℤ).tdiv 10 = (n / 10 : ℕ) := rfl
      have hmod : (n : ℤ).tmod 10 = (n % 10 : ℕ) := rfl
      rw [if_neg hne, hdiv, hmod, ih _ hlt, Nat.digits_def' (by decide) hpos, pack_cons,
        Nat.shiftLeft_or_distrib, ← Nat.shiftLeft_add, BitVec.ofNat_or, BitVec.or_assoc,
        BitVec.ofInt_natCast]
      congr 2
      · apply BitVec.eq_of_toNat_eq
        simp [Nat.shiftLeft_eq, Nat.mod_mul_mod]
      · congr 2
        omega

/-- The first digit of a negative number sets the sign. -/
theorem msb_firstDigit : ∀ d : Fin 10, ∀ i : Fin 10, d ≠ 0 →
    (BitVec.ofInt 32 (-(d : ℤ)) <<< ((i : ℕ) * 3)).msb = true := by
  decide

theorem msb_int2permLoop {k : ℕ} (hpos : 0 < k) (hlt : k < 10 ^ (10 - i)) (v : BitVec 32) :
    (int2permLoop (-k) i v).msb = true := by
  induction k using Nat.strongRecOn generalizing i v with
  | ind k ih =>
    have hne : ¬(-k : ℤ) = 0 := by omega
    have hdiv : (-k : ℤ).tdiv 10 = -(k / 10 : ℕ) := Int.neg_tdiv k 10
    have hmod : (-k : ℤ).tmod 10 = -(k % 10 : ℕ) := Int.neg_tmod k 10
    have hi : i < 10 := by
      by_contra hge
      rw [Nat.sub_eq_zero_of_le (Nat.not_lt.mp hge)] at hlt
      omega
    rw [int2permLoop, if_neg hne, hdiv, hmod]
    by_cases hten : k < 10
    · have hd := msb_firstDigit ⟨k, hten⟩ ⟨i, hi⟩ (Fin.pos_iff_ne_zero.mp hpos)
      have hzero : (-(0 : ℕ) : ℤ) = 0 := rfl
      rw [Nat.div_eq_of_lt hten, Nat.mod_eq_of_lt hten, int2permLoop, if_pos hzero,
        BitVec.msb_or, hd, Bool.or_true]
    · have hpow : 10 ^ (10 - i) = 10 * 10 ^ (10 - (i + 1)) := by
        rw [← Nat.pow_succ']
        congr 1
        omega
      refine ih (k / 10) ?_ ?_ ?_ _
      · exact Nat.div_lt_self hpos (by decide)
      · omega
      · omega

theorem msb_int2perm_of_neg (hneg : n.toInt < 0) : (int2perm n).msb = true := by
  have hle := BitVec.le_toInt n
  have hval : n.toInt = -(n.toInt.natAbs : ℤ) := by omega
  rw [int2perm, hval]
  exact msb_int2permLoop (by omega) (by omega) 0

theorem int2perm_of_nonneg (hnonneg : 0 ≤ n.toInt) :
    int2perm n = BitVec.ofNat 32 (pack 3 (Nat.digits 10 n.toNat)) := by
  have hval : n.toInt = (n.toNat : ℤ) := by
    rw [BitVec.toInt_eq_toNat_cond] at hnonneg ⊢
    split_ifs at hnonneg ⊢
    · rfl
    · omega
  rw [int2perm, hval, int2permLoop_natCast, Nat.zero_mul, Nat.shiftLeft_zero]
  exact BitVec.zero_or

theorem digit_lt {d : ℕ} (hd : d ∈ Nat.digits 10 n.toNat) : d < 10 :=
  Nat.digits_lt_base (by decide) hd

theorem pack_digits_lt (n : BitVec 32) : pack 3 (Nat.digits 10 n.toNat) < 2 ^ 32 := by
  have hlen : (Nat.digits 10 n.toNat).length ≤ 10 :=
    Nat.digits_length_le_iff (by decide) _ |>.mpr (Nat.lt_trans n.isLt (by decide))
  have hlt := pack_lt (k := 3) (e := 1) fun d (hd : d ∈ Nat.digits 10 n.toNat) =>
    Nat.lt_trans (digit_lt hd) (by decide)
  exact Nat.lt_of_lt_of_le hlt (Nat.pow_le_pow_right (by decide) (by omega))

theorem int2perm_eq_iff (hm : m ≤ 0o7777) : BitVec.ofNat 32 m = int2perm n ↔
    0 ≤ n.toInt ∧ m = pack 3 (Nat.digits 10 n.toNat) := by
  by_cases hnonneg : 0 ≤ n.toInt
  · rw [int2perm_of_nonneg hnonneg, and_iff_right hnonneg]
    constructor
    · intro h
      have hnat := congrArg BitVec.toNat h
      rwa [BitVec.toNat_ofNat, BitVec.toNat_ofNat, Nat.mod_eq_of_lt (by omega),
        Nat.mod_eq_of_lt (pack_digits_lt n)] at hnat
    · rintro rfl
      rfl
  · refine iff_of_false (fun h => ?_) fun h => hnonneg h.1
    have hmsb := msb_int2perm_of_neg (Int.not_le.mp hnonneg)
    rw [← h, BitVec.msb_eq_decide, BitVec.toNat_ofNat, Nat.mod_eq_of_lt (by omega)] at hmsb
    have hle := of_decide_eq_true hmsb
    omega

theorem perm2intLoop_eq (val : ℕ) (i v : BitVec 32) :
    perm2intLoop val i v = v + BitVec.ofNat 32 (Nat.ofDigits 10 (Nat.digits 8 val)) * i := by
  induction val using Nat.strongRecOn generalizing i v with
  | ind val ih =>
    rw [perm2intLoop]
    rcases Nat.eq_zero_or_pos val with rfl | hpos
    · simp
    · have hlt : val / 8 < val := Nat.div_lt_self hpos (by decide)
      have hshift : val >>> 3 = val / 8 := Nat.shiftRight_eq_div_pow val 3
      have hand : val &&& 7 = val % 8 := Nat.and_two_pow_sub_one_eq_mod val 3
      rw [if_neg (Nat.pos_iff_ne_zero.mp hpos), hshift, hand, ih _ hlt,
        Nat.digits_def' (by decide) hpos, Nat.ofDigits_cons, BitVec.ofNat_add, BitVec.ofNat_mul,
        BitVec.add_mul, BitVec.add_assoc, BitVec.mul_comm i 10, ← BitVec.mul_assoc,
        BitVec.mul_comm _ 10]
      rfl

/-- `perm2int` is the way back. -/
theorem readsMode_iff (hm : m ≤ 0o7777) :
    ReadsMode n m ↔ perm2int (BitVec.ofNat 32 m) = some n := by
  have hlen : (Nat.digits 8 m).length ≤ 4 :=
    (Nat.digits_length_le_iff (by decide) m).mpr (Nat.lt_succ_of_le hm)
  have hdigits : ∀ d ∈ Nat.digits 8 m, d < 10 := fun d hd =>
    Nat.lt_trans (Nat.digits_lt_base (by decide) hd) (by decide)
  have hlt : Nat.ofDigits 10 (Nat.digits 8 m) < 10 ^ 4 :=
    Nat.lt_of_lt_of_le (Nat.ofDigits_lt_base_pow_length (by decide) hdigits)
      (Nat.pow_le_pow_right (by decide) hlen)
  have hback : Nat.digits 10 (Nat.ofDigits 10 (Nat.digits 8 m)) = Nat.digits 8 m :=
    Nat.digits_ofDigits 10 (by decide) _ hdigits fun h =>
      Nat.getLast_digit_ne_zero 8 (Nat.digits_ne_nil_iff_ne_zero.mp h)
  have hnat : (BitVec.ofNat 32 m).toNat = m := by
    rw [BitVec.toNat_ofNat, Nat.mod_eq_of_lt (by omega)]
  have hnonneg : ¬(BitVec.ofNat 32 m).toInt < 0 := by
    rw [BitVec.toInt_eq_toNat_of_lt (by omega)]
    omega
  rw [perm2int, if_neg hnonneg, hnat, perm2intLoop_eq, Option.some_inj]
  have hone : ∀ x : BitVec 32, 0 + x * 1 = x := fun x => by simp
  rw [hone]
  constructor
  · rintro ⟨-, heq⟩
    rw [← heq, Nat.ofDigits_digits, BitVec.ofNat_toNat, BitVec.setWidth_eq]
  · rintro rfl
    rw [ReadsMode, BitVec.toInt_eq_toNat_of_lt, BitVec.toNat_ofNat, Nat.mod_eq_of_lt (by omega)]
    · exact ⟨Int.natCast_nonneg _, hback⟩
    · rw [BitVec.toNat_ofNat, Nat.mod_eq_of_lt (by omega)]
      omega

/-- The mode that an integer without a digit 8 or 9 is equal to. -/
theorem readsMode_of_octal (hnonneg : 0 ≤ n.toInt) (hdigits : ∀ d ∈ Nat.digits 10 n.toNat, d < 8) :
    m = pack 3 (Nat.digits 10 n.toNat) ↔ ReadsMode n m := by
  rw [pack_eq_ofDigits hdigits, ReadsMode, and_iff_right hnonneg]
  constructor
  · rintro rfl
    exact (Nat.digits_ofDigits 8 (by decide) _ hdigits fun h =>
      Nat.getLast_digit_ne_zero 10 (Nat.digits_ne_nil_iff_ne_zero.mp h)).symm
  · intro h
    rw [h]
    exact (Nat.ofDigits_digits 8 m).symm

/-- The mode that an integer with a digit 8 or 9 is equal to. -/
theorem spills_iff (hnonneg : 0 ≤ n.toInt) {d : ℕ} (hd : d ∈ Nat.digits 10 n.toNat) (hge : 8 ≤ d) :
    m = pack 3 (Nat.digits 10 n.toNat) ↔ Spills n m := by
  have hdigit := pack_digit (k := 3) fun d (hd : d ∈ Nat.digits 10 n.toNat) =>
    Nat.lt_trans (digit_lt hd) (by decide)
  simp only [Nat.getD_digits n.toNat _ (by decide : 2 ≤ 10)] at hdigit
  constructor
  · rintro rfl
    exact ⟨hnonneg, ⟨d, hd, hge⟩, hdigit⟩
  · intro h
    apply eq_of_digits (b := 8) (by decide)
    intro j
    rw [h.octal j]
    exact (hdigit j).symm

/-! ## The comparison -/

theorem PermSubset.antisymm (h : PermSubset x y) (h' : PermSubset y x) : x = y := by
  apply BitVec.eq_of_getLsbD_eq
  intro i _
  exact Bool.eq_iff_iff.mpr ⟨h i, h' i⟩

theorem and_not_eq_zero_iff : x &&& ~~~y = 0 ↔ PermSubset x y := by
  constructor
  · intro h i hi
    have hbit := congrArg (BitVec.getLsbD · i) h
    have hlt : i < 32 := BitVec.lt_of_getLsbD hi
    simpa [hi, hlt] using hbit
  · intro h
    apply BitVec.eq_of_getLsbD_eq
    intro i hlt
    have hi := h i
    by_cases hx : x.getLsbD i = true
    · simp [hx, hi hx]
    · simp [hx]

theorem filePermCompare_cases :
    a.setWidth 32 = b.setWidth 32 ∧ filePermCompare a b = 0 ∨
      a.setWidth 32 ≠ b.setWidth 32 ∧ PermSubset (a.setWidth 32) (b.setWidth 32) ∧
        filePermCompare a b = -1 ∨
      ¬PermSubset (a.setWidth 32) (b.setWidth 32) ∧ filePermCompare a b = 1 := by
  unfold filePermCompare
  by_cases heq : a.setWidth 32 = b.setWidth 32
  · exact .inl ⟨heq, if_pos heq⟩
  · rw [if_neg heq]
    by_cases hand : a.setWidth 32 &&& ~~~b.setWidth 32 = 0
    · exact .inr (.inl ⟨heq, and_not_eq_zero_iff.mp hand, if_neg (not_not.mpr hand)⟩)
    · exact .inr (.inr ⟨fun h => hand (and_not_eq_zero_iff.mpr h), if_pos hand⟩)

theorem lreCompare_eq_one_iff {op : Sym} {cmp : BitVec 64 → BitVec 64 → BitVec 32} :
    lreCompare a b op cmp = 1 ↔ op.Compares (cmp a b).toInt 0 := lreCompareInt_eq_one_iff

theorem filePermCompare_neg_iff : (filePermCompare a b).toInt < 0 ↔
    PermSubset (a.setWidth 32) (b.setWidth 32) ∧ ¬PermSubset (b.setWidth 32) (a.setWidth 32) := by
  rcases filePermCompare_cases (a := a) (b := b) with ⟨heq, hc⟩ | ⟨hne, hsub, hc⟩ | ⟨hsub, hc⟩
  · rw [hc, heq]
    exact iff_of_false (by decide) fun h => h.2 h.1
  · rw [hc]
    exact iff_of_true (by decide) ⟨hsub, fun h => hne (hsub.antisymm h)⟩
  · rw [hc]
    exact iff_of_false (by decide) fun h => hsub h.1

theorem filePermCompare_pos_iff : 0 < (filePermCompare a b).toInt ↔
    ¬PermSubset (a.setWidth 32) (b.setWidth 32) := by
  rcases filePermCompare_cases (a := a) (b := b) with ⟨heq, hc⟩ | ⟨-, hsub, hc⟩ | ⟨hsub, hc⟩
  · rw [hc, heq]
    exact iff_of_false (by decide) fun h => h fun _ => id
  · rw [hc]
    exact iff_of_false (by decide) fun h => h hsub
  · rw [hc]
    exact iff_of_true (by decide) hsub

/-- **`file_perm_compare` orders two permissions by inclusion exactly when one of them contains the
other.** -/
theorem filePermCompare_iff (a b : BitVec 64) : PermOrdered a b ↔
    PermSubset (a.setWidth 32) (b.setWidth 32) ∨ PermSubset (b.setWidth 32) (a.setWidth 32) := by
  constructor
  · intro h
    by_cases hsub : PermSubset (a.setWidth 32) (b.setWidth 32)
    · exact .inl hsub
    · exact .inr (filePermCompare_neg_iff.mp (h.sign.mp (filePermCompare_pos_iff.mpr hsub))).1
  · intro h
    have hsign : 0 < (filePermCompare a b).toInt ↔ (filePermCompare b a).toInt < 0 := by
      rw [filePermCompare_pos_iff, filePermCompare_neg_iff]
      exact ⟨fun hsub => ⟨h.resolve_left hsub, hsub⟩, fun hsub => hsub.2⟩
    have hle : ∀ a b, lreCompare a b .ltOrEqual filePermCompare = 1 ↔
        PermSubset (a.setWidth 32) (b.setWidth 32) := by
      intro a b
      rw [lreCompare_eq_one_iff, ← not_iff_not, ← filePermCompare_pos_iff]
      exact Int.not_le
    refine ⟨hsign, hle a b, ?_, ?_, ?_⟩
    · rw [lreCompare_eq_one_iff]
      exact filePermCompare_neg_iff
    · rw [lreCompare_eq_one_iff, lreCompare_eq_one_iff]
      exact hsign
    · rw [lreCompare_eq_one_iff, hle b a]
      have hge := not_iff_not.mpr (filePermCompare_neg_iff (a := a) (b := b))
      rw [not_and_not_right] at hge
      exact (Int.not_lt.symm.trans hge).trans ⟨fun hab => h.elim hab id, fun hba _ => hba⟩

/-- `--x` and `-w-`: both are above the other one. -/
theorem filePermCompare_incomparable : ¬PermOrdered 1 2 := fun h =>
  absurd (h.sign.mp (by decide)) (by decide)

/-! ## The verdict -/

/-- What `stat` finds has only the bits of a mode. -/
theorem LrcFile.execute_mode (path : Word) (permission stMode : BitVec 32) (state : ObjState) :
    ∃ m ≤ 0o7777, LrcFile.execute ⟨some path, permission, state⟩ (some stMode) =
      (⟨some path, BitVec.ofNat 32 m, .success⟩, 0) := by
  refine ⟨(stMode &&& filePermissionMask).toNat, ?_, ?_⟩
  · rw [BitVec.toNat_and]
    exact Nat.and_le_right
  · rw [BitVec.ofNat_toNat, BitVec.setWidth_eq]
    rfl

theorem filePermCompare_eq_zero_iff :
    (filePermCompare a b).toInt = 0 ↔ a.setWidth 32 = b.setWidth 32 := by
  rcases filePermCompare_cases (a := a) (b := b) with ⟨heq, hc⟩ | ⟨hne, -, hc⟩ | ⟨hsub, hc⟩
  · rw [hc]
    exact iff_of_true rfl heq
  · rw [hc]
    exact iff_of_false (by decide) hne
  · rw [hc]
    exact iff_of_false (by decide) fun h => hsub (h ▸ fun _ => id)

theorem exprPermissionHandler_mode (hm : m ≤ 0o7777) (path : Option Word) (ptr : Option ℕ) :
    ∃ text, LrcFile.exprPermissionHandler (D := D) ⟨path, BitVec.ofNat 32 m, .success⟩ .equal
      (some ⟨.int n, ptr⟩) = some (if BitVec.ofNat 32 m = int2perm n then 1 else 0, text) := by
  have hret : lreCompare ((BitVec.ofNat 32 m).setWidth 64) ((int2perm n).setWidth 64) .equal
      filePermCompare = if BitVec.ofNat 32 m = int2perm n then 1 else 0 := by
    have hback : ∀ x : BitVec 32, (x.setWidth 64).setWidth 32 = x := fun x => by simp
    have hzero : BitVec.toInt (0 : BitVec 32) = 0 := rfl
    simp only [lreCompare, lreCompareInt, hzero, filePermCompare_eq_zero_iff, hback]
  have hperm : ¬(BitVec.ofNat 32 m).toInt < 0 := by
    rw [BitVec.toInt_eq_toNat_of_lt] <;> rw [BitVec.toNat_ofNat, Nat.mod_eq_of_lt (by omega)] <;>
      omega
  simp only [LrcFile.exprPermissionHandler, hret, perm2int, if_neg hperm]
  split_ifs <;> exact ⟨_, rfl⟩

theorem permissionVerdict_iff (hm : m ≤ 0o7777) (path : Option Word) (ptr : Option ℕ) :
    PermissionVerdict m n (LrcFile.exprPermissionHandler (D := D)
        ⟨path, BitVec.ofNat 32 m, .success⟩ .equal (some ⟨.int n, ptr⟩)) ↔
      (BitVec.ofNat 32 m = int2perm n ↔ ReadsMode n m) := by
  obtain ⟨text, hout⟩ := exprPermissionHandler_mode (D := D) (n := n) hm path ptr
  rw [hout, PermissionVerdict]
  constructor
  · rintro ⟨ret, text, heq, -, hiff⟩
    cases heq
    rwa [answer_eq_one_iff] at hiff
  · intro hiff
    exact ⟨_, _, rfl, vaildLreResults_answer _, (answer_eq_one_iff _).trans hiff⟩

/-- **`permission == n` is true of the mode with the octal digits of `n` only, exactly when `n` has
no digit 8 or 9, or the mode is not the one that they spill into.** -/
theorem exprPermissionHandler_iff (hm : m ≤ 0o7777) (n : BitVec 32) (path : Option Word)
    (ptr : Option ℕ) :
    PermissionVerdict m n (LrcFile.exprPermissionHandler (D := D)
        ⟨path, BitVec.ofNat 32 m, .success⟩ .equal (some ⟨.int n, ptr⟩)) ↔ ¬Spills n m := by
  rw [permissionVerdict_iff hm, int2perm_eq_iff hm]
  by_cases hnonneg : 0 ≤ n.toInt
  · rw [and_iff_right hnonneg]
    by_cases hdigits : ∀ d ∈ Nat.digits 10 n.toNat, d < 8
    · refine iff_of_true (readsMode_of_octal hnonneg hdigits) fun h => ?_
      obtain ⟨d, hd, hge⟩ := h.digit
      exact Nat.not_lt.mpr hge (hdigits d hd)
    · push Not at hdigits
      obtain ⟨d, hd, hge⟩ := hdigits
      have hno : ¬ReadsMode n m := fun h =>
        Nat.not_lt.mpr hge (Nat.digits_lt_base (by decide) (h.2 ▸ hd))
      rw [spills_iff hnonneg hd hge, iff_false_right hno]
  · exact iff_of_true (iff_of_false (fun h => hnonneg h.1) fun h => hnonneg h.1) fun h =>
      hnonneg h.nonneg

/-- `permission == 644`. -/
theorem exprPermissionHandler_plain :
    PermissionVerdict 0o644 644 (LrcFile.exprPermissionHandler (D := Unit)
      ⟨none, BitVec.ofNat 32 0o644, .success⟩ .equal (some ⟨.int 644, none⟩)) :=
  (exprPermissionHandler_iff (by decide) 644 none none).mpr fun h => by
    obtain ⟨d, hd, hge⟩ := h.digit
    have hall : ∀ d ∈ Nat.digits 10 644, d < 8 := by norm_num
    exact Nat.not_lt.mpr hge (hall d hd)

/-- The mode 10 is equal to 8 as well as to 10. -/
theorem exprPermissionHandler_eight :
    ¬PermissionVerdict 0o10 8 (LrcFile.exprPermissionHandler (D := Unit)
      ⟨none, BitVec.ofNat 32 0o10, .success⟩ .equal (some ⟨.int 8, none⟩)) := by
  have hspill : BitVec.ofNat 32 0o10 = int2perm 8 :=
    (int2perm_eq_iff (by decide)).mpr ⟨by decide, show 8 = pack 3 (Nat.digits 10 8) by norm_num⟩
  have hreads : ¬ReadsMode 8 0o10 := by
    rintro ⟨-, hdigits : Nat.digits 10 8 = Nat.digits 8 8⟩
    norm_num at hdigits
  exact fun h => hreads ((permissionVerdict_iff (by decide) none none).mp h |>.mp hspill)

end Lre
