import Mathlib.Data.List.Basic

/-!
# C strings in memory

A memory is a total function from offsets to bytes; bytes are characters.

* `HoldsAt mem off s`: the C string `s` with its terminator lies at `off`
  (`holdsAt_iff`, `holdsAt_append`, `HoldsAt.unique`, `HoldsAt.congr`).
* `memset`, `strncpy`, `store`: the writes of the C library.
* `read`: the C string at an offset, when its terminator is near enough (`read_of_holdsAt`,
  `read_congr`).
-/

namespace CString

/-- The terminator. -/
def nul : Char := Char.ofNat 0

abbrev Memory := ℕ → Char

/-- The C string `s` with its terminator lies at `off`. -/
def HoldsAt (mem : Memory) : ℕ → List Char → Prop
  | off, [] => mem off = nul
  | off, c :: s => mem off = c ∧ c ≠ nul ∧ HoldsAt mem (off + 1) s

/-- The first `n` bytes set to `c`. -/
def memset (mem : Memory) (c : Char) (n : ℕ) : Memory := fun i => if i < n then c else mem i

/-- `strncpy(mem, s, n)`: the first `n` bytes of `s`, filled up with terminators. -/
def strncpy (mem : Memory) (s : List Char) (n : ℕ) : Memory := fun i =>
  if i < n then s.getD i nul else mem i

/-- One byte written. -/
def store (mem : Memory) (off : ℕ) (c : Char) : Memory := fun i => if i = off then c else mem i

/-- The C string at `off`, when it ends within `n` bytes. -/
def read (mem : Memory) : ℕ → ℕ → Option (List Char)
  | 0, _ => none
  | n + 1, off => if mem off = nul then some [] else (read mem n (off + 1)).map (mem off :: ·)

variable {mem mem' : Memory} {off n : ℕ} {c : Char} {s t : List Char}

theorem memset_of_lt (h : off < n) : memset mem c n off = c := if_pos h

theorem store_self : store mem off c off = c := if_pos rfl

theorem store_of_ne {i : ℕ} (h : i ≠ off) : store mem off c i = mem i := if_neg h

theorem holdsAt_iff : HoldsAt mem off s ↔
    nul ∉ s ∧ (∀ i (h : i < s.length), mem (off + i) = s[i]) ∧ mem (off + s.length) = nul := by
  induction s generalizing off with
  | nil => simp [HoldsAt]
  | cons c s ih =>
    rw [HoldsAt, ih, List.mem_cons, not_or]
    constructor
    · rintro ⟨h0, hc, hs, hi, hn⟩
      refine ⟨⟨Ne.symm hc, hs⟩, fun i hlt => ?_, ?_⟩
      · cases i with
        | zero => exact h0
        | succ i =>
          have := hi i (Nat.lt_of_succ_lt_succ hlt)
          rwa [Nat.add_right_comm] at this
      · rw [← hn, List.length_cons, Nat.add_right_comm, Nat.add_assoc]
    · rintro ⟨⟨hc, hs⟩, hi, hn⟩
      refine ⟨hi 0 (Nat.succ_pos _), Ne.symm hc, hs, fun i hlt => ?_, ?_⟩
      · rw [Nat.add_right_comm]
        exact hi (i + 1) (Nat.succ_lt_succ hlt)
      · rw [← hn, List.length_cons, Nat.add_right_comm, Nat.add_assoc]

theorem HoldsAt.unique (hs : HoldsAt mem off s) (ht : HoldsAt mem off t) : s = t := by
  induction s generalizing off t with
  | nil =>
    cases t with
    | nil => rfl
    | cons d t => exact absurd (ht.1.symm.trans hs) ht.2.1
  | cons c s ih =>
    cases t with
    | nil => exact absurd (hs.1.symm.trans ht) hs.2.1
    | cons d t => rw [hs.1.symm.trans ht.1, ih hs.2.2 ht.2.2]

theorem holdsAt_append : HoldsAt mem off (s ++ t) ↔
    (nul ∉ s ∧ ∀ i (h : i < s.length), mem (off + i) = s[i]) ∧ HoldsAt mem (off + s.length) t := by
  induction s generalizing off with
  | nil => simp
  | cons c s ih =>
    have hend : off + (c :: s).length = off + 1 + s.length := Nat.add_right_comm off s.length 1
    rw [List.cons_append, HoldsAt, ih, List.mem_cons, not_or, hend]
    constructor
    · rintro ⟨h0, hc, ⟨hs, hi⟩, ht⟩
      refine ⟨⟨⟨Ne.symm hc, hs⟩, fun i hlt => ?_⟩, ht⟩
      cases i with
      | zero => exact h0
      | succ i =>
        have := hi i (Nat.lt_of_succ_lt_succ hlt)
        rwa [Nat.add_right_comm] at this
    · rintro ⟨⟨⟨hc, hs⟩, hi⟩, ht⟩
      refine ⟨hi 0 (Nat.succ_pos _), Ne.symm hc, ⟨hs, fun i hlt => ?_⟩, ht⟩
      rw [Nat.add_right_comm]
      exact hi (i + 1) (Nat.succ_lt_succ hlt)

theorem HoldsAt.congr (hs : HoldsAt mem off s)
    (h : ∀ i, off ≤ i → i ≤ off + s.length → mem' i = mem i) : HoldsAt mem' off s := by
  induction s generalizing off with
  | nil => exact (h off (Nat.le_refl _) (Nat.le_refl _)).trans hs
  | cons c s ih =>
    rw [List.length_cons] at h
    exact ⟨(h off (Nat.le_refl _) (Nat.le_add_right _ _)).trans hs.1, hs.2.1,
      ih hs.2.2 fun i h1 h2 => h i (by omega) (by omega)⟩

/-- A copy of all bytes of `s` is the C string `s` when a terminator follows it. -/
theorem holdsAt_strncpy_length (hs : nul ∉ s) :
    HoldsAt (strncpy mem s s.length) 0 s ↔ mem s.length = nul := by
  have hcopy : ∀ i (h : i < s.length), strncpy mem s s.length (0 + i) = s[i] := fun i h => by
    rw [strncpy, Nat.zero_add, if_pos h, List.getD_eq_getElem?_getD, List.getElem?_eq_getElem h,
      Option.getD_some]
  have hend : strncpy mem s s.length (0 + s.length) = mem s.length := by
    rw [strncpy, Nat.zero_add, if_neg (Nat.lt_irrefl _)]
  rw [holdsAt_iff, hend]
  exact ⟨fun h => h.2.2, fun h => ⟨hs, hcopy, h⟩⟩

theorem read_of_holdsAt (hs : HoldsAt mem off s) (hn : s.length < n) :
    read mem n off = some s := by
  induction s generalizing off n with
  | nil =>
    cases n with
    | zero => omega
    | succ n => exact if_pos hs
  | cons c s ih =>
    cases n with
    | zero => omega
    | succ n =>
      obtain ⟨hc, hne, hs⟩ := hs
      rw [List.length_cons] at hn
      rw [read, if_neg (by rw [hc]; exact hne), ih hs (by omega), hc]
      rfl

theorem read_congr (h : ∀ i, off ≤ i → i < off + n → mem' i = mem i) :
    read mem' n off = read mem n off := by
  induction n generalizing off with
  | zero => rfl
  | succ n ih =>
    rw [read, read, h off (Nat.le_refl _) (by omega),
      ih fun i h1 h2 => h i (by omega) (by omega)]

end CString
