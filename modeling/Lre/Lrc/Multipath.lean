import Lre.Interp.Buffer
import Lre.Separated

/-!
# Lists of paths

* `OutText`: a result buffer that is filled with `xsnprintf`, one entry after the other.
* **`finish_addPaths`**: what is returned is the list of the entries, cut to the buffer.
-/

namespace Lre

open Separated

/-- `PATH_MAX`. -/
def pathMax : ℕ := 4096

/-- `PATH_ARR_MAX`. -/
def pathArrMax : ℕ := pathMax * 10

/-- `MULTIPATH_SPLIT_CH`. -/
def multipathSplitCh : Char := ';'

/-- A zeroed buffer that is filled from its front: the C string in it, and the length that the code
counts. -/
structure OutText where
  text : Word
  len : ℕ
  deriving DecidableEq

namespace OutText

/-- A buffer of `xzalloc`. -/
def empty : OutText := ⟨[], 0⟩

/-- `len += xsnprintf(buf + len, max - len, ...)`, for the formatted text `s`. -/
def write (max : ℕ) (out : OutText) (s : Word) : OutText :=
  let (text, n) := xsnprintf (max - out.len) s
  ⟨out.text.take out.len ++ text, out.len + n⟩

/-- The entry with the separator behind it. -/
def addPath (max : ℕ) (out : OutText) (path : Word) : OutText :=
  out.write max (path ++ [multipathSplitCh])

/-- `buf[len - 1] = '\0'`; `none` is the store in front of the buffer. -/
def finish (out : OutText) : Option Word :=
  if out.len = 0 then none else some (out.text.take (out.len - 1))

/-- The buffer into which the text was written. -/
def ofText (max : ℕ) (text : Word) : OutText := ⟨text.take (max - 1), min text.length max⟩

variable {max : ℕ} {text : Word}

theorem xsnprintf_eq (size : ℕ) (s : Word) :
    xsnprintf size s = (s.take (size - 1), min s.length size) := by
  rw [xsnprintf]
  congr 1
  split_ifs <;> omega

theorem write_ofText (s : Word) : (ofText max text).write max s = ofText max (text ++ s) := by
  simp only [write, xsnprintf_eq, ofText, OutText.mk.injEq, List.length_append]
  refine ⟨?_, by omega⟩
  by_cases hlt : text.length < max
  · rw [Nat.min_eq_left (Nat.le_of_lt hlt), List.take_take, List.take_append,
      List.take_of_length_le (by omega), List.take_of_length_le (by omega : text.length ≤ max - 1),
      Nat.sub_right_comm]
  · rw [Nat.min_eq_right (by omega), Nat.sub_self, List.take_take, Nat.zero_sub, List.take_zero,
      List.append_nil, Nat.min_eq_right (by omega : max - 1 ≤ max), List.take_append,
      Nat.sub_eq_zero_of_le (by omega : max - 1 ≤ text.length), List.take_zero, List.append_nil]

theorem foldl_write (parts : List Word) :
    parts.foldl (write max) (ofText max text) = ofText max (text ++ parts.flatten) := by
  induction parts generalizing text with
  | nil => rw [List.foldl_nil, List.flatten_nil, List.append_nil]
  | cons part parts ih =>
    rw [List.foldl_cons, write_ofText, ih, List.flatten_cons, List.append_assoc]

theorem foldl_addPath (paths : List Word) :
    paths.foldl (addPath max) (ofText max text) =
      ofText max (text ++ terminated multipathSplitCh paths) := by
  induction paths generalizing text with
  | nil => rw [List.foldl_nil, terminated_nil, List.append_nil]
  | cons path paths ih =>
    rw [List.foldl_cons, addPath, write_ofText, ih, terminated_cons, List.append_assoc]

theorem empty_eq_ofText (max : ℕ) : empty = ofText max [] := by
  rw [empty, ofText, List.take_nil, List.length_nil, Nat.zero_min]

theorem finish_ofText (hmax : 0 < max) (hne : text ≠ []) :
    (ofText max text).finish = some (text.dropLast.take (max - 1)) := by
  have hpos := List.length_pos_of_ne_nil hne
  rw [finish, if_neg]
  · rw [ofText, List.take_take, List.dropLast_eq_take, List.take_take]
    congr 2
    show min (min text.length max - 1) (max - 1) = min (max - 1) (text.length - 1)
    omega
  · show min text.length max ≠ 0
    omega

/-- **The entries joined, as far as the buffer holds them.** -/
theorem finish_addPaths (hmax : 0 < max) (paths : List Word) :
    (paths.foldl (addPath max) empty).finish =
      if paths = [] then none
      else some (([multipathSplitCh].intercalate paths).take (max - 1)) := by
  rw [empty_eq_ofText max, foldl_addPath, List.nil_append]
  split_ifs with hnil
  · subst hnil
    rw [terminated_nil, ← empty_eq_ofText max]
    rfl
  · rw [finish_ofText hmax (terminated_eq_nil_iff.not.mpr hnil), dropLast_terminated]

end OutText

theorem take_pred_eq_iff {max : ℕ} {text : Word} (hmax : 0 < max) :
    text.take (max - 1) = text ↔ text.length < max := by
  constructor
  · intro h
    have hlen := congrArg List.length h
    rw [List.length_take] at hlen
    omega
  · intro h
    exact List.take_of_length_le (by omega)

end Lre
