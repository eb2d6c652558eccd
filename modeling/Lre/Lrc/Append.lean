import Mathlib.Data.List.Induction
import Lre.Exec.Details
import Lre.Lrc.Multipath

/-!
# Appending to a buffer

* `appendString`: the idiom `len += xsnprintf(buf + len, N - len, "%s", s)`.
* `Appended`: what its users rely on after a step.
* **`appendStrings_iff`**: it is true after each step exactly when the strings fit into the buffer
  together.
-/

namespace Lre

open CString

/-- `len += xsnprintf(buf + len, N - len, "%s", s)`, for a buffer of `N` bytes and the length so
far. -/
def appendString (out : Buffer × ℕ) (s : Word) : Buffer × ℕ :=
  let (buf, len) := out
  let (text, n) := xsnprintf (buf.size - len) s
  -- without room `vsnprintf` does not even write its terminator
  (if buf.size - len = 0 then buf else buf.putString len text, len + n)

/-- The strings appended one after the other, from `len = 0` on. -/
def appendStrings (buf : Buffer) (strs : List Word) : Buffer × ℕ :=
  strs.foldl appendString (buf, 0)

/-- The buffer holds as much of the text as there is room for, and `len` is where it ends. -/
structure Appended (text : Word) (out : Buffer × ℕ) : Prop where
  len_le : out.2 ≤ out.1.size - 1
  terminator : out.1.mem out.2 = nul
  holds : HoldsAt out.1.mem 0 (text.take (out.1.size - 1))
  len_eq : out.2 = (text.take (out.1.size - 1)).length

/-! ## One step -/

/-- What a buffer of `size` bytes holds of the text so far, which is nothing at first. -/
structure Filled (size : ℕ) (text : Word) (out : Buffer × ℕ) : Prop where
  size_eq : out.1.size = size
  len_eq : out.2 = min text.length size
  mem : text.length < size → ∀ i (h : i < text.length), out.1.mem i = text[i]
  holds : size ≤ text.length → HoldsAt out.1.mem 0 (text.take (size - 1))

variable {size : ℕ} {text s : Word} {out : Buffer × ℕ} {buf : Buffer} {strs : List Word}

theorem Filled.holds_append (h : Filled size text out) (htext : nul ∉ text) (hs : nul ∉ s) :
    HoldsAt (appendString out s).1.mem 0 ((text ++ s).take (size - 1)) := by
  obtain ⟨b, len⟩ := out
  obtain ⟨hsize, hlen, hmem, hholds⟩ := h
  dsimp only at hsize hlen hmem hholds
  subst hsize
  by_cases hroom : text.length < b.size
  · rw [Nat.min_eq_left (Nat.le_of_lt hroom)] at hlen
    subst hlen
    have hpos : b.size - text.length ≠ 0 := by omega
    have hcut : (text ++ s).take (b.size - 1) = text ++ s.take (b.size - text.length - 1) := by
      rw [List.take_append, List.take_of_length_le (by omega : text.length ≤ b.size - 1),
        Nat.sub_right_comm]
    have hput : (appendString (b, text.length) s).1 =
        b.putString text.length (s.take (b.size - text.length - 1)) := if_neg hpos
    rw [hcut, hput]
    refine holdsAt_append.mpr ⟨⟨htext, fun i hi => ?_⟩, ?_⟩
    · rw [Nat.zero_add, Buffer.putString_mem_of_lt hi]
      exact hmem hroom i hi
    · rw [Nat.zero_add]
      exact Buffer.holdsAt_putString fun hin => hs (List.mem_of_mem_take hin)
  · have hfull : b.size ≤ text.length := Nat.not_lt.mp hroom
    have hnone : b.size - len = 0 := by omega
    have hkeep : (appendString (b, len) s).1 = b := if_pos hnone
    rw [hkeep, List.take_append_of_le_length (by omega)]
    exact hholds hfull

theorem appendString_size (out : Buffer × ℕ) (s : Word) :
    (appendString out s).1.size = out.1.size := by
  show (if _ then _ else _ : Buffer).size = _
  split_ifs
  · rfl
  · exact Buffer.putString_size

theorem Filled.append (h : Filled size text out) (htext : nul ∉ text) (hs : nul ∉ s) :
    Filled size (text ++ s) (appendString out s) := by
  have hholds := h.holds_append htext hs
  refine ⟨(appendString_size out s).trans h.size_eq, ?_, fun hroom i hi => ?_, fun _ => hholds⟩
  · show out.2 + (xsnprintf (out.1.size - out.2) s).2 = _
    rw [OutText.xsnprintf_eq, h.size_eq, h.len_eq, List.length_append]
    omega
  · rw [List.take_of_length_le (by omega)] at hholds
    have hbyte := (holdsAt_iff.mp hholds).2.1 i hi
    rwa [Nat.zero_add] at hbyte

/-! ## All steps -/

theorem nul_notMem_flatten (h : ∀ s ∈ strs, nul ∉ s) : nul ∉ strs.flatten := by
  intro hin
  obtain ⟨s, hs, hnul⟩ := List.mem_flatten.mp hin
  exact h s hs hnul

theorem appendStrings_concat (buf : Buffer) (strs : List Word) (s : Word) :
    appendStrings buf (strs ++ [s]) = appendString (appendStrings buf strs) s :=
  List.foldl_concat _ _ _ _

theorem appendStrings_filled (hsize : 0 < buf.size) (hstrs : ∀ s ∈ strs, nul ∉ s) :
    Filled buf.size strs.flatten (appendStrings buf strs) ∧
      (strs ≠ [] →
        HoldsAt (appendStrings buf strs).1.mem 0 (strs.flatten.take (buf.size - 1))) := by
  induction strs using List.reverseRecOn with
  | nil =>
    refine ⟨⟨rfl, (Nat.zero_min _).symm, nofun, fun h => ?_⟩, fun h => absurd rfl h⟩
    exact absurd h (Nat.not_le.mpr hsize)
  | append_singleton strs s ih =>
    have hinit : ∀ s ∈ strs, nul ∉ s := fun s hs => hstrs s (List.mem_append_left _ hs)
    have hlast : nul ∉ s := hstrs s (List.mem_append_right _ List.mem_cons_self)
    have htext := nul_notMem_flatten hinit
    obtain ⟨hfilled, -⟩ := ih hinit
    rw [appendStrings_concat, List.flatten_concat]
    exact ⟨hfilled.append htext hlast, fun _ => hfilled.holds_append htext hlast⟩

/-- After each step the buffer holds the text appended so far. -/
def AppendedThroughout (buf : Buffer) (strs : List Word) : Prop :=
  ∀ made, made <+: strs → made ≠ [] → Appended made.flatten (appendStrings buf made)

/-- A step leaves what its users rely on exactly when the text is shorter than the buffer. -/
theorem appended_iff (hsize : 0 < buf.size) (hstrs : ∀ s ∈ strs, nul ∉ s) (hne : strs ≠ []) :
    Appended strs.flatten (appendStrings buf strs) ↔ strs.flatten.length < buf.size := by
  obtain ⟨hfilled, hholds⟩ := appendStrings_filled hsize hstrs
  constructor
  · intro h
    have hle := h.len_le
    rw [hfilled.size_eq, hfilled.len_eq] at hle
    omega
  · intro hlt
    have hcut : strs.flatten.take (buf.size - 1) = strs.flatten :=
      List.take_of_length_le (by omega)
    have hlen : (appendStrings buf strs).2 = strs.flatten.length := by
      rw [hfilled.len_eq, Nat.min_eq_left (Nat.le_of_lt hlt)]
    have hend := (holdsAt_iff.mp (hcut ▸ hholds hne)).2.2
    rw [Nat.zero_add] at hend
    refine ⟨?_, ?_, ?_, ?_⟩
    · rw [hlen, hfilled.size_eq]
      omega
    · rw [hlen]
      exact hend
    · rw [hfilled.size_eq]
      exact hholds hne
    · rw [hfilled.size_eq, hcut, hlen]

/-- **After each step the buffer holds the text, with its terminator at `len` inside the buffer,
exactly when all strings together are shorter than the buffer.** -/
theorem appendStrings_iff (hsize : 1 ≤ buf.size) (hstrs : ∀ s ∈ strs, nul ∉ s) :
    AppendedThroughout buf strs ↔ strs.flatten.length < buf.size := by
  constructor
  · intro h
    by_cases hne : strs = []
    · subst hne
      exact hsize
    · exact (appended_iff hsize hstrs hne).mp (h strs List.prefix_rfl hne)
  · rintro hlt made ⟨rest, rfl⟩ hne
    rw [List.flatten_append, List.length_append] at hlt
    refine (appended_iff hsize (fun s hs => hstrs s (List.mem_append_left _ hs)) hne).mpr ?_
    omega

/-- Three bytes in a buffer of four that nothing was written to. -/
theorem appendStrings_fits : AppendedThroughout ⟨fun _ => 'x', 4, 4, 0⟩ [['a'], ['b', 'c']] :=
  (appendStrings_iff (by decide) (by decide)).mpr (by decide)

/-- The fourth byte takes the place of the terminator, and `len` is the size of the buffer. -/
theorem appendStrings_full :
    ¬AppendedThroughout ⟨fun _ => 'x', 4, 4, 0⟩ [['a', 'b'], ['c', 'd']] := fun h =>
  absurd (h _ List.prefix_rfl (by decide)).len_le (by decide)

end Lre
