import Mathlib.Data.List.Basic

/-!
# Arrays with a count

* `Arr`: an array that is filled from its front, with the number of its entries; `Arr.Holds`: its
  entries are those of a list.
* `fill`: the loop that stores the elements that pass a test (`fill_of_le`, `fill_of_lt`).
* `Arr.scan`: a loop over the entries (`lt_of_mem_scan`, `Arr.Holds.scan_out`).
-/

namespace Counted

variable {α σ : Type}

/-- An array with the number of its entries; `none` is a place where nothing was stored. -/
structure Arr (α : Type) where
  entries : ℕ → Option α
  count : ℕ

namespace Arr

/-- `entries[count++] = a`. -/
def push (arr : Arr α) (a : α) : Arr α :=
  ⟨Function.update arr.entries arr.count (some a), arr.count + 1⟩

/-- The entries are those of the list. -/
structure Holds (arr : Arr α) (xs : List α) : Prop where
  count : arr.count = xs.length
  entries : ∀ i (h : i < xs.length), arr.entries i = some xs[i]

end Arr

/-- The indices that a loop stores at, and the array that it leaves; `none` is the store behind the
array. -/
structure Filling (α : Type) where
  stores : List ℕ
  arr : Option (Arr α)

/-- The loop that stores the elements that pass the test, in an array with room for `max`. -/
def fill (max : ℕ) (test : α → Bool) : List α → Arr α → Filling α
  | [], arr => ⟨[], some arr⟩
  | a :: rest, arr =>
    if test a then
      if arr.count < max then
        let run := fill max test rest (arr.push a)
        ⟨arr.count :: run.stores, run.arr⟩
      else ⟨[arr.count], none⟩
    else fill max test rest arr

/-- The indices that a loop reads, and its result; `none` when it reads a place where nothing was
stored, or the body fails. -/
structure Reading (σ : Type) where
  reads : List ℕ
  out : Option σ

/-- `k` rounds of a loop over the entries, from `i` on; the body tells whether the loop is left. -/
def Arr.scanFrom (body : σ → α → Option (σ × Bool)) (arr : Arr α) : ℕ → ℕ → σ → Reading σ
  | 0, _, s => ⟨[], some s⟩
  | k + 1, i, s =>
    match (arr.entries i).bind (body s) with
    | none => ⟨[i], none⟩
    | some (s, stop) =>
      if stop then ⟨[i], some s⟩
      else
        let run := arr.scanFrom body k (i + 1) s
        ⟨i :: run.reads, run.out⟩

/-- The loop over all entries. -/
def Arr.scan (body : σ → α → Option (σ × Bool)) (arr : Arr α) (s : σ) : Reading σ :=
  arr.scanFrom body arr.count 0 s

/-- The same loop over a list. -/
def scanList (body : σ → α → Option (σ × Bool)) : σ → List α → Option σ
  | s, [] => some s
  | s, a :: rest => (body s a).bind fun r => if r.2 then some r.1 else scanList body r.1 rest

variable {arr arr' : Arr α} {xs l : List α} {a : α} {max k i j : ℕ} {test : α → Bool} {s : σ}
  {body : σ → α → Option (σ × Bool)}

/-! ## Storing -/

theorem Arr.holds_nil (hcount : arr.count = 0) : arr.Holds [] :=
  ⟨hcount, fun _ h => absurd h (Nat.not_lt_zero _)⟩

theorem Arr.Holds.push (h : arr.Holds xs) (a : α) : (arr.push a).Holds (xs ++ [a]) := by
  refine ⟨?_, fun i hi => ?_⟩
  · rw [List.length_append, ← h.count]
    rfl
  · show Function.update arr.entries arr.count (some a) i = _
    rw [h.count]
    by_cases hlast : i = xs.length
    · subst hlast
      rw [Function.update_self, List.getElem_concat_length rfl]
    · have hlt : i < xs.length := by
        rw [List.length_append, List.length_singleton] at hi
        omega
      rw [Function.update_of_ne hlast, h.entries i hlt, List.getElem_append_left hlt]

/-- With room for all that pass, they are stored one behind the other. -/
theorem fill_of_le (h : arr.Holds xs) (hle : (xs ++ l.filter test).length ≤ max) :
    ∃ arr', fill max test l arr = ⟨List.range' xs.length (l.filter test).length, some arr'⟩ ∧
      arr'.Holds (xs ++ l.filter test) := by
  induction l generalizing arr xs with
  | nil => exact ⟨arr, rfl, (List.append_nil xs).symm ▸ h⟩
  | cons a l ih =>
    rw [fill]
    by_cases ha : test a = true
    · rw [List.filter_cons_of_pos ha, List.append_cons] at hle
      obtain ⟨arr', hfill, harr'⟩ := ih (h.push a) hle
      have hlt : arr.count < max := by
        rw [List.length_append, List.length_append, List.length_singleton] at hle
        rw [h.count]
        omega
      rw [List.length_append, List.length_singleton] at hfill
      rw [if_pos ha, if_pos hlt, hfill, List.filter_cons_of_pos ha, h.count, List.length_cons,
        List.range'_succ]
      exact ⟨arr', rfl, List.append_cons xs a _ ▸ harr'⟩
    · rw [if_neg ha, List.filter_cons_of_neg ha]
      rw [List.filter_cons_of_neg ha] at hle
      exact ih h hle

/-- Without, the loop comes to the end of the array and stores behind it. -/
theorem fill_of_lt (hle : arr.count ≤ max) (hlt : max < arr.count + (l.filter test).length) :
    (fill max test l arr).arr = none ∧ max ∈ (fill max test l arr).stores := by
  induction l generalizing arr with
  | nil => exact absurd hlt (Nat.not_lt.mpr hle)
  | cons a l ih =>
    rw [fill]
    by_cases ha : test a = true
    · rw [List.filter_cons_of_pos ha, List.length_cons] at hlt
      rw [if_pos ha]
      by_cases hroom : arr.count < max
      · rw [if_pos hroom]
        have hlt' : max < (arr.push a).count + (l.filter test).length := by
          show max < arr.count + 1 + _
          omega
        obtain ⟨hnone, hmem⟩ := ih (show (arr.push a).count ≤ max from hroom) hlt'
        exact ⟨hnone, List.mem_cons_of_mem _ hmem⟩
      · rw [if_neg hroom, Nat.le_antisymm hle (Nat.not_lt.mp hroom)]
        exact ⟨rfl, List.mem_cons_self⟩
    · rw [List.filter_cons_of_neg ha] at hlt
      rw [if_neg ha]
      exact ih hle hlt

/-! ## Reading -/

theorem mem_scanFrom (h : j ∈ (arr.scanFrom body k i s).reads) : i ≤ j ∧ j < i + k := by
  induction k generalizing i s with
  | zero => cases h
  | succ k ih =>
    rw [Arr.scanFrom] at h
    cases hread : (arr.entries i).bind (body s) with
    | none =>
      rw [hread] at h
      rw [List.mem_singleton.mp h]
      omega
    | some r =>
      obtain ⟨s', stop⟩ := r
      rw [hread] at h
      cases stop with
      | true =>
        rw [List.mem_singleton.mp h]
        omega
      | false =>
        obtain rfl | h := List.mem_cons.mp h
        · omega
        · have hj := ih h
          omega

theorem lt_of_mem_scan (h : j ∈ (arr.scan body s).reads) : j < arr.count := by
  have hj := (mem_scanFrom h).2
  rwa [Nat.zero_add] at hj

theorem scanFrom_out (h : ∀ j (hj : j < xs.length), arr.entries (i + j) = some xs[j]) :
    (arr.scanFrom body xs.length i s).out = scanList body s xs := by
  induction xs generalizing i s with
  | nil => rfl
  | cons a xs ih =>
    have hfirst : arr.entries i = some a := h 0 (Nat.zero_lt_succ _)
    have hrest : ∀ j (hj : j < xs.length), arr.entries (i + 1 + j) = some xs[j] := by
      intro j hj
      rw [Nat.add_right_comm]
      exact h (j + 1) (Nat.succ_lt_succ hj)
    rw [List.length_cons, Arr.scanFrom, hfirst, Option.bind_some, scanList]
    cases hbody : body s a with
    | none => rfl
    | some r =>
      obtain ⟨s', stop⟩ := r
      cases stop with
      | true => rfl
      | false => exact ih hrest

theorem Arr.Holds.scan_out (h : arr.Holds xs) : (arr.scan body s).out = scanList body s xs := by
  rw [Arr.scan, h.count]
  exact scanFrom_out fun j hj => by rw [Nat.zero_add, h.entries j hj]

theorem scanList_foldlM (f : σ → α → Option σ) (s : σ) (xs : List α) :
    scanList (fun s a => (f s a).map (·, false)) s xs = xs.foldlM f s := by
  induction xs generalizing s with
  | nil => rfl
  | cons a xs ih =>
    rw [scanList, List.foldlM_cons]
    cases f s a with
    | none => rfl
    | some s' => exact ih s'

theorem scanList_any (p : α → Bool) (xs : List α) :
    scanList (fun _ a => some (p a, p a)) false xs = some (xs.any p) := by
  induction xs with
  | nil => rfl
  | cons a xs ih =>
    rw [scanList, Option.bind_some, List.any_cons]
    cases ha : p a with
    | true => rfl
    | false => exact ih

end Counted
