import Mathlib.Data.List.Basic

/-!
# Texts of separated entries

* `terminated sep xs`: the entries, each followed by the separator (`dropLast_terminated`).
* `afterSeps sep text`: what follows each separator of a text; with the text itself these are the
  places where an entry starts (`starts`, `exists_starts_of_mem_splitOn`).
* `Begins`: the entry is read at one of these places, whether it ends there or not.
-/

namespace Separated

variable {α : Type}

/-- The entries, each followed by the separator. -/
def terminated (sep : α) (xs : List (List α)) : List α := (xs.map (· ++ [sep])).flatten

section Join

variable {sep : α} {x : List α} {xs ys : List (List α)}

theorem terminated_nil : terminated sep [] = [] := rfl

theorem terminated_cons : terminated sep (x :: xs) = x ++ [sep] ++ terminated sep xs := rfl

theorem terminated_append : terminated sep (xs ++ ys) = terminated sep xs ++ terminated sep ys := by
  rw [terminated, List.map_append, List.flatten_append]
  rfl

theorem terminated_eq_nil_iff : terminated sep xs = [] ↔ xs = [] := by
  cases xs with
  | nil => exact iff_of_true rfl rfl
  | cons x xs => simp [terminated_cons]

theorem dropLast_terminated : (terminated sep xs).dropLast = [sep].intercalate xs := by
  induction xs with
  | nil => rfl
  | cons x xs ih =>
    by_cases hnil : xs = []
    · subst hnil
      rw [terminated_cons, terminated_nil, List.append_nil, List.dropLast_concat,
        List.intercalate_singleton]
    · rw [terminated_cons, List.dropLast_append_of_ne_nil (terminated_eq_nil_iff.not.mpr hnil), ih,
        List.intercalate_cons_of_ne_nil hnil]

theorem length_terminated (hne : xs ≠ []) :
    (terminated sep xs).length = ([sep].intercalate xs).length + 1 := by
  rw [← dropLast_terminated, List.length_dropLast]
  have hpos := List.length_pos_of_ne_nil ((@terminated_eq_nil_iff _ sep xs).not.mpr hne)
  omega

theorem length_terminated_map (y : List α) :
    (terminated sep (xs.map (· ++ y))).length =
      (terminated sep xs).length + xs.length * y.length := by
  induction xs with
  | nil => rw [List.map_nil, List.length_nil, Nat.zero_mul, Nat.add_zero]
  | cons x xs ih =>
    rw [List.map_cons, terminated_cons, terminated_cons, List.length_append, ih, List.length_cons,
      Nat.succ_mul]
    simp only [List.length_append]
    omega

theorem mem_intercalate {c : α} (h : c ∈ [sep].intercalate xs) : c = sep ∨ ∃ x ∈ xs, c ∈ x := by
  rw [← dropLast_terminated] at h
  obtain ⟨entry, hentry, hc⟩ := List.mem_flatten.mp ((List.dropLast_sublist _).subset h)
  obtain ⟨x, hx, rfl⟩ := List.mem_map.mp hentry
  obtain hc | hc := List.mem_append.mp hc
  · exact .inr ⟨x, hx, hc⟩
  · exact .inl (List.mem_singleton.mp hc)

theorem intercalate_sublist (h : xs.Sublist ys) :
    ([sep].intercalate xs).Sublist ([sep].intercalate ys) := by
  induction h with
  | slnil => exact .slnil
  | @cons xs ys y h ih =>
    by_cases hys : ys = []
    · subst hys
      rw [List.sublist_nil.mp h]
      exact List.nil_sublist _
    · rw [List.intercalate_cons_of_ne_nil hys]
      exact List.sublist_append_of_sublist_right ih
  | @cons_cons xs ys y h ih =>
    by_cases hxs : xs = []
    · subst hxs
      rw [List.intercalate_singleton]
      by_cases hys : ys = []
      · rw [hys, List.intercalate_singleton]
      · rw [List.intercalate_cons_of_ne_nil hys, List.append_assoc]
        exact List.sublist_append_left _ _
    · have hys : ys ≠ [] := fun hnil => hxs (List.sublist_nil.mp (hnil ▸ h))
      rw [List.intercalate_cons_of_ne_nil hxs, List.intercalate_cons_of_ne_nil hys]
      exact (List.Sublist.refl _).append ih

end Join

variable [DecidableEq α] (sep : α)

/-- What follows each separator. -/
def afterSeps : List α → List (List α)
  | [] => []
  | c :: text => if c = sep then text :: afterSeps text else afterSeps text

/-- The places where an entry starts. -/
def starts (text : List α) : List (List α) := text :: afterSeps sep text

/-- The word is read where an entry starts. -/
def Begins (text word : List α) : Prop := ∃ s ∈ starts sep text, word <+: s

instance (text word : List α) : Decidable (Begins sep text word) :=
  inferInstanceAs (Decidable (∃ s ∈ starts sep text, word <+: s))

variable {sep} {text entry word : List α}

theorem splitOn_begins : ∃ first rest, text.splitOn sep = first :: rest ∧ first <+: text ∧
    ∀ entry ∈ rest, ∃ s ∈ afterSeps sep text, entry <+: s := by
  induction text with
  | nil =>
    refine ⟨[], [], List.splitOn_nil sep, List.nil_prefix, fun entry h => ?_⟩
    cases h
  | cons c text ih =>
    obtain ⟨first, rest, hsplit, hfirst, hrest⟩ := ih
    rw [List.splitOn_cons_eq_if_modifyHead, hsplit, afterSeps]
    by_cases hc : c = sep
    · subst hc
      rw [if_pos (beq_self_eq_true c), if_pos rfl]
      refine ⟨[], first :: rest, rfl, List.nil_prefix, fun entry h => ?_⟩
      obtain rfl | h := List.mem_cons.mp h
      · exact ⟨text, List.mem_cons_self, hfirst⟩
      · obtain ⟨s, hs, hpre⟩ := hrest entry h
        exact ⟨s, List.mem_cons_of_mem _ hs, hpre⟩
    · have hbeq : (c == sep) = false := beq_eq_false_iff_ne.mpr hc
      rw [hbeq, if_neg hc]
      exact ⟨c :: first, rest, rfl, List.cons_prefix_cons.mpr ⟨rfl, hfirst⟩, hrest⟩

theorem begins_of_mem_splitOn (h : entry ∈ text.splitOn sep) : Begins sep text entry := by
  obtain ⟨first, rest, hsplit, hfirst, hrest⟩ := @splitOn_begins _ _ sep text
  rw [hsplit] at h
  obtain rfl | h := List.mem_cons.mp h
  · exact ⟨text, List.mem_cons_self, hfirst⟩
  · obtain ⟨s, hs, hpre⟩ := hrest entry h
    exact ⟨s, List.mem_cons_of_mem _ hs, hpre⟩

theorem notMem_of_mem_splitOn (h : entry ∈ text.splitOn sep) : sep ∉ entry := by
  induction text generalizing entry with
  | nil =>
    rw [List.splitOn_nil, List.mem_singleton] at h
    rw [h]
    exact List.not_mem_nil
  | cons c text ih =>
    rw [List.splitOn_cons_eq_if_modifyHead] at h
    obtain ⟨first, rest, hsplit⟩ := List.exists_cons_of_ne_nil (List.splitOn_ne_nil sep text)
    rw [hsplit] at h ih
    split_ifs at h with hc
    · obtain rfl | h := List.mem_cons.mp h
      · exact List.not_mem_nil
      · exact ih h
    · obtain rfl | h := List.mem_cons.mp h
      · rw [List.mem_cons, not_or]
        exact ⟨fun heq => hc (beq_iff_eq.mpr heq.symm), ih List.mem_cons_self⟩
      · exact ih (List.mem_cons_of_mem _ h)

theorem begins_iff :
    Begins sep text word ↔ word <+: text ∨ ∃ s ∈ afterSeps sep text, word <+: s := by
  simp only [Begins, starts, List.mem_cons, exists_eq_or_imp]

end Separated
