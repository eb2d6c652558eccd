import Mathlib.Data.List.Basic
import Mathlib.Data.List.Infix

/-!
# Words that occur one after another

* `find`, `findAll`: the first occurrence of a word, and of each of a list of words from the start
  of the previous one on.
* `Chain`, `Spread`: words that occur so, and words that occur one behind the other.
* `findAll_longest`: searching for first occurrences misses none.
* **`spread_of_chain`, `exists_chain_of_overlaps`**: the two differ exactly when a word can begin
  inside the one in front of it.
-/

namespace Occurrence

variable {α : Type*}

/-! ## Definitions -/

section Find

variable [DecidableEq α]

/-- The suffix at the first occurrence of `f`. -/
def find (f : List α) : List α → Option (List α)
  | [] => if f <+: [] then some [] else none
  | a :: p => if f <+: a :: p then some (a :: p) else find f p

/-- First occurrences, each from the start of the one before on. -/
def findAll : List (List α) → List α → Option (List α)
  | [], p => some p
  | f :: fs, p => (find f p).bind (findAll fs)

end Find

/-- Words that occur in `p`, each starting where the one before starts or later; the last one is at
`e`. -/
def Chain : List (List α) → List α → List α → Prop
  | [], p, e => e = p
  | f :: fs, p, e => ∃ q, q <:+ p ∧ f <+: q ∧ Chain fs q e

/-- Words that occur in `p` one behind the other, with `l` behind them at the end. -/
def Spread (l : List α) : List (List α) → List α → Prop
  | [], p => l <:+ p
  | f :: fs, p => ∃ q, f ++ q <:+ p ∧ Spread l fs q

/-- `g` can begin inside `f`. -/
def Overlaps (f g : List α) : Prop := ∃ d < f.length, f.drop d <+: g ∨ g <+: f.drop d

instance [DecidableEq α] (f g : List α) : Decidable (Overlaps f g) :=
  inferInstanceAs (Decidable (∃ d < f.length, f.drop d <+: g ∨ g <+: f.drop d))

variable {l f g p q e s : List α} {fs : List (List α)}

/-! ## First occurrences -/

section Find

variable [DecidableEq α]

theorem find_spec (h : find f p = some q) : q <:+ p ∧ f <+: q := by
  induction p with
  | nil =>
    rw [find] at h
    split at h
    · cases h
      exact ⟨List.suffix_rfl, by assumption⟩
    · cases h
  | cons a p ih =>
    rw [find] at h
    split at h
    · cases h
      exact ⟨List.suffix_rfl, by assumption⟩
    · exact ⟨(ih h).1.trans (List.suffix_cons a p), (ih h).2⟩

theorem find_longest (hq : q <:+ p) (hf : f <+: q) : ∃ q', find f p = some q' ∧ q <:+ q' := by
  induction p with
  | nil =>
    obtain rfl := List.suffix_nil.mp hq
    exact ⟨[], if_pos hf, List.suffix_rfl⟩
  | cons a p ih =>
    rw [find]
    split
    · exact ⟨_, rfl, hq⟩
    · rename_i hno
      rcases List.suffix_cons_iff.mp hq with rfl | hq
      · exact absurd hf hno
      · exact ih hq

theorem find_eq_self_iff : find f p = some p ↔ f <+: p := by
  constructor
  · exact fun h => (find_spec h).2
  · intro h
    cases p with
    | nil => exact if_pos h
    | cons a p => exact if_pos h

theorem chain_of_findAll (h : findAll fs p = some e) : Chain fs p e := by
  induction fs generalizing p with
  | nil => exact (Option.some.inj h).symm
  | cons f fs ih =>
    obtain ⟨q, hq, hfs⟩ := Option.bind_eq_some_iff.mp h
    obtain ⟨hsuffix, hprefix⟩ := find_spec hq
    exact ⟨q, hsuffix, hprefix, ih hfs⟩

/-- **Searching for first occurrences misses none.** -/
theorem findAll_longest (hq : q <:+ p) (h : Chain fs q e) :
    ∃ e', findAll fs p = some e' ∧ e <:+ e' := by
  induction fs generalizing p q with
  | nil =>
    obtain rfl : e = q := h
    exact ⟨p, rfl, hq⟩
  | cons f fs ih =>
    obtain ⟨r, hr, hf, hchain⟩ := h
    obtain ⟨q', hfind, hr'⟩ := find_longest (hr.trans hq) hf
    obtain ⟨e', hfs, he⟩ := ih hr' hchain
    exact ⟨e', Option.bind_eq_some_iff.mpr ⟨q', hfind, hfs⟩, he⟩

end Find

/-! ## Words behind each other -/

theorem Chain.extend (hq : q <:+ p) (h : Chain fs q e) : ∃ e', Chain fs p e' ∧ e <:+ e' := by
  cases fs with
  | nil =>
    obtain rfl : e = q := h
    exact ⟨p, rfl, hq⟩
  | cons f fs =>
    obtain ⟨r, hr, hrest⟩ := h
    exact ⟨e, ⟨r, hr.trans hq, hrest⟩, List.suffix_rfl⟩

theorem chain_append_iff {gs : List (List α)} :
    Chain (fs ++ gs) p e ↔ ∃ q, Chain fs p q ∧ Chain gs q e := by
  induction fs generalizing p with
  | nil =>
    constructor
    · exact fun h => ⟨p, rfl, h⟩
    · rintro ⟨q, rfl, h⟩
      exact h
  | cons f fs ih =>
    constructor
    · rintro ⟨q, hq, hf, h⟩
      obtain ⟨r, hr, hrest⟩ := ih.mp h
      exact ⟨r, ⟨q, hq, hf, hr⟩, hrest⟩
    · rintro ⟨r, ⟨q, hq, hf, hr⟩, hrest⟩
      exact ⟨q, hq, hf, ih.mpr ⟨r, hr, hrest⟩⟩

theorem Chain.append (h : Chain fs p e) (x : List α) : Chain fs (p ++ x) (e ++ x) := by
  induction fs generalizing p with
  | nil => exact congrArg (· ++ x) h
  | cons f fs ih =>
    obtain ⟨q, ⟨t, rfl⟩, hf, hrest⟩ := h
    exact ⟨q ++ x, ⟨t, by rw [List.append_assoc]⟩, hf.trans (List.prefix_append q x), ih hrest⟩

theorem Spread.extend (hq : q <:+ p) (h : Spread l fs q) : Spread l fs p := by
  cases fs with
  | nil => exact List.IsSuffix.trans h hq
  | cons f fs =>
    obtain ⟨r, hr, hrest⟩ := h
    exact ⟨r, hr.trans hq, hrest⟩

theorem Spread.length_le (h : Spread l fs p) : fs.flatten.length + l.length ≤ p.length := by
  induction fs generalizing p with
  | nil =>
    have hle := List.IsSuffix.length_le h
    simpa using hle
  | cons f fs ih =>
    obtain ⟨q, hq, hrest⟩ := h
    have hle := hq.length_le
    have hq' := ih hrest
    rw [List.length_append] at hle
    rw [List.flatten_cons, List.length_append]
    omega

theorem spread_flatten (fs : List (List α)) (x : List α) :
    Spread l fs (fs.flatten ++ (x ++ l)) := by
  induction fs with
  | nil => exact List.suffix_append x l
  | cons f fs ih =>
    refine ⟨_, ?_, ih⟩
    rw [List.flatten_cons, List.append_assoc]

theorem Spread.chain (h : Spread l fs p) : ∃ e, Chain fs p e := by
  induction fs generalizing p with
  | nil => exact ⟨p, rfl⟩
  | cons f fs ih =>
    obtain ⟨q, hq, hrest⟩ := h
    obtain ⟨e, he⟩ := ih hrest
    obtain ⟨e', he', -⟩ := he.extend (List.suffix_append f q)
    exact ⟨e', f ++ q, hq, List.prefix_append f q, he'⟩

theorem suffix_drop_of_not_overlaps (h : ¬Overlaps f g) (hf : f <+: p) (hq : q <:+ p)
    (hg : g <+: q) : q <:+ p.drop f.length := by
  obtain ⟨t, rfl⟩ := hq
  rcases Nat.lt_or_ge t.length f.length with hlt | hle
  · refine absurd ⟨t.length, hlt, ?_⟩ h
    have hdrop := List.IsPrefix.drop hf t.length
    rw [List.drop_left] at hdrop
    exact List.prefix_or_prefix_of_prefix hdrop hg
  · rw [List.drop_append_of_le_length hle]
    exact List.suffix_append _ q

/-- **Words that cannot begin inside the ones in front of them are behind each other.** -/
theorem spread_of_chain (hfs : (f :: fs).IsChain fun f g => ¬Overlaps f g) (hf : f <+: p)
    (h : Chain fs p e) : Spread [] fs (p.drop f.length) := by
  induction fs generalizing f p with
  | nil => exact List.nil_suffix
  | cons g fs ih =>
    obtain ⟨q, hq, hg, hrest⟩ := h
    obtain ⟨hfg, hgs⟩ := List.isChain_cons_cons.mp hfs
    refine ⟨q.drop g.length, ?_, ih hgs hg hrest⟩
    obtain ⟨r, rfl⟩ := hg
    rw [List.drop_left]
    exact suffix_drop_of_not_overlaps hfg hf hq (List.prefix_append g r)

theorem isChain_nil_cons_iff :
    ([] :: fs).IsChain (fun f g => ¬Overlaps f g) ↔ fs.IsChain fun f g => ¬Overlaps f g := by
  cases fs with
  | nil => exact iff_of_true (.singleton []) .nil
  | cons g fs =>
    rw [List.isChain_cons_cons]
    refine and_iff_right ?_
    rintro ⟨d, hd, -⟩
    exact Nat.not_lt_zero d hd

theorem exists_overlap (h : Overlaps f g) (hg : g ≠ []) :
    ∃ t q, f <+: t ∧ q <:+ t ∧ g <+: q ∧ t.length < f.length + g.length ∧ t ⊆ f ++ g := by
  obtain ⟨d, hd, hdrop | hinside⟩ := h
  · -- the end of `f` begins `g`
    refine ⟨f.take d ++ g, g, ?_, List.suffix_append _ g, List.prefix_rfl, ?_, ?_⟩
    · obtain ⟨r, rfl⟩ := hdrop
      rw [← List.append_assoc, List.take_append_drop]
      exact List.prefix_append f r
    · rw [List.length_append, List.length_take]
      omega
    · exact List.append_subset.mpr ⟨fun a ha => List.mem_append_left g (List.mem_of_mem_take ha),
        List.subset_append_right f g⟩
  · -- `g` is inside `f`
    refine ⟨f, f.drop d, List.prefix_rfl, List.drop_suffix d f, hinside, ?_,
      List.subset_append_left f g⟩
    have hpos := List.length_pos_iff.mpr hg
    omega

/-- **Where one can, a word holds them all without room for them behind each other.** -/
theorem exists_chain_of_overlaps (hne : ∀ g ∈ fs, g ≠ [])
    (hfs : ¬(f :: fs).IsChain fun f g => ¬Overlaps f g) :
    ∃ s, f <+: s ∧ (∃ e, Chain fs s e) ∧ s.length < (f :: fs).flatten.length ∧
      s ⊆ (f :: fs).flatten := by
  induction fs generalizing f with
  | nil => exact absurd (.singleton f) hfs
  | cons g fs ih =>
    by_cases hfg : Overlaps f g
    · obtain ⟨t, q, hf, hq, hg, hlen, hsub⟩ :=
        exists_overlap hfg (hne g List.mem_cons_self)
      obtain ⟨e, he⟩ := (spread_flatten (l := []) fs []).chain
      rw [List.append_nil, List.append_nil] at he
      obtain ⟨e', he', -⟩ := he.extend (List.suffix_append q fs.flatten)
      refine ⟨t ++ fs.flatten, hf.trans (List.prefix_append t _),
        ⟨e', q ++ fs.flatten, ?_, ?_, he'⟩, ?_, ?_⟩
      · obtain ⟨r, rfl⟩ := hq
        exact ⟨r, (List.append_assoc ..).symm⟩
      · exact hg.trans (List.prefix_append q _)
      · simp only [List.flatten_cons, List.length_append]
        omega
      · rw [List.flatten_cons, List.flatten_cons, ← List.append_assoc]
        exact List.append_subset.mpr ⟨List.Subset.trans hsub (List.subset_append_left _ _),
          List.subset_append_right _ _⟩
    · have hrest : ¬(g :: fs).IsChain fun f g => ¬Overlaps f g := fun h =>
        hfs (List.isChain_cons_cons.mpr ⟨hfg, h⟩)
      obtain ⟨s, hs, ⟨e, he⟩, hlen, hsub⟩ :=
        ih (fun h hh => hne h (List.mem_cons_of_mem _ hh)) hrest
      refine ⟨f ++ s, List.prefix_append f s, ⟨e, s, List.suffix_append f s, hs, he⟩, ?_, ?_⟩
      · rw [List.flatten_cons, List.length_append, List.length_append]
        omega
      · rw [List.flatten_cons]
        exact List.append_subset.mpr ⟨List.subset_append_left _ _,
          List.Subset.trans hsub (List.subset_append_right _ _)⟩

/-- A further letter is of no use to words the last of which does not end with it. -/
theorem spread_of_concat {c : α} (hne : ∀ f ∈ fs, f ≠ [])
    (hc : ∀ f ∈ fs.getLast?, f.getLast? ≠ some c) (h : Spread [] fs (s ++ [c])) :
    Spread [] fs s := by
  induction fs generalizing s with
  | nil => exact List.nil_suffix
  | cons f fs ih =>
    obtain ⟨q, ⟨t, ht⟩, hrest⟩ := h
    rcases List.eq_nil_or_concat q with rfl | ⟨r, a, rfl⟩
    · -- `f` ends with the letter, and nothing is behind it
      have hnil : fs = [] := by
        have hlen := hrest.length_le
        cases fs with
        | nil => rfl
        | cons g fs =>
          have hpos := List.length_pos_iff.mpr (hne g (.tail _ (.head _)))
          simp only [List.flatten_cons, List.length_append, List.length_nil] at hlen
          omega
      subst hnil
      obtain ⟨f', b, rfl⟩ := (List.eq_nil_or_concat f).resolve_left (hne f (.head _))
      rw [List.append_nil, List.concat_eq_append, ← List.append_assoc] at ht
      have hb := (List.append_inj' ht rfl).2
      exact absurd (by simpa using hb) (hc _ rfl)
    · rw [List.concat_eq_append, ← List.append_assoc, ← List.append_assoc] at ht
      obtain ⟨rfl, hac⟩ := List.append_inj' ht rfl
      cases hac
      rw [List.concat_eq_append] at hrest
      refine ⟨r, ⟨t, (List.append_assoc ..).symm⟩, ih (fun g hg => hne g (.tail _ hg)) ?_ hrest⟩
      intro g hg
      refine hc g ?_
      rw [List.getLast?_cons, hg]
      rfl

theorem chain_repeated (fs : List (List α)) (l x : List α) :
    ∃ e, Chain (fs ++ [l]) (fs.flatten ++ (l ++ x)) e ∧ l ++ x <:+ e := by
  induction fs with
  | nil => exact ⟨l ++ x, ⟨l ++ x, List.suffix_rfl, List.prefix_append l x, rfl⟩, List.suffix_rfl⟩
  | cons f fs ih =>
    obtain ⟨e, he, hx⟩ := ih
    obtain ⟨e', he', hee'⟩ := he.extend (List.suffix_append f _)
    rw [List.flatten_cons, List.append_assoc]
    exact ⟨e', ⟨_, List.suffix_rfl, List.prefix_append f _, he'⟩, hx.trans hee'⟩

end Occurrence
