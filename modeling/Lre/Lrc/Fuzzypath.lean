import Mathlib.Data.List.Basic
import Lre.CString
import Lre.Occurrence
import Lre.Symbol

/-!
# Wildcards in path components

* `fuzzyDirent`: how `fuzzy2path` reads a component, `matchDirent`: the test of `recurse_dir`.
* `Glob`: the names that a pattern stands for.
* `fuzzyDirent_fragments`, `fragTest_iff`: what the fragments say about a component and a name.
* **`matchDirent_iff`**: the patterns for which the test accepts exactly the names they stand for.
-/

namespace Lre

open Occurrence

/-! ## Components -/

/-- `FUZZY_POINT_MAX`. -/
def fuzzyPointMax : ℕ := 4

/-- `struct frag`. -/
structure Frag where
  str : List Word
  startFuzzy : Bool
  endFuzzy : Bool
  deriving DecidableEq

/-- `struct fuzzydirent`. -/
inductive FuzzyDirent
  | normal (name : Word)
  | fuzzy (frag : Frag)
  deriving DecidableEq

/-- The loop of `fuzzy2path` over the stars of a component; `cur` is what has been read from `ptr`
on. `none` is the return code `-EINVAL`. -/
def fragLoop (str : List Word) (cur : Word) : Word → Option (List Word)
  | [] => some (str ++ [cur])
  | c :: rest =>
    if c = '*' then
      if cur = [] then fragLoop str [] rest
      else if fuzzyPointMax ≤ str.length + 1 then none
      else fragLoop (str ++ [cur]) [] rest
    else fragLoop str (cur ++ [c]) rest

/-- A component of a path, as `fuzzy2path` reads it. -/
def fuzzyDirent (token : Word) : Option FuzzyDirent := do
  let str ← fragLoop [] [] token
  if '*' ∈ token then
    return .fuzzy ⟨str, token.head? = some '*', token.getLast? = some '*'⟩
  else return .normal token

/-- `strstr`. -/
def strstr (ptr str : Word) : Option Word := find str ptr

/-- The test of `recurse_dir` on a fuzzy component; there is at least one fragment. -/
def fragTest (frag : Frag) (name : Word) : Bool :=
  match frag.str with
  | [] => false
  | first :: rest =>
    match strstr name first with
    | none => false
    | some ptr =>
      if !frag.startFuzzy && ptr != name then false
      else
        match findAll rest ptr with
        | none => false
        | some ptr => frag.endFuzzy || ptr == (first :: rest).getLastD []

/-- The test of `recurse_dir` on the name of a directory entry. -/
def matchDirent (fdir : FuzzyDirent) (name : Word) : Bool :=
  match fdir with
  | .normal fname => fname == name
  | .fuzzy frag => fragTest frag name

/-! ## Patterns -/

/-- The name comes from the pattern when each `*` is replaced by some string. -/
inductive Glob : Word → Word → Prop
  | nil : Glob [] []
  | char {c : Char} {pattern name : Word} : c ≠ '*' → Glob pattern name →
    Glob (c :: pattern) (c :: name)
  | star {pattern name : Word} (t : Word) : Glob pattern name → Glob ('*' :: pattern) (t ++ name)

/-- The name of a directory entry; `.` and `..` are skipped. -/
structure EntryName (name : Word) : Prop where
  ne_nil : name ≠ []
  slash : '/' ∉ name
  nul : CString.nul ∉ name
  dot : name ≠ ['.']
  dotdot : name ≠ ['.', '.']

/-- The pieces of a pattern between its stars. -/
def pieces (pattern : Word) : List Word := (pattern.splitOn '*').filter (· ≠ [])

variable {p q name token : Word} {frag : Frag}

theorem glob_nil_iff : Glob [] name ↔ name = [] := by
  constructor
  · intro h
    cases h
    rfl
  · rintro rfl
    exact .nil

theorem glob_star_iff : Glob ('*' :: p) name ↔ ∃ r, r <:+ name ∧ Glob p r := by
  constructor
  · intro h
    cases h with
    | char hc _ => exact absurd rfl hc
    | star t h => exact ⟨_, List.suffix_append t _, h⟩
  · rintro ⟨r, ⟨t, rfl⟩, h⟩
    exact .star t h

theorem glob_append_iff {f : Word} (hf : '*' ∉ f) :
    Glob (f ++ p) name ↔ ∃ r, name = f ++ r ∧ Glob p r := by
  induction f generalizing name with
  | nil => simp
  | cons c f ih =>
    rw [List.mem_cons, not_or] at hf
    constructor
    · intro h
      cases h with
      | char hc h =>
        obtain ⟨r, rfl, hr⟩ := (ih hf.2).mp h
        exact ⟨r, rfl, hr⟩
      | star => exact absurd rfl hf.1
    · rintro ⟨r, rfl, hr⟩
      exact .char (Ne.symm hf.1) ((ih hf.2).mpr ⟨r, rfl, hr⟩)

theorem glob_iff_of_notMem (hp : '*' ∉ p) : Glob p name ↔ name = p := by
  rw [← List.append_nil p, glob_append_iff hp]
  constructor
  · rintro ⟨r, rfl, hr⟩
    rw [glob_nil_iff.mp hr]
  · intro h
    exact ⟨[], h, .nil⟩

theorem glob_star_star_iff : Glob ('*' :: '*' :: p) name ↔ Glob ('*' :: p) name := by
  constructor
  · intro h
    obtain ⟨r, hr, h⟩ := glob_star_iff.mp h
    obtain ⟨r', hr', h⟩ := glob_star_iff.mp h
    exact glob_star_iff.mpr ⟨r', hr'.trans hr, h⟩
  · intro h
    exact .star [] h

theorem pieces_of_notMem (hp : '*' ∉ p) : pieces p = [p].filter (· ≠ []) := by
  rw [pieces, List.splitOn_eq_singleton hp]

theorem pieces_append_star (hp : '*' ∉ p) :
    pieces (p ++ '*' :: q) = [p].filter (· ≠ []) ++ pieces q := by
  rw [pieces, List.splitOn_append_cons_self_of_not_mem hp, ← List.singleton_append,
    List.filter_append]
  rfl

theorem subset_append_star {f : Word} : p ⊆ f ++ '*' :: p := fun _ hc =>
  List.mem_append_right f (List.mem_cons_of_mem '*' hc)

theorem filter_ne_nil {f : Word} (hf : f ≠ []) : [f].filter (· ≠ []) = [f] :=
  List.filter_cons_of_pos (decide_eq_true hf)

/-! ## Fragments -/

/-- What the text behind a star reads as: fragments, and the last of them. -/
structure Fragments (p : Word) (fs : List Word) (l : Word) : Prop where
  glob : ∀ name, Glob ('*' :: p) name ↔ Spread l fs name
  ne_nil : ∀ f ∈ fs, f ≠ []
  last : ('*' :: p).getLast? = some '*' ↔ l = []
  pieces : pieces p = fs ++ [l].filter (· ≠ [])
  subset : fs.flatten ++ l ⊆ p

theorem Fragments.of_notMem (hp : '*' ∉ p) : Fragments p [] p where
  glob name := by
    rw [glob_star_iff]
    constructor
    · rintro ⟨r, hr, h⟩
      rwa [(glob_iff_of_notMem hp).mp h] at hr
    · intro h
      exact ⟨p, h, (glob_iff_of_notMem hp).mpr rfl⟩
  ne_nil := nofun
  last := by
    rw [List.getLast?_cons]
    cases h : p.getLast? with
    | none => exact iff_of_true rfl (List.getLast?_eq_none_iff.mp h)
    | some c =>
      have hc := List.mem_of_getLast? h
      refine iff_of_false (fun heq => hp ?_) (List.ne_nil_of_mem hc)
      cases heq
      exact hc
  pieces := pieces_of_notMem hp
  subset := List.Subset.refl p

theorem Fragments.star {fs : List Word} {l : Word} (h : Fragments p fs l) :
    Fragments ('*' :: p) fs l where
  glob name := glob_star_star_iff.trans (h.glob name)
  ne_nil := h.ne_nil
  last := by rw [List.getLast?_cons_cons, h.last]
  pieces := (pieces_append_star List.not_mem_nil).trans h.pieces
  subset := List.subset_cons_of_subset '*' h.subset

theorem Fragments.cons {f l : Word} {fs : List Word} (hf : '*' ∉ f) (hne : f ≠ [])
    (h : Fragments p fs l) : Fragments (f ++ '*' :: p) (f :: fs) l where
  glob name := by
    rw [glob_star_iff]
    constructor
    · rintro ⟨r, hr, hglob⟩
      obtain ⟨q, rfl, hq⟩ := (glob_append_iff hf).mp hglob
      exact ⟨q, hr, (h.glob q).mp hq⟩
    · rintro ⟨q, hr, hq⟩
      exact ⟨f ++ q, hr, (glob_append_iff hf).mpr ⟨q, rfl, (h.glob q).mpr hq⟩⟩
  ne_nil := List.forall_mem_cons.mpr ⟨hne, h.ne_nil⟩
  last := by
    rw [← h.last, ← List.cons_append, List.getLast?_append, List.getLast?_cons, Option.some_or]
  pieces := by
    rw [pieces_append_star hf, h.pieces, filter_ne_nil hne]
    rfl
  subset := by
    rw [List.flatten_cons, List.append_assoc]
    exact List.append_subset.mpr ⟨List.subset_append_left f _,
      List.Subset.trans h.subset subset_append_star⟩

theorem fragLoop_fragments {str out : List Word} {cur rest : Word} (hcur : '*' ∉ cur)
    (h : fragLoop str cur rest = some out) :
    ∃ fs l, out = str ++ (fs ++ [l]) ∧ Fragments (cur ++ rest) fs l := by
  induction rest generalizing str cur with
  | nil =>
    rw [fragLoop, Option.some.injEq] at h
    rw [List.append_nil]
    exact ⟨[], cur, h.symm, .of_notMem hcur⟩
  | cons c rest ih =>
    rw [fragLoop] at h
    split at h
    · rename_i hc
      subst hc
      split at h
      · rename_i hnil
        subst hnil
        obtain ⟨fs, l, hout, hfrag⟩ := ih List.not_mem_nil h
        exact ⟨fs, l, hout, hfrag.star⟩
      · rename_i hnil
        split at h
        · cases h
        · obtain ⟨fs, l, hout, hfrag⟩ := ih List.not_mem_nil h
          refine ⟨cur :: fs, l, ?_, hfrag.cons hcur hnil⟩
          rw [hout, List.append_assoc, List.singleton_append, List.cons_append]
    · rename_i hc
      have hcur' : '*' ∉ cur ++ [c] := by
        rw [List.mem_append, List.mem_singleton, not_or]
        exact ⟨hcur, Ne.symm hc⟩
      obtain ⟨fs, l, hout, hfrag⟩ := ih hcur' h
      rw [List.append_assoc, List.singleton_append] at hfrag
      exact ⟨fs, l, hout, hfrag⟩

theorem fragLoop_append {str : List Word} {cur f rest : Word} (hf : '*' ∉ f) :
    fragLoop str cur (f ++ rest) = fragLoop str (cur ++ f) rest := by
  induction f generalizing cur with
  | nil => rw [List.nil_append, List.append_nil]
  | cons c f ih =>
    rw [List.mem_cons, not_or] at hf
    rw [List.cons_append, fragLoop, if_neg (Ne.symm hf.1), ih hf.2, List.append_assoc]
    rfl

/-- A component with a star: what is in front of the first one, and what is behind it. -/
theorem fuzzyDirent_fragments (h : fuzzyDirent token = some (.fuzzy frag)) :
    ∃ f p fs l, '*' ∉ f ∧ token = f ++ '*' :: p ∧ Fragments p fs l ∧
      frag = ⟨[f].filter (· ≠ []) ++ (fs ++ [l]), f = [], l = []⟩ := by
  obtain ⟨str, hstr, h⟩ := Option.bind_eq_some_iff.mp h
  split at h
  · rename_i hmem
    cases h
    obtain ⟨f, p, rfl, hf⟩ := List.eq_append_cons_of_mem hmem
    have hloop : ∃ fs l, str = [f].filter (· ≠ []) ++ (fs ++ [l]) ∧ Fragments p fs l := by
      rw [fragLoop_append hf, List.nil_append, fragLoop, if_pos rfl] at hstr
      split at hstr
      · rename_i hnil
        subst hnil
        exact fragLoop_fragments List.not_mem_nil hstr
      · rename_i hne
        rw [if_neg (by decide)] at hstr
        obtain ⟨fs, l, hout, hfrag⟩ := fragLoop_fragments List.not_mem_nil hstr
        refine ⟨fs, l, ?_, hfrag⟩
        rw [hout, filter_ne_nil hne]
        rfl
    obtain ⟨fs, l, rfl, hfrag⟩ := hloop
    refine ⟨f, p, fs, l, hf, rfl, hfrag, ?_⟩
    have hstart : (f ++ '*' :: p).head? = some '*' ↔ f = [] := by
      cases f with
      | nil => exact iff_of_true rfl rfl
      | cons c f =>
        refine iff_of_false (fun heq => hf ?_) (List.cons_ne_nil c f)
        cases heq
        exact List.mem_cons_self
    have hend : (f ++ '*' :: p).getLast? = some '*' ↔ l = [] := by
      rw [← hfrag.last, List.getLast?_append, List.getLast?_cons, Option.some_or]
    simp only [hstart, hend]
  · cases h

/-! ## The test -/

theorem fragTest_cons {first : Word} {rest : List Word} {s e : Bool} :
    fragTest ⟨first :: rest, s, e⟩ name = true ↔
      ∃ q, find first name = some q ∧ (s = true ∨ q = name) ∧
        ∃ ptr, findAll rest q = some ptr ∧ (e = true ∨ ptr = (first :: rest).getLastD []) := by
  have hmoved : ∀ q, (!s && q != name) = true ↔ ¬(s = true ∨ q = name) := by
    intro q
    cases s <;> simp
  simp only [fragTest, strstr, hmoved]
  cases find first name with
  | none => simp
  | some q =>
    simp only [Option.some.injEq, exists_eq_left']
    by_cases hq : s = true ∨ q = name
    · rw [if_neg (not_not_intro hq)]
      cases findAll rest q with
      | none => simp
      | some ptr => simp [hq]
    · rw [if_pos hq]
      simp [hq]

/-- The first fragment in front, and all others from there on; the last one at the end. -/
theorem fragTest_iff {f l : Word} {fs : List Word} :
    fragTest ⟨[f].filter (· ≠ []) ++ (fs ++ [l]), f = [], l = []⟩ name = true ↔
      f <+: name ∧ ∃ ptr, findAll (fs ++ [l]) name = some ptr ∧ (l = [] ∨ ptr = l) := by
  by_cases hf : f = []
  · subst hf
    have hne : fs ++ [l] ≠ [] := List.append_ne_nil_of_right_ne_nil fs (List.cons_ne_nil l [])
    obtain ⟨first, rest, hcons⟩ := List.exists_cons_of_ne_nil hne
    have hlast : (first :: rest).getLastD [] = l := by rw [← hcons, List.getLastD_concat]
    have hfilter : ([[]] : List Word).filter (· ≠ []) = [] := rfl
    rw [hfilter, List.nil_append, hcons, fragTest_cons, hlast]
    simp only [findAll, Option.bind_eq_some_iff, decide_true, true_or, true_and, List.nil_prefix,
      decide_eq_true_eq]
    constructor
    · rintro ⟨q, hq, ptr, hptr, hend⟩
      exact ⟨ptr, ⟨q, hq, hptr⟩, hend⟩
    · rintro ⟨ptr, ⟨q, hq, hptr⟩, hend⟩
      exact ⟨q, hq, ptr, hptr, hend⟩
  · have hlast : (f :: (fs ++ [l])).getLastD [] = l := by
      rw [← List.cons_append, List.getLastD_concat]
    rw [filter_ne_nil hf, List.singleton_append, fragTest_cons, hlast]
    constructor
    · rintro ⟨q, hq, hs | rfl, hptr⟩
      · exact absurd (of_decide_eq_true hs) hf
      · exact ⟨find_eq_self_iff.mp hq, by simpa using hptr⟩
    · rintro ⟨hfront, hptr⟩
      exact ⟨name, find_eq_self_iff.mpr hfront, .inr rfl, by simpa using hptr⟩

theorem fragTest_iff_chain {f : Word} {fs : List Word} :
    fragTest ⟨[f].filter (· ≠ []) ++ (fs ++ [[]]), f = [], true⟩ name = true ↔
      f <+: name ∧ ∃ e, Chain fs name e := by
  show fragTest ⟨_, _, ([] : Word) = []⟩ name = true ↔ _
  rw [fragTest_iff]
  simp only [true_or, and_true]
  refine and_congr_right fun _ => ?_
  constructor
  · rintro ⟨ptr, hptr⟩
    obtain ⟨e, he, -⟩ := chain_append_iff.mp (chain_of_findAll hptr)
    exact ⟨e, he⟩
  · rintro ⟨e, he⟩
    have hchain : Chain (fs ++ [[]]) name e :=
      chain_append_iff.mpr ⟨e, he, e, List.suffix_rfl, List.nil_prefix, rfl⟩
    obtain ⟨ptr, hptr, -⟩ := findAll_longest List.suffix_rfl hchain
    exact ⟨ptr, hptr⟩

theorem glob_iff_spread {f l : Word} {fs : List Word} (hf : '*' ∉ f) (h : Fragments p fs l) :
    Glob (f ++ '*' :: p) name ↔ f <+: name ∧ Spread l fs (name.drop f.length) := by
  rw [glob_append_iff hf]
  constructor
  · rintro ⟨r, rfl, hr⟩
    rw [List.drop_left]
    exact ⟨List.prefix_append f r, (h.glob r).mp hr⟩
  · rintro ⟨⟨r, rfl⟩, hr⟩
    rw [List.drop_left] at hr
    exact ⟨r, rfl, (h.glob r).mpr hr⟩

theorem EntryName.of_subset {s : Word} (hslash : '/' ∉ token) (hnul : CString.nul ∉ token)
    (hs : s ⊆ token) (hlen : 3 ≤ s.length) : EntryName s where
  ne_nil := by
    rintro rfl
    simp at hlen
  slash := fun h => hslash (hs h)
  nul := fun h => hnul (hs h)
  dot := by
    rintro rfl
    simp at hlen
  dotdot := by
    rintro rfl
    simp at hlen

theorem EntryName.concat {s : Word} {c : Char} (hslash : '/' ∉ token)
    (hnul : CString.nul ∉ token) (hs : s ⊆ token) (hc : c = 'a' ∨ c = 'b') :
    EntryName (s ++ [c]) := by
  have hmem : ∀ d : Char, d ∉ token → d ≠ c → d ∉ s ++ [c] := by
    intro d hd hne
    rw [List.mem_append, List.mem_singleton, not_or]
    exact ⟨fun h => hd (hs h), hne⟩
  have hlast : (s ++ [c]).getLast? = some c := List.getLast?_concat
  refine ⟨List.append_ne_nil_of_right_ne_nil s (List.cons_ne_nil c []), hmem _ hslash ?_,
    hmem _ hnul ?_, fun h => ?_, fun h => ?_⟩
  · rcases hc with rfl | rfl <;> decide
  · rcases hc with rfl | rfl <;> decide
  · rw [h] at hlast
    rcases hc with rfl | rfl <;> cases hlast
  · rw [h] at hlast
    rcases hc with rfl | rfl <;> cases hlast

theorem exists_glob_not_fragTest {f l : Word} {fs : List Word} (hf : '*' ∉ f) (h : Fragments p fs l)
    (hl : l ≠ []) (hslash : '/' ∉ f ++ '*' :: p) (hnul : CString.nul ∉ f ++ '*' :: p) :
    ∃ name, EntryName name ∧ Glob (f ++ '*' :: p) name ∧
      ¬fragTest ⟨[f].filter (· ≠ []) ++ (fs ++ [l]), f = [], l = []⟩ name = true := by
  have hpos := List.length_pos_iff.mpr hl
  have hsub : f ++ (fs.flatten ++ (l ++ (l ++ l))) ⊆ f ++ '*' :: p := by
    obtain ⟨hfs, hls⟩ :=
      List.append_subset.mp (List.Subset.trans h.subset (subset_append_star (f := f)))
    refine List.append_subset.mpr ⟨List.subset_append_left f _, List.append_subset.mpr ⟨hfs, ?_⟩⟩
    exact List.append_subset.mpr ⟨hls, List.append_subset.mpr ⟨hls, hls⟩⟩
  refine ⟨f ++ (fs.flatten ++ (l ++ (l ++ l))), .of_subset hslash hnul hsub ?_, ?_, ?_⟩
  · simp only [List.length_append]
    omega
  · refine (glob_iff_spread hf h).mpr ⟨List.prefix_append f _, ?_⟩
    rw [List.drop_left, ← List.append_assoc l]
    exact spread_flatten fs (l ++ l)
  · -- the first occurrences end in front of three copies of `l`
    intro htest
    obtain ⟨-, ptr, hptr, hend⟩ := fragTest_iff.mp htest
    obtain ⟨e, he, hle⟩ := chain_repeated fs l (l ++ l)
    obtain ⟨e', he', hee'⟩ := findAll_longest (List.suffix_append f _) he
    rw [hptr] at he'
    cases he'
    have hlen := (hle.trans hee').length_le
    rw [hend.resolve_left hl, List.length_append, List.length_append] at hlen
    omega

theorem exists_fragTest_not_glob {f : Word} {fs : List Word} (hf : '*' ∉ f) (h : Fragments p fs [])
    (hfs : ¬(f :: fs).IsChain fun f g => ¬Overlaps f g) (hslash : '/' ∉ f ++ '*' :: p)
    (hnul : CString.nul ∉ f ++ '*' :: p) :
    ∃ name, EntryName name ∧
      fragTest ⟨[f].filter (· ≠ []) ++ (fs ++ [[]]), f = [], true⟩ name = true ∧
        ¬Glob (f ++ '*' :: p) name := by
  obtain ⟨s, hfront, ⟨e, he⟩, hlen, hsub⟩ := exists_chain_of_overlaps h.ne_nil hfs
  have hs : s ⊆ f ++ '*' :: p := by
    refine List.Subset.trans hsub ?_
    have hflat := List.Subset.trans h.subset (subset_append_star (f := f))
    rw [List.append_nil] at hflat
    exact List.append_subset.mpr ⟨List.subset_append_left f _, hflat⟩
  -- a letter behind the occurrences that ends no fragment, since `.` and `..` are no entries
  obtain ⟨c, hc, hlast⟩ : ∃ c, (c = 'a' ∨ c = 'b') ∧ ∀ g ∈ fs.getLast?, g.getLast? ≠ some c := by
    by_cases ha : ∀ g ∈ fs.getLast?, g.getLast? ≠ some 'a'
    · exact ⟨'a', .inl rfl, ha⟩
    · refine ⟨'b', .inr rfl, fun g hg hb => ha fun g' hg' ha' => ?_⟩
      cases Option.mem_unique hg hg'
      rw [hb] at ha'
      cases ha'
  refine ⟨s ++ [c], .concat hslash hnul hs hc, ?_, ?_⟩
  · exact fragTest_iff_chain.mpr ⟨hfront.trans (List.prefix_append s _), _, he.append [c]⟩
  · intro hglob
    obtain ⟨-, hspread⟩ := (glob_iff_spread hf h).mp hglob
    rw [List.drop_append_of_le_length hfront.length_le] at hspread
    have hle := (spread_of_concat h.ne_nil hlast hspread).length_le
    rw [List.length_drop] at hle
    rw [List.flatten_cons, List.length_append] at hlen
    have hfl := hfront.length_le
    simp only [List.length_nil] at hle
    omega

/-- **The test of a component is glob matching exactly when the component ends with a star and no
piece between two stars can begin inside the piece in front of it.** -/
theorem matchDirent_iff (hslash : '/' ∉ token) (hnul : CString.nul ∉ token)
    (hfuzzy : fuzzyDirent token = some (.fuzzy frag)) :
    (∀ name, EntryName name → (matchDirent (.fuzzy frag) name = true ↔ Glob token name)) ↔
      token.getLast? = some '*' ∧ (pieces token).IsChain fun f g => ¬Overlaps f g := by
  obtain ⟨f, p, fs, l, hf, rfl, hfrag, rfl⟩ := fuzzyDirent_fragments hfuzzy
  have hlast : (f ++ '*' :: p).getLast? = some '*' ↔ l = [] := by
    rw [← hfrag.last, List.getLast?_append, List.getLast?_cons, Option.some_or]
  have hpieces : l = [] → ((pieces (f ++ '*' :: p)).IsChain (fun f g => ¬Overlaps f g) ↔
      (f :: fs).IsChain fun f g => ¬Overlaps f g) := by
    rintro rfl
    rw [pieces_append_star hf, hfrag.pieces]
    by_cases hnil : f = []
    · subst hnil
      rw [isChain_nil_cons_iff]
      simp
    · rw [filter_ne_nil hnil]
      simp
  rw [hlast]
  constructor
  · intro hall
    by_cases hl : l = []
    · subst hl
      refine ⟨rfl, (hpieces rfl).mpr (by_contra fun hno => ?_)⟩
      obtain ⟨name, hname, htest, hglob⟩ := exists_fragTest_not_glob hf hfrag hno hslash hnul
      exact hglob ((hall name hname).mp htest)
    · obtain ⟨name, hname, hglob, htest⟩ := exists_glob_not_fragTest hf hfrag hl hslash hnul
      exact absurd ((hall name hname).mpr hglob) htest
  · rintro ⟨rfl, hchain⟩ name -
    show fragTest ⟨_, _, true⟩ name = true ↔ _
    rw [fragTest_iff_chain, glob_iff_spread hf hfrag]
    refine and_congr_right fun hfront => ?_
    constructor
    · rintro ⟨e, he⟩
      exact spread_of_chain ((hpieces rfl).mp hchain) hfront he
    · intro hspread
      exact (hspread.extend (List.drop_suffix _ name)).chain

theorem matchDirent_prefixes :
    fuzzyDirent ['a', '*', 'b', '*'] = some (.fuzzy ⟨[['a'], ['b'], []], false, true⟩) ∧
      ∀ name, EntryName name →
        (matchDirent (.fuzzy ⟨[['a'], ['b'], []], false, true⟩) name = true ↔
          Glob ['a', '*', 'b', '*'] name) :=
  ⟨by decide, (matchDirent_iff (by decide) (by decide) (by decide)).mpr (by decide)⟩

/-- `*.c` is not the pattern of `a.c.c`, and `ab*ba*` is that of `aba`. -/
theorem matchDirent_suffix :
    (fuzzyDirent ['*', '.', 'c'] = some (.fuzzy ⟨[['.', 'c']], true, false⟩) ∧
      EntryName ['a', '.', 'c', '.', 'c'] ∧ Glob ['*', '.', 'c'] ['a', '.', 'c', '.', 'c'] ∧
      matchDirent (.fuzzy ⟨[['.', 'c']], true, false⟩) ['a', '.', 'c', '.', 'c'] = false) ∧
    fuzzyDirent ['a', 'b', '*', 'b', 'a', '*'] =
        some (.fuzzy ⟨[['a', 'b'], ['b', 'a'], []], false, true⟩) ∧
      EntryName ['a', 'b', 'a'] ∧ ¬Glob ['a', 'b', '*', 'b', 'a', '*'] ['a', 'b', 'a'] ∧
      matchDirent (.fuzzy ⟨[['a', 'b'], ['b', 'a'], []], false, true⟩) ['a', 'b', 'a'] = true := by
  have hletters : ∀ s : Word, s ⊆ ['a', 'b', 'c', '.'] → 3 ≤ s.length → EntryName s :=
    fun s => .of_subset (by decide) (by decide)
  refine ⟨⟨by decide, hletters _ (by decide) (by decide), ?_, by decide⟩, by decide,
    hletters _ (by decide) (by decide), ?_, by decide⟩
  · exact .star ['a', '.', 'c'] ((glob_iff_of_notMem (by decide)).mpr rfl)
  · intro hglob
    obtain ⟨r, hr, h⟩ := (glob_append_iff (f := ['a', 'b']) (by decide)).mp hglob
    obtain ⟨r', hr', h⟩ := glob_star_iff.mp h
    obtain ⟨t, rfl, -⟩ := (glob_append_iff (f := ['b', 'a']) (by decide)).mp h
    have hle := hr'.length_le
    have hlen := congrArg List.length hr
    simp only [List.length_append, List.length_cons, List.length_nil] at hle hlen
    omega

end Lre
