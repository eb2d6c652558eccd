import Mathlib.Data.List.TakeWhile
import Lre.Grid
import Lre.Lrc.Fuzzy2path

/-!
# The searches of `fuzzypath`

* `fuzzypathExecute`: the call `fuzzypath`, over what `fuzzy2path` does with a path.
* `entrySearches`: where an entry of the argument is to be searched.
* **`fuzzypathExecute_iff`**: when every entry is searched where it is to be, and the result is the
  list of the successful searches.
-/

namespace Lre

open Separated Grid

/-- `PATH_CNT_MAX`. -/
def pathCntMax : ℕ := 1024

/-- `struct lrc_fuzzypath`. -/
structure LrcFuzzypath where
  basepath : Option Word
  path : Option Word
  isabspath : Bool

/-- `fuzzypath_constructor`. -/
def LrcFuzzypath.init : LrcFuzzypath := ⟨none, none, false⟩

/-- `arg_basepath_handler`, for a string. -/
def argBasepathHandler (str : Word) (fuzzypath : LrcFuzzypath) : LrcFuzzypath :=
  { fuzzypath with basepath := some str }

/-- `arg_path_handler`, for a string. -/
def argPathHandler (str : Word) (fuzzypath : LrcFuzzypath) : LrcFuzzypath :=
  { fuzzypath with
    path := some str
    isabspath := if str.head? = some '/' then true else fuzzypath.isabspath }

/-- The loop that splits a list of paths, `k` separators at most. -/
def splitMultipath : ℕ → Word → List Word
  | 0, ptr => [ptr]
  | k + 1, ptr =>
    match ptr.dropWhile (· ≠ multipathSplitCh) with
    | [] => [ptr]
    | _ :: p => ptr.takeWhile (· ≠ multipathSplitCh) :: splitMultipath k p

/-- The array of the entries of a list. -/
def pathArr (ptr : Word) : List Word := splitMultipath (pathCntMax - 1) ptr

/-- The searches so far, each with the index of its entry, and `outpath`. -/
structure Searched where
  searches : List (ℕ × Word)
  outpath : OutText

/-- The body of the loops: `path` is put together from the parts and searched. `none` is the store
of the terminator behind `path`. -/
def searchParts (find : Word → ℤ × Word) (j : ℕ) (parts : List Word) (run : Searched) :
    Option Searched :=
  let path := parts.foldl (OutText.write pathMax) .empty
  if path.len < pathMax then
    let (ret, tmppath) := find path.text
    some ⟨run.searches ++ [(j, path.text)],
      if ret ≠ 0 then run.outpath else run.outpath.addPath pathArrMax tmppath⟩
  else none

/-- What `fuzzypath_execute` returns, the value that it sets, and its searches. -/
structure FuzzypathResult where
  ret : ℤ
  val : Option Word
  searches : List (ℕ × Word)

/-- The loops of `fuzzypath_execute`: with base paths and no absolute path, under one base path
after the other. -/
def searchAll (find : Word → ℤ × Word) (basepath : Option Word) (isabspath : Bool)
    (path : Word) : Option Searched :=
  let patharr := (pathArr path).zipIdx
  match basepath, isabspath with
  | some basepath, false =>
    (pathArr basepath).foldlM (fun run base =>
      patharr.foldlM (fun run entry =>
        searchParts find entry.2 [base ++ ['/'], entry.1] run) run) ⟨[], .empty⟩
  | _, _ => patharr.foldlM (fun run entry => searchParts find entry.2 [entry.1] run) ⟨[], .empty⟩

/-- `fuzzypath_execute`. `find` are the return code and the text of `fuzzy2path` for a path. -/
def fuzzypathExecute (find : Word → ℤ × Word) (fuzzypath : LrcFuzzypath) :
    Option FuzzypathResult :=
  match fuzzypath.path with
  | none => some ⟨einval, none, []⟩
  | some path =>
    (searchAll find fuzzypath.basepath fuzzypath.isabspath path).map fun run =>
      ⟨0, some (run.outpath.finish.getD run.outpath.text), run.searches⟩

/-! ## The purpose -/

/-- Where an entry is searched: as it stands, or under every base path. -/
def searchesOf (bases : Option (List Word)) (isabs : Bool) (entry : Word) : List Word :=
  match bases with
  | none => [entry]
  | some bases => if isabs then [entry] else bases.map (joinPath · entry)

/-- Where an entry is to be searched: an absolute one as it stands, a relative one under every base
path, when there are any. -/
def entrySearches (bases : Option (List Word)) (entry : Word) : List Word :=
  searchesOf bases (entry.head? = some '/') entry

/-- The texts of the successful searches, in their order. -/
def successes (find : Word → ℤ × Word) (paths : List Word) : List Word :=
  paths.filterMap fun path => if (find path).1 = 0 then some (find path).2 else none

/-- The entries of a list. -/
def entries (list : Word) : List Word := list.splitOn multipathSplitCh

/-- The searches of the entries, one entry after the other. -/
def searchesInOrder (searches : Word → List Word) (es : List Word) : List (ℕ × Word) :=
  es.zipIdx.flatMap fun entry => (searches entry.1).map (entry.2, ·)

/-- The object of a call with the arguments. -/
def fuzzypathOf (basepath : Option Word) (path : Word) : LrcFuzzypath :=
  argPathHandler path (basepath.elim .init fun str => argBasepathHandler str .init)

/-- Every entry is searched where it is to be, each at its turn, and nothing else is searched; the
value is the list of the successful searches in their order. -/
structure SearchesEntries (find : Word → ℤ × Word) (basepath : Option Word) (path : Word)
    (result : FuzzypathResult) : Prop where
  ret : result.ret = 0
  entry : ∀ j e, (entries path)[j]? = some e →
    (result.searches.filter fun s => decide (s.1 = j)).map (·.2) =
      entrySearches (basepath.map entries) e
  lt : ∀ s ∈ result.searches, s.1 < (entries path).length
  val : result.val = some ([multipathSplitCh].intercalate
    (successes find (result.searches.map (·.2))))

variable {find : Word → ℤ × Word} {basepath : Option Word} {path ptr entry : Word}
  {es : List Word} {j : ℕ}

/-! ## Splitting -/

theorem splitMultipath_of_notMem {k : ℕ} (hsep : multipathSplitCh ∉ ptr) :
    splitMultipath k ptr = entries ptr := by
  rw [entries, List.splitOn_eq_singleton hsep]
  cases k with
  | zero => rfl
  | succ k =>
    have hdrop : ptr.dropWhile (· ≠ multipathSplitCh) = [] :=
      List.dropWhile_eq_nil_iff.mpr fun c hc => decide_eq_true fun h => hsep (h ▸ hc)
    rw [splitMultipath, hdrop]

theorem splitMultipath_eq {k : ℕ} (hle : (entries ptr).length ≤ k + 1) :
    splitMultipath k ptr = entries ptr := by
  induction k generalizing ptr with
  | zero =>
    refine splitMultipath_of_notMem fun hsep => ?_
    obtain ⟨first, rest, rfl, hfirst⟩ := List.eq_append_cons_of_mem hsep
    rw [entries, List.splitOn_append_cons_self_of_not_mem hfirst, List.length_cons] at hle
    have hpos := List.length_pos_of_ne_nil (List.splitOn_ne_nil multipathSplitCh rest)
    omega
  | succ k ih =>
    by_cases hsep : multipathSplitCh ∈ ptr
    · obtain ⟨first, rest, rfl, hfirst⟩ := List.eq_append_cons_of_mem hsep
      have hwhile : ∀ c ∈ first, decide (c ≠ multipathSplitCh) = true := fun c hc =>
        decide_eq_true fun h => hfirst (h ▸ hc)
      have hdrop : (first ++ multipathSplitCh :: rest).dropWhile (· ≠ multipathSplitCh) =
          multipathSplitCh :: rest := by
        rw [List.dropWhile_append_of_pos hwhile]
        rfl
      have htake : (first ++ multipathSplitCh :: rest).takeWhile (· ≠ multipathSplitCh) =
          first := by
        rw [List.takeWhile_append_of_pos hwhile]
        exact List.append_nil first
      rw [entries, List.splitOn_append_cons_self_of_not_mem hfirst] at hle ⊢
      rw [splitMultipath, hdrop, htake]
      exact congrArg _ (ih (Nat.le_of_succ_le_succ hle))
    · exact splitMultipath_of_notMem hsep

/-! ## The loops -/

/-- A step that makes the searches one after the other, unless one of them has a path that is too
long. -/
def Appends (find : Word → ℤ × Word) (step : Searched → Option Searched)
    (searches : List (ℕ × Word)) : Prop :=
  ∀ (before : List (ℕ × Word)) (text : Word), step ⟨before, .ofText pathArrMax text⟩ =
    if ∀ s ∈ searches, s.2.length < pathMax then
      some ⟨before ++ searches, .ofText pathArrMax (text ++
        terminated multipathSplitCh (successes find (searches.map (·.2))))⟩
    else none

theorem appends_searchParts (find : Word → ℤ × Word) (j : ℕ) (parts : List Word) :
    Appends find (searchParts find j parts) [(j, parts.flatten)] := by
  intro before text
  have hpath : parts.foldl (OutText.write pathMax) .empty = .ofText pathMax parts.flatten := by
    rw [OutText.empty_eq_ofText pathMax, OutText.foldl_write, List.nil_append]
  have hlen : (OutText.ofText pathMax parts.flatten).len < pathMax ↔
      parts.flatten.length < pathMax := by
    show min _ _ < _ ↔ _
    omega
  rw [searchParts]
  simp only [hpath, hlen, List.forall_mem_singleton, List.map_cons, List.map_nil]
  by_cases hshort : parts.flatten.length < pathMax
  · have htext : (OutText.ofText pathMax parts.flatten).text = parts.flatten :=
      (take_pred_eq_iff (by decide)).mpr hshort
    rw [if_pos hshort, if_pos hshort, htext, successes, List.filterMap_cons, List.filterMap_nil]
    by_cases hret : (find parts.flatten).1 = 0
    · rw [if_neg (not_not.mpr hret), if_pos hret, OutText.addPath, OutText.write_ofText,
        terminated_cons, terminated_nil, List.append_nil]
    · rw [if_pos hret, if_neg hret, terminated_nil, List.append_nil]
  · rw [if_neg hshort, if_neg hshort]

theorem Appends.nil : Appends find some [] := by
  intro before text
  simp [successes, terminated_nil]

theorem Appends.bind {f g : Searched → Option Searched} {ss ts : List (ℕ × Word)}
    (hf : Appends find f ss) (hg : Appends find g ts) :
    Appends find (fun run => (f run).bind g) (ss ++ ts) := by
  intro before text
  dsimp only
  rw [hf before text]
  simp only [List.forall_mem_append]
  by_cases hshort : ∀ s ∈ ss, s.2.length < pathMax
  · rw [if_pos hshort, Option.bind_some, hg]
    simp only [and_iff_right hshort, List.map_append, successes, List.filterMap_append,
      terminated_append, List.append_assoc]
  · rw [if_neg hshort, if_neg fun h => hshort h.1, Option.bind_none]

theorem Appends.foldlM {α : Type} {step : Searched → α → Option Searched}
    {searches : α → List (ℕ × Word)} (h : ∀ a, Appends find (step · a) (searches a))
    (l : List α) : Appends find (fun run => l.foldlM step run) (l.flatMap searches) := by
  induction l with
  | nil => exact .nil
  | cons a l ih => exact (h a).bind ih

/-! ## The call -/

/-- The searches that are made for split lists: as the entries stand, or under one base path after
the other. -/
def madeSearches (bases : Option (List Word)) (isabs : Bool) (es : List Word) : List (ℕ × Word) :=
  match bases, isabs with
  | some bases, false => outer joinPath bases es
  | _, _ => outer (fun _ e => e) [()] es

theorem Appends.result {step : Searched → Option Searched} {searches : List (ℕ × Word)}
    (h : Appends find step searches) :
    (step ⟨[], .empty⟩).map (fun run => (⟨0,
        some (run.outpath.finish.getD run.outpath.text), run.searches⟩ : FuzzypathResult)) =
      if ∀ s ∈ searches, s.2.length < pathMax then
        some ⟨0, some (([multipathSplitCh].intercalate
          (successes find (searches.map (·.2)))).take (pathArrMax - 1)), searches⟩
      else none := by
  rw [OutText.empty_eq_ofText pathArrMax, h]
  by_cases hshort : ∀ s ∈ searches, s.2.length < pathMax
  · rw [if_pos hshort, if_pos hshort, Option.map_some, List.nil_append, List.nil_append]
    generalize successes find (searches.map (·.2)) = texts
    by_cases hnil : texts = []
    · subst hnil
      rfl
    · rw [OutText.finish_ofText (by decide) (terminated_eq_nil_iff.not.mpr hnil),
        dropLast_terminated, Option.getD_some]
  · rw [if_neg hshort, if_neg hshort, Option.map_none]

theorem fuzzypathExecute_eq (hpath : (entries path).length < pathCntMax)
    (hbase : ∀ str ∈ basepath, (entries str).length < pathCntMax) (isabs : Bool) :
    fuzzypathExecute find ⟨basepath, some path, isabs⟩ =
      if ∀ s ∈ madeSearches (basepath.map entries) isabs (entries path), s.2.length < pathMax then
        some ⟨0, some (([multipathSplitCh].intercalate (successes find
            ((madeSearches (basepath.map entries) isabs (entries path)).map (·.2)))).take
              (pathArrMax - 1)),
          madeSearches (basepath.map entries) isabs (entries path)⟩
      else none := by
  have hsplit : ∀ {str : Word}, (entries str).length < pathCntMax → pathArr str = entries str :=
    fun hlt => splitMultipath_eq (Nat.le_of_lt hlt)
  -- the entries as they stand
  have hplain : Appends find (fun run => (entries path).zipIdx.foldlM (fun run entry =>
      searchParts find entry.2 [entry.1] run) run) (outer (fun (_ : Unit) e => e) [()]
        (entries path)) := by
    have h := Appends.foldlM (fun entry : Word × ℕ =>
      appends_searchParts find entry.2 [entry.1]) (entries path).zipIdx
    simp only [List.flatten_cons, List.flatten_nil, List.append_nil, ← List.map_eq_flatMap] at h
    rwa [outer, List.flatMap_singleton]
  show (searchAll find basepath isabs path).map _ = _
  unfold searchAll
  rw [hsplit hpath]
  cases basepath with
  | none => exact hplain.result
  | some basepath =>
    cases isabs with
    | true => exact hplain.result
    | false =>
      -- every entry under one base path after the other
      have hbases := Appends.foldlM (fun base : Word => Appends.foldlM (fun entry : Word × ℕ =>
        appends_searchParts find entry.2 [base ++ ['/'], entry.1])
          (entries path).zipIdx) (entries basepath)
      have hjoin : ∀ (base : Word) (entry : Word × ℕ),
          [base ++ ['/'], entry.1].flatten = joinPath base entry.1 := fun base entry => by
        simp [joinPath]
      simp only [hjoin, ← List.map_eq_flatMap] at hbases
      dsimp only
      rw [hsplit (hbase basepath rfl)]
      exact hbases.result

/-! ## What the call searches -/

section Made

variable {bases : Option (List Word)} {isabs : Bool}

theorem filter_madeSearches (he : es[j]? = some entry) :
    ((madeSearches bases isabs es).filter fun s => decide (s.1 = j)).map (·.2) =
      searchesOf bases isabs entry := by
  unfold madeSearches
  cases bases with
  | none => exact filter_outer _ _ he
  | some bases =>
    cases isabs with
    | false => exact filter_outer _ _ he
    | true => exact filter_outer _ _ he

theorem fst_lt_of_mem_madeSearches {s : ℕ × Word} (h : s ∈ madeSearches bases isabs es) :
    s.1 < es.length := by
  unfold madeSearches at h
  cases bases with
  | none => exact fst_lt_of_mem_outer _ _ h
  | some bases =>
    cases isabs with
    | false => exact fst_lt_of_mem_outer _ _ h
    | true => exact fst_lt_of_mem_outer _ _ h

theorem inner_joinPath (bases : List Word) :
    inner joinPath bases es = searchesInOrder (searchesOf (some bases) false) es := by
  refine congrArg (List.flatMap · _) (funext fun entry => ?_)
  simp only [searchesOf, Bool.false_eq_true, if_false, List.map_map]
  rfl

theorem outer_entry : outer (fun (_ : Unit) (e : Word) => e) [()] es =
    searchesInOrder (fun entry => [entry]) es :=
  (outer_eq_inner_iff _ _ ).mpr (.inl (Nat.le_refl 1))

theorem madeSearches_perm :
    (madeSearches bases isabs es).Perm (searchesInOrder (searchesOf bases isabs) es) := by
  unfold madeSearches
  cases bases with
  | none => rw [outer_entry]; rfl
  | some bases =>
    cases isabs with
    | false =>
      rw [← inner_joinPath]
      exact outer_perm_inner _ _ _
    | true => rw [outer_entry]; rfl

/-- They come in the order of the entries when there are no base paths to go through, or one, or one
entry. -/
theorem madeSearches_eq_iff : madeSearches bases isabs es =
      searchesInOrder (searchesOf bases isabs) es ↔
    (∀ bs ∈ bases, isabs = true ∨ bs.length ≤ 1 ∨ es.length ≤ 1) := by
  unfold madeSearches
  cases bases with
  | none => rw [outer_entry]; simp; rfl
  | some bases =>
    cases isabs with
    | false =>
      rw [← inner_joinPath]
      simp [outer_eq_inner_iff]
    | true => rw [outer_entry]; simp; rfl

theorem map_snd_searchesInOrder (searches : Word → List Word) (es : List Word) :
    (searchesInOrder searches es).map (·.2) = es.flatMap searches := by
  have hfst : es.zipIdx.map (·.1) = es := List.zipIdx_map_fst 0 es
  rw [searchesInOrder, List.map_flatMap]
  simp only [List.map_map]
  conv_rhs => rw [← hfst, List.flatMap_map]
  refine congrArg (List.flatMap · _) (funext fun entry => ?_)
  exact List.map_id _

end Made

/-! ## Absolute and relative entries -/

theorem fuzzypathOf_eq : fuzzypathOf basepath path =
    ⟨basepath, some path, decide (path.head? = some '/')⟩ := by
  cases basepath with
  | none =>
    by_cases habs : path.head? = some '/' <;> simp [fuzzypathOf, argPathHandler, LrcFuzzypath.init,
      habs]
  | some str =>
    by_cases habs : path.head? = some '/' <;> simp [fuzzypathOf, argPathHandler,
      argBasepathHandler, LrcFuzzypath.init, habs]

theorem head?_entries (path : Word) : ∃ first rest, entries path = first :: rest ∧
    (first.head? = some '/' ↔ path.head? = some '/') := by
  cases path with
  | nil => exact ⟨[], [], List.splitOn_nil _, Iff.rfl⟩
  | cons c path =>
    obtain ⟨first, rest, hsplit, -, -⟩ := @splitOn_begins _ _ multipathSplitCh path
    rw [entries, List.splitOn_cons_eq_if_modifyHead, hsplit]
    by_cases hc : c = multipathSplitCh
    · subst hc
      refine ⟨[], first :: rest, if_pos (beq_self_eq_true _), iff_of_false (by decide) fun h => ?_⟩
      exact absurd (Option.some.inj h) (by decide)
    · exact ⟨c :: first, rest, if_neg (by simpa using hc), Iff.rfl⟩

theorem searchesOf_inj {bases : List Word} (hne : bases ≠ []) {a b : Bool}
    (h : searchesOf (some bases) a entry = searchesOf (some bases) b entry) : a = b := by
  have hno : ¬bases.map (joinPath · entry) = [entry] := by
    intro heq
    obtain ⟨base, rest, rfl⟩ := List.exists_cons_of_ne_nil hne
    have hlen : (joinPath base entry).length = entry.length :=
      congrArg List.length (List.cons.inj heq).1
    rw [joinPath, List.length_append, List.length_cons] at hlen
    omega
  cases a with
  | false =>
    cases b with
    | false => rfl
    | true => exact absurd h hno
  | true =>
    cases b with
    | false => exact absurd h.symm hno
    | true => rfl

/-- All entries are absolute, or all are relative, unless there are no base paths. -/
def Uniform (basepath : Option Word) (path : Word) : Prop :=
  basepath = none ∨ (∀ e ∈ entries path, e.head? = some '/') ∨
    ∀ e ∈ entries path, e.head? ≠ some '/'

/-- The first letter of the list speaks for every entry. -/
theorem uniform_iff : Uniform basepath path ↔
    ∀ e ∈ entries path, searchesOf (basepath.map entries) (path.head? = some '/') e =
      entrySearches (basepath.map entries) e := by
  obtain ⟨first, rest, hentries, hfirst⟩ := head?_entries path
  have hmem : first ∈ entries path := hentries ▸ List.mem_cons_self
  cases basepath with
  | none => exact iff_of_true (.inl rfl) fun e _ => rfl
  | some str =>
    have hne : entries str ≠ [] := List.splitOn_ne_nil _ _
    constructor
    · rintro (h | h | h) e he
      · cases h
      · rw [entrySearches]
        simp only [h e he, hfirst.mp (h first hmem)]
      · have hpath : ¬path.head? = some '/' := fun hp => h first hmem (hfirst.mpr hp)
        rw [entrySearches, decide_eq_false hpath, decide_eq_false (h e he)]
    · intro h
      refine .inr ?_
      by_cases hpath : path.head? = some '/'
      · refine .inl fun e he => of_decide_eq_true ?_
        rw [← searchesOf_inj hne (h e he)]
        exact decide_eq_true hpath
      · refine .inr fun e he => of_decide_eq_false ?_
        rw [← searchesOf_inj hne (h e he)]
        exact decide_eq_false hpath

/-! ## The verdict -/

/-- The entries are uniform, every path to be searched is shorter than the buffer, and the texts
that are found fit into the result. -/
structure Searchable (find : Word → ℤ × Word) (basepath : Option Word) (path : Word) : Prop where
  uniform : Uniform basepath path
  short : ∀ e ∈ entries path, ∀ p ∈ entrySearches (basepath.map entries) e, p.length < pathMax
  room : (terminated multipathSplitCh (successes find
    ((entries path).flatMap (entrySearches (basepath.map entries))))).length ≤ pathArrMax

/-- There are no base paths to go through, or one, or one entry. -/
def OneByOne (basepath : Option Word) (path : Word) : Prop :=
  ∀ str ∈ basepath, path.head? = some '/' ∨ (entries str).length ≤ 1 ∨ (entries path).length ≤ 1

theorem length_terminated_perm {ps qs : List Word} (h : ps.Perm qs) :
    (terminated multipathSplitCh (successes find ps)).length =
      (terminated multipathSplitCh (successes find qs)).length :=
  ((h.filterMap _).map _).flatten.length_eq

theorem length_intercalate_lt_iff {texts : List Word} {max : ℕ} (hmax : 0 < max) :
    ([multipathSplitCh].intercalate texts).length < max ↔
      (terminated multipathSplitCh texts).length ≤ max := by
  by_cases hnil : texts = []
  · subst hnil
    exact iff_of_true hmax (Nat.zero_le _)
  · rw [length_terminated hnil]
    omega

/-- The searches that the call makes. -/
def callSearches (basepath : Option Word) (path : Word) : List (ℕ × Word) :=
  madeSearches (basepath.map entries) (path.head? = some '/') (entries path)

/-- What the call returns when it makes them all. -/
def callResult (find : Word → ℤ × Word) (basepath : Option Word) (path : Word) : FuzzypathResult :=
  ⟨0, some (([multipathSplitCh].intercalate
    (successes find ((callSearches basepath path).map (·.2)))).take (pathArrMax - 1)),
    callSearches basepath path⟩

theorem callResult_iff : SearchesEntries find basepath path (callResult find basepath path) ↔
    Uniform basepath path ∧ (terminated multipathSplitCh
      (successes find ((callSearches basepath path).map (·.2)))).length ≤ pathArrMax := by
  have hmax : 0 < pathArrMax := by decide
  rw [uniform_iff, ← length_intercalate_lt_iff hmax, ← take_pred_eq_iff hmax]
  constructor
  · intro h
    refine ⟨fun e he => ?_, Option.some.inj h.val⟩
    obtain ⟨j, hj⟩ := List.mem_iff_getElem?.mp he
    rw [← h.entry j e hj]
    exact (filter_madeSearches hj).symm
  · rintro ⟨huniform, hroom⟩
    refine ⟨rfl, fun j e hj => ?_, fun s hs => fst_lt_of_mem_madeSearches hs, congrArg some hroom⟩
    rw [← huniform e (List.mem_of_getElem? hj)]
    exact filter_madeSearches hj

theorem searchesInOrder_of_uniform (huniform : Uniform basepath path) :
    searchesInOrder (searchesOf (basepath.map entries) (path.head? = some '/')) (entries path) =
      searchesInOrder (entrySearches (basepath.map entries)) (entries path) := by
  refine List.flatMap_congr fun entry hentry => ?_
  rw [uniform_iff.mp huniform entry.1 (List.fst_mem_of_mem_zipIdx hentry)]

theorem callSearches_perm (huniform : Uniform basepath path) :
    ((callSearches basepath path).map (·.2)).Perm
      ((entries path).flatMap (entrySearches (basepath.map entries))) := by
  rw [← map_snd_searchesInOrder, ← searchesInOrder_of_uniform huniform]
  exact madeSearches_perm.map _

/-- The call makes its searches and they are the right ones. -/
theorem searchable_iff : (∀ s ∈ callSearches basepath path, s.2.length < pathMax) ∧
    SearchesEntries find basepath path (callResult find basepath path) ↔
      Searchable find basepath path := by
  rw [callResult_iff]
  constructor
  · rintro ⟨hshort, huniform, hroom⟩
    have hperm := callSearches_perm huniform
    refine ⟨huniform, fun e he p hp => ?_, length_terminated_perm hperm ▸ hroom⟩
    obtain ⟨s, hs, rfl⟩ := List.mem_map.mp (hperm.mem_iff.mpr (List.mem_flatMap.mpr ⟨e, he, hp⟩))
    exact hshort s hs
  · rintro ⟨huniform, hshort, hroom⟩
    have hperm := callSearches_perm huniform
    refine ⟨fun s hs => ?_, huniform, (length_terminated_perm hperm).symm ▸ hroom⟩
    obtain ⟨e, he, hp⟩ := List.mem_flatMap.mp (hperm.mem_iff.mp (List.mem_map_of_mem hs))
    exact hshort e he _ hp

theorem callSearches_eq_iff (huniform : Uniform basepath path) : callSearches basepath path =
      searchesInOrder (entrySearches (basepath.map entries)) (entries path) ↔
    OneByOne basepath path := by
  rw [callSearches, ← searchesInOrder_of_uniform huniform, madeSearches_eq_iff, OneByOne]
  cases basepath <;> simp

/-- **Every entry is searched where it is to be, and the value is the list of what is found, exactly
when the entries are all absolute or all relative (or there are no base paths), the paths are short
enough for their buffer and the texts fit into the result. The searches come entry by entry exactly
when, besides, there are no base paths to go through, or one, or one entry.** -/
theorem fuzzypathExecute_iff (find : Word → ℤ × Word)
    (hpath : (entries path).length < pathCntMax)
    (hbase : ∀ str ∈ basepath, (entries str).length < pathCntMax) :
    ((∃ result, fuzzypathExecute find (fuzzypathOf basepath path) = some result ∧
        SearchesEntries find basepath path result) ↔ Searchable find basepath path) ∧
      ((∃ result, fuzzypathExecute find (fuzzypathOf basepath path) = some result ∧
          SearchesEntries find basepath path result ∧ result.searches =
            searchesInOrder (entrySearches (basepath.map entries)) (entries path)) ↔
        Searchable find basepath path ∧ OneByOne basepath path) := by
  have hexec : fuzzypathExecute find (fuzzypathOf basepath path) =
      if ∀ s ∈ callSearches basepath path, s.2.length < pathMax then
        some (callResult find basepath path) else none := by
    rw [fuzzypathOf_eq]
    exact fuzzypathExecute_eq hpath hbase _
  rw [hexec, ← searchable_iff]
  by_cases hshort : ∀ s ∈ callSearches basepath path, s.2.length < pathMax
  · rw [if_pos hshort]
    simp only [Option.some.injEq, exists_eq_left', and_iff_right hshort]
    refine ⟨trivial, and_congr_right fun hresult => ?_⟩
    exact callSearches_eq_iff (callResult_iff.mp hresult).1
  · rw [if_neg hshort]
    exact ⟨iff_of_false (by simp) fun h => hshort h.1, iff_of_false (by simp) fun h => hshort h.1.1⟩

/-- The file `b/a` is found, and nothing else. -/
def findA (path : Word) : ℤ × Word :=
  if path = ['b', '/', 'a'] then (0, path) else (-1, [])

theorem fuzzypathExecute_base : ∃ result,
    fuzzypathExecute findA (fuzzypathOf (some ['b']) ['a', ';', 'c']) = some result ∧
      SearchesEntries findA (some ['b']) ['a', ';', 'c'] result ∧ result.searches =
        searchesInOrder (entrySearches ((some ['b']).map entries)) (entries ['a', ';', 'c']) := by
  have hbase : entries ['b'] = [['b']] := by rfl
  have hpath : entries ['a', ';', 'c'] = [['a'], ['c']] := by rfl
  have hlen : ∀ str ∈ some ['b'], (entries str).length < pathCntMax := by
    simp [hbase, pathCntMax]
  refine (fuzzypathExecute_iff findA (by rw [hpath]; decide) hlen).2.mpr ⟨⟨?_, ?_, ?_⟩, ?_⟩
  · exact .inr (.inr (by rw [hpath]; decide))
  · rw [hpath, Option.map_some, hbase]
    decide
  · rw [hpath, Option.map_some, hbase]
    decide
  · rintro str ⟨rfl⟩
    exact .inr (.inl (by rw [hbase]; decide))

/-- The relative entry of a list that begins with an absolute one is not searched under the base
path. -/
theorem fuzzypathExecute_mixed : ¬∃ result,
    fuzzypathExecute findA (fuzzypathOf (some ['b']) ['/', 'x', ';', 'a']) = some result ∧
      SearchesEntries findA (some ['b']) ['/', 'x', ';', 'a'] result := by
  rintro ⟨result, hresult, h⟩
  have hpath : entries ['/', 'x', ';', 'a'] = [['/', 'x'], ['a']] := by rfl
  have hentry := h.entry 1 ['a'] (by rw [hpath]; rfl)
  cases hresult
  revert hentry
  decide

end Lre
