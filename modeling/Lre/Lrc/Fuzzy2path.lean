import Lre.Lrc.Walk

/-!
# From a pattern to the walk

* `searchRoot`: the first part of `fuzzy2path`, up to the directory in its local buffer.
* `fuzzy2path`: the whole function.
* `rootOf`: the directory that a pattern asks for.
* **`searchRoot_iff`**: when the buffer holds this directory.
-/

namespace Lre

open Separated

/-- `DIR_DEPTH_MAX`. -/
def dirDepthMax : ℕ := 128

/-! ## The code -/

/-- The first loop of `fuzzy2path`, over what `strsep` returns; `none` is the return code
`-EINVAL`. -/
def readDirents : List Word → List FuzzyDirent → Option (List FuzzyDirent)
  | [], fdir => some fdir
  | token :: tokens, fdir =>
    if token = [] then readDirents tokens fdir
    else
      match fuzzyDirent token with
      | none => none
      | some dirent =>
        if fdir.length + 1 ≥ dirDepthMax then none else readDirents tokens (fdir ++ [dirent])

/-- The components in front of the first fuzzy one. -/
def literalNames : List FuzzyDirent → List Word
  | .normal name :: fdir => name :: literalNames fdir
  | _ => []

/-- A write to `buf` behind what is written; nothing is written at first. -/
def writeName (buf : Option OutText) (name : Word) : Option OutText :=
  some ((buf.getD .empty).write pathMax (name ++ ['/']))

/-- The text in `buf` after the second loop, over the components in front of the first fuzzy one;
`none` where nothing was written to it. -/
def rootBuf (path : Word) (names : List Word) : Option Word :=
  let buf : Option OutText := if path.head? = some '/' then some ⟨['/'], 1⟩ else none
  let buf := names.foldl writeName buf
  if 0 < names.length then buf.bind OutText.finish else buf.map (·.text)

/-- `fuzzy2path` as far as `buf` is filled, with the components; `none` for the return code
`-EINVAL`. -/
def searchRoot (path : Word) : Option (Option Word × List FuzzyDirent) :=
  (readDirents (path.splitOn '/') []).map fun fdir => (rootBuf path (literalNames fdir), fdir)

/-- `fuzzy2path`: its return code and `outpath`; `none` is the use of a buffer that nothing was
written to. -/
def fuzzy2path (fs : FileSystem) (path outpath : Word) : Option (ℤ × Word) :=
  match searchRoot path with
  | none => some (einval, outpath)
  | some (none, _) => none
  | some (some buf, fdir) =>
    let i := (literalNames fdir).length
    if i = fdir.length then some (0, outpath ++ buf.take pathArrMax)
    else do
      let (_, outpath) ← recurseDir fs fdir.length (fdir.drop i) buf i outpath
      if outpath = [] then some (einval, outpath)
      else if outpath.getLast? = some multipathSplitCh then some (0, outpath.dropLast)
      else some (0, outpath)

/-! ## The purpose -/

/-- The components of a path. -/
def components (path : Word) : List Word := (path.splitOn '/').filter (· ≠ [])

/-- The components in front of the first wildcard. -/
def literals (path : Word) : List Word := (components path).takeWhile fun name => '*' ∉ name

/-- Where a pattern is searched: the literal components, below the root for an absolute pattern, and
in the current directory for a relative one without any. -/
def rootOf (path : Word) : Word :=
  if path.head? = some '/' then '/' :: ['/'].intercalate (literals path)
  else if literals path = [] then ['.'] else ['/'].intercalate (literals path)

/-- The pattern has too many components, or one with too many pieces. -/
def Rejected (path : Word) : Prop :=
  dirDepthMax ≤ (components path).length ∨ ∃ name ∈ components path, fuzzyDirent name = none

variable {path token : Word} {tokens names : List Word} {fdir : List FuzzyDirent}

/-! ## Components -/

theorem fragLoop_literal {str : List Word} {cur : Word} (h : '*' ∉ token) :
    fragLoop str cur token = some (str ++ [cur ++ token]) := by
  induction token generalizing cur with
  | nil => rw [fragLoop, List.append_nil]
  | cons c token ih =>
    rw [List.mem_cons, not_or] at h
    rw [fragLoop, if_neg (Ne.symm h.1), ih h.2, List.append_assoc, List.singleton_append]

theorem fuzzyDirent_literal (h : '*' ∉ token) : fuzzyDirent token = some (.normal token) := by
  rw [fuzzyDirent, fragLoop_literal h]
  simp [h]

theorem literalNames_fuzzy {dirent : FuzzyDirent} (h : '*' ∈ token)
    (hdirent : fuzzyDirent token = some dirent) (fdir : List FuzzyDirent) :
    literalNames (dirent :: fdir) = [] := by
  rw [fuzzyDirent] at hdirent
  obtain ⟨str, -, hstr⟩ := Option.bind_eq_some_iff.mp hdirent
  rw [if_pos h] at hstr
  cases hstr
  rfl

theorem readDirents_eq (hlt : fdir.length < dirDepthMax) : readDirents tokens fdir =
    if fdir.length + (tokens.filter (· ≠ [])).length < dirDepthMax then
      ((tokens.filter (· ≠ [])).mapM fuzzyDirent).map (fdir ++ ·)
    else none := by
  induction tokens generalizing fdir with
  | nil =>
    rw [List.filter_nil, List.length_nil, Nat.add_zero, if_pos hlt, List.mapM_nil, readDirents]
    exact congrArg some (List.append_nil fdir).symm
  | cons token tokens ih =>
    rw [readDirents]
    by_cases hnil : token = []
    · subst hnil
      rw [if_pos rfl, ih hlt]
      rfl
    · rw [if_neg hnil, List.filter_cons_of_pos (by simpa using hnil), List.mapM_cons]
      cases hdirent : fuzzyDirent token with
      | none => exact (ite_self _).symm
      | some dirent =>
        dsimp only
        by_cases hfull : fdir.length + 1 ≥ dirDepthMax
        · rw [if_pos hfull, if_neg]
          rw [List.length_cons]
          omega
        · have hlt' : (fdir ++ [dirent]).length < dirDepthMax := by
            rw [List.length_append, List.length_singleton]
            omega
          rw [if_neg hfull, ih hlt', List.length_append, List.length_singleton, List.length_cons,
            Nat.add_assoc, Nat.add_comm 1]
          cases (tokens.filter (· ≠ [])).mapM fuzzyDirent with
          | none => rfl
          | some rest =>
            simp only [Option.map_some, Option.bind_eq_bind, Option.bind_some, Option.pure_def,
              List.append_assoc, List.singleton_append]

theorem mapM_fuzzyDirent_eq_none :
    names.mapM fuzzyDirent = none ↔ ∃ name ∈ names, fuzzyDirent name = none := by
  induction names with
  | nil => simp
  | cons name names ih =>
    rw [List.mapM_cons, List.exists_mem_cons_iff, ← ih]
    cases hname : fuzzyDirent name with
    | none => simp
    | some dirent => cases names.mapM fuzzyDirent <;> simp

theorem literalNames_mapM (h : names.mapM fuzzyDirent = some fdir) :
    literalNames fdir = names.takeWhile fun name => '*' ∉ name := by
  induction names generalizing fdir with
  | nil =>
    cases h
    rfl
  | cons name names ih =>
    rw [List.mapM_cons] at h
    obtain ⟨dirent, hdirent, h⟩ := Option.bind_eq_some_iff.mp h
    obtain ⟨rest, hrest, h⟩ := Option.bind_eq_some_iff.mp h
    cases h
    by_cases hstar : '*' ∈ name
    · rw [literalNames_fuzzy hstar hdirent, List.takeWhile_cons_of_neg]
      simpa using hstar
    · rw [fuzzyDirent_literal hstar] at hdirent
      cases hdirent
      rw [List.takeWhile_cons_of_pos (by simpa using hstar), literalNames, ih hrest]

theorem readDirents_components : readDirents (path.splitOn '/') [] =
    if dirDepthMax ≤ (components path).length then none
    else (components path).mapM fuzzyDirent := by
  rw [readDirents_eq (by decide), List.length_nil, Nat.zero_add]
  by_cases h : dirDepthMax ≤ (components path).length
  · rw [if_pos h]
    exact if_neg (Nat.not_lt.mpr h)
  · rw [if_neg h]
    refine (if_pos (Nat.not_le.mp h)).trans ?_
    show ((components path).mapM fuzzyDirent).map (fun l => [] ++ l) = _
    simp only [List.nil_append, Option.map_id']

/-! ## The buffer -/

theorem foldl_writeName (text : Word) (names : List Word) :
    names.foldl writeName (some (.ofText pathMax text)) =
      some (.ofText pathMax (text ++ terminated '/' names)) := by
  induction names generalizing text with
  | nil => rw [List.foldl_nil, terminated_nil, List.append_nil]
  | cons name names ih =>
    rw [List.foldl_cons, writeName, Option.getD_some, OutText.write_ofText, ih, terminated_cons,
      List.append_assoc]

theorem searchRoot_eq : searchRoot path =
    if dirDepthMax ≤ (components path).length then none
    else ((components path).mapM fuzzyDirent).map fun fdir =>
      (rootBuf path (literals path), fdir) := by
  rw [searchRoot, readDirents_components]
  by_cases h : dirDepthMax ≤ (components path).length
  · rw [if_pos h, if_pos h]
    rfl
  · rw [if_neg h, if_neg h]
    cases hfdir : (components path).mapM fuzzyDirent with
    | none => rfl
    | some fdir => rw [Option.map_some, Option.map_some, literalNames_mapM hfdir, literals]

theorem searchRoot_eq_none : searchRoot path = none ↔ Rejected path := by
  rw [searchRoot_eq, Rejected, ← mapM_fuzzyDirent_eq_none]
  split_ifs with h
  · exact iff_of_true rfl (.inl h)
  · rw [Option.map_eq_none_iff, or_iff_right h]

theorem searchRoot_some {buf : Option Word} (h : searchRoot path = some (buf, fdir)) :
    buf = rootBuf path (literals path) := by
  rw [searchRoot_eq] at h
  split_ifs at h
  obtain ⟨_, -, h⟩ := Option.map_eq_some_iff.mp h
  exact (Prod.mk.inj h).1.symm

/-- With literal components the buffer holds the directory, as far as there is room. -/
theorem rootBuf_of_ne_nil (hne : literals path ≠ []) :
    rootBuf path (literals path) = some ((rootOf path).take (pathMax - 1)) := by
  have hmax : 0 < pathMax := by decide
  rw [rootBuf, if_pos (List.length_pos_of_ne_nil hne)]
  by_cases habs : path.head? = some '/'
  · have hroot : (⟨['/'], 1⟩ : OutText) = .ofText pathMax ['/'] := rfl
    rw [if_pos habs, hroot, foldl_writeName, Option.bind_some,
      OutText.finish_ofText hmax (List.append_ne_nil_of_left_ne_nil (List.cons_ne_nil _ _) _),
      List.dropLast_append_of_ne_nil (terminated_eq_nil_iff.not.mpr hne), dropLast_terminated,
      rootOf, if_pos habs]
    rfl
  · obtain ⟨name, names, hnames⟩ := List.exists_cons_of_ne_nil hne
    have hfirst : writeName none name = some (.ofText pathMax (name ++ ['/'])) := by
      rw [writeName, Option.getD_none, OutText.empty_eq_ofText pathMax,
        OutText.write_ofText, List.nil_append]
    rw [if_neg habs, rootOf, if_neg habs, if_neg hne, hnames, List.foldl_cons, hfirst,
      foldl_writeName, Option.bind_some, ← terminated_cons,
      OutText.finish_ofText hmax (terminated_eq_nil_iff.not.mpr (List.cons_ne_nil _ _)),
      dropLast_terminated]

/-- Without literal components it holds the root of an absolute pattern, and nothing otherwise. -/
theorem rootBuf_nil : rootBuf path [] = if path.head? = some '/' then some ['/'] else none := by
  rw [rootBuf]
  by_cases habs : path.head? = some '/'
  · rw [if_pos habs, if_pos habs]
    rfl
  · rw [if_neg habs, if_neg habs]
    rfl

/-! ## The root of the search -/

/-- The pattern is refused, or the buffer holds the directory it asks for. -/
def RootDetermined (path : Word) : Prop :=
  searchRoot path = none ∨ ∃ fdir, searchRoot path = some (some (rootOf path), fdir)

/-- **The search starts in the directory that the pattern asks for exactly when the pattern is
refused, or is absolute or begins with a literal component, and that directory has a path that is
short enough.** -/
theorem searchRoot_iff : RootDetermined path ↔
    Rejected path ∨
      (path.head? = some '/' ∨ literals path ≠ []) ∧ (rootOf path).length < pathMax := by
  rw [RootDetermined, searchRoot_eq_none, or_congr_right']
  intro hok
  have hbuf : (∃ fdir, searchRoot path = some (some (rootOf path), fdir)) ↔
      rootBuf path (literals path) = some (rootOf path) := by
    constructor
    · rintro ⟨fdir, h⟩
      exact (searchRoot_some h).symm
    · intro hroot
      obtain ⟨⟨buf, fdir⟩, h⟩ := Option.ne_none_iff_exists'.mp (searchRoot_eq_none.not.mpr hok)
      exact ⟨fdir, by rw [h, searchRoot_some h, hroot]⟩
  rw [hbuf]
  by_cases hnil : literals path = []
  · rw [hnil, rootBuf_nil, or_iff_left (not_not.mpr rfl)]
    by_cases habs : path.head? = some '/'
    · have hroot : rootOf path = ['/'] := by rw [rootOf, if_pos habs, hnil]; rfl
      rw [if_pos habs, hroot]
      exact iff_of_true rfl ⟨habs, by decide⟩
    · rw [if_neg habs]
      exact iff_of_false (Option.some_ne_none _).symm fun h => habs h.1
  · rw [rootBuf_of_ne_nil hnil, Option.some.injEq, take_pred_eq_iff (by decide),
      and_iff_right (.inr hnil)]

/-- The patterns `*` and the empty one: the buffer is used as it is. -/
theorem searchRoot_unwritten : ¬RootDetermined ['*'] ∧ ¬RootDetermined [] := by
  have hstar : searchRoot ['*'] = some (none, [.fuzzy ⟨[[]], true, true⟩]) := by decide
  have hempty : searchRoot [] = some (none, []) := by decide
  constructor
  · rintro (h | ⟨fdir, h⟩) <;> rw [hstar] at h <;> cases h
  · rintro (h | ⟨fdir, h⟩) <;> rw [hempty] at h <;> cases h

end Lre
