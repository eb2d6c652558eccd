import Lre.Lrc.Network
import Lre.Lrc.Searches

/-!
# Splicing paths

* `splicepathExecute`: the call `splicepath`, and what it sets (`splicepathExecute_eq`).
* `fileName`: where a path begins and the components it goes through; `SameFiles`: two lists of
  paths with the same names (`fuzzy2path_literal`: a literal pattern is its own result).
* `FollowsLists`: a list of base paths is spliced entry by entry, as `fuzzypath` searches it.
* **`splicepathExecute_iff`**: exactly when it is.
-/

namespace Lre

open Separated

/-! ## The code -/

/-- `struct lrc_splicepath`. -/
structure LrcSplicepath where
  basepath : Option Word
  path : Option Word

namespace LrcSplicepath

/-- `splicepath_constructor`. -/
def init : LrcSplicepath := ⟨none, none⟩

/-- `arg_basepath_handler`, for a string. -/
def argBasepathHandler (str : Word) (splicepath : LrcSplicepath) : LrcSplicepath :=
  { splicepath with basepath := some str }

/-- `arg_path_handler`, for a string. -/
def argPathHandler (str : Word) (splicepath : LrcSplicepath) : LrcSplicepath :=
  { splicepath with path := some str }

end LrcSplicepath

/-- The buffer `path` of `splicepath_execute`. -/
def splicepathText (splicepath : LrcSplicepath) : OutText :=
  let path := match splicepath.basepath with
    | some basepath => OutText.empty.write pathMax basepath
    | none => .empty
  match splicepath.path with
  | some str => if str.length > 0 then path.write pathMax ('/' :: str) else path
  | none => path

/-- `splicepath_execute`: its return code and the string it sets. -/
def splicepathExecute (splicepath : LrcSplicepath) : BitVec 32 × Option Word :=
  let path := splicepathText splicepath
  if path.text.length = 0 then (lreRetError, none) else (0, some path.text)

/-! ## The purpose -/

/-- The object of a call with both arguments. -/
def splicepathOf (basepath path : Word) : LrcSplicepath :=
  LrcSplicepath.argPathHandler path (LrcSplicepath.argBasepathHandler basepath .init)

/-- The list of the directories, each joined with the path. -/
def joinedList (basepath path : Word) : Word :=
  [multipathSplitCh].intercalate ((entries basepath).map (joinPath · path))

/-- A relative path without wildcards, one alone. -/
structure RelativePath (path : Word) : Prop where
  ne_nil : path ≠ []
  relative : path.head? ≠ some '/'
  literal : '*' ∉ path
  single : multipathSplitCh ∉ path

/-- Where a path begins, and the components it goes through. -/
def fileName (path : Word) : Bool × List Word := (path.head? = some '/', components path)

/-- The entries of the lists have the same names one by one. -/
def SameFiles (list list' : Word) : Prop :=
  (entries list).map fileName = (entries list').map fileName

/-- `find` gives what `fuzzy2path` returns in a file system, wherever it returns. -/
def FindsIn (fs : FileSystem) (find : Word → ℤ × Word) : Prop :=
  ∀ path, ∀ result ∈ fuzzy2path fs path [], find path = result

/-- The joined list names the files that `fuzzypath` gives for the same arguments. -/
def NamesFound (find : Word → ℤ × Word) (basepath path : Word) : Prop :=
  ∃ result, ∃ list ∈ result.val,
    fuzzypathExecute find (fuzzypathOf (some basepath) path) = some result ∧
      SameFiles (joinedList basepath path) list

/-- The value is the list of the directories joined with the path, and names the files that
`fuzzypath` gives, whatever the file system is. -/
structure FollowsLists (basepath path : Word) : Prop where
  joined : splicepathExecute (splicepathOf basepath path) = (0, some (joinedList basepath path))
  files : ∀ fs find, FindsIn fs find → NamesFound find basepath path

variable {fs : FileSystem} {find : Word → ℤ × Word} {basepath path ptr name : Word}
  {names : List Word} {fdir : List FuzzyDirent} {c : Char}

/-! ## The text -/

theorem splicepathText_eq (hne : path ≠ []) :
    splicepathText (splicepathOf basepath path) = .ofText pathMax (joinPath basepath path) := by
  show (if path.length > 0 then (OutText.empty.write pathMax basepath).write pathMax ('/' :: path)
    else _) = _
  rw [if_pos (List.length_pos_of_ne_nil hne), OutText.empty_eq_ofText pathMax,
    OutText.write_ofText, OutText.write_ofText, List.nil_append]
  rfl

theorem splicepathExecute_eq (hne : path ≠ []) :
    splicepathExecute (splicepathOf basepath path) =
      (0, some ((joinPath basepath path).take (pathMax - 1))) := by
  have hlen : (OutText.ofText pathMax (joinPath basepath path)).text.length ≠ 0 := by
    rw [OutText.ofText, List.length_take, joinPath, List.length_append, List.length_cons, pathMax]
    omega
  rw [splicepathExecute, splicepathText_eq hne]
  exact if_neg hlen

theorem length_joinedList : (joinedList basepath path).length =
    basepath.length + (entries basepath).length * (path.length + 1) := by
  have hne : entries basepath ≠ [] := List.splitOn_ne_nil _ _
  have hbase : (terminated multipathSplitCh (entries basepath)).length = basepath.length + 1 := by
    rw [length_terminated hne, entries, List.intercalate_splitOn]
  have hmap : (terminated multipathSplitCh ((entries basepath).map (· ++ '/' :: path))).length =
      (joinedList basepath path).length + 1 :=
    length_terminated (List.map_eq_nil_iff.not.mpr hne)
  rw [length_terminated_map, hbase, List.length_cons] at hmap
  omega

theorem entries_of_notMem (hsep : multipathSplitCh ∉ ptr) : entries ptr = [ptr] :=
  List.splitOn_eq_singleton hsep

theorem two_le_length_entries (hsep : multipathSplitCh ∈ ptr) : 2 ≤ (entries ptr).length := by
  obtain ⟨first, rest, rfl, hfirst⟩ := List.eq_append_cons_of_mem hsep
  rw [entries, List.splitOn_append_cons_self_of_not_mem hfirst, List.length_cons]
  exact Nat.succ_le_succ (List.length_pos_of_ne_nil (List.splitOn_ne_nil _ _))

theorem joinedList_of_notMem (hsep : multipathSplitCh ∉ basepath) :
    joinedList basepath path = joinPath basepath path := by
  rw [joinedList, entries_of_notMem hsep, List.map_singleton, List.intercalate_singleton]

/-- The value is the joined list for one directory only. -/
theorem spliced_iff (hne : path ≠ []) :
    splicepathExecute (splicepathOf basepath path) = (0, some (joinedList basepath path)) ↔
      multipathSplitCh ∉ basepath ∧ (joinPath basepath path).length < pathMax := by
  rw [splicepathExecute_eq hne, Prod.mk.injEq, and_iff_right rfl, Option.some.injEq]
  by_cases hsep : multipathSplitCh ∈ basepath
  · refine iff_of_false (fun heq => ?_) fun h => h.1 hsep
    have hlen := congrArg List.length heq
    have htwo := Nat.mul_le_mul_right (path.length + 1) (two_le_length_entries hsep)
    rw [length_joinedList, List.length_take, joinPath, List.length_append, List.length_cons]
      at hlen
    omega
  · rw [joinedList_of_notMem hsep, take_pred_eq_iff (by decide), and_iff_right hsep]

/-! ## Components -/

theorem components_joinPath :
    components (joinPath basepath path) = components basepath ++ components path := by
  rw [components, joinPath, List.splitOn_append_cons_self, List.filter_append]
  rfl

theorem components_cons_slash : components ('/' :: path) = components path := by
  rw [components, List.splitOn_cons_eq_if_modifyHead, if_pos (beq_self_eq_true '/')]
  rfl

theorem of_mem_components (h : name ∈ components path) : name ≠ [] ∧ '/' ∉ name := by
  obtain ⟨hmem, hne⟩ := List.mem_filter.mp h
  exact ⟨of_decide_eq_true hne, notMem_of_mem_splitOn hmem⟩

theorem join_components_sublist (path : Word) :
    (['/'].intercalate (components path)).Sublist path := by
  have h : (['/'].intercalate (components path)).Sublist (['/'].intercalate (path.splitOn '/')) :=
    intercalate_sublist List.filter_sublist
  rwa [List.intercalate_splitOn] at h

theorem sublist_of_mem_components (h : name ∈ components path) : name.Sublist path := by
  have hone : (['/'].intercalate [name]).Sublist (['/'].intercalate (components path)) :=
    intercalate_sublist (List.singleton_sublist.mpr h)
  rw [List.intercalate_singleton] at hone
  exact hone.trans (join_components_sublist path)

theorem exists_mem_components (hc : c ∈ path) (hne : c ≠ '/') :
    ∃ name ∈ components path, c ∈ name := by
  have hjoin : ['/'].intercalate (path.splitOn '/') = path := List.intercalate_splitOn '/'
  rw [← hjoin] at hc
  obtain heq | ⟨name, hname, hmem⟩ := mem_intercalate hc
  · exact absurd heq hne
  · exact ⟨name, List.mem_filter.mpr ⟨hname, decide_eq_true (List.ne_nil_of_mem hmem)⟩, hmem⟩

theorem RelativePath.components_ne_nil (h : RelativePath path) :
    components (joinPath basepath path) ≠ [] := by
  obtain ⟨c, rest, hpath⟩ := List.exists_cons_of_ne_nil h.ne_nil
  have hmem : c ∈ path := hpath ▸ List.mem_cons_self
  have hslash : c ≠ '/' := fun heq => h.relative (by rw [hpath, heq]; rfl)
  obtain ⟨name, hname, -⟩ := exists_mem_components hmem hslash
  rw [components_joinPath]
  exact List.append_ne_nil_of_right_ne_nil _ (List.ne_nil_of_mem hname)

/-! ## Literal patterns -/

theorem literals_of_notMem (hstar : '*' ∉ path) : literals path = components path :=
  List.takeWhile_eq_self_iff.mpr fun _ hname =>
    decide_eq_true fun hmem => hstar ((sublist_of_mem_components hname).subset hmem)

theorem mapM_fuzzyDirent_literal (h : ∀ name ∈ names, '*' ∉ name) :
    names.mapM fuzzyDirent = some (names.map .normal) := by
  induction names with
  | nil => rfl
  | cons name names ih =>
    rw [List.mapM_cons, fuzzyDirent_literal (h name List.mem_cons_self),
      ih fun n hn => h n (List.mem_cons_of_mem _ hn)]
    rfl

theorem splitOn_join_components (hne : components path ≠ []) :
    (['/'].intercalate (components path)).splitOn '/' = components path :=
  List.splitOn_intercalate _ (fun _ hname => (of_mem_components hname).2) hne

section Literal

variable (hstar : '*' ∉ path) (hne : components path ≠ [])

include hstar hne

theorem rootOf_literal : rootOf path =
    if path.head? = some '/' then '/' :: ['/'].intercalate (components path)
    else ['/'].intercalate (components path) := by
  rw [rootOf, literals_of_notMem hstar, if_neg hne]

theorem rootOf_sublist : (rootOf path).Sublist path := by
  rw [rootOf_literal hstar hne]
  split_ifs with habs
  · obtain ⟨rest, rfl⟩ : ∃ rest, path = '/' :: rest := by
      cases path with
      | nil => cases habs
      | cons c rest => exact ⟨rest, by rw [Option.some.inj habs]⟩
    exact (join_components_sublist rest).cons_cons '/'
  · exact join_components_sublist path

theorem fileName_rootOf : fileName (rootOf path) = fileName path := by
  have hsplit := splitOn_join_components hne
  have hjoin : components (['/'].intercalate (components path)) = components path := by
    rw [components, hsplit]
    exact List.filter_eq_self.mpr fun _ hname => decide_eq_true (of_mem_components hname).1
  rw [rootOf_literal hstar hne]
  by_cases habs : path.head? = some '/'
  · rw [if_pos habs, fileName, components_cons_slash, hjoin, fileName, decide_eq_true habs]
    rfl
  · -- an empty component in front is none
    have hhead : (['/'].intercalate (components path)).head? ≠ some '/' := by
      intro hslash
      cases hword : ['/'].intercalate (components path) with
      | nil => rw [hword] at hslash; cases hslash
      | cons c rest =>
        rw [hword] at hslash hsplit
        rw [Option.some.inj hslash, List.splitOn_cons_eq_if_modifyHead,
          if_pos (beq_self_eq_true '/')] at hsplit
        exact (of_mem_components (hsplit ▸ List.mem_cons_self)).1 rfl
    rw [if_neg habs, fileName, hjoin, fileName, decide_eq_false habs, decide_eq_false hhead]

/-- **A literal pattern is found as it stands, but for superfluous slashes, without a look at the
file system.** -/
theorem fuzzy2path_literal (hlen : path.length < pathMax)
    (hdepth : (components path).length < dirDepthMax) :
    fuzzy2path fs path [] = some (0, rootOf path) := by
  have hliterals : literals path = components path := literals_of_notMem hstar
  have hread : (components path).mapM fuzzyDirent = some ((components path).map .normal) :=
    mapM_fuzzyDirent_literal fun _ hname hmem =>
      hstar ((sublist_of_mem_components hname).subset hmem)
  have hroot : (rootOf path).length < pathMax :=
    Nat.lt_of_le_of_lt (rootOf_sublist hstar hne).length_le hlen
  have hbuf : rootBuf path (literals path) = some (rootOf path) := by
    rw [rootBuf_of_ne_nil (hliterals ▸ hne), (take_pred_eq_iff (by decide)).mpr hroot]
  have hsearch : searchRoot path =
      some (some (rootOf path), (components path).map .normal) := by
    rw [searchRoot_eq, if_neg (Nat.not_le.mpr hdepth), hread, hbuf]
    rfl
  have hnames : (literalNames ((components path).map .normal)).length =
      ((components path).map FuzzyDirent.normal).length := by
    rw [literalNames_mapM hread, List.length_map]
    exact congrArg List.length hliterals
  have hwhole : (rootOf path).take pathArrMax = rootOf path :=
    List.take_of_length_le (by rw [pathArrMax]; omega)
  rw [fuzzy2path, hsearch]
  show (if _ then _ else _ : Option (ℤ × Word)) = _
  rw [if_pos hnames, hwhole, List.nil_append]

end Literal

/-! ## Other patterns -/

/-- Nothing can be opened. -/
def emptyTree : FileSystem where
  opendir _ := none
  lstat _ := none
  nodup _ _ h := absurd h (Option.not_mem_none _)
  noSlash _ _ h := absurd h (Option.not_mem_none _)

theorem length_mapM_fuzzyDirent (h : names.mapM fuzzyDirent = some fdir) :
    fdir.length = names.length := by
  induction names generalizing fdir with
  | nil =>
    cases h
    rfl
  | cons name names ih =>
    rw [List.mapM_cons] at h
    obtain ⟨dirent, -, h⟩ := Option.bind_eq_some_iff.mp h
    obtain ⟨rest, hrest, h⟩ := Option.bind_eq_some_iff.mp h
    cases h
    rw [List.length_cons, List.length_cons, ih hrest]

theorem length_literalNames_lt (hstar : '*' ∈ path)
    (h : (components path).mapM fuzzyDirent = some fdir) :
    (literalNames fdir).length < fdir.length := by
  obtain ⟨name, hname, hmem⟩ := exists_mem_components hstar (by decide)
  rw [literalNames_mapM h, length_mapM_fuzzyDirent h]
  refine Nat.lt_of_le_of_ne (List.takeWhile_prefix _).length_le fun hlen => ?_
  have hall := List.takeWhile_eq_self_iff.mp ((List.takeWhile_prefix _).eq_of_length hlen) name
    hname
  exact of_decide_eq_true hall hmem

/-- A wildcard finds nothing when nothing can be opened, and a deep pattern is refused. -/
theorem fuzzy2path_emptyTree {result : ℤ × Word}
    (hno : '*' ∈ path ∨ dirDepthMax ≤ (components path).length)
    (h : result ∈ fuzzy2path emptyTree path []) : result = (einval, []) := by
  rw [fuzzy2path, searchRoot_eq] at h
  by_cases hdepth : dirDepthMax ≤ (components path).length
  · rw [if_pos hdepth] at h
    exact (Option.some.inj h).symm
  · rw [if_neg hdepth] at h
    cases hfdir : (components path).mapM fuzzyDirent with
    | none =>
      rw [hfdir] at h
      exact (Option.some.inj h).symm
    | some fdir =>
      rw [hfdir] at h
      cases hbuf : rootBuf path (literals path) with
      | none =>
        rw [hbuf] at h
        cases h
      | some buf =>
        have hlt := length_literalNames_lt (hno.resolve_right hdepth) hfdir
        rw [hbuf] at h
        dsimp only [Option.map_some] at h
        rw [if_neg (Nat.ne_of_lt hlt)] at h
        cases hrest : fdir.drop (literalNames fdir).length with
        | nil =>
          rw [hrest] at h
          exact (Option.some.inj h).symm
        | cons dirent rest =>
          rw [hrest] at h
          exact (Option.some.inj h).symm

/-! ## One directory -/

theorem fuzzypathExecute_single (hsep : multipathSplitCh ∉ basepath) (hpath : RelativePath path)
    (hlen : (joinPath basepath path).length < pathMax) :
    fuzzypathExecute find (fuzzypathOf (some basepath) path) =
      some ⟨0, some ((if (find (joinPath basepath path)).1 = 0 then
        (find (joinPath basepath path)).2 else []).take (pathArrMax - 1)),
        [(0, joinPath basepath path)]⟩ := by
  have hbase := entries_of_notMem hsep
  have hentries := entries_of_notMem hpath.single
  have hmade : madeSearches ((some basepath).map entries) false (entries path) =
      [(0, joinPath basepath path)] := by
    rw [hentries, Option.map_some, hbase]
    rfl
  have hone : 1 < pathCntMax := by decide
  have hvalue : [multipathSplitCh].intercalate (successes find [joinPath basepath path]) =
      if (find (joinPath basepath path)).1 = 0 then (find (joinPath basepath path)).2 else [] := by
    rw [successes, List.filterMap_cons, List.filterMap_nil]
    split_ifs
    · exact List.intercalate_singleton
    · rfl
  have hshort : ∀ s ∈ [(0, joinPath basepath path)], s.2.length < pathMax :=
    List.forall_mem_singleton.mpr hlen
  rw [fuzzypathOf_eq, decide_eq_false hpath.relative, fuzzypathExecute_eq, hmade,
    List.map_singleton, hvalue]
  · exact if_pos hshort
  · rw [hentries]
    exact hone
  · rintro str ⟨rfl⟩
    rw [hbase]
    exact hone

theorem notMem_joinPath (hbase : c ∉ basepath) (hpath : c ∉ path) (hc : c ≠ '/') :
    c ∉ joinPath basepath path := by
  rw [joinPath, List.mem_append, List.mem_cons]
  rintro (h | h | h)
  · exact hbase h
  · exact hc h
  · exact hpath h

theorem sameFiles_of_notMem {list : Word} (hptr : multipathSplitCh ∉ ptr)
    (hlist : multipathSplitCh ∉ list) : SameFiles ptr list ↔ fileName ptr = fileName list := by
  rw [SameFiles, entries_of_notMem hptr, entries_of_notMem hlist, List.map_singleton,
    List.map_singleton, List.singleton_inj]

section Single

variable (hsep : multipathSplitCh ∉ basepath) (hpath : RelativePath path)
  (hlen : (joinPath basepath path).length < pathMax)

include hsep hpath hlen

theorem not_namesFound (hfind : find (joinPath basepath path) = (einval, [])) :
    ¬NamesFound find basepath path := by
  rintro ⟨result, list, hlist, hresult, hsame⟩
  rw [fuzzypathExecute_single hsep hpath hlen, hfind] at hresult
  cases hresult
  cases hlist
  have hptr := notMem_joinPath hsep hpath.single (by decide)
  rw [joinedList_of_notMem hsep] at hsame
  exact hpath.components_ne_nil
    (congrArg Prod.snd ((sameFiles_of_notMem hptr List.not_mem_nil).mp hsame))

theorem namesFound_of_literal (hstar : '*' ∉ basepath)
    (hdepth : (components (joinPath basepath path)).length < dirDepthMax)
    (hfind : FindsIn fs find) : NamesFound find basepath path := by
  have hliteral := notMem_joinPath hstar hpath.literal (by decide)
  have hptr := notMem_joinPath hsep hpath.single (by decide)
  have hne : components (joinPath basepath path) ≠ [] := hpath.components_ne_nil
  have hsub := rootOf_sublist hliteral hne
  have hfound : find (joinPath basepath path) = (0, rootOf (joinPath basepath path)) :=
    hfind _ _ (fuzzy2path_literal hliteral hne hlen hdepth)
  have hroom : (rootOf (joinPath basepath path)).take (pathArrMax - 1) =
      rootOf (joinPath basepath path) := by
    have hle := hsub.length_le
    exact List.take_of_length_le (by rw [pathArrMax]; omega)
  refine ⟨_, rootOf (joinPath basepath path), ?_, fuzzypathExecute_single hsep hpath hlen, ?_⟩
  · rw [hfound]
    exact congrArg some hroom
  · rw [joinedList_of_notMem hsep,
      sameFiles_of_notMem hptr fun hmem => hptr (hsub.subset hmem)]
    exact (fileName_rootOf hliteral hne).symm

end Single

/-! ## The verdict -/

/-- **A list of directories is spliced entry by entry, to the files that `fuzzypath` gives, exactly
when it is one directory without wildcards, and that directory and the path together are short
enough and not too deep.** -/
theorem splicepathExecute_iff (hpath : RelativePath path) : FollowsLists basepath path ↔
    multipathSplitCh ∉ basepath ∧ '*' ∉ basepath ∧ (joinPath basepath path).length < pathMax ∧
      (components (joinPath basepath path)).length < dirDepthMax := by
  constructor
  · intro h
    obtain ⟨hsep, hlen⟩ := (spliced_iff hpath.ne_nil).mp h.joined
    -- the search in an empty file system tells the wildcards and the depth
    let find : Word → ℤ × Word := fun ptr => (fuzzy2path emptyTree ptr []).getD (einval, [])
    have hfinds : FindsIn emptyTree find := by
      intro ptr result hresult
      show (fuzzy2path emptyTree ptr []).getD (einval, []) = result
      rw [Option.mem_def.mp hresult, Option.getD_some]
    have hyes : ¬('*' ∈ joinPath basepath path ∨
        dirDepthMax ≤ (components (joinPath basepath path)).length) := by
      intro hno
      refine not_namesFound hsep hpath hlen ?_ (h.files emptyTree find hfinds)
      show (fuzzy2path emptyTree _ []).getD (einval, []) = _
      cases hresult : fuzzy2path emptyTree (joinPath basepath path) [] with
      | none => rfl
      | some result => exact fuzzy2path_emptyTree hno hresult
    rw [not_or] at hyes
    exact ⟨hsep, fun hmem => hyes.1 (List.mem_append_left _ hmem), hlen, Nat.not_le.mp hyes.2⟩
  · rintro ⟨hsep, hstar, hlen, hdepth⟩
    exact ⟨(spliced_iff hpath.ne_nil).mpr ⟨hsep, hlen⟩, fun fs find hfind =>
      namesFound_of_literal hsep hpath hlen hstar hdepth hfind⟩

theorem relativePath_c : RelativePath ['c'] := by
  constructor <;> decide

theorem splicepathExecute_single : FollowsLists ['/', 'b'] ['c'] :=
  (splicepathExecute_iff relativePath_c).mpr (by decide)

/-- With the directories `a` and `b`, the path is joined to the last one only. -/
theorem splicepathExecute_two : RelativePath ['c'] ∧
    splicepathExecute (splicepathOf ['a', ';', 'b'] ['c']) =
      (0, some ['a', ';', 'b', '/', 'c']) ∧
    joinedList ['a', ';', 'b'] ['c'] = ['a', '/', 'c', ';', 'b', '/', 'c'] ∧
    ¬FollowsLists ['a', ';', 'b'] ['c'] := by
  refine ⟨relativePath_c, by decide, by rfl, fun h => ?_⟩
  have hjoined := h.joined
  revert hjoined
  decide

end Lre
