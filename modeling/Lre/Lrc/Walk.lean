import Lre.Chains
import Lre.Lrc.Fuzzypath
import Lre.Lrc.Multipath

/-!
# The directory walk

* `FileSystem`: what `opendir`, `readdir` and `lstat` tell about it.
* `recurseDir`: the walk along the components of a path.
* `Wanted`: the chains of names that the components ask for, `foundPaths`: their paths, depth first.
* **`recurseDir_exact`**: the walk appends exactly these paths, each once.
-/

namespace Lre

open Separated Chains

/-! ## The file system -/

/-- What `lstat` tells; symbolic links are among the others. -/
inductive FileType
  | reg
  | dir
  | other
  deriving DecidableEq

/-- A file system that does not change: the names that `readdir` gives for a path that `opendir`
opens, and the type that `lstat` gives for a path. -/
structure FileSystem where
  opendir : Word → Option (List Word)
  lstat : Word → Option FileType
  nodup : ∀ path, ∀ names ∈ opendir path, names.Nodup
  noSlash : ∀ path, ∀ names ∈ opendir path, ∀ name ∈ names, '/' ∉ name

/-- `strcat` of a path, a slash and a name. -/
def joinPath (path name : Word) : Word := path ++ '/' :: name

/-! ## The code -/

/-- `path_add`. -/
def pathAdd (path new : Word) : Word :=
  path ++ (xsnprintf (pathArrMax - path.length) (new ++ [multipathSplitCh])).1

/-- The tests of `recurse_dir` in front of the component: the type of an entry that is looked at. -/
def direntType (fs : FileSystem) (path name : Word) : Option FileType :=
  if name = ['.'] ∨ name = ['.', '.'] then none
  else if name.length + path.length + 2 > pathMax then none
  else
    match fs.lstat (joinPath path name) with
    | some .reg => some .reg
    | some .dir => some .dir
    | _ => none

/-- `recurse_dir`, with the components from `fdir` on: its return code, and `outpath`. `none` is the
use of a component behind the last one. -/
def recurseDir (fs : FileSystem) (depthmax : ℕ) :
    List FuzzyDirent → Word → ℕ → Word → Option (ℤ × Word)
  | [], path, _, outpath =>
    match fs.opendir path with
    | none => some (einval, outpath)
    | some names => if names.any fun name => (direntType fs path name).isSome then none
      else some (0, outpath)
  | fdir :: rest, path, depth, outpath =>
    match fs.opendir path with
    | none => some (einval, outpath)
    | some names => do
      let outpath ← names.foldlM (fun outpath name =>
        match direntType fs path name with
        | none => some outpath
        | some st =>
          let subpath := joinPath path name
          if !matchDirent fdir name then some outpath
          else if depth + 1 = depthmax then some (pathAdd outpath subpath)
          else if st = .dir then
            (recurseDir fs depthmax rest subpath (depth + 1) outpath).map (·.2)
          else some outpath) outpath
      some (0, outpath)

/-! ## The purpose -/

/-- The names that are read in a directory. -/
def dirNames (fs : FileSystem) (path : Word) : List Word := (fs.opendir path).getD []

/-- The names lead from the path over directories to a regular file or a directory, and pass the
components one by one. -/
def Wanted (fs : FileSystem) : List FuzzyDirent → Word → List Word → Prop
  | [], _, _ => False
  | _ :: _, _, [] => False
  | fdir :: rest, path, name :: names =>
    name ≠ ['.'] ∧ name ≠ ['.', '.'] ∧ matchDirent fdir name = true ∧
      if rest = [] then
        names = [] ∧ (fs.lstat (joinPath path name) = some .reg ∨
          fs.lstat (joinPath path name) = some .dir)
      else fs.lstat (joinPath path name) = some .dir ∧ Wanted fs rest (joinPath path name) names

instance Wanted.decidable (fs : FileSystem) :
    ∀ (fdirs : List FuzzyDirent) (path : Word) (names : List Word),
      Decidable (Wanted fs fdirs path names)
  | [], _, _ => instDecidableFalse
  | _ :: _, _, [] => instDecidableFalse
  | _ :: rest, path, name :: names =>
    have := Wanted.decidable fs rest (joinPath path name) names
    inferInstanceAs (Decidable (_ ∧ _ ∧ _ ∧ if rest = [] then _ else _))

/-- The paths `base/n1/.../nk` of the wanted chains of names, in the order of a depth-first walk. -/
def foundPaths (fs : FileSystem) (fdirs : List FuzzyDirent) (base : Word) : List Word :=
  ((chains (dirNames fs) joinPath fdirs.length base).filter fun names =>
    Wanted fs fdirs base names).map fun names => names.foldl joinPath base

variable {fs : FileSystem} {fdir : FuzzyDirent} {fdirs rest : List FuzzyDirent}
  {base name outpath : Word} {names : List Word}

/-! ## Paths of chains -/

theorem foldl_joinPath (names : List Word) (base : Word) :
    names.foldl joinPath base = base ++ (names.map ('/' :: ·)).flatten := by
  induction names generalizing base with
  | nil => exact (List.append_nil base).symm
  | cons name names ih =>
    rw [List.foldl_cons, ih, joinPath, List.append_assoc]
    rfl

theorem noSlash_of_mem_chains {k : ℕ} (h : names ∈ chains (dirNames fs) joinPath k base) :
    ∀ name ∈ names, '/' ∉ name := by
  induction names generalizing k base with
  | nil => exact fun name hname => absurd hname List.not_mem_nil
  | cons first names ih =>
    cases k with
    | zero => cases List.mem_singleton.mp h
    | succ k =>
      obtain ⟨hfirst, hnames⟩ := mem_chains_succ.mp h
      intro name hname
      obtain rfl | hname := List.mem_cons.mp hname
      · cases hopen : fs.opendir base with
        | none =>
          rw [dirNames, hopen] at hfirst
          cases hfirst
        | some ns =>
          rw [dirNames, hopen] at hfirst
          exact fs.noSlash base ns hopen name hfirst
      · exact ih hnames name hname

theorem takeWhile_slash {word : Word} (hword : '/' ∉ word) (names : List Word) :
    (word ++ (names.map ('/' :: ·)).flatten).takeWhile (· ≠ '/') = word := by
  rw [List.takeWhile_append_of_pos fun c hc => ?_]
  · cases names with
    | nil => exact List.append_nil word
    | cons name names => exact List.append_nil word
  · exact decide_eq_true fun h => hword (h ▸ hc)

theorem flatten_slash_inj {as bs : List Word} (ha : ∀ a ∈ as, '/' ∉ a) (hb : ∀ b ∈ bs, '/' ∉ b)
    (h : (as.map ('/' :: ·)).flatten = (bs.map ('/' :: ·)).flatten) : as = bs := by
  induction as generalizing bs with
  | nil =>
    cases bs with
    | nil => rfl
    | cons b bs => cases h
  | cons a as ih =>
    cases bs with
    | nil => cases h
    | cons b bs =>
      have htail := (List.cons.inj h).2
      have hab : a = b := by
        rw [← takeWhile_slash (ha a List.mem_cons_self) as,
          ← takeWhile_slash (hb b List.mem_cons_self) bs]
        exact congrArg _ htail
      subst hab
      rw [ih (fun x hx => ha x (List.mem_cons_of_mem _ hx))
        (fun x hx => hb x (List.mem_cons_of_mem _ hx)) (List.append_cancel_left htail)]

theorem nodup_dirNames (fs : FileSystem) (path : Word) : (dirNames fs path).Nodup := by
  cases hopen : fs.opendir path with
  | none =>
    rw [dirNames, hopen]
    exact List.nodup_nil
  | some names =>
    rw [dirNames, hopen]
    exact fs.nodup path names hopen

theorem nodup_foundPaths : (foundPaths fs fdirs base).Nodup := by
  refine List.Nodup.map_on (fun as has bs hbs heq => ?_)
    ((nodup_chains (nodup_dirNames fs) fdirs.length base).filter _)
  rw [foldl_joinPath, foldl_joinPath] at heq
  exact flatten_slash_inj (noSlash_of_mem_chains (List.mem_filter.mp has).1)
    (noSlash_of_mem_chains (List.mem_filter.mp hbs).1) (List.append_cancel_left heq)

/-! ## One entry of a directory -/

/-- The found paths that begin with an entry. -/
def entryPaths (fs : FileSystem) (fdir : FuzzyDirent) (rest : List FuzzyDirent) (base name : Word) :
    List Word :=
  ((chains (dirNames fs) joinPath rest.length (joinPath base name)).filter fun names =>
    Wanted fs (fdir :: rest) base (name :: names)).map fun names =>
      names.foldl joinPath (joinPath base name)

theorem foundPaths_cons :
    foundPaths fs (fdir :: rest) base =
      (dirNames fs base).flatMap (entryPaths fs fdir rest base) := by
  rw [foundPaths, List.length_cons, filter_chains_succ, List.map_flatMap]
  refine congrArg (List.flatMap · _) (funext fun name => ?_)
  rw [List.map_map]
  rfl

theorem length_le_of_mem_entryPaths {path : Word} (h : path ∈ entryPaths fs fdir rest base name) :
    (joinPath base name).length ≤ path.length := by
  obtain ⟨names, -, rfl⟩ := List.mem_map.mp h
  rw [foldl_joinPath, List.length_append]
  exact Nat.le_add_right _ _

theorem entryPaths_eq_nil
    (h : ¬(name ≠ ['.'] ∧ name ≠ ['.', '.'] ∧ matchDirent fdir name = true)) :
    entryPaths fs fdir rest base name = [] := by
  rw [entryPaths, List.map_eq_nil_iff, List.filter_eq_nil_iff]
  intro names _ hwanted
  have hw : Wanted fs (fdir :: rest) base (name :: names) := of_decide_eq_true hwanted
  exact h ⟨hw.1, hw.2.1, hw.2.2.1⟩

section Taken

variable (h : name ≠ ['.'] ∧ name ≠ ['.', '.'] ∧ matchDirent fdir name = true)

include h

theorem entryPaths_last : entryPaths fs fdir [] base name =
    if fs.lstat (joinPath base name) = some .reg ∨ fs.lstat (joinPath base name) = some .dir then
      [joinPath base name]
    else [] := by
  have hwanted : Wanted fs [fdir] base [name] ↔
      fs.lstat (joinPath base name) = some .reg ∨ fs.lstat (joinPath base name) = some .dir := by
    rw [Wanted, if_pos rfl]
    simp only [h, ne_eq, not_false_eq_true, true_and]
  rw [entryPaths, List.length_nil, chains, List.filter_cons, List.filter_nil]
  simp only [hwanted, decide_eq_true_eq]
  split_ifs <;> rfl

theorem entryPaths_inner (hrest : rest ≠ []) : entryPaths fs fdir rest base name =
    if fs.lstat (joinPath base name) = some .dir then foundPaths fs rest (joinPath base name)
    else [] := by
  have hwanted : ∀ names, Wanted fs (fdir :: rest) base (name :: names) ↔
      fs.lstat (joinPath base name) = some .dir ∧ Wanted fs rest (joinPath base name) names := by
    intro names
    rw [Wanted, if_neg hrest]
    simp only [h, ne_eq, not_false_eq_true, true_and]
  rw [entryPaths]
  simp only [hwanted]
  split_ifs with hdir
  · simp only [hdir, true_and]
    rfl
  · simp [hdir]

end Taken

/-! ## The walk -/

theorem pathAdd_eq {new : Word}
    (h : (outpath ++ terminated multipathSplitCh [new]).length < pathArrMax) :
    pathAdd outpath new = outpath ++ terminated multipathSplitCh [new] := by
  rw [terminated_cons, terminated_nil, List.append_nil, List.length_append] at h
  rw [pathAdd, xsnprintf, terminated_cons, terminated_nil, List.append_nil]
  dsimp only
  rw [List.take_of_length_le (by omega)]

theorem foldlM_terminated {step : Word → Word → Option Word} {found : Word → List Word}
    (hstep : ∀ name ∈ names, ∀ outpath : Word,
      (outpath ++ terminated multipathSplitCh (found name)).length < pathArrMax →
      step outpath name = some (outpath ++ terminated multipathSplitCh (found name)))
    (hroom : (outpath ++ terminated multipathSplitCh (names.flatMap found)).length < pathArrMax) :
    names.foldlM step outpath =
      some (outpath ++ terminated multipathSplitCh (names.flatMap found)) := by
  induction names generalizing outpath with
  | nil =>
    rw [List.flatMap_nil, terminated_nil, List.append_nil]
    rfl
  | cons name names ih =>
    rw [List.flatMap_cons, terminated_append, ← List.append_assoc] at hroom ⊢
    have hfirst := hroom
    rw [List.length_append] at hfirst
    rw [List.foldlM_cons, hstep name List.mem_cons_self outpath (by omega)]
    exact ih (fun n hn => hstep n (List.mem_cons_of_mem _ hn)) hroom

theorem direntType_some {st : FileType} (h : direntType fs base name = some st) :
    (name ≠ ['.'] ∧ name ≠ ['.', '.']) ∧ fs.lstat (joinPath base name) = some st ∧
      (st = .reg ∨ st = .dir) := by
  unfold direntType at h
  split_ifs at h with hdot hlen
  refine ⟨not_or.mp hdot, ?_⟩
  cases hst : fs.lstat (joinPath base name) with
  | none => simp [hst] at h
  | some ft => cases ft <;> simp_all

theorem lstat_of_direntType_none (h : direntType fs base name = none)
    (hdots : name ≠ ['.'] ∧ name ≠ ['.', '.']) (hlen : (joinPath base name).length < pathMax) :
    ¬(fs.lstat (joinPath base name) = some .reg ∨ fs.lstat (joinPath base name) = some .dir) := by
  rw [joinPath, List.length_append, List.length_cons] at hlen
  rw [direntType, if_neg (not_or.mpr hdots), if_neg (by omega)] at h
  rintro (hst | hst) <;> simp [hst] at h

/-- An entry whose type is not looked at begins no found path that is short enough. -/
theorem entryPaths_of_direntType_none (hnone : direntType fs base name = none)
    (hpath : ∀ path ∈ entryPaths fs fdir rest base name, path.length < pathMax) :
    entryPaths fs fdir rest base name = [] := by
  by_cases h : name ≠ ['.'] ∧ name ≠ ['.', '.'] ∧ matchDirent fdir name = true
  · rw [List.eq_nil_iff_forall_not_mem]
    intro path hmem
    have hlstat := lstat_of_direntType_none hnone ⟨h.1, h.2.1⟩
      (Nat.lt_of_le_of_lt (length_le_of_mem_entryPaths hmem) (hpath path hmem))
    by_cases hrest : rest = []
    · subst hrest
      rw [entryPaths_last h, if_neg hlstat] at hmem
      cases hmem
    · rw [entryPaths_inner h hrest, if_neg fun hdir => hlstat (.inr hdir)] at hmem
      cases hmem
  · exact entryPaths_eq_nil h

theorem entryPaths_of_direntType_some {st : FileType} (htype : direntType fs base name = some st)
    (hmatch : matchDirent fdir name = true) : entryPaths fs fdir rest base name =
      if rest = [] then [joinPath base name]
      else if st = .dir then foundPaths fs rest (joinPath base name)
      else [] := by
  obtain ⟨hdots, hst, hreg⟩ := direntType_some htype
  have htaken : name ≠ ['.'] ∧ name ≠ ['.', '.'] ∧ matchDirent fdir name = true :=
    ⟨hdots.1, hdots.2, hmatch⟩
  by_cases hrest : rest = []
  · subst hrest
    have hfound : fs.lstat (joinPath base name) = some .reg ∨
        fs.lstat (joinPath base name) = some .dir := by
      rw [hst]
      exact hreg.imp (congrArg some) (congrArg some)
    rw [entryPaths_last htaken, if_pos hfound, if_pos rfl]
  · rw [entryPaths_inner htaken hrest, if_neg hrest, hst]
    simp only [Option.some.injEq]

/-- The walk appends the found paths. -/
theorem recurseDir_eq {depth depthmax : ℕ} (hne : fdirs ≠ [])
    (hdepth : depth + fdirs.length = depthmax)
    (hpath : ∀ path ∈ foundPaths fs fdirs base, path.length < pathMax)
    (hroom : (outpath ++ terminated multipathSplitCh (foundPaths fs fdirs base)).length <
      pathArrMax) :
    (recurseDir fs depthmax fdirs base depth outpath).map (·.2) =
      some (outpath ++ terminated multipathSplitCh (foundPaths fs fdirs base)) := by
  induction fdirs generalizing base depth outpath with
  | nil => exact absurd rfl hne
  | cons fdir rest ih =>
    rw [List.length_cons] at hdepth
    rw [foundPaths_cons] at hpath hroom ⊢
    cases hopen : fs.opendir base with
    | none =>
      rw [recurseDir, hopen, dirNames, hopen]
      exact congrArg some (List.append_nil outpath).symm
    | some names =>
      have hnames : dirNames fs base = names := by rw [dirNames, hopen, Option.getD_some]
      rw [hnames] at hpath hroom ⊢
      rw [recurseDir, hopen]
      dsimp only
      rw [foldlM_terminated (fun name hname outpath hlt => ?_) hroom]
      · rfl
      have hshort : ∀ path ∈ entryPaths fs fdir rest base name, path.length < pathMax :=
        fun path hmem => hpath path (List.mem_flatMap.mpr ⟨name, hname, hmem⟩)
      cases htype : direntType fs base name with
      | none => rw [entryPaths_of_direntType_none htype hshort, terminated_nil, List.append_nil]
      | some st =>
        dsimp only
        cases hmatch : matchDirent fdir name with
        | false =>
          have hno : ¬matchDirent fdir name = true := Bool.not_eq_true _ ▸ hmatch
          rw [entryPaths_eq_nil fun h => hno h.2.2, terminated_nil, List.append_nil]
          rfl
        | true =>
          rw [entryPaths_of_direntType_some htype hmatch] at hlt hshort ⊢
          rw [Bool.not_true, if_neg Bool.false_ne_true]
          by_cases hrest : rest = []
          · subst hrest
            rw [if_pos rfl] at hlt ⊢
            rw [if_pos (show depth + 1 = depthmax from hdepth), pathAdd_eq hlt]
          · have hdeep : depth + 1 ≠ depthmax := by
              have hpos := List.length_pos_of_ne_nil hrest
              omega
            rw [if_neg hrest] at hlt hshort ⊢
            rw [if_neg hdeep]
            by_cases hdir : st = .dir
            · rw [if_pos hdir] at hlt hshort ⊢
              rw [if_pos hdir, ih hrest (by omega) hshort hlt]
            · rw [if_neg hdir, if_neg hdir, terminated_nil, List.append_nil]

/-- **The walk appends the found paths in depth-first order, each once and followed by the
separator, and nothing else.** -/
theorem recurseDir_exact (fs : FileSystem) (fdirs : List FuzzyDirent) (base outpath : Word)
    (depth depthmax : ℕ) (hne : fdirs ≠ []) (hdepth : depth + fdirs.length = depthmax)
    (hpath : ∀ path ∈ foundPaths fs fdirs base, path.length < pathMax)
    (hroom : (outpath ++ terminated multipathSplitCh (foundPaths fs fdirs base)).length <
      pathArrMax) :
    (recurseDir fs depthmax fdirs base depth outpath).map (·.2) =
        some (outpath ++ terminated multipathSplitCh (foundPaths fs fdirs base)) ∧
      (foundPaths fs fdirs base).Nodup :=
  ⟨recurseDir_eq hne hdepth hpath hroom, nodup_foundPaths⟩

/-- A directory `b` with a directory `a`, a file `f` and a symbolic link `l`; in `a` is a file
`x`. -/
def smallTree : FileSystem where
  opendir path :=
    if path = ['b'] then some [['.'], ['.', '.'], ['a'], ['f'], ['l']]
    else if path = ['b', '/', 'a'] then some [['x']]
    else none
  lstat path :=
    if path = ['b', '/', 'a'] then some .dir
    else if path = ['b', '/', 'f'] ∨ path = ['b', '/', 'a', '/', 'x'] then some .reg
    else some .other
  nodup path names h := by
    split_ifs at h <;> cases h <;> decide
  noSlash path names h := by
    split_ifs at h <;> cases h <;> decide

/-- The walk along `*` and `x`. -/
theorem recurseDir_smallTree :
    (recurseDir smallTree 2 [.fuzzy ⟨[[]], true, true⟩, .normal ['x']] ['b'] 0 []).map (·.2) =
        some ['b', '/', 'a', '/', 'x', ';'] ∧
      (foundPaths smallTree [.fuzzy ⟨[[]], true, true⟩, .normal ['x']] ['b']).Nodup :=
  recurseDir_exact smallTree [.fuzzy ⟨[[]], true, true⟩, .normal ['x']] ['b'] [] 0 2 (by decide)
    rfl (by decide) (by decide)

end Lre
