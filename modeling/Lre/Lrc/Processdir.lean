import Lre.Lrc.Process

/-!
# Directories of processes

* `processdirExecute`: the call `processdir`, with its own copy of the selection.
* `selectedPaths`: the paths of the processes that the function `process` selects.
* **`processdirExecute_iff`**: when the call returns their directories.
-/

namespace Lre

open Separated

/-! ## The directories -/

/-- `path2dir`; a path is shorter than the buffer. -/
def path2dir (path : Word) : Word :=
  match path.reverse.dropWhile (· ≠ '/') with
  | [] => path
  | _ :: dir => if dir = [] then ['/'] else dir.reverse

/-- The loop of `processdir_execute`: the paths in `patharr`. -/
def processdirLoop (process : LrcProcess) : List ProcessInfo → List Word → List Word
  | [], patharr => patharr
  | psinfo :: rest, patharr =>
    match psinfo.binpath with
    | none => processdirLoop process rest patharr
    | some binpath =>
      if procnameTest process psinfo && procpathTest process psinfo &&
          !patharr.contains binpath then
        if patharr.length ≥ processCountMax then patharr
        else processdirLoop process rest (patharr ++ [binpath])
      else processdirLoop process rest patharr

/-- The paths whose directories `processdir_execute` returns. -/
def processdirPaths (process : LrcProcess) (processlist : List ProcessInfo) : List Word :=
  processdirLoop process processlist []

/-- `processdir_execute`: its return code and the string it sets; `none` would be the store in front
of `outpath`. -/
def processdirExecute (process : LrcProcess) (processlist : List ProcessInfo) :
    Option (ℤ × Option Word) :=
  if process.procname = none ∧ process.procpath = none then some (einval, none)
  else
    let patharr := processdirPaths process processlist
    if patharr = [] then some (0, none)
    else ((patharr.map path2dir).foldl (OutText.addPath pathArrMax) .empty).finish.map
      fun outpath => (0, some outpath)

variable {process : LrcProcess} {processlist : List ProcessInfo}

/-- The directory of a path: what stands in front of the last separator, and the root for a path
without another. -/
theorem path2dir_append {dir base : Word} (hbase : '/' ∉ base) :
    path2dir (dir ++ '/' :: base) = if dir = [] then ['/'] else dir := by
  have hdrop : (dir ++ '/' :: base).reverse.dropWhile (· ≠ '/') = '/' :: dir.reverse := by
    rw [List.reverse_append, List.reverse_cons, List.append_assoc,
      List.dropWhile_append_of_pos fun c hc => ?_]
    · rfl
    · exact decide_eq_true fun h => hbase (h ▸ List.mem_reverse.mp hc)
  rw [path2dir, hdrop]
  by_cases hdir : dir = []
  · subst hdir
    rfl
  · simp only [List.reverse_eq_nil_iff, List.reverse_reverse]

/-! ## Distinct paths -/

section Distinct

variable {α : Type} [BEq α] [LawfulBEq α] {p : α → Bool} {l : List α}

theorem filter_eraseDups : (l.filter p).eraseDups = l.eraseDups.filter p := by
  induction hn : l.length using Nat.strong_induction_on generalizing l with
  | _ n ih =>
    subst hn
    cases l with
    | nil => rfl
    | cons a l =>
      have hlt : (l.filter fun b => !b == a).length < (a :: l).length :=
        Nat.lt_succ_of_le (List.length_filter_le _ l)
      have hrest := ih _ hlt rfl
      rw [List.filter_filter] at hrest
      rw [List.eraseDups_cons]
      by_cases ha : p a = true
      · rw [List.filter_cons_of_pos ha, List.filter_cons_of_pos ha, List.eraseDups_cons, ← hrest,
          List.filter_filter]
        simp only [Bool.and_comm]
      · rw [List.filter_cons_of_neg ha, List.filter_cons_of_neg ha, ← hrest]
        refine congrArg List.eraseDups (List.filter_congr fun b hb => ?_)
        by_cases hba : b = a
        · subst hba
          simp [ha]
        · simp [hba]

omit [LawfulBEq α] in
theorem removeAll_concat {ys : List α} {a : α} :
    l.removeAll (ys ++ [a]) = (l.removeAll ys).filter fun b => !b == a := by
  simp only [List.removeAll, List.filter_filter]
  refine List.filter_congr fun b _ => ?_
  rw [← Bool.not_or, List.elem_eq_contains, List.elem_eq_contains, List.contains_append,
    List.contains_cons, List.contains_nil, Bool.or_false, Bool.or_comm]

omit [BEq α] [LawfulBEq α] in
theorem take_filter_eq_iff {n : ℕ} :
    (l.filter p).take n = l.take n ↔ ∀ a ∈ l.take n, p a = true := by
  constructor
  · intro h a ha
    rw [← h] at ha
    exact (List.mem_filter.mp (List.mem_of_mem_take ha)).2
  · intro h
    induction l generalizing n with
    | nil => rfl
    | cons a l ih =>
      cases n with
      | zero => rfl
      | succ n =>
        rw [List.take_succ_cons] at h ⊢
        rw [List.filter_cons_of_pos (h a List.mem_cons_self), List.take_succ_cons,
          ih fun b hb => h b (List.mem_cons_of_mem a hb)]

end Distinct

/-- The binary paths of the processes that pass the tests of `procname` and `procpath`. -/
def askedPaths (process : LrcProcess) (processlist : List ProcessInfo) : List Word :=
  (processlist.filter fun psinfo =>
    procnameTest process psinfo && procpathTest process psinfo).filterMap (·.binpath)

theorem askedPaths_cons (psinfo : ProcessInfo) (rest : List ProcessInfo) :
    askedPaths process (psinfo :: rest) =
      (if procnameTest process psinfo && procpathTest process psinfo then psinfo.binpath.toList
        else []) ++ askedPaths process rest := by
  rw [askedPaths, List.filter_cons]
  by_cases htest : (procnameTest process psinfo && procpathTest process psinfo) = true
  · rw [if_pos htest, if_pos htest, List.filterMap_cons]
    cases psinfo.binpath with
    | none => rfl
    | some binpath => rfl
  · rw [if_neg htest, if_neg htest]
    rfl

/-- The loop adds the paths that are new, while there is room. -/
theorem processdirLoop_eq (patharr : List Word) (hle : patharr.length ≤ processCountMax) :
    processdirLoop process processlist patharr =
      patharr ++ ((askedPaths process processlist).removeAll patharr).eraseDups.take
        (processCountMax - patharr.length) := by
  induction processlist generalizing patharr with
  | nil => simp [processdirLoop, askedPaths, List.removeAll]
  | cons psinfo rest ih =>
    rw [askedPaths_cons, processdirLoop]
    cases hbin : psinfo.binpath with
    | none =>
      rw [Option.toList_none, ite_self]
      exact ih patharr hle
    | some binpath =>
      dsimp only
      by_cases htest : (procnameTest process psinfo && procpathTest process psinfo) = true
      · rw [htest, if_pos rfl, Option.toList_some, List.singleton_append, List.cons_removeAll]
        cases hmem : patharr.contains binpath with
        | true =>
          rw [Bool.not_true, Bool.and_false, if_neg Bool.false_ne_true, if_neg (by decide)]
          exact ih patharr hle
        | false =>
          rw [Bool.not_false, Bool.and_true, if_pos rfl, if_pos rfl]
          by_cases hfull : patharr.length ≥ processCountMax
          · rw [Nat.sub_eq_zero_of_le hfull, List.take_zero, List.append_nil]
            exact if_pos hfull
          · have hle' : (patharr ++ [binpath]).length ≤ processCountMax := by
              rw [List.length_append, List.length_singleton]
              omega
            have hroom : processCountMax - patharr.length =
                processCountMax - (patharr ++ [binpath]).length + 1 := by
              rw [List.length_append, List.length_singleton]
              omega
            rw [if_neg hfull, ih _ hle', removeAll_concat, List.eraseDups_cons, hroom,
              List.take_succ_cons, List.append_assoc, List.singleton_append]
      · rw [if_neg htest, List.nil_append]
        simp only [htest]
        exact ih patharr hle

theorem processdirPaths_eq : processdirPaths process processlist =
    (askedPaths process processlist).eraseDups.take processCountMax := by
  rw [processdirPaths, processdirLoop_eq [] (Nat.zero_le _), List.removeAll_nil, List.nil_append,
    List.length_nil, Nat.sub_zero]

/-! ## The selected processes -/

/-- The known binary paths of the processes that `fill_spec_process` selects, each once, up to
`PROCESS_COUNT_MAX` of them. -/
def selectedPaths (process : LrcProcess) (processlist : List ProcessInfo) : List Word :=
  ((processlist.filter (specProcess process)).filterMap (·.binpath)).eraseDups.take processCountMax

/-- `excludepath` leaves the path. -/
def keepsPath (process : LrcProcess) (binpath : Word) : Bool :=
  match process.excludepath with
  | none => true
  | some excludepath => !pathBegins excludepath binpath

theorem excludepathTest_eq (psinfo : ProcessInfo) :
    excludepathTest process psinfo = psinfo.binpath.all (keepsPath process) := by
  unfold excludepathTest keepsPath
  cases process.excludepath with
  | none => cases psinfo.binpath <;> rfl
  | some excludepath => cases psinfo.binpath <;> rfl

theorem filterMap_specProcess :
    (processlist.filter (specProcess process)).filterMap (·.binpath) =
      (askedPaths process processlist).filter (keepsPath process) := by
  induction processlist with
  | nil => rfl
  | cons psinfo rest ih =>
    rw [askedPaths_cons, List.filter_append, ← ih, List.filter_cons, specProcess,
      excludepathTest_eq]
    cases htest : procnameTest process psinfo && procpathTest process psinfo with
    | false => rfl
    | true =>
      rw [Bool.true_and, if_pos rfl]
      cases hbin : psinfo.binpath with
      | none =>
        rw [Option.all_none, if_pos rfl, List.filterMap_cons_none hbin]
        rfl
      | some binpath =>
        rw [Option.all_some, Option.toList_some]
        by_cases hkeep : keepsPath process binpath = true
        · rw [if_pos hkeep, List.filterMap_cons_some hbin, List.filter_cons_of_pos hkeep]
          rfl
        · rw [if_neg hkeep, List.filter_cons_of_neg hkeep]
          rfl

/-- The paths are those of the selected processes exactly when `excludepath` takes none of them. -/
theorem processdirPaths_eq_iff : processdirPaths process processlist =
      selectedPaths process processlist ↔
    ∀ binpath ∈ processdirPaths process processlist, keepsPath process binpath = true := by
  rw [processdirPaths_eq, selectedPaths, filterMap_specProcess, filter_eraseDups, eq_comm]
  exact take_filter_eq_iff

/-! ## The call -/

/-- The text of a call: the directories of the paths, and no value without a path. -/
def dirsText (paths : List Word) : Option Word :=
  if paths = [] then none else some ([multipathSplitCh].intercalate (paths.map path2dir))

/-- `processdir` fails without a name or a path, as `process` does, and otherwise returns the
directories of the paths of the selected processes. -/
def ProcessdirAgrees (process : LrcProcess) (processlist : List ProcessInfo) : Prop :=
  if process.procname = none ∧ process.procpath = none then
    processdirExecute process processlist = some (einval, none)
  else
    processdirPaths process processlist = selectedPaths process processlist ∧
      processdirExecute process processlist =
        some (0, dirsText (selectedPaths process processlist))

theorem processdirExecute_eq (hasked : ¬(process.procname = none ∧ process.procpath = none)) :
    processdirExecute process processlist =
      some (0, (dirsText (processdirPaths process processlist)).map (·.take (pathArrMax - 1))) := by
  rw [processdirExecute, if_neg hasked, dirsText]
  by_cases hnil : processdirPaths process processlist = []
  · simp only [hnil, if_true, Option.map_none]
  · simp only [hnil, if_false, Option.map_some]
    rw [OutText.finish_addPaths (by decide), if_neg (List.map_eq_nil_iff.not.mpr hnil)]
    rfl

/-- **The call returns the directories of the selected processes exactly when `excludepath` takes
none of the paths that the name and the path ask for, and the text is shorter than the buffer.** -/
theorem processdirExecute_iff : ProcessdirAgrees process processlist ↔
    process.procname = none ∧ process.procpath = none ∨
      (∀ binpath ∈ (askedPaths process processlist).eraseDups.take processCountMax,
        keepsPath process binpath = true) ∧
      ([multipathSplitCh].intercalate (((askedPaths process processlist).eraseDups.take
        processCountMax).map path2dir)).length < pathArrMax := by
  rw [ProcessdirAgrees, ← processdirPaths_eq]
  split_ifs with hasked
  · exact iff_of_true (if_pos hasked) (.inl hasked)
  · rw [or_iff_right hasked, ← processdirPaths_eq_iff, processdirExecute_eq hasked,
      and_congr_right_iff]
    intro hpaths
    rw [← hpaths, dirsText, ← take_pred_eq_iff (by decide)]
    by_cases hnil : processdirPaths process processlist = []
    · rw [if_pos hnil, hnil]
      exact iff_of_true rfl rfl
    · rw [if_neg hnil, Option.map_some, Option.some.injEq, Prod.mk.injEq, Option.some.injEq,
        and_iff_right rfl]

/-- The excluded binary `/a` is found by its name: no process is selected, and the call returns its
directory. -/
theorem processdirExecute_excluded :
    processdirExecute
        { LrcProcess.init with procname := some ['a'], excludepath := some ['/', 'a'] } [processA] ≠
      some (0, dirsText (selectedPaths
        { LrcProcess.init with procname := some ['a'], excludepath := some ['/', 'a'] }
          [processA])) := by
  decide

end Lre
