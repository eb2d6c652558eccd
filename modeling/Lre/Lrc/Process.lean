import Lre.Lrc.Multipath

/-!
# Processes

* `ProcessInfo`, `LrcProcess`: a process of `processlist`, and the object of the component.
* `fillSpecProcess`: the processes that are selected, `Selected`: those that are asked for.
* **`fillSpecProcess_iff`**: when the selection is the one asked for.
-/

namespace Lre

open Separated

/-- `PROCESS_COUNT_MAX`. -/
def processCountMax : ℕ := 1024

/-- `CMDLINE_LEN_MAX`. -/
def cmdlineLenMax : ℕ := 2048

/-- `struct process_info`, as far as it is read. `readlink` has filled `binpath`, and at most
`CMDLINE_LEN_MAX` bytes of the command line are kept. -/
structure ProcessInfo where
  name : Option Word
  binpath : Option Word
  cmdline : Word
  binpath_ne_nil : ∀ b ∈ binpath, b ≠ []
  binpath_lt : ∀ b ∈ binpath, b.length < pathMax
  cmdline_le : cmdline.length ≤ cmdlineLenMax

/-- The arguments in `struct lrc_process`. -/
structure LrcProcess where
  procname : Option Word
  procpath : Option Word
  excludepath : Option Word
  argindex : BitVec 32
  argkey : Option Word

/-- `process_constructor`, `processdir_constructor` and `cmdline_extract_constructor`. -/
def LrcProcess.init : LrcProcess := ⟨none, none, none, 0, none⟩

/-! ## The selection -/

/-- `strncmp(ptr, binpath, strlen(binpath))` returns zero at the front of the list, or behind a
separator. -/
def pathBegins (list binpath : Word) : Bool :=
  binpath.isPrefixOf list || (afterSeps multipathSplitCh list).any (binpath.isPrefixOf ·)

/-- The test of `procname`. -/
def procnameTest (process : LrcProcess) (psinfo : ProcessInfo) : Bool :=
  match process.procname with
  | none => true
  | some procname => psinfo.name == some procname

/-- The test of `procpath`. -/
def procpathTest (process : LrcProcess) (psinfo : ProcessInfo) : Bool :=
  match process.procpath with
  | none => true
  | some procpath =>
    match psinfo.binpath with
    | none => false
    | some binpath => pathBegins procpath binpath

/-- The test of `excludepath`. -/
def excludepathTest (process : LrcProcess) (psinfo : ProcessInfo) : Bool :=
  match process.excludepath with
  | none => true
  | some excludepath =>
    match psinfo.binpath with
    | none => true
    | some binpath => !pathBegins excludepath binpath

/-- What `fill_spec_process` decides about a process. -/
def specProcess (process : LrcProcess) (psinfo : ProcessInfo) : Bool :=
  procnameTest process psinfo && procpathTest process psinfo && excludepathTest process psinfo

/-- The loop of `fill_spec_process`; `none` is the store behind `process->psinfo`. -/
def fillSpecLoop (process : LrcProcess) : List ProcessInfo → List ProcessInfo →
    Option (List ProcessInfo)
  | [], selected => some selected
  | psinfo :: rest, selected =>
    if specProcess process psinfo then
      if selected.length < processCountMax then
        fillSpecLoop process rest (selected ++ [psinfo])
      else none
    else fillSpecLoop process rest selected

/-- `fill_spec_process`. -/
def fillSpecProcess (process : LrcProcess) (processlist : List ProcessInfo) :
    Option (List ProcessInfo) := fillSpecLoop process processlist []

/-- A process that the arguments ask for. -/
structure Selected (process : LrcProcess) (psinfo : ProcessInfo) : Prop where
  name : ∀ procname ∈ process.procname, psinfo.name = some procname
  path : ∀ procpath ∈ process.procpath, ∃ binpath ∈ psinfo.binpath,
    binpath ∈ procpath.splitOn multipathSplitCh
  exclude : ∀ excludepath ∈ process.excludepath, ∀ binpath ∈ psinfo.binpath,
    binpath ∉ excludepath.splitOn multipathSplitCh

theorem selected_iff {process : LrcProcess} {psinfo : ProcessInfo} : Selected process psinfo ↔
    (∀ procname ∈ process.procname, psinfo.name = some procname) ∧
      (∀ procpath ∈ process.procpath, ∃ binpath ∈ psinfo.binpath,
        binpath ∈ procpath.splitOn multipathSplitCh) ∧
      ∀ excludepath ∈ process.excludepath, ∀ binpath ∈ psinfo.binpath,
        binpath ∉ excludepath.splitOn multipathSplitCh :=
  ⟨fun h => ⟨h.name, h.path, h.exclude⟩, fun h => ⟨h.1, h.2.1, h.2.2⟩⟩

instance (process : LrcProcess) : DecidablePred (Selected process) :=
  fun _ => decidable_of_iff _ selected_iff.symm

variable {process : LrcProcess} {psinfo : ProcessInfo} {processlist : List ProcessInfo}
  {list binpath : Word}

/-! ## What is selected -/

theorem fillSpecLoop_eq (selected : List ProcessInfo) (hle : selected.length ≤ processCountMax) :
    fillSpecLoop process processlist selected =
      if (selected ++ processlist.filter (specProcess process)).length ≤ processCountMax then
        some (selected ++ processlist.filter (specProcess process))
      else none := by
  induction processlist generalizing selected with
  | nil =>
    rw [List.filter_nil, List.append_nil]
    exact (if_pos hle).symm
  | cons psinfo rest ih =>
    rw [fillSpecLoop]
    by_cases hspec : specProcess process psinfo = true
    · rw [if_pos hspec, List.filter_cons_of_pos hspec]
      by_cases hlt : selected.length < processCountMax
      · have hle' : (selected ++ [psinfo]).length ≤ processCountMax := by
          rw [List.length_append]
          exact hlt
        rw [if_pos hlt, ih _ hle', List.append_assoc, List.singleton_append]
      · have hgt : ¬(selected ++ psinfo :: rest.filter (specProcess process)).length ≤
            processCountMax := by
          rw [List.length_append, List.length_cons]
          omega
        rw [if_neg hlt, if_neg hgt]
    · rw [if_neg hspec, List.filter_cons_of_neg hspec, ih _ hle]

/-- The processes that pass the test, in their order, when there is room for them. -/
theorem fillSpecProcess_eq : fillSpecProcess process processlist =
    if (processlist.filter (specProcess process)).length ≤ processCountMax then
      some (processlist.filter (specProcess process))
    else none := by
  rw [fillSpecProcess, fillSpecLoop_eq [] (Nat.zero_le _), List.nil_append]

theorem pathBegins_iff : pathBegins list binpath = true ↔ Begins multipathSplitCh list binpath := by
  rw [pathBegins, begins_iff, Bool.or_eq_true, List.any_eq_true, List.isPrefixOf_iff_prefix]
  simp only [ List.isPrefixOf_iff_prefix]

theorem procnameTest_iff : procnameTest process psinfo = true ↔
    ∀ procname ∈ process.procname, psinfo.name = some procname := by
  unfold procnameTest
  cases process.procname with
  | none => simp
  | some procname => simp

theorem procpathTest_iff : procpathTest process psinfo = true ↔
    ∀ procpath ∈ process.procpath, ∃ binpath ∈ psinfo.binpath,
      Begins multipathSplitCh procpath binpath := by
  unfold procpathTest
  cases process.procpath with
  | none => simp
  | some procpath => cases psinfo.binpath <;> simp [pathBegins_iff]

theorem excludepathTest_iff : excludepathTest process psinfo = true ↔
    ∀ excludepath ∈ process.excludepath, ∀ binpath ∈ psinfo.binpath,
      ¬Begins multipathSplitCh excludepath binpath := by
  unfold excludepathTest
  cases process.excludepath with
  | none => simp
  | some excludepath => cases psinfo.binpath <;> simp [← pathBegins_iff]

/-- The path is read at the front of an entry without being the entry. -/
def BeginsOnly (list binpath : Word) : Prop :=
  Begins multipathSplitCh list binpath ∧ binpath ∉ list.splitOn multipathSplitCh

/-- Where the test takes an entry for the path of the process, it does not matter: a path that is
taken for an entry of `procpath` is excluded as well, and one that is taken for an entry of
`excludepath` is not asked for. -/
structure EntriesTold (process : LrcProcess) (binpath : Word) : Prop where
  path : ∀ procpath ∈ process.procpath, BeginsOnly procpath binpath →
    ∃ excludepath ∈ process.excludepath, Begins multipathSplitCh excludepath binpath
  exclude : ∀ excludepath ∈ process.excludepath, BeginsOnly excludepath binpath →
    ∃ procpath ∈ process.procpath, binpath ∉ procpath.splitOn multipathSplitCh

theorem entriesTold_iff : EntriesTold process binpath ↔
    ((∀ procpath ∈ process.procpath, Begins multipathSplitCh procpath binpath) ∧
        (∀ excludepath ∈ process.excludepath, ¬Begins multipathSplitCh excludepath binpath) ↔
      (∀ procpath ∈ process.procpath, binpath ∈ procpath.splitOn multipathSplitCh) ∧
        ∀ excludepath ∈ process.excludepath, binpath ∉ excludepath.splitOn multipathSplitCh) := by
  have hbegins : ∀ list : Word, binpath ∈ list.splitOn multipathSplitCh →
      Begins multipathSplitCh list binpath := fun _ => begins_of_mem_splitOn
  constructor
  · intro h
    constructor
    · rintro ⟨hpath, hexclude⟩
      refine ⟨fun l hl => by_contra fun hno => ?_, fun x hx hmem => hexclude x hx (hbegins x hmem)⟩
      obtain ⟨x, hx, hb⟩ := h.path l hl ⟨hpath l hl, hno⟩
      exact hexclude x hx hb
    · rintro ⟨hpath, hexclude⟩
      refine ⟨fun l hl => hbegins l (hpath l hl), fun x hx hb => ?_⟩
      obtain ⟨l, hl, hno⟩ := h.exclude x hx ⟨hb, hexclude x hx⟩
      exact hno (hpath l hl)
  · intro h
    refine ⟨fun l hl hb => by_contra fun hno => ?_, fun x hx hb => by_contra fun hno => ?_⟩
    · have hpath : ∀ l' ∈ process.procpath, Begins multipathSplitCh l' binpath := by
        intro l' hl'
        rw [Option.mem_unique hl' hl]
        exact hb.1
      exact hb.2 ((h.mp ⟨hpath, fun x hx hbx => hno ⟨x, hx, hbx⟩⟩).1 l hl)
    · have hexclude : ∀ x' ∈ process.excludepath, binpath ∉ x'.splitOn multipathSplitCh := by
        intro x' hx'
        rw [Option.mem_unique hx' hx]
        exact hb.2
      exact (h.mpr ⟨fun l hl => by_contra fun hmem => hno ⟨l, hl, hmem⟩, hexclude⟩).2 x hx hb.1

theorem specProcess_iff : (specProcess process psinfo = true ↔ Selected process psinfo) ↔
    (procnameTest process psinfo = true → ∀ binpath ∈ psinfo.binpath,
      EntriesTold process binpath) := by
  rw [specProcess, Bool.and_eq_true, Bool.and_eq_true, selected_iff, ← procnameTest_iff, and_assoc,
    and_congr_right_iff]
  refine forall_congr' fun hname => ?_
  rw [procpathTest_iff, excludepathTest_iff]
  cases psinfo.binpath with
  | none => simp
  | some binpath =>
    simp only [Option.mem_def, Option.some.injEq, forall_eq', exists_eq_left']
    exact entriesTold_iff.symm

theorem filter_eq_filter_iff {α : Type} {p q : α → Bool} {l : List α} :
    l.filter p = l.filter q ↔ ∀ x ∈ l, p x = q x := by
  constructor
  · intro h x hx
    have hmem : x ∈ l.filter p ↔ x ∈ l.filter q := by rw [h]
    rw [List.mem_filter, List.mem_filter, and_iff_right hx, and_iff_right hx] at hmem
    exact Bool.eq_iff_iff.mpr hmem
  · exact List.filter_congr

/-- **The selection is exact exactly when there is room for it and, for each process with the name
that is asked for, the entries of the lists are told from its path.** -/
theorem fillSpecProcess_iff : fillSpecProcess process processlist =
      some (processlist.filter fun psinfo => Selected process psinfo) ↔
    (processlist.filter fun psinfo => Selected process psinfo).length ≤ processCountMax ∧
      ∀ psinfo ∈ processlist, procnameTest process psinfo = true →
        ∀ binpath ∈ psinfo.binpath, EntriesTold process binpath := by
  have hagree : processlist.filter (specProcess process) =
      (processlist.filter fun psinfo => Selected process psinfo) ↔
      ∀ psinfo ∈ processlist, procnameTest process psinfo = true →
        ∀ binpath ∈ psinfo.binpath, EntriesTold process binpath := by
    rw [filter_eq_filter_iff]
    refine forall₂_congr fun psinfo _ => ?_
    rw [← specProcess_iff, Bool.eq_iff_iff, decide_eq_true_iff]
  rw [← hagree, fillSpecProcess_eq]
  split_ifs with hle
  · rw [Option.some.injEq]
    constructor
    · intro h
      exact ⟨h ▸ hle, h⟩
    · exact fun h => h.2
  · refine iff_of_false not_false fun h => hle ?_
    rw [h.2]
    exact h.1

/-- A process with the binary `/a`. -/
def processA : ProcessInfo :=
  ⟨some ['a'], some ['/', 'a'], ['a', CString.nul], by decide, by decide, by decide⟩

/-- The process of `/a` is selected when `/ab` is asked for. -/
theorem fillSpecProcess_shorter :
    fillSpecProcess { LrcProcess.init with procpath := some ['/', 'a', 'b'] } [processA] ≠
      some ([processA].filter fun psinfo =>
        Selected { LrcProcess.init with procpath := some ['/', 'a', 'b'] } psinfo) := by
  intro h
  have hone : fillSpecProcess { LrcProcess.init with procpath := some ['/', 'a', 'b'] }
      [processA] = some [processA] := rfl
  have hnone : ([processA].filter fun psinfo =>
      Selected { LrcProcess.init with procpath := some ['/', 'a', 'b'] } psinfo) = [] := by
    decide
  rw [hone, hnone] at h
  exact List.cons_ne_nil _ _ (Option.some.inj h)

end Lre
