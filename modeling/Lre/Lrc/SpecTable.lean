import Lre.Counted
import Lre.Lrc.CmdlineExtract
import Lre.Lrc.Processdir
import Lre.Lrc.Users

/-!
# The table of the selected processes

* `fillSpecTable`: `fill_spec_process` with the array `process->psinfo` (`fillSpecTable_refines`).
* `FilledProcess.exprRunningHandler`, `FilledProcess.exprUserHandler`, `FilledProcess.cmdlineLoop`:
  the loops over the array, and what they give for the processes in it (`exprRunningHandler_out`,
  `exprUserHandler_out`, `cmdlineLoop_out`).
* `TableBounded`: what is stored and read stays in the array.
* **`fillSpecTable_bounded_iff`**: exactly when it does.
-/

namespace Lre

open Separated Counted

variable {D : Type}

/-- `DETAILS_UNIT_MAX`. -/
def detailsUnitMax : ℕ := 256

/-! ## The code -/

/-- `fill_spec_process`, with what stands in the array before. -/
def fillSpecTable (process : LrcProcess) (processlist : List ProcessUser)
    (psinfo : Arr ProcessUser) : Filling ProcessUser :=
  fill processCountMax (fun psinfo => specProcess process psinfo.toProcessInfo) processlist
    { psinfo with count := 0 }

/-- `struct lrc_process` after `fill_spec_process`: the arguments, the array with its count, and the
state. -/
structure FilledProcess where
  args : LrcProcess
  psinfo : Arr ProcessUser
  state : ObjState

/-- A path in the text of `expr_running_handler`. -/
def runningPath (psinfo : ProcessUser) : Word :=
  psinfo.binpath.getD ['(', 'u', 'n', 'k', 'n', 'o', 'w', 'n', ')'] ++ [';']

/-- The first words of the text. -/
def runningWord (count : ℕ) : Word :=
  (if count ≠ 0 then [] else ['n', 'o', 't', ' ']) ++ ['r', 'u', 'n', 'n', 'i', 'n', 'g', '.']

namespace FilledProcess

/-- The text of `expr_running_handler`; with `excludepath` it lists the paths. -/
def runningText (process : FilledProcess) : Reading OutText :=
  let buf := OutText.empty.write detailsUnitMax (runningWord process.psinfo.count)
  if process.args.excludepath ≠ none ∧ process.psinfo.count > 0 then
    process.psinfo.scan (fun buf psinfo =>
        (some (buf.write detailsUnitMax (runningPath psinfo))).map (·, false))
      (buf.write detailsUnitMax [' ', 'p', 'a', 't', 'h', ':'])
  else ⟨[], some buf⟩

/-- `expr_running_handler`: the result and the text that is output. -/
def exprRunningHandler (process : FilledProcess) (opt : Sym) (lreval : Option (LreValue D)) :
    Reading (BitVec 32 × Option Word) :=
  match process.state, lreval with
  | .success, some ⟨.int val, _⟩ =>
    let ret := lreCompareInt (if process.psinfo.count ≠ 0 then 1 else 0) val opt
    if vaildLreResults ret.toInt then
      let buf := process.runningText
      ⟨buf.reads, buf.out.map fun buf => (ret, some buf.text)⟩
    else ⟨[], some (ret, none)⟩
  | _, _ => ⟨[], some (lreRetError, none)⟩

/-- `expr_user_handler`. -/
def exprUserHandler (process : FilledProcess) (opt : Sym) (lreval : Option (LreValue D)) :
    Reading (BitVec 32 × Option Word) :=
  match process.state, lreval with
  | .failed, _ => ⟨[], some (lreRetError, none)⟩
  | .success, none => ⟨[], some (lreRetError, none)⟩
  | .success, some lreval =>
    match userPrinted lreval.content with
    | none => ⟨[], some (lreRetError, none)⟩
    | some printed =>
      match storeUser printed with
      | none => ⟨[], none⟩
      | some user =>
        let found := process.psinfo.scan (fun _ psinfo =>
          some (psinfo.user == user, psinfo.user == user)) false
        ⟨found.reads, found.out.map fun found =>
          let ret := lreCompareInt (if found then 1 else 0) 1 opt
          (ret, if vaildLreResults ret.toInt then some (userText (ret != 0)) else none)⟩

/-- The loop of `cmdline_extract_execute`. -/
def cmdlineLoop (process : FilledProcess) (argkey : Word) (keylen : ℕ) (spacesplit : Bool) :
    Reading OutText :=
  process.psinfo.scan (fun outstr psinfo => (do
      let argv ← cmd2args psinfo.cmdline
      let arg ← extractArg process.args.argindex argkey keylen spacesplit argv
      some (arg.toList.foldl (OutText.addPath cmdlineExtractLenMax) outstr)).map (·, false)) .empty

end FilledProcess

/-! ## The purpose -/

/-- The process passes the tests: it has the name, its path is read at the front of an entry of
`procpath`, and of none of `excludepath`. -/
structure PassesTests (process : LrcProcess) (psinfo : ProcessInfo) : Prop where
  name : ∀ procname ∈ process.procname, psinfo.name = some procname
  path : ∀ procpath ∈ process.procpath, ∃ binpath ∈ psinfo.binpath,
    Begins multipathSplitCh procpath binpath
  exclude : ∀ excludepath ∈ process.excludepath, ∀ binpath ∈ psinfo.binpath,
    ¬Begins multipathSplitCh excludepath binpath

/-- Nothing is stored behind the array, the count stays in it, and the loops read only what was
stored. -/
structure TableBounded (D : Type) (process : LrcProcess) (run : Filling ProcessUser) : Prop where
  stores : ∀ i ∈ run.stores, i < processCountMax
  count : ∃ psinfo ∈ run.arr, psinfo.count ≤ processCountMax
  running : ∀ psinfo ∈ run.arr, ∀ state opt, ∀ lreval : Option (LreValue D),
    ∀ i ∈ (FilledProcess.exprRunningHandler ⟨process, psinfo, state⟩ opt lreval).reads,
      i ∈ run.stores
  user : ∀ psinfo ∈ run.arr, ∀ state opt, ∀ lreval : Option (LreValue D),
    ∀ i ∈ (FilledProcess.exprUserHandler ⟨process, psinfo, state⟩ opt lreval).reads,
      i ∈ run.stores
  cmdline : ∀ psinfo ∈ run.arr, ∀ argkey keylen spacesplit,
    ∀ i ∈ (FilledProcess.cmdlineLoop ⟨process, psinfo, .success⟩ argkey keylen spacesplit).reads,
      i ∈ run.stores

theorem passesTests_iff {process : LrcProcess} {psinfo : ProcessInfo} :
    PassesTests process psinfo ↔ specProcess process psinfo = true := by
  rw [specProcess, Bool.and_eq_true, Bool.and_eq_true, procnameTest_iff, procpathTest_iff,
    excludepathTest_iff, and_assoc]
  exact ⟨fun h => ⟨h.name, h.path, h.exclude⟩, fun h => ⟨h.1, h.2.1, h.2.2⟩⟩

instance (process : LrcProcess) : DecidablePred (PassesTests process) :=
  fun _ => decidable_of_iff _ passesTests_iff.symm

/-- The processes that pass the tests. -/
def passing (process : LrcProcess) (processlist : List ProcessUser) : List ProcessUser :=
  processlist.filter fun psinfo => PassesTests process psinfo.toProcessInfo

variable {process : LrcProcess} {processlist selected : List ProcessUser} {psinfo : Arr ProcessUser}
  {filled : FilledProcess} {state : ObjState} {opt : Sym} {lreval : Option (LreValue D)}
  {argkey : Word} {keylen i : ℕ} {spacesplit : Bool}

/-! ## What is stored -/

theorem filter_specProcess : (processlist.filter fun psinfo =>
      specProcess process psinfo.toProcessInfo) = passing process processlist :=
  List.filter_congr fun _ _ => Bool.eq_iff_iff.mpr (by rw [decide_eq_true_iff, passesTests_iff])

theorem fillSpecTable_of_le (hle : (passing process processlist).length ≤ processCountMax) :
    ∃ arr, fillSpecTable process processlist psinfo =
        ⟨List.range' 0 (passing process processlist).length, some arr⟩ ∧
      arr.Holds (passing process processlist) := by
  rw [← filter_specProcess] at hle ⊢
  exact fill_of_le (Arr.holds_nil (by rfl)) hle

theorem fillSpecTable_of_lt (hlt : processCountMax < (passing process processlist).length) :
    (fillSpecTable process processlist psinfo).arr = none ∧
      processCountMax ∈ (fillSpecTable process processlist psinfo).stores := by
  rw [← filter_specProcess] at hlt
  refine fill_of_lt (Nat.zero_le _) ?_
  show _ < 0 + _
  rwa [Nat.zero_add]

/-- The array holds what `fill_spec_process` selects, or both leave the array. -/
theorem fillSpecTable_refines (process : LrcProcess) (processlist : List ProcessUser)
    (psinfo : Arr ProcessUser) :
    (fillSpecTable process processlist psinfo).arr = none ∧
        fillSpecProcess process (processlist.map (·.toProcessInfo)) = none ∨
      ∃ selected, ∃ arr ∈ (fillSpecTable process processlist psinfo).arr, arr.Holds selected ∧
        fillSpecProcess process (processlist.map (·.toProcessInfo)) =
          some (selected.map (·.toProcessInfo)) := by
  have hmap : (processlist.map (·.toProcessInfo)).filter (specProcess process) =
      (passing process processlist).map (·.toProcessInfo) := by
    rw [List.filter_map, ← filter_specProcess]
    rfl
  rw [fillSpecProcess_eq, hmap, List.length_map]
  by_cases hle : (passing process processlist).length ≤ processCountMax
  · obtain ⟨arr, hrun, harr⟩ := @fillSpecTable_of_le process processlist psinfo hle
    exact .inr ⟨_, arr, by rw [hrun]; rfl, harr, if_pos hle⟩
  · exact .inl ⟨(fillSpecTable_of_lt (Nat.not_le.mp hle)).1, if_neg hle⟩

/-! ## What is read -/

theorem lt_of_mem_runningText (h : i ∈ filled.runningText.reads) : i < filled.psinfo.count := by
  unfold FilledProcess.runningText at h
  dsimp only at h
  split_ifs at h
  · exact lt_of_mem_scan h
  · cases h

theorem lt_of_mem_exprRunningHandler (h : i ∈ (filled.exprRunningHandler opt lreval).reads) :
    i < filled.psinfo.count := by
  unfold FilledProcess.exprRunningHandler at h
  split at h
  · dsimp only at h
    generalize lreCompareInt _ _ opt = ret at h
    split_ifs at h
    · exact lt_of_mem_runningText h
    · cases h
  · cases h

theorem lt_of_mem_exprUserHandler (h : i ∈ (filled.exprUserHandler opt lreval).reads) :
    i < filled.psinfo.count := by
  unfold FilledProcess.exprUserHandler at h
  split at h
  · cases h
  · cases h
  · split at h
    · cases h
    · split at h
      · cases h
      · exact lt_of_mem_scan h

/-! ## What the loops give -/

/-- The text of `expr_running_handler` for the selected processes. -/
def runningDetails (process : LrcProcess) (selected : List ProcessUser) : Word :=
  runningWord selected.length ++
    if process.excludepath ≠ none ∧ selected ≠ [] then
      [' ', 'p', 'a', 't', 'h', ':'] ++ selected.flatMap runningPath
    else []

section Holds

variable (h : psinfo.Holds selected)

include h

theorem runningText_out (process : LrcProcess) (state : ObjState) :
    (FilledProcess.runningText ⟨process, psinfo, state⟩).out =
      some (.ofText detailsUnitMax (runningDetails process selected)) := by
  unfold FilledProcess.runningText runningDetails
  dsimp only
  rw [h.count, OutText.empty_eq_ofText detailsUnitMax, OutText.write_ofText, List.nil_append]
  by_cases hlist : process.excludepath ≠ none ∧ selected ≠ []
  · have hpos : process.excludepath ≠ none ∧ selected.length > 0 :=
      ⟨hlist.1, List.length_pos_of_ne_nil hlist.2⟩
    have hloop : ∀ out : OutText, selected.foldlM (fun out ps =>
        some (OutText.write detailsUnitMax out (runningPath ps))) out =
          some ((selected.map runningPath).foldl (OutText.write detailsUnitMax) out) := by
      intro out
      rw [List.foldl_map]
      exact List.foldlM_pure
    rw [if_pos hpos, if_pos hlist, OutText.write_ofText, h.scan_out, scanList_foldlM, hloop,
      OutText.foldl_write, List.append_assoc, List.flatMap_def]
  · have hno : ¬(process.excludepath ≠ none ∧ selected.length > 0) := fun hpos =>
      hlist ⟨hpos.1, List.length_pos_iff.mp hpos.2⟩
    rw [if_neg hno, if_neg hlist, List.append_nil]

theorem exprRunningHandler_out (process : LrcProcess) (opt : Sym) (val : BitVec 32)
    (ptr : Option ℕ) :
    (FilledProcess.exprRunningHandler (D := D) ⟨process, psinfo, .success⟩ opt
        (some ⟨.int val, ptr⟩)).out =
      some (lreCompareInt (if selected = [] then 0 else 1) val opt,
        if vaildLreResults (lreCompareInt (if selected = [] then 0 else 1) val opt).toInt then
          some ((runningDetails process selected).take (detailsUnitMax - 1))
        else none) := by
  have hcount : psinfo.count = 0 ↔ selected = [] := by
    rw [h.count, List.length_eq_zero_iff]
  simp only [FilledProcess.exprRunningHandler, ne_eq, ite_not, hcount]
  generalize lreCompareInt (if selected = [] then 0 else 1) val opt = ret
  by_cases hret : vaildLreResults ret.toInt = true
  · rw [if_pos hret, if_pos hret, runningText_out h]
    rfl
  · rw [if_neg hret, if_neg hret]

theorem exprUserHandler_out (process : LrcProcess) (state : ObjState) (opt : Sym)
    (lreval : Option (LreValue D)) :
    (FilledProcess.exprUserHandler ⟨process, psinfo, state⟩ opt lreval).out =
      ExecutedProcess.exprUserHandler ⟨selected, state⟩ opt lreval := by
  cases state with
  | failed => rfl
  | success =>
    cases lreval with
    | none => rfl
    | some lreval =>
      unfold FilledProcess.exprUserHandler ExecutedProcess.exprUserHandler
      dsimp only
      cases userPrinted lreval.content with
      | none => rfl
      | some printed =>
        dsimp only
        cases storeUser printed with
        | none => rfl
        | some user =>
          dsimp only
          rw [h.scan_out, scanList_any]
          rfl

theorem cmdlineLoop_out (process : LrcProcess) (state : ObjState) (argkey : Word) (keylen : ℕ)
    (spacesplit : Bool) :
    (FilledProcess.cmdlineLoop ⟨process, psinfo, state⟩ argkey keylen spacesplit).out =
      extractLoop process.argindex argkey keylen spacesplit (selected.map (·.toProcessInfo))
        .empty := by
  rw [FilledProcess.cmdlineLoop, h.scan_out, scanList_foldlM]
  generalize OutText.empty = outstr
  clear h
  induction selected generalizing outstr with
  | nil => rfl
  | cons ps rest ih =>
    rw [List.foldlM_cons, List.map_cons, extractLoop]
    cases cmd2args ps.cmdline with
    | none => rfl
    | some argv =>
      simp only [Option.bind_eq_bind, Option.bind_some]
      cases extractArg process.argindex argkey keylen spacesplit argv with
      | none => rfl
      | some arg => exact ih _

end Holds

/-! ## The verdict -/

/-- The twin of the loop, in `processdir_execute`, stays in its array. -/
theorem length_processdirPaths_le (process : LrcProcess) (processlist : List ProcessInfo) :
    (processdirPaths process processlist).length ≤ processCountMax := by
  rw [processdirPaths_eq]
  exact List.length_take_le _ _

/-- **What is stored stays in the array, and the loops read only what was stored, exactly when no
more than `PROCESS_COUNT_MAX` processes pass the tests.** -/
theorem fillSpecTable_bounded_iff (process : LrcProcess) (processlist : List ProcessUser)
    (psinfo : Arr ProcessUser) :
    TableBounded D process (fillSpecTable process processlist psinfo) ↔
      (passing process processlist).length ≤ processCountMax := by
  constructor
  · intro h
    by_contra hlt
    exact absurd (h.stores _ (fillSpecTable_of_lt (Nat.not_le.mp hlt)).2) (Nat.lt_irrefl _)
  · intro hle
    obtain ⟨arr, hrun, harr⟩ := @fillSpecTable_of_le process processlist psinfo hle
    -- what is below the count was stored
    have hstored : ∀ filled : FilledProcess, filled.psinfo ∈ some arr →
        ∀ i < filled.psinfo.count,
          i ∈ List.range' 0 (passing process processlist).length := by
      rintro filled ⟨rfl⟩ i hi
      rw [harr.count] at hi
      exact List.mem_range'_1.mpr ⟨Nat.zero_le i, by rwa [Nat.zero_add]⟩
    rw [hrun]
    refine ⟨fun i hi => ?_, ⟨arr, rfl, harr.count ▸ hle⟩, ?_, ?_, ?_⟩
    · have hlt := (List.mem_range'_1.mp hi).2
      omega
    · exact fun _ hps _ _ _ i hi => hstored _ hps i (lt_of_mem_exprRunningHandler hi)
    · exact fun _ hps _ _ _ i hi => hstored _ hps i (lt_of_mem_exprUserHandler hi)
    · exact fun _ hps _ _ _ i hi => hstored _ hps i (lt_of_mem_scan hi)

/-- The processes with the name `a` are asked for. -/
def askA : LrcProcess := { LrcProcess.init with procname := some ['a'] }

/-- One more of them than the array has room for. -/
def manyA : List ProcessUser := List.replicate (processCountMax + 1) { processA with user := ['r'] }

/-- Of 1025 processes with the name `a` the last one is stored behind the array. -/
theorem fillSpecTable_overflow :
    processCountMax ∈ (fillSpecTable askA manyA ⟨fun _ => none, 0⟩).stores ∧
      ¬TableBounded Unit askA (fillSpecTable askA manyA ⟨fun _ => none, 0⟩) := by
  have hpass : PassesTests askA processA := passesTests_iff.mpr rfl
  have hall : passing askA manyA = manyA :=
    List.filter_replicate_of_pos (decide_eq_true hpass)
  have hlt : processCountMax < (passing askA manyA).length := by
    rw [hall, manyA, List.length_replicate]
    exact Nat.lt_succ_self _
  have hstore := (@fillSpecTable_of_lt _ _ ⟨fun _ => none, 0⟩ hlt).2
  exact ⟨hstore, fun h => absurd (h.stores _ hstore) (Nat.lt_irrefl _)⟩

end Lre
