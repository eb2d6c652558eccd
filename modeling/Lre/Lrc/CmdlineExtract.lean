import Mathlib.Data.List.DropRight
import Lre.Lrc.Cmdline

/-!
# Arguments out of command lines

* `cmdlineExtractExecute`: the call `cmdline_extract`.
* `wantedArg`: the argument that is asked for.
* **`cmdlineExtractExecute_iff`**: when the call fails properly, or returns the list of these
  arguments without an access outside.
-/

namespace Lre

open Separated CString

/-- `CMDLINE_EXTRACT_LEN_MAX`. -/
def cmdlineExtractLenMax : ℕ := 4095

/-- The loop over the blanks at the end of `argkey`: `keylen` and `spacesplit`, `some none` when
nothing else is left; `none` is the read in front of the string. -/
def keylenLoop (argkey : Word) : ℕ → Bool → Option (Option (ℕ × Bool))
  | 0, _ => none
  | k + 1, spacesplit =>
    if argkey[k]? = some ' ' then
      if k = 0 then some none else keylenLoop argkey k true
    else some (some (k + 1, spacesplit))

/-- The body of the loop of `cmdline_extract_execute`: what it appends for the arguments of a
process. `none` is an argument in front of `argv`, or `argv[j] + strlen(argkey)` behind the
terminator of the argument. -/
def extractArg (argindex : BitVec 32) (argkey : Word) (keylen : ℕ) (spacesplit : Bool)
    (argv : List Word) : Option (Option Word) :=
  if argindex ≠ 0 ∧ argindex.toInt < argv.length then
    if argindex.toInt < 0 then none else some argv[argindex.toInt.toNat]?
  else
    let j := argv.findIdx ((argkey.take keylen).isPrefixOf ·)
    if spacesplit ∧ j + 1 < argv.length then some argv[j + 1]?
    else
      match argv[j]? with
      | none => some none
      | some arg =>
        if argkey.length ≤ arg.length then some (some (arg.drop argkey.length)) else none

/-- The loop of `cmdline_extract_execute` over the selected processes. -/
def extractLoop (argindex : BitVec 32) (argkey : Word) (keylen : ℕ) (spacesplit : Bool) :
    List ProcessInfo → OutText → Option OutText
  | [], outstr => some outstr
  | psinfo :: rest, outstr => do
    let argv ← cmd2args psinfo.cmdline
    let arg ← extractArg argindex argkey keylen spacesplit argv
    extractLoop argindex argkey keylen spacesplit rest
      (arg.toList.foldl (OutText.addPath cmdlineExtractLenMax) outstr)

/-- `cmdline_extract_execute`: its return code and the string it sets; `none` is an access outside
an object, `strlen(NULL)` included. -/
def cmdlineExtractExecute (process : LrcProcess) (processlist : List ProcessInfo) :
    Option (ℤ × Option Word) :=
  if process.procname = none ∧ process.procpath = none then some (einval, none)
  else do
    let selected ← fillSpecProcess process processlist
    let argkey ← process.argkey
    match ← keylenLoop argkey argkey.length false with
    | none => some (einval, none)
    | some (keylen, spacesplit) =>
      let outstr ← extractLoop process.argindex argkey keylen spacesplit selected .empty
      let str ← outstr.finish
      some (0, some str)

/-! ## The purpose -/

/-- The key without the blanks at its end. -/
def extractKey (argkey : Word) : Word := argkey.rdropWhile (· = ' ')

/-- Where the first argument that starts with the key is. -/
def keyIdx (argkey : Word) (argv : List Word) : ℕ := argv.findIdx ((extractKey argkey).isPrefixOf ·)

/-- The argument at the index, when there is one; otherwise, where the key is found, the argument
behind it when the key ended in a blank, or else what follows the key. -/
def wantedArg (argindex : ℤ) (argkey : Word) (argv : List Word) : Option Word :=
  if 0 < argindex ∧ argindex < argv.length then argv[argindex.toNat]?
  else
    (if argkey.getLast? = some ' ' then argv[keyIdx argkey argv + 1]? else none).or
      (argv[keyIdx argkey argv]?.map (·.drop (extractKey argkey).length))

/-- The arguments that are asked for, in the order of the processes. -/
def wantedArgs (argindex : ℤ) (argkey : Word) (selected : List ProcessInfo) : List Word :=
  selected.filterMap fun psinfo => wantedArg argindex argkey (segments psinfo.cmdline)

/-- A key with blanks at its end is found in the last argument. -/
def KeyAtEnd (argindex : ℤ) (argkey : Word) (argv : List Word) : Prop :=
  ¬(0 < argindex ∧ argindex < argv.length) ∧ argkey.getLast? = some ' ' ∧
    keyIdx argkey argv + 1 = argv.length

instance (argindex : ℤ) (argkey : Word) (argv : List Word) :
    Decidable (KeyAtEnd argindex argkey argv) :=
  inferInstanceAs (Decidable (¬_ ∧ argkey.getLast? = some ' ' ∧ _))

variable {argindex : BitVec 32} {argkey : Word} {argv : List Word} {n max : ℕ}
  {process : LrcProcess} {processlist selected : List ProcessInfo}

/-! ## The key -/

theorem extractKey_front : extractKey argkey <+: argkey := List.rdropWhile_prefix _ _

theorem extractKey_take_succ (h : n < argkey.length) : extractKey (argkey.take (n + 1)) =
    if argkey[n]? = some ' ' then extractKey (argkey.take n) else argkey.take (n + 1) := by
  rw [extractKey, extractKey, List.take_succ_eq_append_getElem h, List.getElem?_eq_getElem h,
    List.rdropWhile_concat]
  simp only [decide_eq_true_eq, Option.some.injEq]

theorem keylenLoop_true (hpos : n ≠ 0) (hle : n ≤ argkey.length) : keylenLoop argkey n true =
    if extractKey (argkey.take n) = [] then some none
    else some (some ((extractKey (argkey.take n)).length, true)) := by
  induction n with
  | zero => exact absurd rfl hpos
  | succ n ih =>
    rw [keylenLoop, extractKey_take_succ hle]
    by_cases hblank : argkey[n]? = some ' '
    · rw [if_pos hblank, if_pos hblank]
      by_cases hzero : n = 0
      · subst hzero
        rfl
      · rw [if_neg hzero, ih hzero (Nat.le_of_succ_le hle)]
    · rw [if_neg hblank, if_neg hblank, if_neg, List.length_take, Nat.min_eq_left hle]
      intro hnil
      have hlen := congrArg List.length hnil
      rw [List.length_take, Nat.min_eq_left hle] at hlen
      exact absurd hlen (Nat.succ_ne_zero n)

theorem keylenLoop_eq : keylenLoop argkey argkey.length false =
    if argkey = [] then none
    else if extractKey argkey = [] then some none
    else some (some ((extractKey argkey).length, decide (argkey.getLast? = some ' '))) := by
  by_cases hnil : argkey = []
  · subst hnil
    rfl
  · obtain ⟨n, hn⟩ := Nat.exists_eq_add_one_of_ne_zero (List.length_eq_zero_iff.not.mpr hnil)
    have hkey := @extractKey_take_succ argkey n (by omega)
    rw [← hn, List.take_length] at hkey
    rw [if_neg hnil, List.getLast?_eq_getElem?, hn, keylenLoop, Nat.add_sub_cancel]
    by_cases hblank : argkey[n]? = some ' '
    · rw [if_pos hblank] at hkey
      rw [if_pos hblank, decide_eq_true hblank, hkey]
      by_cases hzero : n = 0
      · subst hzero
        rfl
      · rw [if_neg hzero, keylenLoop_true hzero (by omega)]
    · rw [if_neg hblank] at hkey
      rw [if_neg hblank, decide_eq_false hblank, hkey, if_neg hnil, hn]

theorem extractKey_of_not_blank (h : ¬argkey.getLast? = some ' ') : extractKey argkey = argkey := by
  refine List.rdropWhile_eq_self_iff.mpr fun hne hlast => h ?_
  rw [List.getLast?_eq_some_getLast hne, of_decide_eq_true hlast]

theorem extractKey_lt_of_blank (h : argkey.getLast? = some ' ') :
    (extractKey argkey).length < argkey.length := by
  refine Nat.lt_of_le_of_ne extractKey_front.length_le fun hlen => ?_
  have hself := List.rdropWhile_eq_self_iff.mp (extractKey_front.eq_of_length hlen)
  have hne : argkey ≠ [] := by
    rintro rfl
    cases h
  rw [List.getLast?_eq_some_getLast hne, Option.some.injEq] at h
  exact hself hne (decide_eq_true h)

theorem key_front {arg : Word} (h : argv[keyIdx argkey argv]? = some arg) :
    extractKey argkey <+: arg := by
  obtain ⟨hlt, rfl⟩ := List.getElem?_eq_some_iff.mp h
  exact List.isPrefixOf_iff_prefix.mp (List.findIdx_getElem (w := hlt))

/-! ## One process -/

theorem toInt_ne_zero (h : argindex ≠ 0) : argindex.toInt ≠ 0 := fun h0 =>
  h (BitVec.toInt_inj.mp (h0.trans BitVec.toInt_zero.symm))

/-- The body of the loop with the key of `argkey`. -/
def extractKeyArg (argindex : BitVec 32) (argkey : Word) (argv : List Word) :
    Option (Option Word) :=
  extractArg argindex argkey (extractKey argkey).length (decide (argkey.getLast? = some ' ')) argv

theorem extractKeyArg_of_neg (h : argindex.toInt < 0) :
    extractKeyArg argindex argkey argv = none := by
  have hne : argindex ≠ 0 := by
    rintro rfl
    exact absurd h (by decide)
  rw [extractKeyArg, extractArg, if_pos ⟨hne, by omega⟩, if_pos h]

theorem extractKeyArg_of_key (h : 0 ≤ argindex.toInt)
    (hkey : ¬(0 < argindex.toInt ∧ argindex.toInt < argv.length)) :
    extractKeyArg argindex argkey argv =
      if argkey.getLast? = some ' ' ∧ keyIdx argkey argv + 1 < argv.length then
        some argv[keyIdx argkey argv + 1]?
      else
        match argv[keyIdx argkey argv]? with
        | none => some none
        | some arg =>
          if argkey.length ≤ arg.length then some (some (arg.drop argkey.length)) else none := by
  have hmode : ¬(argindex ≠ 0 ∧ argindex.toInt < argv.length) := fun hno => hkey
    ⟨Int.lt_iff_le_and_ne.mpr ⟨h, (toInt_ne_zero hno.1).symm⟩, hno.2⟩
  rw [extractKeyArg, extractArg, if_neg hmode, ← List.prefix_iff_eq_take.mp extractKey_front]
  simp only [decide_eq_true_eq]
  rfl

theorem wantedArg_of_key (hkey : ¬(0 < argindex.toInt ∧ argindex.toInt < argv.length)) :
    wantedArg argindex.toInt argkey argv =
      (if argkey.getLast? = some ' ' then argv[keyIdx argkey argv + 1]? else none).or
        (argv[keyIdx argkey argv]?.map (·.drop (extractKey argkey).length)) := if_neg hkey

/-- Unless a key with blanks is found at the end, the argument is the one that is asked for. -/
theorem extractKeyArg_eq (h : 0 ≤ argindex.toInt) (hend : ¬KeyAtEnd argindex.toInt argkey argv) :
    extractKeyArg argindex argkey argv = some (wantedArg argindex.toInt argkey argv) := by
  by_cases hrange : 0 < argindex.toInt ∧ argindex.toInt < argv.length
  · have hne : argindex ≠ 0 := by
      rintro rfl
      exact absurd hrange.1 (by decide)
    rw [extractKeyArg, extractArg, if_pos ⟨hne, hrange.2⟩, if_neg (by omega), wantedArg,
      if_pos hrange]
  · rw [extractKeyArg_of_key h hrange, wantedArg_of_key hrange]
    by_cases hnext : argkey.getLast? = some ' ' ∧ keyIdx argkey argv + 1 < argv.length
    · rw [if_pos hnext, if_pos hnext.1, List.getElem?_eq_getElem hnext.2, Option.some_or]
    · rw [if_neg hnext]
      cases hget : argv[keyIdx argkey argv]? with
      | none =>
        have hlen := List.getElem?_eq_none_iff.mp hget
        rw [Option.map_none, Option.or_none, List.getElem?_eq_none (by omega), ite_self]
      | some arg =>
        obtain ⟨hlt, -⟩ := List.getElem?_eq_some_iff.mp hget
        have hblank : ¬argkey.getLast? = some ' ' := fun hblank =>
          hend ⟨hrange, hblank, Nat.le_antisymm hlt (Nat.not_lt.mp fun hno => hnext ⟨hblank, hno⟩)⟩
        have hkey := key_front hget
        rw [extractKey_of_not_blank hblank] at hkey ⊢
        rw [if_neg hblank, Option.none_or, Option.map_some]
        exact if_pos hkey.length_le

/-- A key with blanks that is found at the end: the text is cut by the blanks as well. -/
theorem extractKeyArg_keyAtEnd (h : 0 ≤ argindex.toInt)
    (hend : KeyAtEnd argindex.toInt argkey argv) {arg : Option Word}
    (harg : extractKeyArg argindex argkey argv = some arg) :
    ∃ text wanted, arg = some text ∧ wantedArg argindex.toInt argkey argv = some wanted ∧
      text.length < wanted.length := by
  obtain ⟨hrange, hblank, hlast⟩ := hend
  have hlt : keyIdx argkey argv < argv.length := by omega
  rw [extractKeyArg_of_key h hrange, if_neg (by omega), List.getElem?_eq_getElem hlt] at harg
  rw [wantedArg_of_key hrange, if_pos hblank, List.getElem?_eq_none (by omega), Option.none_or,
    List.getElem?_eq_getElem hlt, Option.map_some]
  dsimp only at harg
  split_ifs at harg with hle
  cases harg
  refine ⟨_, _, rfl, rfl, ?_⟩
  have hshort := extractKey_lt_of_blank hblank
  rw [List.length_drop, List.length_drop]
  omega

/-! ## All processes -/

theorem wantedArgs_cons (psinfo : ProcessInfo) (rest : List ProcessInfo) :
    wantedArgs argindex.toInt argkey (psinfo :: rest) =
      (wantedArg argindex.toInt argkey (segments psinfo.cmdline)).toList ++
        wantedArgs argindex.toInt argkey rest := by
  rw [wantedArgs, List.filterMap_cons]
  cases wantedArg argindex.toInt argkey (segments psinfo.cmdline) <;> rfl

/-- The loop with the key of `argkey`. -/
def extractKeyLoop (argindex : BitVec 32) (argkey : Word) (selected : List ProcessInfo)
    (outstr : OutText) : Option OutText :=
  extractLoop argindex argkey (extractKey argkey).length (decide (argkey.getLast? = some ' '))
    selected outstr

theorem extractKeyLoop_cons (psinfo : ProcessInfo) (rest : List ProcessInfo) (text : Word) :
    extractKeyLoop argindex argkey (psinfo :: rest) (.ofText cmdlineExtractLenMax text) =
      if Terminated psinfo.cmdline then
        (extractKeyArg argindex argkey (segments psinfo.cmdline)).bind fun arg =>
          extractKeyLoop argindex argkey rest (.ofText cmdlineExtractLenMax
            (text ++ terminated multipathSplitCh arg.toList))
      else none := by
  rw [extractKeyLoop, extractLoop, cmd2args_eq psinfo.cmdline_le]
  split_ifs with h
  · simp only [Option.bind_eq_bind, Option.bind_some, OutText.foldl_addPath]
    rfl
  · rfl

/-- The loop appends the arguments that are asked for. -/
theorem extractKeyLoop_eq (hindex : 0 ≤ argindex.toInt)
    (hterm : ∀ psinfo ∈ selected, Terminated psinfo.cmdline)
    (htold : ∀ psinfo ∈ selected, ¬KeyAtEnd argindex.toInt argkey (segments psinfo.cmdline))
    (text : Word) :
    extractKeyLoop argindex argkey selected (.ofText cmdlineExtractLenMax text) =
      some (.ofText cmdlineExtractLenMax
        (text ++ terminated multipathSplitCh (wantedArgs argindex.toInt argkey selected))) := by
  induction selected generalizing text with
  | nil =>
    rw [wantedArgs, List.filterMap_nil, terminated_nil, List.append_nil]
    rfl
  | cons psinfo rest ih =>
    rw [extractKeyLoop_cons, if_pos (hterm psinfo List.mem_cons_self),
      extractKeyArg_eq hindex (htold psinfo List.mem_cons_self), Option.bind_some,
      ih (fun p hp => hterm p (List.mem_cons_of_mem _ hp))
        (fun p hp => htold p (List.mem_cons_of_mem _ hp)),
      wantedArgs_cons, terminated_append, List.append_assoc]

theorem length_extractKeyArg {arg : Option Word} (h : 0 ≤ argindex.toInt)
    (harg : extractKeyArg argindex argkey argv = some arg) :
    (terminated multipathSplitCh arg.toList).length ≤
        (terminated multipathSplitCh (wantedArg argindex.toInt argkey argv).toList).length ∧
      (KeyAtEnd argindex.toInt argkey argv → (terminated multipathSplitCh arg.toList).length <
        (terminated multipathSplitCh (wantedArg argindex.toInt argkey argv).toList).length) := by
  by_cases hend : KeyAtEnd argindex.toInt argkey argv
  · obtain ⟨text, wanted, rfl, hwanted, hlt⟩ := extractKeyArg_keyAtEnd h hend harg
    have hlt' : (terminated multipathSplitCh [text]).length <
        (terminated multipathSplitCh [wanted]).length := by
      simp only [terminated_cons, terminated_nil, List.length_append]
      omega
    rw [hwanted]
    exact ⟨Nat.le_of_lt hlt', fun _ => hlt'⟩
  · rw [extractKeyArg_eq h hend] at harg
    cases harg
    exact ⟨Nat.le_refl _, fun hno => absurd hno hend⟩

theorem extractKeyLoop_some {text : Word} {out : OutText}
    (h : extractKeyLoop argindex argkey selected (.ofText cmdlineExtractLenMax text) = some out) :
    ∃ args, out = .ofText cmdlineExtractLenMax (text ++ terminated multipathSplitCh args) ∧
      (∀ psinfo ∈ selected, 0 ≤ argindex.toInt ∧ Terminated psinfo.cmdline) ∧
      (terminated multipathSplitCh args).length ≤
        (terminated multipathSplitCh (wantedArgs argindex.toInt argkey selected)).length ∧
      ((∃ psinfo ∈ selected, KeyAtEnd argindex.toInt argkey (segments psinfo.cmdline)) →
        (terminated multipathSplitCh args).length <
          (terminated multipathSplitCh (wantedArgs argindex.toInt argkey selected)).length) := by
  induction selected generalizing text with
  | nil =>
    cases h
    refine ⟨[], ?_, fun p hp => ?_, Nat.le_refl _, fun ⟨p, hp, _⟩ => ?_⟩
    · rw [terminated_nil, List.append_nil]
    · cases hp
    · cases hp
  | cons psinfo rest ih =>
    rw [extractKeyLoop_cons] at h
    split_ifs at h with hterm
    obtain ⟨arg, harg, hrest⟩ := Option.bind_eq_some_iff.mp h
    have hindex : 0 ≤ argindex.toInt := by
      by_contra hneg
      rw [extractKeyArg_of_neg (Int.not_le.mp hneg)] at harg
      cases harg
    obtain ⟨args, rfl, hall, hle, hlt⟩ := ih hrest
    obtain ⟨hle', hlt'⟩ := length_extractKeyArg hindex harg
    refine ⟨arg.toList ++ args, ?_, fun p hp => ?_, ?_, ?_⟩
    · rw [terminated_append, List.append_assoc]
    · obtain rfl | hp := List.mem_cons.mp hp
      · exact ⟨hindex, hterm⟩
      · exact hall p hp
    · rw [wantedArgs_cons, terminated_append, terminated_append, List.length_append,
        List.length_append]
      exact Nat.add_le_add hle' hle
    · rintro ⟨p, hp, hend⟩
      rw [wantedArgs_cons, terminated_append, terminated_append, List.length_append,
        List.length_append]
      obtain rfl | hp := List.mem_cons.mp hp
      · exact Nat.add_lt_add_of_lt_of_le (hlt' hend) hle
      · exact Nat.add_lt_add_of_le_of_lt hle' (hlt ⟨p, hp, hend⟩)

/-! ## The call -/

/-- The call fails properly, or returns the list of the arguments that are asked for. -/
def CmdlineExtracted (process : LrcProcess) (processlist selected : List ProcessInfo) : Prop :=
  cmdlineExtractExecute process processlist = some (einval, none) ∨
    cmdlineExtractExecute process processlist = some (0, some ([multipathSplitCh].intercalate
      (wantedArgs process.argindex.toInt (process.argkey.getD []) selected)))

/-- The key can be used with the index on the selected processes. -/
structure Extractable (argindex : ℤ) (argkey : Word) (selected : List ProcessInfo) : Prop where
  index : 0 ≤ argindex
  terminated : ∀ psinfo ∈ selected, Terminated psinfo.cmdline
  told : ∀ psinfo ∈ selected, ¬KeyAtEnd argindex argkey (segments psinfo.cmdline)
  found : ∃ psinfo ∈ selected, wantedArg argindex argkey (segments psinfo.cmdline) ≠ none
  room : ([multipathSplitCh].intercalate (wantedArgs argindex argkey selected)).length <
    cmdlineExtractLenMax

theorem wantedArgs_ne_nil {argindex : ℤ} : wantedArgs argindex argkey selected ≠ [] ↔
    ∃ psinfo ∈ selected, wantedArg argindex argkey (segments psinfo.cmdline) ≠ none := by
  rw [ne_eq, wantedArgs, List.filterMap_eq_nil_iff]
  push Not
  rfl

/-- The loop, from the empty buffer to the string, gives the arguments that are asked for exactly
when the key can be used. -/
theorem extractKeyLoop_iff :
    ((extractKeyLoop argindex argkey selected .empty).bind OutText.finish =
        some ([multipathSplitCh].intercalate (wantedArgs argindex.toInt argkey selected))) ↔
      Extractable argindex.toInt argkey selected := by
  have hmax : 0 < cmdlineExtractLenMax := by decide
  rw [OutText.empty_eq_ofText cmdlineExtractLenMax]
  constructor
  · intro h
    obtain ⟨out, hout, hfinish⟩ := Option.bind_eq_some_iff.mp h
    obtain ⟨args, rfl, hall, hle, hlt⟩ := extractKeyLoop_some hout
    rw [List.nil_append] at hfinish
    have hargs : args ≠ [] := by
      rintro rfl
      rw [terminated_nil, ← OutText.empty_eq_ofText cmdlineExtractLenMax] at hfinish
      cases hfinish
    rw [OutText.finish_ofText hmax (terminated_eq_nil_iff.not.mpr hargs), dropLast_terminated,
      Option.some.injEq] at hfinish
    have hlen := congrArg List.length hfinish
    rw [List.length_take] at hlen
    rw [length_terminated hargs] at hle hlt
    have hwanted : wantedArgs argindex.toInt argkey selected ≠ [] := by
      intro hnil
      rw [hnil, terminated_nil, List.length_nil] at hle
      exact absurd hle (Nat.not_succ_le_zero _)
    rw [length_terminated hwanted] at hle hlt
    obtain ⟨psinfo, hpsinfo, -⟩ := wantedArgs_ne_nil.mp hwanted
    refine ⟨(hall psinfo hpsinfo).1, fun p hp => (hall p hp).2, fun p hp hend => ?_,
      wantedArgs_ne_nil.mp hwanted, ?_⟩
    · have := hlt ⟨p, hp, hend⟩
      omega
    · omega
  · intro h
    have hwanted := wantedArgs_ne_nil.mpr h.found
    rw [extractKeyLoop_eq h.index h.terminated h.told, Option.bind_some, List.nil_append,
      OutText.finish_ofText hmax (terminated_eq_nil_iff.not.mpr hwanted), dropLast_terminated,
      (take_pred_eq_iff hmax).mpr h.room]

section Call

variable (hselected : fillSpecProcess process processlist = some selected)
  (hasked : ¬(process.procname = none ∧ process.procpath = none))

include hselected hasked

theorem cmdlineExtractExecute_noKey (hargkey : process.argkey = none) :
    cmdlineExtractExecute process processlist = none := by
  rw [cmdlineExtractExecute, if_neg hasked, hselected, hargkey]
  rfl

theorem cmdlineExtractExecute_key (hargkey : process.argkey = some argkey) :
    cmdlineExtractExecute process processlist =
      if argkey = [] then none
      else if extractKey argkey = [] then some (einval, none)
      else ((extractKeyLoop process.argindex argkey selected .empty).bind OutText.finish).map
        fun str => (0, some str) := by
  rw [cmdlineExtractExecute, if_neg hasked, hselected, hargkey]
  simp only [Option.bind_eq_bind, Option.bind_some, keylenLoop_eq]
  by_cases hnil : argkey = []
  · rw [if_pos hnil, if_pos hnil, Option.bind_none]
  · rw [if_neg hnil, if_neg hnil]
    by_cases hkey : extractKey argkey = []
    · rw [if_pos hkey, if_pos hkey, Option.bind_some]
    · rw [if_neg hkey, if_neg hkey, Option.bind_some, extractKeyLoop, Option.map_bind]
      exact congrArg (Option.bind _) (funext fun outstr => Option.map_eq_bind.symm)

end Call

/-- **The call fails properly, or returns what is asked for without an access outside, exactly when
neither a name nor a path is given, or the key is given, not empty, and either all blanks or usable
on the selected processes.** -/
theorem cmdlineExtractExecute_iff
    (hselected : fillSpecProcess process processlist = some selected) :
    CmdlineExtracted process processlist selected ↔
      process.procname = none ∧ process.procpath = none ∨
        ∃ argkey ∈ process.argkey, argkey ≠ [] ∧
          (extractKey argkey = [] ∨ Extractable process.argindex.toInt argkey selected) := by
  by_cases hasked : process.procname = none ∧ process.procpath = none
  · exact iff_of_true (.inl (if_pos hasked)) (.inl hasked)
  · rw [or_iff_right hasked, CmdlineExtracted]
    cases hargkey : process.argkey with
    | none =>
      rw [cmdlineExtractExecute_noKey hselected hasked hargkey]
      simp
    | some argkey =>
      rw [cmdlineExtractExecute_key hselected hasked hargkey, Option.getD_some]
      simp only [Option.mem_def, Option.some.injEq, exists_eq_left']
      by_cases hnil : argkey = []
      · rw [if_pos hnil]
        simp [hnil]
      · rw [if_neg hnil, and_iff_right hnil]
        by_cases hkey : extractKey argkey = []
        · rw [if_pos hkey]
          exact iff_of_true (.inl rfl) (.inl hkey)
        · rw [if_neg hkey, or_iff_right hkey, ← extractKeyLoop_iff]
          generalize (extractKeyLoop process.argindex argkey selected .empty).bind OutText.finish =
            str
          cases str <;> simp [einval]

/-- A process `p` with the arguments `-k` and `v`. -/
def processK : ProcessInfo :=
  ⟨some ['p'], none, ['p', nul, '-', 'k', nul, 'v', nul], by decide, by decide, by decide⟩

/-- The value of `-k` is extracted. -/
theorem cmdlineExtractExecute_value :
    CmdlineExtracted ⟨some ['p'], none, none, 0, some ['-', 'k', ' ']⟩ [processK] [processK] :=
  (cmdlineExtractExecute_iff rfl).mpr (.inr ⟨['-', 'k', ' '], rfl, by decide, .inr
    ⟨by decide, by decide, by decide, by decide, by decide⟩⟩)

/-- A process `p` with the argument `-kv`. -/
def processKv : ProcessInfo :=
  ⟨some ['p'], none, ['p', nul, '-', 'k', 'v', nul], by decide, by decide, by decide⟩

/-- Without a key, with a key that no argument starts with, and with the key `-k ` that the last
argument `-kv` starts with, the call neither fails properly nor returns what is asked for. -/
theorem cmdlineExtractExecute_unsafe :
    ¬CmdlineExtracted ⟨some ['p'], none, none, 0, none⟩ [processK] [processK] ∧
      ¬CmdlineExtracted ⟨some ['p'], none, none, 0, some ['x']⟩ [processK] [processK] ∧
      ¬CmdlineExtracted ⟨some ['p'], none, none, 0, some ['-', 'k', ' ']⟩ [processKv]
        [processKv] := by
  refine ⟨?_, ?_, ?_⟩
  · rintro (h | h) <;> revert h <;> decide
  · rintro (h | h) <;> revert h <;> decide
  · rintro (h | h) <;> revert h <;> decide

end Lre
