import Lre.Lrc.Process

/-!
# Command lines

A command line is a sequence of bytes, normally of C strings.

* `readCmdline`: what `get_process_info` keeps of it, `cmd2args`: its arguments, `segments`: the
  pieces between its terminators.
* **`readCmdline_cmd2args_iff`**: the command lines that are kept and split without an access
  outside.
-/

namespace Lre

open CString

/-- `PROCESS_ARG_MAX`. -/
def processArgMax : ℕ := 1024

/-- The command line in `get_process_info`; `none` is the store of the terminator behind `buf`. -/
def readCmdline (content : Word) : Option Word :=
  let r := min content.length cmdlineLenMax
  if r < cmdlineLenMax then some (content.take r) else none

/-- `strlen` in an array; `none` is the read behind its end. -/
def strlen : Word → Option ℕ
  | [] => none
  | c :: ptr => if c = nul then some 0 else (strlen ptr).map (· + 1)

/-- The loop of `cmd2args`, with what is left of the command line at `ptr + i`; each round moves `i`
on. `none` is a read behind the command line or a store behind `argv`. -/
def cmd2argsLoop : ℕ → Word → List Word → Option (List Word)
  | 0, _, argv => some argv
  | _ + 1, [], argv => some argv
  | fuel + 1, c :: ptr, argv =>
    if c = nul then cmd2argsLoop fuel ptr argv
    else if argv.length < processArgMax then do
      let n ← strlen (c :: ptr)
      cmd2argsLoop fuel ((c :: ptr).drop n) (argv ++ [(c :: ptr).take n])
    else none

/-- `cmd2args`. -/
def cmd2args (cmdline : Word) : Option (List Word) := cmd2argsLoop cmdline.length cmdline []

/-- The maximal pieces of the bytes that are not empty and have no terminator. -/
def segments (bytes : Word) : List Word := (bytes.splitOn nul).filter (· ≠ [])

/-- The last string of the bytes has its terminator. -/
def Terminated (bytes : Word) : Prop := bytes = [] ∨ bytes.getLast? = some nul

instance : DecidablePred Terminated := fun bytes =>
  inferInstanceAs (Decidable (bytes = [] ∨ bytes.getLast? = some nul))

variable {c : Char} {ptr word bytes content : Word} {argv : List Word}

/-! ## Segments -/

theorem segments_nil : segments [] = [] := by decide

theorem segments_append_nul (hword : nul ∉ word) :
    segments (word ++ nul :: ptr) = [word].filter (· ≠ []) ++ segments ptr := by
  rw [segments, List.splitOn_append_cons_self_of_not_mem hword, ← List.singleton_append,
    List.filter_append]
  rfl

theorem terminated_append_nul : Terminated (word ++ nul :: ptr) ↔ Terminated ptr := by
  rw [Terminated, Terminated, List.getLast?_append, List.getLast?_cons, Option.some_or,
    or_iff_right (by simp)]
  cases hlast : ptr.getLast? with
  | none => simp [List.getLast?_eq_none_iff.mp hlast]
  | some c =>
    have hne : ptr ≠ [] := by
      rintro rfl
      cases hlast
    rw [Option.getD_some, or_iff_right hne]

theorem bytes_induction {motive : Word → Prop} (nil : motive [])
    (open_ : ∀ word, word ≠ [] → nul ∉ word → motive word)
    (segment : ∀ word ptr, nul ∉ word → motive ptr → motive (word ++ nul :: ptr)) (bytes : Word) :
    motive bytes := by
  induction hn : bytes.length using Nat.strong_induction_on generalizing bytes with
  | _ n ih =>
    subst hn
    by_cases hnul : nul ∈ bytes
    · obtain ⟨word, ptr, rfl, hword⟩ := List.eq_append_cons_of_mem hnul
      refine segment word ptr hword (ih ptr.length ?_ ptr rfl)
      rw [List.length_append, List.length_cons]
      omega
    · by_cases hnil : bytes = []
      · rwa [hnil]
      · exact open_ bytes hnil hnul

theorem not_terminated (hne : word ≠ []) (hword : nul ∉ word) : ¬Terminated word := by
  rintro (h | h)
  · exact hne h
  · exact hword (List.mem_of_getLast? h)

theorem two_mul_length_segments (h : Terminated bytes) :
    2 * (segments bytes).length ≤ bytes.length := by
  induction bytes using bytes_induction with
  | nil => exact Nat.zero_le _
  | open_ word hne hword => exact absurd h (not_terminated hne hword)
  | segment word ptr hword ih =>
    have hptr := ih (terminated_append_nul.mp h)
    rw [segments_append_nul hword, List.length_append, List.length_append, List.length_cons]
    by_cases hne : word = []
    · subst hne
      simp only [List.filter_cons, List.filter_nil]
      simp
      omega
    · have hpos := List.length_pos_of_ne_nil hne
      simp [hne]
      omega

/-! ## The arguments -/

theorem strlen_eq_none (hword : nul ∉ word) : strlen word = none := by
  induction word with
  | nil => rfl
  | cons c word ih =>
    rw [List.mem_cons, not_or] at hword
    rw [strlen, if_neg (Ne.symm hword.1), ih hword.2]
    rfl

theorem strlen_append_nul (hword : nul ∉ word) :
    strlen (word ++ nul :: ptr) = some word.length := by
  induction word with
  | nil => exact if_pos rfl
  | cons c word ih =>
    rw [List.mem_cons, not_or] at hword
    rw [List.cons_append, strlen, if_neg (Ne.symm hword.1), ih hword.2]
    rfl

theorem cmd2argsLoop_segment (hne : word ≠ []) (hword : nul ∉ word) (fuel : ℕ) :
    cmd2argsLoop (fuel + 2) (word ++ nul :: ptr) argv =
      if argv.length < processArgMax then cmd2argsLoop fuel ptr (argv ++ [word]) else none := by
  cases word with
  | nil => exact absurd rfl hne
  | cons c word =>
    have hc : ¬c = nul := fun h => hword (h ▸ List.mem_cons_self)
    rw [List.cons_append, cmd2argsLoop, if_neg hc, ← List.cons_append, strlen_append_nul hword]
    simp only [Option.bind_eq_bind, Option.bind_some]
    rw [List.drop_left, List.take_left, cmd2argsLoop, if_pos rfl]

/-- The loop adds the segments, if there is room for them and the last one has its terminator. -/
theorem cmd2argsLoop_eq {fuel : ℕ} (hfuel : bytes.length ≤ fuel)
    (hargv : argv.length ≤ processArgMax) :
    cmd2argsLoop fuel bytes argv =
      if Terminated bytes ∧ argv.length + (segments bytes).length ≤ processArgMax then
        some (argv ++ segments bytes)
      else none := by
  induction bytes using bytes_induction generalizing fuel argv with
  | nil =>
    rw [segments_nil, if_pos ⟨.inl rfl, hargv⟩, List.append_nil]
    cases fuel <;> rfl
  | open_ word hne hword =>
    rw [if_neg fun h => not_terminated hne hword h.1]
    cases word with
    | nil => exact absurd rfl hne
    | cons c word =>
      rw [List.length_cons] at hfuel
      obtain ⟨fuel, rfl⟩ : ∃ k, fuel = k + 1 := ⟨fuel - 1, by omega⟩
      have hc : ¬c = nul := fun h => hword (h ▸ List.mem_cons_self)
      rw [cmd2argsLoop, if_neg hc, strlen_eq_none hword]
      exact ite_self _
  | segment word ptr hword ih =>
    rw [List.length_append, List.length_cons] at hfuel
    simp only [terminated_append_nul, segments_append_nul hword]
    by_cases hne : word = []
    · subst hne
      rw [List.length_nil] at hfuel
      obtain ⟨fuel, rfl⟩ : ∃ k, fuel = k + 1 := ⟨fuel - 1, by omega⟩
      rw [List.nil_append, cmd2argsLoop, if_pos rfl, ih (by omega) hargv]
      rfl
    · have hpos := List.length_pos_of_ne_nil hne
      obtain ⟨fuel, rfl⟩ : ∃ k, fuel = k + 2 := ⟨fuel - 2, by omega⟩
      have hone : [word].filter (· ≠ []) = [word] := by simp [hne]
      rw [hone, cmd2argsLoop_segment hne hword, List.length_append, List.length_singleton,
        ← Nat.add_assoc, ← List.append_assoc]
      by_cases hroom : argv.length < processArgMax
      · have hargv' : (argv ++ [word]).length ≤ processArgMax := by
          rw [List.length_append]
          exact hroom
        rw [if_pos hroom, ih (by omega) hargv', List.length_append, List.length_singleton]
      · rw [if_neg hroom, if_neg (by omega)]

/-- The table of arguments is large enough for what is kept of a command line, so only the last
terminator is in question. -/
theorem cmd2args_eq (hle : bytes.length ≤ cmdlineLenMax) :
    cmd2args bytes = if Terminated bytes then some (segments bytes) else none := by
  rw [cmd2args, cmd2argsLoop_eq (Nat.le_refl _) (Nat.zero_le _), List.nil_append, List.length_nil,
    Nat.zero_add]
  by_cases h : Terminated bytes
  · have hsegments := two_mul_length_segments h
    rw [if_pos h, if_pos]
    refine ⟨h, ?_⟩
    rw [cmdlineLenMax] at hle
    rw [processArgMax]
    omega
  · rw [if_neg h, if_neg fun hno => h hno.1]

/-! ## Capture -/

/-- **A command line is kept and split without an access outside exactly when it is shorter than the
buffer and its last string has a terminator.** -/
theorem readCmdline_cmd2args_iff :
    (readCmdline content = some (content.take cmdlineLenMax) ∧
      cmd2args (content.take cmdlineLenMax) = some (segments (content.take cmdlineLenMax))) ↔
    content.length < cmdlineLenMax ∧ Terminated content := by
  have hread : readCmdline content = some (content.take cmdlineLenMax) ↔
      content.length < cmdlineLenMax := by
    rw [readCmdline]
    split_ifs with h
    · rw [Nat.min_eq_left (by omega), List.take_of_length_le (Nat.le_refl _),
        List.take_of_length_le (by omega)]
      exact iff_of_true rfl (by omega)
    · exact iff_of_false not_false (by omega)
  rw [hread]
  refine and_congr_right fun hlt => ?_
  rw [List.take_of_length_le (Nat.le_of_lt hlt), cmd2args_eq (Nat.le_of_lt hlt)]
  split_ifs with h
  · exact iff_of_true rfl h
  · exact iff_of_false not_false h

/-- One byte that is no terminator. -/
theorem cmd2args_open :
    readCmdline ['a'] = some ['a'] ∧ cmd2args ['a'] ≠ some (segments ['a']) := by
  decide

end Lre
