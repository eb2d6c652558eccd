import Mathlib.Data.Set.Finite.List
import Lre.Cycle
import Lre.Lrc.Multipath
import Lre.Macro.Lines
import Lre.Macro.Load

/-!
# Configuration files

* `confLine`: what a line of a configuration file asks for.
* `lreMacroConfLoad`: the source, with fuel for the nested calls; a stream that has been opened is
  never closed.
* `Includes`: a file leads to another one.
* **`conf_terminates_iff`**: the files are loaded exactly when streams run out, or no file that is
  reached leads back to itself.
-/

namespace Lre

open Cycle Lined Relation

/-! ## Loading -/

/-- The files that `fopen` finds, `lre_get_conf_path()`, and how many streams can be open. -/
structure ConfEnv where
  confPath : Word
  files : List (Word × Word)
  openMax : Option ℕ

/-- What loading changes: the macros, and the number of streams that are open. -/
structure ConfState where
  tbl : MacroTable
  opened : ℕ

/-- The state of `lre_macro_init`. -/
def ConfState.init : ConfState := ⟨.empty, 0⟩

/-- The word that begins an inclusion. -/
def includeWord : Word := ['i', 'n', 'c', 'l', 'u', 'd', 'e']

/-- `LR_GLOBAL_MACRO_PATH`. -/
def lrGlobalMacroPath : Word :=
  ['g', 'l', 'o', 'b', 'a', 'l', '_', 'm', 'a', 'c', 'r', 'o', '.', 'l', 'r']

/-- What a line asks for. -/
inductive ConfLine
  | load (sub : Word)
  | define (mac : LreMacro)
  /-- an error, a definition that overflows its array, or any other line -/
  | other

/-- The line in `lre_macro_conf_parse`; the word of a token that is no keyword is neither of the
two. -/
def confLine (mstr : Word) : ConfLine :=
  match lex mstr with
  | (.word (.ident w) :: toks, .eof) =>
    if w = includeWord then
      match toks with
      | .word (.quoted sub) :: _ => .load sub
      | _ => .other
    else if w = defineWord then
      match lreMacroParse toks with
      | .ok mac => .define mac
      | _ => .other
    else .other
  | _ => .other

/-- `path` in `lre_macro_conf_load`. -/
def ConfEnv.path (env : ConfEnv) (fpath : Word) : Word :=
  (xsnprintf pathMax (env.confPath ++ '/' :: fpath)).1

/-- `fopen`, when some streams are open. -/
def ConfEnv.fopen (env : ConfEnv) (opened : ℕ) (path : Word) : Option Word :=
  if env.openMax.any (· ≤ opened) then none else env.files.lookup path

/-- The strings that `read_macro_line` returns for a file. -/
def confStrings (content : Word) : List Word :=
  (readMacroLines defaultCodebufSize content).1.map Prod.fst

/-- `lre_macro_conf_parse`, for what loads a file. -/
def lreMacroConfParse (load : Word → ConfState → Option ConfState) (state : ConfState)
    (mstr : Word) : Option ConfState :=
  match confLine mstr with
  | .load sub => load sub state
  | .define mac => some { state with tbl := lreMacroAdd mac state.tbl }
  | .other => some state

/-- `lre_macro_conf_load`; `none` when the fuel is used up. -/
def lreMacroConfLoad (env : ConfEnv) : ℕ → Word → ConfState → Option ConfState
  | 0, _, _ => none
  | fuel + 1, fpath, state =>
    match env.fopen state.opened (env.path fpath) with
    | none => some state
    | some content =>
      (confStrings content).foldlM (lreMacroConfParse (lreMacroConfLoad env fuel))
        { state with opened := state.opened + 1 }

/-- `lre_macro_conf_load(LR_GLOBAL_MACRO_PATH)` returns. -/
def ConfEnv.Terminates (env : ConfEnv) : Prop :=
  ∃ fuel, (lreMacroConfLoad env fuel lrGlobalMacroPath .init).isSome = true

/-! ## The purpose -/

/-- A line of the one file includes the other one. -/
def Includes (env : ConfEnv) (p q : Word) : Prop :=
  ∃ content, env.files.lookup p = some content ∧
    ∃ mstr ∈ confStrings content, ∃ sub, confLine mstr = .load sub ∧ env.path sub = q

/-- A file that is reached leads back to itself. -/
def ConfEnv.Cyclic (env : ConfEnv) : Prop :=
  ∃ p, ReflTransGen (Includes env) (env.path lrGlobalMacroPath) p ∧ TransGen (Includes env) p p

variable {env : ConfEnv} {fuel : ℕ} {fpath : Word} {state state' : ConfState}
  {load : Word → ConfState → Option ConfState} {strs : List Word}

/-! ## A file -/

/-- A line that is not loaded includes a file that is not loaded. -/
theorem lreMacroConfParse_none {mstr : Word} (h : lreMacroConfParse load state mstr = none) :
    ∃ sub, confLine mstr = .load sub ∧ load sub state = none := by
  unfold lreMacroConfParse at h
  split at h
  · exact ⟨_, ‹_›, h⟩
  · cases h
  · cases h

/-- A stream stays open. -/
def KeepsOpen (load : Word → ConfState → Option ConfState) : Prop :=
  ∀ {fpath state state'}, load fpath state = some state' → state.opened ≤ state'.opened

theorem KeepsOpen.confParse {mstr : Word} (hkeeps : KeepsOpen load)
    (h : lreMacroConfParse load state mstr = some state') : state.opened ≤ state'.opened := by
  unfold lreMacroConfParse at h
  split at h
  · exact hkeeps h
  · cases h
    exact le_rfl
  · cases h
    exact le_rfl

theorem KeepsOpen.foldlM (hkeeps : KeepsOpen load)
    (h : strs.foldlM (lreMacroConfParse load) state = some state') :
    state.opened ≤ state'.opened := by
  induction strs generalizing state with
  | nil =>
    cases h
    exact le_rfl
  | cons mstr strs ih =>
    rw [List.foldlM_cons] at h
    obtain ⟨next, hnext, hrest⟩ := Option.bind_eq_some_iff.mp h
    exact Nat.le_trans (hkeeps.confParse hnext) (ih hrest)

theorem keepsOpen_confLoad (env : ConfEnv) (fuel : ℕ) : KeepsOpen (lreMacroConfLoad env fuel) := by
  induction fuel with
  | zero => exact fun h => nomatch h
  | succ fuel ih =>
    intro fpath state state' h
    rw [lreMacroConfLoad] at h
    split at h
    · cases h
      exact le_rfl
    · exact Nat.le_of_succ_le (ih.foldlM h)

theorem foldlM_none (hkeeps : KeepsOpen load)
    (h : strs.foldlM (lreMacroConfParse load) state = none) :
    ∃ mstr ∈ strs, ∃ sub state', state.opened ≤ state'.opened ∧ confLine mstr = .load sub ∧
      load sub state' = none := by
  induction strs generalizing state with
  | nil => cases h
  | cons mstr strs ih =>
    rw [List.foldlM_cons] at h
    cases hline : lreMacroConfParse load state mstr with
    | none =>
      obtain ⟨sub, hsub, hload⟩ := lreMacroConfParse_none hline
      exact ⟨mstr, List.mem_cons_self, sub, state, le_rfl, hsub, hload⟩
    | some next =>
      rw [hline] at h
      obtain ⟨mstr', hmem, sub, state', hle, hrest⟩ := ih h
      exact ⟨mstr', List.mem_cons_of_mem _ hmem, sub, state',
        Nat.le_trans (hkeeps.confParse hline) hle, hrest⟩

theorem foldlM_eq_none {mstr sub : Word} (hmem : mstr ∈ strs) (hline : confLine mstr = .load sub)
    (hload : ∀ state, load sub state = none) :
    strs.foldlM (lreMacroConfParse load) state = none := by
  induction strs generalizing state with
  | nil => exact absurd hmem List.not_mem_nil
  | cons mstr' strs ih =>
    rw [List.foldlM_cons]
    rcases List.mem_cons.mp hmem with rfl | hmem
    · rw [lreMacroConfParse, hline]
      dsimp only
      rw [hload]
      rfl
    · cases hstep : lreMacroConfParse load state mstr' with
      | none => rfl
      | some state' => exact ih hmem

/-- As many nested calls as there is fuel take as many inclusions in a row. -/
theorem path_of_confLoad (h : lreMacroConfLoad env fuel fpath state = none) :
    Path (Includes env) fuel (env.path fpath) := by
  induction fuel generalizing fpath state with
  | zero => trivial
  | succ fuel ih =>
    rw [lreMacroConfLoad] at h
    split at h
    · cases h
    · rename_i content hopen
      obtain ⟨mstr, hmem, sub, state', -, hline, hload⟩ :=
        foldlM_none (keepsOpen_confLoad env fuel) h
      rw [ConfEnv.fopen] at hopen
      split at hopen
      · cases hopen
      · exact ⟨_, ⟨content, hopen, mstr, hmem, sub, hline, rfl⟩, ih hload⟩

/-- Without a bound on the streams, inclusions in a row are nested calls. -/
theorem confLoad_of_path (hmax : env.openMax = none) (h : Path (Includes env) fuel (env.path fpath))
    (state : ConfState) : lreMacroConfLoad env fuel fpath state = none := by
  induction fuel generalizing fpath state with
  | zero => rfl
  | succ fuel ih =>
    obtain ⟨q, ⟨content, hfile, mstr, hmem, sub, hline, rfl⟩, hpath⟩ := h
    have hopen : env.fopen state.opened (env.path fpath) = some content := by
      rw [ConfEnv.fopen, hmax]
      exact hfile
    rw [lreMacroConfLoad, hopen]
    exact foldlM_eq_none hmem hline fun state => ih hpath state

/-- A bound on the streams bounds the nested calls. -/
theorem confLoad_of_max {max : ℕ} (hmax : env.openMax = some max)
    (h : max ≤ state.opened + fuel) : lreMacroConfLoad env (fuel + 1) fpath state ≠ none := by
  induction fuel generalizing fpath state with
  | zero =>
    have hopen : env.fopen state.opened (env.path fpath) = none := by
      rw [ConfEnv.fopen, hmax]
      exact if_pos (decide_eq_true h)
    rw [lreMacroConfLoad, hopen]
    exact Option.some_ne_none _
  | succ fuel ih =>
    intro hnone
    rw [lreMacroConfLoad] at hnone
    split at hnone
    · cases hnone
    · obtain ⟨mstr, -, sub, state', hle, -, hload⟩ :=
        foldlM_none (keepsOpen_confLoad env (fuel + 1)) hnone
      have hle' : state.opened + 1 ≤ state'.opened := hle
      exact ih (by omega) hload

theorem includes_finite (env : ConfEnv) : {q | ∃ p, Includes env p q}.Finite := by
  apply (List.finite_toSet (env.files.flatMap fun file =>
    (confStrings file.2).filterMap fun mstr =>
      match confLine mstr with
      | .load sub => some (env.path sub)
      | _ => none)).subset
  rintro q ⟨p, content, hfile, mstr, hmem, sub, hline, rfl⟩
  have hin : (p, content) ∈ env.files := by
    obtain ⟨before, behind, heq, -⟩ := List.lookup_eq_some_iff.mp hfile
    rw [heq]
    exact List.mem_append_right _ List.mem_cons_self
  refine List.mem_flatMap.mpr ⟨_, hin, List.mem_filterMap.mpr ⟨mstr, hmem, ?_⟩⟩
  rw [hline]

theorem not_terminates_of_cyclic (hmax : env.openMax = none) (h : env.Cyclic) :
    ¬env.Terminates := by
  rintro ⟨fuel, hfuel⟩
  obtain ⟨p, hreach, hcycle⟩ := h
  rw [confLoad_of_path hmax (path_of_reaches hreach hcycle fuel)] at hfuel
  exact Bool.false_ne_true hfuel

/-- **The files are loaded exactly when the streams that can be open are limited, or no file that is
reached leads back to itself.** -/
theorem conf_terminates_iff (env : ConfEnv) :
    env.Terminates ↔ env.openMax ≠ none ∨ ¬env.Cyclic := by
  constructor
  · intro h
    by_contra hno
    obtain ⟨hmax, hcyclic⟩ := not_or.mp hno
    exact not_terminates_of_cyclic (not_not.mp hmax) (not_not.mp hcyclic) h
  · intro h
    by_contra hno
    have hnone : ∀ fuel, lreMacroConfLoad env fuel lrGlobalMacroPath .init = none := by
      intro fuel
      by_contra hsome
      exact hno ⟨fuel, Option.isSome_iff_ne_none.mpr hsome⟩
    rcases h with hmax | hcyclic
    · obtain ⟨max, hmax⟩ := Option.ne_none_iff_exists'.mp hmax
      exact confLoad_of_max hmax (Nat.le_add_left _ _) (hnone (max + 1))
    · exact hcyclic (exists_cycle (includes_finite env) fun n => path_of_confLoad (hnone n))

/-! ## A file that includes itself -/

/-- `include "global_macro.lr"`. -/
def selfIncludeLine : Word := includeWord ++ ' ' :: '"' :: lrGlobalMacroPath ++ ['"']

/-- A directory with `global_macro.lr` only. -/
def selfEnv : ConfEnv where
  confPath := ['/', 'e']
  files := [(['/', 'e', '/'] ++ lrGlobalMacroPath, selfIncludeLine ++ ['\n'])]
  openMax := none

theorem confStrings_self : confStrings (selfIncludeLine ++ ['\n']) = [selfIncludeLine] := by
  have hread : Readable defaultCodebufSize ((selfIncludeLine ++ ['\n']).getLast? = some '\n') []
      (lines '\n' (selfIncludeLine ++ ['\n'])) := by
    rw [lines_append (by decide)]
    simp [Readable, lines, selfIncludeLine, includeWord, lrGlobalMacroPath, cstr, CString.nul,
      defaultCodebufSize]
  rw [confStrings, readMacroLines_of_readable (by decide) hread]
  rfl

theorem selfEnv_not_terminates : ¬selfEnv.Terminates := by
  have hself : Includes selfEnv (selfEnv.path lrGlobalMacroPath)
      (selfEnv.path lrGlobalMacroPath) := by
    refine ⟨selfIncludeLine ++ ['\n'], rfl, selfIncludeLine, ?_, lrGlobalMacroPath, rfl, rfl⟩
    rw [confStrings_self]
    exact List.mem_cons_self
  exact not_terminates_of_cyclic rfl ⟨_, .refl, .single hself⟩

end Lre
