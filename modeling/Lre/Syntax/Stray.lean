import Lre.Syntax.Control

/-!
# What the parser accepts, and the grammar

* `Control.straight_run`: a run that halts without having strayed comes to no control that strays.
* `interpSyntaxParse_accepts_iff`: the parser accepts what its control accepts.
* **`interpSyntaxParse_sound_iff`**: what the parser accepts is the tree of the whole token list
  exactly when the control does not stray on these tokens.
-/

namespace Lre

open Run StateTransition

variable {π μ : Type}

/-- The automaton accepts the tokens. -/
def Control.Accepts (toks : List Token) : Prop :=
  ∃ st ts d, Reaches step (.start toks) ⟨.accept, st, ts, d⟩

theorem Control.step_of_straight {c c' : Control} (h : c' ∈ c.straight) :
    ¬c.Strays ∧ c' ∈ c.step := by
  unfold straight at h
  split at h
  · cases h
  · exact ⟨‹_›, h⟩

/-- **A straight run to a control that halts is the whole run.** -/
theorem Control.straight_run {c₀ c : Control} (h : Reaches straight c₀ c) (hstay : ¬c.Strays)
    (hhalt : c.step = none) {c₁ : Control} (h₁ : Reaches step c₀ c₁) : ¬c₁.Strays := by
  induction h using Relation.ReflTransGen.head_induction_on with
  | refl =>
    rcases h₁.cases_head with rfl | ⟨c₂, hstep, -⟩
    · exact hstay
    · rw [hhalt] at hstep
      cases hstep
  | head hhead _ ih =>
    obtain ⟨hstay₀, hstep₀⟩ := step_of_straight hhead
    rcases h₁.cases_head with rfl | ⟨c₂, hstep, hrest⟩
    · exact hstay₀
    · cases Option.mem_unique hstep₀ hstep
      exact ih hrest

theorem ControlRun.slips_eq_nil_iff {toks : List Token} {st : List Frame} {ts : List Token} {d : ℕ}
    {slips : List Slip} (h : ControlRun (.start toks) ⟨.accept, st, ts, d⟩ slips) :
    slips = [] ↔ ¬Stray (.start toks) := by
  constructor
  · rintro hnil (htoks | ⟨c, hr, hstray⟩)
    · exact (h.straight hnil).1 htoks
    · exact Control.straight_run (h.straight hnil).2 (by simp [Control.Strays, Control.straying])
        rfl hr hstray
  · intro hstay
    by_contra hne
    exact hstay (h.stray hne)

/-- **The parser accepts the tokens that its control accepts.** -/
theorem interpSyntaxParse_accepts_iff (P : NodePool π μ) (toks : List Token) (pool : π) :
    (∃ m t s, interpSyntaxParse P toks pool = .ok (some (m, t), s)) ↔ Control.Accepts toks := by
  obtain ⟨hok, herr⟩ := @interpSyntaxParse_control _ _ P (.none P) toks pool trivial
  constructor
  · rintro ⟨m, t, s, hr⟩
    obtain ⟨d, hrun, -⟩ := hok _ s hr
    exact ⟨_, _, d, hrun.reaches⟩
  · rintro ⟨st, ts, d, haccept⟩
    cases hr : interpSyntaxParse P toks pool with
    | error e =>
      obtain ⟨held, st', ts', d', hshort, hhalt⟩ := (herr e hr).halted
      cases Control.halted_unique hshort hhalt haccept rfl
    | ok p =>
      match p, hr with
      | (some (m, t), s), hr => exact ⟨m, t, s, rfl⟩
      | (none, s), hr =>
        obtain ⟨-, ⟨st', d', hreject⟩, -⟩ := hok _ s hr
        cases Control.halted_unique hreject rfl haccept rfl

/-- **Soundness, exactly.** What `interp_syntax_parse` accepts is the tree of the whole token list,
and a sentence of the grammar, if and only if its control does not accept the tokens, or accepts
them without straying. -/
theorem interpSyntaxParse_sound_iff (P : NodePool π μ) (toks : List Token) (pool : π) :
    (∀ m t s, interpSyntaxParse P toks pool = .ok (some (m, t), s) →
        s.toks = [] ∧ t.WF ∧ t.toks = toks) ↔
      (Control.Accepts toks → ¬Stray (.start toks)) := by
  have hcontrol := (@interpSyntaxParse_control _ _ P (.none P) toks pool trivial).1
  rw [interpSyntaxParse_slips_iff]
  constructor
  · intro hslips haccepts
    obtain ⟨m, t, s, hr⟩ := (interpSyntaxParse_accepts_iff P toks pool).mpr haccepts
    obtain ⟨d, hrun, -⟩ := hcontrol _ s hr
    exact hrun.slips_eq_nil_iff.mp (hslips m t s hr)
  · intro hstay m t s hr
    obtain ⟨d, hrun, -⟩ := hcontrol _ s hr
    exact hrun.slips_eq_nil_iff.mpr
      (hstay ((interpSyntaxParse_accepts_iff P toks pool).mp ⟨m, t, s, hr⟩))

/-- A missing operator: the tokens of `f{e=="1"}g{e=="1"}` are accepted. -/
theorem interpSyntaxParse_missing_join :
    ¬ ∀ toks m t s, interpSyntaxParse NodePool.unit toks () = .ok (some (m, t), s) →
      s.toks = [] ∧ t.WF ∧ t.toks = toks := by
  intro h
  have hr : interpSyntaxParse NodePool.unit ((plainFunc ['f']).toks ++ (plainFunc ['g']).toks) () =
      .ok (some ((), .cons (plainFunc ['f']) .reserved (.cons (plainFunc ['g']) .reserved .nil)),
        ⟨[], (), [.noJoin]⟩) := by
    decide +kernel
  obtain ⟨-, ⟨-, ⟨h, -⟩ | ⟨h, -⟩⟩, -⟩ := h _ _ _ _ hr
  · simp at h
  · exact absurd h (by decide)

end Lre
