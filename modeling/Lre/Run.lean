import Mathlib.Logic.Basic

/-!
# State-and-fault computations

`Run ε σ α` is a computation on a state `σ` that returns a value or stops with a fault `ε`.

* `wp E x Q`: the weakest precondition of `x` for the postcondition `Q`, where a fault has to
  satisfy `E`; `wp_bind`, `wp_mono`, `wp_iff`.
* `Returns P x`: every value that `x` returns satisfies `P` (`Returns.bind`, `returns_bind`).
* `Sim RS RA x y`: two computations on different state types run in step; from states related by
  `RS` they return values related by `RA`, or stop with the same fault (`Sim.bind`, `Sim.ite`,
  `Sim.mono`, `agree_map_iff`).
-/

/-- A computation on a state `σ` that may stop with a fault `ε`. -/
abbrev Run (ε σ α : Type) := StateT σ (Except ε) α

namespace Run

variable {ε σ τ α β γ δ : Type}

/-! ## Running -/

theorem bind_apply (x : Run ε σ α) (f : α → Run ε σ β) (s : σ) :
    (x >>= f) s = (x s).bind fun p => f p.1 p.2 := rfl

@[simp] theorem pure_apply (a : α) (s : σ) : (pure a : Run ε σ α) s = .ok (a, s) := rfl

@[simp] theorem throw_apply (e : ε) (s : σ) : (throw e : Run ε σ α) s = .error e := rfl

theorem bind_ok {x : Run ε σ α} {a : α} {s s' : σ} (h : x s = .ok (a, s')) (f : α → Run ε σ β) :
    (x >>= f) s = f a s' := by rw [bind_apply, h]; rfl

/-- A run of `x >>= f` that returns splits into a run of `x` and a run of `f`. -/
theorem bind_inv {x : Run ε σ α} {f : α → Run ε σ β} {s : σ} {r : β × σ}
    (h : (x >>= f) s = .ok r) : ∃ a s₁, x s = .ok (a, s₁) ∧ f a s₁ = .ok r := by
  rw [bind_apply] at h
  cases hx : x s with
  | error e => rw [hx] at h; exact absurd h (by simp [Except.bind])
  | ok p => rw [hx] at h; exact ⟨p.1, p.2, rfl, h⟩

theorem except_bind_inv {x : Except ε α} {f : α → Except ε β} {b : β} (h : x.bind f = .ok b) :
    ∃ a, x = .ok a ∧ f a = .ok b := by
  cases x with
  | error e => cases h
  | ok a => exact ⟨a, rfl, h⟩

theorem forall_ok_iff {r : Except ε (α × σ)} {a : α} {s : σ} (h : r = .ok (a, s))
    {Q : α → σ → Prop} : (∀ b t, r = .ok (b, t) → Q b t) ↔ Q a s := by
  constructor
  · exact fun hQ => hQ a s h
  · intro hQ b t hrun
    cases h.symm.trans hrun
    exact hQ

/-! ## Weakest preconditions -/

/-- The states from which `x` returns into `Q` or stops with a fault in `E`. -/
def wp (E : ε → Prop) (x : Run ε σ α) (Q : α → σ → Prop) (s : σ) : Prop :=
  match x s with
  | .ok p => Q p.1 p.2
  | .error e => E e

variable {E : ε → Prop}

@[simp] theorem wp_pure (a : α) (Q : α → σ → Prop) (s : σ) :
    wp E (pure a) Q s ↔ Q a s := Iff.rfl

@[simp] theorem wp_throw (e : ε) (Q : α → σ → Prop) (s : σ) :
    wp E (throw e) Q s ↔ E e := Iff.rfl

@[simp] theorem wp_bind (x : Run ε σ α) (f : α → Run ε σ β) (Q : β → σ → Prop) (s : σ) :
    wp E (x >>= f) Q s ↔ wp E x (fun a => wp E (f a) Q) s := by
  unfold wp
  rw [bind_apply]
  cases x s <;> rfl

theorem wp_mono {x : Run ε σ α} {Q Q' : α → σ → Prop} {s : σ} (h : wp E x Q s)
    (hQ : ∀ a s', Q a s' → Q' a s') : wp E x Q' s := by
  unfold wp at h ⊢
  cases hx : x s with
  | error e => rw [hx] at h; exact h
  | ok p => rw [hx] at h; exact hQ _ _ h

theorem wp_iff {x : Run ε σ α} {Q : α → σ → Prop} {s : σ} :
    wp E x Q s ↔ (∀ a s', x s = .ok (a, s') → Q a s') ∧ ∀ e, x s = .error e → E e := by
  unfold wp
  cases x s with
  | error e => simp
  | ok p =>
    refine ⟨fun h => ⟨fun a s' he => ?_, fun e he => by cases he⟩, fun h => h.1 _ _ rfl⟩
    cases he
    exact h

/-- A sequence, from a run of its first part. -/
theorem wp_bind_run {x : Run ε σ α} {f : α → Run ε σ β} {Q : α → σ → Prop} {Q' : β → σ → Prop}
    {s : σ} (hx : wp E x Q s)
    (hf : ∀ a s', x s = .ok (a, s') → Q a s' → wp E (f a) Q' s') : wp E (x >>= f) Q' s := by
  rw [wp_bind]
  obtain ⟨hok, herror⟩ := wp_iff.mp hx
  exact wp_iff.mpr ⟨fun a s' ha => hf a s' ha (hok a s' ha), herror⟩

theorem wp_bind_of_forall {x : Run ε σ α} {f : α → Run ε σ β} {Q : β → σ → Prop} {s : σ}
    (hf : ∀ a s', wp (fun _ => True) (f a) Q s') : wp (fun _ => True) (x >>= f) Q s := by
  rw [wp_bind]
  exact wp_iff.mpr ⟨fun a s' _ => hf a s', fun _ _ => trivial⟩

theorem wp.of_ok {x : Run ε σ α} {Q : α → σ → Prop} {s s' : σ} {a : α} (h : wp E x Q s)
    (hx : x s = .ok (a, s')) : Q a s' := (wp_iff.mp h).1 a s' hx

theorem bind_congr_of_wp {x : Run ε σ α} {f g : α → Run ε σ β} {Q : α → Prop} {s : σ}
    (hx : wp (fun _ => True) x (fun a _ => Q a) s) (h : ∀ a, Q a → f a = g a) :
    (x >>= f) s = (x >>= g) s := by
  rw [bind_apply, bind_apply]
  cases hrun : x s with
  | error e => rfl
  | ok p => exact congrFun (h p.1 (hx.of_ok hrun)) p.2

/-! ## Returned values -/

/-- Every value that `x` returns satisfies `P`. -/
def Returns (P : α → Prop) (x : Run ε σ α) : Prop := ∀ s a s', x s = .ok (a, s') → P a

variable {P : α → Prop} {P' : β → Prop}

theorem Returns.pure {a : α} (h : P a) : Returns P (Pure.pure a : Run ε σ α) := by
  rintro s b s' hrun
  cases hrun
  exact h

theorem Returns.throw (e : ε) : Returns P (throwThe ε e : Run ε σ α) := by
  rintro s a s' hrun
  cases hrun

theorem Returns.bind {x : Run ε σ α} {f : α → Run ε σ β} (hx : Returns P x)
    (hf : ∀ a, P a → Returns P' (f a)) : Returns P' (x >>= f) := by
  intro s b s' hrun
  obtain ⟨a, s₁, ha, hb⟩ := bind_inv hrun
  exact hf a (hx s a s₁ ha) s₁ b s' hb

theorem returns_bind {x : Run ε σ α} {f : α → Run ε σ β} (hf : ∀ a, Returns P' (f a)) :
    Returns P' (x >>= f) := fun _ _ _ hrun =>
  have ⟨a, _, _, hb⟩ := bind_inv hrun
  hf a _ _ _ hb

/-! ## Simulations -/

/-- Two outcomes agree: related results in related states, or one fault. -/
def Agree (RS : σ → τ → Prop) (RA : α → β → Prop) : Except ε (α × σ) → Except ε (β × τ) → Prop
  | .ok p, .ok q => RA p.1 q.1 ∧ RS p.2 q.2
  | .error e, .error e' => e = e'
  | _, _ => False

/-- **Simulation**: from related states, `x` and `y` have outcomes that agree. -/
def Sim (RS : σ → τ → Prop) (RA : α → β → Prop) (x : Run ε σ α) (y : Run ε τ β) : Prop :=
  ∀ s t, RS s t → Agree RS RA (x s) (y t)

variable {RS : σ → τ → Prop} {RA : α → β → Prop} {RB : γ → δ → Prop}

theorem Sim.pure {a : α} {b : β} (h : RA a b) :
    Sim (ε := ε) RS RA (Pure.pure a) (Pure.pure b) := fun _ _ hs => ⟨h, hs⟩

theorem Sim.throw (e : ε) :
    Sim RS RA (throwThe ε e : Run ε σ α) (throwThe ε e : Run ε τ β) := fun _ _ _ => rfl

theorem Agree.bind {x : Run ε σ α} {y : Run ε τ β} {f : α → Run ε σ γ} {g : β → Run ε τ δ}
    {s : σ} {t : τ} (hxy : Agree RS RA (x s) (y t)) (hf : ∀ a b, RA a b → Sim RS RB (f a) (g b)) :
    Agree RS RB ((x >>= f) s) ((y >>= g) t) := by
  rw [bind_apply, bind_apply]
  cases hx : x s with
  | error e =>
    cases hy : y t with
    | error e' => rw [hx, hy] at hxy; exact hxy
    | ok q => rw [hx, hy] at hxy; exact hxy.elim
  | ok p =>
    cases hy : y t with
    | error e' => rw [hx, hy] at hxy; exact hxy.elim
    | ok q => rw [hx, hy] at hxy; exact hf _ _ hxy.1 _ _ hxy.2

theorem Sim.bind {x : Run ε σ α} {y : Run ε τ β} {f : α → Run ε σ γ} {g : β → Run ε τ δ}
    (h : Sim RS RA x y) (hf : ∀ a b, RA a b → Sim RS RB (f a) (g b)) :
    Sim RS RB (x >>= f) (y >>= g) := fun s t hs => (h s t hs).bind hf

theorem Sim.bind_eq {x : Run ε σ α} {y : Run ε τ α} {f : α → Run ε σ γ} {g : α → Run ε τ δ}
    (h : Sim RS Eq x y) (hf : ∀ a, Sim RS RB (f a) (g a)) : Sim RS RB (x >>= f) (y >>= g) :=
  h.bind fun a _ hab => hab ▸ hf a

theorem Sim.ite {p : Prop} [Decidable p] {x x' : Run ε σ α} {y y' : Run ε τ β}
    (h : p → Sim RS RA x y) (h' : ¬p → Sim RS RA x' y') :
    Sim RS RA (if p then x else x') (if p then y else y') := by
  by_cases hp : p
  · rw [if_pos hp, if_pos hp]
    exact h hp
  · rw [if_neg hp, if_neg hp]
    exact h' hp

theorem Sim.mono {x : Run ε σ α} {y : Run ε τ β} {RA' : α → β → Prop} (h : Sim RS RA x y)
    (hR : ∀ a b, RA a b → RA' a b) : Sim RS RA' x y := by
  intro s t hs
  have hxy := h s t hs
  cases hx : x s <;> cases hy : y t <;> rw [hx, hy] at hxy
  · exact hxy
  · exact hxy.elim
  · exact hxy.elim
  · exact ⟨hR _ _ hxy.1, hxy.2⟩

theorem agree_map_iff {g : σ → τ} {r : Except ε (α × σ)} {r' : Except ε (α × τ)} :
    Agree (fun s t => t = g s) Eq r r' ↔ r' = r.map fun p => (p.1, g p.2) := by
  cases r with
  | error e =>
    cases r' with
    | error e' => exact ⟨fun h => congrArg _ (Eq.symm h), fun h => (Except.error.inj h).symm⟩
    | ok q => exact ⟨False.elim, nofun⟩
  | ok p =>
    cases r' with
    | error e' => exact ⟨False.elim, nofun⟩
    | ok q =>
      refine ⟨fun h => congrArg _ (Prod.ext h.1.symm h.2), fun h => ?_⟩
      cases h
      exact ⟨rfl, rfl⟩

end Run
