import Lre.Exec.Model

/-!
# Properties of sequences

* `Sequential M`: `M` holds of inert steps, and of a sequence when it holds of its parts.
* `Sequential.valNext`, `Sequential.executeArg`, ...: the parts of the evaluators between two
  changes of the stack. What is left to show of them are their events.
-/

namespace Lre

open Run

variable {κ σ η D : Type}

/-- `M` holds of the steps that change nothing of interest, and passes from the parts of a sequence
to the whole. -/
structure Sequential (M : (α : Type) → Exec κ σ η α → Prop) : Prop where
  inert : ∀ {α : Type} {x : Exec κ σ η α}, Inert x → M α x
  bind : ∀ {α β : Type} {x : Exec κ σ η α} {f : α → Exec κ σ η β}, M α x → (∀ a, M β (f a)) →
    M β (x >>= f)

namespace Sequential

variable {M : (α : Type) → Exec κ σ η α → Prop} {C : Callbacks κ σ η D} {R : Doubles D}

theorem pure {α : Type} (hM : Sequential M) (a : α) : M α (pure a) := hM.inert (.pure a)

theorem emit_pure {α : Type} (hM : Sequential M) {e : ExecEvent κ η} (he : M Unit (emit e))
    (a : α) : M α (do emit e; return a) := hM.bind he fun _ => hM.pure a

theorem valNext (hM : Sequential M) (herror : M Unit (emit .valError)) {opt : Sym}
    {arg tmparg : LreValue D} {ret : ℤ} {more : LreValue D → Exec κ σ η (ℤ × LreValue D)}
    (hmore : ∀ arg, M _ (more arg)) : M _ (valNext R opt arg ret tmparg more) := by
  unfold Lre.valNext
  split
  · exact hM.emit_pure herror _
  · apply hM.bind (hM.inert (inert_valStep R opt arg tmparg))
    intro step
    cases step with
    | error => exact hM.emit_pure herror _
    | done arg => exact hM.pure _
    | next arg => exact hmore arg

theorem executeVar (hM : Sequential M) {handle : η} {valstub : κ}
    (huse : ∀ ret, M Unit (emit (.varHandler valstub handle ret))) :
    M _ (executeVar C handle valstub) :=
  hM.bind (hM.inert (inert_castStub C valstub .var)) fun _ =>
    hM.bind (hM.inert (inert_callback _)) fun r => hM.bind (huse r.1) fun _ =>
      hM.bind (hM.inert (inert_setValues r.2 .init)) fun _ => hM.pure _

theorem handler {α : Type} (hM : Sequential M) {stub : κ} {type : KeystubType} {f : σ → ℤ × σ}
    {e : ℤ → ExecEvent κ η} {fails : ℤ → Prop} [DecidablePred fails] {arg : LreValue D}
    {a b : ℤ → α} (huse : ∀ ret, M Unit (emit (e ret))) :
    M α (do
      castStub C stub type
      let ret ← callback f
      emit (e ret)
      if fails ret then return a ret
      else
        lreValueRelease arg
        return b ret) := by
  apply hM.bind (hM.inert (inert_castStub C stub type))
  intro _
  apply hM.bind (hM.inert (inert_callback _))
  intro ret
  apply hM.bind (huse ret)
  intro _
  split
  · exact hM.pure _
  · exact hM.bind (hM.inert (inert_lreValueRelease _)) fun _ => hM.pure _

theorem executeArg (hM : Sequential M) {handle : η} {astub : κ}
    {val : Exec κ σ η (ℤ × LreValue D)}
    (huse : ∀ ret, M Unit (emit (.argHandler astub handle ret))) (hval : M _ val) :
    M _ (executeArg C handle astub val) := by
  apply hM.bind hval
  intro p
  dsimp only
  split
  · exact hM.pure _
  · exact hM.handler huse

theorem executeCallExec (hM : Sequential M) {cstub : κ} {handle : η}
    (hnone : M Unit (emit .noExec)) (huse : ∀ ret, M Unit (emit (.callExec cstub handle ret))) :
    M _ (executeCallExec C cstub handle) := by
  unfold Lre.executeCallExec
  split
  · exact hM.emit_pure hnone _
  · exact hM.bind (hM.inert (inert_callback _)) fun r => hM.bind (huse r.1) fun _ =>
      hM.bind (hM.inert (inert_setValues r.2 .init)) fun _ => hM.pure _

theorem executeCallInner (hM : Sequential M) {cstub : κ} {handle : η}
    {args : Exec κ σ η (ℤ × ℤ)} (hnone : M Unit (emit .noExec))
    (huse : ∀ ret, M Unit (emit (.callExec cstub handle ret))) (hargs : M _ args) :
    M _ (executeCallInner C cstub handle args) := by
  apply hM.bind hargs
  intro p
  dsimp only
  split
  · exact hM.pure _
  · split
    · exact hM.pure _
    · exact hM.bind (hM.executeCallExec hnone huse) fun _ => hM.pure _

theorem executeFuncInner (hM : Sequential M) {fstub : κ} {handle : η}
    {args : Exec κ σ η (ℤ × ℤ)} {body : Exec κ σ η ℤ}
    (huse : ∀ ret, M Unit (emit (.funcExec fstub handle ret))) (hargs : M _ args)
    (hbody : M _ body) : M _ (executeFuncInner C fstub handle args body) := by
  apply hM.bind hargs
  intro p
  dsimp only
  split
  · exact hM.pure _
  · split
    · exact hbody
    · apply hM.bind (hM.inert (inert_callback _))
      intro ret
      apply hM.bind (huse ret)
      intro _
      split
      · exact hM.pure _
      · exact hbody

theorem argsNext (hM : Sequential M) {x : Exec κ σ η (ℤ × ℤ)} (hx : M _ x)
    {more : Exec κ σ η (ℤ × ℤ)} (hmore : M _ more) :
    M _ (do
      let (valret, argret) ← x
      if valret ≠ 0 ∨ argret ≠ lreRetOk then return (valret, argret)
      else more) := by
  apply hM.bind hx
  intro p
  dsimp only
  split
  · exact hM.pure _
  · exact hmore

theorem exprEnd (hM : Sequential M) {handle : η} {estub : κ} {opt : Sym}
    {val : Exec κ σ η (ℤ × LreValue D)}
    (huse : ∀ ret, M Unit (emit (.exprHandler estub handle ret))) (hval : M _ val) :
    M _ (do
      let (ret, arg) ← val
      if ret ≠ 0 then return retDead
      else
        castStub C estub .expr
        let ret ← callback (C.exprHandler estub handle opt arg.content)
        emit (.exprHandler estub handle ret)
        if !vaildLreResults ret then return retDead
        else
          lreValueRelease arg
          return ret) := by
  apply hM.bind hval
  intro p
  dsimp only
  split
  · exact hM.pure _
  · exact hM.handler huse

theorem childsNext (hM : Sequential M) (herror : M Unit (emit .listError)) {opt next : Sym}
    {res ret : ℤ} {more : ℤ → Exec κ σ η ℤ} (hmore : ∀ res, M _ (more res)) :
    M _ (childsNext opt next res ret more) := by
  unfold Lre.childsNext
  split
  · exact hM.pure _
  · split
    · exact hM.emit_pure herror _
    · split
      · exact hM.pure _
      · exact hmore _

theorem childsNil (hM : Sequential M) (herror : M Unit (emit .listError)) (opt : Sym) (res : ℤ) :
    M _ (executeChildsLoop C R .nil opt res) := by
  unfold executeChildsLoop
  split
  · exact hM.emit_pure herror _
  · exact hM.pure _

end Sequential

end Lre
