import Lre.Exec.FailClosed
import Lre.Exec.Sequential

/-!
# Joined lists

* `ResolvedItems.Joined`: no list is empty, and neighbours are joined by `&&` or `||`.
* `Wellformed x`: `x` finds no empty list and no missing operator.
* `executeChildsLoop_wellformed`: the evaluators of a joined tree.
-/

namespace Lre

open Run

variable {κ σ η D α : Type}

mutual

/-- In every list, neighbours are joined by `&&` or `||`. -/
def ResolvedItem.Joined : ResolvedItem κ → Prop
  | .func _ _ body => body.Joined
  | .block _ childs => childs.Joined
  | .expr _ _ _ => True

/-- No list is empty, and neighbours are joined by `&&` or `||`. -/
def ResolvedItems.Joined : ResolvedItems κ → Prop
  | .nil => False
  | .cons node _ .nil => node.Joined
  | .cons node op (.cons node' op' rest) =>
    node.Joined ∧ (op = .and ∨ op = .or) ∧ (ResolvedItems.cons node' op' rest).Joined

end

/-- `x` finds no empty list and no missing operator. -/
def Wellformed (x : Exec κ σ η α) : Prop :=
  ∀ s, wp (fun _ => True) x (fun _ s' => ∀ e ∈ s'.trace, e ∈ s.trace ∨ e.2 ≠ .listError) s

theorem Wellformed.bind {β : Type} {x : Exec κ σ η α} {f : α → Exec κ σ η β} (hx : Wellformed x)
    (hf : ∀ a, Wellformed (f a)) : Wellformed (x >>= f) := by
  intro s
  refine (wp_bind ..).mpr (wp_mono (hx s) fun a s₁ h₁ => wp_mono (hf a s₁) fun b s₂ h₂ => ?_)
  intro e he
  rcases h₂ e he with he | hne
  · exact h₁ e he
  · exact .inr hne

theorem Wellformed.of_inert {x : Exec κ σ η α} (hx : Inert x) : Wellformed x := by
  intro s
  refine wp_mono (hx s) ?_
  rintro a s' ⟨-, -, new, hnew, hheap⟩ e he
  rcases List.mem_append.mp (hnew ▸ he) with he | he
  · right
    intro heq
    have hbad := (hheap e he).2
    rw [heq] at hbad
    exact hbad
  · exact .inl he

theorem sequential_wellformed :
    Sequential fun (β : Type) (x : Exec κ σ η β) => Wellformed x := ⟨.of_inert, .bind⟩

theorem Wellformed.pure (a : α) : Wellformed (Pure.pure a : Exec κ σ η α) := .of_inert (.pure a)

theorem wellformed_emit {e : ExecEvent κ η} (he : e ≠ .listError) :
    Wellformed (emit e : Exec κ σ η Unit) := by
  intro s e' he'
  rcases List.mem_cons.mp he' with rfl | he'
  · exact .inr he
  · exact .inl he'

theorem wellformed_execCtxPushHandle (handle : η) :
    Wellformed (execCtxPushHandle handle : Exec κ σ η Unit) := by
  intro s
  refine wp_execCtxPushHandle.mpr ?_
  split
  · exact wellformed_emit (by nofun) s
  · exact fun e he => .inl he

theorem wellformed_execCtxPopHandle : Wellformed (execCtxPopHandle : Exec κ σ η Unit) := by
  intro s
  refine wp_execCtxPopHandle.mpr ?_
  cases s.stack with
  | nil => trivial
  | cons handle stack => exact fun e he => .inl he

theorem Wellformed.negated {x : Exec κ σ η α} (hx : Wellformed x) : Wellformed (negated x) :=
  fun s => wp_negated.mpr (hx { s with negdepth := s.negdepth + 1 })

/-! ## The evaluators -/

variable {C : Callbacks κ σ η D} {R : Doubles D}

theorem wellformed_executeOut (stub : κ) (handle : η) : Wellformed (executeOut C stub handle) := by
  unfold executeOut
  split
  · exact wellformed_execCtxPopHandle
  · exact (Wellformed.of_inert (inert_callback _)).bind fun _ =>
      (wellformed_emit (by nofun)).bind fun _ => wellformed_execCtxPopHandle

theorem wellformed_executeCall {cstub : κ} {args : η → Exec κ σ η (ℤ × ℤ)}
    (hargs : ∀ handle, Wellformed (args handle)) : Wellformed (executeCall C cstub args) := by
  have hinner : ∀ handle, Wellformed (executeCallInner C cstub handle (args handle)) :=
    fun handle => sequential_wellformed.executeCallInner (wellformed_emit (by nofun))
      (fun _ => wellformed_emit (by nofun)) (hargs handle)
  refine (Wellformed.of_inert (inert_castStub C cstub .call)).bind fun _ =>
    (Wellformed.of_inert (inert_callback _)).bind fun handle =>
      (wellformed_emit (by nofun)).bind fun _ => ?_
  cases handle with
  | none => exact .pure _
  | some handle =>
    refine (wellformed_execCtxPushHandle handle).bind fun _ =>
      (hinner handle).bind fun r => ?_
    dsimp only
    split
    · exact (wellformed_emit (by nofun)).bind fun _ => .pure _
    · exact (wellformed_executeOut _ _).bind fun _ => .pure _

mutual

theorem executeOperand_wellformed : ∀ (v : ResolvedVal κ) (handle : η),
    Wellformed (executeOperand C R handle v)
  | .val _, _ => .pure _
  | .var _, _ => sequential_wellformed.executeVar fun _ => wellformed_emit (by nofun)
  | .valblock childs, _ =>
    (Wellformed.of_inert inert_execCtxGetHandle).bind fun handle =>
      executeValLoop_wellformed childs handle _ _
  | .call _ args, _ => wellformed_executeCall fun handle => executeArgs_wellformed args handle

theorem executeValLoop_wellformed : ∀ (vs : ResolvedVals κ) (handle : η) (opt : Sym)
    (arg : LreValue D), Wellformed (executeValLoop C R handle vs opt arg)
  | .nil, _, _, _ => .pure _
  | .cons node _ rest, handle, _, _ =>
    (executeOperand_wellformed node handle).bind fun _ =>
      sequential_wellformed.valNext (wellformed_emit (by nofun))
        fun arg => executeValLoop_wellformed rest handle _ arg

theorem executeArgs_wellformed : ∀ (args : ResolvedArgs κ) (handle : η),
    Wellformed (executeArgs C R handle args)
  | .nil, _ => .pure _
  | .cons _ valchilds rest, handle =>
    sequential_wellformed.argsNext
      (sequential_wellformed.executeArg (fun _ => wellformed_emit (by nofun))
        ((Wellformed.of_inert inert_execCtxGetHandle).bind fun handle =>
          executeValLoop_wellformed valchilds handle _ _))
      (executeArgs_wellformed rest handle)

end

theorem wellformed_executeSyntaxExpr (estub : κ) (opt : Sym) (valchilds : ResolvedVals κ) :
    Wellformed (executeSyntaxExpr C R estub opt valchilds) :=
  (Wellformed.of_inert inert_execCtxGetHandle).bind fun handle =>
    sequential_wellformed.exprEnd (fun _ => wellformed_emit (by nofun))
      ((Wellformed.of_inert inert_execCtxGetHandle).bind fun handle =>
        executeValLoop_wellformed valchilds handle _ _)

theorem wellformed_executeFunc {fstub : κ} {args : η → Exec κ σ η (ℤ × ℤ)}
    {body : Exec κ σ η ℤ}
    (hargs : ∀ handle, Wellformed (args handle)) (hbody : Wellformed body) :
    Wellformed (executeFunc C fstub args body) := by
  have hinner : ∀ handle, Wellformed (executeFuncInner C fstub handle (args handle) body) :=
    fun handle => sequential_wellformed.executeFuncInner (fun _ => wellformed_emit (by nofun))
      (hargs handle) hbody
  refine (Wellformed.of_inert (inert_castStub C fstub .func)).bind fun _ =>
    (Wellformed.of_inert (inert_callback _)).bind fun handle =>
      (wellformed_emit (by nofun)).bind fun _ => ?_
  cases handle with
  | none => exact .pure _
  | some handle =>
    exact (wellformed_execCtxPushHandle handle).bind fun _ => (hinner handle).bind fun _ =>
      (wellformed_executeOut _ _).bind fun _ => .pure _

/-- The operator before a node of a joined list, where there is a node before it. -/
def JoinedBy (opt : Sym) (res : ℤ) : Prop := res = valUninitialized ∨ opt = .and ∨ opt = .or

theorem JoinedBy.childsRes {opt : Sym} {res : ℤ} (h : JoinedBy opt res) (ret : ℤ) :
    ∃ res', childsRes opt res ret = some res' := by
  unfold Lre.childsRes
  split
  · exact ⟨_, rfl⟩
  · rename_i hres
    rcases h.resolve_left hres with rfl | rfl
    · exact ⟨_, rfl⟩
    · exact ⟨_, rfl⟩

theorem wellformed_childsNext {opt next : Sym} {res ret : ℤ} {more : ℤ → Exec κ σ η ℤ}
    (hres : JoinedBy opt res)
    (hmore : ∀ res, vaildLreResults res = true → Wellformed (more res)) :
    Wellformed (childsNext opt next res ret more) := by
  unfold childsNext
  split
  · exact .pure _
  · rename_i hret
    obtain ⟨res', hres'⟩ := hres.childsRes ret
    rw [hres']
    dsimp only
    split
    · exact .pure _
    · exact hmore res' (childsRes_valid (by simpa using hret) hres')

mutual

theorem executeItem_wellformed : ∀ node : ResolvedItem κ, node.Joined →
    Wellformed (executeItem C R node)
  | .func _ args body, h =>
    wellformed_executeFunc (fun handle => executeArgs_wellformed args handle)
      (executeChildsLoop_wellformed body _ _ h (.inl rfl))
  | .block true childs, h =>
    (Wellformed.negated (executeChildsLoop_wellformed childs _ _ h (.inl rfl))).bind
      fun _ => .pure _
  | .block false childs, h => executeChildsLoop_wellformed childs _ _ h (.inl rfl)
  | .expr estub opt valchilds, _ => wellformed_executeSyntaxExpr estub opt valchilds

theorem executeChildsLoop_wellformed : ∀ (items : ResolvedItems κ) (opt : Sym) (res : ℤ),
    items.Joined → JoinedBy opt res → Wellformed (executeChildsLoop C R items opt res)
  | .nil, _, _, h, _ => h.elim
  | .cons node next .nil, _, _, h, hres =>
    (executeItem_wellformed node h).bind fun ret => wellformed_childsNext hres fun res hvalid => by
      rw [executeChildsLoop, if_neg (by rintro rfl; cases hvalid)]
      exact .pure _
  | .cons node next (.cons node' op rest), _, _, ⟨hnode, hnext, hrest⟩, hres =>
    (executeItem_wellformed node hnode).bind fun ret => wellformed_childsNext hres fun res _ =>
      executeChildsLoop_wellformed (.cons node' op rest) next res hrest (.inr hnext)

end

end Lre
