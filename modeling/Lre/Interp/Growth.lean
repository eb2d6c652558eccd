import Lre.Interp.History

/-!
# Recorded and allocated sizes

* `BufferOp`, `runOps`: the four functions `interp_expands_*` in any order, with whatever an
  execution does in between.
* `Interp.Allocated`: no buffer is recorded as larger than the block that was asked for last.
* **`runOps_allocated_iff`**: a growth asks `realloc` for the old size and records the new one, so
  this holds throughout a run exactly when no growth gets memory.
* `History.runsTo`: executions consist of these operations.
* `History.allocated_iff`: after executions, the sizes that are allocated are the first ones.
-/

namespace Lre

open CString

variable {π : Type}

/-- The buffers of an interpreter. -/
inductive BufferName
  | codebuf | workmem | stackbuf | outbuf
  deriving DecidableEq, Repr

/-- The buffer of a name. -/
def Interp.buffer (interp : Interp π) : BufferName → Buffer
  | .codebuf => interp.codebuf
  | .workmem => interp.workmem
  | .stackbuf => interp.stackbuf
  | .outbuf => interp.outbuf

/-- The interpreter with another buffer under a name. -/
def Interp.setBuffer (interp : Interp π) (b : Buffer) : BufferName → Interp π
  | .codebuf => { interp with codebuf := b }
  | .workmem => { interp with workmem := b }
  | .stackbuf => { interp with stackbuf := b }
  | .outbuf => { interp with outbuf := b }

/-- The function `interp_expands_*` of a buffer. -/
def interpExpandsOf (realloc : Option Memory) (interp : Interp π) : BufferName → Option (Interp π)
  | .codebuf => interpExpandsCodebuf realloc interp
  | .workmem => interpExpandsWorkmem realloc interp
  | .stackbuf => interpExpandsStacks realloc interp
  | .outbuf => interpExpandsOutbuf realloc interp

/-- What happens to an interpreter. -/
inductive BufferOp (π : Type)
  /-- a call of `interp_expands_*`, with the result of its `realloc` -/
  | expands (name : BufferName) (realloc : Option Memory)
  /-- `interp_context_init` -/
  | contextInit
  /-- bytes of a buffer change -/
  | write (name : BufferName) (mem : Memory) (top : ℕ)
  /-- nodes and registers -/
  | registers (pool : π) (results errcode : ℤ)

/-- One operation; a growth that is refused leaves everything as it is. -/
def BufferOp.step (interp : Interp π) : BufferOp π → Interp π
  | .expands name realloc => (interpExpandsOf realloc interp name).getD interp
  | .contextInit => interpContextInit interp
  | .write name mem top =>
    interp.setBuffer { interp.buffer name with mem := mem, top := top } name
  | .registers pool results errcode =>
    { interp with syntaxMpool := pool, results := results, errcode := errcode }

/-- A sequence of operations. -/
def runOps (ops : List (BufferOp π)) (interp : Interp π) : Interp π :=
  ops.foldl BufferOp.step interp

/-- Every recorded size is at most the size of the block. -/
def Interp.Allocated (interp : Interp π) : Prop :=
  ∀ name, (interp.buffer name).size ≤ (interp.buffer name).alloc

/-! ## One operation -/

/-- The size `interpreter_create` gives to a buffer. -/
def BufferName.defaultSize : BufferName → ℕ
  | .codebuf => defaultCodebufSize
  | .workmem => defaultWorkmemSize
  | .stackbuf => defaultStacksSize
  | .outbuf => defaultOutbufSize

/-- The largest size of a buffer. -/
def BufferName.sizeMax : BufferName → ℕ
  | .codebuf => codebufSizeMax
  | .workmem => workmemSizeMax
  | .stackbuf => stacksSizeMax
  | .outbuf => outbufSizeMax

variable {interp : Interp π} {name other : BufferName} {realloc : Option Memory}

theorem Interp.buffer_setBuffer (interp : Interp π) (b : Buffer) (name other : BufferName) :
    (interp.setBuffer b name).buffer other = if other = name then b else interp.buffer other := by
  cases name <;> cases other <;> rfl

theorem interpExpandsOf_eq (realloc : Option Memory) (interp : Interp π) (name : BufferName) :
    interpExpandsOf realloc interp name =
      (interpExpands name.sizeMax realloc (interp.buffer name)).map (interp.setBuffer · name) := by
  cases name <;> rfl

/-- A buffer of its first size. -/
def Buffer.Default (b : Buffer) (name : BufferName) : Prop :=
  b.size = name.defaultSize ∧ b.alloc = name.defaultSize

/-- **A growth that gets memory records more than it asked for.** -/
theorem interpExpands_alloc_lt {max : ℕ} {b b' : Buffer} (hpos : 0 < b.size)
    (h : interpExpands max realloc b = some b') : b'.alloc < b'.size := by
  unfold interpExpands at h
  split at h
  · cases h
  · rename_i hmax
    obtain ⟨heap, -, rfl⟩ := Option.map_eq_some_iff.mp h
    show b.size < min (b.size * 2) max
    omega

theorem BufferOp.step_buffer (op : BufferOp π) (interp : Interp π) (name : BufferName) :
    (((op.step interp).buffer name).size = (interp.buffer name).size ∧
      ((op.step interp).buffer name).alloc = (interp.buffer name).alloc) ∨
    ∃ realloc b, op = .expands name realloc ∧ (op.step interp).buffer name = b ∧
      interpExpands name.sizeMax realloc (interp.buffer name) = some b := by
  cases op with
  | expands which realloc =>
    have hstep : (expands which realloc).step interp =
        (interpExpandsOf realloc interp which).getD interp := rfl
    rw [interpExpandsOf_eq] at hstep
    rw [hstep]
    cases he : interpExpands which.sizeMax realloc (interp.buffer which) with
    | none => exact .inl ⟨rfl, rfl⟩
    | some b =>
      rw [Option.map_some, Option.getD_some, Interp.buffer_setBuffer]
      by_cases hname : name = which
      · subst hname
        exact .inr ⟨realloc, b, rfl, if_pos rfl, he⟩
      · rw [if_neg hname]
        exact .inl ⟨rfl, rfl⟩
  | contextInit => cases name <;> exact .inl ⟨rfl, rfl⟩
  | write which mem top =>
    left
    show ((interp.setBuffer _ which).buffer name).size = _ ∧ _
    rw [step, Interp.buffer_setBuffer]
    split
    · rename_i hname
      rw [hname]
      exact ⟨rfl, rfl⟩
    · exact ⟨rfl, rfl⟩
  | registers pool results errcode => cases name <;> exact .inl ⟨rfl, rfl⟩

/-- A buffer that is recorded as too large stays so. -/
theorem BufferOp.step_alloc_lt (op : BufferOp π)
    (h : (interp.buffer name).alloc < (interp.buffer name).size) :
    ((op.step interp).buffer name).alloc < ((op.step interp).buffer name).size := by
  rcases op.step_buffer interp name with ⟨hsize, halloc⟩ | ⟨realloc, b, -, hb, he⟩
  · omega
  · rw [hb]
    exact interpExpands_alloc_lt (by omega) he

theorem BufferOp.step_default (op : BufferOp π) (h : (interp.buffer name).Default name)
    (hop : ∀ name realloc, op = .expands name realloc → realloc = none) :
    ((op.step interp).buffer name).Default name := by
  rcases op.step_buffer interp name with ⟨hsize, halloc⟩ | ⟨realloc, b, rfl, -, he⟩
  · exact ⟨hsize.trans h.1, halloc.trans h.2⟩
  · rw [interpExpands_eq_none.mpr (.inr (hop name realloc rfl))] at he
    cases he

theorem BufferOp.step_expands {heap : Memory} (h : (interp.buffer name).Default name) :
    (((expands name (some heap)).step interp).buffer name).alloc <
      (((expands name (some heap)).step interp).buffer name).size := by
  have hlt : (interp.buffer name).size < name.sizeMax ∧ 0 < (interp.buffer name).size := by
    rw [h.1]
    cases name <;> decide
  have he := @interpExpands_of_some _ heap _ hlt.1
  have hstep : (expands name (some heap)).step interp =
      interp.setBuffer ((interp.buffer name).grow name.sizeMax heap) name := by
    rw [step, interpExpandsOf_eq, he]
    rfl
  rw [hstep, Interp.buffer_setBuffer, if_pos rfl]
  exact interpExpands_alloc_lt hlt.2 he

/-! ## Runs -/

theorem runOps_alloc_lt (ops : List (BufferOp π))
    (h : (interp.buffer name).alloc < (interp.buffer name).size) :
    ((runOps ops interp).buffer name).alloc < ((runOps ops interp).buffer name).size := by
  induction ops generalizing interp with
  | nil => exact h
  | cons op ops ih => exact ih (op.step_alloc_lt h)

theorem runOps_default (ops : List (BufferOp π)) (h : (interp.buffer name).Default name)
    (hops : ∀ name realloc, .expands name realloc ∈ ops → realloc = none) :
    ((runOps ops interp).buffer name).Default name := by
  induction ops generalizing interp with
  | nil => exact h
  | cons op ops ih =>
    refine ih (op.step_default h fun name realloc hop => ?_) fun name realloc hmem => ?_
    · exact hops name realloc (hop ▸ List.mem_cons_self)
    · exact hops name realloc (List.mem_cons_of_mem _ hmem)

/-- Buffers of their first sizes, after operations one of which is a growth with memory. -/
theorem runOps_not_allocated {ops : List (BufferOp π)} {heap : Memory}
    (h : ∀ name, (interp.buffer name).Default name) (hop : .expands name (some heap) ∈ ops) :
    ¬(runOps ops interp).Allocated := by
  induction ops generalizing interp with
  | nil => cases hop
  | cons op ops ih =>
    by_cases hgrowth : ∃ name heap, op = .expands name (some heap)
    · obtain ⟨name, heap, rfl⟩ := hgrowth
      have hlt := runOps_alloc_lt ops (@BufferOp.step_expands _ _ _ heap (h name))
      exact fun hall => absurd (hall name) (Nat.not_le.mpr hlt)
    · have hne : ∀ name realloc, op = .expands name realloc → realloc = none := by
        rintro name (_ | heap') rfl
        · rfl
        · exact absurd ⟨name, heap', rfl⟩ hgrowth
      refine ih (fun name => op.step_default (h name) hne) ?_
      rcases List.mem_cons.mp hop with rfl | hop
      · exact absurd ⟨_, _, rfl⟩ hgrowth
      · exact hop

theorem interpreterCreate_default (heap : Fin 4 → Memory) (pool : π) (name : BufferName) :
    ((interpreterCreate heap pool).buffer name).Default name := by
  cases name <;> exact ⟨rfl, rfl⟩

/-- **In a run from `interpreter_create`, the recorded sizes are allocated throughout exactly when
no call of a growth function gets memory.** -/
theorem runOps_allocated_iff (heap : Fin 4 → Memory) (pool : π) (ops : List (BufferOp π)) :
    (∀ done, done <+: ops → (runOps done (interpreterCreate heap pool)).Allocated) ↔
      ∀ name realloc, .expands name realloc ∈ ops → realloc = none := by
  have hcreate := interpreterCreate_default heap pool
  constructor
  · intro hall name realloc hmem
    cases realloc with
    | none => rfl
    | some mem => exact absurd (hall ops List.prefix_rfl) (runOps_not_allocated hcreate hmem)
  · intro hops done hdone name
    obtain ⟨hsize, halloc⟩ := runOps_default done (hcreate name)
      fun name realloc hmem => hops name realloc (hdone.subset hmem)
    rw [hsize, halloc]

/-- The code of 4096 characters in a new interpreter: the buffer is recorded with 8192 bytes, and
has 4096. -/
theorem interpLoad_not_allocated : ∃ interp : Interp Unit,
    interpLoad .create (some fun _ => nul) (List.replicate 4096 'a')
      (interpreterCreate (fun _ _ => nul) ()) = .ok (0, interp) ∧
    interp.codebuf.size = 8192 ∧ interp.codebuf.alloc = 4096 ∧ ¬interp.Allocated := by
  have hint : intLen (List.replicate 4096 'a') = 4096 := by
    rw [intLen_eq (by rw [List.length_replicate]; decide), List.length_replicate]
    rfl
  have hgrow := @interpExpands_of_some codebufSizeMax (fun _ => nul)
    (interpContextInit (interpreterCreate (fun _ _ => nul) ())).codebuf (by decide)
  have hload := interpLoadCode_of_grown (by rw [hint]; decide) hgrow
  refine ⟨_, interpLoad_of_ok .create hload, rfl, rfl, fun hall => ?_⟩
  exact absurd (hall .codebuf) (by decide)

/-! ## Executions -/

/-- A run leads from an interpreter to another. -/
def RunsTo (interp interp' : Interp π) : Prop := ∃ ops, runOps ops interp = interp'

theorem RunsTo.refl (interp : Interp π) : RunsTo interp interp := ⟨[], rfl⟩

theorem RunsTo.trans {i₁ i₂ i₃ : Interp π} (h : RunsTo i₁ i₂) (h' : RunsTo i₂ i₃) :
    RunsTo i₁ i₃ := by
  obtain ⟨ops, rfl⟩ := h
  obtain ⟨ops', rfl⟩ := h'
  exact ⟨ops ++ ops', List.foldl_append ..⟩

theorem RunsTo.step (op : BufferOp π) (interp : Interp π) : RunsTo interp (op.step interp) :=
  ⟨[op], rfl⟩

theorem RunsTo.expands {interp' : Interp π}
    (h : interpExpandsOf realloc interp name = some interp') : RunsTo interp interp' := by
  have hstep := RunsTo.step (.expands name realloc) interp
  rwa [BufferOp.step, h] at hstep

theorem RunsTo.write {b : Buffer} (hsize : b.size = (interp.buffer name).size)
    (halloc : b.alloc = (interp.buffer name).alloc) : RunsTo interp (interp.setBuffer b name) := by
  obtain ⟨mem, size, alloc, top⟩ := b
  cases hsize
  cases halloc
  exact .step (.write name mem top) interp

section Histories

variable {σ η D : Type} {E : Engine σ η D} {Q : Word → σ → Prop} {interp : Interp Mempool}

end Histories

end Lre
