import Lre.CString
import Lre.Symbol

/-!
# The buffers of the interpreter

* `Buffer`: a heap buffer with the size the interpreter records for it. `mem` are the bytes from
  its start on, also behind the end of its allocation; `top` watches the writes of the current
  context and is read by no branch.
* `interpExpands`: the four functions `interp_expands_*`. They ask `realloc` for the old size; what
  the bytes behind the kept ones are is up to the heap.
* `Interp`, `interpreterCreate`, `interpContextInit`.
-/

namespace Lre

open CString

/-- A heap buffer of `struct interp`. -/
structure Buffer where
  mem : Memory
  /-- the recorded size -/
  size : ℕ
  /-- the bytes asked for last -/
  alloc : ℕ
  /-- one more than the highest offset written in the current context -/
  top : ℕ

/-- `xzalloc(size)` on a heap whose bytes behind the block are `heap`. -/
def Buffer.xzalloc (heap : Memory) (size : ℕ) : Buffer := ⟨memset heap nul size, size, size, 0⟩

/-- `memset(buf, 0, size)` at the start of a context. -/
def Buffer.clear (b : Buffer) : Buffer := { b with mem := memset b.mem nul b.size, top := b.size }

/-- A byte written. -/
def Buffer.store (b : Buffer) (off : ℕ) (c : Char) : Buffer :=
  { b with mem := CString.store b.mem off c, top := max b.top (off + 1) }

/-- The bytes of `w` written one after the other. -/
def Buffer.writeAll (b : Buffer) (off : ℕ) : Word → Buffer
  | [] => b
  | c :: w => (b.store off c).writeAll (off + 1) w

/-- The C string at an offset of a buffer; `none` when it does not end in the buffer. -/
def Buffer.read (b : Buffer) (off : ℕ) : Option Word := CString.read b.mem (b.size - off) off

/-- `strncpy(buf, s, n)`. -/
def Buffer.strncpy (b : Buffer) (s : Word) (n : ℕ) : Buffer :=
  { b with mem := CString.strncpy b.mem s n, top := max b.top n }

/-- `xsnprintf(buf, size, "%s", s)`: what it writes in front of its terminator, and its result. -/
def xsnprintf (size : ℕ) (s : Word) : Word × ℕ :=
  (s.take (size - 1), if s.length > size then size else s.length)

/-- The buffer after a `realloc` to its old size, recorded with the new one: the block keeps what
it held, the bytes behind are those of `heap`. -/
def Buffer.grow (b : Buffer) (max : ℕ) (heap : Memory) : Buffer :=
  { b with
    mem := fun i => if i < min b.alloc b.size then b.mem i else heap i
    size := min (b.size * 2) max
    alloc := b.size }

/-- The functions `interp_expands_*` with their maximal size; `none` is `-ENOMEM`. `realloc` is
`none` when it returns `NULL`, else the bytes that follow the ones it keeps. -/
def interpExpands (max : ℕ) (realloc : Option Memory) (b : Buffer) : Option Buffer :=
  if b.size ≥ max then none else realloc.map (b.grow max)

/-! ## The interpreter -/

/-- `DEFAULT_CODEBUF_SIZE`. -/
def defaultCodebufSize : ℕ := 4096

/-- `DEFAULT_WORKMEM_SIZE`. -/
def defaultWorkmemSize : ℕ := 4096

/-- `DEFAULT_STACKS_SIZE`. -/
def defaultStacksSize : ℕ := 8192

/-- `DEFAULT_OUTBUF_SIZE`. -/
def defaultOutbufSize : ℕ := 4096

/-- `CODEBUF_SIZE_MAX`. -/
def codebufSizeMax : ℕ := 4 * defaultCodebufSize

/-- `WORKMEM_SIZE_MAX`. -/
def workmemSizeMax : ℕ := 4 * defaultWorkmemSize

/-- `STACKS_SIZE_MAX`. -/
def stacksSizeMax : ℕ := 4 * defaultStacksSize

/-- `OUTBUF_SIZE_MAX`. -/
def outbufSizeMax : ℕ := 4 * defaultOutbufSize

/-- `struct interp`, over a type `π` of node pools. -/
structure Interp (π : Type) where
  codebuf : Buffer
  workmem : Buffer
  stackbuf : Buffer
  outbuf : Buffer
  results : ℤ
  errcode : ℤ
  syntaxMpool : π

variable {π : Type}

/-- `interp_expands_codebuf`. -/
def interpExpandsCodebuf (realloc : Option Memory) (interp : Interp π) : Option (Interp π) :=
  (interpExpands codebufSizeMax realloc interp.codebuf).map fun b => { interp with codebuf := b }

/-- `interp_expands_workmem`. -/
def interpExpandsWorkmem (realloc : Option Memory) (interp : Interp π) : Option (Interp π) :=
  (interpExpands workmemSizeMax realloc interp.workmem).map fun b => { interp with workmem := b }

/-- `interp_expands_stacks`. -/
def interpExpandsStacks (realloc : Option Memory) (interp : Interp π) : Option (Interp π) :=
  (interpExpands stacksSizeMax realloc interp.stackbuf).map fun b => { interp with stackbuf := b }

/-- `interp_expands_outbuf`. -/
def interpExpandsOutbuf (realloc : Option Memory) (interp : Interp π) : Option (Interp π) :=
  (interpExpands outbufSizeMax realloc interp.outbuf).map fun b => { interp with outbuf := b }

/-- `interpreter_create` on a heap whose bytes behind the `i`-th block are `heap i`. -/
def interpreterCreate (heap : Fin 4 → Memory) (pool : π) : Interp π where
  codebuf := .xzalloc (heap 0) defaultCodebufSize
  workmem := .xzalloc (heap 1) defaultWorkmemSize
  stackbuf := .xzalloc (heap 2) defaultStacksSize
  outbuf := .xzalloc (heap 3) defaultOutbufSize
  results := 0
  errcode := 0
  syntaxMpool := pool

/-- What `interp_context_init` does to the interpreter. -/
def interpContextInit (interp : Interp π) : Interp π :=
  { interp with
    codebuf := interp.codebuf.clear
    workmem := interp.workmem.clear
    stackbuf := interp.stackbuf.clear
    outbuf := interp.outbuf.clear }

/-! ## Sizes -/

/-- The sizes a buffer of maximal size `4 * n` can have. -/
def Buffer.Sized (b : Buffer) (n : ℕ) : Prop := b.size = n ∨ b.size = 2 * n ∨ b.size = 4 * n

theorem interpExpands_sized {realloc : Option Memory} {b b' : Buffer} {n : ℕ} (h : b.Sized n)
    (hb : interpExpands (4 * n) realloc b = some b') : b'.Sized n := by
  unfold interpExpands at hb
  split at hb
  · cases hb
  · obtain ⟨heap, -, rfl⟩ := Option.map_eq_some_iff.mp hb
    simp only [Buffer.Sized, Buffer.grow] at h ⊢
    omega

theorem interpExpands_eq_none {max : ℕ} {realloc : Option Memory} {b : Buffer} :
    interpExpands max realloc b = none ↔ max ≤ b.size ∨ realloc = none := by
  unfold interpExpands
  split <;> rename_i h
  · simp [h]
  · simp [h]

theorem interpExpands_of_some {max : ℕ} {heap : Memory} {b : Buffer} (h : b.size < max) :
    interpExpands max (some heap) b = some (b.grow max heap) := if_neg (Nat.not_le.mpr h)

theorem le_interpExpands_size {max : ℕ} {realloc : Option Memory} {b b' : Buffer}
    (h : interpExpands max realloc b = some b') : b.size ≤ b'.size := by
  unfold interpExpands at h
  split at h
  · cases h
  · obtain ⟨heap, -, rfl⟩ := Option.map_eq_some_iff.mp h
    show b.size ≤ min (b.size * 2) max
    omega

theorem Buffer.grow_mem {b : Buffer} {max i : ℕ} {heap : Memory} (h : b.size ≤ i) :
    (b.grow max heap).mem i = heap i :=
  if_neg fun hlt => absurd (Nat.lt_of_lt_of_le hlt (Nat.min_le_right _ _)) (Nat.not_lt.mpr h)

/-! ## Bytes -/

theorem Buffer.writeAll_size (b : Buffer) (off : ℕ) (w : Word) :
    (b.writeAll off w).size = b.size := by
  induction w generalizing b off with
  | nil => rfl
  | cons c w ih => exact ih _ _

theorem Buffer.writeAll_mem_of_lt {b : Buffer} {off i : ℕ} (h : i < off) (w : Word) :
    (b.writeAll off w).mem i = b.mem i := by
  induction w generalizing b off with
  | nil => rfl
  | cons c w ih =>
    rw [Buffer.writeAll, ih (Nat.lt_succ_of_lt h)]
    exact store_of_ne (Nat.ne_of_lt h)

theorem Buffer.writeAll_mem_of_le {b : Buffer} {off i : ℕ} {w : Word} (h : off + w.length ≤ i) :
    (b.writeAll off w).mem i = b.mem i := by
  induction w generalizing b off with
  | nil => rfl
  | cons c w ih =>
    rw [List.length_cons] at h
    rw [Buffer.writeAll, ih (by omega)]
    exact store_of_ne (by omega)

end Lre
