import Lre.Interp.Buffer

/-!
# Details

The text that components write about an execution, in `interp->outbuf`.

* `execOutputCb`: the source; `execOutputs`: a sequence of its calls.
* `DetailsFit`: the buffer need not grow for them.
* **`execOutputs_same`**: then what they leave in the buffer does not depend on the one it was
  before, or on the heap.
* `execOutputs_size_iff`: when the buffer does not grow.
-/

namespace Lre

open CString

/-- `EXEC_OUT_UNIT_MAX`. -/
def execOutUnitMax : ℕ := 256

/-- The output part of `struct interp_context`; `details` is the start of `outbuf`. -/
structure OutContext where
  outbuf : Buffer
  detailen : ℕ
  detailcap : ℕ

/-- What `interp_context_init` sets. -/
def OutContext.init (outbuf : Buffer) : OutContext := ⟨outbuf, 0, outbuf.size⟩

/-- A string with its terminator. -/
def Buffer.putString (b : Buffer) (off : ℕ) (s : Word) : Buffer :=
  (b.writeAll off s).store (off + s.length) nul

/-- The tail of a unit: three dots when it is cut, and a blank. -/
def unitTail (etc : Bool) : Word := if etc then ['.', '.', '.', ' '] else [' ']

/-- A unit is too long, with its terminator. -/
def unitEtc (str : Word) : Bool := str.length + 1 ≥ execOutUnitMax

/-- What `xsnprintf` makes of a unit. -/
def unitText (str : Word) : Word × ℕ :=
  xsnprintf (if unitEtc str then execOutUnitMax - 4 else str.length + 1) str

/-- The two writes of `exec_output_cb`. -/
def writeUnit (str : Word) (out : OutContext) : OutContext :=
  let (text, len) := unitText str
  let tail := unitTail (unitEtc str)
  { out with
    outbuf := (out.outbuf.putString out.detailen text).putString (out.detailen + len) tail
    detailen := out.detailen + len + tail.length }

/-- `exec_output_cb`. -/
def execOutputCb (realloc : Option Memory) (str : Word) (out : OutContext) : OutContext :=
  if out.detailen + execOutUnitMax ≥ out.detailcap then
    match interpExpands outbufSizeMax realloc out.outbuf with
    | none => out
    | some b => writeUnit str { out with outbuf := b, detailcap := b.size }
  else writeUnit str out

/-- The calls of `exec_output_cb` with the strings of `strs`, the last one first; `reallocs i` is
what `realloc` does for the `i`-th. -/
def execOutputs (reallocs : ℕ → Option Memory) : List Word → OutContext → OutContext
  | [], out => out
  | str :: strs, out => execOutputCb (reallocs strs.length) str (execOutputs reallocs strs out)

/-! ## Outputs that fit -/

/-- What a unit adds to `detailen`. -/
def unitLen (str : Word) : ℕ := (unitText str).2 + (unitTail (unitEtc str)).length

/-- `detailen` after the units `strs`. -/
def detailsLen (strs : List Word) : ℕ := (strs.map unitLen).sum

/-- There is room for each of the units in a buffer of the default size. -/
def DetailsFit : List Word → Prop
  | [] => True
  | _ :: strs => detailsLen strs + execOutUnitMax < defaultOutbufSize ∧ DetailsFit strs

instance DetailsFit.decidable : DecidablePred DetailsFit
  | [] => .isTrue trivial
  | _ :: strs => @instDecidableAnd _ _ _ (DetailsFit.decidable strs)

/-- Two buffers of `n` bytes with the same contents. -/
structure Buffer.Same (n : ℕ) (b b' : Buffer) : Prop where
  size : b.size = n
  size' : b'.size = n
  mem : ∀ i, i < n → b.mem i = b'.mem i

variable {n : ℕ} {b b' : Buffer}

theorem Buffer.Same.store (h : Buffer.Same n b b') (off : ℕ) (c : Char) :
    Buffer.Same n (b.store off c) (b'.store off c) := by
  refine ⟨h.size, h.size', fun i hi => ?_⟩
  by_cases hoff : i = off
  · subst hoff
    exact store_self.trans store_self.symm
  · exact (store_of_ne hoff).trans ((h.mem i hi).trans (store_of_ne hoff).symm)

theorem Buffer.Same.writeAll (h : Buffer.Same n b b') (off : ℕ) (w : Word) :
    Buffer.Same n (b.writeAll off w) (b'.writeAll off w) := by
  induction w generalizing b b' off with
  | nil => exact h
  | cons c w ih => exact ih (h.store off c) (off + 1)

theorem Buffer.Same.putString (h : Buffer.Same n b b') (off : ℕ) (s : Word) :
    Buffer.Same n (b.putString off s) (b'.putString off s) :=
  (h.writeAll off s).store _ nul

theorem Buffer.Same.read (h : Buffer.Same n b b') : b.read 0 = b'.read 0 := by
  rw [Buffer.read, Buffer.read, h.size, h.size']
  exact read_congr fun i _ hi => h.mem i (by omega)

/-- Two output parts that do the same to the details. -/
structure OutContext.Same (out out' : OutContext) : Prop where
  outbuf : Buffer.Same defaultOutbufSize out.outbuf out'.outbuf
  detailen : out.detailen = out'.detailen
  detailcap : out.detailcap = defaultOutbufSize
  detailcap' : out'.detailcap = defaultOutbufSize

variable {out out' : OutContext}

theorem detailen_writeUnit (str : Word) (out : OutContext) :
    (writeUnit str out).detailen = out.detailen + unitLen str := Nat.add_assoc _ _ _

theorem execOutputCb_of_fits {str : Word} (h : out.detailen + execOutUnitMax < out.detailcap)
    (realloc : Option Memory) : execOutputCb realloc str out = writeUnit str out :=
  if_neg (Nat.not_le.mpr h)

theorem OutContext.Same.writeUnit (h : out.Same out') (str : Word) :
    (writeUnit str out).Same (writeUnit str out') := by
  refine ⟨?_, ?_, h.detailcap, h.detailcap'⟩
  · simp only [Lre.writeUnit, h.detailen]
    exact (h.outbuf.putString _ _).putString _ _
  · rw [detailen_writeUnit, detailen_writeUnit, h.detailen]

/-- **Details that fit are the same in every zero buffer of the default size, whatever the heap
does.** -/
theorem execOutputs_same (hb : Buffer.Same defaultOutbufSize b b') {strs : List Word}
    (hfit : DetailsFit strs) (reallocs reallocs' : ℕ → Option Memory) :
    (execOutputs reallocs strs (.init b)).Same (execOutputs reallocs' strs (.init b')) ∧
      (execOutputs reallocs strs (.init b)).detailen = detailsLen strs := by
  induction strs with
  | nil => exact ⟨⟨hb, rfl, hb.size, hb.size'⟩, rfl⟩
  | cons str strs ih =>
    obtain ⟨hsame, hlen⟩ := ih hfit.2
    have hroom := hfit.1
    have hroom' := hfit.1
    rw [← hlen, ← hsame.detailcap] at hroom
    rw [← hlen, hsame.detailen, ← hsame.detailcap'] at hroom'
    rw [execOutputs, execOutputs, execOutputCb_of_fits hroom, execOutputCb_of_fits hroom']
    refine ⟨hsame.writeUnit str, ?_⟩
    rw [detailen_writeUnit, hlen, detailsLen, detailsLen, List.map_cons, List.sum_cons]
    omega

/-! ## Growth for details -/

/-- `realloc` fails for each of the units for which a buffer of the default size has no room. -/
def GrowthsRefused (reallocs : ℕ → Option Memory) : List Word → Prop
  | [] => True
  | _ :: strs => (defaultOutbufSize ≤ detailsLen strs + execOutUnitMax →
      reallocs strs.length = none) ∧ GrowthsRefused reallocs strs

/-- An output part that has not grown; there is room for a unit exactly when there is room behind
all of `strs`. -/
structure OutContext.Stays (out : OutContext) (strs : List Word) : Prop where
  size : out.outbuf.size = defaultOutbufSize
  detailcap : out.detailcap = defaultOutbufSize
  detailen_le : out.detailen ≤ detailsLen strs
  room : out.detailen + execOutUnitMax < defaultOutbufSize → out.detailen = detailsLen strs

theorem writeUnit_size (str : Word) (out : OutContext) :
    (writeUnit str out).outbuf.size = out.outbuf.size := by
  simp only [writeUnit, Buffer.putString, Buffer.store, Buffer.writeAll_size]

theorem execOutputCb_size_of_grown {realloc : Option Memory} {str : Word} {b : Buffer}
    (hfull : out.detailcap ≤ out.detailen + execOutUnitMax)
    (hb : interpExpands outbufSizeMax realloc out.outbuf = some b) :
    (execOutputCb realloc str out).outbuf.size = b.size := by
  rw [execOutputCb, if_pos hfull, hb]
  exact writeUnit_size str _

theorem le_execOutputCb_size (realloc : Option Memory) (str : Word) (out : OutContext) :
    out.outbuf.size ≤ (execOutputCb realloc str out).outbuf.size := by
  by_cases hfull : out.detailcap ≤ out.detailen + execOutUnitMax
  · cases hb : interpExpands outbufSizeMax realloc out.outbuf with
    | none =>
      rw [execOutputCb, if_pos hfull, hb]
    | some b =>
      rw [execOutputCb_size_of_grown hfull hb]
      exact le_interpExpands_size hb
  · rw [execOutputCb_of_fits (Nat.not_le.mp hfull), writeUnit_size]

theorem le_execOutputs_size (reallocs : ℕ → Option Memory) (strs : List Word) (b : Buffer) :
    b.size ≤ (execOutputs reallocs strs (.init b)).outbuf.size := by
  induction strs with
  | nil => exact Nat.le_refl _
  | cons str strs ih => exact Nat.le_trans ih (le_execOutputCb_size _ str _)

theorem OutContext.Stays.execOutputCb {strs : List Word} (h : out.Stays strs)
    {realloc : Option Memory} (str : Word)
    (hnone : defaultOutbufSize ≤ detailsLen strs + execOutUnitMax → realloc = none) :
    (execOutputCb realloc str out).Stays (str :: strs) := by
  have hlen : detailsLen (str :: strs) = unitLen str + detailsLen strs := by
    rw [detailsLen, List.map_cons, List.sum_cons, ← detailsLen]
  have hle := h.detailen_le
  have hroom := h.room
  by_cases hfull : out.detailcap ≤ out.detailen + execOutUnitMax
  · have hcap := h.detailcap
    have hb : interpExpands outbufSizeMax realloc out.outbuf = none :=
      interpExpands_eq_none.mpr (.inr (hnone (by omega)))
    rw [Lre.execOutputCb, if_pos hfull, hb]
    exact ⟨h.size, h.detailcap, by dsimp only; omega, fun hlt => by dsimp only at hlt; omega⟩
  · have hlt := Nat.not_le.mp hfull
    rw [execOutputCb_of_fits hlt]
    rw [h.detailcap] at hlt
    have heq := hroom hlt
    refine ⟨(writeUnit_size str out).trans h.size, h.detailcap, ?_, fun _ => ?_⟩ <;>
      rw [detailen_writeUnit] <;> omega

theorem GrowthsRefused.stays {reallocs : ℕ → Option Memory} {strs : List Word}
    (hb : b.size = defaultOutbufSize) (h : GrowthsRefused reallocs strs) :
    (execOutputs reallocs strs (.init b)).Stays strs := by
  induction strs with
  | nil => exact ⟨hb, hb, Nat.le_refl _, fun _ => rfl⟩
  | cons str strs ih => exact (ih h.2).execOutputCb str h.1

/-- **The buffer for details keeps its default size exactly when every growth is refused.** -/
theorem execOutputs_size_iff {reallocs : ℕ → Option Memory} {strs : List Word}
    (hb : b.size = defaultOutbufSize) :
    (execOutputs reallocs strs (.init b)).outbuf.size = defaultOutbufSize ↔
      GrowthsRefused reallocs strs := by
  refine ⟨fun hsize => ?_, fun h => (h.stays hb).size⟩
  induction strs with
  | nil => trivial
  | cons str strs ih =>
    have hprev : (execOutputs reallocs strs (.init b)).outbuf.size = defaultOutbufSize :=
      Nat.le_antisymm (hsize ▸ le_execOutputCb_size _ str _) (hb ▸ le_execOutputs_size _ strs _)
    have hrefused := ih hprev
    refine ⟨fun hfull => ?_, hrefused⟩
    by_contra hsome
    obtain ⟨heap, hheap⟩ := Option.ne_none_iff_exists'.mp hsome
    have hstays := @GrowthsRefused.stays _ reallocs _ hb hrefused
    have hcap := hstays.detailcap
    have hroom := hstays.room
    have hb' := @interpExpands_of_some outbufSizeMax heap
      (execOutputs reallocs strs (.init b)).outbuf (by rw [hprev]; decide)
    have hgrown := @execOutputCb_size_of_grown (execOutputs reallocs strs (.init b)) _ str _
      (by omega) hb'
    rw [execOutputs, hheap, hgrown] at hsize
    have hdouble : min ((execOutputs reallocs strs (.init b)).outbuf.size * 2) outbufSizeMax =
        defaultOutbufSize := hsize
    rw [hprev] at hdouble
    exact absurd hdouble (by decide)

end Lre
