import Lre.Interp.Buffer

/-!
# Loading a rule

* `interpLoadCode`, `interpContextCreate`, `interpContextReloadCode`: the source.
* `Loads`: the states that sequences of loads reach; `Loads.sized` bounds the code buffer.
* `LoadExact`: a load fails with an error or leaves exactly the given code in the buffer, and
  writes no byte behind its recorded size.
* **`interpLoad_exact_iff`**: one doubling is asked for, whatever the length, and nothing zeroes
  the bytes it brings; so a load that grows the buffer is exact only by accident.
-/

namespace Lre

open CString

variable {π : Type}

/-- The `int len = strlen(code)` of `interp_load_code`. -/
def intLen (code : Word) : ℤ := (BitVec.ofNat 32 code.length).toInt

/-- The conversion of an `int` to `size_t`. -/
def sizeT (len : ℤ) : ℕ := (BitVec.ofInt 64 len).toNat

/-- `interp_load_code`. -/
def interpLoadCode (realloc : Option Memory) (code : Word) (interp : Interp π) : ℤ × Interp π :=
  let len := intLen code
  let copy (interp : Interp π) : Interp π :=
    { interp with codebuf := interp.codebuf.strncpy code (sizeT len) }
  if interp.codebuf.size ≤ len then
    match interpExpandsCodebuf realloc interp with
    | none => (enomem, interp)
    | some interp => (0, copy interp)
  else (0, copy interp)

/-- Why a load does not return. -/
inductive LoadFault
  /-- `free` of the context, which is a member of `struct interp` -/
  | invalidFree
  deriving DecidableEq, Repr

/-- `interp_context_create`. -/
def interpContextCreate (realloc : Option Memory) (code : Word) (interp : Interp π) :
    Except LoadFault (ℤ × Interp π) :=
  match interpLoadCode realloc code (interpContextInit interp) with
  | (0, interp) => .ok (0, interp)
  | (_, _) => .error .invalidFree

/-- `interp_context_reload_code`. -/
def interpContextReloadCode (realloc : Option Memory) (code : Word) (interp : Interp π) :
    ℤ × Interp π :=
  match interpLoadCode realloc code (interpContextInit interp) with
  | (0, interp) => (0, interp)
  | (_, interp) => (enomem, interp)

/-- The two callers of `interp_load_code`. -/
inductive LoadCall
  | create | reload
  deriving DecidableEq, Repr

/-- A load. -/
def interpLoad (call : LoadCall) (realloc : Option Memory) (code : Word) (interp : Interp π) :
    Except LoadFault (ℤ × Interp π) :=
  match call with
  | .create => interpContextCreate realloc code interp
  | .reload => .ok (interpContextReloadCode realloc code interp)

/-! ## Sequences of loads -/

/-- The states that sequences of loads reach from `interpreter_create`. -/
inductive Loads : Interp π → Prop
  | create (heap : Fin 4 → Memory) (pool : π) : Loads (interpreterCreate heap pool)
  | load {interp interp' : Interp π} {ret : ℤ} (call : LoadCall) (realloc : Option Memory)
      (code : Word) (h : Loads interp)
      (hl : interpLoad call realloc code interp = .ok (ret, interp')) : Loads interp'

theorem interpLoadCode_sized {realloc : Option Memory} {code : Word} {interp : Interp π}
    (h : interp.codebuf.Sized defaultCodebufSize) :
    (interpLoadCode realloc code interp).2.codebuf.Sized defaultCodebufSize := by
  unfold interpLoadCode
  dsimp only
  split
  · cases he : interpExpandsCodebuf realloc interp with
    | none => exact h
    | some interp' =>
      obtain ⟨b, hb, rfl⟩ := Option.map_eq_some_iff.mp he
      have hsize : b.Sized defaultCodebufSize := interpExpands_sized h hb
      exact hsize
  · exact h

/-- Both callers leave the interpreter as `interp_load_code` does. -/
theorem interpLoad_state {call : LoadCall} {realloc : Option Memory} {code : Word}
    {interp interp' : Interp π} {ret : ℤ}
    (hl : interpLoad call realloc code interp = .ok (ret, interp')) :
    (interpLoadCode realloc code (interpContextInit interp)).2 = interp' := by
  cases call with
  | create =>
    rw [interpLoad, interpContextCreate] at hl
    split at hl <;> rename_i heq <;> rw [heq]
    · cases hl; rfl
    · cases hl
  | reload =>
    rw [interpLoad, interpContextReloadCode] at hl
    split at hl <;> rename_i heq <;> rw [heq]
    · cases hl; rfl
    · cases hl; rfl

theorem interpLoad_sized {call : LoadCall} {realloc : Option Memory} {code : Word}
    {interp interp' : Interp π} {ret : ℤ} (h : interp.codebuf.Sized defaultCodebufSize)
    (hl : interpLoad call realloc code interp = .ok (ret, interp')) :
    interp'.codebuf.Sized defaultCodebufSize := by
  rw [← interpLoad_state hl]
  exact interpLoadCode_sized h

/-- **The code buffer has one of three sizes in every run.** -/
theorem Loads.sized {interp : Interp π} (h : Loads interp) :
    interp.codebuf.Sized defaultCodebufSize := by
  induction h with
  | create => exact .inl rfl
  | load _ _ _ _ hl ih => exact interpLoad_sized ih hl

/-! ## Exactness -/

/-- The code buffer holds exactly `code` and its terminator, inside its recorded size. -/
def Loaded (code : Word) (b : Buffer) : Prop := HoldsAt b.mem 0 code ∧ code.length < b.size

/-- The load returns; it fails with an error or the buffer holds the code; and no byte is written
behind the recorded size. -/
def LoadExact (code : Word) : Except LoadFault (ℤ × Interp π) → Prop
  | .error _ => False
  | .ok (ret, interp) =>
    (ret < 0 ∨ Loaded code interp.codebuf) ∧ interp.codebuf.top ≤ interp.codebuf.size

/-- `interp_expands_codebuf` refuses to grow the buffer. -/
def GrowthRefused (realloc : Option Memory) (b : Buffer) : Prop :=
  codebufSizeMax ≤ b.size ∨ realloc = none

/-- The byte behind the code happens to be a terminator after the one growth, which is enough. -/
def LuckyGrowth (realloc : Option Memory) (code : Word) (b : Buffer) : Prop :=
  b.size < codebufSizeMax ∧ b.size ≤ code.length ∧
    code.length < min (b.size * 2) codebufSizeMax ∧
      ∃ heap, realloc = some heap ∧ heap code.length = nul

theorem intLen_eq_ite (code : Word) : intLen code =
    if 2 * (code.length % 2 ^ 32) < 2 ^ 32 then ((code.length % 2 ^ 32 : ℕ) : ℤ)
    else ((code.length % 2 ^ 32 : ℕ) : ℤ) - 2 ^ 32 := by
  rw [intLen, BitVec.toInt_eq_toNat_cond, BitVec.toNat_ofNat]
  rfl

theorem intLen_eq {code : Word} (h : code.length < 2 ^ 31) : intLen code = code.length := by
  rw [intLen_eq_ite]
  split <;> omega

theorem sizeT_intLen {code : Word} (h : code.length < 2 ^ 31) :
    sizeT (intLen code) = code.length := by
  rw [sizeT, intLen_eq h, BitVec.toNat_ofInt]
  omega

theorem intLen_le {code : Word} (h : 0 ≤ intLen code) : intLen code ≤ code.length := by
  rw [intLen_eq_ite] at h ⊢
  split <;> split at h <;> omega

theorem loaded_strncpy_iff {code : Word} (hcode : nul ∉ code) (h : code.length < 2 ^ 31)
    (b : Buffer) : Loaded code (b.strncpy code (sizeT (intLen code))) ↔
      b.mem code.length = nul ∧ code.length < b.size := by
  rw [sizeT_intLen h]
  exact and_congr_left' (holdsAt_strncpy_length hcode)

/-- The copy of `interp_load_code` stays inside the buffer when the code does. -/
theorem top_strncpy {code : Word} (h : code.length < 2 ^ 31) (b : Buffer) :
    (b.strncpy code (sizeT (intLen code))).top = max b.top code.length := by
  rw [sizeT_intLen h]
  rfl

section Cases

variable {realloc : Option Memory} {code : Word} {interp : Interp π}

theorem interpLoadCode_of_lt (h : intLen code < interp.codebuf.size) :
    interpLoadCode realloc code interp =
      (0, { interp with codebuf := interp.codebuf.strncpy code (sizeT (intLen code)) }) := by
  unfold interpLoadCode
  exact if_neg (Int.not_le.mpr h)

theorem interpLoadCode_of_refused (h : interp.codebuf.size ≤ intLen code)
    (hr : GrowthRefused realloc interp.codebuf) :
    interpLoadCode realloc code interp = (enomem, interp) := by
  have he : interpExpands codebufSizeMax realloc interp.codebuf = none :=
    interpExpands_eq_none.mpr hr
  unfold interpLoadCode
  simp only [if_pos h, interpExpandsCodebuf, he, Option.map_none]

theorem interpLoadCode_of_grown (h : interp.codebuf.size ≤ intLen code) {b : Buffer}
    (hb : interpExpands codebufSizeMax realloc interp.codebuf = some b) :
    interpLoadCode realloc code interp =
      (0, { interp with codebuf := b.strncpy code (sizeT (intLen code)) }) := by
  unfold interpLoadCode
  simp only [if_pos h, interpExpandsCodebuf, hb, Option.map_some]

theorem interpLoad_of_ok {interp' : Interp π} (call : LoadCall)
    (h : interpLoadCode realloc code (interpContextInit interp) = (0, interp')) :
    interpLoad call realloc code interp = .ok (0, interp') := by
  cases call <;> simp only [interpLoad, interpContextCreate, interpContextReloadCode, h]

theorem loadExact_of_enomem {interp' : Interp π} {call : LoadCall}
    (h : interpLoadCode realloc code (interpContextInit interp) = (enomem, interp'))
    (htop : interp'.codebuf.top ≤ interp'.codebuf.size) :
    LoadExact code (interpLoad call realloc code interp) ↔ call = .reload := by
  cases call with
  | create => simp [interpLoad, interpContextCreate, h, enomem, LoadExact]
  | reload => simp [interpLoad, interpContextReloadCode, h, enomem, LoadExact, htop]

theorem loadExact_ok_iff {interp' : Interp π} :
    LoadExact code (.ok ((0 : ℤ), interp')) ↔
      Loaded code interp'.codebuf ∧ interp'.codebuf.top ≤ interp'.codebuf.size := by
  simp [LoadExact]

/-- The interpreter after the load of a code that fits into the buffer. -/
def Interp.loaded (interp : Interp π) (code : Word) : Interp π :=
  { interpContextInit interp with
    codebuf := (interpContextInit interp).codebuf.strncpy code code.length }

/-- **A code shorter than the buffer is loaded, and the buffer then holds it.** -/
theorem interpLoad_of_length_lt (hcode : nul ∉ code)
    (hmax : interp.codebuf.size ≤ codebufSizeMax) (hlt : code.length < interp.codebuf.size)
    (call : LoadCall) : interpLoad call realloc code interp = .ok (0, interp.loaded code) ∧
      Loaded code (interp.loaded code).codebuf := by
  have hlen : code.length < 2 ^ 31 := by
    have : codebufSizeMax < 2 ^ 31 := by decide
    omega
  have hfit : intLen code < interp.codebuf.size := by
    rw [intLen_eq hlen]
    omega
  have hload := @interpLoadCode_of_lt _ realloc code (interpContextInit interp) hfit
  have hheld := loaded_strncpy_iff hcode hlen interp.codebuf.clear
  rw [sizeT_intLen hlen] at hload hheld
  exact ⟨interpLoad_of_ok call hload, hheld.mpr ⟨memset_of_lt hlt, hlt⟩⟩

theorem loadExact_of_fits (hcode : nul ∉ code) (hmax : interp.codebuf.size ≤ codebufSizeMax)
    (hfit : intLen code < interp.codebuf.size) (call : LoadCall) :
    LoadExact code (interpLoad call realloc code interp) ↔ code.length < interp.codebuf.size := by
  rw [interpLoad_of_ok call (@interpLoadCode_of_lt _ _ _ (interpContextInit interp) hfit),
    loadExact_ok_iff]
  refine ⟨fun h => h.1.2, fun hlt => ?_⟩
  have hlen : code.length < 2 ^ 31 := by
    have : codebufSizeMax < 2 ^ 31 := by decide
    omega
  rw [loaded_strncpy_iff hcode hlen, top_strncpy hlen]
  exact ⟨⟨memset_of_lt hlt, hlt⟩, Nat.max_le.mpr ⟨Nat.le_refl _, Nat.le_of_lt hlt⟩⟩

theorem loadExact_of_refused (h : interp.codebuf.size ≤ intLen code)
    (hr : GrowthRefused realloc interp.codebuf) (call : LoadCall) :
    LoadExact code (interpLoad call realloc code interp) ↔ call = .reload :=
  loadExact_of_enomem (@interpLoadCode_of_refused _ _ _ (interpContextInit interp) h hr)
    (Nat.le_refl _)

theorem loadExact_of_grown (hcode : nul ∉ code) (hpos : 0 < interp.codebuf.size)
    (h : interp.codebuf.size ≤ intLen code) (hr : ¬GrowthRefused realloc interp.codebuf)
    (call : LoadCall) : LoadExact code (interpLoad call realloc code interp) ↔
      LuckyGrowth realloc code interp.codebuf := by
  rw [GrowthRefused, not_or, Nat.not_le] at hr
  obtain ⟨hlt, hsome⟩ := hr
  obtain ⟨heap, rfl⟩ := Option.ne_none_iff_exists'.mp hsome
  have hle : interp.codebuf.size ≤ code.length := by
    have := @intLen_le code (by omega)
    omega
  have hb := @interpExpands_of_some _ heap interp.codebuf.clear hlt
  have hmem : (interp.codebuf.clear.grow codebufSizeMax heap).mem code.length =
      heap code.length := Buffer.grow_mem hle
  rw [interpLoad_of_ok call (@interpLoadCode_of_grown _ _ _ (interpContextInit interp) h _ hb),
    loadExact_ok_iff]
  unfold LuckyGrowth
  have hbound : codebufSizeMax < 2 ^ 31 := by decide
  constructor
  · intro hload
    have hfits : code.length < min (interp.codebuf.size * 2) codebufSizeMax := hload.1.2
    have hnul := ((loaded_strncpy_iff hcode (by omega) _).mp hload.1).1
    rw [hmem] at hnul
    exact ⟨hlt, hle, hfits, heap, rfl, hnul⟩
  · rintro ⟨-, -, hfits, heap', hheap, hnul⟩
    cases hheap
    have hlen : code.length < 2 ^ 31 := by omega
    rw [loaded_strncpy_iff hcode hlen, top_strncpy hlen]
    refine ⟨⟨?_, hfits⟩, Nat.max_le.mpr ⟨?_, Nat.le_of_lt hfits⟩⟩
    · exact hmem.trans hnul
    · show interp.codebuf.size ≤ min (interp.codebuf.size * 2) codebufSizeMax
      omega

/-- **A load of a code that the buffer has room for is exact, and so is a reload whose growth is
refused; any other load is exact only when the buffer grows, once is enough, and the byte behind
the code happens to be a terminator.** -/
theorem interpLoad_exact_iff (hs : Loads interp) (hcode : nul ∉ code) (call : LoadCall)
    (realloc : Option Memory) :
    LoadExact code (interpLoad call realloc code interp) ↔
      code.length < interp.codebuf.size ∨
      (call = .reload ∧ interp.codebuf.size ≤ intLen code ∧
        GrowthRefused realloc interp.codebuf) ∨
      LuckyGrowth realloc code interp.codebuf := by
  have hsized := hs.sized
  have hmax : interp.codebuf.size ≤ codebufSizeMax ∧ 0 < interp.codebuf.size := by
    simp only [Buffer.Sized, codebufSizeMax, defaultCodebufSize] at hsized ⊢
    omega
  have hbound : codebufSizeMax < 2 ^ 31 := by decide
  by_cases hfit : intLen code < interp.codebuf.size
  · have hno : ¬LuckyGrowth realloc code interp.codebuf := by
      rintro ⟨-, hle, hlt, -⟩
      rw [intLen_eq (by omega)] at hfit
      omega
    rw [loadExact_of_fits hcode hmax.1 hfit call]
    simp [hno, Int.not_le.mpr hfit]
  · have hle : interp.codebuf.size ≤ intLen code := Int.not_lt.mp hfit
    have hnlt : ¬code.length < interp.codebuf.size := by
      have := @intLen_le code (by omega)
      omega
    by_cases hr : GrowthRefused realloc interp.codebuf
    · have hno : ¬LuckyGrowth realloc code interp.codebuf := by
        rintro ⟨hlt, -, -, heap, hheap, -⟩
        rcases hr with hr | hr
        · omega
        · rw [hr] at hheap; cases hheap
      rw [loadExact_of_refused hle hr call]
      simp [hnlt, hle, hr, hno]
    · rw [loadExact_of_grown hcode hmax.2 hle hr call]
      simp [hnlt, hr]

end Cases

/-- A load of `a` into a new interpreter. -/
theorem interpLoad_exact_single : LoadExact ['a'] (interpLoad .create none ['a']
    (interpreterCreate (fun _ _ => nul) ())) :=
  (interpLoad_exact_iff (.create _ _) (by decide) .create none).mpr (.inl (by decide))

/-- A code of 8192 characters fits neither before nor after the one growth, and is copied all the
same. -/
theorem interpLoad_long : ¬LoadExact (List.replicate 8192 'a') (interpLoad .create
    (some fun _ => nul) (List.replicate 8192 'a') (interpreterCreate (fun _ _ => nul) ())) := by
  have hlen : (List.replicate 8192 'a').length = 8192 := List.length_replicate
  have hint : intLen (List.replicate 8192 'a') = 8192 := by
    rw [intLen_eq (by rw [hlen]; decide), hlen]
    rfl
  have hcode : nul ∉ List.replicate 8192 'a' := fun h =>
    absurd (List.eq_of_mem_replicate h) (by decide)
  rw [loadExact_of_grown hcode (by decide) (by rw [hint]; decide)
    (by rintro (h | h); exact absurd h (by decide); cases h)]
  rintro ⟨-, -, hfits, -⟩
  rw [hlen] at hfits
  exact absurd hfits (by decide)

end Lre
