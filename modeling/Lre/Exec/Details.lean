import Lre.Exec.Output

/-!
# The details text

* `Complete`: the buffer holds one unit a call, and `detailen` is its length.
* `Grows`, `KeepsText`: a growth that is asked for succeeds, and the text is still there behind it.
* `OutContext.Fits`: the sizes that a context keeps.
* **`execOutputs_complete_iff`**: the text is complete at every moment exactly when every string is
  shorter than a unit and no growth loses a byte of it.
-/

namespace Lre

open CString

/-! ## The purpose -/

/-- What is told of a string: the string, or a beginning of it and three dots; and a blank. -/
def IsUnit (str unit : Word) : Prop :=
  if str.length < execOutUnitMax - 1 then unit = str ++ [' ']
  else ∃ n, unit = str.take n ++ ['.', '.', '.', ' ']

/-- One unit a string, the last one first. -/
def IsDetails : List Word → Word → Prop
  | [], text => text = []
  | str :: strs, text => ∃ before unit, IsDetails strs before ∧ IsUnit str unit ∧
      text = before ++ unit

/-- The buffer holds the units of the strings, and the lengths are right. -/
def Complete (strs : List Word) (out : OutContext) : Prop :=
  ∃ text, IsDetails strs text ∧ HoldsAt out.outbuf.mem 0 text ∧ text.length = out.detailen ∧
    out.detailen < out.detailcap

/-! ## Growth -/

/-- `exec_output_cb` asks for a larger buffer. -/
def OutContext.AsksGrowth (out : OutContext) : Prop :=
  out.detailen + execOutUnitMax ≥ out.detailcap

/-- A growth that is asked for succeeds. -/
def GrowsAt (realloc : Option Memory) (out : OutContext) : Prop :=
  out.AsksGrowth → ∃ b, interpExpands outbufSizeMax realloc out.outbuf = some b

/-- Where the text goes on behind the block that was asked for, `realloc` happens to leave its
bytes. -/
def KeepsAt (realloc : Option Memory) (out : OutContext) : Prop :=
  out.AsksGrowth → ∀ heap ∈ realloc, ∀ i, out.outbuf.alloc ≤ i → i < out.detailen →
    heap i = out.outbuf.mem i

/-- Something is true of `realloc` and the context before every call. -/
def AtCalls (P : Option Memory → OutContext → Prop) (reallocs : ℕ → Option Memory)
    (out : OutContext) : List Word → Prop
  | [] => True
  | _ :: strs => AtCalls P reallocs out strs ∧
      P (reallocs strs.length) (execOutputs reallocs strs out)

/-- The growths that are asked for succeed. -/
def Grows : (ℕ → Option Memory) → OutContext → List Word → Prop := AtCalls GrowsAt

/-- No growth loses a byte of the text. -/
def KeepsText : (ℕ → Option Memory) → OutContext → List Word → Prop := AtCalls KeepsAt

/-- The sizes of a context. -/
structure OutContext.Fits (out : OutContext) : Prop where
  sized : out.outbuf.Sized defaultOutbufSize
  detailcap : out.detailcap = out.outbuf.size
  detailen : out.detailen < out.detailcap

variable {b : Buffer} {out : OutContext} {realloc : Option Memory} {str before : Word}
  {off i : ℕ} {w : Word}

/-! ## What a write leaves -/

theorem Buffer.writeAll_mem_add (h : i < w.length) : (b.writeAll off w).mem (off + i) = w[i] := by
  induction w generalizing b off i with
  | nil => exact absurd h (Nat.not_lt_zero i)
  | cons c w ih =>
    cases i with
    | zero =>
      show ((b.store off c).writeAll (off + 1) w).mem off = c
      rw [Buffer.writeAll_mem_of_lt (Nat.lt_succ_self off)]
      exact store_self
    | succ i =>
      have hi := @ih (b.store off c) (off + 1) i (Nat.lt_of_succ_lt_succ h)
      rwa [Nat.add_right_comm] at hi

theorem Buffer.putString_size : (b.putString off w).size = b.size :=
  Buffer.writeAll_size b off w

theorem Buffer.putString_mem_of_lt (h : i < off) : (b.putString off w).mem i = b.mem i :=
  (store_of_ne (by omega)).trans (Buffer.writeAll_mem_of_lt h w)

theorem Buffer.putString_mem_add (h : i < w.length) :
    (b.putString off w).mem (off + i) = w[i] :=
  (store_of_ne (by omega)).trans (Buffer.writeAll_mem_add h)

theorem Buffer.putString_mem_end (b : Buffer) (off : ℕ) (w : Word) :
    (b.putString off w).mem (off + w.length) = nul := store_self

theorem Buffer.holdsAt_putString (h : nul ∉ w) : HoldsAt (b.putString off w).mem off w :=
  holdsAt_iff.mpr ⟨h, fun _ hi => Buffer.putString_mem_add hi,
    Buffer.putString_mem_end b off w⟩

/-! ## One unit -/

theorem unitText_of_short (h : str.length < execOutUnitMax - 1) :
    unitText str = (str, str.length) ∧ unitEtc str = false := by
  have hetc : unitEtc str = false := decide_eq_false (by omega)
  refine ⟨?_, hetc⟩
  rw [unitText, hetc, xsnprintf, if_neg Bool.false_ne_true, if_neg (by omega),
    Nat.add_sub_cancel, List.take_length]

theorem unitText_of_long (h : ¬str.length < execOutUnitMax - 1) :
    unitText str = (str.take (execOutUnitMax - 5), execOutUnitMax - 4) ∧ unitEtc str = true := by
  have hmax : execOutUnitMax = 256 := rfl
  have hetc : unitEtc str = true := decide_eq_true (by omega)
  refine ⟨?_, hetc⟩
  rw [unitText, hetc, xsnprintf, if_pos rfl, if_pos (by omega)]
  rfl

theorem unitLen_le (str : Word) : unitLen str ≤ execOutUnitMax := by
  by_cases h : str.length < execOutUnitMax - 1
  · obtain ⟨htext, hetc⟩ := unitText_of_short h
    rw [unitLen, htext, hetc]
    show str.length + 1 ≤ _
    omega
  · obtain ⟨htext, hetc⟩ := unitText_of_long h
    rw [unitLen, htext, hetc]
    exact Nat.le_refl 256

/-- A string that is short enough is written behind the text, which stays when it was there. -/
theorem holdsAt_writeUnit_of_short (h : str.length < execOutUnitMax - 1) (hstr : nul ∉ str)
    (hbefore : nul ∉ before) (hlen : before.length = out.detailen) :
    HoldsAt (writeUnit str out).outbuf.mem 0 (before ++ (str ++ [' '])) ↔
      ∀ i (h : i < before.length), out.outbuf.mem i = before[i] := by
  obtain ⟨htext, hetc⟩ := unitText_of_short h
  have hbuf : (writeUnit str out).outbuf =
      (out.outbuf.putString out.detailen str).putString (out.detailen + str.length) [' '] := by
    rw [writeUnit, htext, hetc]
    rfl
  have hmem : ∀ i, i < out.detailen →
      (writeUnit str out).outbuf.mem i = out.outbuf.mem i := fun i hi => by
    rw [hbuf, Buffer.putString_mem_of_lt (by omega), Buffer.putString_mem_of_lt hi]
  have hblank : nul ∉ [' '] := by decide
  have hunit : HoldsAt (writeUnit str out).outbuf.mem out.detailen (str ++ [' ']) := by
    refine holdsAt_append.mpr ⟨⟨hstr, fun i hi => ?_⟩, ?_⟩
    · rw [hbuf, Buffer.putString_mem_of_lt (by omega), Buffer.putString_mem_add hi]
    · rw [hbuf]
      exact Buffer.holdsAt_putString hblank
  simp only [holdsAt_append (s := before), Nat.zero_add, hlen, and_iff_left hunit,
    and_iff_right hbefore]
  refine forall_congr' fun i => forall_congr' fun hi => ?_
  rw [hmem i (hlen ▸ hi)]

/-- A string that is too long leaves a terminator inside its unit. -/
theorem writeUnit_mem_of_long (out : OutContext) (h : ¬str.length < execOutUnitMax - 1) :
    (writeUnit str out).outbuf.mem (out.detailen + (execOutUnitMax - 5)) = nul ∧
      (writeUnit str out).detailen = out.detailen + execOutUnitMax := by
  have hmax : execOutUnitMax = 256 := rfl
  obtain ⟨htext, hetc⟩ := unitText_of_long h
  have hlen : (str.take (execOutUnitMax - 5)).length = execOutUnitMax - 5 :=
    List.length_take_of_le (by omega)
  have hend := Buffer.putString_mem_end out.outbuf out.detailen (str.take (execOutUnitMax - 5))
  rw [hlen] at hend
  rw [writeUnit, htext, hetc]
  refine ⟨?_, rfl⟩
  show ((out.outbuf.putString out.detailen _).putString _ _).mem _ = nul
  rw [Buffer.putString_mem_of_lt (by omega)]
  exact hend

/-! ## One call -/

/-- A growth keeps the bytes of the block that was asked for; the others are those of the heap. -/
theorem Buffer.grow_keeps_iff {heap : Memory} {max n : ℕ} (hn : n ≤ b.size) :
    (∀ i, i < n → (b.grow max heap).mem i = b.mem i) ↔
      ∀ i, b.alloc ≤ i → i < n → heap i = b.mem i := by
  have hmem : ∀ i, (b.grow max heap).mem i = if i < min b.alloc b.size then b.mem i else heap i :=
    fun _ => rfl
  constructor
  · intro hkeep i halloc hi
    rw [← hkeep i hi, hmem, if_neg (by omega)]
  · intro hkeep i hi
    rw [hmem]
    by_cases halloc : i < b.alloc
    · exact if_pos (by omega)
    · rw [if_neg (by omega)]
      exact hkeep i (by omega) hi

theorem OutContext.Fits.execOutputCb_eq (hfits : out.Fits) (hgrow : GrowsAt realloc out)
    (str : Word) : ∃ b, execOutputCb realloc str out =
        writeUnit str { out with outbuf := b, detailcap := b.size } ∧
      b.Sized defaultOutbufSize ∧ out.detailen + execOutUnitMax < b.size ∧
        ((∀ i, i < out.detailen → b.mem i = out.outbuf.mem i) ↔ KeepsAt realloc out) := by
  have hlt := hfits.detailen
  rw [hfits.detailcap] at hlt
  by_cases hasks : out.detailen + execOutUnitMax ≥ out.detailcap
  · -- the buffer grows
    obtain ⟨b, hb⟩ := hgrow hasks
    rw [execOutputCb, if_pos hasks, hb]
    refine ⟨b, rfl, interpExpands_sized hfits.sized hb, ?_⟩
    have hmax : ¬out.outbuf.size ≥ outbufSizeMax := fun hmax => by
      rw [interpExpands, if_pos hmax] at hb
      cases hb
    rw [interpExpands, if_neg hmax] at hb
    obtain ⟨heap, rfl, rfl⟩ := Option.map_eq_some_iff.mp hb
    constructor
    · have hsized := hfits.sized
      have hunit : execOutUnitMax = 256 := rfl
      have hdefault : defaultOutbufSize = 4096 := rfl
      have hobuf : outbufSizeMax = 16384 := rfl
      show _ < min (out.outbuf.size * 2) outbufSizeMax
      rw [Buffer.Sized] at hsized
      omega
    · have hgrows : out.AsksGrowth := hasks
      rw [Buffer.grow_keeps_iff (Nat.le_of_lt hlt), KeepsAt, forall_prop_of_true hgrows]
      simp only [Option.mem_def, Option.some.injEq, forall_eq']
  · refine ⟨out.outbuf, ?_, hfits.sized, ?_, iff_of_true (fun i _ => rfl) fun h => absurd h hasks⟩
    · rw [execOutputCb, if_neg hasks, ← hfits.detailcap]
    · rw [← hfits.detailcap]
      omega

theorem OutContext.Fits.execOutputCb (hfits : out.Fits) (hgrow : GrowsAt realloc out)
    (str : Word) : (execOutputCb realloc str out).Fits := by
  obtain ⟨b, hexec, hsized, hroom, -⟩ := hfits.execOutputCb_eq hgrow str
  have hsize : (writeUnit str { out with outbuf := b, detailcap := b.size }).outbuf.size =
      b.size := by
    rw [writeUnit]
    exact Buffer.putString_size.trans Buffer.putString_size
  rw [hexec]
  refine ⟨?_, hsize.symm, ?_⟩
  · rwa [Buffer.Sized, hsize]
  · rw [detailen_writeUnit]
    have hle := unitLen_le str
    show out.detailen + unitLen str < b.size
    omega

theorem IsDetails.unique {strs : List Word} (hshort : ∀ s ∈ strs, s.length < execOutUnitMax - 1)
    {t u : Word} (ht : IsDetails strs t) (hu : IsDetails strs u) : t = u := by
  induction strs generalizing t u with
  | nil => exact Eq.trans ht hu.symm
  | cons s strs ih =>
    obtain ⟨before, unit, hbefore, hunit, rfl⟩ := ht
    obtain ⟨before', unit', hbefore', hunit', rfl⟩ := hu
    rw [List.forall_mem_cons] at hshort
    rw [IsUnit, if_pos hshort.1] at hunit hunit'
    rw [ih hshort.2 hbefore hbefore', hunit, hunit']

theorem complete_writeUnit_iff {strs : List Word} {text : Word} (hdetails : IsDetails strs text)
    (hshort : ∀ s ∈ strs, s.length < execOutUnitMax - 1) (htext : nul ∉ text) (hstr : nul ∉ str)
    (hlen : text.length = out.detailen) (hroom : out.detailen + execOutUnitMax < out.detailcap) :
    Complete (str :: strs) (writeUnit str out) ↔ str.length < execOutUnitMax - 1 ∧
      ∀ i (h : i < text.length), out.outbuf.mem i = text[i] := by
  constructor
  · rintro ⟨_, ⟨before, unit, hbefore, hunit, rfl⟩, hholds, hlength, -⟩
    by_cases hs : str.length < execOutUnitMax - 1
    · obtain rfl : before = text := hbefore.unique hshort hdetails
      rw [IsUnit, if_pos hs] at hunit
      rw [hunit] at hholds
      exact ⟨hs, (holdsAt_writeUnit_of_short hs hstr htext hlen).mp hholds⟩
    · -- the terminator of the beginning ends the text
      obtain ⟨hnul, hdetailen⟩ := writeUnit_mem_of_long out hs
      have hmax : execOutUnitMax = 256 := rfl
      obtain ⟨hno, hbytes, -⟩ := holdsAt_iff.mp hholds
      have hlt : out.detailen + (execOutUnitMax - 5) < (before ++ unit).length := by omega
      have hbyte := hbytes _ hlt
      rw [Nat.zero_add, hnul] at hbyte
      exact absurd (hbyte ▸ List.getElem_mem hlt) hno
  · rintro ⟨hs, hthere⟩
    obtain ⟨hunit, hetc⟩ := unitText_of_short hs
    have hdetailen : (writeUnit str out).detailen = out.detailen + (str.length + 1) := by
      rw [detailen_writeUnit, unitLen, hunit, hetc]
      rfl
    refine ⟨text ++ (str ++ [' ']), ⟨text, _, hdetails, ?_, rfl⟩,
      (holdsAt_writeUnit_of_short hs hstr htext hlen).mpr hthere, ?_, ?_⟩
    · rw [IsUnit, if_pos hs]
    · rw [hdetailen, List.length_append, List.length_append, hlen, List.length_singleton]
    · rw [hdetailen]
      show _ < out.detailcap
      omega

/-- One call keeps the text complete exactly when its string is short, and its growth, if there is
one, loses nothing. -/
theorem Complete.execOutputCb_iff {strs : List Word} (hcomplete : Complete strs out)
    (hfits : out.Fits) (hshort : ∀ s ∈ strs, s.length < execOutUnitMax - 1) (hstr : nul ∉ str)
    (hgrow : GrowsAt realloc out) : Complete (str :: strs) (execOutputCb realloc str out) ↔
      str.length < execOutUnitMax - 1 ∧ KeepsAt realloc out := by
  obtain ⟨text, hdetails, hholds, hlen, -⟩ := hcomplete
  obtain ⟨htext, hbytes, -⟩ := holdsAt_iff.mp hholds
  obtain ⟨b, hexec, -, hroom, hkeeps⟩ := hfits.execOutputCb_eq hgrow str
  rw [hexec, ← hkeeps]
  refine Iff.trans (complete_writeUnit_iff hdetails hshort htext hstr hlen hroom)
    (and_congr_right fun _ => ?_)
  rw [← hlen]
  refine forall_congr' fun i => forall_congr' fun hi => ?_
  rw [← hbytes i hi, Nat.zero_add]

/-! ## All calls -/

theorem execOutputs_fits {reallocs : ℕ → Option Memory} {strs : List Word} (hfits : out.Fits)
    (hgrows : Grows reallocs out strs) : (execOutputs reallocs strs out).Fits := by
  induction strs with
  | nil => exact hfits
  | cons str strs ih => exact (ih hgrows.1).execOutputCb hgrows.2 str

theorem OutContext.fits_init (hsized : b.Sized defaultOutbufSize) :
    (OutContext.init b.clear).Fits := by
  refine ⟨hsized, rfl, ?_⟩
  show 0 < b.size
  have hdefault : defaultOutbufSize = 4096 := rfl
  rw [Buffer.Sized] at hsized
  omega

theorem complete_nil (hsized : b.Sized defaultOutbufSize) : Complete [] (.init b.clear) :=
  ⟨[], rfl, memset_of_lt (OutContext.fits_init hsized).detailen, rfl,
    (OutContext.fits_init hsized).detailen⟩

/-- **The text is complete after every call exactly when every string is short enough to be written
whole, and no growth loses a byte.** -/
theorem execOutputs_complete_iff {reallocs : ℕ → Option Memory} {strs : List Word}
    (hsized : b.Sized defaultOutbufSize) (hstrs : ∀ str ∈ strs, nul ∉ str)
    (hgrows : Grows reallocs (.init b.clear) strs) :
    (∀ made, made <:+ strs → Complete made (execOutputs reallocs made (.init b.clear))) ↔
      (∀ str ∈ strs, str.length < execOutUnitMax - 1) ∧
        KeepsText reallocs (.init b.clear) strs := by
  induction strs with
  | nil =>
    refine iff_of_true (fun made hmade => ?_) ⟨List.forall_mem_nil _, trivial⟩
    rw [List.suffix_nil.mp hmade]
    exact complete_nil hsized
  | cons str strs ih =>
    rw [List.forall_mem_cons] at hstrs
    have hbefore := ih hstrs.2 hgrows.1
    have hfits := execOutputs_fits (OutContext.fits_init hsized) hgrows.1
    simp only [List.suffix_cons_iff, or_imp, forall_and, forall_eq, List.forall_mem_cons, hbefore]
    constructor
    · rintro ⟨hmade, hshort, hkeeps⟩
      have hcomplete := hbefore.mpr ⟨hshort, hkeeps⟩ strs (List.suffix_refl strs)
      obtain ⟨hs, hkeep⟩ := (hcomplete.execOutputCb_iff hfits hshort hstrs.1 hgrows.2).mp hmade
      exact ⟨⟨hs, hshort⟩, hkeeps, hkeep⟩
    · rintro ⟨⟨hs, hshort⟩, hkeeps, hkeep⟩
      have hcomplete := hbefore.mpr ⟨hshort, hkeeps⟩ strs (List.suffix_refl strs)
      exact ⟨(hcomplete.execOutputCb_iff hfits hshort hstrs.1 hgrows.2).mpr ⟨hs, hkeep⟩,
        hshort, hkeeps⟩

/-- A new buffer on a heap of zeros. -/
def zeroBuffer : Buffer := .xzalloc (fun _ => nul) defaultOutbufSize

theorem execOutputs_complete_two : Complete [['b', 'c'], ['a']]
    (execOutputs (fun _ => none) [['b', 'c'], ['a']] (.init zeroBuffer.clear)) := by
  have hone : ¬(OutContext.init zeroBuffer.clear).AsksGrowth := by
    show ¬(0 + 256 ≥ 4096)
    decide
  have htwo : ¬(execOutputs (fun _ => none) [['a']] (.init zeroBuffer.clear)).AsksGrowth := by
    show ¬(2 + 256 ≥ 4096)
    decide
  have hstrs : ∀ str ∈ [['b', 'c'], ['a']], nul ∉ str := by decide
  refine (execOutputs_complete_iff (.inl rfl) hstrs ?_).mpr ⟨by decide, ?_⟩ _ (List.suffix_refl _)
  · exact ⟨⟨trivial, fun h => absurd h hone⟩, fun h => absurd h htwo⟩
  · exact ⟨⟨trivial, fun h => absurd h hone⟩, fun h => absurd h htwo⟩

/-- A string that fills the buffer of a component hides what follows its beginning. -/
theorem execOutputs_hidden :
    ¬∀ made, made <:+ [['b'], List.replicate 255 'a'] →
      Complete made (execOutputs (fun _ => none) made (.init zeroBuffer.clear)) := by
  intro h
  have hfits : (OutContext.init zeroBuffer.clear).Fits := OutContext.fits_init (.inl rfl)
  have hone : ¬(OutContext.init zeroBuffer.clear).AsksGrowth := by
    show ¬(0 + 256 ≥ 4096)
    decide
  have hcomplete := h [List.replicate 255 'a'] (List.suffix_cons _ _)
  have hstr : nul ∉ List.replicate 255 'a' := fun hmem =>
    absurd (List.eq_of_mem_replicate hmem) (by decide)
  have hempty : Complete [] (OutContext.init zeroBuffer.clear) := complete_nil (.inl rfl)
  have hshort := (hempty.execOutputCb_iff hfits (List.forall_mem_nil _) hstr
    fun hasks => absurd hasks hone).mp hcomplete
  rw [List.length_replicate] at hshort
  exact absurd hshort.1 (by decide)

end Lre
