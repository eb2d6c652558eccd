import Lre.Keyword.Registry
import Lre.Run
import Lre.Sparse

/-!
# Vectors in memory

`vector.c` as it works on its block, where an access outside the block is a fault, and what
`realloc` adds holds whatever was there.

* `VectorT`, `vectorEnsure`, `vectorSetVal`, `unsetSlot`, ..: the functions.
* `VectorT.Holds`: the slots up to `active` are those of a list, and the rest of the block is empty.
* **`vectorRun_answers`**: on a new vector, every sequence of calls stays in the block and answers
  like a partial map.
* **`VectorsRun.vector_holds`**: the vectors of `keyword.c` hold the slots of the registry.
-/

namespace Lre

open Run Sparse

variable {α : Type}

/-- `vector_t`; a slot is `none` for `NULL`, and `slot` is the whole block. -/
structure VectorT (α : Type) where
  active : ℕ
  capacity : ℕ
  slot : List (Option α)

/-- An access outside the block, or a recursion or a loop that does not end. -/
inductive VectorFault
  | bounds
  | endless
  deriving DecidableEq

/-- What a function of `vector.c` does. -/
abbrev VectorM (α β : Type) := Run VectorFault (VectorT α) β

/-- The number of values of an `unsigned int`. -/
def uintSize : ℕ := 2 ^ 32

/-! ## The functions -/

/-- `v->slot[i]` -/
def loadSlot (i : ℕ) : VectorM α (Option α) := fun v =>
  match v.slot[i]? with
  | some x => .ok (x, v)
  | none => .error .bounds

/-- `v->slot[i] = val` -/
def storeSlot (i : ℕ) (val : Option α) : VectorM α Unit := fun v =>
  if i < v.slot.length then .ok ((), { v with slot := v.slot.set i val }) else .error .bounds

/-- `vector_init`. -/
def vectorInit (size : ℕ) : VectorT α :=
  let size := if size = 0 then 4 else size
  ⟨0, size, List.replicate size none⟩

/-- `xrealloc`, where `stale` is what the new memory holds. -/
def xrealloc (stale : ℕ → Option α) (slot : List (Option α)) (size : ℕ) : List (Option α) :=
  slot.take size ++ (List.range' slot.length (size - slot.length)).map stale

/-- `memset(&slot[off], 0, ..)` for `n` slots. -/
def clearSlots (off n : ℕ) (slot : List (Option α)) : Except VectorFault (List (Option α)) :=
  if off + n ≤ slot.length then
    .ok (slot.take off ++ List.replicate n none ++ slot.drop (off + n))
  else .error .bounds

/-- `vector_ensure`, for a recursion of the given depth. -/
def vectorEnsure (stale : ℕ → Option α) : ℕ → ℕ → VectorM α Unit
  | 0, _ => throw .endless
  | depth + 1, num => fun v =>
    if num < v.capacity then .ok ((), v) else
      let size := 2 * v.capacity % uintSize
      match clearSlots v.capacity v.capacity (xrealloc stale v.slot size) with
      | .error e => .error e
      | .ok slot =>
        let v := { v with slot := slot, capacity := size }
        if size ≤ num then vectorEnsure stale depth num v else .ok ((), v)

/-- The depth that a vector with room needs at most: its capacity doubles. -/
def ensureDepth : ℕ := 33

/-- The loop of `vector_empty_slot` over `n` slots from `i` on. -/
def emptySlotLoop : ℕ → ℕ → VectorM α ℕ
  | 0, i => pure i
  | n + 1, i => do
    match ← loadSlot i with
    | none => pure i
    | some _ => emptySlotLoop n (i + 1)

/-- `vector_empty_slot`. -/
def vectorEmptySlot : VectorM α ℕ := do
  let v ← get
  if v.active = 0 then pure 0 else emptySlotLoop v.active 0

/-- `vector_set_index`. -/
def vectorSetIndex (stale : ℕ → Option α) (i : ℕ) (val : Option α) : VectorM α ℕ := do
  vectorEnsure stale ensureDepth i
  storeSlot i val
  modify fun v => if v.active ≤ i then { v with active := i + 1 } else v
  pure i

/-- `vector_set`. -/
def vectorSetVal (stale : ℕ → Option α) (val : Option α) : VectorM α ℕ := do
  let i ← vectorEmptySlot
  vectorEnsure stale ensureDepth i
  storeSlot i val
  modify fun v => if v.active ≤ i then { v with active := i + 1 } else v
  pure i

/-- `vector_lookup`. -/
def vectorLookup (i : ℕ) : VectorM α (Option α) := do
  let v ← get
  if v.active ≤ i then pure none else loadSlot i

/-- `vector_lookup_ensure`. -/
def vectorLookupEnsure (stale : ℕ → Option α) (i : ℕ) : VectorM α (Option α) := do
  vectorEnsure stale ensureDepth i
  loadSlot i

/-- The loop of `vector_unset`, `while (i && slot[--i] == NULL && active--)`. -/
def shrinkLoop : ℕ → VectorM α Unit
  | 0 => pure ()
  | i + 1 => do
    match ← loadSlot i with
    | some _ => pure ()
    | none => do
      let v ← get
      -- `active--` returns the old value, and wraps at 0
      set { v with active := (v.active + uintSize - 1) % uintSize }
      if v.active = 0 then pure () else shrinkLoop i

/-- `vector_unset`. -/
def unsetSlot (i : ℕ) : VectorM α Unit := do
  let v ← get
  if v.capacity ≤ i then pure () else
    storeSlot i none
    if i + 1 = v.active then do
      modify fun v => { v with active := (v.active + uintSize - 1) % uintSize }
      shrinkLoop i
    else pure ()

/-- The loop of `vector_count` over `n` slots from `i` on. -/
def countLoop : ℕ → ℕ → ℕ → VectorM α ℕ
  | 0, _, count => pure count
  | n + 1, i, count => do
    match ← loadSlot i with
    | none => countLoop n (i + 1) count
    | some _ => countLoop n (i + 1) (count + 1)

/-- `vector_count`. -/
def vectorCount : VectorM α ℕ := do
  let v ← get
  countLoop v.active 0 0

/-- `vector_foreach_active_slot`, over `n` slots from `i` on, where the body changes nothing. -/
def foreachLoop : ℕ → ℕ → VectorM α (List α)
  | 0, _ => pure []
  | n + 1, i => do
    match ← loadSlot i with
    | none => pure []
    | some p => do
      let ps ← foreachLoop n (i + 1)
      pure (p :: ps)

/-- The values that `vector_foreach_active_slot` visits. -/
def vectorForeach : VectorM α (List α) := do
  let v ← get
  foreachLoop v.active 0

/-! ## The slots of a vector -/

/-- The vector has the given slots, and nothing behind them. -/
structure VectorT.Holds (v : VectorT α) (slots : Slots α) : Prop where
  active : v.active = slots.length
  slot : ∃ spare, v.slot = slots ++ List.replicate spare none
  capacity : v.capacity = v.slot.length
  pow : ∃ k ≤ 31, v.capacity = 2 ^ k

variable {v : VectorT α} {slots : Slots α} {stale : ℕ → Option α} {i num : ℕ} {val : Option α}

theorem VectorT.Holds.active_le (h : v.Holds slots) : v.active ≤ v.capacity := by
  obtain ⟨spare, hslot⟩ := h.slot
  rw [h.active, h.capacity, hslot, List.length_append]
  exact Nat.le_add_right _ _

theorem VectorT.Holds.getElem? (h : v.Holds slots) (hi : i < v.capacity) :
    v.slot[i]? = some (contents slots i) := by
  obtain ⟨spare, hslot⟩ := h.slot
  have hmap := congrFun (contents_append_none slots spare) i
  rw [← hslot, contents] at hmap
  rw [h.capacity] at hi
  rw [List.getElem?_eq_getElem hi] at hmap ⊢
  exact congrArg some hmap

theorem VectorT.Holds.load (h : v.Holds slots) (hi : i < v.capacity) :
    loadSlot i v = .ok (contents slots i, v) := by
  rw [loadSlot, h.getElem? hi]

theorem VectorT.Holds.load_active (h : v.Holds slots) (hi : i < slots.length) :
    loadSlot i v = .ok (slots[i], v) := by
  rw [h.load (hi.trans_le (h.active ▸ h.active_le)), contents, List.getElem?_eq_getElem hi]
  rfl

theorem VectorT.Holds.store (h : v.Holds slots) (hi : i < v.capacity) (val : Option α) :
    storeSlot i val v = .ok ((), { v with slot := v.slot.set i val }) := by
  rw [storeSlot, if_pos (h.capacity ▸ hi)]

theorem vectorInit_holds : (vectorInit 0 : VectorT α).Holds [] :=
  ⟨rfl, ⟨4, rfl⟩, rfl, 2, by decide, rfl⟩

/-! ## Growing -/

theorem clearSlots_xrealloc (stale : ℕ → Option α) (slot : List (Option α)) :
    clearSlots slot.length slot.length (xrealloc stale slot (2 * slot.length)) =
      .ok (slot ++ List.replicate slot.length none) := by
  have htake : slot.take (2 * slot.length) = slot := List.take_of_length_le (by omega)
  have hadd : 2 * slot.length - slot.length = slot.length := by omega
  rw [xrealloc, htake, hadd, clearSlots, if_pos (by simp), List.take_left' rfl,
    List.drop_eq_nil_of_le (by simp), List.append_nil]

/-- The vector with a block of twice the size. -/
def VectorT.doubled (v : VectorT α) : VectorT α :=
  ⟨v.active, 2 * v.capacity, v.slot ++ List.replicate v.slot.length none⟩

theorem VectorT.Holds.doubled (h : v.Holds slots) {k : ℕ} (hk : k < 31)
    (hpow : v.capacity = 2 ^ k) : v.doubled.Holds slots := by
  obtain ⟨spare, hslot⟩ := h.slot
  have hcap := h.capacity
  refine ⟨h.active, ⟨spare + v.slot.length, ?_⟩, ?_, k + 1, hk, ?_⟩
  · show v.slot ++ List.replicate v.slot.length none = _
    rw [← List.replicate_append_replicate, ← List.append_assoc, ← hslot]
  · simp only [VectorT.doubled, List.length_append, List.length_replicate]
    omega
  · rw [VectorT.doubled, hpow, pow_succ, Nat.mul_comm]

theorem VectorT.Holds.ensure_succ (h : v.Holds slots) {k : ℕ} (hk : k < 31)
    (hpow : v.capacity = 2 ^ k) (hfull : v.capacity ≤ num) (depth : ℕ) :
    vectorEnsure stale (depth + 1) num v =
      if 2 * v.capacity ≤ num then vectorEnsure stale depth num v.doubled
      else .ok ((), v.doubled) := by
  have hsize : 2 * v.capacity % uintSize = 2 * v.capacity := by
    have hle : 2 ^ k ≤ 2 ^ 30 := Nat.pow_le_pow_right two_pos (Nat.le_of_lt_succ hk)
    exact Nat.mod_eq_of_lt (by unfold uintSize; omega)
  rw [vectorEnsure]
  dsimp only
  rw [if_neg (Nat.not_lt.mpr hfull), hsize, h.capacity, clearSlots_xrealloc]
  simp only [VectorT.doubled, h.capacity]

theorem VectorT.Holds.ensure : ∀ (depth k : ℕ) {v : VectorT α}, v.Holds slots → k ≤ 31 →
    v.capacity = 2 ^ k → num < 2 ^ 31 → 31 ≤ k + depth →
    ∃ v', vectorEnsure stale (depth + 1) num v = .ok ((), v') ∧ v'.Holds slots ∧ num < v'.capacity
  | depth, k, v, h, hk, hpow, hnum, hdepth => by
    by_cases hroom : num < v.capacity
    · exact ⟨v, if_pos hroom, h, hroom⟩
    · have hlt : k < 31 := by
        refine lt_of_le_of_ne hk ?_
        rintro rfl
        omega
      have hfull : v.capacity ≤ num := Nat.le_of_not_lt hroom
      rw [h.ensure_succ hlt hpow hfull]
      have hgrown := h.doubled hlt hpow
      split
      · rename_i hmore
        cases depth with
        | zero => omega
        | succ depth =>
          exact VectorT.Holds.ensure depth (k + 1) hgrown hlt
            (by rw [VectorT.doubled, hpow, pow_succ, Nat.mul_comm]) hnum (by omega)
      · rename_i hmore
        exact ⟨_, rfl, hgrown, Nat.lt_of_not_le hmore⟩

theorem VectorT.Holds.ensure_ok (h : v.Holds slots) (stale : ℕ → Option α) (hnum : num < 2 ^ 31) :
    ∃ v', vectorEnsure stale ensureDepth num v = .ok ((), v') ∧ v'.Holds slots ∧
      num < v'.capacity := by
  obtain ⟨k, hk, hpow⟩ := h.pow
  exact h.ensure 32 k hk hpow hnum (by omega)

/-- The size of the block wraps before there is room for an index from `2 ^ 31` on. -/
theorem VectorT.Holds.ensure_bounds : ∀ (depth k : ℕ) {v : VectorT α}, v.Holds slots → k ≤ 31 →
    v.capacity = 2 ^ k → 2 ^ 31 ≤ num → 31 ≤ k + depth →
    vectorEnsure stale (depth + 1) num v = .error .bounds
  | depth, k, v, h, hk, hpow, hnum, hdepth => by
    have hle : v.capacity ≤ 2 ^ 31 := hpow ▸ Nat.pow_le_pow_right two_pos hk
    by_cases hlt : k < 31
    · have hle' : 2 * v.capacity ≤ 2 ^ 31 := by
        rw [hpow, Nat.mul_comm, ← pow_succ]
        exact Nat.pow_le_pow_right two_pos hlt
      rw [h.ensure_succ hlt hpow (hle.trans hnum), if_pos (hle'.trans hnum)]
      cases depth with
      | zero => omega
      | succ depth =>
        exact VectorT.Holds.ensure_bounds depth (k + 1) (h.doubled hlt hpow) hlt
          (by rw [VectorT.doubled, hpow, pow_succ, Nat.mul_comm]) hnum (by omega)
    · obtain rfl : k = 31 := by omega
      rw [vectorEnsure]
      dsimp only
      have hwrap : 2 * v.capacity % uintSize = 0 := by rw [hpow]; decide
      rw [if_neg (by omega), hwrap, clearSlots, if_neg (by simp [xrealloc]; omega)]

theorem VectorT.Holds.ensure_error (h : v.Holds slots) (hnum : 2 ^ 31 ≤ num) :
    vectorEnsure stale ensureDepth num v = .error .bounds := by
  obtain ⟨k, hk, hpow⟩ := h.pow
  exact h.ensure_bounds 32 k hk hpow hnum (by omega)

/-- A vector without a block, as `vector_alloc` makes it, never gets one. -/
theorem vectorEnsure_endless (stale : ℕ → Option α) (active : ℕ) : ∀ depth num : ℕ,
    vectorEnsure stale depth num ⟨active, 0, []⟩ = .error .endless
  | 0, _ => rfl
  | depth + 1, num => vectorEnsure_endless stale active depth num

/-! ## The operations -/

theorem emptySlotLoop_eq (h : v.Holds slots) : ∀ n i : ℕ, i + n = slots.length →
    emptySlotLoop n i v = .ok (i + firstFree (slots.drop i), v)
  | 0, i, hi => by
    rw [Nat.add_zero] at hi
    rw [emptySlotLoop, List.drop_eq_nil_of_le (Nat.le_of_eq hi.symm)]
    rfl
  | n + 1, i, hi => by
    have hlen : i < slots.length := by omega
    rw [emptySlotLoop, bind_ok (h.load_active hlen), List.drop_eq_getElem_cons hlen]
    cases slots[i] with
    | none => rw [firstFree_none]; rfl
    | some w =>
      rw [firstFree_some]
      dsimp only
      rw [emptySlotLoop_eq h n (i + 1) (by omega), Nat.add_right_comm, Nat.add_assoc]

theorem VectorT.Holds.emptySlot (h : v.Holds slots) :
    vectorEmptySlot v = .ok (firstFree slots, v) := by
  have hget : vectorEmptySlot v =
      (if v.active = 0 then pure 0 else emptySlotLoop v.active 0 : VectorM α ℕ) v := rfl
  have hloop := emptySlotLoop_eq h slots.length 0 (Nat.zero_add _)
  rw [Nat.zero_add, List.drop_zero] at hloop
  rw [hget, h.active]
  split
  · rename_i hzero
    rw [List.length_eq_zero_iff.mp hzero]
    rfl
  · exact hloop

theorem VectorT.Holds.put (h : v.Holds slots) (hi : i < v.capacity) (val : Option α) :
    VectorT.Holds { v with
      slot := v.slot.set i val, active := if v.active ≤ i then i + 1 else v.active }
      (put slots i val) := by
  obtain ⟨spare, hslot⟩ := h.slot
  have hcap := h.capacity
  have hlen := congrArg List.length hslot
  rw [List.length_append, List.length_replicate] at hlen
  refine ⟨?_, ⟨spare - (i + 1 - slots.length), ?_⟩, ?_, h.pow⟩
  · rw [h.active, Sparse.put, List.length_set, List.length_append, List.length_replicate]
    dsimp only
    split <;> omega
  · have hsplit : spare = (i + 1 - slots.length) + (spare - (i + 1 - slots.length)) := by omega
    show v.slot.set i val = _
    rw [hslot, hsplit, ← List.replicate_append_replicate, ← List.append_assoc,
      List.set_append_left _ _ (by
        simp only [List.length_append, List.length_replicate]
        omega), Sparse.put, Nat.add_sub_cancel_left]
  · rw [List.length_set]
    exact hcap

theorem VectorT.Holds.setIndex (h : v.Holds slots) (stale : ℕ → Option α) (hi : i < 2 ^ 31)
    (val : Option α) :
    ∃ v', vectorSetIndex stale i val v = .ok (i, v') ∧ v'.Holds (Sparse.put slots i val) := by
  obtain ⟨v₁, hensure, h₁, hroom⟩ := h.ensure_ok stale hi
  refine ⟨_, ?_, h₁.put hroom val⟩
  rw [vectorSetIndex, bind_ok hensure, bind_ok (h₁.store hroom val)]
  show Except.ok (i, _) = _
  congr 2
  dsimp only
  split <;> rfl

theorem VectorT.Holds.setIndex_error (h : v.Holds slots) (hi : 2 ^ 31 ≤ i) (val : Option α) :
    vectorSetIndex stale i val v = .error .bounds := by
  rw [vectorSetIndex, bind_apply, h.ensure_error hi]
  rfl

/-- `vector_set` is `vector_set_index` at the first empty slot. -/
theorem VectorT.Holds.setVal_eq (h : v.Holds slots) (val : Option α) :
    vectorSetVal stale val v = vectorSetIndex stale (firstFree slots) val v := by
  rw [vectorSetVal, bind_ok h.emptySlot]
  rfl

theorem VectorT.Holds.lookup_eq (h : v.Holds slots) (i : ℕ) :
    vectorLookup i v = .ok (contents slots i, v) := by
  have hget : vectorLookup i v =
      (if v.active ≤ i then pure none else loadSlot i : VectorM α (Option α)) v := rfl
  rw [hget]
  split
  · rename_i hle
    rw [contents_eq_none_of_le (h.active ▸ hle)]
    rfl
  · rename_i hlt
    exact h.load ((Nat.lt_of_not_le hlt).trans_le h.active_le)

theorem VectorT.Holds.lookupEnsure (h : v.Holds slots) (stale : ℕ → Option α) (hi : i < 2 ^ 31) :
    ∃ v', vectorLookupEnsure stale i v = .ok (contents slots i, v') ∧ v'.Holds slots := by
  obtain ⟨v₁, hensure, h₁, hroom⟩ := h.ensure_ok stale hi
  exact ⟨v₁, by rw [vectorLookupEnsure, bind_ok hensure, h₁.load hroom], h₁⟩

theorem VectorT.Holds.lookupEnsure_error (h : v.Holds slots) (hi : 2 ^ 31 ≤ i) :
    vectorLookupEnsure stale i v = .error .bounds := by
  rw [vectorLookupEnsure, bind_apply, h.ensure_error hi]
  rfl

theorem dec_active {n : ℕ} (h : n + 1 < uintSize) : (n + 1 + uintSize - 1) % uintSize = n := by
  rw [Nat.add_right_comm, Nat.add_sub_cancel, Nat.add_mod_right, Nat.mod_eq_of_lt (by omega)]

theorem VectorT.Holds.active_lt (h : v.Holds slots) : v.active < uintSize := by
  obtain ⟨k, hk, hpow⟩ := h.pow
  have hle : 2 ^ k ≤ 2 ^ 31 := Nat.pow_le_pow_right two_pos hk
  have hactive := h.active_le
  unfold uintSize
  omega

theorem VectorT.Holds.dropLast (h : v.Holds (slots ++ [none])) :
    VectorT.Holds { v with active := (v.active + uintSize - 1) % uintSize } slots := by
  obtain ⟨spare, hslot⟩ := h.slot
  have hactive := h.active
  have hlt := h.active_lt
  rw [List.length_append, List.length_singleton] at hactive
  rw [hactive] at hlt
  refine ⟨?_, ⟨spare + 1, ?_⟩, h.capacity, h.pow⟩
  · rw [hactive, dec_active hlt]
  · rw [List.replicate_succ, ← List.singleton_append (l := List.replicate spare none),
      ← List.append_assoc]
    exact hslot

theorem VectorT.Holds.shrink : ∀ (slots : Slots α) {v : VectorT α}, v.Holds slots →
    ∃ v', shrinkLoop slots.length v = .ok ((), v') ∧ v'.Holds (slots.rdropWhile Option.isNone) := by
  intro slots
  induction slots using List.reverseRecOn with
  | nil => exact fun h => ⟨_, rfl, h⟩
  | append_singleton slots x ih =>
    intro v h
    have hlast : contents (slots ++ [x]) slots.length = x := by
      rw [contents_concat, Function.update_self]
    have hactive := h.active
    rw [List.length_append, List.length_singleton] at hactive
    have hload := h.load (i := slots.length) (by have := h.active_le; omega)
    rw [hlast] at hload
    rw [List.length_append, List.length_singleton, shrinkLoop, bind_ok hload]
    cases x with
    | some w =>
      rw [List.rdropWhile_concat_neg _ _ _ (by simp)]
      exact ⟨v, rfl, h⟩
    | none =>
      rw [List.rdropWhile_concat_pos _ _ _ rfl]
      obtain ⟨v', hrun, h'⟩ := ih h.dropLast
      refine ⟨v', ?_, h'⟩
      show (if v.active = 0 then pure () else shrinkLoop slots.length : VectorM α Unit) _ = _
      rw [if_neg (by omega)]
      exact hrun

theorem VectorT.Holds.setNone (h : v.Holds slots) (i : ℕ) :
    VectorT.Holds { v with slot := v.slot.set i none } (slots.set i none) := by
  obtain ⟨spare, hslot⟩ := h.slot
  refine ⟨h.active.trans List.length_set.symm, ⟨spare, ?_⟩,
    h.capacity.trans List.length_set.symm, h.pow⟩
  show v.slot.set i none = _
  rw [hslot]
  by_cases hi : i < slots.length
  · exact List.set_append_left _ _ hi
  · have hi := Nat.le_of_not_lt hi
    rw [List.set_append_right _ _ hi, List.set_eq_of_length_le hi]
    congr 1
    refine List.ext_getElem (by simp) fun j _ _ => ?_
    rw [List.getElem_set]
    simp

theorem VectorT.Holds.unset (h : v.Holds slots) (i : ℕ) :
    ∃ v', unsetSlot i v = .ok ((), v') ∧ v'.Holds (vectorUnset slots i) := by
  have hactive := h.active
  have hget : unsetSlot i v = (if v.capacity ≤ i then pure () else do
    storeSlot i none
    if i + 1 = v.active then do
      modify fun v => { v with active := (v.active + uintSize - 1) % uintSize }
      shrinkLoop i
    else pure () : VectorM α Unit) v := rfl
  rw [hget, vectorUnset, ← hactive]
  by_cases hcap : v.capacity ≤ i
  · have hle := h.active_le
    rw [if_pos hcap, if_neg (by omega), List.set_eq_of_length_le (by omega)]
    exact ⟨v, rfl, h⟩
  · have h₁ := h.setNone i
    rw [if_neg hcap, bind_ok (h.store (Nat.lt_of_not_le hcap) none)]
    by_cases hlast : i + 1 = v.active
    · rw [if_pos hlast, if_pos hlast]
      have hset : slots.set i none = slots.take i ++ [none] := by
        rw [List.set_eq_take_append_cons_drop, if_pos (by omega),
          List.drop_eq_nil_of_le (by omega)]
      rw [hset] at h₁ ⊢
      have hlen : (slots.take i).length = i := by
        rw [List.length_take]
        omega
      obtain ⟨v', hrun, h'⟩ := h₁.dropLast.shrink
      rw [hlen] at hrun
      rw [List.rdropWhile_concat_pos _ _ _ rfl]
      exact ⟨v', hrun, h'⟩
    · rw [if_neg hlast, if_neg hlast]
      exact ⟨_, rfl, h₁⟩

theorem countLoop_eq (h : v.Holds slots) : ∀ n i count : ℕ, i + n = slots.length →
    countLoop n i count v = .ok (count + (slots.drop i).reduceOption.length, v)
  | 0, i, count, hi => by
    rw [Nat.add_zero] at hi
    rw [countLoop, List.drop_eq_nil_of_le (Nat.le_of_eq hi.symm)]
    rfl
  | n + 1, i, count, hi => by
    have hlen : i < slots.length := by omega
    rw [countLoop, bind_ok (h.load_active hlen), List.drop_eq_getElem_cons hlen]
    cases slots[i] with
    | none =>
      rw [List.reduceOption_cons_of_none]
      exact countLoop_eq h n (i + 1) count (by omega)
    | some w =>
      rw [List.reduceOption_cons_of_some, List.length_cons]
      dsimp only
      rw [countLoop_eq h n (i + 1) (count + 1) (by omega), Nat.add_right_comm, Nat.add_assoc]

theorem VectorT.Holds.count (h : v.Holds slots) :
    vectorCount v = .ok (slots.reduceOption.length, v) := by
  have hget : vectorCount v = countLoop v.active 0 0 v := rfl
  rw [hget, h.active, countLoop_eq h _ 0 0 (Nat.zero_add _), Nat.zero_add, List.drop_zero]

theorem foreachLoop_eq (h : v.Holds slots) : ∀ n i : ℕ, i + n = slots.length →
    foreachLoop n i v = .ok (foreachActiveSlot (slots.drop i), v)
  | 0, i, hi => by
    rw [Nat.add_zero] at hi
    rw [foreachLoop, List.drop_eq_nil_of_le (Nat.le_of_eq hi.symm)]
    rfl
  | n + 1, i, hi => by
    have hlen : i < slots.length := by omega
    rw [foreachLoop, bind_ok (h.load_active hlen), List.drop_eq_getElem_cons hlen]
    cases slots[i] with
    | none => rfl
    | some w =>
      dsimp only
      rw [bind_ok (foreachLoop_eq h n (i + 1) (by omega))]
      rfl

theorem VectorT.Holds.foreach (h : v.Holds slots) :
    vectorForeach v = .ok (foreachActiveSlot slots, v) := by
  have hget : vectorForeach v = foreachLoop v.active 0 v := rfl
  rw [hget, h.active, foreachLoop_eq h _ 0 (Nat.zero_add _), List.drop_zero]

/-! ## Sequences of calls -/

/-- A call of a function of `vector.c`. -/
inductive VectorCall (α : Type)
  | set (val : Option α)
  | setIndex (i : ℕ) (val : Option α)
  | lookup (i : ℕ)
  | lookupEnsure (i : ℕ)
  | unset (i : ℕ)
  | count
  | foreach

/-- What a call returns or visits. -/
inductive VectorAnswer (α : Type)
  | index (i : ℕ)
  | value (val : Option α)
  | values (ps : List α)
  | done

namespace VectorCall

/-- The call on a vector. -/
def exec (stale : ℕ → Option α) : VectorCall α → VectorM α (VectorAnswer α)
  | set val => .index <$> vectorSetVal stale val
  | setIndex i val => .index <$> vectorSetIndex stale i val
  | lookup i => .value <$> vectorLookup i
  | lookupEnsure i => .value <$> vectorLookupEnsure stale i
  | unset i => (fun _ => .done) <$> unsetSlot i
  | count => .index <$> vectorCount
  | foreach => .values <$> vectorForeach

/-- The call on a partial map. -/
noncomputable def apply : VectorCall α → (ℕ → Option α) → VectorAnswer α × (ℕ → Option α)
  | set val, m => (.index (leastFree m), Function.update m (leastFree m) val)
  | setIndex i val, m => (.index i, Function.update m i val)
  | lookup i, m => (.value (m i), m)
  | lookupEnsure i, m => (.value (m i), m)
  | unset i, m => (.done, Function.update m i none)
  | count, m => (.index (Set.ncard {i | m i ≠ none}), m)
  | foreach, m => (.values ((List.range (leastFree m)).filterMap m), m)

/-- A block of a power of two has room for the index. -/
def inRange : VectorCall α → Bool
  | setIndex i _ => i < 2 ^ 31
  | lookupEnsure i => i < 2 ^ 31
  | _ => true

end VectorCall

/-- A sequence of calls on a vector. -/
def vectorRun (stale : ℕ → Option α) : List (VectorCall α) → VectorM α (List (VectorAnswer α))
  | [] => pure []
  | c :: calls => do
    let answer ← c.exec stale
    let answers ← vectorRun stale calls
    pure (answer :: answers)

/-- The answers of a partial map to a sequence of calls. -/
noncomputable def mapAnswers : List (VectorCall α) → (ℕ → Option α) → List (VectorAnswer α)
  | [], _ => []
  | c :: calls, m => (c.apply m).1 :: mapAnswers calls (c.apply m).2

theorem contents_vectorUnset (slots : Slots α) (i : ℕ) :
    contents (vectorUnset slots i) = Function.update (contents slots) i none := by
  unfold vectorUnset
  split
  · rw [contents_rdropWhile, contents_set_none]
  · exact contents_set_none slots i

theorem length_reduceOption_vectorUnset_le (slots : Slots α) (i : ℕ) :
    (vectorUnset slots i).reduceOption.length ≤ slots.reduceOption.length := by
  calc (vectorUnset slots i).reduceOption.length
    _ = (slots.set i none).reduceOption.length := by
      rw [← ncard_contents, ← ncard_contents, contents_vectorUnset, contents_set_none]
    _ ≤ slots.reduceOption.length := length_reduceOption_set_none_le slots i

theorem foreachActiveSlot_eq (slots : Slots α) :
    foreachActiveSlot slots = (slots.takeWhile Option.isSome).reduceOption := by
  induction slots with
  | nil => rfl
  | cons slot slots ih =>
    cases slot with
    | none => rfl
    | some w =>
      rw [foreachActiveSlot, List.takeWhile_cons_of_pos rfl, List.reduceOption_cons_of_some, ih]

theorem map_ok {β γ : Type} {x : VectorM α β} {f : β → γ} {b : β} {v v' : VectorT α}
    (h : x v = .ok (b, v')) : (f <$> x) v = .ok (f b, v') := by
  rw [map_eq_pure_bind, bind_ok h]
  rfl

/-- **A call answers like the partial map.** -/
theorem VectorCall.exec_ok (c : VectorCall α) (stale : ℕ → Option α) (hc : c.inRange = true)
    (h : v.Holds slots) (hfree : firstFree slots < 2 ^ 31) : ∃ v' slots',
      c.exec stale v = .ok ((c.apply (contents slots)).1, v') ∧ v'.Holds slots' ∧
      contents slots' = (c.apply (contents slots)).2 ∧
      slots'.reduceOption.length ≤ slots.reduceOption.length + 1 := by
  cases c with
  | set val =>
    obtain ⟨v', hrun, h'⟩ := h.setIndex stale hfree val
    rw [← h.setVal_eq] at hrun
    refine ⟨v', _, ?_, h', ?_, length_reduceOption_put_le _ _ _⟩
    · rw [exec, map_ok hrun, apply, leastFree_contents]
    · rw [contents_put, apply, leastFree_contents]
  | setIndex i val =>
    obtain ⟨v', hrun, h'⟩ := h.setIndex stale (of_decide_eq_true hc) val
    exact ⟨v', _, map_ok hrun, h', contents_put _ _ _, length_reduceOption_put_le _ _ _⟩
  | lookup i => exact ⟨v, _, map_ok (h.lookup_eq i), h, rfl, Nat.le_succ _⟩
  | lookupEnsure i =>
    obtain ⟨v', hrun, h'⟩ := h.lookupEnsure stale (of_decide_eq_true hc)
    exact ⟨v', _, map_ok hrun, h', rfl, Nat.le_succ _⟩
  | unset i =>
    obtain ⟨v', hrun, h'⟩ := h.unset i
    exact ⟨v', _, map_ok hrun, h', contents_vectorUnset _ _,
      (length_reduceOption_vectorUnset_le _ _).trans (Nat.le_succ _)⟩
  | count =>
    refine ⟨v, _, ?_, h, rfl, Nat.le_succ _⟩
    rw [exec, map_ok h.count, apply, ncard_contents]
  | foreach =>
    refine ⟨v, _, ?_, h, rfl, Nat.le_succ _⟩
    rw [exec, map_ok h.foreach, apply, leastFree_contents, filterMap_range_firstFree,
      foreachActiveSlot_eq]

theorem VectorCall.exec_error (c : VectorCall α) (hc : c.inRange = false) (h : v.Holds slots) :
    c.exec stale v = .error .bounds := by
  cases c with
  | setIndex i val =>
    rw [exec, map_eq_pure_bind, bind_apply,
      h.setIndex_error (Nat.le_of_not_lt (of_decide_eq_false hc))]
    rfl
  | lookupEnsure i =>
    rw [exec, map_eq_pure_bind, bind_apply,
      h.lookupEnsure_error (Nat.le_of_not_lt (of_decide_eq_false hc))]
    rfl
  | _ => cases hc

theorem vectorRun_eq : ∀ (calls : List (VectorCall α)) {v : VectorT α} {slots : Slots α},
    v.Holds slots → slots.reduceOption.length + calls.length ≤ 2 ^ 31 →
    (vectorRun stale calls v).map Prod.fst =
      if calls.all VectorCall.inRange then .ok (mapAnswers calls (contents slots))
      else .error .bounds
  | [], _, _, _, _ => rfl
  | c :: calls, v, slots, h, hlen => by
    rw [List.length_cons] at hlen
    have hfree : firstFree slots < 2 ^ 31 := by
      have hle := firstFree_le slots
      omega
    cases hc : c.inRange with
    | false =>
      rw [vectorRun, bind_apply, c.exec_error hc h, List.all_cons, hc]
      rfl
    | true =>
      obtain ⟨v', slots', hrun, h', hmap, hle⟩ := c.exec_ok stale hc h hfree
      have ih := vectorRun_eq calls h' (by omega)
      rw [hmap] at ih
      rw [vectorRun, bind_ok hrun, List.all_cons, hc, Bool.true_and, mapAnswers, bind_apply]
      cases hrest : vectorRun stale calls v' with
      | error e =>
        rw [hrest] at ih
        split at ih
        · cases ih
        · rename_i hall
          cases ih
          rw [if_neg hall]
          rfl
      | ok p =>
        rw [hrest] at ih
        split at ih
        · rename_i hall
          rw [if_pos hall, ← Except.ok.inj ih]
          rfl
        · cases ih

/-- **A vector is a partial map**: on a new vector, every sequence of calls stays in the block and
is answered as by a map, unless it makes room for an index from `2 ^ 31` on; then it leaves the
block. -/
theorem vectorRun_answers (stale : ℕ → Option α) (calls : List (VectorCall α))
    (hlen : calls.length ≤ 2 ^ 31) :
    (vectorRun stale calls (vectorInit 0)).map Prod.fst =
      if calls.all VectorCall.inRange then .ok (mapAnswers calls fun _ => none)
      else .error .bounds :=
  vectorRun_eq calls vectorInit_holds ((Nat.zero_add _).trans_le hlen)

/-- Three stores, the middle one taken back and made again. -/
theorem vectorRun_answers_refill :
    (vectorRun (fun _ => some 9)
      [.set (some 5), .set (some 6), .set (some 7), .unset 1, .foreach, .set (some 8), .foreach]
      (vectorInit 0 : VectorT ℕ)).map Prod.fst =
        .ok (mapAnswers [.set (some 5), .set (some 6), .set (some 7), .unset 1, .foreach,
          .set (some 8), .foreach] fun _ => none) :=
  vectorRun_answers _ _ (by decide)

/-! ## The vectors of the registry -/

/-- A call of `keyword.c` on the vector of a level. -/
inductive StubCall
  | add (keystub : ℕ)
  | remove (keystub : ℕ)

/-- The body of the loop of `keyword_uninstall` at slot `i`; `next` is the rest of the loop. -/
def uninstallSlot (keystub i : ℕ) (next : VectorM ℕ Unit) : Option ℕ → VectorM ℕ Unit
  | none => pure ()
  | some stub =>
    if stub ≠ keystub then next
    else do
      unsetSlot i
      next

/-- The loop of `keyword_uninstall` from slot `i` on, for `n` rounds at most. -/
def uninstallLoop (keystub : ℕ) : ℕ → ℕ → VectorM ℕ Unit
  | 0, _ => throw .endless
  | n + 1, i => do
    let v ← get
    if i < v.active then loadSlot i >>= uninstallSlot keystub i (uninstallLoop keystub n (i + 1))
    else pure ()

/-- The call on a vector. -/
def StubCall.exec (stale : ℕ → Option ℕ) : StubCall → VectorM ℕ Unit
  | add keystub => do
    let _ ← vectorSetVal stale (some keystub)
    pure ()
  | remove keystub => do
    let v ← get
    uninstallLoop keystub (v.active + 1) 0

/-- The call on the slots of a level. -/
def StubCall.apply : StubCall → Slots ℕ → Slots ℕ
  | add keystub, slots => vectorSet slots keystub
  | remove keystub, slots => unsetLoop keystub slots.length 0 slots

/-- The calls that add a stub. -/
def StubCall.isAdd : StubCall → Bool
  | add _ => true
  | remove _ => false

theorem vectorSet_eq_put (slots : Slots α) (val : α) :
    vectorSet slots val = Sparse.put slots (firstFree slots) (some val) := by
  induction slots with
  | nil => rfl
  | cons slot slots ih =>
    cases slot with
    | none =>
      rw [firstFree_none, vectorSet, Sparse.put, List.length_cons, Nat.zero_add,
        Nat.sub_eq_zero_of_le (Nat.le_add_left 1 _), List.replicate_zero, List.append_nil,
        List.set_cons_zero]
    | some w =>
      rw [firstFree_some, vectorSet, ih, Sparse.put, Sparse.put, List.length_cons,
        Nat.add_sub_add_right, List.cons_append, List.set_cons_succ]

theorem length_vectorUnset_le (slots : Slots α) (i : ℕ) :
    (vectorUnset slots i).length ≤ slots.length := by
  unfold vectorUnset
  split
  · exact (List.rdropWhile_prefix _ _).length_le.trans_eq List.length_set
  · exact Nat.le_of_eq List.length_set

/-- **The loop of `keyword_uninstall` stays in the block, and ends.** -/
theorem uninstallLoop_eq (keystub : ℕ) : ∀ (n i : ℕ) {v : VectorT ℕ} {slots : Slots ℕ},
    v.Holds slots → slots.length ≤ i + n → ∃ v',
      uninstallLoop keystub (n + 1) i v = .ok ((), v') ∧
      v'.Holds (unsetLoop keystub n i slots)
  | n, i, v, slots, h, hlen => by
    have hget : uninstallLoop keystub (n + 1) i v = (if i < v.active then
      loadSlot i >>= uninstallSlot keystub i (uninstallLoop keystub n (i + 1))
      else pure () : VectorM ℕ Unit) v := rfl
    rw [hget, h.active]
    by_cases hi : i < slots.length
    · obtain ⟨n, rfl⟩ : ∃ m, n = m + 1 := ⟨n - 1, by omega⟩
      rw [if_pos hi, bind_ok (h.load_active hi), unsetLoop, List.getElem?_eq_getElem hi]
      cases slots[i] with
      | none => exact ⟨v, rfl, h⟩
      | some stub =>
        rw [uninstallSlot]
        dsimp only
        split
        · exact uninstallLoop_eq keystub n (i + 1) h (by omega)
        · obtain ⟨v₁, hunset, h₁⟩ := h.unset i
          rw [bind_ok hunset]
          have hle := length_vectorUnset_le slots i
          exact uninstallLoop_eq keystub n (i + 1) h₁ (by omega)
    · refine ⟨v, by rw [if_neg hi]; rfl, ?_⟩
      have hnone : slots[i]? = none := List.getElem?_eq_none (Nat.le_of_not_lt hi)
      cases n with
      | zero => exact h
      | succ n => rwa [unsetLoop, hnone]

theorem length_reduceOption_unsetLoop_le (keystub : ℕ) : ∀ (n i : ℕ) (slots : Slots ℕ),
    (unsetLoop keystub n i slots).reduceOption.length ≤ slots.reduceOption.length
  | 0, _, _ => Nat.le_refl _
  | n + 1, i, slots => by
    rw [unsetLoop]
    split
    · split
      · exact length_reduceOption_unsetLoop_le keystub n (i + 1) slots
      · exact (length_reduceOption_unsetLoop_le keystub n (i + 1) _).trans
          (length_reduceOption_vectorUnset_le slots i)
    · exact Nat.le_refl _

theorem StubCall.exec_ok (c : StubCall) (stale : ℕ → Option ℕ) {v : VectorT ℕ} {slots : Slots ℕ}
    (h : v.Holds slots) (hfree : c.isAdd = true → firstFree slots < 2 ^ 31) :
    ∃ v', c.exec stale v = .ok ((), v') ∧ v'.Holds (c.apply slots) := by
  cases c with
  | add keystub =>
    obtain ⟨v', hrun, h'⟩ := h.setIndex stale (hfree rfl) (some keystub)
    rw [← h.setVal_eq] at hrun
    refine ⟨v', by rw [exec, bind_ok hrun]; rfl, ?_⟩
    rwa [apply, vectorSet_eq_put]
  | remove keystub =>
    obtain ⟨v', hrun, h'⟩ := uninstallLoop_eq keystub slots.length 0 h (by omega)
    rw [← h.active] at hrun
    exact ⟨v', hrun, h'⟩

theorem StubCall.length_reduceOption_le (c : StubCall) (slots : Slots ℕ) :
    (c.apply slots).reduceOption.length ≤
      slots.reduceOption.length + if c.isAdd then 1 else 0 := by
  cases c with
  | add keystub =>
    rw [apply, vectorSet_eq_put]
    exact length_reduceOption_put_le _ _ _
  | remove keystub => exact length_reduceOption_unsetLoop_le _ _ _ _

section Registry

variable {σ η D : Type} {P : KeywordTable σ η D → ℕ → Prop} {reg : Registry σ η D} {gone : List ℕ}
  {stale : ℕ → Option ℕ} {mem : Option ℕ → Except VectorFault (VectorT ℕ)}

/-- A call on the vector of a level, in the memory of all vectors. -/
def StubCall.onLevel (stale : ℕ → Option ℕ) (c : StubCall) (level : Option ℕ)
    (mem : Option ℕ → Except VectorFault (VectorT ℕ)) :
    Option ℕ → Except VectorFault (VectorT ℕ) :=
  Function.update mem level ((mem level).bind fun v => (c.exec stale v).map Prod.snd)

/-- The registries with the vectors of their levels; a vector of which nothing was asked yet is
new. -/
inductive VectorsRun (stale : ℕ → Option ℕ) (P : KeywordTable σ η D → ℕ → Prop) :
    Registry σ η D → (Option ℕ → Except VectorFault (VectorT ℕ)) → List ℕ → Prop
  | init : VectorsRun stale P ⟨lreKeywordInit, []⟩ (fun _ => .ok (vectorInit 0)) []
  | install {reg : Registry σ η D} {mem : Option ℕ → Except VectorFault (VectorT ℕ)}
    {gone : List ℕ} {parent : Option ℕ} (type : KeystubType) (keyword : Word)
    (data : StubData σ η D) : VectorsRun stale P reg mem gone → LiveLevel reg.tab gone parent →
    VectorsRun stale P { reg with tab := (keywordInstall type keyword data parent reg.tab).1 }
      ((StubCall.add reg.tab.stubs.length).onLevel stale parent mem) gone
  | uninstall {reg : Registry σ η D} {mem : Option ℕ → Except VectorFault (VectorT ℕ)}
    {gone : List ℕ} {keystub : ℕ} {keyword : Word} {level : Option ℕ} :
    VectorsRun stale P reg mem gone → Live reg.tab gone keystub → P reg.tab keystub →
    reg.tab.Installed level keyword keystub →
    VectorsRun stale P (keywordUninstall keystub reg)
      ((StubCall.remove keystub).onLevel stale level mem) (keystub :: gone)

/-- Each level has a vector in memory that holds its slots. -/
structure MemoryHolds (reg : Registry σ η D) (mem : Option ℕ → Except VectorFault (VectorT ℕ)) :
    Prop where
  vector : ∀ level, ∃ v, mem level = .ok v ∧ v.Holds (reg.tab.level level)
  le : ∀ level, (reg.tab.level level).reduceOption.length ≤ reg.tab.stubs.length

theorem MemoryHolds.call (h : MemoryHolds reg mem) {c : StubCall} {level : Option ℕ}
    {reg' : Registry σ η D} (hfree : c.isAdd = true → reg.tab.stubs.length < 2 ^ 31)
    (hstubs : reg'.tab.stubs.length = reg.tab.stubs.length + if c.isAdd then 1 else 0)
    (hlevel : ∀ level', reg'.tab.level level' =
      if level' = level then c.apply (reg.tab.level level') else reg.tab.level level') :
    MemoryHolds reg' (c.onLevel stale level mem) := by
  refine ⟨fun level' => ?_, fun level' => ?_⟩
  · rw [hlevel, StubCall.onLevel]
    obtain ⟨v, hmem, hv⟩ := h.vector level'
    by_cases heq : level' = level
    · subst heq
      obtain ⟨v', hrun, hv'⟩ := c.exec_ok stale hv fun hc =>
        (firstFree_le _).trans_lt ((h.le level').trans_lt (hfree hc))
      refine ⟨v', ?_, by rwa [if_pos rfl]⟩
      rw [Function.update_self, hmem]
      show (c.exec stale v).map Prod.snd = _
      rw [hrun]
      rfl
    · exact ⟨v, by rwa [Function.update_of_ne heq], by rwa [if_neg heq]⟩
  · have hle := h.le level'
    rw [hlevel, hstubs]
    split
    · exact (c.length_reduceOption_le _).trans (Nat.add_le_add_right hle _)
    · exact Nat.le_add_right_of_le hle

theorem VectorsRun.memoryHolds (h : VectorsRun stale P reg mem gone)
    (hlen : reg.tab.stubs.length ≤ 2 ^ 31) : MemoryHolds reg mem := by
  induction h with
  | init =>
    refine ⟨fun level => ⟨_, rfl, ?_⟩, fun level => ?_⟩
    · rw [lreKeywordInit_level]
      exact vectorInit_holds
    · rw [lreKeywordInit_level]
      exact Nat.le_refl _
  | install type keyword data h hlevel ih =>
    rw [length_keywordInstall] at hlen
    refine (ih (Nat.le_of_succ_le hlen)).call (fun _ => hlen) (length_keywordInstall ..)
      fun level' => ?_
    exact level_keywordInstall type data _ hlevel.hasVector
  | @uninstall reg mem gone keystub keyword level h hlive hP hinst ih =>
    rw [length_keywordUninstall hinst] at hlen
    refine (ih hlen).call (fun hadd => absurd hadd Bool.false_ne_true)
      (length_keywordUninstall hinst) fun level' => ?_
    exact level_keywordUninstall hinst level'

/-- **The vectors of a registry in memory**: over installations and uninstallations of live stubs,
no call leaves the block of its vector, and each vector holds the slots of its level and shows its
stubs. -/
theorem VectorsRun.vector_holds (h : VectorsRun stale P reg mem gone)
    (hlen : reg.tab.stubs.length ≤ 2 ^ 31) (level : Option ℕ) : ∃ v,
      mem level = .ok v ∧ v.Holds (reg.tab.level level) ∧
      vectorForeach v = .ok (foreachActiveSlot (reg.tab.level level), v) := by
  obtain ⟨v, hmem, hv⟩ := (h.memoryHolds hlen).vector level
  exact ⟨v, hmem, hv, hv.foreach⟩

/-- Two functions are in the first slots of the root vector. -/
theorem VectorsRun.vector_holds_two : ∃ v,
    (StubCall.add 1).onLevel (fun _ => none) none ((StubCall.add 0).onLevel (fun _ => none) none
      fun _ => .ok (vectorInit 0)) none = .ok v ∧
    v.Holds (twoFuncs.tab.level none) ∧
    vectorForeach v = .ok (foreachActiveSlot (twoFuncs.tab.level none), v) :=
  VectorsRun.vector_holds (P := fun _ _ => False)
    (.install _ _ _ (.install _ _ _ .init liveLevel_root) liveLevel_root) (by decide) none

end Registry

end Lre
