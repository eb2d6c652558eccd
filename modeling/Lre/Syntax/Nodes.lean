import Lre.Syntax.Control
import Mathlib.Data.List.Nodup
import Mathlib.Data.List.Range

/-!
# The nodes of a parse

* `Mempool.Wellformed`, `Mempool.Live`: a pool whose free list holds no node twice, and the nodes
  that are out.
* `poolLedger`: the book-keeping of `Ledger` for the pool of an interpreter.
* `interpSyntaxParse_returned_iff`: after a parse whose tree is destroyed, every node taken is back
  exactly when the tokens are accepted and no value was given up on the way.
-/

namespace Lre

open StateTransition

/-! ## Pools -/

/-- The nodes in the pool. -/
def Mempool.ids (pool : Mempool) : List ℕ := pool.node.map SyntaxNode.id

/-- No node is in the pool twice, and `malloc` has made all of them. -/
structure Mempool.Wellformed (pool : Mempool) : Prop where
  nodup : pool.ids.Nodup
  lt_next : ∀ id ∈ pool.ids, id < pool.next

/-- A node that was taken and is not in the pool. -/
def Mempool.Live (pool : Mempool) (id : ℕ) : Prop := id < pool.next ∧ id ∉ pool.ids

/-- The nodes that `malloc` has made since. -/
def Mempool.made (p p' : Mempool) : List ℕ := List.range' p.next (p'.next - p.next)

/-- Every node taken since `p` has been returned exactly once. -/
structure Mempool.Returned (p p' : Mempool) : Prop where
  once : p'.ids.Perm (p.ids ++ p.made p')
  live : ∀ id, p'.Live id ↔ p.Live id

theorem mempoolInit_ids : mempoolInit.ids = (List.range mempoolCount).reverse := by
  rw [Mempool.ids, mempoolInit, List.map_map]
  exact List.map_id' _

theorem mempoolInit_wellformed : mempoolInit.Wellformed := by
  constructor
  · rw [mempoolInit_ids]
    exact List.nodup_reverse.mpr List.nodup_range
  · intro id hid
    rw [mempoolInit_ids, List.mem_reverse] at hid
    exact List.mem_range.mp hid

/-! ## Accounts -/

/-- The nodes out of the pool `p` since `p₀` are `ns`, and those in `lost`. -/
structure Mempool.Account (p₀ p : Mempool) (ns lost : List ℕ) : Prop where
  le : p₀.next ≤ p.next
  perm : (p.ids ++ (ns ++ lost)).Perm (p₀.ids ++ p₀.made p)

variable {p₀ p : Mempool} {ns lost : List ℕ}

theorem Mempool.Account.refl (p : Mempool) : p.Account p [] [] := by
  refine ⟨Nat.le_refl _, ?_⟩
  rw [made, Nat.sub_self]
  exact List.Perm.refl _

theorem Mempool.Account.alloc (h : p₀.Account p ns lost) (heap : ℕ → ℕ) :
    p₀.Account (memAlloc heap p).2 ((memAlloc heap p).1.id :: ns) lost := by
  obtain ⟨hle, hperm⟩ := h
  obtain ⟨node, next⟩ := p
  cases node with
  | nil =>
    refine ⟨Nat.le_succ_of_le hle, ?_⟩
    have hmade : p₀.made ⟨[], next + 1⟩ = p₀.made ⟨[], next⟩ ++ [next] := by
      have hle : p₀.next ≤ next := hle
      simp only [made, Nat.sub_add_comm hle, List.range'_1_concat, Nat.add_sub_cancel' hle]
    calc next :: (ns ++ lost)
      _ |>.Perm (next :: (p₀.ids ++ p₀.made ⟨[], next⟩)) := hperm.cons next
      _ |>.Perm ((p₀.ids ++ p₀.made ⟨[], next⟩) ++ [next]) := (List.perm_append_singleton _ _).symm
      _ |>.Perm (p₀.ids ++ p₀.made ⟨[], next + 1⟩) := by rw [hmade, List.append_assoc]
  | cons m rest => exact ⟨hle, List.perm_middle.trans hperm⟩

theorem Mempool.Account.free {m : SyntaxNode} (h : p₀.Account p (m.id :: ns) lost) :
    p₀.Account (memFree m p) ns lost :=
  ⟨h.le, List.perm_middle.symm.trans h.perm⟩

theorem Mempool.Account.perm_ns {ns' : List ℕ} (h : p₀.Account p ns lost) (hp : ns.Perm ns') :
    p₀.Account p ns' lost :=
  ⟨h.le, ((hp.symm.append_right lost).append_left p.ids).trans h.perm⟩

theorem Mempool.Account.lose {ms : List ℕ} (h : p₀.Account p (ms ++ ns) lost) :
    p₀.Account p ns (lost ++ ms) := by
  refine ⟨h.le, List.Perm.trans (List.Perm.append_left _ ?_) h.perm⟩
  rw [← List.append_assoc]
  exact List.perm_append_comm.trans (by rw [List.append_assoc])

/-- The book-keeping for the pool of an interpreter, from `p₀` on. -/
def poolLedger (p₀ : Mempool) (heap : ℕ → ℕ) : Ledger (syntaxMpool heap) where
  Holds p ns d := ∃ lost : List ℕ, lost.length = d ∧ p₀.Account p (ns.map SyntaxNode.id) lost
  alloc h := h.imp fun _ ⟨hd, h⟩ => ⟨hd, h.alloc heap⟩
  free h := h.imp fun _ ⟨hd, h⟩ => ⟨hd, h.free⟩
  setCount _ h := h
  perm hp h := h.imp fun _ ⟨hd, h⟩ => ⟨hd, h.perm_ns (hp.map _)⟩
  lose := by
    rintro p ms ns d ⟨lost, rfl, h⟩
    rw [List.map_append] at h
    exact ⟨lost ++ ms.map SyntaxNode.id, by rw [List.length_append, List.length_map], h.lose⟩

/-- All nodes in hand are freed, one after the other. -/
theorem Mempool.Account.freeAll {ms : List SyntaxNode}
    (h : p₀.Account p (ms.map SyntaxNode.id ++ ns) lost) :
    p₀.Account (ms.foldl (fun pool node => memFree node pool) p) ns lost := by
  induction ms generalizing p with
  | nil => exact h
  | cons m ms ih => exact ih h.free

/-! ## What an account says -/

theorem Mempool.Account.nodup (h : p₀.Account p ns lost) (hwf : p₀.Wellformed) :
    (p.ids ++ (ns ++ lost)).Nodup := by
  refine h.perm.nodup_iff.mpr (List.nodup_append.mpr ⟨hwf.nodup, List.nodup_range', ?_⟩)
  rintro a ha _ hb rfl
  have hlt := hwf.lt_next a ha
  have hmade := List.mem_range'_1.mp hb
  omega

/-- The pool stays well formed, whatever has been lost. -/
theorem Mempool.Account.wellformed (h : p₀.Account p ns lost) (hwf : p₀.Wellformed) :
    p.Wellformed := by
  refine ⟨(List.nodup_append.mp (h.nodup hwf)).1, fun id hid => ?_⟩
  have hle := h.le
  rcases List.mem_append.mp (h.perm.subset (List.mem_append_left _ hid)) with h₀ | hmade
  · have hlt := hwf.lt_next id h₀
    omega
  · have hrange := List.mem_range'_1.mp hmade
    omega

/-- The live nodes are those that were live, and those that have been lost. -/
theorem Mempool.Account.live_iff (h : p₀.Account p [] lost) (hwf : p₀.Wellformed) (id : ℕ) :
    p.Live id ↔ p₀.Live id ∨ id ∈ lost := by
  have hle := h.le
  have hmem : id ∈ p.ids ∨ id ∈ lost ↔ id ∈ p₀.ids ∨ p₀.next ≤ id ∧ id < p.next := by
    have hperm := h.perm.mem_iff (a := id)
    rw [List.nil_append, List.mem_append, List.mem_append, made, List.mem_range'_1] at hperm
    rw [hperm]
    have hsum : p₀.next + (p.next - p₀.next) = p.next := Nat.add_sub_cancel' hle
    rw [hsum]
  have hnot : id ∈ p.ids → id ∉ lost := fun h₁ h₂ =>
    (List.nodup_append.mp (h.nodup hwf)).2.2 id h₁ id h₂ rfl
  have hlt := hwf.lt_next id
  unfold Live
  constructor
  · rintro ⟨h₁, h₂⟩
    by_cases hlost : id ∈ lost
    · exact .inr hlost
    · have hno := mt hmem.mpr (not_or.mpr ⟨h₂, hlost⟩)
      rw [not_or, not_and] at hno
      exact .inl ⟨by_contra fun hge => hno.2 (Nat.not_lt.mp hge) h₁, hno.1⟩
  · rintro (⟨h₁, h₂⟩ | hlost)
    · refine ⟨Nat.lt_of_lt_of_le h₁ hle, fun h₃ => ?_⟩
      rcases hmem.mp (.inl h₃) with h₄ | ⟨h₄, -⟩
      · exact h₂ h₄
      · omega
    · refine ⟨?_, fun h₃ => hnot h₃ hlost⟩
      rcases hmem.mp (.inr hlost) with h₄ | ⟨-, h₄⟩
      · have := hlt h₄
        omega
      · exact h₄

/-- **Every node is back exactly when none has been lost.** -/
theorem Mempool.Account.returned_iff (h : p₀.Account p [] lost) (hwf : p₀.Wellformed) :
    p₀.Returned p ↔ lost = [] := by
  constructor
  · intro hret
    refine List.eq_nil_iff_forall_not_mem.mpr fun id hid => ?_
    have hlive := (hret.live id).mp ((h.live_iff hwf id).mpr (.inr hid))
    have hmem := h.perm.subset (List.mem_append_right _ hid)
    rcases List.mem_append.mp hmem with h₀ | hmade
    · exact hlive.2 h₀
    · have hrange := List.mem_range'_1.mp hmade
      have hlt := hlive.1
      omega
  · rintro rfl
    refine ⟨?_, fun id => ?_⟩
    · have hperm := h.perm
      rwa [List.append_nil, List.append_nil] at hperm
    · rw [h.live_iff hwf id]
      exact or_iff_left List.not_mem_nil

/-! ## Parses -/

/-- The control accepts the tokens, and has not given up a node of a value on the way. -/
def CleanRule (toks : List Token) : Prop :=
  ∃ st ts, Reaches Control.step (.start toks) ⟨.accept, st, ts, 0⟩

/-- The pool when the tree of a parse has been destroyed; a failed parse leaves no tree. -/
def poolAfter : Option (SyntaxNode × SyntaxItems SyntaxNode) × ParseState Mempool → Mempool
  | (none, s) => s.pool
  | (some (m, tree), s) => destroySyntaxTree m tree s.pool

/-- **A parse and the destruction of its tree lose no node exactly when the tokens are accepted
without giving up a value.** -/
theorem interpSyntaxParse_account (heap : ℕ → ℕ) {toks : List Token} {pool : Mempool}
    {r : Option (SyntaxNode × SyntaxItems SyntaxNode)} {s : ParseState Mempool}
    (h : interpSyntaxParse (syntaxMpool heap) toks pool = .ok (r, s)) :
    ∃ lost, pool.Account (poolAfter (r, s)) [] lost ∧ (lost = [] ↔ CleanRule toks) := by
  have hcontent := (@interpSyntaxParse_control _ _ _ (poolLedger pool heap) toks pool
    ⟨[], rfl, .refl pool⟩).1 r s h
  cases r with
  | none =>
    obtain ⟨m, ⟨st, d, hreject⟩, -, lost, -, hacc⟩ := hcontent
    have hlost : pool.Account s.pool [] (lost ++ [m.id]) := hacc.lose
    refine ⟨lost ++ [m.id], hlost, fun h => by simp at h, ?_⟩
    rintro ⟨st', ts, haccept⟩
    cases Control.halted_unique hreject rfl haccept rfl
  | some p =>
    obtain ⟨m, tree⟩ := p
    obtain ⟨d, haccept, lost, hd, hacc⟩ := hcontent
    have hacc : pool.Account s.pool ((tree.nodes ++ [m]).map SyntaxNode.id ++ []) lost := by
      rwa [List.append_nil]
    refine ⟨lost, hacc.freeAll, fun h => ?_, ?_⟩
    · subst h
      cases hd
      exact ⟨[], s.toks, haccept.reaches⟩
    · rintro ⟨st, ts, hclean⟩
      cases Control.halted_unique haccept.reaches rfl hclean rfl
      exact List.length_eq_zero_iff.mp hd

end Lre
