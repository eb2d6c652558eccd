import Mathlib.Data.Finset.Insert
import Lre.Linked
import Lre.Syntax.Nodes

/-!
# The node pool in memory

`mempool.c` with the addresses of its nodes.

* `PoolHeap`: `struct mempool`, and the link that stands in the first word of a node.
* `PoolRun`: what a pool comes to when only live nodes are freed, and written to.
* `PoolRun.inv`: every node is live or in the list of free nodes, and not both.
* **`PoolRun.poolSound`**: what holds after every run, and what `mempool_release` frees.
* `Numbered`: the pool of the parser, whose nodes have numbers, is this one.
-/

namespace Lre

open Linked

/-! ## The source -/

/-- `struct mempool`, and the memory that its nodes lie in. -/
structure PoolHeap where
  buf : ℕ
  node : Option ℕ
  size : ℕ
  initCount : ℕ
  freeCount : BitVec 32
  /-- `next` of the `struct mem_node` at an address -/
  next : ℕ → Option ℕ

namespace PoolHeap

/-- A store to `node->next`. -/
def setNext (pool : PoolHeap) (node : ℕ) (next : Option ℕ) : PoolHeap :=
  { pool with next := Function.update pool.next node next }

/-- A round of the loop of `mempool_init`. -/
def initNode (pool : PoolHeap) (i : ℕ) : PoolHeap :=
  let node := pool.buf + pool.size * i
  { pool.setNext node pool.node with node := some node }

/-- `mempool_init`, where `calloc` returns `buf`; `next` is what memory holds before. -/
def mempoolInit (buf size count : ℕ) (next : ℕ → Option ℕ) : PoolHeap :=
  (List.range count).foldl initNode ⟨buf, none, size, count, .ofNat 32 count, next⟩

/-- `mem_alloc`, where `malloc` returns `malloc`. -/
def memAlloc (malloc : ℕ) (pool : PoolHeap) : ℕ × PoolHeap :=
  match pool.node with
  | some node => (node, { pool with node := pool.next node, freeCount := pool.freeCount - 1 })
  | none => (malloc, pool)

/-- `mem_free`. -/
def memFree (data : ℕ) (pool : PoolHeap) : PoolHeap :=
  { pool.setNext data pool.node with node := some data, freeCount := pool.freeCount + 1 }

/-- The test of `mempool_release`. -/
def inBlock (pool : PoolHeap) (p : ℕ) : Prop :=
  pool.buf ≤ p ∧ p < pool.buf + pool.size * pool.initCount

instance (pool : PoolHeap) : DecidablePred pool.inBlock := fun _ => instDecidableAnd

/-- At most `n` rounds of the loop of `mempool_release`: the nodes that are freed. -/
def releaseLoop (pool : PoolHeap) : ℕ → Option ℕ → Option (List ℕ)
  | _, none => some []
  | 0, some _ => none
  | n + 1, some p =>
    (pool.releaseLoop n (pool.next p)).map fun freed =>
      if pool.inBlock p then freed else p :: freed

/-- `mempool_release`: what is passed to `free`, in this order. -/
def mempoolRelease (n : ℕ) (pool : PoolHeap) : Option (List ℕ) :=
  (pool.releaseLoop n pool.node).map (· ++ [pool.buf])

end PoolHeap

/-! ## Runs -/

/-- Two nodes do not overlap. -/
def Apart (size p q : ℕ) : Prop := p + size ≤ q ∨ q + size ≤ p

/-- `malloc` returns storage that overlaps neither the block nor what it has returned before. -/
structure Fresh (buf size count : ℕ) (single : Finset ℕ) (malloc : ℕ) : Prop where
  ne_buf : malloc ≠ buf
  block : malloc + size ≤ buf ∨ buf + size * count ≤ malloc
  single : ∀ p ∈ single, Apart size malloc p

/-- A pool after `mempool_init`, and calls of `mem_alloc` and `mem_free` for live nodes; `single`
are the nodes that `malloc` has made. Between the calls the live nodes are written to. -/
inductive PoolRun (buf size count : ℕ) : PoolHeap → Finset ℕ → Finset ℕ → Prop
  | init (next : ℕ → Option ℕ) :
    PoolRun buf size count (.mempoolInit buf size count next) ∅ ∅
  | alloc {pool : PoolHeap} {live single : Finset ℕ} {malloc : ℕ}
      (h : PoolRun buf size count pool live single)
      (hfresh : pool.node = none → Fresh buf size count single malloc) :
      PoolRun buf size count (pool.memAlloc malloc).2 (insert (pool.memAlloc malloc).1 live)
        (if pool.node = none then insert malloc single else single)
  | free {pool : PoolHeap} {live single : Finset ℕ} {data : ℕ}
      (h : PoolRun buf size count pool live single) (hlive : data ∈ live) :
      PoolRun buf size count (pool.memFree data) (live.erase data) single
  | write {pool : PoolHeap} {live single : Finset ℕ} {next : ℕ → Option ℕ}
      (h : PoolRun buf size count pool live single) (hkeep : ∀ a ∉ live, next a = pool.next a) :
      PoolRun buf size count { pool with next := next } live single

/-- The nodes of the block. -/
def IsSlice (buf size count p : ℕ) : Prop := ∃ i < count, p = buf + size * i

/-- The free nodes are linked, every node is free or live, and the nodes of `malloc` overlap neither
the block nor each other. -/
structure PoolInv (buf size count : ℕ) (pool : PoolHeap) (live single : Finset ℕ)
    (free : List ℕ) : Prop where
  buf_eq : pool.buf = buf
  size_eq : pool.size = size
  count_eq : pool.initCount = count
  links : Links pool.next pool.node free
  freeCount : pool.freeCount = .ofNat 32 free.length
  disjoint : ∀ p ∈ free, p ∉ live
  nodes : ∀ p, p ∈ free ∨ p ∈ live ↔ IsSlice buf size count p ∨ p ∈ single
  outside : ∀ p ∈ single, p + size ≤ buf ∨ buf + size * count ≤ p
  apart : ∀ p ∈ single, ∀ q ∈ single, p ≠ q → Apart size p q
  ne_buf : buf ∉ single

variable {buf size count : ℕ} {pool : PoolHeap} {live single : Finset ℕ} {free : List ℕ}

/-! ## The block -/

theorem slice_injective (hsize : 0 < size) :
    Function.Injective fun i => buf + size * i := by
  intro i j h
  exact Nat.eq_of_mul_eq_mul_left hsize (Nat.add_left_cancel h)

theorem IsSlice.inBlock {p : ℕ} (h : IsSlice buf size count p) (hsize : 0 < size) :
    buf ≤ p ∧ p < buf + size * count := by
  obtain ⟨i, hi, rfl⟩ := h
  have hlt := Nat.mul_lt_mul_of_pos_left hi hsize
  exact ⟨Nat.le_add_right _ _, Nat.add_lt_add_left hlt buf⟩

variable (buf count) in
theorem foldl_initNode (hsize : 0 < size) (next : ℕ → Option ℕ) (freeCount : BitVec 32) (k : ℕ) :
    ∃ pool, (List.range k).foldl PoolHeap.initNode ⟨buf, none, size, count, freeCount, next⟩ =
        pool ∧ pool.buf = buf ∧ pool.size = size ∧ pool.initCount = count ∧
      pool.freeCount = freeCount ∧
      Links pool.next pool.node ((List.range k).reverse.map fun i => buf + size * i) := by
  induction k with
  | zero => exact ⟨_, rfl, rfl, rfl, rfl, rfl, rfl⟩
  | succ k ih =>
    obtain ⟨pool, hpool, hbuf, hsz, hcount, hfree, hlinks⟩ := ih
    refine ⟨pool.initNode k, ?_, hbuf, hsz, hcount, hfree, ?_⟩
    · rw [List.range_succ, List.foldl_concat, hpool]
    · rw [List.range_succ, List.reverse_concat, List.map_cons]
      have hnew : buf + size * k ∉ (List.range k).reverse.map fun i => buf + size * i := by
        rw [List.mem_map_of_injective (slice_injective hsize), List.mem_reverse, List.mem_range]
        exact Nat.lt_irrefl k
      have hpush := hlinks.push hnew
      rw [← hbuf, ← hsz] at hpush ⊢
      exact hpush

theorem mempoolInit_inv (hsize : 0 < size) (next : ℕ → Option ℕ) :
    PoolInv buf size count (.mempoolInit buf size count next) ∅ ∅
      ((List.range count).reverse.map fun i => buf + size * i) := by
  obtain ⟨pool, hpool, hbuf, hsz, hcount, hfree, hlinks⟩ :=
    foldl_initNode buf count hsize next (.ofNat 32 count) count
  have hinit : PoolHeap.mempoolInit buf size count next = pool := hpool
  rw [hinit]
  refine ⟨hbuf, hsz, hcount, hlinks, ?_, ?_, fun p => ?_, ?_, ?_, ?_⟩
  · rw [hfree, List.length_map, List.length_reverse, List.length_range]
  · exact fun _ _ => Finset.notMem_empty _
  · simp only [List.mem_map, List.mem_reverse, List.mem_range, Finset.notMem_empty, or_false,
      IsSlice, eq_comm]
  · exact fun _ h => absurd h (Finset.notMem_empty _)
  · exact fun _ h => absurd h (Finset.notMem_empty _)
  · exact Finset.notMem_empty _

/-! ## One call -/

theorem Fresh.notMem {malloc : ℕ} (h : Fresh buf size count single malloc) (hsize : 0 < size) :
    malloc ∉ single := by
  intro hmem
  have hapart := h.single malloc hmem
  unfold Apart at hapart
  omega

theorem Fresh.not_inBlock {malloc : ℕ} (h : Fresh buf size count single malloc)
    (hsize : 0 < size) : ¬(buf ≤ malloc ∧ malloc < buf + size * count) := by
  have hblock := h.block
  omega

/-- `mem_alloc` returns no live node. -/
theorem PoolInv.memAlloc_notMem {malloc : ℕ} (h : PoolInv buf size count pool live single free)
    (hsize : 0 < size) (hfresh : pool.node = none → Fresh buf size count single malloc) :
    (pool.memAlloc malloc).1 ∉ live := by
  unfold PoolHeap.memAlloc
  have hlinks := h.links
  cases hnode : pool.node with
  | some node =>
    rw [hnode] at hlinks
    obtain ⟨rest, rfl, -⟩ := links_some.mp hlinks
    exact h.disjoint node List.mem_cons_self
  | none =>
    have hnew := hfresh hnode
    intro hlive
    rcases (h.nodes malloc).mp (.inr hlive) with hslice | hsingle
    · exact hnew.not_inBlock hsize (hslice.inBlock hsize)
    · exact hnew.notMem hsize hsingle

theorem PoolInv.memAlloc_some {malloc node : ℕ}
    (h : PoolInv buf size count pool live single free) (hnode : pool.node = some node) :
    ∃ free', PoolInv buf size count (pool.memAlloc malloc).2
      (insert (pool.memAlloc malloc).1 live) single free' := by
  have hlinks := h.links
  rw [hnode] at hlinks
  obtain ⟨rest, rfl, hrest⟩ := links_some.mp hlinks
  have hnotMem := (List.nodup_cons.mp hlinks.nodup).1
  unfold PoolHeap.memAlloc
  rw [hnode]
  refine ⟨rest, h.buf_eq, h.size_eq, h.count_eq, hrest, ?_, ?_, ?_, h.outside, h.apart, h.ne_buf⟩
  · show pool.freeCount - 1 = _
    rw [h.freeCount, List.length_cons, BitVec.ofNat_add]
    exact BitVec.add_sub_cancel _ _
  · intro p hp hlive
    rcases Finset.mem_insert.mp hlive with rfl | hlive
    · exact hnotMem hp
    · exact h.disjoint p (List.mem_cons_of_mem _ hp) hlive
  · intro p
    rw [← h.nodes p, Finset.mem_insert, List.mem_cons, or_assoc, or_left_comm]

theorem PoolInv.memAlloc_none {malloc : ℕ} (h : PoolInv buf size count pool live single free)
    (hnode : pool.node = none) (hnew : Fresh buf size count single malloc) :
    PoolInv buf size count (pool.memAlloc malloc).2 (insert (pool.memAlloc malloc).1 live)
      (insert malloc single) [] := by
  have hlinks := h.links
  rw [hnode, links_none] at hlinks
  subst hlinks
  unfold PoolHeap.memAlloc
  rw [hnode]
  refine ⟨h.buf_eq, h.size_eq, h.count_eq, hnode, h.freeCount, ?_, ?_, ?_, ?_, ?_⟩
  · exact fun p hp => absurd hp List.not_mem_nil
  · intro p
    have hp := h.nodes p
    rw [Finset.mem_insert, Finset.mem_insert, or_left_comm, hp, or_left_comm]
  · intro p hp
    rcases Finset.mem_insert.mp hp with rfl | hp
    · exact hnew.block
    · exact h.outside p hp
  · intro p hp q hq hne
    rcases Finset.mem_insert.mp hp with rfl | hp'
    · rcases Finset.mem_insert.mp hq with rfl | hq'
      · exact absurd rfl hne
      · exact hnew.single q hq'
    · rcases Finset.mem_insert.mp hq with rfl | hq'
      · exact (hnew.single p hp').symm
      · exact h.apart p hp' q hq' hne
  · rw [Finset.mem_insert, not_or]
    exact ⟨Ne.symm hnew.ne_buf, h.ne_buf⟩

theorem PoolInv.memAlloc {malloc : ℕ} (h : PoolInv buf size count pool live single free)
    (hfresh : pool.node = none → Fresh buf size count single malloc) :
    ∃ free', PoolInv buf size count (pool.memAlloc malloc).2
      (insert (pool.memAlloc malloc).1 live)
      (if pool.node = none then insert malloc single else single) free' := by
  cases hnode : pool.node with
  | some node => exact h.memAlloc_some hnode
  | none => exact ⟨[], h.memAlloc_none hnode (hfresh hnode)⟩

theorem PoolInv.memFree {data : ℕ} (h : PoolInv buf size count pool live single free)
    (hlive : data ∈ live) :
    PoolInv buf size count (pool.memFree data) (live.erase data) single (data :: free) := by
  have hnotMem : data ∉ free := fun hmem => h.disjoint data hmem hlive
  refine ⟨h.buf_eq, h.size_eq, h.count_eq, h.links.push hnotMem, ?_, ?_, ?_, h.outside, h.apart,
    h.ne_buf⟩
  · show pool.freeCount + 1 = _
    rw [h.freeCount, List.length_cons, BitVec.ofNat_add]
    rfl
  · intro p hp hmem
    obtain ⟨hne, hmem⟩ := Finset.mem_erase.mp hmem
    rcases List.mem_cons.mp hp with heq | hp
    · exact hne heq
    · exact h.disjoint p hp hmem
  · intro p
    rw [← h.nodes p, List.mem_cons, Finset.mem_erase]
    by_cases hp : p = data
    · subst hp
      exact iff_of_true (.inl (.inl rfl)) (.inr hlive)
    · simp only [hp, false_or, ne_eq, not_false_eq_true, true_and]

theorem PoolInv.write {next : ℕ → Option ℕ} (h : PoolInv buf size count pool live single free)
    (hkeep : ∀ p ∉ live, next p = pool.next p) :
    PoolInv buf size count { pool with next := next } live single free :=
  ⟨h.buf_eq, h.size_eq, h.count_eq, h.links.congr fun p hp => hkeep p (h.disjoint p hp),
    h.freeCount, h.disjoint, h.nodes, h.outside, h.apart, h.ne_buf⟩

/-- **After every run the nodes are free or live, and not both.** -/
theorem PoolRun.inv (h : PoolRun buf size count pool live single) (hsize : 0 < size) :
    ∃ free, PoolInv buf size count pool live single free := by
  induction h with
  | init next => exact ⟨_, mempoolInit_inv hsize next⟩
  | alloc _ hfresh ih =>
    obtain ⟨free, hinv⟩ := ih
    exact hinv.memAlloc hfresh
  | free _ hlive ih =>
    obtain ⟨free, hinv⟩ := ih
    exact ⟨_, hinv.memFree hlive⟩
  | write _ hkeep ih =>
    obtain ⟨free, hinv⟩ := ih
    exact ⟨free, hinv.write hkeep⟩

/-! ## The end of the pool -/

theorem releaseLoop_eq {n : ℕ} {p : Option ℕ} (h : Links pool.next p free)
    (hn : free.length ≤ n) :
    pool.releaseLoop n p = some (free.filter fun p => ¬pool.inBlock p) := by
  induction free generalizing n p with
  | nil =>
    obtain rfl : p = none := h
    cases n <;> rfl
  | cons a free ih =>
    obtain ⟨rfl, h⟩ := h
    cases n with
    | zero => exact absurd hn (Nat.not_succ_le_zero _)
    | succ n =>
      rw [PoolHeap.releaseLoop, ih h (Nat.le_of_succ_le_succ hn), Option.map_some]
      by_cases hblock : pool.inBlock a
      · rw [if_pos hblock, List.filter_cons_of_neg (by simpa using hblock)]
      · rw [if_neg hblock, List.filter_cons_of_pos (by simpa using hblock)]

/-- A free node is outside of the block exactly when `malloc` has made it. -/
theorem PoolInv.not_inBlock_iff (h : PoolInv buf size count pool live single free)
    (hsize : 0 < size) {p : ℕ} (hp : p ∈ free) : ¬pool.inBlock p ↔ p ∈ single := by
  constructor
  · intro hblock
    refine ((h.nodes p).mp (.inl hp)).resolve_left fun hslice => hblock ?_
    rw [PoolHeap.inBlock, h.buf_eq, h.size_eq, h.count_eq]
    exact hslice.inBlock hsize
  · intro hsingle
    have hout := h.outside p hsingle
    rw [PoolHeap.inBlock, h.buf_eq, h.size_eq, h.count_eq]
    omega

/-- Two nodes of a pool do not overlap; so their links do not, when a node has room for one. -/
theorem PoolInv.nodes_apart (h : PoolInv buf size count pool live single free) {p q : ℕ}
    (hp : p ∈ free ∨ p ∈ live) (hq : q ∈ free ∨ q ∈ live) (hne : p ≠ q) : Apart size p q := by
  have hslices : ∀ i j, i < j → buf + size * i + size ≤ buf + size * j := fun i j hij => by
    rw [Nat.add_assoc]
    exact Nat.add_le_add_left (Nat.mul_le_mul_left size hij) buf
  have hin : ∀ i < count, buf + size * i + size ≤ buf + size * count :=
    fun i hi => hslices i count hi
  rcases (h.nodes p).mp hp with ⟨i, hi, rfl⟩ | hp
  · rcases (h.nodes q).mp hq with ⟨j, hj, rfl⟩ | hq
    · rcases Nat.lt_or_gt_of_ne (fun hij : i = j => hne (hij ▸ rfl)) with hlt | hgt
      · exact .inl (hslices i j hlt)
      · exact .inr (hslices j i hgt)
    · have hout := h.outside q hq
      have hslice := hin i hi
      unfold Apart
      omega
  · rcases (h.nodes q).mp hq with ⟨j, hj, rfl⟩ | hq
    · have hout := h.outside p hp
      have hslice := hin j hj
      unfold Apart
      omega
    · exact h.apart p hp q hq hne

/-- What is true of a pool and its live nodes: the list of the free nodes, the node that is taken
next, the counter, and what the end of the pool frees. -/
structure PoolSound (buf size count : ℕ) (pool : PoolHeap) (live single : Finset ℕ) : Prop where
  free : ∃ free, Links pool.next pool.node free ∧ free.Nodup ∧ (∀ p ∈ free, p ∉ live) ∧
    (∀ p q, p ∈ free ∨ p ∈ live → q ∈ free ∨ q ∈ live → p ≠ q → Apart size p q) ∧
    pool.freeCount = .ofNat 32 free.length ∧
    ∀ n, free.length ≤ n → ∃ freed, pool.mempoolRelease n = some (freed ++ [buf]) ∧
      freed.Nodup ∧ buf ∉ freed ∧ ∀ p, p ∈ freed ↔ p ∈ free ∧ p ∈ single
  alloc : ∀ malloc, (pool.node = none → Fresh buf size count single malloc) →
    (pool.memAlloc malloc).1 ∉ live

/-- **After every run the free nodes are distinct and not live, they are counted, no live node is
returned again, and the end of the pool frees the block once, and of the free nodes those that
`malloc` has made.** -/
theorem PoolRun.poolSound (h : PoolRun buf size count pool live single) (hsize : 8 ≤ size) :
    PoolSound buf size count pool live single := by
  have hpos : 0 < size := by omega
  obtain ⟨free, hinv⟩ := h.inv hpos
  refine ⟨⟨free, hinv.links, hinv.links.nodup, hinv.disjoint,
    fun p q hp hq => hinv.nodes_apart hp hq, hinv.freeCount, fun n hn => ?_⟩,
    fun malloc hfresh => hinv.memAlloc_notMem hpos hfresh⟩
  have hmem : ∀ p, (p ∈ free.filter fun p => ¬pool.inBlock p) ↔ p ∈ free ∧ p ∈ single := by
    intro p
    rw [List.mem_filter, decide_eq_true_iff]
    exact and_congr_right fun hp => hinv.not_inBlock_iff hpos hp
  refine ⟨_, ?_, hinv.links.nodup.filter _, fun hbuf => ?_, hmem⟩
  · rw [PoolHeap.mempoolRelease, releaseLoop_eq hinv.links hn, Option.map_some, hinv.buf_eq]
  · exact hinv.ne_buf ((hmem buf).mp hbuf).2

/-- A pool of one node from which two were taken, and the node of its block given back. -/
theorem PoolRun.poolSound_back : PoolSound 16 8 1
    ((((PoolHeap.mempoolInit 16 8 1 fun _ => none).memAlloc 0).2.memAlloc 64).2.memFree 16)
    {64} {64} := by
  have hone : PoolRun 16 8 1 ((PoolHeap.mempoolInit 16 8 1 fun _ => none).memAlloc 0).2 {16} ∅ :=
    .alloc (.init _) fun h => absurd h (by decide)
  have htwo : PoolRun 16 8 1
      (((PoolHeap.mempoolInit 16 8 1 fun _ => none).memAlloc 0).2.memAlloc 64).2 {64, 16} {64} :=
    .alloc hone fun _ =>
      ⟨by decide, .inr (by decide), fun p hp => absurd hp (Finset.notMem_empty p)⟩
  have hback := @PoolRun.free _ _ _ _ _ _ 16 htwo (by decide)
  have hlive : ({64, 16} : Finset ℕ).erase 16 = {64} := by decide
  rw [hlive] at hback
  exact PoolRun.poolSound hback (by decide)

/-! ## The pool of the parser -/

/-- The nodes with the numbers in the pool of the parser are the free nodes here. -/
def Numbered (addr : ℕ → ℕ) (q : Mempool) (pool : PoolHeap) : Prop :=
  Links pool.next pool.node (q.ids.map addr)

variable {addr : ℕ → ℕ} {q : Mempool}

theorem numbered_mempoolInit (hsize : 0 < size) (next : ℕ → Option ℕ) :
    Numbered (fun i => buf + size * i) mempoolInit (.mempoolInit buf size mempoolCount next) := by
  rw [Numbered, mempoolInit_ids]
  exact (mempoolInit_inv hsize next).links

theorem Numbered.memAlloc {malloc : ℕ} (h : Numbered addr q pool)
    (hnew : q.node = [] → malloc = addr q.next) (heap : ℕ → ℕ) :
    (pool.memAlloc malloc).1 = addr (memAlloc heap q).1.id ∧
      Numbered addr (Lre.memAlloc heap q).2 (pool.memAlloc malloc).2 := by
  obtain ⟨node, next⟩ := q
  cases node with
  | nil =>
    have hnode : pool.node = none := h
    rw [PoolHeap.memAlloc, hnode]
    exact ⟨hnew rfl, h⟩
  | cons m rest =>
    obtain ⟨hnode, hrest⟩ := h
    rw [PoolHeap.memAlloc, hnode]
    exact ⟨rfl, hrest⟩

theorem Numbered.memFree {m : SyntaxNode} (h : Numbered addr q pool)
    (hout : addr m.id ∉ q.ids.map addr) :
    Numbered addr (memFree m q) (pool.memFree (addr m.id)) := h.push hout

end Lre
