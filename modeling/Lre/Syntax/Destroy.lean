import Lre.Linked
import Lre.Syntax.Nodes
import Lre.Syntax.Stores

/-!
# Destroying a tree in memory

`destroy_syntax_tree` walks the lists of a tree while it frees the nodes in them: the successor of a
node is read after the node is back in the pool.

* `NodeHeap`: the words of the nodes, and `node` of the pool.
* `destroySyntaxVal`, `destroySyntaxChilds`, `NodeHeap.destroySyntaxTree`: the source; `none` where
  a word is not what is read from it, or the rounds are used up.
* **`ContentLaid.destroyed`**: on the words of a tree the loops end, and every node is freed once,
  in the order of `SyntaxItems.nodes`.
* **`interpSyntaxParse_destroyed`**: so are the nodes of every parse.
-/

namespace Lre

open Circular Linked

/-! ## The source -/

/-- The memory of the nodes, and `node` of the pool. -/
structure NodeHeap where
  mem : NodeMemory
  node : MemWord

/-- `mem_free`: `next` of a free node is its first word. -/
def NodeHeap.memFree (p : Addr) (h : NodeHeap) : NodeHeap := ⟨h.mem.set p h.node, .ptr p⟩

/-- `list_first_entry` and `next` of an entry. -/
def NodeHeap.next (h : NodeHeap) (a : Addr) : Option Addr := (h.mem a).addr?

/-- A member of the structure at `p`. -/
def Addr.at (p : Addr) (off : ℕ) : Addr := (p.1, p.2 + off)

/-- `container_of`, for a member at `off`. -/
def Addr.container (p : Addr) (off : ℕ) : Option Addr :=
  if off ≤ p.2 then some (p.1, p.2 - off) else none

mutual

/-- `destroy_syntax_val`, from the entry `pos` of the list at `root` on. -/
def destroySyntaxVal : ℕ → Addr → Addr → NodeHeap → Option NodeHeap
  | 0, _, _, _ => none
  | n + 1, pos, root, h =>
    if pos = root then some h
    else do
      let h ← destroySyntaxValNode n (← pos.container 1) h
      destroySyntaxVal n (← h.next pos) root h

/-- The `switch` of `destroy_syntax_val`. -/
def destroySyntaxValNode : ℕ → Addr → NodeHeap → Option NodeHeap
  | 0, _, _ => none
  | n + 1, node, h =>
    match h.mem node with
    | .type .val => some (h.memFree node)
    | .type .valblock => do
      let exprvb ← node.container 2
      let h ← destroySyntaxVal n (← h.next exprvb) exprvb h
      some (h.memFree exprvb)
    | .type .call => destroySyntaxCall n node h
    | .type _ => some h
    | _ => none

/-- `destroy_syntax_call`. -/
def destroySyntaxCall : ℕ → Addr → NodeHeap → Option NodeHeap
  | 0, _, _ => none
  | n + 1, call, h => do
    let h ← destroySyntaxArgs n call 0 h
    some (h.memFree call)

/-- The loop over argument slots in `destroy_syntax_call` and `destroy_syntax_func`; `count` is read
in every round. -/
def destroySyntaxArgs : ℕ → Addr → ℕ → NodeHeap → Option NodeHeap
  | 0, _, _, _ => none
  | n + 1, owner, i, h =>
    match h.mem (owner.at 29) with
    | .int count =>
      if i < count then do
        let root := owner.at (6 + 3 * i)
        let h ← destroySyntaxVal n (← h.next root) root h
        destroySyntaxArgs n owner (i + 1) h
      else some h
    | _ => none

end

/-- `destroy_syntax_expr`. -/
def destroySyntaxExpr (n : ℕ) (expr : Addr) (h : NodeHeap) : Option NodeHeap := do
  let h ← destroySyntaxVal n (← h.next (expr.at 6)) (expr.at 6) h
  some (h.memFree expr)

mutual

/-- `destroy_syntax_childs`, from the entry `pos` of the list at `root` on. -/
def destroySyntaxChilds : ℕ → Addr → Addr → NodeHeap → Option NodeHeap
  | 0, _, _, _ => none
  | n + 1, pos, root, h =>
    if pos = root then some h
    else do
      let h ← destroySyntaxChild n (← pos.container 1) h
      destroySyntaxChilds n (← h.next pos) root h

/-- The `switch` of `destroy_syntax_childs`. -/
def destroySyntaxChild : ℕ → Addr → NodeHeap → Option NodeHeap
  | 0, _, _ => none
  | n + 1, node, h =>
    match h.mem node with
    | .type .func => destroySyntaxFunc n node h
    | .type .expr => destroySyntaxExpr n node h
    | .type .block => destroySyntaxBlock n node h
    | .type _ => some h
    | _ => none

/-- `destroy_syntax_func`. -/
def destroySyntaxFunc : ℕ → Addr → NodeHeap → Option NodeHeap
  | 0, _, _ => none
  | n + 1, func, h => do
    let h ← destroySyntaxArgs n func 0 h
    let h ← destroySyntaxChilds n (← h.next (func.at 30)) (func.at 30) h
    some (h.memFree func)

/-- `destroy_syntax_block`. -/
def destroySyntaxBlock : ℕ → Addr → NodeHeap → Option NodeHeap
  | 0, _, _ => none
  | n + 1, block, h => do
    let h ← destroySyntaxChilds n (← h.next (block.at 4)) (block.at 4) h
    some (h.memFree block)

end

/-- `destroy_syntax_content`. -/
def destroySyntaxContent (n : ℕ) (content : Addr) (h : NodeHeap) : Option NodeHeap := do
  let h ← destroySyntaxChilds n (← h.next content) content h
  some (h.memFree content)

/-- `destroy_syntax_tree`. -/
def NodeHeap.destroySyntaxTree (n : ℕ) (tree : Option Addr) (h : NodeHeap) : Option NodeHeap :=
  match tree with
  | none => some h
  | some tree => do destroySyntaxContent n (← tree.container 0) h

/-! ## Freed nodes -/

/-- The nodes are freed, one after the other. -/
def NodeHeap.freeAll (nodes : List SyntaxNode) (h : NodeHeap) : NodeHeap :=
  nodes.foldl (fun h m => h.memFree (m.id, 0)) h

variable {name : Lexeme → MemWord → Prop} {h : NodeHeap} {nodes : List SyntaxNode} {root : Addr}

theorem NodeHeap.freeAll_append (nodes nodes' : List SyntaxNode) (h : NodeHeap) :
    h.freeAll (nodes ++ nodes') = (h.freeAll nodes).freeAll nodes' := List.foldl_append ..

theorem NodeHeap.freeAll_mem {w : Addr} (hw : w.2 ≠ 0 ∨ w.1 ∉ nodeIds nodes) :
    (h.freeAll nodes).mem w = h.mem w := by
  induction nodes generalizing h with
  | nil => rfl
  | cons m nodes ih =>
    have hne : w ≠ (m.id, 0) := by
      rintro rfl
      rcases hw with hw | hw
      · exact hw rfl
      · exact hw (.head _)
    have htail : w.2 ≠ 0 ∨ w.1 ∉ nodeIds nodes := hw.imp_right fun h hmem => h (.tail _ hmem)
    exact (ih htail).trans (NodeMemory.set_of_ne hne)

theorem NodeHeap.freeAll_off {m k : ℕ} (hk : k ≠ 0) : (h.freeAll nodes).mem (m, k) = h.mem (m, k) :=
  freeAll_mem (.inl hk)

theorem NodeHeap.freeAll_block {ids : List ℕ} (hout : ∀ id ∈ nodeIds nodes, ∀ id' ∈ ids, id ≠ id') :
    ∀ w : Addr, w.1 ∈ ids → (h.freeAll nodes).mem w = h.mem w :=
  fun _ hw => freeAll_mem (.inr fun hmem => hout _ hmem _ hw rfl)

/-! ## Lists -/

/-- From `a` on, the words lead through the entries. -/
def Follows (h : NodeHeap) (a : Addr) (entries : List Addr) (root : Addr) : Prop :=
  Leads (fun p q => h.mem p = .ptr q) a entries root

theorem follows_of_ring {entries : List Addr} (hring : listHead.Ring h.mem root entries) :
    Follows h root entries root := hring.links.imp fun _ _ _ _ hlink => hlink.1

theorem Follows.next {a : Addr} {entries : List Addr} (hfollows : Follows h a entries root) :
    h.next a = some (entries.headD root) := by
  rw [NodeHeap.next, hfollows.first]
  rfl

theorem Follows.freeAll {a : Addr} {entries : List Addr} (hfollows : Follows h a entries root)
    (hoff : ∀ p ∈ a :: entries, p.2 ≠ 0) : Follows (h.freeAll nodes) a entries root :=
  hfollows.imp fun p hp _ _ hlink => (NodeHeap.freeAll_mem (.inl (hoff p hp))).trans hlink

theorem SyntaxVals.entries_off : ∀ {vs : SyntaxVals SyntaxNode} {a : Addr}, a ∈ vs.entries → a.2 ≠ 0
  | .cons node _ rest, a, h => by
    rcases List.mem_cons.mp h with rfl | h
    · exact Nat.succ_ne_zero _
    · exact SyntaxVals.entries_off h

theorem SyntaxItems.entries_off : ∀ {items : SyntaxItems SyntaxNode} {a : Addr},
    a ∈ items.entries → a.2 ≠ 0
  | .cons node _ rest, a, h => by
    rcases List.mem_cons.mp h with rfl | h
    · exact Nat.succ_ne_zero _
    · exact SyntaxItems.entries_off h

/-! ## Rounds -/

/-- With enough rounds the loop ends, with this result. -/
def Ends {α : Type} (run : ℕ → Option α) (a : α) : Prop := ∃ n₀, ∀ n ≥ n₀, run n = some a

section Ends

variable {α β : Type} {run : ℕ → Option α} {a : α} {b : β}

theorem Ends.const (h : ∀ n, run n = some a) : Ends run a := ⟨0, fun n _ => h n⟩

theorem Ends.succ {run' : ℕ → Option α} (h : Ends run a) (hsucc : ∀ n, run' (n + 1) = run n) :
    Ends run' a := by
  obtain ⟨n₀, hn₀⟩ := h
  refine ⟨n₀ + 1, fun n hn => ?_⟩
  cases n with
  | zero => exact absurd hn (Nat.not_succ_le_zero n₀)
  | succ n => exact (hsucc n).trans (hn₀ n (Nat.le_of_succ_le_succ hn))

theorem Ends.bind {f : ℕ → α → Option β} (h : Ends run a) (hf : Ends (fun n => f n a) b) :
    Ends (fun n => run n >>= f n) b := by
  obtain ⟨n₁, hn₁⟩ := h
  obtain ⟨n₂, hn₂⟩ := hf
  refine ⟨max n₁ n₂, fun n hn => ?_⟩
  show run n >>= f n = some b
  rw [hn₁ n (le_of_max_le_left hn)]
  exact hn₂ n (le_of_max_le_right hn)

theorem Ends.map {f : α → β} (h : Ends run a) :
    Ends (fun n => run n >>= fun a => some (f a)) (f a) :=
  h.bind (.const fun _ => rfl)

end Ends

/-! ## Values -/

theorem Addr.at_zero (m off : ℕ) : Addr.at (m, 0) off = (m, off) := by rw [Addr.at, Nat.zero_add]

theorem Addr.container_entry (node : Addr) : Addr.container (node.1, node.2 + 1) 1 = some node := by
  rw [Addr.container, if_pos (Nat.le_add_left 1 _), Nat.add_sub_cancel]

theorem Ends.list {entries : List Addr} {f : ℕ → Addr → Option NodeHeap} {h' : NodeHeap}
    (hring : listHead.Ring h.mem root entries)
    (hrun : Ends (fun n => f n (entries.headD root)) h') :
    Ends (fun n => h.next root >>= f n) h' := by
  rw [(follows_of_ring hring).next]
  exact hrun

theorem destroySyntaxArgs_succ {n m i count : ℕ} (hcount : h.mem (m, 29) = .int count)
    (hlt : i < count) : destroySyntaxArgs (n + 1) (m, 0) i h =
      (h.next (argRoot m i) >>= fun first => destroySyntaxVal n first (argRoot m i) h) >>= fun h =>
        destroySyntaxArgs n (m, 0) (i + 1) h := by
  rw [destroySyntaxArgs, Addr.at_zero, hcount, Addr.at_zero, bind_assoc]
  exact if_pos hlt

theorem destroySyntaxArgs_end {n m count : ℕ} (hcount : h.mem (m, 29) = .int count) :
    destroySyntaxArgs (n + 1) (m, 0) count h = some h := by
  rw [destroySyntaxArgs, Addr.at_zero, hcount]
  exact if_neg (Nat.lt_irrefl count)

theorem destroySyntaxVal_end (n : ℕ) : destroySyntaxVal (n + 1) root root h = some h := if_pos rfl

theorem args_freed_nil {m count : ℕ} (hcount : h.mem (m, 29) = .int count)
    (hle : count ≤ syntaxArgMax) (hslots : SyntaxArgs.nil.Laid name h.mem m 0) (i : ℕ)
    (hi : i ≤ count) : Ends (fun n => destroySyntaxArgs n (m, 0) i h) h := by
  induction hi using Nat.decreasingInduction with
  | self => exact (Ends.const fun _ => rfl).succ fun n => destroySyntaxArgs_end hcount
  | of_succ i hlt ih =>
    have hring := hslots i (Nat.zero_le i) (Nat.lt_of_lt_of_le hlt hle)
    have hvals : Ends (fun n => destroySyntaxVal n (argRoot m i) (argRoot m i) h) h :=
      (Ends.const fun _ => rfl).succ fun n => destroySyntaxVal_end n
    exact ((Ends.list (f := fun n first => destroySyntaxVal n first (argRoot m i) h) hring
      hvals).bind ih).succ fun n => destroySyntaxArgs_succ hcount hlt

mutual

theorem SyntaxVal.freed : ∀ (node : SyntaxVal SyntaxNode) {h : NodeHeap}, node.Laid name h.mem →
    (nodeIds node.nodes).Nodup →
    Ends (fun n => destroySyntaxValNode n node.node h) (h.freeAll node.nodes)
  | .val m val isvar, h, hlaid, _ => by
    refine (Ends.const fun _ => rfl).succ fun n => ?_
    rw [destroySyntaxValNode, SyntaxVal.node, hlaid.1]
    rfl
  | .valblock m childs, h, hlaid, hnodup => by
    rw [SyntaxVal.nodes, nodeIds_append] at hnodup
    obtain ⟨htype, hring, hlaid⟩ := hlaid
    have hchilds := childs.freed hlaid (List.nodup_append.mp hnodup).1 (follows_of_ring hring)
      (List.nodup_cons.mp hring.nodup).1
    rw [SyntaxVal.nodes, NodeHeap.freeAll_append]
    refine (Ends.list (f := fun n first => destroySyntaxVal n first (m.id, 0) h) hring
      hchilds).map.succ fun n => ?_
    rw [destroySyntaxValNode, SyntaxVal.node, htype, bind_assoc]
    rfl
  | .call m keyword args, h, hlaid, hnodup => by
    rw [SyntaxVal.nodes, nodeIds_append] at hnodup
    obtain ⟨htype, -, hcount, hlaid⟩ := hlaid
    have hargs := args.freed (i := 0) hlaid (List.nodup_append.mp hnodup).1
      (by rwa [Nat.zero_add])
    rw [SyntaxVal.nodes, NodeHeap.freeAll_append]
    have hcall : Ends (fun n => destroySyntaxCall n (m.id, 0) h)
        ((h.freeAll args.nodes).freeAll [m]) := hargs.map.succ fun n => rfl
    refine hcall.succ fun n => ?_
    rw [destroySyntaxValNode, SyntaxVal.node, htype]

theorem SyntaxVals.freed : ∀ (vs : SyntaxVals SyntaxNode) {h : NodeHeap} {a root : Addr},
    vs.Laid name h.mem → (nodeIds vs.nodes).Nodup → Follows h a vs.entries root →
    root ∉ vs.entries →
    Ends (fun n => destroySyntaxVal n (vs.entries.headD root) root h) (h.freeAll vs.nodes)
  | .nil, h, a, root, _, _, _, _ =>
    (Ends.const fun _ => rfl).succ fun n => destroySyntaxVal_end n
  | .cons node opt rest, h, a, root, hlaid, hnodup, hfollows, hroot => by
    rw [SyntaxVals.nodes, nodeIds_append] at hnodup
    obtain ⟨hnodeNodup, hrestNodup, hout⟩ := List.nodup_append.mp hnodup
    obtain ⟨hne, hrestRoot⟩ := not_or.mp (List.mem_cons.not.mp hroot)
    obtain ⟨hnode, -, hrest⟩ := hlaid
    have hkeep := NodeHeap.freeAll_block (h := h) hout
    have hnext : Follows (h.freeAll node.nodes) node.entry rest.entries root :=
      Follows.freeAll hfollows.2 fun p hp => @SyntaxVals.entries_off (.cons node opt rest) _ hp
    have hmore := rest.freed (hrest.keep hrestNodup fun w hw _ => hkeep w hw) hrestNodup
      hnext hrestRoot
    rw [SyntaxVals.nodes, NodeHeap.freeAll_append]
    -- the successor is read when the node is free
    refine ((node.freed hnode hnodeNodup).bind (f := fun n h => do
      destroySyntaxVal n (← h.next node.entry) root h) ?_).succ fun n => ?_
    · rw [hnext.next]
      exact hmore
    · show destroySyntaxVal (n + 1) node.entry root h = _
      rw [destroySyntaxVal, if_neg fun heq => hne heq.symm, SyntaxVal.entry,
        Addr.container_entry]
      rfl

theorem SyntaxArgs.freed : ∀ (args : SyntaxArgs SyntaxNode) {h : NodeHeap} {m i : ℕ},
    args.Laid name h.mem m i → (nodeIds args.nodes).Nodup →
    h.mem (m, 29) = .int (i + args.count) →
    Ends (fun n => destroySyntaxArgs n (m, 0) i h) (h.freeAll args.nodes)
  | .nil, h, m, i, _, _, hcount =>
    (Ends.const fun _ => rfl).succ fun n => destroySyntaxArgs_end hcount
  | .cons key valchilds rest, h, m, i, hlaid, hnodup, hcount => by
    rw [SyntaxArgs.nodes, nodeIds_append] at hnodup
    obtain ⟨hvalsNodup, hrestNodup, hout⟩ := List.nodup_append.mp hnodup
    obtain ⟨-, -, hring, hvals, hrest⟩ := hlaid
    have hlist := valchilds.freed hvals hvalsNodup (follows_of_ring hring)
      (List.nodup_cons.mp hring.nodup).1
    have hcount' : (h.freeAll valchilds.nodes).mem (m, 29) = .int (i + 1 + rest.count) := by
      rw [NodeHeap.freeAll_off (by decide), hcount, SyntaxArgs.count, Nat.add_right_comm,
        Nat.add_assoc]
    have hmore := rest.freed (hrest.keep hrestNodup (NodeHeap.freeAll_block hout)
      fun k hle _ => NodeHeap.freeAll_off (by omega)) hrestNodup hcount'
    rw [SyntaxArgs.nodes, NodeHeap.freeAll_append]
    have hlt : i < i + (SyntaxArgs.cons key valchilds rest).count :=
      Nat.lt_add_of_pos_right (Nat.succ_pos _)
    exact ((Ends.list (f := fun n first => destroySyntaxVal n first (argRoot m i) h) hring
      hlist).bind hmore).succ fun n => destroySyntaxArgs_succ hcount hlt

end

/-! ## Items -/

/-- Without a list of its own a function has empty slots. -/
theorem funcArgs_freed {args : Option (SyntaxArgs SyntaxNode)} {m : ℕ}
    (hlaid : funcArgsLaid name h.mem m args) (hnodup : (nodeIds (funcArgsNodes args)).Nodup) :
    Ends (fun n => destroySyntaxArgs n (m, 0) 0 h) (h.freeAll (funcArgsNodes args)) := by
  cases args with
  | none =>
    obtain ⟨⟨count, hle, hcount⟩, hslots⟩ := hlaid
    exact args_freed_nil hcount hle hslots 0 (Nat.zero_le count)
  | some args =>
    obtain ⟨hcount, hargs⟩ := hlaid
    exact args.freed hargs hnodup (by rwa [Nat.zero_add])

theorem destroySyntaxChilds_end (n : ℕ) : destroySyntaxChilds (n + 1) root root h = some h :=
  if_pos rfl

mutual

theorem SyntaxItem.freed : ∀ (node : SyntaxItem SyntaxNode) {h : NodeHeap}, node.Laid name h.mem →
    (nodeIds node.nodes).Nodup →
    Ends (fun n => destroySyntaxChild n node.node h) (h.freeAll node.nodes)
  | .func m keyword args body, h, hlaid, hnodup => by
    rw [SyntaxItem.nodes, nodeIds_append, nodeIds_append] at hnodup
    obtain ⟨hargsNodup, hbodyNodup, hout⟩ := List.nodup_append.mp (List.nodup_append.mp hnodup).1
    obtain ⟨htype, -, hargs, hring, hbody⟩ := hlaid
    have hkeep := NodeHeap.freeAll_block (h := h) hout
    have hring' : listHead.Ring (h.freeAll (funcArgsNodes args)).mem (m.id, 30) body.entries :=
      ring_keep_of_ids hring SyntaxItems.entries_mem hkeep (NodeHeap.freeAll_off (by decide))
        (NodeHeap.freeAll_off (k := 31) (by decide))
    have hchilds := body.freed (hbody.keep hbodyNodup fun w hw _ => hkeep w hw) hbodyNodup
      (follows_of_ring hring') (List.nodup_cons.mp hring'.nodup).1
    rw [SyntaxItem.nodes, NodeHeap.freeAll_append, NodeHeap.freeAll_append]
    have hlist := Ends.list (f := fun n first =>
      destroySyntaxChilds n first (m.id, 30) (h.freeAll (funcArgsNodes args))) hring' hchilds
    have hfunc : Ends (fun n => destroySyntaxFunc n (m.id, 0) h)
        (((h.freeAll (funcArgsNodes args)).freeAll body.nodes).freeAll [m]) := by
      refine ((funcArgs_freed hargs hargsNodup).bind (f := fun n h => do
        let h ← destroySyntaxChilds n (← h.next (m.id, 30)) (m.id, 30) h
        some (h.memFree (m.id, 0))) ?_).succ fun n => rfl
      simp only [← bind_assoc]
      exact hlist.map
    refine hfunc.succ fun n => ?_
    rw [destroySyntaxChild, SyntaxItem.node, htype]
  | .block m negative childs, h, hlaid, hnodup => by
    rw [SyntaxItem.nodes, nodeIds_append] at hnodup
    obtain ⟨htype, -, hring, hlaid⟩ := hlaid
    have hchilds := childs.freed hlaid (List.nodup_append.mp hnodup).1 (follows_of_ring hring)
      (List.nodup_cons.mp hring.nodup).1
    rw [SyntaxItem.nodes, NodeHeap.freeAll_append]
    have hblock : Ends (fun n => destroySyntaxBlock n (m.id, 0) h)
        ((h.freeAll childs.nodes).freeAll [m]) := by
      refine (Ends.list (f := fun n first => destroySyntaxChilds n first (m.id, 4) h) hring
        hchilds).map.succ fun n => ?_
      rw [destroySyntaxBlock, Addr.at_zero, bind_assoc]
      rfl
    refine hblock.succ fun n => ?_
    rw [destroySyntaxChild, SyntaxItem.node, htype]
  | .expr m key opt valchilds, h, hlaid, hnodup => by
    rw [SyntaxItem.nodes, nodeIds_append] at hnodup
    obtain ⟨htype, -, -, hring, hlaid⟩ := hlaid
    have hvals := valchilds.freed hlaid (List.nodup_append.mp hnodup).1 (follows_of_ring hring)
      (List.nodup_cons.mp hring.nodup).1
    rw [SyntaxItem.nodes, NodeHeap.freeAll_append]
    refine (Ends.list (f := fun n first => destroySyntaxVal n first (m.id, 6) h) hring
      hvals).map.succ fun n => ?_
    rw [destroySyntaxChild, SyntaxItem.node, htype, bind_assoc]
    rfl

theorem SyntaxItems.freed : ∀ (items : SyntaxItems SyntaxNode) {h : NodeHeap} {a root : Addr},
    items.Laid name h.mem → (nodeIds items.nodes).Nodup → Follows h a items.entries root →
    root ∉ items.entries →
    Ends (fun n => destroySyntaxChilds n (items.entries.headD root) root h)
      (h.freeAll items.nodes)
  | .nil, h, a, root, _, _, _, _ =>
    (Ends.const fun _ => rfl).succ fun n => destroySyntaxChilds_end n
  | .cons node opt rest, h, a, root, hlaid, hnodup, hfollows, hroot => by
    rw [SyntaxItems.nodes, nodeIds_append] at hnodup
    obtain ⟨hnodeNodup, hrestNodup, hout⟩ := List.nodup_append.mp hnodup
    obtain ⟨hne, hrestRoot⟩ := not_or.mp (List.mem_cons.not.mp hroot)
    obtain ⟨hnode, -, hrest⟩ := hlaid
    have hkeep := NodeHeap.freeAll_block (h := h) hout
    have hnext : Follows (h.freeAll node.nodes) node.entry rest.entries root :=
      Follows.freeAll hfollows.2 fun p hp =>
        @SyntaxItems.entries_off (.cons node opt rest) _ hp
    have hmore := rest.freed (hrest.keep hrestNodup fun w hw _ => hkeep w hw) hrestNodup
      hnext hrestRoot
    rw [SyntaxItems.nodes, NodeHeap.freeAll_append]
    refine ((node.freed hnode hnodeNodup).bind (f := fun n h => do
      destroySyntaxChilds n (← h.next node.entry) root h) ?_).succ fun n => ?_
    · rw [hnext.next]
      exact hmore
    · show destroySyntaxChilds (n + 1) node.entry root h = _
      rw [destroySyntaxChilds, if_neg fun heq => hne heq.symm, SyntaxItem.entry,
        Addr.container_entry]
      rfl

end

/-! ## The tree and the pool -/

/-- The list of free nodes, in their first words. -/
def FreeList (h : NodeHeap) (pool : Mempool) : Prop :=
  Links h.next h.node.addr? (pool.ids.map fun id => (id, 0))

theorem FreeList.push {pool : Mempool} {m : SyntaxNode} (hfree : FreeList h pool)
    (hm : m.id ∉ pool.ids) : FreeList (h.memFree (m.id, 0)) (memFree m pool) := by
  have hpush := Links.push hfree (a := (m.id, 0)) fun hmem => by
    obtain ⟨id, hid, heq⟩ := List.mem_map.mp hmem
    exact hm ((Prod.mk.inj heq).1 ▸ hid)
  have hnext : (h.memFree (m.id, 0)).next = Function.update h.next (m.id, 0) h.node.addr? :=
    funext fun a => Function.apply_update (fun _ => MemWord.addr?) h.mem (m.id, 0) h.node a
  rw [FreeList, hnext]
  exact hpush

theorem FreeList.freeAll {pool : Mempool} (hfree : FreeList h pool)
    (hnodup : (nodeIds nodes ++ pool.ids).Nodup) :
    FreeList (h.freeAll nodes) (nodes.foldl (fun pool m => memFree m pool) pool) := by
  induction nodes generalizing h pool with
  | nil => exact hfree
  | cons m nodes ih =>
    obtain ⟨hm, hrest⟩ := List.nodup_cons.mp hnodup
    obtain ⟨hmnodes, hmpool⟩ := not_or.mp (List.mem_append.not.mp hm)
    have hperm :
        (nodeIds nodes ++ (memFree m pool).ids).Perm (m.id :: (nodeIds nodes ++ pool.ids)) :=
      List.perm_middle
    exact ih (FreeList.push hfree hmpool) (hperm.nodup_iff.mpr hnodup)

/-- **The loops end on the words of a tree, and every node of it is freed once.** -/
theorem ContentLaid.destroyed {m : SyntaxNode} {tree : SyntaxItems SyntaxNode} {pool : Mempool}
    (hlaid : ContentLaid name h.mem m tree) (hfree : FreeList h pool)
    (hnodup : (nodeIds (tree.nodes ++ [m]) ++ pool.ids).Nodup) :
    Ends (fun n => h.destroySyntaxTree n (some (m.id, 0))) (h.freeAll (tree.nodes ++ [m])) ∧
      FreeList (h.freeAll (tree.nodes ++ [m])) (destroySyntaxTree m tree pool) := by
  obtain ⟨hring, htree⟩ := hlaid
  refine ⟨?_, hfree.freeAll hnodup⟩
  have hids := (List.nodup_append.mp hnodup).1
  rw [nodeIds_append] at hids
  have hchilds := tree.freed htree (List.nodup_append.mp hids).1 (follows_of_ring hring)
    (List.nodup_cons.mp hring.nodup).1
  rw [NodeHeap.freeAll_append]
  have hlist := (Ends.list (f := fun n first => destroySyntaxChilds n first (m.id, 0) h) hring
    hchilds).map (f := NodeHeap.memFree (m.id, 0))
  simp only [bind_assoc] at hlist
  exact hlist

/-! ## Parses -/

/-- The nodes of a parsed tree are different ones, and none of them is in the pool. -/
theorem interpSyntaxParse_nodup {heap : ℕ → ℕ} {toks : List Token} {pool : Mempool}
    {m : SyntaxNode} {tree : SyntaxItems SyntaxNode} {s : ParseState Mempool}
    (hwf : pool.Wellformed)
    (h : interpSyntaxParse (syntaxMpool heap) toks pool = .ok (some (m, tree), s)) :
    (nodeIds (tree.nodes ++ [m]) ++ s.pool.ids).Nodup := by
  obtain ⟨d, -, lost, -, hacc⟩ := (@interpSyntaxParse_control _ _ _ (poolLedger pool heap) toks pool
    ⟨[], rfl, .refl pool⟩).1 _ s h
  have hnodup := hacc.nodup hwf
  rw [← List.append_assoc] at hnodup
  exact List.nodup_append_comm.mp (List.nodup_append.mp hnodup).1

/-- `f(a=(x)){e==1}`, in nodes of `malloc`. -/
def storedTree : SyntaxItems SyntaxNode :=
  .cons (.func ⟨1, 1⟩ (.ident ['f'])
    (some (.cons (.ident ['a']) (.cons (.valblock ⟨2, 0⟩
      (.cons (.val ⟨3, 0⟩ (.ident ['x']) false) .reserved .nil)) .reserved .nil) .nil))
    (.cons (.expr ⟨4, 0⟩ (.ident ['e']) .equal
      (.cons (.val ⟨5, 0⟩ (.ident ['1']) false) .reserved .nil)) .reserved .nil)) .reserved .nil

theorem interpSyntaxParse_storedTree :
    interpSyntaxParse (syntaxMpool fun _ => 0) storedTree.toks ⟨[], 0⟩ =
      .ok (some (⟨0, 0⟩, storedTree), ⟨[], ⟨[], 6⟩, []⟩) := by decide +kernel

theorem wellformed_nil (next : ℕ) : Mempool.Wellformed ⟨[], next⟩ :=
  ⟨List.nodup_nil, fun _ h => absurd h List.not_mem_nil⟩

theorem saneCounts_zero (ids : List ℕ) : SaneCounts (fun _ => .int 0) ids :=
  fun _ _ => ⟨0, Nat.zero_le _, rfl⟩

/-- **The stores for the tree of a parse lay it out, and write its nodes only.** -/
theorem interpSyntaxParse_stored {heap : ℕ → ℕ} {toks : List Token} {pool : Mempool}
    {m : SyntaxNode} {tree : SyntaxItems SyntaxNode} {s : ParseState Mempool}
    (hwf : pool.Wellformed)
    (h : interpSyntaxParse (syntaxMpool heap) toks pool = .ok (some (m, tree), s))
    (mem : NodeMemory) (hsane : SaneCounts mem (nodeIds tree.nodes)) : ∃ mem',
      contentStore m tree mem = some mem' ∧ ContentLaid IsText mem' m tree ∧
      ∀ w : Addr, w.1 ∉ nodeIds (tree.nodes ++ [m]) → mem' w = mem w :=
  content_stored mem (interpSyntaxParse_fits h)
    (List.nodup_append.mp (interpSyntaxParse_nodup hwf h)).1 hsane

theorem interpSyntaxParse_stored_tree : ∃ mem',
    contentStore ⟨0, 0⟩ storedTree (fun _ => .int 0) = some mem' ∧
    ContentLaid IsText mem' ⟨0, 0⟩ storedTree ∧
    ∀ w : Addr, w.1 ∉ nodeIds (storedTree.nodes ++ [⟨0, 0⟩]) → mem' w = .int 0 :=
  interpSyntaxParse_stored (wellformed_nil 0) interpSyntaxParse_storedTree _ (saneCounts_zero _)

/-- **After a parse the loops end, and leave the pool that `poolAfter` says.** -/
theorem interpSyntaxParse_destroyed {heap : ℕ → ℕ} {toks : List Token} {pool : Mempool}
    {m : SyntaxNode} {tree : SyntaxItems SyntaxNode} {s : ParseState Mempool}
    (hwf : pool.Wellformed)
    (h : interpSyntaxParse (syntaxMpool heap) toks pool = .ok (some (m, tree), s))
    {name : Lexeme → MemWord → Prop} {heap₁ : NodeHeap}
    (hlaid : ContentLaid name heap₁.mem m tree) (hfree : FreeList heap₁ s.pool) : ∃ heap₂,
      Ends (fun n => heap₁.destroySyntaxTree n (some (m.id, 0))) heap₂ ∧
      FreeList heap₂ (poolAfter (some (m, tree), s)) ∧
      ∀ w : Addr, w.2 ≠ 0 ∨ w.1 ∉ nodeIds (tree.nodes ++ [m]) → heap₂.mem w = heap₁.mem w := by
  obtain ⟨hends, hfree'⟩ := hlaid.destroyed hfree (interpSyntaxParse_nodup hwf h)
  exact ⟨_, hends, hfree', fun w hw => NodeHeap.freeAll_mem hw⟩

theorem interpSyntaxParse_destroyed_tree : ∃ heap₁ heap₂ : NodeHeap,
    ContentLaid IsText heap₁.mem ⟨0, 0⟩ storedTree ∧
    Ends (fun n => heap₁.destroySyntaxTree n (some (0, 0))) heap₂ ∧
    FreeList heap₂ (destroySyntaxTree ⟨0, 0⟩ storedTree ⟨[], 6⟩) := by
  obtain ⟨mem, -, hlaid, -⟩ := content_stored (m := ⟨0, 0⟩) (fun _ => .int 0)
    (interpSyntaxParse_fits interpSyntaxParse_storedTree) (by decide) (saneCounts_zero _)
  have hfree : FreeList ⟨mem, .null⟩ ⟨[], 6⟩ := rfl
  obtain ⟨heap₂, hends, hafter, -⟩ := interpSyntaxParse_destroyed (wellformed_nil 0)
    interpSyntaxParse_storedTree hlaid hfree
  exact ⟨⟨mem, .null⟩, heap₂, hlaid, hends, hafter⟩

end Lre
