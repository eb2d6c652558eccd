import Lre.Circular
import Lre.Syntax.Pool

/-!
# Syntax trees in memory

The nodes of a tree as the structures of `interpreter.h`, which are linked through the list heads in
them; on a target with words of 8 bytes.

* `NodeMemory`: a node of the pool is a block of words, an address a block and a word of it.
* `SyntaxVals.store`, `SyntaxItems.store`: the stores that the parser makes for a tree.
* `SyntaxVals.Laid`, `SyntaxItems.Laid`: the words of the tree.
* `SyntaxItems.Laid.keep`: only the words of its nodes matter.
-/

namespace Lre

open Circular

/-! ## NodeMemory -/

/-- A node of the pool, and a word of it. -/
abbrev Addr := ℕ × ℕ

/-- `enum syntax_node_type`. -/
inductive SyntaxNodeType
  | func
  | call
  | block
  | expr
  | val
  | valblock
  deriving DecidableEq

/-- What a word holds. -/
inductive MemWord
  | ptr (p : Addr)
  | null
  | type (type : SyntaxNodeType)
  | sym (opt : Sym)
  | text (x : Lexeme)
  | int (val : ℕ)
  deriving DecidableEq

/-- The words of all nodes. -/
abbrev NodeMemory := Addr → MemWord

/-- The address that a word holds. -/
def MemWord.addr? : MemWord → Option Addr
  | ptr p => some p
  | _ => none

/-- `struct list_head`: `next` in front of `prev`. -/
def listHead : Fields Addr Addr MemWord where
  next := id
  prev p := (p.1, p.2 + 1)
  ptr := .ptr
  read := MemWord.addr?
  next_injective := Function.injective_id
  prev_injective p q h := by
    obtain ⟨hfst, hsnd⟩ := Prod.mk.inj h
    exact Prod.ext hfst (Nat.succ.inj hsnd)
  read_ptr _ := rfl

/-- A store. -/
def NodeMemory.set (mem : NodeMemory) (a : Addr) (word : MemWord) : NodeMemory :=
  Function.update mem a word

/-- `syntax_node_init`. -/
def syntaxNodeInit (node : Addr) (type : SyntaxNodeType) (mem : NodeMemory) : NodeMemory :=
  (mem.set (node.1, node.2 + 3) (.sym .reserved)).set node (.type type)

/-- `syntax_root_init`. -/
def syntaxRootInit (root : Addr) (mem : NodeMemory) : NodeMemory := listHead.init root mem

/-- `syntax_add`. -/
def syntaxAdd (node root : Addr) (mem : NodeMemory) : Option NodeMemory :=
  listHead.addTail (node.1, node.2 + 1) root mem

/-- The list of an argument. -/
def argRoot (m i : ℕ) : Addr := (m, 6 + 3 * i)

/-- The loop over argument slots in `syntax_func_create` and `syntax_call_create`. -/
def syntaxArgsInit (m : ℕ) (mem : NodeMemory) : NodeMemory :=
  (List.range syntaxArgMax).foldl (fun mem i => syntaxRootInit (argRoot m i) mem) mem

/-- `syntax_content_create`. -/
def syntaxContentCreate (m : ℕ) (mem : NodeMemory) : NodeMemory := syntaxRootInit (m, 0) mem

/-- `syntax_block_create`. -/
def syntaxBlockCreate (m : ℕ) (mem : NodeMemory) : NodeMemory :=
  (syntaxNodeInit (m, 0) .block (syntaxRootInit (m, 4) mem)).set (m, 6) (.int 0)

/-- `syntax_call_create`. -/
def syntaxCallCreate (m : ℕ) (mem : NodeMemory) : NodeMemory :=
  syntaxArgsInit m (syntaxNodeInit (m, 0) .call mem)

/-- `syntax_func_create`. -/
def syntaxFuncCreate (m : ℕ) (mem : NodeMemory) : NodeMemory :=
  syntaxArgsInit m (syntaxNodeInit (m, 0) .func (syntaxRootInit (m, 30) mem))

/-- `syntax_expr_create`. -/
def syntaxExprCreate (m : ℕ) (mem : NodeMemory) : NodeMemory :=
  syntaxRootInit (m, 6) (syntaxNodeInit (m, 0) .expr mem)

/-- `syntax_val_create`. -/
def syntaxValCreate (m : ℕ) (mem : NodeMemory) : NodeMemory := syntaxNodeInit (m, 0) .val mem

/-- `syntax_valblock_create`. -/
def syntaxValblockCreate (m : ℕ) (mem : NodeMemory) : NodeMemory :=
  syntaxNodeInit (m, 2) .valblock (syntaxRootInit (m, 0) mem)

/-! ## The stores of the parser -/

/-- The `struct syntax_node` of a value. -/
def SyntaxVal.node : SyntaxVal SyntaxNode → Addr
  | .val m _ _ => (m.id, 0)
  | .valblock m _ => (m.id, 2)
  | .call m _ _ => (m.id, 0)

/-- The `struct syntax_node` of an item. -/
def SyntaxItem.node : SyntaxItem SyntaxNode → Addr
  | .func m _ _ _ => (m.id, 0)
  | .block m _ _ => (m.id, 0)
  | .expr m _ _ _ => (m.id, 0)

/-- `node->opt = opt`, when there is an operator. -/
def NodeMemory.setOpt (mem : NodeMemory) (node : Addr) (opt : Sym) : NodeMemory :=
  if opt = .reserved then mem else mem.set (node.1, node.2 + 3) (.sym opt)

mutual

/-- The stores of `syntax_parse_val` for a value, and of `syntax_parse_call`. -/
def SyntaxVal.store : SyntaxVal SyntaxNode → NodeMemory → Option NodeMemory
  | .val m val isvar, mem =>
    some (((syntaxValCreate m.id mem).set (m.id, 4) (.text val)).set (m.id, 5) (.int isvar.toNat))
  | .valblock m childs, mem => childs.store (m.id, 0) (syntaxValblockCreate m.id mem)
  | .call m keyword args, mem =>
    args.store m.id 0
      (((syntaxCallCreate m.id mem).set (m.id, 4) (.text keyword)).set (m.id, 29) (.int 0))

/-- The stores of `syntax_parse_val`, for the list at `root`. -/
def SyntaxVals.store : SyntaxVals SyntaxNode → Addr → NodeMemory → Option NodeMemory
  | .nil, _, mem => some mem
  | .cons node opt rest, root, mem => do
    let mem ← node.store mem
    let mem ← syntaxAdd node.node root mem
    rest.store root (mem.setOpt node.node opt)

/-- The stores of the loop in `syntax_parse_func_args`, from the slot `i` of the node `m` on. -/
def SyntaxArgs.store : SyntaxArgs SyntaxNode → ℕ → ℕ → NodeMemory → Option NodeMemory
  | .nil, _, _, mem => some mem
  | .cons key valchilds rest, m, i, mem => do
    let mem ← valchilds.store (argRoot m i) (mem.set (m, 5 + 3 * i) (.text key))
    rest.store m (i + 1) (mem.set (m, 29) (.int (i + 1)))

end

/-- The argument list of a function; the form with a brace does not write the count. -/
def funcArgsStore (args : Option (SyntaxArgs SyntaxNode)) (m : ℕ) (mem : NodeMemory) :
    Option NodeMemory :=
  match args with
  | none => some mem
  | some args => args.store m 0 (mem.set (m, 29) (.int 0))

mutual

/-- The stores of `syntax_parse_func`, `syntax_parse_block` and `syntax_parse_expr`. -/
def SyntaxItem.store : SyntaxItem SyntaxNode → NodeMemory → Option NodeMemory
  | .func m keyword args body, mem => do
    let mem ← funcArgsStore args m.id ((syntaxFuncCreate m.id mem).set (m.id, 4) (.text keyword))
    body.store (m.id, 30) mem
  | .block m negative childs, mem => do
    let mem ← childs.store (m.id, 4) (syntaxBlockCreate m.id mem)
    if negative then some (mem.set (m.id, 6) (.int 1)) else some mem
  | .expr m key opt valchilds, mem =>
    valchilds.store (m.id, 6)
      (((syntaxExprCreate m.id mem).set (m.id, 4) (.text key)).set (m.id, 5) (.sym opt))

/-- The stores of `__syntax_parse_block`, for the list at `root`. -/
def SyntaxItems.store : SyntaxItems SyntaxNode → Addr → NodeMemory → Option NodeMemory
  | .nil, _, mem => some mem
  | .cons node opt rest, root, mem => do
    let mem ← node.store mem
    let mem ← syntaxAdd node.node root mem
    rest.store root (mem.setOpt node.node opt)

end

/-- The stores of `syntax_parse_content`. -/
def contentStore (m : SyntaxNode) (tree : SyntaxItems SyntaxNode) (mem : NodeMemory) :
    Option NodeMemory :=
  tree.store (m.id, 0) (syntaxContentCreate m.id mem)

/-! ## The words of a tree -/

/-- The word of a name after the parse; the semantic analysis puts a stub there. -/
def IsText (x : Lexeme) (word : MemWord) : Prop := word = .text x

/-- The list head of a node. -/
def SyntaxVal.entry (node : SyntaxVal SyntaxNode) : Addr := (node.node.1, node.node.2 + 1)

/-- The list head of a node. -/
def SyntaxItem.entry (node : SyntaxItem SyntaxNode) : Addr := (node.node.1, node.node.2 + 1)

/-- The list heads of the nodes in a list. -/
def SyntaxVals.entries : SyntaxVals SyntaxNode → List Addr
  | .nil => []
  | .cons node _ rest => node.entry :: rest.entries

/-- The list heads of the nodes in a list. -/
def SyntaxItems.entries : SyntaxItems SyntaxNode → List Addr
  | .nil => []
  | .cons node _ rest => node.entry :: rest.entries

mutual

/-- The words of a value, but for the list head that it is linked by. -/
def SyntaxVal.Laid (name : Lexeme → MemWord → Prop) (mem : NodeMemory) :
    SyntaxVal SyntaxNode → Prop
  | .val m val isvar => mem (m.id, 0) = .type .val ∧ name val (mem (m.id, 4)) ∧
      mem (m.id, 5) = .int isvar.toNat
  | .valblock m childs => mem (m.id, 2) = .type .valblock ∧
      listHead.Ring mem (m.id, 0) childs.entries ∧ childs.Laid name mem
  | .call m keyword args => mem (m.id, 0) = .type .call ∧ name keyword (mem (m.id, 4)) ∧
      mem (m.id, 29) = .int args.count ∧ args.Laid name mem m.id 0

/-- The words of the values in a list, but for their list heads. -/
def SyntaxVals.Laid (name : Lexeme → MemWord → Prop) (mem : NodeMemory) :
    SyntaxVals SyntaxNode → Prop
  | .nil => True
  | .cons node opt rest => node.Laid name mem ∧ mem (node.node.1, node.node.2 + 3) = .sym opt ∧
      rest.Laid name mem

/-- The words of the arguments from the slot `i` on; the slots behind them are empty. -/
def SyntaxArgs.Laid (name : Lexeme → MemWord → Prop) (mem : NodeMemory) (m : ℕ) :
    ℕ → SyntaxArgs SyntaxNode → Prop
  | i, .nil => ∀ j, i ≤ j → j < syntaxArgMax → listHead.Ring mem (argRoot m j) []
  | i, .cons key valchilds rest => i < syntaxArgMax ∧ name key (mem (m, 5 + 3 * i)) ∧
      listHead.Ring mem (argRoot m i) valchilds.entries ∧ valchilds.Laid name mem ∧
      rest.Laid name mem m (i + 1)

end

/-- The words of an argument list. Without one the slots are empty, and the count is as it was
before; it is no larger than a list can be. -/
def funcArgsLaid (name : Lexeme → MemWord → Prop) (mem : NodeMemory) (m : ℕ) :
    Option (SyntaxArgs SyntaxNode) → Prop
  | none => (∃ count ≤ syntaxArgMax, mem (m, 29) = .int count) ∧ SyntaxArgs.nil.Laid name mem m 0
  | some args => mem (m, 29) = .int args.count ∧ args.Laid name mem m 0

mutual

/-- The words of an item, but for the list head that it is linked by. -/
def SyntaxItem.Laid (name : Lexeme → MemWord → Prop) (mem : NodeMemory) :
    SyntaxItem SyntaxNode → Prop
  | .func m keyword args body => mem (m.id, 0) = .type .func ∧ name keyword (mem (m.id, 4)) ∧
      funcArgsLaid name mem m.id args ∧ listHead.Ring mem (m.id, 30) body.entries ∧
      body.Laid name mem
  | .block m negative childs => mem (m.id, 0) = .type .block ∧
      mem (m.id, 6) = .int negative.toNat ∧ listHead.Ring mem (m.id, 4) childs.entries ∧
      childs.Laid name mem
  | .expr m key opt valchilds => mem (m.id, 0) = .type .expr ∧ name key (mem (m.id, 4)) ∧
      mem (m.id, 5) = .sym opt ∧ listHead.Ring mem (m.id, 6) valchilds.entries ∧
      valchilds.Laid name mem

/-- The words of the items in a list, but for their list heads. -/
def SyntaxItems.Laid (name : Lexeme → MemWord → Prop) (mem : NodeMemory) :
    SyntaxItems SyntaxNode → Prop
  | .nil => True
  | .cons node opt rest => node.Laid name mem ∧ mem (node.node.1, node.node.2 + 3) = .sym opt ∧
      rest.Laid name mem

end

/-- The words of a content node and its tree. -/
def ContentLaid (name : Lexeme → MemWord → Prop) (mem : NodeMemory) (m : SyntaxNode)
    (tree : SyntaxItems SyntaxNode) : Prop :=
  listHead.Ring mem (m.id, 0) tree.entries ∧ tree.Laid name mem

/-! ## The words that matter -/

/-- The numbers of the nodes. -/
def nodeIds (nodes : List SyntaxNode) : List ℕ := nodes.map SyntaxNode.id

@[simp] theorem nodeIds_append (l l' : List SyntaxNode) :
    nodeIds (l ++ l') = nodeIds l ++ nodeIds l' := List.map_append

@[simp] theorem nodeIds_singleton (m : SyntaxNode) : nodeIds [m] = [m.id] := rfl

/-- A word of one of the list heads. -/
def IsLink (l : List Addr) (w : Addr) : Prop := ∃ a ∈ l, w = a ∨ w = (a.1, a.2 + 1)

/-- A word of a `struct syntax_node` behind its type. -/
def InNode (node w : Addr) : Prop := w.1 = node.1 ∧ node.2 < w.2 ∧ w.2 ≤ node.2 + 3

theorem IsLink.inNode {node w : Addr} (h : IsLink [(node.1, node.2 + 1)] w) : InNode node w := by
  obtain ⟨a, ha, hw⟩ := h
  rw [List.mem_singleton.mp ha] at hw
  rcases hw with rfl | rfl
  · exact ⟨rfl, Nat.lt_succ_self _, by dsimp only; omega⟩
  · exact ⟨rfl, by dsimp only; omega, by dsimp only; omega⟩

theorem not_isLink_opt (node : Addr) : ¬IsLink [(node.1, node.2 + 1)] (node.1, node.2 + 3) := by
  rintro ⟨a, ha, hw⟩
  rw [List.mem_singleton.mp ha] at hw
  rcases hw with hw | hw
  · have hoff := (Prod.mk.inj hw).2
    omega
  · have hoff := (Prod.mk.inj hw).2
    omega

theorem SyntaxVal.entry_mem (node : SyntaxVal SyntaxNode) : node.entry.1 ∈ nodeIds node.nodes := by
  cases node <;> simp [entry, SyntaxVal.node, SyntaxVal.nodes]

theorem SyntaxItem.entry_mem (node : SyntaxItem SyntaxNode) :
    node.entry.1 ∈ nodeIds node.nodes := by
  cases node <;> simp [entry, SyntaxItem.node, SyntaxItem.nodes]

theorem SyntaxVals.entries_mem : ∀ {vs : SyntaxVals SyntaxNode} {a : Addr}, a ∈ vs.entries →
    a.1 ∈ nodeIds vs.nodes
  | .cons node _ rest, a, h => by
    rw [SyntaxVals.nodes, nodeIds_append, List.mem_append]
    rcases List.mem_cons.mp h with rfl | h
    · exact .inl node.entry_mem
    · exact .inr (SyntaxVals.entries_mem h)

theorem SyntaxItems.entries_mem : ∀ {items : SyntaxItems SyntaxNode} {a : Addr},
    a ∈ items.entries → a.1 ∈ nodeIds items.nodes
  | .cons node _ rest, a, h => by
    rw [SyntaxItems.nodes, nodeIds_append, List.mem_append]
    rcases List.mem_cons.mp h with rfl | h
    · exact .inl node.entry_mem
    · exact .inr (SyntaxItems.entries_mem h)

section Keep

variable {name : Lexeme → MemWord → Prop} {mem mem' : NodeMemory} {root : Addr} {l : List Addr}

theorem ring_keep (h : listHead.Ring mem root l)
    (hkeep : ∀ w, IsLink (root :: l) w → mem' w = mem w) : listHead.Ring mem' root l :=
  h.congr (fun a ha => hkeep a ⟨a, ha, .inl rfl⟩) fun a ha => hkeep _ ⟨a, ha, .inr rfl⟩

theorem ring_keep_of_ids {ids : List ℕ} (h : listHead.Ring mem root l)
    (hl : ∀ {a : Addr}, a ∈ l → a.1 ∈ ids) (hids : ∀ w : Addr, w.1 ∈ ids → mem' w = mem w)
    (hnext : mem' root = mem root) (hprev : mem' (root.1, root.2 + 1) = mem (root.1, root.2 + 1)) :
    listHead.Ring mem' root l := by
  refine ring_keep h ?_
  rintro w ⟨a, ha, hw⟩
  rcases List.mem_cons.mp ha with rfl | ha
  · rcases hw with rfl | rfl
    · exact hnext
    · exact hprev
  · have hmem := hl ha
    rcases hw with rfl | rfl <;> exact hids _ hmem

theorem keep_own {ids : List ℕ} {m : ℕ} (off : ℕ) (hnodup : (ids ++ [m]).Nodup)
    (hkeep : ∀ w : Addr, w.1 ∈ ids ++ [m] → ¬InNode (m, off) w → mem' w = mem w) :
    ids.Nodup ∧ (∀ k, k ≤ off ∨ off + 3 < k → mem' (m, k) = mem (m, k)) ∧
      ∀ w : Addr, w.1 ∈ ids → mem' w = mem w := by
  obtain ⟨hids, -, hout⟩ := List.nodup_append.mp hnodup
  refine ⟨hids, fun k hk => hkeep (m, k) (List.mem_append_right _ (.head _)) ?_,
    fun w hw => hkeep w (List.mem_append_left _ hw) fun h => hout _ hw m (.head _) h.1⟩
  rintro ⟨-, hlt, hle⟩
  dsimp only at hlt hle
  omega

theorem keep_cons {ids rest : List ℕ} {entry : Addr} {entries : List Addr}
    (hnodup : (ids ++ rest).Nodup) (hentry : entry.1 ∈ ids)
    (hentries : ∀ {a : Addr}, a ∈ entries → a.1 ∈ rest)
    (hkeep : ∀ w : Addr, w.1 ∈ ids ++ rest → ¬IsLink (entry :: entries) w → mem' w = mem w) :
    (∀ w : Addr, w.1 ∈ ids → ¬IsLink [entry] w → mem' w = mem w) ∧
      ∀ w : Addr, w.1 ∈ rest → ¬IsLink entries w → mem' w = mem w := by
  have hout := (List.nodup_append.mp hnodup).2.2
  refine ⟨fun w hw hlink => hkeep w (List.mem_append_left _ hw) ?_,
    fun w hw hlink => hkeep w (List.mem_append_right _ hw) ?_⟩
  · rintro ⟨a, ha, hwa⟩
    rcases List.mem_cons.mp ha with rfl | ha
    · exact hlink ⟨_, .head _, hwa⟩
    · have hmem := hentries ha
      rcases hwa with rfl | rfl <;> exact hout _ hw _ hmem rfl
  · rintro ⟨a, ha, hwa⟩
    rcases List.mem_cons.mp ha with rfl | ha
    · rcases hwa with rfl | rfl <;> exact hout _ hentry _ hw rfl
    · exact hlink ⟨a, ha, hwa⟩

mutual

theorem SyntaxVal.Laid.keep : ∀ {node : SyntaxVal SyntaxNode}, node.Laid name mem →
    (nodeIds node.nodes).Nodup →
    (∀ w, w.1 ∈ nodeIds node.nodes → ¬InNode node.node w → mem' w = mem w) → node.Laid name mem'
  | .val m val isvar, h, _, hkeep => by
    obtain ⟨-, hown, -⟩ := @keep_own _ _ [] _ 0 (List.nodup_singleton m.id) hkeep
    rw [SyntaxVal.Laid, hown 0 (by decide), hown 4 (by decide), hown 5 (by decide)]
    exact h
  | .valblock m childs, h, hnodup, hkeep => by
    rw [SyntaxVal.nodes, nodeIds_append] at hnodup hkeep
    obtain ⟨hchildsNodup, hown, hchilds⟩ := keep_own 2 hnodup hkeep
    obtain ⟨htype, hring, hlaid⟩ := h
    exact ⟨(hown 2 (by decide)).trans htype,
      ring_keep_of_ids hring SyntaxVals.entries_mem hchilds (hown 0 (by decide))
        (hown 1 (by decide)),
      hlaid.keep hchildsNodup fun w hw _ => hchilds w hw⟩
  | .call m keyword args, h, hnodup, hkeep => by
    rw [SyntaxVal.nodes, nodeIds_append] at hnodup hkeep
    obtain ⟨hargsNodup, hown, hargs⟩ := keep_own 0 hnodup hkeep
    obtain ⟨htype, hkeyword, hcount, hlaid⟩ := h
    exact ⟨(hown 0 (by decide)).trans htype,
      (hown 4 (by decide)).symm ▸ hkeyword,
      (hown 29 (by decide)).trans hcount,
      hlaid.keep hargsNodup hargs fun k hle _ => hown k (by omega)⟩

theorem SyntaxVals.Laid.keep : ∀ {vs : SyntaxVals SyntaxNode}, vs.Laid name mem →
    (nodeIds vs.nodes).Nodup →
    (∀ w, w.1 ∈ nodeIds vs.nodes → ¬IsLink vs.entries w → mem' w = mem w) → vs.Laid name mem'
  | .nil, _, _, _ => trivial
  | .cons node opt rest, h, hnodup, hkeep => by
    rw [SyntaxVals.nodes, nodeIds_append] at hnodup hkeep
    obtain ⟨hnode, hrest⟩ := keep_cons hnodup node.entry_mem SyntaxVals.entries_mem hkeep
    obtain ⟨hnodeNodup, hrestNodup, -⟩ := List.nodup_append.mp hnodup
    obtain ⟨hlaid, hopt, hrestLaid⟩ := h
    exact ⟨hlaid.keep hnodeNodup fun w hw hout => hnode w hw fun h => hout h.inNode,
      (hnode (node.node.1, node.node.2 + 3) node.entry_mem (not_isLink_opt node.node)).trans hopt,
      hrestLaid.keep hrestNodup hrest⟩

theorem SyntaxArgs.Laid.keep : ∀ {args : SyntaxArgs SyntaxNode} {m i : ℕ}, args.Laid name mem m i →
    (nodeIds args.nodes).Nodup → (∀ w : Addr, w.1 ∈ nodeIds args.nodes → mem' w = mem w) →
    (∀ k, 5 + 3 * i ≤ k → k < 29 → mem' (m, k) = mem (m, k)) → args.Laid name mem' m i
  | .nil, m, i, h, _, _, hown => by
    intro j hle hlt
    have hlt' : j < 8 := hlt
    exact @ring_keep_of_ids _ _ _ _ [] (h j hle hlt) (fun h => absurd h List.not_mem_nil)
      (fun w hw => absurd hw List.not_mem_nil) (hown (6 + 3 * j) (by omega) (by omega))
      (hown (6 + 3 * j + 1) (by omega) (by omega))
  | .cons key valchilds rest, m, i, h, hnodup, hkeep, hown => by
    rw [SyntaxArgs.nodes, nodeIds_append] at hnodup hkeep
    obtain ⟨hvalsNodup, hrestNodup, -⟩ := List.nodup_append.mp hnodup
    obtain ⟨hlt, hkey, hring, hvals, hrest⟩ := h
    have hlt' : i < 8 := hlt
    have hvalchilds : ∀ w : Addr, w.1 ∈ nodeIds valchilds.nodes → mem' w = mem w := fun w hw =>
      hkeep w (List.mem_append_left _ hw)
    exact ⟨hlt, (hown (5 + 3 * i) (by omega) (by omega)).symm ▸ hkey,
      ring_keep_of_ids hring SyntaxVals.entries_mem hvalchilds
        (hown (6 + 3 * i) (by omega) (by omega)) (hown (6 + 3 * i + 1) (by omega) (by omega)),
      hvals.keep hvalsNodup fun w hw _ => hvalchilds w hw,
      hrest.keep hrestNodup (fun w hw => hkeep w (List.mem_append_right _ hw))
        fun k hle hk => hown k (by omega) hk⟩

end

theorem funcArgsLaid.keep {args : Option (SyntaxArgs SyntaxNode)} {m : ℕ}
    (h : funcArgsLaid name mem m args) (hnodup : (nodeIds (funcArgsNodes args)).Nodup)
    (hkeep : ∀ w : Addr, w.1 ∈ nodeIds (funcArgsNodes args) → mem' w = mem w)
    (hown : ∀ k, 5 ≤ k → k < 30 → mem' (m, k) = mem (m, k)) : funcArgsLaid name mem' m args := by
  have hslots : ∀ k, 5 + 3 * 0 ≤ k → k < 29 → mem' (m, k) = mem (m, k) := fun k hle hlt =>
    hown k hle (by omega)
  cases args with
  | none =>
    obtain ⟨⟨count, hle, hcount⟩, hlaid⟩ := h
    exact ⟨⟨count, hle, (hown 29 (by decide) (by decide)).trans hcount⟩,
      hlaid.keep hnodup hkeep hslots⟩
  | some args =>
    obtain ⟨hcount, hlaid⟩ := h
    exact ⟨(hown 29 (by decide) (by decide)).trans hcount, hlaid.keep hnodup hkeep hslots⟩

mutual

theorem SyntaxItem.Laid.keep : ∀ {node : SyntaxItem SyntaxNode}, node.Laid name mem →
    (nodeIds node.nodes).Nodup →
    (∀ w, w.1 ∈ nodeIds node.nodes → ¬InNode node.node w → mem' w = mem w) → node.Laid name mem'
  | .func m keyword args body, h, hnodup, hkeep => by
    rw [SyntaxItem.nodes, nodeIds_append, nodeIds_append] at hnodup hkeep
    obtain ⟨hchildsNodup, hown, hchilds⟩ := keep_own 0 hnodup hkeep
    obtain ⟨hargsNodup, hbodyNodup, -⟩ := List.nodup_append.mp hchildsNodup
    have hbody : ∀ w : Addr, w.1 ∈ nodeIds body.nodes → mem' w = mem w := fun w hw =>
      hchilds w (List.mem_append_right _ hw)
    obtain ⟨htype, hkeyword, hargs, hring, hlaid⟩ := h
    exact ⟨(hown 0 (by decide)).trans htype,
      (hown 4 (by decide)).symm ▸ hkeyword,
      hargs.keep hargsNodup (fun w hw => hchilds w (List.mem_append_left _ hw))
        fun k hle _ => hown k (by omega),
      ring_keep_of_ids hring SyntaxItems.entries_mem hbody (hown 30 (by decide))
        (hown 31 (by decide)),
      hlaid.keep hbodyNodup fun w hw _ => hbody w hw⟩
  | .block m negative childs, h, hnodup, hkeep => by
    rw [SyntaxItem.nodes, nodeIds_append] at hnodup hkeep
    obtain ⟨hchildsNodup, hown, hchilds⟩ := keep_own 0 hnodup hkeep
    obtain ⟨htype, hnegative, hring, hlaid⟩ := h
    exact ⟨(hown 0 (by decide)).trans htype,
      (hown 6 (by decide)).trans hnegative,
      ring_keep_of_ids hring SyntaxItems.entries_mem hchilds (hown 4 (by decide))
        (hown 5 (by decide)),
      hlaid.keep hchildsNodup fun w hw _ => hchilds w hw⟩
  | .expr m key opt valchilds, h, hnodup, hkeep => by
    rw [SyntaxItem.nodes, nodeIds_append] at hnodup hkeep
    obtain ⟨hvalsNodup, hown, hvals⟩ := keep_own 0 hnodup hkeep
    obtain ⟨htype, hkey, hopt, hring, hlaid⟩ := h
    exact ⟨(hown 0 (by decide)).trans htype,
      (hown 4 (by decide)).symm ▸ hkey, (hown 5 (by decide)).trans hopt,
      ring_keep_of_ids hring SyntaxVals.entries_mem hvals (hown 6 (by decide))
        (hown 7 (by decide)),
      hlaid.keep hvalsNodup fun w hw _ => hvals w hw⟩

theorem SyntaxItems.Laid.keep : ∀ {items : SyntaxItems SyntaxNode}, items.Laid name mem →
    (nodeIds items.nodes).Nodup →
    (∀ w, w.1 ∈ nodeIds items.nodes → ¬IsLink items.entries w → mem' w = mem w) →
    items.Laid name mem'
  | .nil, _, _, _ => trivial
  | .cons node opt rest, h, hnodup, hkeep => by
    rw [SyntaxItems.nodes, nodeIds_append] at hnodup hkeep
    obtain ⟨hnode, hrest⟩ := keep_cons hnodup node.entry_mem SyntaxItems.entries_mem hkeep
    obtain ⟨hnodeNodup, hrestNodup, -⟩ := List.nodup_append.mp hnodup
    obtain ⟨hlaid, hopt, hrestLaid⟩ := h
    exact ⟨hlaid.keep hnodeNodup fun w hw hout => hnode w hw fun h => hout h.inNode,
      (hnode (node.node.1, node.node.2 + 3) node.entry_mem (not_isLink_opt node.node)).trans hopt,
      hrestLaid.keep hrestNodup hrest⟩

end

end Keep

end Lre
