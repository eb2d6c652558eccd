import Lre.Syntax.Layout
import Lre.Syntax.Slots

/-!
# Laying out a tree

* `syntaxAdd_ring`, `cons_stored`: a node becomes the last one of its list.
* `SyntaxVals.stored`, `SyntaxItems.stored`: the nodes of a list are laid out behind what it has.
* **`content_stored`**: the stores of the parser lay out a tree, and write its nodes only.
-/

namespace Lre

open Circular

variable {mem : NodeMemory} {root a w : Addr} {l : List Addr} {m : ℕ}

/-! ## Single stores -/

theorem NodeMemory.set_self (word : MemWord) : mem.set a word a = word := Function.update_self ..

theorem NodeMemory.set_of_ne {word : MemWord} (h : w ≠ a) : mem.set a word w = mem w :=
  Function.update_of_ne h ..

theorem NodeMemory.set_off {word : MemWord} {k k' : ℕ} (h : k' ≠ k) :
    mem.set (m, k) word (m, k') = mem (m, k') := set_of_ne fun heq => h (Prod.mk.inj heq).2

theorem NodeMemory.set_block {word : MemWord} (h : w.1 ≠ a.1) : mem.set a word w = mem w :=
  set_of_ne fun heq => h (congrArg Prod.fst heq)

theorem syntaxNodeInit_type (node : Addr) (type : SyntaxNodeType) :
    syntaxNodeInit node type mem node = .type type := NodeMemory.set_self _

theorem syntaxNodeInit_opt (node : Addr) (type : SyntaxNodeType) :
    syntaxNodeInit node type mem (node.1, node.2 + 3) = .sym .reserved := by
  have hne : (node.1, node.2 + 3) ≠ node := fun h => by
    have hoff := congrArg Prod.snd h
    dsimp only at hoff
    omega
  rw [syntaxNodeInit, NodeMemory.set_of_ne hne, NodeMemory.set_self]

theorem syntaxNodeInit_of_ne {node : Addr} {type : SyntaxNodeType} (htype : w ≠ node)
    (hopt : w ≠ (node.1, node.2 + 3)) : syntaxNodeInit node type mem w = mem w := by
  rw [syntaxNodeInit, NodeMemory.set_of_ne htype, NodeMemory.set_of_ne hopt]

theorem syntaxRootInit_ring (root : Addr) (mem : NodeMemory) :
    listHead.Ring (syntaxRootInit root mem) root [] := by
  refine Fields.ring_init (fun h => ?_) mem
  have hoff := congrArg Prod.snd h
  exact absurd hoff (Nat.succ_ne_self _).symm

theorem syntaxRootInit_of_ne (hnext : w ≠ root) (hprev : w ≠ (root.1, root.2 + 1)) :
    syntaxRootInit root mem w = mem w := Fields.init_other hnext hprev

theorem not_isLink_off {k off : ℕ} (hnext : k ≠ off) (hprev : k ≠ off + 1) :
    ¬IsLink [(m, off)] (m, k) := by
  rintro ⟨b, hb, hw⟩
  rw [List.mem_singleton.mp hb] at hw
  rcases hw with hw | hw
  · exact hnext (Prod.mk.inj hw).2
  · exact hprev (Prod.mk.inj hw).2

theorem not_isLink_block (h : w.1 ≠ a.1) : ¬IsLink [a] w := by
  rintro ⟨b, hb, hw⟩
  rw [List.mem_singleton.mp hb] at hw
  rcases hw with rfl | rfl <;> exact h rfl

theorem syntaxNodeInit_off {type : SyntaxNodeType} {k off : ℕ} (htype : k ≠ off)
    (hopt : k ≠ off + 3) : syntaxNodeInit (m, off) type mem (m, k) = mem (m, k) :=
  syntaxNodeInit_of_ne (fun h => htype (Prod.mk.inj h).2) fun h => hopt (Prod.mk.inj h).2

theorem syntaxNodeInit_block {type : SyntaxNodeType} (h : w.1 ≠ a.1) :
    syntaxNodeInit a type mem w = mem w :=
  syntaxNodeInit_of_ne (fun heq => h (heq ▸ rfl)) fun heq => h (heq ▸ rfl)

theorem syntaxRootInit_block (h : w.1 ≠ a.1) : syntaxRootInit a mem w = mem w :=
  syntaxRootInit_of_ne (fun heq => h (heq ▸ rfl)) fun heq => h (heq ▸ rfl)

theorem ring_keep_root {mem' : NodeMemory} (h : listHead.Ring mem root [])
    (hnext : mem' root = mem root) (hprev : mem' (root.1, root.2 + 1) = mem (root.1, root.2 + 1)) :
    listHead.Ring mem' root [] :=
  @ring_keep_of_ids _ _ _ _ [] h (fun h => absurd h List.not_mem_nil)
    (fun _ hw => absurd hw List.not_mem_nil) hnext hprev

theorem foldl_syntaxRootInit (m : ℕ) (mem : NodeMemory) (k : ℕ) : ∃ mem',
    (List.range k).foldl (fun mem i => syntaxRootInit (argRoot m i) mem) mem = mem' ∧
      (∀ j < k, listHead.Ring mem' (argRoot m j) []) ∧
      ∀ w : Addr, w.1 ≠ m ∨ w.2 < 6 ∨ 5 + 3 * k ≤ w.2 → mem' w = mem w := by
  induction k with
  | zero => exact ⟨mem, rfl, fun j hj => absurd hj (Nat.not_lt_zero j), fun _ _ => rfl⟩
  | succ k ih =>
    obtain ⟨mem', hmem', hslots, hother⟩ := ih
    have hne : ∀ w : Addr, w.1 ≠ m ∨ w.2 < 6 + 3 * k ∨ 7 + 3 * k < w.2 →
        syntaxRootInit (argRoot m k) mem' w = mem' w := by
      intro w hw
      refine syntaxRootInit_of_ne ?_ ?_
      · rintro rfl
        simp only [argRoot] at hw
        omega
      · rintro rfl
        simp only [argRoot] at hw
        omega
    refine ⟨syntaxRootInit (argRoot m k) mem', ?_, fun j hj => ?_, fun w hw => ?_⟩
    · rw [List.range_succ, List.foldl_concat, hmem']
    · rcases Nat.lt_succ_iff_lt_or_eq.mp hj with hj | rfl
      · refine ring_keep (hslots j hj) ?_
        rintro w ⟨a, ha, hw⟩
        rw [List.mem_singleton.mp ha, argRoot] at hw
        refine hne w ?_
        rcases hw with rfl | rfl
        · exact .inr (.inl (by dsimp only; omega))
        · exact .inr (.inl (by dsimp only; omega))
      · exact syntaxRootInit_ring _ _
    · rw [hne w (by omega), hother w (by omega)]

theorem syntaxArgsInit_slots (m : ℕ) (mem : NodeMemory) : ∀ j < syntaxArgMax,
    listHead.Ring (syntaxArgsInit m mem) (argRoot m j) [] := by
  obtain ⟨mem', hmem', hslots, -⟩ := foldl_syntaxRootInit m mem syntaxArgMax
  rwa [syntaxArgsInit, hmem']

theorem syntaxArgsInit_of_ne (h : w.1 ≠ m ∨ w.2 < 6 ∨ 29 ≤ w.2) :
    syntaxArgsInit m mem w = mem w := by
  obtain ⟨mem', hmem', -, hother⟩ := foldl_syntaxRootInit m mem syntaxArgMax
  rw [syntaxArgsInit, hmem']
  exact hother w h

/-! ## Lists -/

theorem apart_of_blocks (h : (l.map Prod.fst).Nodup) : listHead.Apart l := by
  intro a ha b hb heq
  have heq : a = (b.1, b.2 + 1) := heq
  have hfst : a.1 = b.1 := by rw [heq]
  have hab := List.inj_on_of_nodup_map h ha hb hfst
  have hoff : a.2 = b.2 + 1 := congrArg Prod.snd heq
  rw [hab] at hoff
  omega

theorem syntaxAdd_ring {node : Addr} (h : listHead.Ring mem root l)
    (hblocks : ((node :: root :: l).map Prod.fst).Nodup) :
    ∃ mem', syntaxAdd node root mem = some mem' ∧
      listHead.Ring mem' root (l ++ [(node.1, node.2 + 1)]) ∧
      ∀ w, ¬IsLink ((node.1, node.2 + 1) :: root :: l) w → mem' w = mem w := by
  have hnew : (node.1, node.2 + 1) ∉ root :: l := fun hmem =>
    (List.nodup_cons.mp hblocks).1 (List.mem_map.mpr ⟨_, hmem, rfl⟩)
  have hapart : listHead.Apart ((node.1, node.2 + 1) :: root :: l) := apart_of_blocks hblocks
  obtain ⟨hadd, hring⟩ := h.addTail hnew hapart
  refine ⟨_, hadd, hring, fun w hw => Fields.add_other ?_ ?_ ?_ ?_⟩
  · rintro rfl
    exact hw ⟨_, .tail _ List.getLastD_mem_cons, .inl rfl⟩
  · rintro rfl
    exact hw ⟨root, .tail _ (.head _), .inr rfl⟩
  · rintro rfl
    exact hw ⟨_, .head _, .inl rfl⟩
  · rintro rfl
    exact hw ⟨_, .head _, .inr rfl⟩

theorem setOpt_of_ne {node : Addr} {opt : Sym} (h : w ≠ (node.1, node.2 + 3)) :
    mem.setOpt node opt w = mem w := by
  unfold NodeMemory.setOpt
  split_ifs
  · rfl
  · exact NodeMemory.set_of_ne h

theorem setOpt_opt {node : Addr} {opt : Sym}
    (h : mem (node.1, node.2 + 3) = .sym .reserved) :
    mem.setOpt node opt (node.1, node.2 + 3) = .sym opt := by
  unfold NodeMemory.setOpt
  split_ifs with hopt
  · rw [h, hopt]
  · exact NodeMemory.set_self _

theorem isLink_append {l' : List Addr} : IsLink (l ++ l') w ↔ IsLink l w ∨ IsLink l' w := by
  simp only [IsLink, List.mem_append, or_and_right, exists_or]

theorem cons_stored {ids rest : List ℕ} {node : Addr} {entries : List Addr} {opt : Sym}
    {store more : NodeMemory → Option NodeMemory} {P Q : NodeMemory → Prop} (hnode : node.1 ∈ ids)
    (hnodup : ((root :: l).map Prod.fst ++ (ids ++ rest)).Nodup) (hring : listHead.Ring mem root l)
    (hkeep : ∀ mem mem', P mem → (∀ w : Addr, w.1 ∈ ids → ¬InNode node w → mem' w = mem w) → P mem')
    (hstore : ∃ mem', store mem = some mem' ∧ P mem' ∧
      mem' (node.1, node.2 + 3) = .sym .reserved ∧ ∀ w : Addr, w.1 ∉ ids → mem' w = mem w)
    (hmore : ∀ mem₁, listHead.Ring mem₁ root (l ++ [(node.1, node.2 + 1)]) →
      (∀ w : Addr, w.1 ∈ rest → mem₁ w = mem w) → ∃ mem',
      more mem₁ = some mem' ∧ listHead.Ring mem' root (l ++ [(node.1, node.2 + 1)] ++ entries) ∧
      Q mem' ∧ ∀ w : Addr, w.1 ∉ rest → ¬IsLink (root :: (l ++ [(node.1, node.2 + 1)])) w →
        mem' w = mem₁ w) :
    ∃ mem', (do
        let mem ← store mem
        let mem ← syntaxAdd node root mem
        more (mem.setOpt node opt)) = some mem' ∧
      listHead.Ring mem' root (l ++ (node.1, node.2 + 1) :: entries) ∧
      (P mem' ∧ mem' (node.1, node.2 + 3) = .sym opt ∧ Q mem') ∧
      ∀ w : Addr, w.1 ∉ ids ++ rest → ¬IsLink (root :: l) w → mem' w = mem w := by
  obtain ⟨hblocks, hids, hout⟩ := List.nodup_append.mp hnodup
  have hrest := (List.nodup_append.mp hids).2.2
  have hlout : ∀ a ∈ root :: l, a.1 ∉ ids := fun a ha hmem =>
    hout _ (List.mem_map_of_mem ha) _ (List.mem_append_left _ hmem) rfl
  obtain ⟨mem₁, hmem₁, hP₁, hopt₁, hother₁⟩ := hstore
  have hring₁ : listHead.Ring mem₁ root l := by
    refine ring_keep hring ?_
    rintro w ⟨a, ha, hw⟩
    have hblock := hlout a ha
    rcases hw with rfl | rfl <;> exact hother₁ _ hblock
  have hblocks₁ : ((node :: root :: l).map Prod.fst).Nodup := by
    refine List.nodup_cons.mpr ⟨fun hmem => ?_, hblocks⟩
    obtain ⟨a, ha, heq⟩ := List.mem_map.mp hmem
    exact hlout a ha (heq ▸ hnode)
  obtain ⟨mem₂, hmem₂, hring₂, hother₂⟩ := syntaxAdd_ring hring₁ hblocks₁
  have hlinks : ∀ w, ¬IsLink [(node.1, node.2 + 1)] w → ¬IsLink (root :: l) w → mem₂ w = mem₁ w :=
    fun w h h' => hother₂ w (isLink_append.not.mpr (not_or.mpr ⟨h, h'⟩))
  have hlblock : ∀ w : Addr, w.1 ∈ ids → ¬IsLink (root :: l) w := by
    rintro w hw ⟨a, ha, hwa⟩
    have hblock := hlout a ha
    rcases hwa with rfl | rfl <;> exact hblock hw
  have hopt₂ := (hlinks _ (not_isLink_opt node) (hlblock (node.1, node.2 + 3) hnode)).trans hopt₁
  have hring₃ : listHead.Ring (mem₂.setOpt node opt) root (l ++ [(node.1, node.2 + 1)]) := by
    refine ring_keep hring₂ fun w hw => setOpt_of_ne ?_
    rintro rfl
    rcases isLink_append.mp (show IsLink ((root :: l) ++ _) _ from hw) with hw | hw
    · exact hlblock (node.1, node.2 + 3) hnode hw
    · exact not_isLink_opt node hw
  have hlout' : ∀ w : Addr, w.1 ∈ rest → ¬IsLink (root :: l) w := by
    rintro w hw ⟨a, ha, hwa⟩
    have hblock := hout _ (List.mem_map_of_mem ha)
    rcases hwa with rfl | rfl <;> exact hblock _ (List.mem_append_right _ hw) rfl
  have hkept : ∀ w : Addr, w.1 ∈ rest → mem₂.setOpt node opt w = mem w := by
    intro w hw
    have hids : w.1 ∉ ids := fun h => hrest _ h _ hw rfl
    have hne : w ≠ (node.1, node.2 + 3) := by
      rintro rfl
      exact hids hnode
    have hlink : ¬IsLink [(node.1, node.2 + 1)] w := fun h => hids (h.inNode.1 ▸ hnode)
    rw [setOpt_of_ne hne, hlinks w hlink (hlout' w hw), hother₁ w hids]
  obtain ⟨mem₃, hmem₃, hring₃, hQ, hother₃⟩ := hmore _ hring₃ hkept
  have hlast : ∀ w : Addr, w.1 ∉ rest → ¬IsLink [(node.1, node.2 + 1)] w → ¬IsLink (root :: l) w →
      mem₃ w = mem₂.setOpt node opt w := fun w hw h h' =>
    hother₃ w hw ((isLink_append (l := root :: l)).not.mpr (not_or.mpr ⟨h', h⟩))
  refine ⟨mem₃, ?_, ?_, ⟨?_, ?_, hQ⟩, fun w hw hlink => ?_⟩
  · rw [hmem₁, Option.bind_eq_bind, Option.bind_some, hmem₂, Option.bind_some, hmem₃]
  · rw [List.append_assoc] at hring₃
    exact hring₃
  · refine hkeep mem₁ mem₃ hP₁ fun w hw hin => ?_
    have hne : w ≠ (node.1, node.2 + 3) := by
      rintro rfl
      exact hin ⟨rfl, by dsimp only; omega, le_rfl⟩
    have hlink : ¬IsLink [(node.1, node.2 + 1)] w := fun h => hin h.inNode
    rw [hlast w (fun h => hrest _ hw _ h rfl) hlink (hlblock w hw), setOpt_of_ne hne,
      hlinks w hlink (hlblock w hw)]
  · rw [hlast (node.1, node.2 + 3) (fun h => hrest _ hnode _ h rfl) (not_isLink_opt node)
      (hlblock (node.1, node.2 + 3) hnode), setOpt_opt hopt₂]
  · obtain ⟨hwids, hwrest⟩ := not_or.mp (List.mem_append.not.mp hw)
    have hne : w ≠ (node.1, node.2 + 3) := by
      rintro rfl
      exact hwids hnode
    have hlink' : ¬IsLink [(node.1, node.2 + 1)] w := fun h => hwids (h.inNode.1 ▸ hnode)
    rw [hlast w hwrest hlink' hlink, setOpt_of_ne hne, hlinks w hlink' hlink, hother₁ w hwids]

theorem nodup_next {ids rest : List ℕ} {node : Addr}
    (h : ((root :: l).map Prod.fst ++ (ids ++ rest)).Nodup) (hnode : node.1 ∈ ids) :
    ((root :: (l ++ [(node.1, node.2 + 1)])).map Prod.fst ++ rest).Nodup := by
  refine h.sublist ?_
  have hnext : ([node.1] ++ rest).Sublist (ids ++ rest) :=
    (List.singleton_sublist.mpr hnode).append_right rest
  have hsub := hnext.append_left ((root :: l).map Prod.fst)
  rw [← List.append_assoc] at hsub
  simpa only [List.map_cons, List.map_append, List.cons_append, List.map_nil] using hsub

/-! ## Values -/

mutual

theorem SyntaxVal.stored : ∀ (node : SyntaxVal SyntaxNode) (mem : NodeMemory), node.Fits →
    (nodeIds node.nodes).Nodup → ∃ mem', node.store mem = some mem' ∧ node.Laid IsText mem' ∧
      mem' (node.node.1, node.node.2 + 3) = .sym .reserved ∧
      ∀ w : Addr, w.1 ∉ nodeIds node.nodes → mem' w = mem w
  | .val m val isvar, mem, _, _ => by
    refine ⟨_, rfl, ⟨?_, ?_, NodeMemory.set_self _⟩, ?_, fun w hw => ?_⟩
    · rw [NodeMemory.set_off (by decide), NodeMemory.set_off (by decide)]
      exact syntaxNodeInit_type _ _
    · rw [NodeMemory.set_off (by decide), NodeMemory.set_self]
      rfl
    · show (((syntaxValCreate m.id mem).set (m.id, 4) (.text val)).set (m.id, 5)
        (.int isvar.toNat)) (m.id, 3) = _
      rw [NodeMemory.set_off (by decide), NodeMemory.set_off (by decide)]
      exact syntaxNodeInit_opt (m.id, 0) _
    · have hne : w.1 ≠ m.id := fun h => hw (h ▸ .head _)
      rw [NodeMemory.set_block hne, NodeMemory.set_block hne]
      exact syntaxNodeInit_block hne
  | .valblock m childs, mem, hfits, hnodup => by
    rw [SyntaxVal.nodes, nodeIds_append] at hnodup ⊢
    have hout : m.id ∉ nodeIds childs.nodes := fun hmem =>
      (List.nodup_append.mp hnodup).2.2 _ hmem _ (.head _) rfl
    have hroot : listHead.Ring (syntaxValblockCreate m.id mem) (m.id, 0) [] :=
      ring_keep_root (syntaxRootInit_ring (m.id, 0) mem)
        (syntaxNodeInit_off (by decide) (by decide))
        (syntaxNodeInit_off (k := 1) (by decide) (by decide))
    have hblocks : (([(m.id, 0)] : List Addr).map Prod.fst ++ nodeIds childs.nodes).Nodup :=
      List.nodup_append_comm.mp hnodup
    obtain ⟨mem', hstore, hring, hlaid, hother⟩ :=
      childs.stored hfits hblocks hroot
    refine ⟨mem', hstore, ⟨?_, hring, hlaid⟩, ?_, fun w hw => ?_⟩
    · rw [hother _ hout (not_isLink_off (by decide) (by decide))]
      exact syntaxNodeInit_type _ _
    · refine (hother (m.id, 5) hout (not_isLink_off (by decide) (by decide))).trans ?_
      exact syntaxNodeInit_opt (m.id, 2) _
    · obtain ⟨hchilds, hm⟩ := not_or.mp (List.mem_append.not.mp hw)
      have hne : w.1 ≠ m.id := fun h => hm (h ▸ .head _)
      rw [hother w hchilds (not_isLink_block hne), syntaxValblockCreate, syntaxNodeInit_block hne,
        syntaxRootInit_block hne]
  | .call m keyword args, mem, hfits, hnodup => by
    rw [SyntaxVal.nodes, nodeIds_append] at hnodup ⊢
    have hout : m.id ∉ nodeIds args.nodes := fun hmem =>
      (List.nodup_append.mp hnodup).2.2 _ hmem _ (.head _) rfl
    have hcreate : ∀ k, k ≠ 4 → k ≠ 29 → (((syntaxCallCreate m.id mem).set (m.id, 4)
        (.text keyword)).set (m.id, 29) (.int 0)) (m.id, k) = syntaxCallCreate m.id mem (m.id, k) :=
      fun k h₁ h₂ => by rw [NodeMemory.set_off h₂, NodeMemory.set_off h₁]
    have hslots : ∀ j, 0 ≤ j → j < syntaxArgMax → listHead.Ring (((syntaxCallCreate m.id mem).set
        (m.id, 4) (.text keyword)).set (m.id, 29) (.int 0)) (argRoot m.id j) [] := by
      intro j _ hj
      have hj' : j < 8 := hj
      exact ring_keep_root (syntaxArgsInit_slots m.id _ j hj) (hcreate _ (by omega) (by omega))
        (hcreate (6 + 3 * j + 1) (by omega) (by omega))
    obtain ⟨mem', hstore, hlaid, hcount, hother⟩ := args.stored hfits.2
      (by rw [Nat.zero_add]; exact hfits.1) hnodup (NodeMemory.set_self _) hslots
    have hown : ∀ k, k < 4 → mem' (m.id, k) = syntaxNodeInit (m.id, 0) .call mem (m.id, k) := by
      intro k hk
      rw [hother _ hout (.inr (.inl (by dsimp only; omega))), hcreate k (by omega) (by omega)]
      exact syntaxArgsInit_of_ne (.inr (.inl (by dsimp only; omega)))
    refine ⟨mem', hstore, ⟨?_, ?_, ?_, hlaid⟩, ?_, fun w hw => ?_⟩
    · exact (hown 0 (by decide)).trans (syntaxNodeInit_type _ _)
    · rw [hother _ hout (.inr (.inl (by dsimp only; omega))), NodeMemory.set_off (by decide),
        NodeMemory.set_self]
      rfl
    · rw [hcount, Nat.zero_add]
    · exact (hown 3 (by decide)).trans (syntaxNodeInit_opt (m.id, 0) _)
    · obtain ⟨hargs, hm⟩ := not_or.mp (List.mem_append.not.mp hw)
      have hne : w.1 ≠ m.id := fun h => hm (h ▸ .head _)
      rw [hother w hargs (.inl hne), NodeMemory.set_block hne, NodeMemory.set_block hne,
        syntaxCallCreate, syntaxArgsInit_of_ne (.inl hne), syntaxNodeInit_block hne]

theorem SyntaxVals.stored : ∀ (vs : SyntaxVals SyntaxNode) {mem : NodeMemory} {root : Addr}
    {l : List Addr}, vs.Fits → ((root :: l).map Prod.fst ++ nodeIds vs.nodes).Nodup →
    listHead.Ring mem root l → ∃ mem', vs.store root mem = some mem' ∧
      listHead.Ring mem' root (l ++ vs.entries) ∧ vs.Laid IsText mem' ∧
      ∀ w : Addr, w.1 ∉ nodeIds vs.nodes → ¬IsLink (root :: l) w → mem' w = mem w
  | .nil, mem, root, l, _, _, hring => by
    refine ⟨mem, rfl, ?_, trivial, fun _ _ _ => rfl⟩
    rwa [SyntaxVals.entries, List.append_nil]
  | .cons node opt rest, mem, root, l, hfits, hnodup, hring => by
    rw [SyntaxVals.nodes, nodeIds_append] at hnodup ⊢
    have hids := (List.nodup_append.mp (List.nodup_append.mp hnodup).2.1)
    exact cons_stored node.entry_mem hnodup hring
      (fun mem mem' hlaid hkeep => hlaid.keep hids.1 hkeep) (node.stored mem hfits.1 hids.1)
      fun _ hring _ => rest.stored hfits.2 (nodup_next hnodup node.entry_mem) hring

theorem SyntaxArgs.stored : ∀ (args : SyntaxArgs SyntaxNode) {mem : NodeMemory} {m i : ℕ},
    args.Fits → i + args.count ≤ syntaxArgMax → (nodeIds args.nodes ++ [m]).Nodup →
    mem (m, 29) = .int i →
    (∀ j, i ≤ j → j < syntaxArgMax → listHead.Ring mem (argRoot m j) []) → ∃ mem',
      args.store m i mem = some mem' ∧ args.Laid IsText mem' m i ∧
      mem' (m, 29) = .int (i + args.count) ∧
      ∀ w : Addr, w.1 ∉ nodeIds args.nodes → w.1 ≠ m ∨ w.2 < 5 + 3 * i ∨ 29 < w.2 →
        mem' w = mem w
  | .nil, mem, m, i, _, _, _, hcount, hslots => by
    exact ⟨mem, rfl, hslots, hcount, fun _ _ _ => rfl⟩
  | .cons key valchilds rest, mem, m, i, hfits, hle, hnodup, hcount, hslots => by
    rw [SyntaxArgs.nodes, nodeIds_append] at hnodup ⊢
    have hle : i + (rest.count + 1) ≤ 8 := hle
    obtain ⟨hids, -, hm⟩ := List.nodup_append.mp hnodup
    obtain ⟨hvalsNodup, hrestNodup, hdisj⟩ := List.nodup_append.mp hids
    have hmvals : m ∉ nodeIds valchilds.nodes := fun h =>
      hm _ (List.mem_append_left _ h) _ (.head _) rfl
    have hmrest : m ∉ nodeIds rest.nodes := fun h =>
      hm _ (List.mem_append_right _ h) _ (.head _) rfl
    have hvalsBlocks : ([argRoot m i].map Prod.fst ++ nodeIds valchilds.nodes).Nodup :=
      List.nodup_cons.mpr ⟨hmvals, hvalsNodup⟩
    have hrestBlocks : (nodeIds rest.nodes ++ [m]).Nodup :=
      hnodup.sublist ((List.sublist_append_right _ _).append_right _)
    have hlt : i < syntaxArgMax := by
      show i < 8
      omega
    have hkey : ∀ k, k ≠ 5 + 3 * i → mem.set (m, 5 + 3 * i) (.text key) (m, k) = mem (m, k) :=
      fun k hk => NodeMemory.set_off hk
    obtain ⟨mem₁, hstore₁, hring₁, hlaid₁, hother₁⟩ := valchilds.stored hfits.1 hvalsBlocks
      (ring_keep_root (hslots i le_rfl hlt) (hkey (6 + 3 * i) (by omega))
        (hkey (6 + 3 * i + 1) (by omega)))
    -- the words of the block behind the list of this slot
    have hown₁ : ∀ k, k ≠ 5 + 3 * i → k ≠ 6 + 3 * i → k ≠ 6 + 3 * i + 1 →
        mem₁ (m, k) = mem (m, k) := fun k h₁ h₂ h₃ =>
      (hother₁ _ hmvals (not_isLink_off h₂ h₃)).trans (hkey k h₁)
    have hslots₁ : ∀ j, i + 1 ≤ j → j < syntaxArgMax →
        listHead.Ring (mem₁.set (m, 29) (.int (i + 1))) (argRoot m j) [] := by
      intro j hij hj
      have hj' : j < 8 := hj
      refine ring_keep_root (hslots j (by omega) hj) ?_ ?_
      · exact (NodeMemory.set_off (by omega)).trans
          (hown₁ (6 + 3 * j) (by omega) (by omega) (by omega))
      · exact (NodeMemory.set_off (by dsimp only [argRoot]; omega)).trans
          (hown₁ (6 + 3 * j + 1) (by omega) (by omega) (by omega))
    obtain ⟨mem₂, hstore₂, hlaid₂, hcount₂, hother₂⟩ := rest.stored hfits.2 (i := i + 1)
      (by rw [syntaxArgMax]; omega) hrestBlocks (NodeMemory.set_self _) hslots₁
    have hown₂ : ∀ k, k < 8 + 3 * i → mem₂ (m, k) = mem₁ (m, k) := fun k hk =>
      (hother₂ _ hmrest (.inr (.inl (by dsimp only; omega)))).trans (NodeMemory.set_off (by omega))
    have hvals₂ : ∀ w : Addr, w.1 ∈ nodeIds valchilds.nodes → mem₂ w = mem₁ w := by
      intro w hw
      have hne : w.1 ≠ m := fun h => hmvals (h ▸ hw)
      exact (hother₂ w (fun h => hdisj _ hw _ h rfl) (.inl hne)).trans (NodeMemory.set_block hne)
    refine ⟨mem₂, ?_, ⟨?_, ?_, ?_, ?_, hlaid₂⟩, ?_, fun w hw hwm => ?_⟩
    · rw [SyntaxArgs.store, hstore₁, Option.bind_eq_bind, Option.bind_some, hstore₂]
    · exact hlt
    · rw [hown₂ _ (by omega), hother₁ _ hmvals (not_isLink_off (by omega) (by omega)),
        NodeMemory.set_self]
      rfl
    · exact ring_keep_of_ids hring₁ SyntaxVals.entries_mem hvals₂
        (hown₂ (6 + 3 * i) (by omega)) (hown₂ (6 + 3 * i + 1) (by omega))
    · exact hlaid₁.keep hvalsNodup fun w hw _ => hvals₂ w hw
    · rw [hcount₂, SyntaxArgs.count]
      congr 1
      omega
    · obtain ⟨hwvals, hwrest⟩ := not_or.mp (List.mem_append.not.mp hw)
      have hne : ∀ k, 5 + 3 * i ≤ k → k ≤ 29 → w ≠ (m, k) := by
        rintro k hle hle' rfl
        dsimp only at hwm
        omega
      have hlink : ¬IsLink [argRoot m i] w := by
        rintro ⟨a, ha, hwa⟩
        rw [List.mem_singleton.mp ha] at hwa
        rcases hwa with hwa | hwa
        · exact hne (6 + 3 * i) (by omega) (by omega) hwa
        · exact hne (6 + 3 * i + 1) (by omega) (by omega) hwa
      rw [hother₂ w hwrest (by omega), NodeMemory.set_of_ne (hne 29 (by omega) le_rfl),
        hother₁ w hwvals hlink, NodeMemory.set_of_ne (hne _ le_rfl (by omega))]

end

/-! ## Items -/

/-- What is in the place of `args.count` is no larger than a list can be. -/
def SaneCounts (mem : NodeMemory) (ids : List ℕ) : Prop :=
  ∀ id ∈ ids, ∃ count ≤ syntaxArgMax, mem (id, 29) = .int count

theorem SaneCounts.keep {mem' : NodeMemory} {ids ids' : List ℕ} (h : SaneCounts mem ids)
    (hsub : ids' ⊆ ids) (hkeep : ∀ w : Addr, w.1 ∈ ids' → mem' w = mem w) :
    SaneCounts mem' ids' := by
  intro id hid
  obtain ⟨count, hle, hcount⟩ := h id (hsub hid)
  exact ⟨count, hle, (hkeep (id, 29) hid).trans hcount⟩

theorem funcArgs_stored (args : Option (SyntaxArgs SyntaxNode)) (hfits : FuncArgsFits args)
    (hnodup : (nodeIds (funcArgsNodes args) ++ [m]).Nodup)
    (hcount : ∃ count ≤ syntaxArgMax, mem (m, 29) = .int count)
    (hslots : ∀ j < syntaxArgMax, listHead.Ring mem (argRoot m j) []) : ∃ mem',
      funcArgsStore args m mem = some mem' ∧ funcArgsLaid IsText mem' m args ∧
      ∀ w : Addr, w.1 ∉ nodeIds (funcArgsNodes args) → w.1 ≠ m ∨ w.2 < 5 ∨ 29 < w.2 →
        mem' w = mem w := by
  cases args with
  | none => exact ⟨mem, rfl, ⟨hcount, fun j _ hj => hslots j hj⟩, fun _ _ _ => rfl⟩
  | some args =>
    have hslots₀ : ∀ j, 0 ≤ j → j < syntaxArgMax →
        listHead.Ring (mem.set (m, 29) (.int 0)) (argRoot m j) [] := by
      intro j _ hj
      have hj' : j < 8 := hj
      exact ring_keep_root (hslots j hj) (NodeMemory.set_off (by omega))
        (NodeMemory.set_off (by dsimp only [argRoot]; omega))
    obtain ⟨mem', hstore, hlaid, hcount', hother⟩ := args.stored hfits.2
      (by rw [Nat.zero_add]; exact hfits.1) hnodup (NodeMemory.set_self _) hslots₀
    rw [Nat.zero_add] at hcount'
    refine ⟨mem', hstore, ⟨hcount', hlaid⟩, fun w hw hwm => ?_⟩
    have hne : w ≠ (m, 29) := by
      rintro rfl
      dsimp only at hwm
      omega
    rw [hother w hw (by omega), NodeMemory.set_of_ne hne]

mutual

theorem SyntaxItem.stored : ∀ (node : SyntaxItem SyntaxNode) (mem : NodeMemory), node.Fits →
    (nodeIds node.nodes).Nodup → SaneCounts mem (nodeIds node.nodes) → ∃ mem',
      node.store mem = some mem' ∧ node.Laid IsText mem' ∧
      mem' (node.node.1, node.node.2 + 3) = .sym .reserved ∧
      ∀ w : Addr, w.1 ∉ nodeIds node.nodes → mem' w = mem w
  | .func m keyword args body, mem, hfits, hnodup, hsane => by
    rw [SyntaxItem.nodes, nodeIds_append, nodeIds_append] at hnodup hsane ⊢
    obtain ⟨hids, -, hm⟩ := List.nodup_append.mp hnodup
    obtain ⟨-, -, hdisj⟩ := List.nodup_append.mp hids
    have hmargs : m.id ∉ nodeIds (funcArgsNodes args) := fun h =>
      hm _ (List.mem_append_left _ h) _ (.head _) rfl
    have hmbody : m.id ∉ nodeIds body.nodes := fun h =>
      hm _ (List.mem_append_right _ h) _ (.head _) rfl
    have hargsBlocks : (nodeIds (funcArgsNodes args) ++ [m.id]).Nodup :=
      hnodup.sublist ((List.sublist_append_left _ _).append_right _)
    have hbodyBlocks : (([(m.id, 30)] : List Addr).map Prod.fst ++ nodeIds body.nodes).Nodup :=
      List.nodup_append_comm.mp (hnodup.sublist ((List.sublist_append_right _ _).append_right _))
    generalize hmem₀ : (syntaxFuncCreate m.id mem).set (m.id, 4) (.text keyword) = mem₀
    -- the words of the block that are none of the slots
    have hown₀ : ∀ k, k ≠ 4 → k < 6 ∨ 29 ≤ k → mem₀ (m.id, k) =
        syntaxNodeInit (m.id, 0) .func (syntaxRootInit (m.id, 30) mem) (m.id, k) := by
      intro k hne hk
      rw [← hmem₀, NodeMemory.set_off hne]
      exact syntaxArgsInit_of_ne (.inr hk)
    have hother₀ : ∀ w : Addr, w.1 ≠ m.id → mem₀ w = mem w := by
      intro w hw
      rw [← hmem₀, NodeMemory.set_block hw, syntaxFuncCreate, syntaxArgsInit_of_ne (.inl hw),
        syntaxNodeInit_block hw, syntaxRootInit_block hw]
    have hcount₀ : mem₀ (m.id, 29) = mem (m.id, 29) := by
      rw [hown₀ 29 (by decide) (.inr le_rfl), syntaxNodeInit_off (by decide) (by decide)]
      exact syntaxRootInit_of_ne (fun h => by cases h) fun h => by cases h
    have hslots₀ : ∀ j < syntaxArgMax, listHead.Ring mem₀ (argRoot m.id j) [] := by
      intro j hj
      rw [← hmem₀]
      exact ring_keep_root (syntaxArgsInit_slots m.id _ j hj) (NodeMemory.set_off (by omega))
        (NodeMemory.set_off (by dsimp only [argRoot]; omega))
    obtain ⟨mem₁, hstore₁, hlaid₁, hother₁⟩ := funcArgs_stored args hfits.1 hargsBlocks
      (hcount₀ ▸ hsane m.id (List.mem_append_right _ (.head _))) hslots₀
    have hroot₁ : listHead.Ring mem₁ (m.id, 30) [] := by
      refine ring_keep_root (syntaxRootInit_ring (m.id, 30) mem) ?_ ?_
      · rw [hother₁ _ hmargs (.inr (.inr (by dsimp only; omega))),
          hown₀ 30 (by decide) (.inr (by decide))]
        exact syntaxNodeInit_off (by decide) (by decide)
      · rw [hother₁ _ hmargs (.inr (.inr (by dsimp only; omega))),
          hown₀ 31 (by decide) (.inr (by decide))]
        exact syntaxNodeInit_off (by decide) (by decide)
    have hsane₁ : SaneCounts mem₁ (nodeIds body.nodes) := by
      refine hsane.keep (fun id hid => List.mem_append_left _ (List.mem_append_right _ hid))
        fun w hw => ?_
      have hne : w.1 ≠ m.id := fun h => hmbody (h ▸ hw)
      rw [hother₁ w (fun h => hdisj _ h _ hw rfl) (.inl hne), hother₀ w hne]
    obtain ⟨mem₂, hstore₂, hring₂, hlaid₂, hother₂⟩ :=
      body.stored hfits.2 hbodyBlocks hsane₁ hroot₁
    have hargs₂ : ∀ w : Addr, w.1 ∈ nodeIds (funcArgsNodes args) → mem₂ w = mem₁ w := fun w hw =>
      hother₂ w (fun h => hdisj _ hw _ h rfl)
        (not_isLink_block fun h : w.1 = m.id => hmargs (h ▸ hw))
    have hown₂ : ∀ k, k < 30 → mem₂ (m.id, k) = mem₁ (m.id, k) := fun k hk =>
      hother₂ _ hmbody (not_isLink_off (by omega) (by omega))
    have hnode₂ : ∀ k, k < 4 → mem₂ (m.id, k) =
        syntaxNodeInit (m.id, 0) .func (syntaxRootInit (m.id, 30) mem) (m.id, k) := by
      intro k hk
      rw [hown₂ k (by omega), hother₁ _ hmargs (.inr (.inl (by dsimp only; omega))),
        hown₀ k (by omega) (.inl (by omega))]
    refine ⟨mem₂, ?_, ⟨?_, ?_, ?_, hring₂, hlaid₂⟩, ?_, fun w hw => ?_⟩
    · rw [SyntaxItem.store, hmem₀, hstore₁]
      exact hstore₂
    · exact (hnode₂ 0 (by decide)).trans (syntaxNodeInit_type _ _)
    · rw [hown₂ 4 (by decide), hother₁ _ hmargs (.inr (.inl (by dsimp only; omega))), ← hmem₀,
        NodeMemory.set_self]
      rfl
    · exact hlaid₁.keep (List.nodup_append.mp hids).1 hargs₂ fun k _ hk => hown₂ k hk
    · exact (hnode₂ 3 (by decide)).trans (syntaxNodeInit_opt (m.id, 0) _)
    · obtain ⟨hwids, hwm⟩ := not_or.mp (List.mem_append.not.mp hw)
      obtain ⟨hwargs, hwbody⟩ := not_or.mp (List.mem_append.not.mp hwids)
      have hne : w.1 ≠ m.id := fun h => hwm (h ▸ .head _)
      rw [hother₂ w hwbody (not_isLink_block hne), hother₁ w hwargs (.inl hne), hother₀ w hne]
  | .block m negative childs, mem, hfits, hnodup, hsane => by
    rw [SyntaxItem.nodes, nodeIds_append] at hnodup hsane ⊢
    have hout : m.id ∉ nodeIds childs.nodes := fun hmem =>
      (List.nodup_append.mp hnodup).2.2 _ hmem _ (.head _) rfl
    have hblocks : (([(m.id, 4)] : List Addr).map Prod.fst ++ nodeIds childs.nodes).Nodup :=
      List.nodup_append_comm.mp hnodup
    have hown : ∀ k, k ≠ 6 → syntaxBlockCreate m.id mem (m.id, k) =
        syntaxNodeInit (m.id, 0) .block (syntaxRootInit (m.id, 4) mem) (m.id, k) :=
      fun k hk => NodeMemory.set_off hk
    have hother : ∀ w : Addr, w.1 ≠ m.id → syntaxBlockCreate m.id mem w = mem w := by
      intro w hw
      rw [syntaxBlockCreate, NodeMemory.set_block hw, syntaxNodeInit_block hw,
        syntaxRootInit_block hw]
    have hroot : listHead.Ring (syntaxBlockCreate m.id mem) (m.id, 4) [] := by
      refine ring_keep_root (syntaxRootInit_ring (m.id, 4) mem) ?_ ?_
      · exact (hown 4 (by decide)).trans (syntaxNodeInit_off (by decide) (by decide))
      · exact (hown 5 (by decide)).trans (syntaxNodeInit_off (by decide) (by decide))
    have hsane₀ : SaneCounts (syntaxBlockCreate m.id mem) (nodeIds childs.nodes) :=
      hsane.keep (List.subset_append_left _ _) fun w hw => hother w fun h => hout (h ▸ hw)
    obtain ⟨mem₁, hstore₁, hring₁, hlaid₁, hother₁⟩ :=
      childs.stored hfits hblocks hsane₀ hroot
    have hown₁ : ∀ k, k < 4 → mem₁ (m.id, k) =
        syntaxNodeInit (m.id, 0) .block (syntaxRootInit (m.id, 4) mem) (m.id, k) := fun k hk =>
      (hother₁ _ hout (not_isLink_off (by omega) (by omega))).trans (hown k (by omega))
    have hzero₁ : mem₁ (m.id, 6) = .int 0 :=
      (hother₁ _ hout (not_isLink_off (by decide) (by decide))).trans (NodeMemory.set_self _)
    obtain ⟨mem₂, hmem₂, hnegative, hother₂⟩ : ∃ mem₂,
        (if negative then some (mem₁.set (m.id, 6) (.int 1)) else some mem₁) = some mem₂ ∧
        mem₂ (m.id, 6) = .int negative.toNat ∧ ∀ w, w ≠ (m.id, 6) → mem₂ w = mem₁ w := by
      cases negative with
      | false => exact ⟨mem₁, rfl, hzero₁, fun _ _ => rfl⟩
      | true => exact ⟨_, rfl, NodeMemory.set_self _, fun w hw => NodeMemory.set_of_ne hw⟩
    have hown₂ : ∀ k, k ≠ 6 → mem₂ (m.id, k) = mem₁ (m.id, k) := fun k hk =>
      hother₂ _ fun h => hk (Prod.mk.inj h).2
    have hchilds₂ : ∀ w : Addr, w.1 ∈ nodeIds childs.nodes → mem₂ w = mem₁ w := by
      rintro w hw
      refine hother₂ w ?_
      rintro rfl
      exact hout hw
    refine ⟨mem₂, ?_, ⟨?_, hnegative, ?_, ?_⟩, ?_, fun w hw => ?_⟩
    · rw [SyntaxItem.store, hstore₁]
      exact hmem₂
    · exact ((hown₂ 0 (by decide)).trans (hown₁ 0 (by decide))).trans (syntaxNodeInit_type _ _)
    · exact ring_keep_of_ids hring₁ SyntaxItems.entries_mem hchilds₂ (hown₂ 4 (by decide))
        (hown₂ 5 (by decide))
    · exact hlaid₁.keep (List.nodup_append.mp hnodup).1 fun w hw _ => hchilds₂ w hw
    · exact ((hown₂ 3 (by decide)).trans (hown₁ 3 (by decide))).trans
        (syntaxNodeInit_opt (m.id, 0) _)
    · obtain ⟨hchilds, hm⟩ := not_or.mp (List.mem_append.not.mp hw)
      have hne : w.1 ≠ m.id := fun h => hm (h ▸ .head _)
      rw [hother₂ w fun h => hne (congrArg Prod.fst h), hother₁ w hchilds (not_isLink_block hne),
        hother w hne]
  | .expr m key opt valchilds, mem, hfits, hnodup, _ => by
    rw [SyntaxItem.nodes, nodeIds_append] at hnodup ⊢
    have hout : m.id ∉ nodeIds valchilds.nodes := fun hmem =>
      (List.nodup_append.mp hnodup).2.2 _ hmem _ (.head _) rfl
    have hblocks : (([(m.id, 6)] : List Addr).map Prod.fst ++ nodeIds valchilds.nodes).Nodup :=
      List.nodup_append_comm.mp hnodup
    generalize hmem₀ : ((syntaxExprCreate m.id mem).set (m.id, 4) (.text key)).set (m.id, 5)
      (.sym opt) = mem₀
    have hown₀ : ∀ k, k ≠ 4 → k ≠ 5 → mem₀ (m.id, k) =
        syntaxRootInit (m.id, 6) (syntaxNodeInit (m.id, 0) .expr mem) (m.id, k) := by
      intro k h₄ h₅
      rw [← hmem₀, NodeMemory.set_off h₅, NodeMemory.set_off h₄]
      rfl
    have hother₀ : ∀ w : Addr, w.1 ≠ m.id → mem₀ w = mem w := by
      intro w hw
      rw [← hmem₀, NodeMemory.set_block hw, NodeMemory.set_block hw, syntaxExprCreate,
        syntaxRootInit_block hw, syntaxNodeInit_block hw]
    have hroot₀ : listHead.Ring mem₀ (m.id, 6) [] :=
      ring_keep_root (syntaxRootInit_ring (m.id, 6) _) (hown₀ 6 (by decide) (by decide))
        (hown₀ 7 (by decide) (by decide))
    obtain ⟨mem₁, hstore₁, hring₁, hlaid₁, hother₁⟩ := valchilds.stored hfits hblocks hroot₀
    have hown₁ : ∀ k, k < 6 → mem₁ (m.id, k) = mem₀ (m.id, k) := fun k hk =>
      hother₁ _ hout (not_isLink_off (by omega) (by omega))
    have hnode₁ : ∀ k, k < 4 → mem₁ (m.id, k) =
        syntaxNodeInit (m.id, 0) .expr mem (m.id, k) := by
      intro k hk
      rw [hown₁ k (by omega), hown₀ k (by omega) (by omega)]
      refine syntaxRootInit_of_ne (fun h => ?_) fun h => ?_
      · have hoff := (Prod.mk.inj h).2
        omega
      · have hoff := (Prod.mk.inj h).2
        dsimp only at hoff
        omega
    refine ⟨mem₁, ?_, ⟨?_, ?_, ?_, hring₁, hlaid₁⟩, ?_, fun w hw => ?_⟩
    · rw [SyntaxItem.store, hmem₀]
      exact hstore₁
    · exact (hnode₁ 0 (by decide)).trans (syntaxNodeInit_type _ _)
    · rw [hown₁ 4 (by decide), ← hmem₀, NodeMemory.set_off (by decide), NodeMemory.set_self]
      rfl
    · rw [hown₁ 5 (by decide), ← hmem₀, NodeMemory.set_self]
    · exact (hnode₁ 3 (by decide)).trans (syntaxNodeInit_opt (m.id, 0) _)
    · obtain ⟨hvals, hm⟩ := not_or.mp (List.mem_append.not.mp hw)
      have hne : w.1 ≠ m.id := fun h => hm (h ▸ .head _)
      rw [hother₁ w hvals (not_isLink_block hne), hother₀ w hne]

theorem SyntaxItems.stored : ∀ (items : SyntaxItems SyntaxNode) {mem : NodeMemory} {root : Addr}
    {l : List Addr}, items.Fits → ((root :: l).map Prod.fst ++ nodeIds items.nodes).Nodup →
    SaneCounts mem (nodeIds items.nodes) → listHead.Ring mem root l → ∃ mem',
      items.store root mem = some mem' ∧ listHead.Ring mem' root (l ++ items.entries) ∧
      items.Laid IsText mem' ∧
      ∀ w : Addr, w.1 ∉ nodeIds items.nodes → ¬IsLink (root :: l) w → mem' w = mem w
  | .nil, mem, root, l, _, _, _, hring => by
    refine ⟨mem, rfl, ?_, trivial, fun _ _ _ => rfl⟩
    rwa [SyntaxItems.entries, List.append_nil]
  | .cons node opt rest, mem, root, l, hfits, hnodup, hsane, hring => by
    rw [SyntaxItems.nodes, nodeIds_append] at hnodup hsane ⊢
    have hids := List.nodup_append.mp (List.nodup_append.mp hnodup).2.1
    exact cons_stored node.entry_mem hnodup hring
      (fun mem mem' hlaid hkeep => hlaid.keep hids.1 hkeep)
      (node.stored mem hfits.1 hids.1 (hsane.keep (List.subset_append_left _ _) fun _ _ => rfl))
      fun mem₁ hring hkept => rest.stored hfits.2 (nodup_next hnodup node.entry_mem)
        (hsane.keep (List.subset_append_right _ _) hkept) hring

end

/-- **The stores of the parser lay out the tree, and write its nodes only.** -/
theorem content_stored {m : SyntaxNode} {tree : SyntaxItems SyntaxNode} (mem : NodeMemory)
    (hfits : tree.Fits) (hnodup : (nodeIds (tree.nodes ++ [m])).Nodup)
    (hsane : SaneCounts mem (nodeIds tree.nodes)) : ∃ mem',
      contentStore m tree mem = some mem' ∧ ContentLaid IsText mem' m tree ∧
      ∀ w : Addr, w.1 ∉ nodeIds (tree.nodes ++ [m]) → mem' w = mem w := by
  rw [nodeIds_append] at hnodup ⊢
  have hout : m.id ∉ nodeIds tree.nodes := fun hmem =>
    (List.nodup_append.mp hnodup).2.2 _ hmem _ (.head _) rfl
  have hblocks : (([(m.id, 0)] : List Addr).map Prod.fst ++ nodeIds tree.nodes).Nodup :=
    List.nodup_append_comm.mp hnodup
  have hsane₀ : SaneCounts (syntaxContentCreate m.id mem) (nodeIds tree.nodes) :=
    hsane.keep (List.Subset.refl _) fun w hw => syntaxRootInit_block fun h : w.1 = m.id =>
      hout (h ▸ hw)
  obtain ⟨mem', hstore, hring, hlaid, hother⟩ :=
    tree.stored hfits hblocks hsane₀ (syntaxRootInit_ring (m.id, 0) mem)
  refine ⟨mem', hstore, ⟨hring, hlaid⟩, fun w hw => ?_⟩
  obtain ⟨htree, hm⟩ := not_or.mp (List.mem_append.not.mp hw)
  have hne : w.1 ≠ m.id := fun h => hm (h ▸ .head _)
  rw [hother w htree (not_isLink_block hne), syntaxContentCreate, syntaxRootInit_block hne]

end Lre
