import Lre.Exec.Kinds
import Lre.Semantic.Resolve

/-!
# Kind soundness of name resolution

* `Resolvable`, `Fitting`: a lookup finds a stub; a lookup finds no stub of another type than the
  role of the name.
* `semaniticParseChilds_reads`: the walk succeeds exactly when all its lookups do, and then its
  stubs have the types of their roles exactly when all its lookups fit.
* `KindSound`: what a successful analysis is to mean for the tree and for its executions.
* **`interpSemanticAnalysis_kindSound_iff`**: a lookup compares names only, so this holds exactly
  for the trees all of whose lookups fit.
-/

namespace Lre

variable {σ η D μ α β : Type}

/-- The stub is of the type and was registered with its structure. -/
def KeywordStub.Is (type : KeystubType) (keystub : KeywordStub σ η D) : Prop :=
  keystub.type = type ∧ keystub.data.type = type

/-- A lookup that finds a stub. -/
def Resolvable : LookupProp σ η D := fun _ found => found.isSome

/-- A lookup that finds no stub of another type. -/
def Fitting : LookupProp σ η D := fun type found => ∀ keystub ∈ found, keystub.type = type

/-! ## What a walk says about its lookups -/

/-- `x` is defined when `N` holds, and its value satisfies `K` when `F` holds. -/
def Reads (x : Option α) (K : α → Prop) (N F : Prop) : Prop :=
  match x with
  | none => ¬N
  | some a => N ∧ (K a ↔ F)

variable {K : α → Prop} {L : β → Prop} {N N' F F' : Prop}

theorem Reads.pure {a : α} (h : K a ↔ F) (hN : N) : Reads (some a) K N F := ⟨hN, h⟩

theorem Reads.bind {x : Option α} {f : α → Option β} (hx : Reads x K N F)
    (hf : ∀ a, x = some a → Reads (f a) L N' (K a ∧ F')) :
    Reads (x >>= f) L (N ∧ N') (F ∧ F') := by
  cases x with
  | none => exact fun h => hx h.1
  | some a =>
    have ha := hf a rfl
    show Reads (f a) L _ _
    cases hfa : f a with
    | none => rw [hfa] at ha; exact fun h => ha h.2
    | some b => rw [hfa] at ha; exact ⟨⟨hx.1, ha.1⟩, by rw [ha.2, hx.2]⟩

theorem Reads.map {x : Option α} {c : α → β} (hx : Reads x K N F) (h : ∀ a, L (c a) ↔ F' ∧ K a) :
    Reads (do return c (← x)) L N (F' ∧ F) := by
  cases x with
  | none => exact hx
  | some a => exact ⟨hx.1, by rw [h, hx.2]⟩

theorem Reads.map' {x : Option α} {c : α → β} (hx : Reads x K N F) (h : ∀ a, L (c a) ↔ K a) :
    Reads (do return c (← x)) L N F := by
  cases x with
  | none => exact hx
  | some a => exact ⟨hx.1, by rw [h, hx.2]⟩

variable {tab : KeywordTable σ η D}

theorem reads_find (htab : tab.Typed) (type : KeystubType) (kwvec : Option (Slots ℕ))
    (keyword : Word) :
    Reads (semanticFindKeystub tab kwvec keyword) (KeywordStub.Is type)
      (Resolvable type (semanticFindKeystub tab kwvec keyword))
      (Fitting type (semanticFindKeystub tab kwvec keyword)) := by
  cases hf : semanticFindKeystub tab kwvec keyword with
  | none => exact nofun
  | some keystub =>
    refine ⟨rfl, fun h k hk => Option.some.inj hk ▸ h.1, fun h => ⟨h _ rfl, ?_⟩⟩
    cases kwvec with
    | none => cases hf
    | some kwvec => rw [htab.find_data hf, h _ rfl]

theorem reads_callStub (htab : tab.Typed) (kwvec : Option (Slots ℕ)) (keyword : Word) :
    Reads (callStub tab kwvec keyword).1 (KeywordStub.Is .call)
      (Resolvable .call (callStub tab kwvec keyword).1)
      (Fitting .call (callStub tab kwvec keyword).1) := by
  have hf := reads_find htab .call kwvec keyword
  unfold callStub
  cases hs : semanticFindKeystub tab kwvec keyword with
  | none => exact reads_find htab .call tab.root keyword
  | some callstub => rwa [hs] at hf

theorem Reads.congr {x : Option α} (hx : Reads x K N F) (hF : F ↔ F') : Reads x K N F' := by
  rwa [← hF]

section Walk

set_option linter.unusedSectionVars false

variable (htab : tab.Typed)

include htab

mutual

theorem semaniticParseOperand_reads : ∀ (v : SyntaxVal μ) (kwvec : Option (Slots ℕ)),
    Reads (semaniticParseOperand tab kwvec v) (ResolvedVal.Kinds KeywordStub.Is)
      (v.Lookups Resolvable tab kwvec) (v.Lookups Fitting tab kwvec)
  | .val _ _ false, _ => .pure ⟨fun _ => nofun, fun _ => trivial⟩ nofun
  | .val _ x true, kwvec => by
    rw [semaniticParseOperand]
    simp only [SyntaxVal.Lookups, true_implies]
    exact (reads_find htab .var kwvec x.cstr).map' fun _ => Iff.rfl
  | .valblock _ childs, kwvec => (semaniticParseVal_reads childs kwvec).map' fun _ => Iff.rfl
  | .call _ keyword args, kwvec => by
    rw [semaniticParseOperand]
    apply (reads_callStub htab kwvec keyword.cstr).bind
    intro callstub hc
    rw [hc]
    exact (semaniticParseArgs_reads args callstub.subvec _).map fun _ => Iff.rfl

theorem semaniticParseVal_reads : ∀ (vs : SyntaxVals μ) (kwvec : Option (Slots ℕ)),
    Reads (semaniticParseVal tab kwvec vs) (ResolvedVals.Kinds KeywordStub.Is)
      (vs.Lookups Resolvable tab kwvec) (vs.Lookups Fitting tab kwvec)
  | .nil, _ => .pure Iff.rfl trivial
  | .cons node _ rest, kwvec =>
    (semaniticParseOperand_reads node kwvec).bind fun _ _ =>
      (semaniticParseVal_reads rest kwvec).map fun _ => Iff.rfl

theorem semaniticParseArgs_reads : ∀ (args : SyntaxArgs μ) (subvec kwvec : Option (Slots ℕ)),
    Reads (semaniticParseArgs tab subvec kwvec args) (ResolvedArgs.Kinds KeywordStub.Is)
      (args.Lookups Resolvable tab subvec kwvec) (args.Lookups Fitting tab subvec kwvec)
  | .nil, _, _ => .pure Iff.rfl trivial
  | .cons key valchilds rest, subvec, kwvec => by
    rw [semaniticParseArgs]
    apply (reads_find htab .arg subvec key.cstr).bind
    intro argstub _
    refine Reads.congr (Reads.bind (semaniticParseVal_reads valchilds kwvec) fun valchilds _ => ?_)
      and_left_comm
    refine Reads.congr (Reads.map (semaniticParseArgs_reads rest subvec kwvec) fun _ => ?_)
      and_assoc
    exact and_assoc.symm.trans (and_congr_left' and_comm)

end

theorem semaniticStaleArgs_reads (subvec : Option (Slots ℕ)) : ∀ keys : List Word,
    Reads (semaniticStaleArgs tab subvec keys) (ResolvedArgs.Kinds KeywordStub.Is)
      (∀ key ∈ keys, Resolvable .arg (semanticFindKeystub tab subvec key))
      (∀ key ∈ keys, Fitting .arg (semanticFindKeystub tab subvec key))
  | [] => .pure ⟨fun _ => nofun, fun _ => trivial⟩ nofun
  | key :: keys => by
    rw [semaniticStaleArgs]
    simp only [List.forall_mem_cons]
    apply (reads_find htab .arg subvec key).bind
    intro argstub _
    apply (semaniticStaleArgs_reads subvec keys).map
    intro args
    exact and_congr_right' (iff_of_eq (true_and _))

variable (stale : μ → List Word)

theorem semaniticFuncArgs_reads (subvec kwvec : Option (Slots ℕ)) (m : μ)
    (args : Option (SyntaxArgs μ)) :
    Reads (semaniticFuncArgs stale tab subvec kwvec m args) (ResolvedArgs.Kinds KeywordStub.Is)
      (FuncArgsLookups Resolvable stale tab subvec kwvec m args)
      (FuncArgsLookups Fitting stale tab subvec kwvec m args) := by
  cases args with
  | none => exact semaniticStaleArgs_reads htab subvec (stale m)
  | some args => exact semaniticParseArgs_reads htab args subvec kwvec

theorem semaniticParseExpr_reads (kwvec : Option (Slots ℕ)) (key : Lexeme) (opt : Sym)
    (valchilds : SyntaxVals μ) :
    Reads (semaniticParseExpr tab kwvec key opt valchilds) (ResolvedItem.Kinds KeywordStub.Is)
      (Resolvable .expr (semanticFindKeystub tab kwvec key.cstr) ∧
        valchilds.Lookups Resolvable tab kwvec)
      (Fitting .expr (semanticFindKeystub tab kwvec key.cstr) ∧
        valchilds.Lookups Fitting tab kwvec) :=
  (reads_find htab .expr kwvec key.cstr).bind fun _ _ =>
    (semaniticParseVal_reads htab valchilds kwvec).map fun _ => Iff.rfl

mutual

theorem semaniticParseItem_reads : ∀ (node : SyntaxItem μ) (kwvec : Option (Slots ℕ)),
    Reads (semaniticParseItem stale tab kwvec node) (ResolvedItem.Kinds KeywordStub.Is)
      (node.Lookups Resolvable stale tab kwvec) (node.Lookups Fitting stale tab kwvec)
  | .func m keyword args body, kwvec => by
    rw [semaniticParseItem, SyntaxItem.Lookups, SyntaxItem.Lookups]
    apply (reads_find htab .func kwvec keyword.cstr).bind
    intro funcstub hf
    rw [hf]
    refine Reads.congr (Reads.bind (semaniticFuncArgs_reads htab stale funcstub.subvec kwvec m args)
      fun args _ => ?_) and_left_comm
    refine Reads.congr (Reads.map (semaniticParseChilds_reads body funcstub.subvec) fun _ => ?_)
      and_assoc
    exact and_assoc.symm.trans (and_congr_left' and_comm)
  | .block _ _ childs, kwvec => (semaniticParseChilds_reads childs kwvec).map' fun _ => Iff.rfl
  | .expr _ key opt valchilds, kwvec => semaniticParseExpr_reads htab kwvec key opt valchilds

/-- **The walk succeeds exactly when every lookup finds a stub, and its stubs are of the types of
their roles exactly when every lookup fits.** -/
theorem semaniticParseChilds_reads : ∀ (items : SyntaxItems μ) (kwvec : Option (Slots ℕ)),
    Reads (semaniticParseChilds stale tab kwvec items) (ResolvedItems.Kinds KeywordStub.Is)
      (items.Lookups Resolvable stale tab kwvec) (items.Lookups Fitting stale tab kwvec)
  | .nil, _ => .pure Iff.rfl trivial
  | .cons node _ rest, kwvec =>
    (semaniticParseItem_reads node kwvec).bind fun _ _ =>
      (semaniticParseChilds_reads rest kwvec).map fun _ => Iff.rfl

/-- At the root no expression has the type of its role: the vector holds functions and calls. -/
theorem semaniticParseItem_enclosed : ∀ (node : SyntaxItem μ)
    (r : ResolvedItem (KeywordStub σ η D)), semaniticParseItem stale tab tab.root node = some r →
      r.Kinds KeywordStub.Is → r.Enclosed
  | .func m keyword args body, r, h, _ => by
    rw [semaniticParseItem] at h
    obtain ⟨_, -, h⟩ := Option.bind_eq_some_iff.mp h
    obtain ⟨_, -, h⟩ := Option.bind_eq_some_iff.mp h
    obtain ⟨_, -, h⟩ := Option.bind_eq_some_iff.mp h
    cases h
    trivial
  | .block _ negative childs, r, h, hk => by
    rw [semaniticParseItem] at h
    obtain ⟨childs', hc, h⟩ := Option.bind_eq_some_iff.mp h
    cases h
    exact semaniticParseChilds_enclosed childs childs' hc hk
  | .expr _ key opt valchilds, r, h, hk => by
    rw [semaniticParseItem, semaniticParseExpr] at h
    obtain ⟨keystub, hf, h⟩ := Option.bind_eq_some_iff.mp h
    obtain ⟨_, -, h⟩ := Option.bind_eq_some_iff.mp h
    cases h
    have hglobal : keystub.IsGlobal := htab.find_root hf
    have htype : keystub.type = .expr := hk.1.1
    rw [KeywordStub.IsGlobal, htype] at hglobal
    exact absurd hglobal (by decide)

theorem semaniticParseChilds_enclosed : ∀ (items : SyntaxItems μ)
    (r : ResolvedItems (KeywordStub σ η D)),
    semaniticParseChilds stale tab tab.root items = some r →
      r.Kinds KeywordStub.Is → r.Enclosed
  | .nil, r, h, _ => by
    cases h
    trivial
  | .cons node opt rest, r, h, hk => by
    rw [semaniticParseChilds] at h
    obtain ⟨node', hn, h⟩ := Option.bind_eq_some_iff.mp h
    obtain ⟨rest', hr, h⟩ := Option.bind_eq_some_iff.mp h
    cases h
    exact ⟨semaniticParseItem_enclosed node node' hn hk.1,
      semaniticParseChilds_enclosed rest rest' hr hk.2⟩

end

end Walk

/-! ## The property and its condition -/

/-- When the analysis of `tree` succeeds, every stub is of the type of its role, expressions stand
inside functions, no execution casts a stub to another structure, and none with room for its
objects looks for the object of an expression on an empty stack. -/
def KindSound (stale : μ → List Word) (tab : KeywordTable σ η D) (tree : SyntaxItems μ) : Prop :=
  ∀ r, interpSemanticAnalysis stale tab tree = some r →
    r.Kinds KeywordStub.Is ∧ r.Enclosed ∧
      ∀ (R : Doubles D) (stacksize : ℕ) (env : σ),
        interpExecute stubCallbacks R stacksize r env ≠ .error .badStub ∧
          (r.handles + execStackGap ≤ stacksize →
            interpExecute stubCallbacks R stacksize r env ≠ .error .emptyStack)

/-- **Kind soundness holds exactly for the trees whose lookups fit, as long as all of them find a
stub.** -/
theorem interpSemanticAnalysis_kindSound_iff (modules : List (LrcModule σ η D))
    (stale : μ → List Word) (tree : SyntaxItems μ) :
    KindSound stale (registerModules modules) tree ↔
      (tree.Lookups Resolvable stale (registerModules modules) (registerModules modules).root →
        tree.Lookups Fitting stale (registerModules modules) (registerModules modules).root) := by
  have htab := registerModules_typed modules
  generalize registerModules modules = tab at htab
  have hreads := semaniticParseChilds_reads htab stale tree tab.root
  unfold KindSound interpSemanticAnalysis
  cases hr : semaniticParseChilds stale tab tab.root tree with
  | none =>
    rw [hr] at hreads
    exact ⟨fun _ hn => absurd hn hreads, fun _ => nofun⟩
  | some r =>
    rw [hr] at hreads
    refine ⟨fun h _ => hreads.2.mp (h r rfl).1, fun h r' hr' => ?_⟩
    cases hr'
    have hk : r.Kinds KeywordStub.Is := hreads.2.mpr (h hreads.1)
    have henc := semaniticParseChilds_enclosed htab stale tree r hr hk
    have hcast : ∀ type (keystub : KeywordStub σ η D), keystub.Is type →
        stubCallbacks.type keystub = type := fun _ _ h => h.2
    exact ⟨hk, henc, fun R stacksize env => ⟨interpExecute_ne_badStub hcast hk stacksize env,
      fun hroom => interpExecute_ne_emptyStack hcast hk henc hroom env⟩⟩

/-! ## A name in another role -/

/-- A function `f` with an argument `x` and an expression `e`. -/
def swapModule : LrcModule Unit Unit Unit where
  funcs := [{
    keyword := ['f']
    constructor := fun _ => (some (), ())
    exec := none
    destructor := none
    args := [⟨['x'], fun _ _ _ => (0, ())⟩]
    exprs := [⟨['e'], fun _ _ _ _ => (1, ())⟩]
    vars := []
    funcs := [] }]
  calls := []

/-- `f(e=1){x==1}`. -/
def swapTree : SyntaxItems Unit :=
  .cons (.func () (.ident ['f'])
    (some (.cons (.ident ['e']) (.cons (.val () (.ident ['1']) false) .reserved .nil) .nil))
    (.cons (.expr () (.ident ['x']) .equal (.cons (.val () (.ident ['1']) false) .reserved .nil))
      .reserved .nil)) .reserved .nil

/-- The rule is one of the grammar, its analysis succeeds, and its execution casts the expression
`e` to an argument. -/
theorem swapTree_not_kindSound : swapTree.WF ∧
    (∃ r, interpSemanticAnalysis (fun _ => []) (registerModules [swapModule]) swapTree = some r ∧
      interpExecute stubCallbacks unitDoubles 1024 r () = .error .badStub) ∧
    ¬KindSound (fun _ => []) (registerModules [swapModule]) swapTree := by
  have hbad : ∃ r, interpSemanticAnalysis (fun _ => []) (registerModules [swapModule]) swapTree =
      some r ∧ interpExecute stubCallbacks unitDoubles 1024 r () = .error .badStub := ⟨_, rfl, rfl⟩
  have hwf : swapTree.WF := by
    simp [swapTree, SyntaxItems.WF, SyntaxItem.WF, SyntaxVals.WF, SyntaxVal.WF, SyntaxArgs.WF,
      SyntaxArgs.count, argsWF, Lexeme.IsIdent, syntaxArgMax, Sym.IsComp, getSymbolType, symWords]
  refine ⟨hwf, hbad, ?_⟩
  intro h
  obtain ⟨r, hr, hx⟩ := hbad
  exact ((h r hr).2.2 unitDoubles 1024 ()).1 hx

end Lre
