import Lre.Exec.Owner
import Lre.Keyword.Registry
import Lre.Semantic.Resolve

/-!
# Scopes and objects

Names are resolved in the vector of the stub around them; handlers are given the innermost object.

* `KeywordTable.Owns`: a stub and its parent.
* `ResolvedItems.place`: each stub with its place; the `$` variables in an argument value get the
  function or call that the argument is for.
* `semaniticParseChilds_scoped`: in the trees that the analysis returns, the stubs outside argument
  values belong to the stub around them.
* **`interpExecute_owners`**: which constructor built the object of a handler. The values of
  arguments are resolved around the function or call and executed inside it.
-/

namespace Lre

open Run

variable {σ η D μ κ : Type}

/-! ## Places -/

mutual

/-- An operand with the places of its stubs; `callee` is the function or call of the argument it
stands in. -/
def ResolvedVal.place (callee : Option κ) : ResolvedVal κ → ResolvedVal (κ × Option κ)
  | .val x => .val x
  | .var valstub => .var (valstub, callee)
  | .valblock childs => .valblock (childs.place callee)
  | .call keystub args => .call (keystub, none) (args.place keystub)

/-- A value with the places of its stubs. -/
def ResolvedVals.place (callee : Option κ) : ResolvedVals κ → ResolvedVals (κ × Option κ)
  | .nil => .nil
  | .cons node opt rest => .cons (node.place callee) opt (rest.place callee)

/-- The arguments of `callee` with the places of their stubs. -/
def ResolvedArgs.place (callee : κ) : ResolvedArgs κ → ResolvedArgs (κ × Option κ)
  | .nil => .nil
  | .cons keystub valchilds rest =>
    .cons (keystub, none) (valchilds.place (some callee)) (rest.place callee)

end

mutual

/-- An item with the places of its stubs. -/
def ResolvedItem.place : ResolvedItem κ → ResolvedItem (κ × Option κ)
  | .func keystub args body => .func (keystub, none) (args.place keystub) body.place
  | .block negative childs => .block negative childs.place
  | .expr keystub opt valchilds => .expr (keystub, none) opt (valchilds.place none)

/-- Items with the places of their stubs. -/
def ResolvedItems.place : ResolvedItems κ → ResolvedItems (κ × Option κ)
  | .nil => .nil
  | .cons node opt rest => .cons node.place opt rest.place

end

mutual

theorem ResolvedVal.map_place (callee : Option κ) :
    ∀ v : ResolvedVal κ, (v.place callee).map Prod.fst = v
  | .val _ => rfl
  | .var _ => rfl
  | .valblock childs => by
    rw [ResolvedVal.place, ResolvedVal.map, ResolvedVals.map_place]
  | .call keystub args => by
    rw [ResolvedVal.place, ResolvedVal.map, ResolvedArgs.map_place]

theorem ResolvedVals.map_place (callee : Option κ) :
    ∀ vs : ResolvedVals κ, (vs.place callee).map Prod.fst = vs
  | .nil => rfl
  | .cons node opt rest => by
    rw [ResolvedVals.place, ResolvedVals.map, ResolvedVal.map_place, ResolvedVals.map_place]

theorem ResolvedArgs.map_place (callee : κ) :
    ∀ args : ResolvedArgs κ, (args.place callee).map Prod.fst = args
  | .nil => rfl
  | .cons keystub valchilds rest => by
    rw [ResolvedArgs.place, ResolvedArgs.map, ResolvedVals.map_place, ResolvedArgs.map_place]

end

mutual

theorem ResolvedItem.map_place : ∀ node : ResolvedItem κ, node.place.map Prod.fst = node
  | .func keystub args body => by
    rw [ResolvedItem.place, ResolvedItem.map, ResolvedArgs.map_place, ResolvedItems.map_place]
  | .block negative childs => by
    rw [ResolvedItem.place, ResolvedItem.map, ResolvedItems.map_place]
  | .expr keystub opt valchilds => by
    rw [ResolvedItem.place, ResolvedItem.map, ResolvedVals.map_place]

theorem ResolvedItems.map_place : ∀ items : ResolvedItems κ, items.place.map Prod.fst = items
  | .nil => rfl
  | .cons node opt rest => by
    rw [ResolvedItems.place, ResolvedItems.map, ResolvedItem.map_place, ResolvedItems.map_place]

end

/-! ## Owners -/

/-- `owner` is the parent of `stub`. -/
def KeywordTable.Owns (tab : KeywordTable σ η D) (owner stub : KeywordStub σ η D) : Prop :=
  ∃ id, tab.stubs[id]? = some owner ∧ stub.parent = some id

/-- A stub of the table at its place. -/
abbrev PlacedStub (σ η D : Type) := KeywordStub σ η D × Option (KeywordStub σ η D)

/-- Whose objects are for the handler of a stub at its place: those of its parent, but those of the
function or call of the argument for a `$` variable in an argument value. -/
def KeywordTable.Serves (tab : KeywordTable σ η D)
    (owner stub : PlacedStub σ η D) : Prop :=
  match stub.2 with
  | none => tab.Owns owner.1 stub.1
  | some callee => owner.1 = callee

/-- What is found in `kwvec` belongs to `owner`, if there is one. -/
def KeywordTable.ScopeOf (tab : KeywordTable σ η D)
    (owner : Option (PlacedStub σ η D)) (kwvec : Option (Slots ℕ)) : Prop :=
  ∀ keyword stub, semanticFindKeystub tab kwvec keyword = some stub →
    ∀ o ∈ owner, tab.Owns o.1 stub

/-- The place of a value in the scope `kwvec`, inside an object of `owner`. -/
def KeywordTable.PlaceOf (tab : KeywordTable σ η D)
    (owner : Option (PlacedStub σ η D)) (kwvec : Option (Slots ℕ)) :
    Option (KeywordStub σ η D) → Prop
  | none => tab.ScopeOf owner kwvec
  | some callee => owner = some (callee, none)

variable {tab : KeywordTable σ η D} {kwvec : Option (Slots ℕ)} {keyword : Word}
  {stub : KeywordStub σ η D}

theorem semanticFindKeystub_mem (h : semanticFindKeystub tab kwvec keyword = some stub) :
    stub ∈ tab.stubs := by
  cases kwvec with
  | none => cases h
  | some kwvec =>
    obtain ⟨id, -, hid, -⟩ := findStubByKeyword_spec h
    exact List.mem_of_getElem? hid

theorem callStub_mem (h : (callStub tab kwvec keyword).1 = some stub) : stub ∈ tab.stubs := by
  unfold callStub at h
  split at h
  · rename_i callstub hfind
    cases h
    exact semanticFindKeystub_mem hfind
  · exact semanticFindKeystub_mem (show semanticFindKeystub tab (some tab.root) keyword = _ from h)

theorem scopeOf_none : tab.ScopeOf none kwvec := by
  rintro keyword stub - o ⟨⟩

theorem scopeOf_subvec (h : tab.Homed) (hmem : stub ∈ tab.stubs) :
    tab.ScopeOf (some (stub, none)) stub.subvec := by
  rintro keyword member hfind _ ⟨⟩
  obtain ⟨id, hid⟩ := List.mem_iff_getElem?.mp hmem
  cases hvec : stub.subvec with
  | none =>
    rw [hvec] at hfind
    cases hfind
  | some kwvec =>
    rw [hvec] at hfind
    obtain ⟨i, hi, hmember, -⟩ := findStubByKeyword_spec hfind
    have hlevel : tab.level (some id) = kwvec := by
      rw [KeywordTable.level, hid, Option.bind_some, hvec, Option.getD_some]
    obtain ⟨_, stub', hstub', hparent, -⟩ := h (some id) i (hlevel ▸ hi)
    rw [hmember] at hstub'
    cases hstub'
    exact ⟨id, hid, hparent⟩

/-! ## The trees of the analysis -/

section Walk

set_option linter.unusedSectionVars false

variable (hh : tab.Homed)

include hh

mutual

theorem semaniticParseOperand_scoped : ∀ (v : SyntaxVal μ) (kwvec : Option (Slots ℕ))
    (r : ResolvedVal (KeywordStub σ η D)) (callee : Option (KeywordStub σ η D))
    (owner : Option (PlacedStub σ η D)),
    semaniticParseOperand tab kwvec v = some r → tab.PlaceOf owner kwvec callee →
      (r.place callee).Scoped tab.Serves owner
  | .val _ _ false, _, _, _, _, h, _ => by
    cases h
    trivial
  | .val _ x true, kwvec, r, callee, owner, h, hplace => by
    rw [semaniticParseOperand] at h
    obtain ⟨valstub, hfind, h⟩ := Option.bind_eq_some_iff.mp h
    cases h
    intro o ho
    cases callee with
    | none => exact hplace _ _ hfind o ho
    | some callee =>
      obtain rfl : owner = some (callee, none) := hplace
      cases ho
      rfl
  | .valblock _ childs, kwvec, r, callee, owner, h, hplace => by
    rw [semaniticParseOperand] at h
    obtain ⟨childs', hc, h⟩ := Option.bind_eq_some_iff.mp h
    cases h
    exact semaniticParseVal_scoped childs kwvec childs' callee owner hc hplace
  | .call _ keyword args, kwvec, r, callee, owner, h, _ => by
    rw [semaniticParseOperand] at h
    obtain ⟨callstub, hfind, h⟩ := Option.bind_eq_some_iff.mp h
    obtain ⟨args', ha, h⟩ := Option.bind_eq_some_iff.mp h
    cases h
    exact semaniticParseArgs_scoped args callstub _ args' (callStub_mem hfind) ha

theorem semaniticParseVal_scoped : ∀ (vs : SyntaxVals μ) (kwvec : Option (Slots ℕ))
    (r : ResolvedVals (KeywordStub σ η D)) (callee : Option (KeywordStub σ η D))
    (owner : Option (PlacedStub σ η D)),
    semaniticParseVal tab kwvec vs = some r → tab.PlaceOf owner kwvec callee →
      (r.place callee).Scoped tab.Serves owner
  | .nil, _, _, _, _, h, _ => by
    cases h
    trivial
  | .cons node _ rest, kwvec, r, callee, owner, h, hplace => by
    rw [semaniticParseVal] at h
    obtain ⟨node', hn, h⟩ := Option.bind_eq_some_iff.mp h
    obtain ⟨rest', hr, h⟩ := Option.bind_eq_some_iff.mp h
    cases h
    exact ⟨semaniticParseOperand_scoped node kwvec node' callee owner hn hplace,
      semaniticParseVal_scoped rest kwvec rest' callee owner hr hplace⟩

/-- The values are resolved in any scope: their `$` variables are placed in the arguments. -/
theorem semaniticParseArgs_scoped : ∀ (args : SyntaxArgs μ) (stub : KeywordStub σ η D)
    (kwvec : Option (Slots ℕ)) (r : ResolvedArgs (KeywordStub σ η D)), stub ∈ tab.stubs →
    semaniticParseArgs tab stub.subvec kwvec args = some r →
      (r.place stub).Scoped tab.Serves (stub, none)
  | .nil, _, _, _, _, h => by
    cases h
    trivial
  | .cons key valchilds rest, stub, kwvec, r, hmem, h => by
    rw [semaniticParseArgs] at h
    obtain ⟨argstub, hfind, h⟩ := Option.bind_eq_some_iff.mp h
    obtain ⟨valchilds', hv, h⟩ := Option.bind_eq_some_iff.mp h
    obtain ⟨rest', hr, h⟩ := Option.bind_eq_some_iff.mp h
    cases h
    exact ⟨scopeOf_subvec hh hmem _ _ hfind _ rfl,
      semaniticParseVal_scoped valchilds kwvec valchilds' (some stub) _ hv rfl,
      semaniticParseArgs_scoped rest stub kwvec rest' hmem hr⟩

end

theorem semaniticStaleArgs_scoped (hmem : stub ∈ tab.stubs) : ∀ (keys : List Word)
    (r : ResolvedArgs (KeywordStub σ η D)), semaniticStaleArgs tab stub.subvec keys = some r →
      (r.place stub).Scoped tab.Serves (stub, none)
  | [], _, h => by
    cases h
    trivial
  | key :: keys, r, h => by
    rw [semaniticStaleArgs] at h
    obtain ⟨argstub, hfind, h⟩ := Option.bind_eq_some_iff.mp h
    obtain ⟨rest', hr, h⟩ := Option.bind_eq_some_iff.mp h
    cases h
    exact ⟨scopeOf_subvec hh hmem _ _ hfind _ rfl, trivial,
      semaniticStaleArgs_scoped hmem keys rest' hr⟩

variable (stale : μ → List Word)

theorem semaniticFuncArgs_scoped (hmem : stub ∈ tab.stubs) (m : μ) (args : Option (SyntaxArgs μ))
    (r : ResolvedArgs (KeywordStub σ η D))
    (h : semaniticFuncArgs stale tab stub.subvec kwvec m args = some r) :
    (r.place stub).Scoped tab.Serves (stub, none) := by
  cases args with
  | none => exact semaniticStaleArgs_scoped hh hmem (stale m) r h
  | some args => exact semaniticParseArgs_scoped hh args stub kwvec r hmem h

mutual

theorem semaniticParseItem_scoped : ∀ (node : SyntaxItem μ) (kwvec : Option (Slots ℕ))
    (r : ResolvedItem (KeywordStub σ η D)) (owner : Option (PlacedStub σ η D)),
    semaniticParseItem stale tab kwvec node = some r → tab.ScopeOf owner kwvec →
      r.place.Scoped tab.Serves owner
  | .func m keyword args body, kwvec, r, owner, h, _ => by
    rw [semaniticParseItem] at h
    obtain ⟨funcstub, hfind, h⟩ := Option.bind_eq_some_iff.mp h
    obtain ⟨args', ha, h⟩ := Option.bind_eq_some_iff.mp h
    obtain ⟨body', hb, h⟩ := Option.bind_eq_some_iff.mp h
    cases h
    have hmem := semanticFindKeystub_mem hfind
    exact ⟨semaniticFuncArgs_scoped hh stale hmem m args args' ha,
      semaniticParseChilds_scoped body funcstub.subvec body' _ hb (scopeOf_subvec hh hmem)⟩
  | .block _ _ childs, kwvec, r, owner, h, hscope => by
    rw [semaniticParseItem] at h
    obtain ⟨childs', hc, h⟩ := Option.bind_eq_some_iff.mp h
    cases h
    exact semaniticParseChilds_scoped childs kwvec childs' owner hc hscope
  | .expr _ key opt valchilds, kwvec, r, owner, h, hscope => by
    rw [semaniticParseItem, semaniticParseExpr] at h
    obtain ⟨keystub, hfind, h⟩ := Option.bind_eq_some_iff.mp h
    obtain ⟨valchilds', hv, h⟩ := Option.bind_eq_some_iff.mp h
    cases h
    exact ⟨hscope _ _ hfind,
      semaniticParseVal_scoped hh valchilds kwvec valchilds' none owner hv hscope⟩

theorem semaniticParseChilds_scoped : ∀ (items : SyntaxItems μ) (kwvec : Option (Slots ℕ))
    (r : ResolvedItems (KeywordStub σ η D)) (owner : Option (PlacedStub σ η D)),
    semaniticParseChilds stale tab kwvec items = some r → tab.ScopeOf owner kwvec →
      r.place.Scoped tab.Serves owner
  | .nil, _, _, _, h, _ => by
    cases h
    trivial
  | .cons node _ rest, kwvec, r, owner, h, hscope => by
    rw [semaniticParseChilds] at h
    obtain ⟨node', hn, h⟩ := Option.bind_eq_some_iff.mp h
    obtain ⟨rest', hr, h⟩ := Option.bind_eq_some_iff.mp h
    cases h
    exact ⟨semaniticParseItem_scoped node kwvec node' owner hn hscope,
      semaniticParseChilds_scoped rest kwvec rest' owner hr hscope⟩

end

end Walk

/-! ## Executions -/

/-- Every handler call was made with an object that the constructor of the owner of the stub had
built. -/
def KeywordTable.HandlersOwned (tab : KeywordTable σ η D)
    (trace : List (ℕ × ExecEvent (KeywordStub σ η D) η)) : Prop :=
  OwnedCalls tab.Owns (fun _ _ => True) trace

theorem KeywordTable.HandlersOwned.named {trace : List (ℕ × ExecEvent (KeywordStub σ η D) η)}
    (h : tab.HandlersOwned trace) :
    OwnedCalls (fun owner stub => ∃ id, stub.2 = some id ∧
        tab.stubs[id]?.map KeywordStub.keyword = some owner.1) (fun _ _ => True)
      (trace.map fun e => (e.1, e.2.map fun stub => (stub.keyword, stub.parent))) := by
  refine OwnedCalls.map h (fun _ _ _ _ => trivial) ?_
  rintro - - stub - - owner ⟨id, hid, hparent⟩
  exact ⟨id, hparent, congrArg (Option.map KeywordStub.keyword) hid⟩

/-- No handler of a `$` variable in an argument value is called. -/
def ArgsPlain (trace : List (ℕ × ExecEvent (κ × Option κ) η)) : Prop :=
  ∀ e ∈ trace, ∀ stub handle, e.2.handlerCall = some (stub, handle) → stub.2 = none

/-- **Resolution scopes and objects.** Take an execution of a tree that the analysis accepts, and
`placed`, the same execution with the places of the stubs. The handlers of argument keys and, as
long as no push has been refused and no call left early, those of expression keys and of `$`
variables outside argument values are given objects of the owners of their stubs; those of `$`
variables in argument values are given objects of the function or call of the argument. So all
handlers are given objects of the owners when the execution is steady and calls none of the last
kind. -/
theorem interpExecute_owners {P : KeywordTable σ η D → ℕ → Prop} {reg : Registry σ η D}
    {gone : List ℕ} (hreg : RegistryRun P reg gone) (stale : μ → List Word) (tree : SyntaxItems μ)
    (r : ResolvedItems (KeywordStub σ η D))
    (hr : interpSemanticAnalysis stale reg.tab tree = some r) (R : Doubles D) (stacksize : ℕ)
    (env : σ) (ret : ℤ) (s : ExecState (KeywordStub σ η D) σ η)
    (hs : interpExecute stubCallbacks R stacksize r env = .ok (ret, s)) :
    ∃ placed : ExecState (PlacedStub σ η D) σ η,
      interpExecute (stubCallbacks.comap Prod.fst) R stacksize r.place env = .ok (ret, placed) ∧
      placed.map Prod.fst = s ∧ OwnedCalls reg.tab.Serves Due placed.trace ∧
      (Steady s.trace → ArgsPlain placed.trace → reg.tab.HandlersOwned s.trace) := by
  have hscoped := semaniticParseChilds_scoped hreg.homed stale tree _ r none hr scopeOf_none
  have hplace := interpExecute_map stubCallbacks R Prod.fst stacksize r.place env
  rw [ResolvedItems.map_place, hs] at hplace
  cases hp : interpExecute (stubCallbacks.comap Prod.fst) R stacksize r.place env with
  | error e =>
    rw [hp] at hplace
    cases hplace
  | ok p =>
    obtain ⟨ret', placed⟩ := p
    rw [hp] at hplace
    cases hplace
    have howned := interpExecute_ownedCalls hscoped hp
    refine ⟨placed, rfl, rfl, howned, fun hsteady hplain => ?_⟩
    refine howned.map (fun _ _ _ ht => (ht ▸ steady_map.mp hsteady).isDue) ?_
    intro e he stub handle hcall owner hserves
    rw [KeywordTable.Serves, hplain e he stub handle hcall] at hserves
    exact hserves

/-! ## A call that is left early -/

/-- A function `f` with the members `x`, `e` and `v`, whose objects are `false`, and a call `g` with
an argument `b`, whose objects are `true`. -/
def scopeModule : LrcModule Unit Bool Unit where
  funcs := [{
    keyword := ['f']
    constructor := fun _ => (some false, ())
    exec := none
    destructor := none
    args := [⟨['x'], fun _ _ _ => (0, ())⟩]
    exprs := [⟨['e'], fun _ _ _ _ => (1, ())⟩]
    vars := [⟨['v'], fun _ _ => ((0, [.setInt 1]), ())⟩]
    funcs := [] }]
  calls := [{
    keyword := ['g']
    constructor := fun _ => (some true, ())
    exec := some fun _ _ => ((0, [.setInt 1]), ())
    destructor := none
    args := [⟨['b'], fun _ _ _ => (0, ())⟩]
    vars := [] }]

/-- The body of a rule `f(x=1){...}`. -/
def scopeRule (body : SyntaxItems Unit) : SyntaxItems Unit :=
  .cons (.func () (.ident ['f'])
    (some (.cons (.ident ['x']) (.cons (.val () (.ident ['1']) false) .reserved .nil) .nil))
    body) .reserved .nil

/-- `f(x=1){e==$v}`. -/
def varRule : SyntaxItems Unit :=
  scopeRule (.cons (.expr () (.ident ['e']) .equal (.cons (.val () (.ident ['v']) true) .reserved
    .nil)) .reserved .nil)

/-- `f(x=1){!(e==g(b=1%1))||e==1}`. -/
def leftCallRule : SyntaxItems Unit :=
  scopeRule (.cons (.block () true (.cons (.expr () (.ident ['e']) .equal
    (.cons (.call () (.ident ['g']) (.cons (.ident ['b'])
      (.cons (.val () (.ident ['1']) false) .mod
        (.cons (.val () (.ident ['1']) false) .reserved .nil)) .nil)) .reserved .nil))
    .reserved .nil)) .or
  (.cons (.expr () (.ident ['e']) .equal (.cons (.val () (.ident ['1']) false) .reserved .nil))
    .reserved .nil))

/-- What names a stub, with its place. -/
structure StubName where
  keyword : Word
  parent : Option ℕ
  inArg : Bool
  deriving DecidableEq

def stubName (stub : PlacedStub σ η D) : StubName :=
  ⟨stub.1.keyword, stub.1.parent, stub.2.isSome⟩

/-- The trace of a rule with the components of `scopeModule`, by names. -/
def scopeTrace (rule : SyntaxItems Unit) : Option (List (ℕ × ExecEvent StubName Bool)) := do
  let r ← interpSemanticAnalysis (fun _ => []) (registerModules [scopeModule]) rule
  let p ← (interpExecute (stubCallbacks.comap Prod.fst) unitDoubles 1024 r.place ()).toOption
  return p.2.trace.map fun e => (e.1, e.2.map stubName)

theorem scopeTrace_varRule : scopeTrace varRule = some
    [(0, .exprHandler ⟨['e'], some 0, false⟩ false 1),
      (0, .varHandler ⟨['v'], some 0, false⟩ false 0),
      (0, .argHandler ⟨['x'], some 0, false⟩ false 0),
      (0, .constructor ⟨['f'], none, false⟩ (some false))] := by
  decide +kernel

theorem scopeTrace_leftCallRule : scopeTrace leftCallRule = some
    [(0, .exprHandler ⟨['e'], some 0, false⟩ true 1), (1, .valError), (1, .abandon),
      (1, .valError), (1, .constructor ⟨['g'], none, false⟩ (some true)),
      (0, .argHandler ⟨['x'], some 0, false⟩ false 0),
      (0, .constructor ⟨['f'], none, false⟩ (some false))] := by
  decide +kernel

theorem scopeTrace_eq_some {rule : SyntaxItems Unit}
    {named : List (ℕ × ExecEvent StubName Bool)}
    (h : scopeTrace rule = some named) :
    ∃ r ret placed,
      interpSemanticAnalysis (fun _ => []) (registerModules [scopeModule]) rule = some r ∧
      interpExecute (stubCallbacks.comap Prod.fst) unitDoubles 1024 r.place () =
        .ok (ret, placed) ∧
      interpExecute stubCallbacks unitDoubles 1024 r () = .ok (ret, placed.map Prod.fst) ∧
      placed.trace.map (fun e => (e.1, e.2.map stubName)) = named := by
  obtain ⟨r, hr, h⟩ := Option.bind_eq_some_iff.mp h
  obtain ⟨⟨ret, placed⟩, hp, h⟩ := Option.bind_eq_some_iff.mp h
  cases hx : interpExecute (stubCallbacks.comap Prod.fst) unitDoubles 1024 r.place () with
  | error e =>
    rw [hx] at hp
    cases hp
  | ok q =>
    rw [hx] at hp
    cases hp
    have hmap := interpExecute_map stubCallbacks unitDoubles Prod.fst 1024 r.place ()
    rw [ResolvedItems.map_place, hx] at hmap
    exact ⟨r, ret, placed, hr, hx, hmap, Option.some.inj h⟩

/-- In `f(x=1){e==$v}` every handler is given the object of `f`. -/
theorem interpExecute_owners_varRule : ∃ r ret s,
    interpSemanticAnalysis (fun _ => []) (registerModules [scopeModule]) varRule = some r ∧
    interpExecute stubCallbacks unitDoubles 1024 r () = .ok (ret, s) ∧
    (registerModules [scopeModule]).HandlersOwned s.trace := by
  obtain ⟨r, ret, placed, hr, hplaced, hs, hnamed⟩ := scopeTrace_eq_some scopeTrace_varRule
  have hreg : (registerModules [scopeModule]).Grown fun _ _ => True := registerModules_run _
  obtain ⟨placed', hplaced', -, -, howned⟩ :=
    interpExecute_owners hreg _ varRule r hr unitDoubles 1024 () ret _ hs
  rw [hplaced] at hplaced'
  cases hplaced'
  refine ⟨r, ret, placed.map Prod.fst, hr, hs, howned ?_ ?_⟩
  · have hsteady : Steady (placed.trace.map fun e => (e.1, e.2.map stubName)) := by
      rw [hnamed]
      simp [Steady]
    exact steady_map.mpr (steady_map.mp hsteady)
  · have hplain : ∀ e ∈ placed.trace.map fun e => (e.1, e.2.map stubName),
        ∀ stub handle, e.2.handlerCall = some (stub, handle) → stub.inArg = false := by
      rw [hnamed]
      simp [ExecEvent.handlerCall]
    intro e he stub handle hcall
    have hname := hplain _ (List.mem_map_of_mem he) (stubName stub) handle (by
      rw [ExecEvent.handlerCall_map, hcall]
      rfl)
    exact Option.not_isSome_iff_eq_none.mp (by simpa [stubName] using hname)

/-- After the call `g` is left early in the negated block, the handler of `e` is given the object of
`g`. -/
theorem leftCallRule_not_owned : leftCallRule.WF ∧
    ¬ ∀ (modules : List (LrcModule Unit Bool Unit)) (tree : SyntaxItems Unit)
        (r : ResolvedItems (KeywordStub Unit Bool Unit)) (stacksize : ℕ) (ret : ℤ)
        (s : ExecState (KeywordStub Unit Bool Unit) Unit Bool), tree.WF →
      interpSemanticAnalysis (fun _ => []) (registerModules modules) tree = some r →
      interpExecute stubCallbacks unitDoubles stacksize r () = .ok (ret, s) →
      (registerModules modules).HandlersOwned s.trace := by
  have hwf : leftCallRule.WF := by
    simp [leftCallRule, scopeRule, SyntaxItems.WF, SyntaxItem.WF, SyntaxVals.WF, SyntaxVal.WF,
      SyntaxArgs.WF, SyntaxArgs.count, argsWF, Lexeme.IsIdent, syntaxArgMax, Sym.IsComp,
      Sym.IsArith, Sym.IsJoin, getSymbolType, symWords]
  refine ⟨hwf, fun h => ?_⟩
  obtain ⟨r, ret, placed, hr, -, hs, hnamed⟩ := scopeTrace_eq_some scopeTrace_leftCallRule
  have howned := (h [scopeModule] leftCallRule r 1024 ret _ hwf hr hs).named
  have htrace : (placed.map Prod.fst).trace.map
      (fun e => (e.1, e.2.map fun stub => (stub.keyword, stub.parent))) =
      (placed.trace.map fun e => (e.1, e.2.map stubName)).map
        fun e => (e.1, e.2.map fun name => (name.keyword, name.parent)) := by
    simp only [ExecState.map, List.map_map, Function.comp_def, ExecEvent.map_map]
    rfl
  rw [htrace, hnamed] at howned
  obtain ⟨owner, ⟨id, hid, howner⟩, depth, hmem⟩ :=
    howned [] _ _ rfl trivial (['e'], some 0) true rfl
  cases hid
  -- the only object `true` is that of `g`, and the owner of `e` is `f`
  have hf : ['f'] = owner.1 := Option.some.inj howner
  simp [ExecEvent.map, Prod.ext_iff, ← hf] at hmem

end Lre
