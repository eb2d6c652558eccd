import Mathlib.Data.List.Nodup
import Lre.Keyword.Register
import Lre.Semantic.Kinds

/-!
# What registration covers

* `DeclaredAt`, `findPath`: the paths of keywords that a descriptor declares, and their lookups.
* `find_entry`, `RootEntry.find_member`, `find_under_member`: the lookups in a registered module.
* `SyntaxItems.Declared`: the rules that use declared keywords in their declared places.
* `Covered.resolves`: these resolve wherever the lookups of all declared paths find their entries.
* **`lrcModuleRegister_covers_iff`**: this is so exactly for the modules whose sub-functions have
  no members.
-/

namespace Lre

variable {σ η D μ : Type}

/-! ## Paths -/

/-- The path of keywords leads to the entry `d` below the entries `es`. -/
inductive DeclaredAt : List (StubData σ η D) → List Word → StubData σ η D → Prop
  | here {es : List (StubData σ η D)} {d : StubData σ η D} : d ∈ es → DeclaredAt es [d.keyword] d
  | under {es : List (StubData σ η D)} {e d : StubData σ η D} {path : List Word} : e ∈ es →
    DeclaredAt e.members path d → DeclaredAt es (e.keyword :: path) d

/-- `find_stub_by_keyword` on a vector, then on each `subvec`. -/
def findPath (tab : KeywordTable σ η D) (kwvec : Option (Slots ℕ)) :
    List Word → Option (KeywordStub σ η D)
  | [] => none
  | [keyword] => semanticFindKeystub tab kwvec keyword
  | keyword :: path =>
    (semanticFindKeystub tab kwvec keyword).bind fun keystub => findPath tab keystub.subvec path

/-- The siblings among the entries and everywhere below them have pairwise distinct keywords. -/
structure DistinctSiblings (es : List (StubData σ η D)) : Prop where
  top : (es.map StubData.keyword).Nodup
  members : ∀ path e, DeclaredAt es path e → (e.members.map StubData.keyword).Nodup

/-- Every declared path leads to a stub of the right type with the declared entry. -/
def Covered (tab : KeywordTable σ η D) (kwvec : Option (Slots ℕ)) (es : List (StubData σ η D)) :
    Prop :=
  ∀ path d, DeclaredAt es path d →
    ∃ keystub, findPath tab kwvec path = some keystub ∧ keystub.type = d.type ∧ keystub.data = d

variable {tab : KeywordTable σ η D} {kwvec : Option (Slots ℕ)} {es : List (StubData σ η D)}
  {d e : StubData σ η D} {path : List Word} {keystub : KeywordStub σ η D}

theorem DeclaredAt.ne_nil (h : DeclaredAt es path d) : path ≠ [] := by
  cases h with
  | here => exact List.cons_ne_nil _ _
  | under => exact List.cons_ne_nil _ _

theorem DistinctSiblings.intro (htop : (es.map StubData.keyword).Nodup)
    (h : ∀ e ∈ es, DistinctSiblings e.members) : DistinctSiblings es := by
  refine ⟨htop, fun path d hd => ?_⟩
  cases hd with
  | here he => exact (h d he).top
  | under he hunder => exact (h _ he).members _ d hunder

theorem findPath_cons {keyword : Word} (hpath : path ≠ [])
    (hfind : semanticFindKeystub tab kwvec keyword = some keystub) :
    findPath tab kwvec (keyword :: path) = findPath tab keystub.subvec path := by
  cases path with
  | nil => exact absurd rfl hpath
  | cons next path => rw [findPath, hfind, Option.bind_some]; exact nofun

theorem Covered.find (h : Covered tab kwvec es) (he : e ∈ es) :
    ∃ keystub, semanticFindKeystub tab kwvec e.keyword = some keystub ∧ keystub.type = e.type ∧
      keystub.data = e := h _ e (.here he)

theorem Covered.under (h : Covered tab kwvec es) (he : e ∈ es)
    (hfind : semanticFindKeystub tab kwvec e.keyword = some keystub) :
    Covered tab keystub.subvec e.members := by
  intro path d hd
  have hpath := h _ d (.under he hd)
  rwa [findPath_cons hd.ne_nil hfind] at hpath

/-! ## Lookups in a registered module -/

theorem eq_of_keyword_eq (h : (es.map StubData.keyword).Nodup) (hd : d ∈ es) (he : e ∈ es)
    (hkeyword : d.keyword = e.keyword) : d = e := List.inj_on_of_nodup_map h hd he hkeyword

theorem find_entry (hdistinct : (es.map StubData.keyword).Nodup) (hhomed : tab.Homed)
    (hnew : ∀ id, some id ∈ tab.root → ¬tab.Installed none e.keyword id) (he : e ∈ es) :
    ∃ kstub, RootEntry (registerEntries es tab) e kstub ∧
      semanticFindKeystub (registerEntries es tab) (some (registerEntries es tab).root) e.keyword =
        some (entryStub e kstub) := by
  obtain ⟨kstub, hentry⟩ := registerEntries_entry tab he
  have hsome : (findStubByKeyword (registerEntries es tab) (registerEntries es tab).root
      e.keyword).isSome :=
    isSome_findStubByKeyword.mpr ⟨kstub, hentry.visible, _, hentry.stub, rfl⟩
  obtain ⟨found, hfound⟩ := Option.isSome_iff_exists.mp hsome
  obtain ⟨id, hid, hstub, hkeyword⟩ := findStubByKeyword_spec hfound
  rcases registerEntries_root hid with hold | ⟨-, e', he', hentry'⟩
  · obtain ⟨keyword, hinst⟩ := hhomed none id hold
    obtain ⟨old, hget, hparent, -⟩ := hinst
    have hsame := getElem?_of_prefix (registerEntries_extends es tab).1 hget
    rw [hstub] at hsame
    cases hsame
    exact absurd ⟨found, hget, hparent, hkeyword⟩ (hnew id hold)
  · have hsame := hentry'.stub
    rw [hstub] at hsame
    cases hsame
    obtain rfl : e' = e := eq_of_keyword_eq hdistinct he' he hkeyword
    exact ⟨id, hentry', hfound⟩

section Members

variable {m : StubData σ η D} {kstub : ℕ} {keyword : Word}

theorem entryStub_subvec (hm : m ∈ e.members) (kstub : ℕ) :
    (entryStub e kstub).subvec =
      some ((List.range' (kstub + 1) e.members.length).map some) := by
  cases e with
  | func => rfl
  | call => rfl
  | arg => cases hm
  | expr => cases hm
  | var => cases hm

theorem entryStub_subvec_eq {kwvec : Slots ℕ} (h : (entryStub e kstub).subvec = some kwvec) :
    kwvec = (List.range' (kstub + 1) e.members.length).map some := by
  rw [entryStub, KeywordStub.withMembers, Option.map_eq_some_iff] at h
  obtain ⟨-, -, rfl⟩ := h
  rfl

theorem RootEntry.find (h : RootEntry tab e kstub)
    (hfind : semanticFindKeystub tab (entryStub e kstub).subvec keyword = some keystub) :
    ∃ m ∈ e.members, keystub = memberStub kstub m ∧ m.keyword = keyword := by
  cases hvec : (entryStub e kstub).subvec with
  | none =>
    rw [hvec] at hfind
    cases hfind
  | some kwvec =>
    rw [hvec, entryStub_subvec_eq hvec] at hfind
    obtain ⟨id, hid, hstub, hkeyword⟩ := findStubByKeyword_spec hfind
    obtain ⟨_, hrange, hself⟩ := List.mem_map.mp hid
    cases hself
    obtain ⟨i, hlt, rfl⟩ := List.mem_range'.mp hrange
    rw [one_mul, h.member i _ (List.getElem?_eq_getElem hlt)] at hstub
    cases hstub
    exact ⟨_, List.getElem_mem hlt, rfl, hkeyword⟩

theorem RootEntry.find_member (h : RootEntry tab e kstub)
    (hdistinct : (e.members.map StubData.keyword).Nodup) (hm : m ∈ e.members) :
    semanticFindKeystub tab (entryStub e kstub).subvec m.keyword = some (memberStub kstub m) := by
  have hsome : (semanticFindKeystub tab (entryStub e kstub).subvec m.keyword).isSome := by
    rw [entryStub_subvec hm, semanticFindKeystub]
    obtain ⟨i, hi⟩ := List.mem_iff_getElem?.mp hm
    have hlt := (List.getElem?_eq_some_iff.mp hi).1
    refine isSome_findStubByKeyword.mpr ⟨kstub + 1 + i, ?_, _, h.member i m hi, rfl⟩
    rw [← List.append_nil (List.map some _), foreachActiveSlot_map_some]
    exact List.mem_append_left _ (List.mem_range'.mpr ⟨i, hlt, by omega⟩)
  obtain ⟨found, hfound⟩ := Option.isSome_iff_exists.mp hsome
  obtain ⟨m', hm', rfl, hkeyword⟩ := h.find hfound
  rw [hfound, eq_of_keyword_eq hdistinct hm' hm hkeyword]

theorem find_under_member (tab : KeywordTable σ η D) (kstub : ℕ) (m : StubData σ η D)
    (keyword : Word) : semanticFindKeystub tab (memberStub kstub m).subvec keyword = none := by
  rw [memberStub, keywordStubCreate]
  split <;> rfl

end Members

/-! ## Coverage -/

/-- In the vector of a declared entry nothing but its members is found. -/
def Exact (tab : KeywordTable σ η D) (kwvec : Option (Slots ℕ)) (es : List (StubData σ η D)) :
    Prop :=
  ∀ path d keystub, DeclaredAt es path d → findPath tab kwvec path = some keystub →
    ∀ keyword, (semanticFindKeystub tab keystub.subvec keyword).isSome →
      ∃ m ∈ d.members, m.keyword = keyword

/-- What a path leads to in a registered module whose members have no members. -/
theorem findPath_registered (hdistinct : DistinctSiblings es) (hhomed : tab.Homed)
    (hnew : ∀ e ∈ es, ∀ id, some id ∈ tab.root → ¬tab.Installed none e.keyword id)
    (hflat : ∀ e ∈ es, ∀ m ∈ e.members, m.members = []) (hd : DeclaredAt es path d) :
    ∃ kstub, (RootEntry (registerEntries es tab) d kstub ∧
        findPath (registerEntries es tab) (some (registerEntries es tab).root) path =
          some (entryStub d kstub)) ∨
      d.members = [] ∧
        findPath (registerEntries es tab) (some (registerEntries es tab).root) path =
          some (memberStub kstub d) := by
  cases hd with
  | here he =>
    obtain ⟨kstub, hentry, hfind⟩ := find_entry hdistinct.top hhomed (hnew d he) he
    exact ⟨kstub, .inl ⟨hentry, hfind⟩⟩
  | under he hunder =>
    obtain ⟨kstub, hentry, hfind⟩ := find_entry hdistinct.top hhomed (hnew _ he) he
    cases hunder with
    | here hm =>
      refine ⟨kstub, .inr ⟨hflat _ he d hm, ?_⟩⟩
      rw [findPath_cons (List.cons_ne_nil _ _) hfind]
      exact hentry.find_member (hdistinct.members _ _ (.here he)) hm
    | under hm hdeep =>
      rw [hflat _ he _ hm] at hdeep
      cases hdeep with
      | here hnone => cases hnone
      | under hnone => cases hnone

section Registered

variable (hdistinct : DistinctSiblings es) (hhomed : tab.Homed)
  (hnew : ∀ e ∈ es, ∀ id, some id ∈ tab.root → ¬tab.Installed none e.keyword id)

include hdistinct hhomed hnew

theorem registerEntries_covered (hflat : ∀ e ∈ es, ∀ m ∈ e.members, m.members = []) :
    Covered (registerEntries es tab) (some (registerEntries es tab).root) es := by
  intro path d hd
  obtain ⟨kstub, ⟨-, hfind⟩ | ⟨-, hfind⟩⟩ := findPath_registered hdistinct hhomed hnew hflat hd
  · exact ⟨_, hfind, rfl, rfl⟩
  · exact ⟨_, hfind, rfl, rfl⟩

theorem registerEntries_exact (hflat : ∀ e ∈ es, ∀ m ∈ e.members, m.members = []) :
    Exact (registerEntries es tab) (some (registerEntries es tab).root) es := by
  intro path d keystub hd hpath keyword hsome
  obtain ⟨found, hfound⟩ := Option.isSome_iff_exists.mp hsome
  obtain ⟨kstub, ⟨hentry, hfind⟩ | ⟨-, hfind⟩⟩ :=
    findPath_registered hdistinct hhomed hnew hflat hd
  · obtain rfl := Option.some.inj (hpath.symm.trans hfind)
    obtain ⟨m, hm, -, hkeyword⟩ := hentry.find hfound
    exact ⟨m, hm, hkeyword⟩
  · obtain rfl := Option.some.inj (hpath.symm.trans hfind)
    rw [find_under_member] at hfound
    cases hfound

/-- **The members of a member are not installed.** -/
theorem registerEntries_flat
    (hcovered : Covered (registerEntries es tab) (some (registerEntries es tab).root) es) :
    ∀ e ∈ es, ∀ m ∈ e.members, m.members = [] := by
  intro e he m hm
  by_contra hne
  obtain ⟨d, hd⟩ := List.exists_mem_of_ne_nil _ hne
  obtain ⟨kstub, hentry, hfind⟩ := find_entry hdistinct.top hhomed (hnew e he) he
  have hmember := hentry.find_member (hdistinct.members _ _ (.here he)) hm
  obtain ⟨found, hfound, -⟩ := ((hcovered.under he hfind).under hm hmember).find hd
  rw [find_under_member] at hfound
  cases hfound

end Registered

/-! ## Declared rules -/

/-- The entries of a scope: those of the module, or the members of a function. -/
def scopeEntries (top : List (StubData σ η D)) : Option (StubData σ η D) → List (StubData σ η D)
  | none => top
  | some e => e.members

section Declared

variable (top : List (StubData σ η D))

mutual

/-- An operand that uses declared keywords. The scope of a call is that around it, unless it names
a member there, and the values of its arguments are read at the root. -/
def SyntaxVal.Declared (scope : Option (StubData σ η D)) : SyntaxVal μ → Prop
  | .val _ x isvar =>
    isvar = true → ∃ v, StubData.var v ∈ scopeEntries top scope ∧ v.keyword = x.cstr
  | .valblock _ childs => childs.Declared scope
  | .call _ keyword args =>
    ∃ c, StubData.call c ∈ top ∧ c.keyword = keyword.cstr ∧
      (∀ e ∈ scope, ∀ m ∈ e.members, m.keyword ≠ keyword.cstr) ∧ args.Declared (.call c) none

/-- A value that uses declared keywords. -/
def SyntaxVals.Declared (scope : Option (StubData σ η D)) : SyntaxVals μ → Prop
  | .nil => True
  | .cons node _ rest => node.Declared scope ∧ rest.Declared scope

/-- An argument list with arguments of `callee`, and values in the scope. -/
def SyntaxArgs.Declared (callee : StubData σ η D) (scope : Option (StubData σ η D)) :
    SyntaxArgs μ → Prop
  | .nil => True
  | .cons key valchilds rest =>
    (∃ a, StubData.arg a ∈ callee.members ∧ a.keyword = key.cstr) ∧ valchilds.Declared scope ∧
      rest.Declared callee scope

end

/-- The arguments of a function; the slots that count without a list are to be declared, too. -/
def FuncArgsDeclared (stale : μ → List Word) (callee : StubData σ η D)
    (scope : Option (StubData σ η D)) (m : μ) : Option (SyntaxArgs μ) → Prop
  | none => ∀ key ∈ stale m, ∃ a, StubData.arg a ∈ callee.members ∧ a.keyword = key
  | some args => args.Declared top callee scope

mutual

/-- An item that uses declared keywords in their declared places. -/
def SyntaxItem.Declared (stale : μ → List Word) (scope : Option (StubData σ η D)) :
    SyntaxItem μ → Prop
  | .func m keyword args body =>
    ∃ f, StubData.func f ∈ scopeEntries top scope ∧ f.keyword = keyword.cstr ∧
      FuncArgsDeclared top stale (.func f) scope m args ∧ body.Declared stale (some (.func f))
  | .block _ _ childs => childs.Declared stale scope
  | .expr _ key _ valchilds =>
    (∃ x, StubData.expr x ∈ scopeEntries top scope ∧ x.keyword = key.cstr) ∧
      valchilds.Declared top scope

/-- A list of items that use declared keywords in their declared places. -/
def SyntaxItems.Declared (stale : μ → List Word) (scope : Option (StubData σ η D)) :
    SyntaxItems μ → Prop
  | .nil => True
  | .cons node _ rest => node.Declared stale scope ∧ rest.Declared stale scope

end

end Declared

/-- The analysis of the tree succeeds, and binds each name to a stub of its role. -/
def Resolves (stale : μ → List Word) (tab : KeywordTable σ η D) (tree : SyntaxItems μ) : Prop :=
  ∃ r, interpSemanticAnalysis stale tab tree = some r ∧ r.Kinds KeywordStub.Is

/-- The vector is that of a scope of the module. -/
structure ScopeAt (tab : KeywordTable σ η D) (top : List (StubData σ η D))
    (scope : Option (StubData σ η D)) (kwvec : Option (Slots ℕ)) : Prop where
  covered : Covered tab kwvec (scopeEntries top scope)
  exact : Exact tab kwvec (scopeEntries top scope)
  root : scope = none → kwvec = some tab.root
  only : ∀ e ∈ scope, ∀ keyword, (semanticFindKeystub tab kwvec keyword).isSome →
    ∃ m ∈ e.members, m.keyword = keyword

section Resolve

variable {top : List (StubData σ η D)} {scope : Option (StubData σ η D)} {keyword : Word}

theorem ScopeAt.find (h : ScopeAt tab top scope kwvec) (he : e ∈ scopeEntries top scope)
    (hkeyword : e.keyword = keyword) :
    ∃ keystub, semanticFindKeystub tab kwvec keyword = some keystub ∧ keystub.Is e.type ∧
      ScopeAt tab top (some e) keystub.subvec := by
  subst hkeyword
  obtain ⟨keystub, hfind, htype, hdata⟩ := h.covered.find he
  refine ⟨keystub, hfind, ⟨htype, congrArg StubData.type hdata⟩, h.covered.under he hfind, ?_,
    nofun, ?_⟩
  · intro path d found hd hpath
    refine h.exact _ d found (.under he hd) ?_
    rwa [findPath_cons hd.ne_nil hfind]
  · rintro _ ⟨⟩
    exact h.exact _ e keystub (.here he) hfind

/-- A call is found at the root, and the values of its arguments are read there. -/
theorem ScopeAt.find_call (h : ScopeAt tab top scope kwvec)
    (hroot : ScopeAt tab top none (some tab.root)) {c : LrcStubCall σ η D} (hc : .call c ∈ top)
    (hkeyword : c.keyword = keyword) (hnone : ∀ e ∈ scope, ∀ m ∈ e.members, m.keyword ≠ keyword) :
    ∃ keystub, callStub tab kwvec keyword = (some keystub, some tab.root) ∧ keystub.Is .call ∧
      ScopeAt tab top (some (.call c)) keystub.subvec := by
  obtain ⟨keystub, hfind, his, hsub⟩ := hroot.find (e := .call c) hc hkeyword
  refine ⟨keystub, ?_, his, hsub⟩
  cases scope with
  | none =>
    rw [h.root rfl, callStub, hfind]
  | some e =>
    cases hinner : semanticFindKeystub tab kwvec keyword with
    | none => rw [callStub, hinner, hfind]
    | some found =>
      obtain ⟨m, hm, hsame⟩ := h.only e rfl keyword (by rw [hinner]; rfl)
      exact absurd hsame (hnone e rfl m hm)

set_option linter.unusedSectionVars false

variable (hroot : ScopeAt tab top none (some tab.root))

include hroot

mutual

theorem semaniticParseOperand_declared {scope : Option (StubData σ η D)}
    {kwvec : Option (Slots ℕ)} (h : ScopeAt tab top scope kwvec) :
    ∀ v : SyntaxVal μ, v.Declared top scope →
      ∃ r, semaniticParseOperand tab kwvec v = some r ∧ r.Kinds KeywordStub.Is
  | .val _ x false, _ => ⟨_, rfl, trivial⟩
  | .val _ x true, hdecl => by
    obtain ⟨v, hv, hkeyword⟩ := hdecl rfl
    obtain ⟨keystub, hfind, his, -⟩ := h.find hv hkeyword
    refine ⟨.var keystub, ?_, his⟩
    rw [semaniticParseOperand, hfind]
    rfl
  | .valblock _ childs, hdecl => by
    obtain ⟨r, hr, hkinds⟩ := semaniticParseVal_declared h childs hdecl
    refine ⟨.valblock r, ?_, hkinds⟩
    rw [semaniticParseOperand, hr]
    rfl
  | .call _ keyword args, hdecl => by
    obtain ⟨c, hc, hkeyword, hnone, hargs⟩ := hdecl
    obtain ⟨keystub, hfind, his, hsub⟩ := h.find_call hroot hc hkeyword hnone
    obtain ⟨r, hr, hkinds⟩ := semaniticParseArgs_declared hsub hroot args hargs
    refine ⟨.call keystub r, ?_, his, hkinds⟩
    rw [semaniticParseOperand, hfind]
    dsimp only
    rw [Option.bind_eq_bind, Option.bind_some, hr]
    rfl

theorem semaniticParseVal_declared {scope : Option (StubData σ η D)}
    {kwvec : Option (Slots ℕ)} (h : ScopeAt tab top scope kwvec) :
    ∀ vs : SyntaxVals μ, vs.Declared top scope →
      ∃ r, semaniticParseVal tab kwvec vs = some r ∧ r.Kinds KeywordStub.Is
  | .nil, _ => ⟨.nil, rfl, trivial⟩
  | .cons node opt rest, hdecl => by
    obtain ⟨r, hr, hkinds⟩ := semaniticParseOperand_declared h node hdecl.1
    obtain ⟨rs, hrs, hkindss⟩ := semaniticParseVal_declared h rest hdecl.2
    refine ⟨.cons r opt rs, ?_, hkinds, hkindss⟩
    rw [semaniticParseVal, hr, hrs]
    rfl

theorem semaniticParseArgs_declared {callee : StubData σ η D}
    {scope : Option (StubData σ η D)} {subvec kwvec : Option (Slots ℕ)}
    (hsub : ScopeAt tab top (some callee) subvec) (h : ScopeAt tab top scope kwvec) :
    ∀ args : SyntaxArgs μ, args.Declared top callee scope →
      ∃ r, semaniticParseArgs tab subvec kwvec args = some r ∧ r.Kinds KeywordStub.Is
  | .nil, _ => ⟨.nil, rfl, trivial⟩
  | .cons key valchilds rest, hdecl => by
    obtain ⟨⟨a, ha, hkeyword⟩, hval, hrest⟩ := hdecl
    obtain ⟨argstub, hfind, his, -⟩ := hsub.find ha hkeyword
    obtain ⟨r, hr, hkinds⟩ := semaniticParseVal_declared h valchilds hval
    obtain ⟨rs, hrs, hkindss⟩ := semaniticParseArgs_declared hsub h rest hrest
    refine ⟨.cons argstub r rs, ?_, his, hkinds, hkindss⟩
    rw [semaniticParseArgs, hfind, Option.bind_eq_bind, Option.bind_some, hr, hrs]
    rfl

end

theorem semaniticStaleArgs_declared {callee : StubData σ η D} {subvec : Option (Slots ℕ)}
    (hsub : ScopeAt tab top (some callee) subvec) :
    ∀ keys : List Word, (∀ key ∈ keys, ∃ a, StubData.arg a ∈ callee.members ∧ a.keyword = key) →
      ∃ r, semaniticStaleArgs tab subvec keys = some r ∧ r.Kinds KeywordStub.Is
  | [], _ => ⟨.nil, rfl, trivial⟩
  | key :: keys, hdecl => by
    obtain ⟨⟨a, ha, hkeyword⟩, hrest⟩ := List.forall_mem_cons.mp hdecl
    obtain ⟨argstub, hfind, his, -⟩ := hsub.find ha hkeyword
    obtain ⟨rs, hrs, hkinds⟩ := semaniticStaleArgs_declared hsub keys hrest
    refine ⟨.cons argstub .nil rs, ?_, his, trivial, hkinds⟩
    rw [semaniticStaleArgs, hfind, Option.bind_eq_bind, Option.bind_some, hrs]
    rfl

variable (stale : μ → List Word)

theorem semaniticFuncArgs_declared {callee : StubData σ η D} {subvec : Option (Slots ℕ)}
    (hsub : ScopeAt tab top (some callee) subvec) (h : ScopeAt tab top scope kwvec) (m : μ)
    (args : Option (SyntaxArgs μ)) (hdecl : FuncArgsDeclared top stale callee scope m args) :
    ∃ r, semaniticFuncArgs stale tab subvec kwvec m args = some r ∧ r.Kinds KeywordStub.Is := by
  cases args with
  | none => exact semaniticStaleArgs_declared hroot hsub (stale m) hdecl
  | some args => exact semaniticParseArgs_declared hroot hsub h args hdecl

mutual

theorem semaniticParseItem_declared {scope : Option (StubData σ η D)}
    {kwvec : Option (Slots ℕ)} (h : ScopeAt tab top scope kwvec) :
    ∀ node : SyntaxItem μ, node.Declared top stale scope →
      ∃ r, semaniticParseItem stale tab kwvec node = some r ∧ r.Kinds KeywordStub.Is
  | .func m keyword args body, hdecl => by
    obtain ⟨f, hf, hkeyword, hargs, hbody⟩ := hdecl
    obtain ⟨funcstub, hfind, his, hsub⟩ := h.find hf hkeyword
    obtain ⟨rargs, hrargs, hkindsargs⟩ := semaniticFuncArgs_declared hroot stale hsub h m args hargs
    obtain ⟨rbody, hrbody, hkindsbody⟩ := semaniticParseChilds_declared hsub body hbody
    refine ⟨.func funcstub rargs rbody, ?_, his, hkindsargs, hkindsbody⟩
    rw [semaniticParseItem, hfind, Option.bind_eq_bind, Option.bind_some, hrargs, hrbody]
    rfl
  | .block _ negative childs, hdecl => by
    obtain ⟨r, hr, hkinds⟩ := semaniticParseChilds_declared h childs hdecl
    refine ⟨.block negative r, ?_, hkinds⟩
    rw [semaniticParseItem, hr]
    rfl
  | .expr _ key opt valchilds, hdecl => by
    obtain ⟨⟨x, hx, hkeyword⟩, hval⟩ := hdecl
    obtain ⟨keystub, hfind, his, -⟩ := h.find hx hkeyword
    obtain ⟨r, hr, hkinds⟩ := semaniticParseVal_declared hroot h valchilds hval
    refine ⟨.expr keystub opt r, ?_, his, hkinds⟩
    rw [semaniticParseItem, semaniticParseExpr, hfind, Option.bind_eq_bind, Option.bind_some, hr]
    rfl

theorem semaniticParseChilds_declared {scope : Option (StubData σ η D)}
    {kwvec : Option (Slots ℕ)} (h : ScopeAt tab top scope kwvec) :
    ∀ items : SyntaxItems μ, items.Declared top stale scope →
      ∃ r, semaniticParseChilds stale tab kwvec items = some r ∧ r.Kinds KeywordStub.Is
  | .nil, _ => ⟨.nil, rfl, trivial⟩
  | .cons node opt rest, hdecl => by
    obtain ⟨r, hr, hkinds⟩ := semaniticParseItem_declared h node hdecl.1
    obtain ⟨rs, hrs, hkindss⟩ := semaniticParseChilds_declared h rest hdecl.2
    refine ⟨.cons r opt rs, ?_, hkinds, hkindss⟩
    rw [semaniticParseChilds, hr, hrs]
    rfl

end

end Resolve

/-- **Where all declared paths are covered, and vectors hold nothing undeclared, declared rules
resolve.** -/
theorem Covered.resolves {top : List (StubData σ η D)} (h : Covered tab (some tab.root) top)
    (hexact : Exact tab (some tab.root) top) (stale : μ → List Word) (tree : SyntaxItems μ)
    (hdecl : tree.Declared top stale none) : Resolves stale tab tree := by
  have hroot : ScopeAt tab top none (some tab.root) := ⟨h, hexact, fun _ => rfl, nofun⟩
  exact semaniticParseChilds_declared hroot stale hroot tree hdecl

/-! ## Registered modules -/

theorem LrcModule.flat_iff (module : LrcModule σ η D) :
    (∀ e ∈ module.entries, ∀ m ∈ e.members, m.members = []) ↔
      ∀ func ∈ module.funcs, ∀ subfunc ∈ func.funcs, (StubData.func subfunc).members = [] := by
  constructor
  · intro h func hfunc subfunc hsub
    refine h (.func func) (List.mem_append_left _ (List.mem_map_of_mem hfunc)) (.func subfunc) ?_
    exact List.mem_append_right _ (List.mem_map_of_mem hsub)
  · intro h e he m hm
    rcases m with subfunc | _ | _ | _ | _
    · rcases List.mem_append.mp he with he | he
      · obtain ⟨func, hfunc, rfl⟩ := List.mem_map.mp he
        refine h func hfunc subfunc ?_
        simpa [StubData.members] using hm
      · obtain ⟨call, -, rfl⟩ := List.mem_map.mp he
        simp [StubData.members] at hm
    · rcases List.mem_append.mp he with he | he
      · obtain ⟨func, -, rfl⟩ := List.mem_map.mp he
        simp [StubData.members] at hm
      · obtain ⟨call, -, rfl⟩ := List.mem_map.mp he
        simp [StubData.members] at hm
    all_goals rfl

/-- **A registration that succeeds covers its module, and all declared rules resolve, exactly when
the sub-functions of the module have no members.** -/
theorem lrcModuleRegister_covers_iff {P : KeywordTable σ η D → ℕ → Prop} {reg : Registry σ η D}
    {gone : List ℕ} (hrun : RegistryRun P reg gone) (module : LrcModule σ η D)
    (hdistinct : DistinctSiblings module.entries)
    (hnew : ∀ e ∈ module.entries, ∀ id, some id ∈ reg.tab.root →
      ¬reg.tab.Installed none e.keyword id)
    (hret : (lrcModuleRegister module reg.tab).1 = 0) :
    Covered (lrcModuleRegister module reg.tab).2
        (some (lrcModuleRegister module reg.tab).2.root) module.entries ∧
      (∀ (stale : μ → List Word) (tree : SyntaxItems μ), tree.Declared module.entries stale none →
        Resolves stale (lrcModuleRegister module reg.tab).2 tree) ↔
    ∀ func ∈ module.funcs, ∀ subfunc ∈ func.funcs, (StubData.func subfunc).members = [] := by
  have htab : (lrcModuleRegister module reg.tab).2 = registerEntries module.entries reg.tab := by
    have hexec := (lrcModuleRegister_eq_zero_iff module reg.tab).mp hret
    rw [lrcModuleRegister_eq, LrcModule.installed_eq hexec]
  rw [htab, ← module.flat_iff]
  constructor
  · rintro ⟨hcovered, -⟩
    exact registerEntries_flat hdistinct hrun.homed hnew hcovered
  · intro h
    have hcovered := registerEntries_covered hdistinct hrun.homed hnew h
    have hexact := registerEntries_exact hdistinct hrun.homed hnew h
    exact ⟨hcovered, hcovered.resolves hexact⟩

/-- A function `f` with a sub-function `g`, and the expressions of `g`. -/
def subModule (exprs : List (LrcStubExpr Unit Unit Unit)) : LrcModule Unit Unit Unit :=
  ⟨[{ bareFunc ['f'] with funcs := [{ bareFunc ['g'] with exprs }] }], []⟩

/-- An expression `e` of `g`. -/
def subExpr : LrcStubExpr Unit Unit Unit := ⟨['e'], fun _ _ _ _ => (1, ())⟩

/-- `f(){g(){e==1}}`. -/
def subTree : SyntaxItems Unit :=
  .cons (.func () (.ident ['f']) (some .nil) (.cons (.func () (.ident ['g']) (some .nil)
    (.cons (.expr () (.ident ['e']) .equal (.cons (.val () (.ident ['1']) false) .reserved .nil))
      .reserved .nil)) .reserved .nil)) .reserved .nil

theorem subModule_distinct (exprs : List (LrcStubExpr Unit Unit Unit))
    (h : (exprs.map LrcStubExpr.keyword).Nodup) :
    DistinctSiblings (subModule exprs).entries := by
  refine .intro (List.nodup_singleton _) fun e he => ?_
  obtain rfl := List.mem_singleton.mp he
  refine .intro (List.nodup_singleton _) fun e he => ?_
  obtain rfl := List.mem_singleton.mp he
  have hmembers : (StubData.func { bareFunc ['g'] with exprs }).members =
      exprs.map .expr := by simp [StubData.members, bareFunc]
  rw [hmembers]
  refine .intro (by rwa [List.map_map]) fun e he => ?_
  obtain ⟨x, -, rfl⟩ := List.mem_map.mp he
  exact .intro List.nodup_nil fun e he => absurd he List.not_mem_nil

/-- A module whose sub-function has no members is covered, and its declared rules resolve. -/
theorem lrcModuleRegister_covers_sub :
    Covered (lrcModuleRegister (subModule []) lreKeywordInit).2
        (some (lrcModuleRegister (subModule []) lreKeywordInit).2.root) (subModule []).entries ∧
      ∀ (stale : Unit → List Word) (tree : SyntaxItems Unit),
        tree.Declared (subModule []).entries stale none →
          Resolves stale (lrcModuleRegister (subModule []) lreKeywordInit).2 tree := by
  have hrun : RegistryRun (fun _ _ => True) ⟨(lreKeywordInit : KeywordTable Unit Unit Unit), []⟩
    [] := .init
  refine (lrcModuleRegister_covers_iff hrun (subModule [])
    (subModule_distinct [] List.nodup_nil) nofun rfl).mpr ?_
  intro func hfunc subfunc hsub
  obtain rfl := List.mem_singleton.mp hfunc
  obtain rfl := List.mem_singleton.mp hsub
  rfl

theorem subTree_declared : subTree.Declared (subModule [subExpr]).entries (fun _ => []) none := by
  have hexpr : ∃ x, StubData.expr x ∈ (StubData.func { bareFunc ['g'] with
      exprs := [subExpr] }).members ∧ x.keyword = ['e'] := ⟨subExpr, List.mem_cons_self, rfl⟩
  exact ⟨⟨_, List.mem_cons_self, rfl, trivial, ⟨_, List.mem_cons_self, rfl, trivial,
    ⟨hexpr, fun h => absurd h Bool.false_ne_true, trivial⟩, trivial⟩, trivial⟩, trivial⟩

/-- The expression of a sub-function is not found on its path, and a declared rule that uses it
does not resolve, though the registration succeeds. -/
theorem lrcModuleRegister_not_covers :
    (lrcModuleRegister (subModule [subExpr]) lreKeywordInit).1 = 0 ∧
    findPath (lrcModuleRegister (subModule [subExpr]) lreKeywordInit).2
      (some (lrcModuleRegister (subModule [subExpr]) lreKeywordInit).2.root)
      [['f'], ['g'], ['e']] = none ∧
    subTree.Declared (subModule [subExpr]).entries (fun _ => []) none ∧
    interpSemanticAnalysis (fun _ => []) (lrcModuleRegister (subModule [subExpr])
      lreKeywordInit).2 subTree = none ∧
    ¬∀ (module : LrcModule Unit Unit Unit), DistinctSiblings module.entries →
      (lrcModuleRegister module lreKeywordInit).1 = 0 →
        Covered (lrcModuleRegister module lreKeywordInit).2
          (some (lrcModuleRegister module lreKeywordInit).2.root) module.entries := by
  have hnone : findPath (lrcModuleRegister (subModule [subExpr]) lreKeywordInit).2
      (some (lrcModuleRegister (subModule [subExpr]) lreKeywordInit).2.root)
      [['f'], ['g'], ['e']] = none := rfl
  refine ⟨rfl, hnone, subTree_declared, rfl, fun hall => ?_⟩
  have hcovered := hall (subModule [subExpr]) (subModule_distinct _ (List.nodup_singleton _)) rfl
  have hpath : DeclaredAt (subModule [subExpr]).entries [['f'], ['g'], ['e']] (.expr subExpr) :=
    .under (e := .func _) List.mem_cons_self (.under (e := .func _) List.mem_cons_self
      (.here List.mem_cons_self))
  obtain ⟨keystub, hfind, -⟩ := hcovered _ _ hpath
  rw [hnone] at hfind
  cases hfind

end Lre
