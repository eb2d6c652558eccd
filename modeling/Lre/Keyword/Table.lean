import Lre.Exec.Model

/-!
# Keywords

* `LrcStubFunc`, `LrcStubCall`, `LrcStubArg`, `LrcStubExpr`, `LrcStubVar`, `LrcModule`: what a
  component hands to `lrc_module_register`.
* `KeywordTable`: the stubs of `keyword.c`. A stub is named by its place in `stubs`; a vector of
  stubs holds such names. `data` is the structure `keyword_install` was given.
* `lrcModuleRegister`, `registerModules`: registration, and the tables it makes.
* `registerModules_typed`, `KeywordTable.Typed.find_root`: in these tables every stub holds the
  structure its type names, and the root vector holds functions and calls only.
-/

namespace Lre

/-! ## Vectors -/

/-- The slots of a `vector_t` up to `active`; `none` is `NULL`. -/
abbrev Slots (α : Type) := List (Option α)

/-- `vector_set`. -/
def vectorSet {α : Type} : Slots α → α → Slots α
  | [], val => [some val]
  | none :: slots, val => some val :: slots
  | some v :: slots, val => some v :: vectorSet slots val

/-- What `vector_foreach_active_slot` visits: it stops at the first empty slot. -/
def foreachActiveSlot {α : Type} : Slots α → List α
  | some v :: slots => v :: foreachActiveSlot slots
  | _ => []

theorem mem_of_mem_foreachActiveSlot {α : Type} {v : α} {slots : Slots α}
    (h : v ∈ foreachActiveSlot slots) : some v ∈ slots := by
  induction slots with
  | nil => cases h
  | cons slot slots ih =>
    cases slot with
    | none => cases h
    | some w =>
      rcases List.mem_cons.mp h with rfl | h
      · exact .head _
      · exact .tail _ (ih h)

theorem mem_vectorSet {α : Type} {v val : α} {slots : Slots α} (h : some v ∈ vectorSet slots val) :
    some v ∈ slots ∨ v = val := by
  induction slots with
  | nil => simpa [vectorSet] using h
  | cons slot slots ih =>
    cases slot with
    | none => simpa [vectorSet, or_comm] using h
    | some w =>
      rcases List.mem_cons.mp h with h | h
      · exact .inl (h ▸ .head _)
      · exact (ih h).imp_left (.tail _)

/-! ## Descriptors -/

/-- `struct lrc_stub_arg`. -/
structure LrcStubArg (σ η D : Type) where
  keyword : Word
  handler : η → Content D → σ → ℤ × σ

/-- `struct lrc_stub_expr`. -/
structure LrcStubExpr (σ η D : Type) where
  keyword : Word
  handler : η → Sym → Content D → σ → ℤ × σ

/-- `struct lrc_stub_var`. -/
structure LrcStubVar (σ η D : Type) where
  keyword : Word
  handler : η → σ → (ℤ × List (SetValue D)) × σ

/-- `struct lrc_stub_call`. -/
structure LrcStubCall (σ η D : Type) where
  keyword : Word
  constructor : σ → Option η × σ
  exec : Option (η → σ → (ℤ × List (SetValue D)) × σ)
  destructor : Option (η → σ → σ)
  args : List (LrcStubArg σ η D)
  vars : List (LrcStubVar σ η D)

/-- `struct lrc_stub_func`. -/
structure LrcStubFunc (σ η D : Type) where
  keyword : Word
  constructor : σ → Option η × σ
  exec : Option (η → σ → ℤ × σ)
  destructor : Option (η → σ → σ)
  args : List (LrcStubArg σ η D)
  exprs : List (LrcStubExpr σ η D)
  vars : List (LrcStubVar σ η D)
  funcs : List (LrcStubFunc σ η D)

/-- `struct lrc_module`. -/
structure LrcModule (σ η D : Type) where
  funcs : List (LrcStubFunc σ η D)
  calls : List (LrcStubCall σ η D)

/-- The structure a `void *data` points to. -/
inductive StubData (σ η D : Type)
  | func (f : LrcStubFunc σ η D)
  | call (c : LrcStubCall σ η D)
  | arg (a : LrcStubArg σ η D)
  | expr (e : LrcStubExpr σ η D)
  | var (v : LrcStubVar σ η D)

variable {σ η D : Type}

/-- The type of the structure. -/
def StubData.type : StubData σ η D → KeystubType
  | .func _ => .func
  | .call _ => .call
  | .arg _ => .arg
  | .expr _ => .expr
  | .var _ => .var

/-! ## The table -/

/-- `struct keyword_stub`; `parent` and `subvec` are `none` for `NULL`. -/
structure KeywordStub (σ η D : Type) where
  type : KeystubType
  keyword : Word
  data : StubData σ η D
  parent : Option ℕ
  subvec : Option (Slots ℕ)

/-- All stubs, and `root_kstub_vec`. -/
structure KeywordTable (σ η D : Type) where
  stubs : List (KeywordStub σ η D)
  root : Slots ℕ

/-- `lre_keyword_init`. -/
def lreKeywordInit : KeywordTable σ η D := ⟨[], []⟩

/-- `keyword_stub_create`. -/
def keywordStubCreate (type : KeystubType) (keyword : Word) (data : StubData σ η D)
    (parent : Option ℕ) : KeywordStub σ η D :=
  ⟨type, keyword, data, parent, if type = .func ∨ type = .call then some [] else none⟩

/-- `keyword_stub_add`. -/
def keywordStubAdd (tab : KeywordTable σ η D) (keystub : ℕ) : Option ℕ → KeywordTable σ η D
  | none => { tab with root := vectorSet tab.root keystub }
  | some parent =>
    { tab with
      stubs := tab.stubs.modify parent fun p =>
        { p with subvec := p.subvec.map (vectorSet · keystub) } }

/-- `keyword_install`: the table with the stub, and the stub. -/
def keywordInstall (type : KeystubType) (keyword : Word) (data : StubData σ η D)
    (parent : Option ℕ) (tab : KeywordTable σ η D) : KeywordTable σ η D × ℕ :=
  let keystub := tab.stubs.length
  let stubs := tab.stubs ++ [keywordStubCreate type keyword data parent]
  (keywordStubAdd { tab with stubs := stubs } keystub parent, keystub)

/-- `find_stub_by_keyword`. -/
def findStubByKeyword (tab : KeywordTable σ η D) (kwvec : Slots ℕ) (keyword : Word) :
    Option (KeywordStub σ η D) :=
  (foreachActiveSlot kwvec).findSome? fun id =>
    tab.stubs[id]?.filter fun keystub => keystub.keyword = keyword

/-! ## Registration -/

/-- A loop that installs stubs of one type under `kstub`. -/
def installAll {α : Type} (type : KeystubType) (keyword : α → Word) (data : α → StubData σ η D)
    (kstub : ℕ) (descs : List α) (tab : KeywordTable σ η D) : KeywordTable σ η D :=
  descs.foldl (fun tab d => (keywordInstall type (keyword d) (data d) (some kstub) tab).1) tab

/-- `lrc_call_register`. -/
def lrcCallRegister (parent : Option ℕ) (call : LrcStubCall σ η D) (tab : KeywordTable σ η D) :
    ℤ × KeywordTable σ η D :=
  if call.exec.isNone then (einval, tab)
  else
    let (tab, kstub) := keywordInstall .call call.keyword (.call call) parent tab
    let tab := installAll .arg LrcStubArg.keyword .arg kstub call.args tab
    (0, installAll .var LrcStubVar.keyword .var kstub call.vars tab)

/-- `lrc_func_register`: the sub-functions are installed without their own members. -/
def lrcFuncRegister (parent : Option ℕ) (func : LrcStubFunc σ η D) (tab : KeywordTable σ η D) :
    ℤ × KeywordTable σ η D :=
  let (tab, kstub) := keywordInstall .func func.keyword (.func func) parent tab
  let tab := installAll .arg LrcStubArg.keyword .arg kstub func.args tab
  let tab := installAll .expr LrcStubExpr.keyword .expr kstub func.exprs tab
  let tab := installAll .var LrcStubVar.keyword .var kstub func.vars tab
  (0, installAll .func LrcStubFunc.keyword .func kstub func.funcs tab)

/-- A loop of `lrc_module_register`, with its jump to `err`. -/
def registerAll {α : Type} (register : α → KeywordTable σ η D → ℤ × KeywordTable σ η D) :
    List α → KeywordTable σ η D → ℤ × KeywordTable σ η D
  | [], tab => (0, tab)
  | d :: ds, tab =>
    match register d tab with
    | (0, tab) => registerAll register ds tab
    | (_, tab) => (einval, tab)

/-- `lrc_module_register`. -/
def lrcModuleRegister (module : LrcModule σ η D) (tab : KeywordTable σ η D) :
    ℤ × KeywordTable σ η D :=
  match registerAll (lrcFuncRegister none) module.funcs tab with
  | (0, tab) => registerAll (lrcCallRegister none) module.calls tab
  | (_, tab) => (einval, tab)

/-- The table after `lre_keyword_init` and a sequence of `lrc_module_register` calls, whatever
they return. -/
def registerModules (modules : List (LrcModule σ η D)) : KeywordTable σ η D :=
  modules.foldl (fun tab module => (lrcModuleRegister module tab).2) lreKeywordInit

/-! ## The shape of a table -/

/-- A stub that may stand in the root vector. -/
def KeywordStub.IsGlobal (keystub : KeywordStub σ η D) : Prop :=
  keystub.type = .func ∨ keystub.type = .call

/-- Every stub holds the structure its type names, and the root vector holds functions and calls.
-/
structure KeywordTable.Typed (tab : KeywordTable σ η D) : Prop where
  data : ∀ keystub ∈ tab.stubs, keystub.data.type = keystub.type
  root : ∀ id, some id ∈ tab.root → ∃ keystub, tab.stubs[id]? = some keystub ∧ keystub.IsGlobal

variable {tab : KeywordTable σ η D}

theorem lreKeywordInit_typed : (lreKeywordInit : KeywordTable σ η D).Typed :=
  ⟨fun _ h => (List.not_mem_nil h).elim, fun _ h => (List.not_mem_nil h).elim⟩

theorem KeywordTable.Typed.append (h : tab.Typed) {keystub : KeywordStub σ η D}
    (hd : keystub.data.type = keystub.type) :
    ({ tab with stubs := tab.stubs ++ [keystub] } : KeywordTable σ η D).Typed := by
  constructor
  · intro k hk
    rcases List.mem_append.mp hk with hk | hk
    · exact h.data k hk
    · rwa [List.mem_singleton.mp hk]
  · intro id hid
    obtain ⟨k, hk, hg⟩ := h.root id hid
    exact ⟨k, List.getElem?_append_left (List.getElem?_eq_some_iff.mp hk).1 ▸ hk, hg⟩

theorem keywordInstall_typed (h : tab.Typed) {data : StubData σ η D} (parent : Option ℕ)
    {type : KeystubType} (hd : data.type = type)
    (hp : parent = none → type = .func ∨ type = .call) (keyword : Word) :
    (keywordInstall type keyword data parent tab).1.Typed := by
  have ha : KeywordTable.Typed
      ⟨tab.stubs ++ [keywordStubCreate type keyword data parent], tab.root⟩ := h.append hd
  cases parent with
  | none =>
    refine ⟨ha.data, fun id hid => ?_⟩
    rcases mem_vectorSet hid with hid | rfl
    · exact ha.root id hid
    · exact ⟨keywordStubCreate type keyword data none,
        by simp [keywordInstall, keywordStubAdd], hp rfl⟩
  | some p =>
    constructor
    · intro k hk
      obtain ⟨i, hi⟩ := List.mem_iff_getElem?.mp hk
      rw [keywordInstall, keywordStubAdd, List.getElem?_modify] at hi
      obtain ⟨k', hk', rfl⟩ := Option.map_eq_some_iff.mp hi
      have := ha.data k' (List.mem_of_getElem? hk')
      split <;> exact this
    · intro id hid
      obtain ⟨k, hk, hg⟩ := ha.root id hid
      refine ⟨_, (List.getElem?_modify ..).trans (congrArg _ hk), ?_⟩
      show KeywordStub.IsGlobal (if p = id then _ else k)
      split <;> exact hg

theorem installAll_typed (h : tab.Typed) {α : Type} {type : KeystubType} {keyword : α → Word}
    {data : α → StubData σ η D} (kstub : ℕ) (descs : List α)
    (hd : ∀ d, (data d).type = type := by exact fun _ => rfl) :
    (installAll type keyword data kstub descs tab).Typed := by
  induction descs generalizing tab with
  | nil => exact h
  | cons d ds ih => exact ih (keywordInstall_typed h (some kstub) (hd d) nofun _)

theorem lrcCallRegister_typed (h : tab.Typed) (parent : Option ℕ) (call : LrcStubCall σ η D) :
    (lrcCallRegister parent call tab).2.Typed := by
  rw [lrcCallRegister]
  split
  · exact h
  · have hk := keywordInstall_typed h parent (rfl : (StubData.call call).type = _) fun _ => .inr rfl
    exact installAll_typed (installAll_typed (hk call.keyword) _ _) _ _

theorem lrcFuncRegister_typed (h : tab.Typed) (parent : Option ℕ) (func : LrcStubFunc σ η D) :
    (lrcFuncRegister parent func tab).2.Typed := by
  have hk := keywordInstall_typed h parent (rfl : (StubData.func func).type = _) fun _ => .inl rfl
  exact installAll_typed (installAll_typed (installAll_typed (installAll_typed
    (hk func.keyword) _ _) _ _) _ _) _ _

theorem registerAll_typed (h : tab.Typed) {α : Type}
    {register : α → KeywordTable σ η D → ℤ × KeywordTable σ η D}
    (hr : ∀ d (tab : KeywordTable σ η D), tab.Typed → (register d tab).2.Typed) (ds : List α) :
    (registerAll register ds tab).2.Typed := by
  induction ds generalizing tab with
  | nil => exact h
  | cons d ds ih =>
    have hd := hr d tab h
    rw [registerAll]
    split <;> rename_i heq <;> rw [heq] at hd
    · exact ih hd
    · exact hd

theorem lrcModuleRegister_typed (h : tab.Typed) (module : LrcModule σ η D) :
    (lrcModuleRegister module tab).2.Typed := by
  have hf := registerAll_typed h (fun f _ h => lrcFuncRegister_typed h none f) module.funcs
  rw [lrcModuleRegister]
  split <;> rename_i heq <;> rw [heq] at hf
  · exact registerAll_typed hf (fun c _ h => lrcCallRegister_typed h none c) _
  · exact hf

/-- **Every table that registration makes is typed.** -/
theorem registerModules_typed (modules : List (LrcModule σ η D)) :
    (registerModules modules).Typed := by
  suffices ∀ tab : KeywordTable σ η D, tab.Typed →
      (modules.foldl (fun tab module => (lrcModuleRegister module tab).2) tab).Typed from
    this _ lreKeywordInit_typed
  induction modules with
  | nil => exact fun _ h => h
  | cons m ms ih => exact fun tab h => ih _ (lrcModuleRegister_typed h m)

/-! ## Lookups -/

theorem findStubByKeyword_spec {kwvec : Slots ℕ} {keyword : Word} {keystub : KeywordStub σ η D}
    (h : findStubByKeyword tab kwvec keyword = some keystub) :
    ∃ id, some id ∈ kwvec ∧ tab.stubs[id]? = some keystub ∧ keystub.keyword = keyword := by
  obtain ⟨id, hid, hf⟩ := List.exists_of_findSome?_eq_some h
  obtain ⟨hs, hk⟩ := Option.filter_eq_some_iff.mp hf
  exact ⟨id, mem_of_mem_foreachActiveSlot hid, hs, of_decide_eq_true hk⟩

theorem KeywordTable.Typed.find_data (h : tab.Typed) {kwvec : Slots ℕ} {keyword : Word}
    {keystub : KeywordStub σ η D} (hf : findStubByKeyword tab kwvec keyword = some keystub) :
    keystub.data.type = keystub.type := by
  obtain ⟨id, -, hs, -⟩ := findStubByKeyword_spec hf
  exact h.data keystub (List.mem_of_getElem? hs)

theorem KeywordTable.Typed.find_root (h : tab.Typed) {keyword : Word}
    {keystub : KeywordStub σ η D} (hf : findStubByKeyword tab tab.root keyword = some keystub) :
    keystub.IsGlobal := by
  obtain ⟨id, hid, hs, -⟩ := findStubByKeyword_spec hf
  obtain ⟨k, hk, hg⟩ := h.root id hid
  rw [hs] at hk
  cases hk
  exact hg

/-! ## What the executor calls -/

/-- The members of `stub->data`, each under the cast that the executor makes to reach it. -/
def stubCallbacks : Callbacks (KeywordStub σ η D) σ η D where
  type stub := stub.data.type
  constructor stub :=
    match stub.data with
    | .func f => f.constructor
    | .call c => c.constructor
    | _ => fun env => (none, env)
  destructor stub :=
    match stub.data with
    | .func f => f.destructor
    | .call c => c.destructor
    | _ => none
  funcExec stub :=
    match stub.data with
    | .func f => f.exec
    | _ => none
  callExec stub :=
    match stub.data with
    | .call c => c.exec
    | _ => none
  argHandler stub :=
    match stub.data with
    | .arg a => a.handler
    | _ => fun _ _ env => (einval, env)
  exprHandler stub :=
    match stub.data with
    | .expr e => e.handler
    | _ => fun _ _ _ env => (einval, env)
  varHandler stub :=
    match stub.data with
    | .var v => v.handler
    | _ => fun _ env => ((einval, []), env)

end Lre
