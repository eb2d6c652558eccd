import Lre.Keyword.Registry

/-!
# Registering modules

* `StubData.members`, `LrcModule.entries`: what a descriptor declares.
* `registerEntry`: a function or call is installed at the root, then its members under it.
* `lrcModuleRegister_eq`: what `lrc_module_register` installs, and what it returns.
* `RootEntry`: an entry is visible at the root, and the stubs of its members follow it;
  `registerEntries_entry`, `registerEntries_root`: a registered module has all its entries there.
* **`lrcModuleRegister_atomic_iff`**: the modules whose failed registration leaves the table as it
  is. The label `err` takes nothing back.
-/

namespace Lre

variable {σ η D α : Type}

/-! ## Descriptors -/

/-- The keyword of a descriptor. -/
def StubData.keyword : StubData σ η D → Word
  | .func f => f.keyword
  | .call c => c.keyword
  | .arg a => a.keyword
  | .expr e => e.keyword
  | .var v => v.keyword

/-- What a descriptor declares below itself, in the order of registration. -/
def StubData.members : StubData σ η D → List (StubData σ η D)
  | .func f => f.args.map .arg ++ f.exprs.map .expr ++ f.vars.map .var ++ f.funcs.map .func
  | .call c => c.args.map .arg ++ c.vars.map .var
  | _ => []

/-- The functions and calls of a module. -/
def LrcModule.entries (module : LrcModule σ η D) : List (StubData σ η D) :=
  module.funcs.map .func ++ module.calls.map .call

/-- The test of `lrc_call_register`. -/
def LrcStubCall.hasExec (call : LrcStubCall σ η D) : Bool := call.exec.isSome

/-- Those that `lrc_module_register` comes to install. -/
def LrcModule.installed (module : LrcModule σ η D) : List (StubData σ η D) :=
  module.funcs.map .func ++ (module.calls.takeWhile LrcStubCall.hasExec).map .call

/-! ## Installations -/

/-- Install members under a stub. -/
def installMembers (kstub : ℕ) (members : List (StubData σ η D)) (tab : KeywordTable σ η D) :
    KeywordTable σ η D :=
  members.foldl (fun tab e => (keywordInstall e.type e.keyword e (some kstub) tab).1) tab

/-- Install a descriptor at the root, and its members under it. -/
def registerEntry (e : StubData σ η D) (tab : KeywordTable σ η D) : KeywordTable σ η D :=
  installMembers tab.stubs.length e.members (keywordInstall e.type e.keyword e none tab).1

/-- Install descriptors at the root. -/
def registerEntries (es : List (StubData σ η D)) (tab : KeywordTable σ η D) :
    KeywordTable σ η D := es.foldl (fun tab e => registerEntry e tab) tab

theorem installAll_eq {type : KeystubType} {word : α → Word} (data : α → StubData σ η D)
    (htype : ∀ d, (data d).type = type) (hword : ∀ d, (data d).keyword = word d) (kstub : ℕ)
    (descs : List α) (tab : KeywordTable σ η D) :
    installAll type word data kstub descs tab = installMembers kstub (descs.map data) tab := by
  rw [installAll, installMembers, List.foldl_map]
  congr 1
  funext tab d
  rw [htype, hword]

theorem installMembers_append (kstub : ℕ) (es es' : List (StubData σ η D))
    (tab : KeywordTable σ η D) :
    installMembers kstub (es ++ es') tab = installMembers kstub es' (installMembers kstub es tab) :=
  List.foldl_append

theorem registerEntries_append (es es' : List (StubData σ η D)) (tab : KeywordTable σ η D) :
    registerEntries (es ++ es') tab = registerEntries es' (registerEntries es tab) :=
  List.foldl_append

theorem lrcFuncRegister_eq (func : LrcStubFunc σ η D) (tab : KeywordTable σ η D) :
    lrcFuncRegister none func tab = (0, registerEntry (.func func) tab) := by
  have hargs := installAll_eq (σ := σ) (η := η) (D := D) .arg (fun _ => rfl) (fun _ => rfl)
    tab.stubs.length func.args
  have hexprs := installAll_eq (σ := σ) (η := η) (D := D) .expr (fun _ => rfl) (fun _ => rfl)
    tab.stubs.length func.exprs
  have hvars := installAll_eq (σ := σ) (η := η) (D := D) .var (fun _ => rfl) (fun _ => rfl)
    tab.stubs.length func.vars
  have hfuncs := installAll_eq (σ := σ) (η := η) (D := D) .func (fun _ => rfl) (fun _ => rfl)
    tab.stubs.length func.funcs
  simp only [registerEntry, StubData.members, installMembers_append, ← hargs, ← hexprs, ← hvars,
    ← hfuncs]
  rfl

theorem LrcStubCall.isNone_exec (call : LrcStubCall σ η D) : call.exec.isNone ↔ ¬call.hasExec := by
  rw [hasExec]
  cases call.exec <;> simp

theorem lrcCallRegister_eq {call : LrcStubCall σ η D} (h : call.hasExec)
    (tab : KeywordTable σ η D) :
    lrcCallRegister none call tab = (0, registerEntry (.call call) tab) := by
  have hexec : ¬call.exec.isNone := fun hnone => call.isNone_exec.mp hnone h
  have hargs := installAll_eq (σ := σ) (η := η) (D := D) .arg (fun _ => rfl) (fun _ => rfl)
    tab.stubs.length call.args
  have hvars := installAll_eq (σ := σ) (η := η) (D := D) .var (fun _ => rfl) (fun _ => rfl)
    tab.stubs.length call.vars
  rw [lrcCallRegister, if_neg hexec]
  simp only [registerEntry, StubData.members, installMembers_append, ← hargs, ← hvars]
  rfl

theorem registerAll_funcs (funcs : List (LrcStubFunc σ η D)) (tab : KeywordTable σ η D) :
    registerAll (lrcFuncRegister none) funcs tab = (0, registerEntries (funcs.map .func) tab) := by
  induction funcs generalizing tab with
  | nil => rfl
  | cons func funcs ih =>
    rw [registerAll, lrcFuncRegister_eq]
    exact ih _

theorem registerAll_calls (calls : List (LrcStubCall σ η D)) (tab : KeywordTable σ η D) :
    registerAll (lrcCallRegister none) calls tab =
      (if ∀ call ∈ calls, call.hasExec then 0 else einval,
        registerEntries ((calls.takeWhile LrcStubCall.hasExec).map .call) tab) := by
  induction calls generalizing tab with
  | nil => rfl
  | cons call calls ih =>
    rw [registerAll]
    by_cases hexec : call.hasExec
    · rw [lrcCallRegister_eq hexec, List.takeWhile_cons_of_pos hexec]
      refine (ih _).trans ?_
      simp only [List.forall_mem_cons, hexec, true_and]
      rfl
    · rw [lrcCallRegister, if_pos (call.isNone_exec.mpr hexec), List.takeWhile_cons_of_neg hexec,
        if_neg fun hall => hexec (hall call List.mem_cons_self)]
      rfl

/-- **What `lrc_module_register` installs, and what it returns.** -/
theorem lrcModuleRegister_eq (module : LrcModule σ η D) (tab : KeywordTable σ η D) :
    lrcModuleRegister module tab =
      (if ∀ call ∈ module.calls, call.hasExec then 0 else einval,
        registerEntries module.installed tab) := by
  rw [lrcModuleRegister, registerAll_funcs, LrcModule.installed, registerEntries_append]
  exact registerAll_calls _ _

theorem lrcModuleRegister_eq_zero_iff (module : LrcModule σ η D) (tab : KeywordTable σ η D) :
    (lrcModuleRegister module tab).1 = 0 ↔ ∀ call ∈ module.calls, call.hasExec := by
  rw [lrcModuleRegister_eq]
  split
  · rename_i h
    exact iff_of_true rfl h
  · rename_i h
    have hret : einval ≠ 0 := by decide
    exact iff_of_false hret h

/-- A registration that succeeds installs all entries. -/
theorem LrcModule.installed_eq {module : LrcModule σ η D}
    (h : ∀ call ∈ module.calls, call.hasExec) : module.installed = module.entries := by
  rw [installed, entries, List.takeWhile_eq_self_iff.mpr h]

/-! ## The stubs of an entry -/

variable {tab : KeywordTable σ η D} {es : List (StubData σ η D)} {e : StubData σ η D}

/-- A stub with members. -/
def KeywordStub.withMembers (stub : KeywordStub σ η D) (vs : List ℕ) : KeywordStub σ η D :=
  { stub with subvec := stub.subvec.map fun _ => vs.map some }

/-- The stub of an entry at the root; those of its members follow it. -/
def entryStub (e : StubData σ η D) (kstub : ℕ) : KeywordStub σ η D :=
  (keywordStubCreate e.type e.keyword e none).withMembers
    (List.range' (kstub + 1) e.members.length)

/-- The stub of a member. -/
def memberStub (kstub : ℕ) (m : StubData σ η D) : KeywordStub σ η D :=
  keywordStubCreate m.type m.keyword m (some kstub)

theorem withMembers_nil (type : KeystubType) (keyword : Word) (parent : Option ℕ) :
    (keywordStubCreate type keyword e parent).withMembers [] =
      keywordStubCreate type keyword e parent := by
  unfold keywordStubCreate KeywordStub.withMembers
  split <;> rfl

theorem vectorSet_map_some {α : Type} (vs : List α) (val : α) :
    vectorSet (vs.map some) val = (vs ++ [val]).map some := by
  induction vs with
  | nil => rfl
  | cons v vs ih => exact congrArg (some v :: ·) ih

theorem modify_length_append {α : Type} (f : α → α) (a : α) (pre rest : List α) :
    (pre ++ a :: rest).modify pre.length f = pre ++ f a :: rest := by
  induction pre with
  | nil => rfl
  | cons b pre ih => exact congrArg (b :: ·) ih

theorem keywordInstall_member (m : StubData σ η D) (pre rest : List (KeywordStub σ η D))
    (stub : KeywordStub σ η D) (vs : List ℕ) (root : Slots ℕ) :
    (keywordInstall m.type m.keyword m (some pre.length)
      ⟨pre ++ stub.withMembers vs :: rest, root⟩).1 =
      ⟨pre ++ stub.withMembers (vs ++ [(pre ++ stub.withMembers vs :: rest).length]) ::
        (rest ++ [memberStub pre.length m]), root⟩ := by
  rw [keywordInstall, keywordStubAdd]
  simp only [List.append_assoc, List.cons_append, modify_length_append]
  simp only [KeywordStub.withMembers, Option.map_map, Function.comp_def, vectorSet_map_some]
  rfl

theorem installMembers_eq (ms : List (StubData σ η D)) (pre rest : List (KeywordStub σ η D))
    (stub : KeywordStub σ η D) (vs : List ℕ) (root : Slots ℕ) :
    installMembers pre.length ms ⟨pre ++ stub.withMembers vs :: rest, root⟩ =
      ⟨pre ++ stub.withMembers
          (vs ++ List.range' (pre.length + 1 + rest.length) ms.length) ::
        (rest ++ ms.map (memberStub pre.length)), root⟩ := by
  induction ms generalizing rest vs with
  | nil => simp [installMembers]
  | cons m ms ih =>
    have hlen : (pre ++ stub.withMembers vs :: rest).length = pre.length + 1 + rest.length := by
      rw [List.length_append, List.length_cons]
      omega
    rw [installMembers, List.foldl_cons, keywordInstall_member, hlen]
    refine (ih _ _).trans ?_
    rw [List.length_append, List.length_singleton, List.append_assoc, List.append_assoc,
      List.length_cons, List.range'_succ]
    rfl

theorem registerEntry_eq (e : StubData σ η D) (tab : KeywordTable σ η D) :
    registerEntry e tab =
      ⟨tab.stubs ++ entryStub e tab.stubs.length :: e.members.map (memberStub tab.stubs.length),
        vectorSet tab.root tab.stubs.length⟩ := by
  have hmembers := installMembers_eq e.members tab.stubs []
    (keywordStubCreate e.type e.keyword e none) [] (vectorSet tab.root tab.stubs.length)
  rw [withMembers_nil] at hmembers
  exact hmembers

theorem lt_length_registerEntry (e : StubData σ η D) (tab : KeywordTable σ η D) :
    tab.stubs.length < (registerEntry e tab).stubs.length := by
  rw [registerEntry_eq, List.length_append, List.length_cons]
  omega

/-- The entry is visible at the root, and its members follow it. -/
structure RootEntry (tab : KeywordTable σ η D) (e : StubData σ η D) (kstub : ℕ) : Prop where
  visible : kstub ∈ foreachActiveSlot tab.root
  stub : tab.stubs[kstub]? = some (entryStub e kstub)
  member : ∀ i m, e.members[i]? = some m → tab.stubs[kstub + 1 + i]? = some (memberStub kstub m)

theorem registerEntry_rootEntry (e : StubData σ η D) (tab : KeywordTable σ η D) :
    RootEntry (registerEntry e tab) e tab.stubs.length := by
  rw [registerEntry_eq]
  refine ⟨mem_foreachActiveSlot_vectorSet (.inr rfl), ?_, fun i m hm => ?_⟩
  · rw [List.getElem?_append_right (Nat.le_refl _), Nat.sub_self]
    rfl
  · rw [List.getElem?_append_right (by omega),
      show tab.stubs.length + 1 + i - tab.stubs.length = i + 1 by omega, List.getElem?_cons_succ,
      List.getElem?_map, hm]
    rfl

/-- Further registrations append stubs, and hide none. -/
theorem registerEntries_extends (es : List (StubData σ η D)) (tab : KeywordTable σ η D) :
    tab.stubs <+: (registerEntries es tab).stubs ∧
      ∀ id ∈ foreachActiveSlot tab.root, id ∈ foreachActiveSlot (registerEntries es tab).root := by
  induction es generalizing tab with
  | nil => exact ⟨List.prefix_rfl, fun _ h => h⟩
  | cons e es ih =>
    have hentry := registerEntry_eq e tab
    obtain ⟨hstubs, hvisible⟩ := ih (registerEntry e tab)
    constructor
    · refine List.IsPrefix.trans ?_ hstubs
      rw [hentry]
      exact List.prefix_append _ _
    · intro id hid
      apply hvisible
      rw [hentry]
      exact mem_foreachActiveSlot_vectorSet (.inl hid)

theorem getElem?_of_prefix {α : Type} {l l' : List α} {a : α} {i : ℕ} (h : l <+: l')
    (ha : l[i]? = some a) : l'[i]? = some a := by
  obtain ⟨rest, rfl⟩ := h
  exact (List.getElem?_append_left (List.getElem?_eq_some_iff.mp ha).1).trans ha

theorem RootEntry.registerEntries {kstub : ℕ} (h : RootEntry tab e kstub)
    (es : List (StubData σ η D)) : RootEntry (registerEntries es tab) e kstub := by
  obtain ⟨hstubs, hvisible⟩ := registerEntries_extends es tab
  exact ⟨hvisible _ h.visible, getElem?_of_prefix hstubs h.stub,
    fun i m hm => getElem?_of_prefix hstubs (h.member i m hm)⟩

/-- **Each function and call of a module is at the root.** -/
theorem registerEntries_entry (tab : KeywordTable σ η D) (he : e ∈ es) :
    ∃ kstub, RootEntry (registerEntries es tab) e kstub := by
  induction es generalizing tab with
  | nil => cases he
  | cons e' es ih =>
    rcases List.mem_cons.mp he with rfl | he
    · exact ⟨_, (registerEntry_rootEntry e tab).registerEntries es⟩
    · exact ih (registerEntry e' tab) he

theorem registerEntries_root {id : ℕ} (h : some id ∈ (registerEntries es tab).root) :
    some id ∈ tab.root ∨
      tab.stubs.length ≤ id ∧ ∃ e ∈ es, RootEntry (registerEntries es tab) e id := by
  induction es generalizing tab with
  | nil => exact .inl h
  | cons e es ih =>
    rcases @ih (registerEntry e tab) h with hold | ⟨hle, e', he', hentry⟩
    · rw [registerEntry_eq, mem_vectorSet_iff] at hold
      rcases hold with hold | rfl
      · exact .inl hold
      · exact .inr ⟨Nat.le_refl _, e, List.mem_cons_self,
          (registerEntry_rootEntry e tab).registerEntries es⟩
    · have hlt := lt_length_registerEntry e tab
      exact .inr ⟨hlt.le.trans hle, e', List.mem_cons_of_mem _ he', hentry⟩

/-! ## Failed registrations -/

theorem le_length_registerEntries (es : List (StubData σ η D)) (tab : KeywordTable σ η D) :
    tab.stubs.length ≤ (registerEntries es tab).stubs.length :=
  (registerEntries_extends es tab).1.length_le

theorem registerEntries_eq_self_iff (es : List (StubData σ η D)) (tab : KeywordTable σ η D) :
    registerEntries es tab = tab ↔ es = [] := by
  constructor
  · intro h
    cases es with
    | nil => rfl
    | cons e es =>
      have hlt := (lt_length_registerEntry e tab).trans_le
        (le_length_registerEntries es (registerEntry e tab))
      have hlen : (registerEntries es (registerEntry e tab)).stubs.length = tab.stubs.length :=
        congrArg (List.length ∘ KeywordTable.stubs) h
      omega
  · rintro rfl
    rfl

/-- **A failed registration leaves the table as it is exactly when there is none, since every call
has an exec callback, or when it fails at the very first entry.** -/
theorem lrcModuleRegister_atomic_iff (module : LrcModule σ η D) (tab : KeywordTable σ η D) :
    ((lrcModuleRegister module tab).1 ≠ 0 → (lrcModuleRegister module tab).2 = tab) ↔
      (∀ call ∈ module.calls, call.hasExec) ∨
        module.funcs = [] ∧ ∀ call ∈ module.calls.head?, ¬call.hasExec := by
  rw [lrcModuleRegister_eq]
  by_cases hexec : ∀ call ∈ module.calls, call.hasExec
  · rw [if_pos hexec]
    exact iff_of_true (fun h => absurd rfl h) (.inl hexec)
  · have hret : einval ≠ 0 := by decide
    rw [if_neg hexec, or_iff_right hexec]
    dsimp only
    rw [imp_iff_right hret, registerEntries_eq_self_iff, LrcModule.installed,
      List.append_eq_nil_iff, List.map_eq_nil_iff, List.map_eq_nil_iff]
    refine and_congr_right fun _ => ?_
    cases module.calls with
    | nil => exact iff_of_true rfl nofun
    | cons call calls =>
      rw [List.head?_cons]
      by_cases hsome : call.hasExec
      · rw [List.takeWhile_cons_of_pos hsome]
        exact iff_of_false (List.cons_ne_nil _ _) fun h => h call rfl hsome
      · rw [List.takeWhile_cons_of_neg hsome]
        refine iff_of_true rfl ?_
        rintro _ ⟨⟩
        exact hsome

/-- A call without an exec callback. -/
def lameCall (keyword : Word) : LrcStubCall Unit Unit Unit :=
  ⟨keyword, fun _ => (some (), ()), none, none, [], []⟩

/-- A module with a function and such a call. -/
def lameModule : LrcModule Unit Unit Unit := ⟨[bareFunc ['f']], [lameCall ['c']]⟩

/-- The registration of this module fails and leaves the function `f` in the table. -/
theorem lrcModuleRegister_leaves :
    (lrcModuleRegister lameModule lreKeywordInit).1 = einval ∧
    (findStubByKeyword (lrcModuleRegister lameModule lreKeywordInit).2
      (lrcModuleRegister lameModule lreKeywordInit).2.root ['f']).isSome ∧
    ¬∀ (module : LrcModule Unit Unit Unit) (tab : KeywordTable Unit Unit Unit),
      (lrcModuleRegister module tab).1 ≠ 0 → (lrcModuleRegister module tab).2 = tab := by
  refine ⟨rfl, rfl, fun hall => ?_⟩
  have hself := hall lameModule lreKeywordInit (by decide)
  have hlen := congrArg (List.length ∘ KeywordTable.stubs) hself
  exact absurd hlen (by decide)

end Lre
