import Mathlib.Data.List.Forall2
import Mathlib.Data.List.Nodup
import Lre.Keyword.Register

/-!
# Unregistering modules

* `lrcModuleUnregister`: for each function and call of a module, the first stub at the root that
  bears its keyword is uninstalled.
* `Modules`: the stubs, whose they are, and `lre_modulelists`; `ModuleRun P`: registrations and
  unregistrations in any order, the latter where `P` holds.
* `Modules.Unregisters`: an unregistration takes all that is the module's own, and nothing else.
* **`ModuleRun.unregisters_iff`**: while it has done so, it does so again exactly for a module with
  at most one function or call, which no empty slot hides and no other stub of the keyword precedes.
-/

namespace Lre

variable {σ η D ι : Type}

/-! ## Vectors -/

section Slots

variable {α : Type}

theorem foreachActiveSlot_split (slots : Slots α) :
    ∃ rest, slots = (foreachActiveSlot slots).map some ++ rest := by
  induction slots with
  | nil => exact ⟨[], rfl⟩
  | cons slot slots ih =>
    cases slot with
    | none => exact ⟨none :: slots, rfl⟩
    | some v =>
      obtain ⟨rest, hrest⟩ := ih
      exact ⟨rest, congrArg (some v :: ·) hrest⟩

/-- `vector_set` puts the value behind all that is visible. -/
theorem vectorSet_split (slots : Slots α) (val : α) :
    ∃ rest, slots.reduceOption = foreachActiveSlot slots ++ rest.reduceOption ∧
      vectorSet slots val = (foreachActiveSlot slots ++ [val]).map some ++ rest := by
  induction slots with
  | nil => exact ⟨[], rfl, rfl⟩
  | cons slot slots ih =>
    cases slot with
    | none => exact ⟨slots, rfl, rfl⟩
    | some v =>
      obtain ⟨rest, hreduce, hset⟩ := ih
      exact ⟨rest, congrArg (v :: ·) hreduce, congrArg (some v :: ·) hset⟩

variable {Q : α → Bool} {slots : Slots α} {val : α}

theorem filter_vectorSet_of_neg (h : Q val = false) :
    (vectorSet slots val).reduceOption.filter Q = slots.reduceOption.filter Q := by
  obtain ⟨rest, hreduce, hset⟩ := vectorSet_split slots val
  rw [hset, hreduce, List.reduceOption_append]
  simp [List.reduceOption, h]

theorem filter_vectorSet_of_pos (h : Q val = true)
    (hvisible : slots.reduceOption.filter Q = (foreachActiveSlot slots).filter Q) :
    (vectorSet slots val).reduceOption.filter Q = slots.reduceOption.filter Q ++ [val] ∧
      (vectorSet slots val).reduceOption.filter Q =
        (foreachActiveSlot (vectorSet slots val)).filter Q := by
  obtain ⟨rest, hreduce, hset⟩ := vectorSet_split slots val
  have hrest : rest.reduceOption.filter Q = [] := by
    rw [hreduce, List.filter_append] at hvisible
    simpa using hvisible
  have hseen : (foreachActiveSlot rest).filter Q = [] := by
    rw [List.filter_eq_nil_iff] at hrest ⊢
    intro v hv
    exact hrest v (List.reduceOption_mem_iff.mpr (mem_of_mem_foreachActiveSlot hv))
  have hnew : (vectorSet slots val).reduceOption.filter Q =
      (foreachActiveSlot slots).filter Q ++ [val] := by
    rw [hset, List.reduceOption_append, List.filter_append, hrest]
    simp [List.reduceOption, h]
  refine ⟨by rw [hnew, hvisible], ?_⟩
  rw [hnew, hset, foreachActiveSlot_map_some, List.filter_append, hseen, List.filter_append]
  simp [h]

end Slots

/-! ## Uninstalling by keyword -/

/-- `lrc_func_unregister` and `lrc_call_unregister`, on a keyword. -/
def uninstallKeyword (keyword : Word) (reg : Registry σ η D) : Registry σ η D :=
  match findKeystub reg.tab reg.tab.root keyword with
  | none => reg
  | some kstub => keywordUninstall kstub reg

/-- `lrc_func_unregister`. -/
def lrcFuncUnregister (func : LrcStubFunc σ η D) (reg : Registry σ η D) : Registry σ η D :=
  uninstallKeyword func.keyword reg

/-- `lrc_call_unregister`. -/
def lrcCallUnregister (call : LrcStubCall σ η D) (reg : Registry σ η D) : Registry σ η D :=
  uninstallKeyword call.keyword reg

/-- `lrc_module_unregister`, up to `lre_module_delete`. -/
def lrcModuleUnregister (module : LrcModule σ η D) (reg : Registry σ η D) : Registry σ η D :=
  module.calls.foldl (fun reg call => lrcCallUnregister call reg)
    (module.funcs.foldl (fun reg func => lrcFuncUnregister func reg) reg)

/-- Uninstall the keywords of entries one after another. -/
def uninstallEntries (es : List (StubData σ η D)) (reg : Registry σ η D) : Registry σ η D :=
  es.foldl (fun reg e => uninstallKeyword e.keyword reg) reg

theorem lrcModuleUnregister_eq (module : LrcModule σ η D) (reg : Registry σ η D) :
    lrcModuleUnregister module reg = uninstallEntries module.entries reg := by
  rw [uninstallEntries, LrcModule.entries, List.foldl_append, List.foldl_map, List.foldl_map]
  rfl

variable {tab : KeywordTable σ η D} {reg : Registry σ η D} {keyword : Word} {id kstub : ℕ}

/-- No slot in front of the stub is empty, and none there bears the keyword. -/
def KeywordTable.First (tab : KeywordTable σ η D) (keyword : Word) (kstub : ℕ) : Prop :=
  ∃ (vs : List ℕ) (rest : Slots ℕ), tab.root = vs.map some ++ some kstub :: rest ∧
    ∀ id ∈ vs, ¬tab.Installed none keyword id

/-- **What a lookup at the root finds.** -/
theorem findKeystub_root_iff (h : tab.Homed) : findKeystub tab tab.root keyword = some kstub ↔
    tab.Installed none keyword kstub ∧ tab.First keyword kstub := by
  constructor
  · intro hfind
    obtain ⟨-, vs, bs, hsplit, hfirst⟩ := List.find?_eq_some_iff_append.mp hfind
    obtain ⟨hid, stub, hstub, hkeyword⟩ := findKeystub_eq_some hfind
    obtain ⟨_, other, hget, hparent, -⟩ := h none kstub (mem_of_mem_foreachActiveSlot hid)
    obtain rfl := Option.some.inj (hstub.symm.trans hget)
    obtain ⟨rest, hrest⟩ := foreachActiveSlot_split tab.root
    rw [hsplit] at hrest
    refine ⟨⟨stub, hstub, hparent, hkeyword⟩, vs, bs.map some ++ rest, by simpa using hrest, ?_⟩
    rintro id hid ⟨stub', hstub', -, hkeyword'⟩
    have hno := hfirst id hid
    rw [hstub'] at hno
    simp [hkeyword'] at hno
  · rintro ⟨⟨stub, hstub, -, hkeyword⟩, vs, rest, hroot, hfirst⟩
    refine List.find?_eq_some_iff_append.mpr ⟨?_, vs, foreachActiveSlot rest, ?_, fun id hid => ?_⟩
    · simp [hstub, hkeyword]
    · rw [hroot, foreachActiveSlot_map_some]
      rfl
    · have hmem : some id ∈ tab.level none := by
        rw [KeywordTable.level, hroot]
        simp [hid]
      obtain ⟨_, stub', hstub', hparent, -⟩ := h none id hmem
      by_cases hsame : stub'.keyword = keyword
      · exact absurd ⟨stub', hstub', hparent, hsame⟩ (hfirst id hid)
      · simp [hstub', hsame]

/-! ## What a registration adds -/

section Register

variable {es : List (StubData σ η D)} {e : StubData σ η D} {level : Option ℕ}

/-- Functions and calls. -/
def StubData.IsEntry (e : StubData σ η D) : Prop := e.type = .func ∨ e.type = .call

theorem LrcModule.isEntry_installed (module : LrcModule σ η D) :
    ∀ e ∈ module.installed, e.IsEntry := by
  intro e he
  rcases List.mem_append.mp he with he | he
  · obtain ⟨f, -, rfl⟩ := List.mem_map.mp he
    exact .inl rfl
  · obtain ⟨c, -, rfl⟩ := List.mem_map.mp he
    exact .inr rfl

theorem installMembers_formed (h : tab.Formed) (hvec : tab.HasVector (some kstub))
    (hlt : kstub < tab.stubs.length) (ms : List (StubData σ η D)) :
    (installMembers kstub ms tab).Formed := by
  induction ms generalizing tab with
  | nil => exact h
  | cons m ms ih =>
    refine ih (keywordInstall_formed h m.type m hvec ?_) (hvec.install _ _ _) ?_
    · rintro _ ⟨⟩
      exact hlt
    · rw [length_keywordInstall]
      exact Nat.lt_succ_of_lt hlt

theorem registerEntry_formed (h : tab.Formed) (he : e.IsEntry) : (registerEntry e tab).Formed := by
  have hlive : LiveLevel tab [] none := liveLevel_root
  have hnew : (keywordInstall e.type e.keyword e none tab).1.HasVector (some tab.stubs.length) :=
    (liveLevel_new he e hlive).hasVector
  refine installMembers_formed (keywordInstall_formed h e.type e hlive.hasVector nofun) hnew ?_ _
  rw [length_keywordInstall]
  exact Nat.lt_succ_self _

theorem registerEntries_formed (h : tab.Formed) (hes : ∀ e ∈ es, e.IsEntry) :
    (registerEntries es tab).Formed := by
  induction es generalizing tab with
  | nil => exact h
  | cons e es ih =>
    rw [List.forall_mem_cons] at hes
    exact ih (registerEntry_formed h hes.1) hes.2

theorem KeywordTable.Installed.registerEntries (h : tab.Installed level keyword id)
    (es : List (StubData σ η D)) : (registerEntries es tab).Installed level keyword id := by
  obtain ⟨stub, hstub, hrest⟩ := h
  exact ⟨stub, getElem?_of_prefix (registerEntries_extends es tab).1 hstub, hrest⟩

theorem installed_registerEntries (h : (registerEntries es tab).Installed level keyword id) :
    tab.Installed level keyword id ∨
      tab.stubs.length ≤ id ∧ ∀ parent ∈ level, tab.stubs.length ≤ parent := by
  induction es generalizing tab with
  | nil => exact .inl h
  | cons e es ih =>
    have hlt := lt_length_registerEntry e tab
    rcases @ih (registerEntry e tab) h with ⟨stub, hstub, rfl, rfl⟩ | ⟨hle, hparent⟩
    · rw [registerEntry_eq] at hstub
      rcases Nat.lt_or_ge id tab.stubs.length with hid | hid
      · rw [List.getElem?_append_left hid] at hstub
        exact .inl ⟨stub, hstub, rfl, rfl⟩
      · refine .inr ⟨hid, ?_⟩
        rw [List.getElem?_append_right hid] at hstub
        rcases List.mem_cons.mp (List.mem_of_getElem? hstub) with rfl | hmem
        · exact nofun
        · obtain ⟨m, -, rfl⟩ := List.mem_map.mp hmem
          rintro _ ⟨⟩
          exact Nat.le_refl _
    · exact .inr ⟨hlt.le.trans hle, fun parent hp => hlt.le.trans (hparent parent hp)⟩

variable {Q : ℕ → Bool}

theorem registerEntries_filter_neg (es : List (StubData σ η D))
    (hnew : ∀ id, tab.stubs.length ≤ id → Q id = false) :
    (registerEntries es tab).root.reduceOption.filter Q = tab.root.reduceOption.filter Q := by
  induction es generalizing tab with
  | nil => rfl
  | cons e es ih =>
    have hlt := lt_length_registerEntry e tab
    refine (ih fun id hid => hnew id (hlt.le.trans hid)).trans ?_
    rw [registerEntry_eq]
    exact filter_vectorSet_of_neg (hnew _ (Nat.le_refl _))

theorem registerEntries_filter_pos (es : List (StubData σ η D))
    (hnew : ∀ id, tab.stubs.length ≤ id → Q id = true)
    (hvisible : tab.root.reduceOption.filter Q = (foreachActiveSlot tab.root).filter Q) :
    ∃ ids, (registerEntries es tab).root.reduceOption.filter Q =
        tab.root.reduceOption.filter Q ++ ids ∧
      List.Forall₂ (fun id e => (registerEntries es tab).Installed none e.keyword id) ids es := by
  induction es generalizing tab with
  | nil => exact ⟨[], (List.append_nil _).symm, .nil⟩
  | cons e es ih =>
    have hlt := lt_length_registerEntry e tab
    have hset := filter_vectorSet_of_pos (hnew _ (Nat.le_refl _)) hvisible
    have hroot : (registerEntry e tab).root = vectorSet tab.root tab.stubs.length := by
      rw [registerEntry_eq]
    rw [← hroot] at hset
    obtain ⟨ids, hids, hall⟩ := ih (fun id hid => hnew id (hlt.le.trans hid)) hset.2
    have hentry := (registerEntry_rootEntry e tab).registerEntries es
    refine ⟨tab.stubs.length :: ids, hids.trans ?_, .cons ⟨_, hentry.stub, rfl, rfl⟩ hall⟩
    rw [hset.1, List.append_assoc, List.singleton_append]

end Register

/-! ## Modules -/

/-- The stub is in the root vector, or in the vector of a stub that is held. -/
inductive KeywordTable.Holds (tab : KeywordTable σ η D) : ℕ → Prop
  | root {id : ℕ} : some id ∈ tab.root → tab.Holds id
  | sub {parent id : ℕ} : tab.Holds parent → some id ∈ tab.level (some parent) → tab.Holds id

/-- What is registered; `owner` is the module that the data of a stub points into. -/
structure Modules (σ η D ι : Type) where
  reg : Registry σ η D
  owner : ℕ → Option ι
  modulelists : List ι

section Modules

variable [DecidableEq ι] (desc : ι → LrcModule σ η D)

/-- `lrc_module_register`. -/
def Modules.register (s : Modules σ η D ι) (p : ι) : Modules σ η D ι where
  reg := { s.reg with tab := (lrcModuleRegister (desc p) s.reg.tab).2 }
  owner id := if id < s.reg.tab.stubs.length then s.owner id else some p
  modulelists :=
    if (lrcModuleRegister (desc p) s.reg.tab).1 = 0 then s.modulelists ++ [p] else s.modulelists

/-- `lrc_module_unregister`. -/
def Modules.unregister (s : Modules σ η D ι) (p : ι) : Modules σ η D ι :=
  { s with reg := lrcModuleUnregister (desc p) s.reg, modulelists := s.modulelists.erase p }

/-- The states after registrations and unregistrations, the latter where `P` holds. -/
inductive ModuleRun (P : Modules σ η D ι → ι → Prop) : Modules σ η D ι → Prop
  | init : ModuleRun P ⟨⟨lreKeywordInit, []⟩, fun _ => none, []⟩
  | register {s : Modules σ η D ι} (p : ι) : ModuleRun P s → p ∉ s.modulelists →
    ModuleRun P (s.register desc p)
  | unregister {s : Modules σ η D ι} {p : ι} : ModuleRun P s → p ∈ s.modulelists → P s p →
    ModuleRun P (s.unregister desc p)

/-- Of the module no stub is left at the root, and no lookup finds one; what else was held is still
held, and has not been freed. -/
structure Modules.Unregisters (s : Modules σ η D ι) (p : ι) : Prop where
  own : ∀ id, some id ∈ (s.unregister desc p).reg.tab.root → s.owner id ≠ some p
  lookup : ∀ level keyword id, (∀ parent ∈ level, (s.unregister desc p).reg.tab.Holds parent) →
    findKeystub (s.unregister desc p).reg.tab ((s.unregister desc p).reg.tab.level level) keyword =
      some id → s.owner id ≠ some p
  other : ∀ id, s.reg.tab.Holds id → s.owner id ≠ some p →
    (s.unregister desc p).reg.tab.Holds id ∧ id ∉ (s.unregister desc p).reg.freed

/-- The module has at most one function or call, its stub has no empty slot in front of it, and no
stub there bears its keyword. -/
def Modules.Unregistrable (s : Modules σ η D ι) (p : ι) : Prop :=
  (desc p).entries.length ≤ 1 ∧
    ∀ e ∈ (desc p).entries, ∃ kstub, s.owner kstub = some p ∧ s.reg.tab.First e.keyword kstub

/-- The root stubs of a module, in their order. -/
def Modules.own (s : Modules σ η D ι) (p : ι) : List ℕ :=
  s.reg.tab.root.reduceOption.filter fun id => s.owner id = some p

/-- The root stubs of each registered module are those of its entries, the members of a stub are
its owner's, and what has been freed is not held. -/
structure Modules.Sound (s : Modules σ η D ι) : Prop where
  formed : s.reg.tab.Formed
  member : ∀ parent keyword id, s.reg.tab.Installed (some parent) keyword id →
    s.owner id = s.owner parent
  freed : ∀ id ∈ s.reg.freed, id < s.reg.tab.stubs.length ∧ ¬s.reg.tab.Holds id
  nodup : s.modulelists.Nodup
  hasExec : ∀ p ∈ s.modulelists, ∀ call ∈ (desc p).calls, call.hasExec
  own : ∀ p, (∀ call ∈ (desc p).calls, call.hasExec) →
    List.Forall₂ (fun id e => s.reg.tab.Installed none e.keyword id) (s.own p)
      (if p ∈ s.modulelists then (desc p).entries else [])

end Modules

section Run

variable {desc : ι → LrcModule σ η D} {s : Modules σ η D ι} {p : ι}

theorem Modules.mem_register {q : ι} (hne : q ≠ p) :
    q ∈ (s.register desc p).modulelists ↔ q ∈ s.modulelists := by
  unfold register
  split
  · simp [hne]
  · exact Iff.rfl

theorem Modules.register_tab (s : Modules σ η D ι) (p : ι) :
    (s.register desc p).reg.tab = registerEntries (desc p).installed s.reg.tab := by
  rw [register, lrcModuleRegister_eq]

theorem Modules.register_owner_lt (hid : id < s.reg.tab.stubs.length) :
    (s.register desc p).owner id = s.owner id := if_pos hid

theorem Modules.register_owner_ge (hid : s.reg.tab.stubs.length ≤ id) :
    (s.register desc p).owner id = some p := if_neg (Nat.not_lt.mpr hid)

variable [DecidableEq ι]

theorem Modules.mem_own : id ∈ s.own p ↔ some id ∈ s.reg.tab.root ∧ s.owner id = some p := by
  rw [own, List.mem_filter, List.reduceOption_mem_iff, decide_eq_true_iff]

theorem Modules.own_head {a : ℕ} {ids : List ℕ} (hown : s.own p = a :: ids) :
    some a ∈ s.reg.tab.root ∧ s.owner a = some p := by
  rw [← mem_own, hown]
  exact List.mem_cons_self

theorem KeywordTable.Holds.find {level : Option ℕ} (h : ∀ parent ∈ level, tab.Holds parent)
    (hfind : findKeystub tab (tab.level level) keyword = some id) : tab.Holds id := by
  have hmem := mem_of_mem_foreachActiveSlot (findKeystub_eq_some hfind).1
  cases level with
  | none => exact .root hmem
  | some parent => exact .sub (h parent rfl) hmem

theorem Modules.Sound.owner_of_holds (h : s.Sound desc) {tab : KeywordTable σ η D}
    (hroot : ∀ id, some id ∈ tab.root → s.owner id ≠ some p)
    (hlevel : ∀ parent id, some id ∈ tab.level (some parent) →
      some id ∈ s.reg.tab.level (some parent)) (hid : tab.Holds id) : s.owner id ≠ some p := by
  induction hid with
  | root hid => exact hroot _ hid
  | sub _ hid ih =>
    obtain ⟨keyword, hinst⟩ := h.formed.child _ _ (hlevel _ _ hid)
    rwa [h.member _ _ _ hinst]

/-! ### Registration -/

theorem holds_registerEntries {es : List (StubData σ η D)} (h : tab.Formed)
    (hes : ∀ e ∈ es, e.IsEntry) (hid : (registerEntries es tab).Holds id) :
    tab.Holds id ∨ tab.stubs.length ≤ id := by
  induction hid with
  | root hid =>
    rcases registerEntries_root hid with hold | ⟨hle, -⟩
    · exact .inl (.root hold)
    · exact .inr hle
  | @sub parent id _ hid ih =>
    obtain ⟨keyword, hinst⟩ := (registerEntries_formed h hes).child _ _ hid
    rcases installed_registerEntries hinst with hold | ⟨hle, -⟩
    · have hlt := (h.older _ _ _ hold).trans hold.lt
      rcases ih with hparent | hle
      · refine .inl (.sub hparent ?_)
        obtain ⟨stub, hstub⟩ : ∃ stub, tab.stubs[parent]? = some stub :=
          ⟨_, List.getElem?_eq_getElem hlt⟩
        have hnew := getElem?_of_prefix (registerEntries_extends es tab).1 hstub
        rw [KeywordTable.level, hnew] at hid
        rwa [KeywordTable.level, hstub]
      · omega
    · exact .inr hle

/-- The old root stubs of a module, after a registration. -/
theorem Modules.Sound.filter_owner (h : s.Sound desc) (p q : ι) :
    (s.reg.tab.root.reduceOption.filter fun id => (s.register desc p).owner id = some q) =
      s.own q := by
  refine List.filter_congr fun id hid => ?_
  obtain ⟨_, hinst⟩ := h.formed.child none id (List.reduceOption_mem_iff.mp hid)
  rw [register_owner_lt hinst.lt]

theorem Modules.Sound.register_own (h : s.Sound desc) (hp : p ∉ s.modulelists) {q : ι}
    (hexec : ∀ call ∈ (desc q).calls, call.hasExec) :
    List.Forall₂ (fun id e => (s.register desc p).reg.tab.Installed none e.keyword id)
      ((s.register desc p).own q)
      (if q ∈ (s.register desc p).modulelists then (desc q).entries else []) := by
  have hold := h.own q hexec
  by_cases hq : q = p
  · subst hq
    rw [if_neg hp] at hold
    have hnil : s.own q = [] := List.forall₂_nil_right_iff.mp hold
    have hempty := h.filter_owner q q
    rw [hnil] at hempty
    have hvisible : ((foreachActiveSlot s.reg.tab.root).filter fun id =>
        (s.register desc q).owner id = some q) = [] := by
      rw [List.filter_eq_nil_iff] at hempty ⊢
      intro id hid
      exact hempty id (List.reduceOption_mem_iff.mpr (mem_of_mem_foreachActiveSlot hid))
    obtain ⟨ids, hids, hall⟩ := registerEntries_filter_pos (desc q).installed
      (Q := fun id => (s.register desc q).owner id = some q)
      (fun id hid => decide_eq_true (register_owner_ge hid)) (hempty.trans hvisible.symm)
    rw [hempty, List.nil_append] at hids
    have hmem : q ∈ (s.register desc q).modulelists := by
      rw [register, if_pos ((lrcModuleRegister_eq_zero_iff _ _).mpr hexec)]
      exact List.mem_append_right _ List.mem_cons_self
    rw [if_pos hmem, Modules.own, register_tab, hids, ← LrcModule.installed_eq hexec]
    exact hall
  · have hsame : (s.register desc p).own q = s.own q := by
      rw [Modules.own, register_tab, registerEntries_filter_neg, h.filter_owner]
      intro id hid
      rw [register_owner_ge hid]
      exact decide_eq_false fun heq => hq (Option.some.inj heq).symm
    simp only [hsame, mem_register hq]
    exact hold.imp fun id e hid => by
      rw [register_tab]
      exact hid.registerEntries _

theorem Modules.Sound.register (h : s.Sound desc) (hp : p ∉ s.modulelists) :
    (s.register desc p).Sound desc := by
  have hentry := (desc p).isEntry_installed
  have htab : (s.register desc p).reg.tab = registerEntries (desc p).installed s.reg.tab :=
    s.register_tab p
  constructor
  · rw [htab]
    exact registerEntries_formed h.formed hentry
  · intro parent keyword id hinst
    rw [htab] at hinst
    rcases installed_registerEntries hinst with hold | ⟨hid, hparent⟩
    · rw [register_owner_lt hold.lt, register_owner_lt ((h.formed.older _ _ _ hold).trans hold.lt)]
      exact h.member _ _ _ hold
    · rw [register_owner_ge hid, register_owner_ge (hparent parent rfl)]
  · intro id hid
    obtain ⟨hlt, hnot⟩ := h.freed id hid
    rw [htab]
    refine ⟨hlt.trans_le (le_length_registerEntries _ _), fun hholds => ?_⟩
    rcases holds_registerEntries h.formed hentry hholds with hold | hle
    · exact hnot hold
    · omega
  · rw [Modules.register]
    split
    · rw [← List.concat_eq_append]
      exact List.Nodup.concat hp h.nodup
    · exact h.nodup
  · intro q hq
    by_cases hqp : q = p
    · subst hqp
      rw [Modules.register] at hq
      split at hq
      · rename_i hret
        exact (lrcModuleRegister_eq_zero_iff _ _).mp hret
      · exact absurd hq hp
    · exact h.hasExec q ((mem_register hqp).mp hq)
  · exact fun q hexec => h.register_own hp hexec

/-! ### One stub less -/

section One

variable {vs : List ℕ} {rest : Slots ℕ}

theorem mem_root_keywordUninstall (h : reg.tab.Formed)
    (hinst : reg.tab.Installed none keyword kstub)
    (hroot : reg.tab.root = vs.map some ++ some kstub :: rest) :
    some id ∈ (keywordUninstall kstub reg).tab.root ↔ id ≠ kstub ∧ some id ∈ reg.tab.root := by
  have hmem := (h.nodup none).mem_erase_iff (a := id) (b := kstub)
  rw [← reduceOption_keywordUninstall h hinst hroot none, List.reduceOption_mem_iff,
    List.reduceOption_mem_iff] at hmem
  exact hmem

theorem level_keywordUninstall_root (hinst : reg.tab.Installed none keyword kstub) (parent : ℕ) :
    (keywordUninstall kstub reg).tab.level (some parent) = reg.tab.level (some parent) := by
  rw [level_keywordUninstall hinst, if_neg nofun]

theorem holds_of_keywordUninstall (h : reg.tab.Formed)
    (hinst : reg.tab.Installed none keyword kstub)
    (hroot : reg.tab.root = vs.map some ++ some kstub :: rest)
    (hid : (keywordUninstall kstub reg).tab.Holds id) : reg.tab.Holds id := by
  induction hid with
  | root hid => exact .root ((mem_root_keywordUninstall h hinst hroot).mp hid).2
  | sub _ hid ih =>
    rw [level_keywordUninstall_root hinst] at hid
    exact .sub ih hid

end One

theorem Modules.Sound.unregister_own (h : s.Sound desc) (hgone : (s.unregister desc p).own p = [])
    (hkept : ∀ q, q ≠ p → (s.unregister desc p).own q = s.own q)
    (hinst : ∀ keyword id, (s.unregister desc p).reg.tab.Installed none keyword id ↔
      s.reg.tab.Installed none keyword id) {q : ι}
    (hexec : ∀ call ∈ (desc q).calls, call.hasExec) :
    List.Forall₂ (fun id e => (s.unregister desc p).reg.tab.Installed none e.keyword id)
      ((s.unregister desc p).own q)
      (if q ∈ (s.unregister desc p).modulelists then (desc q).entries else []) := by
  by_cases hq : q = p
  · subst hq
    have hno : q ∉ (s.unregister desc q).modulelists := h.nodup.not_mem_erase
    rw [if_neg hno, hgone]
    exact .nil
  · have hmem : q ∈ (s.unregister desc p).modulelists ↔ q ∈ s.modulelists := List.mem_erase_of_ne hq
    simp only [hkept q hq, hmem, hinst]
    exact h.own q hexec

/-- A module with one function or call, whose stub is found. -/
structure Modules.Sole (desc : ι → LrcModule σ η D) (s : Modules σ η D ι) (p : ι)
    (e : StubData σ η D) (kstub : ℕ) : Prop where
  entries : (desc p).entries = [e]
  own : s.own p = [kstub]
  installed : s.reg.tab.Installed none e.keyword kstub
  first : s.reg.tab.First e.keyword kstub

section Sole

variable {e : StubData σ η D} (h : s.Sound desc) (hsole : s.Sole desc p e kstub)

include h hsole

theorem Modules.Sole.reg_eq : (s.unregister desc p).reg = keywordUninstall kstub s.reg := by
  have hfind := (findKeystub_root_iff h.formed.child).mpr ⟨hsole.installed, hsole.first⟩
  rw [unregister, lrcModuleUnregister_eq, hsole.entries, uninstallEntries, List.foldl_cons,
    List.foldl_nil, uninstallKeyword, hfind]

theorem Modules.Sole.mem_root_iff : some id ∈ (s.unregister desc p).reg.tab.root ↔
    id ≠ kstub ∧ some id ∈ s.reg.tab.root := by
  obtain ⟨vs, rest, hroot, -⟩ := hsole.first
  rw [hsole.reg_eq h]
  exact mem_root_keywordUninstall h.formed hsole.installed hroot

theorem Modules.Sole.level_eq (parent : ℕ) :
    (s.unregister desc p).reg.tab.level (some parent) = s.reg.tab.level (some parent) := by
  rw [hsole.reg_eq h]
  exact level_keywordUninstall_root hsole.installed parent

theorem Modules.Sole.owner_ne_of_mem_root (hid : some id ∈ (s.unregister desc p).reg.tab.root) :
    s.owner id ≠ some p := by
  obtain ⟨hne, hold⟩ := (hsole.mem_root_iff h).mp hid
  intro howner
  have hmem := mem_own.mpr ⟨hold, howner⟩
  rw [hsole.own, List.mem_singleton] at hmem
  exact hne hmem

theorem Modules.Sole.owner_ne_of_holds (hid : (s.unregister desc p).reg.tab.Holds id) :
    s.owner id ≠ some p := by
  refine h.owner_of_holds (fun id => hsole.owner_ne_of_mem_root h) (fun parent id hid => ?_) hid
  rwa [hsole.level_eq h] at hid

theorem Modules.Sole.of_mem_freed (hid : id ∈ (s.unregister desc p).reg.freed) :
    id ∈ s.reg.freed ∨ id < s.reg.tab.stubs.length ∧ s.owner id = some p := by
  rw [hsole.reg_eq h, keywordUninstall_freed hsole.installed, List.mem_append] at hid
  refine hid.imp_right fun hid => ?_
  refine keywordStubDestroy_closed (Q := fun d => d < s.reg.tab.stubs.length ∧ s.owner d = some p)
    ⟨hsole.installed.lt, (own_head hsole.own).2⟩ (fun parent c hparent hc => ?_) id hid
  rw [level_keywordUninstall_root hsole.installed] at hc
  obtain ⟨keyword, hchild⟩ := h.formed.child _ _ hc
  exact ⟨hchild.lt, by rw [h.member _ _ _ hchild, hparent.2]⟩

theorem Modules.Sole.unregisters : s.Unregisters desc p := by
  refine ⟨fun id => hsole.owner_ne_of_mem_root h,
    fun level keyword id hlevel hfind => hsole.owner_ne_of_holds h (.find hlevel hfind),
    fun id hid howner => ⟨?_, fun hfreed => ?_⟩⟩
  · induction hid with
    | root hid =>
      refine .root ((hsole.mem_root_iff h).mpr ⟨?_, hid⟩)
      rintro rfl
      exact howner (own_head hsole.own).2
    | sub _ hid ih =>
      obtain ⟨keyword, hinst⟩ := h.formed.child _ _ hid
      refine .sub (ih ?_) ?_
      · rwa [← h.member _ _ _ hinst]
      · rwa [hsole.level_eq h]
  · rcases hsole.of_mem_freed h hfreed with hold | ⟨-, hown⟩
    · exact (h.freed id hold).2 hid
    · exact howner hown

theorem Modules.Sole.filter_own (q : ι) :
    (s.unregister desc p).own q = (s.own q).filter fun id => id ≠ kstub := by
  obtain ⟨vs, rest, hroot, -⟩ := hsole.first
  have hreduce := reduceOption_keywordUninstall h.formed hsole.installed hroot none
  rw [(h.formed.nodup none).erase_eq_filter] at hreduce
  have htab : (s.unregister desc p).reg.tab.root.reduceOption =
      s.reg.tab.root.reduceOption.filter fun id => id != kstub := by
    rw [hsole.reg_eq h]
    exact hreduce
  rw [Modules.own, htab, List.filter_filter, Modules.own, List.filter_filter]
  refine List.filter_congr fun id _ => (Bool.and_comm _ _).trans ?_
  congr 1
  exact decide_not.symm

theorem Modules.Sole.sound : (s.unregister desc p).Sound desc := by
  obtain ⟨vs, rest, hroot, -⟩ := hsole.first
  have hreg := hsole.reg_eq h
  have hinst := fun level keyword id => @installed_keywordUninstall _ _ _ s.reg level _ id _ _
    hsole.installed keyword
  constructor
  · rw [hreg]
    exact keywordUninstall_formed h.formed hsole.installed hroot
  · intro parent keyword id hid
    rw [hreg, hinst] at hid
    exact h.member parent keyword id hid
  · intro id hid
    have hlen : (s.unregister desc p).reg.tab.stubs.length = s.reg.tab.stubs.length := by
      rw [hreg, length_keywordUninstall hsole.installed]
    rw [hlen]
    rcases hsole.of_mem_freed h hid with hold | ⟨hlt, howner⟩
    · obtain ⟨hlt, hnot⟩ := h.freed id hold
      refine ⟨hlt, fun hholds => hnot ?_⟩
      rw [hreg] at hholds
      exact holds_of_keywordUninstall h.formed hsole.installed hroot hholds
    · exact ⟨hlt, fun hholds => hsole.owner_ne_of_holds h hholds howner⟩
  · exact h.nodup.erase p
  · exact fun q hq => h.hasExec q (List.mem_of_mem_erase hq)
  · intro q hexec
    refine h.unregister_own ?_ (fun q hq => ?_) (fun keyword id => ?_) hexec
    · rw [hsole.filter_own h, hsole.own]
      simp
    · rw [hsole.filter_own h]
      refine List.filter_eq_self.mpr fun id hid => decide_eq_true ?_
      rintro rfl
      exact hq (Option.some.inj ((mem_own.mp hid).2.symm.trans (own_head hsole.own).2))
    · rw [hreg]
      exact hinst none keyword id

end Sole

theorem Modules.Sound.unregister_nil (h : s.Sound desc) (hp : p ∈ s.modulelists)
    (hnil : (desc p).entries = []) :
    s.Unregisters desc p ∧ (s.unregister desc p).Sound desc := by
  have hown : s.own p = [] := by
    have hold := h.own p (h.hasExec p hp)
    rw [if_pos hp, hnil] at hold
    exact List.forall₂_nil_right_iff.mp hold
  have hreg : (s.unregister desc p).reg = s.reg := by
    rw [unregister, lrcModuleUnregister_eq, hnil]
    rfl
  have hgone : ∀ id, some id ∈ s.reg.tab.root → s.owner id ≠ some p := by
    intro id hid howner
    have hmem := mem_own.mpr ⟨hid, howner⟩
    rw [hown] at hmem
    cases hmem
  constructor
  · constructor
    · rwa [hreg]
    · intro level keyword id hlevel hfind
      rw [hreg] at hlevel hfind
      exact h.owner_of_holds hgone (fun _ _ hid => hid) (.find hlevel hfind)
    · intro id hid _
      rw [hreg]
      exact ⟨hid, fun hfreed => (h.freed id hfreed).2 hid⟩
  · constructor
    · rw [hreg]
      exact h.formed
    · rw [hreg]
      exact h.member
    · rw [hreg]
      exact h.freed
    · exact h.nodup.erase p
    · exact fun q hq => h.hasExec q (List.mem_of_mem_erase hq)
    · intro q hexec
      have hsame : ∀ q, (s.unregister desc p).own q = s.own q := by
        intro q
        rw [Modules.own, hreg]
        rfl
      refine h.unregister_own ((hsame p).trans hown) (fun q _ => hsame q) (fun keyword id => ?_)
        hexec
      rw [hreg]

/-! ### What further removals can do -/

/-- Stubs are taken out of the visible part of the root vector. -/
structure Shrinks (tab tab' : KeywordTable σ η D) : Prop where
  formed : tab'.Formed
  installed : ∀ level keyword id,
    tab'.Installed level keyword id ↔ tab.Installed level keyword id
  root : ∀ id, some id ∈ tab'.root → some id ∈ tab.root
  visible : ∀ id ∈ foreachActiveSlot tab'.root, id ∈ foreachActiveSlot tab.root
  hidden : ∀ id, some id ∈ tab.root → id ∉ foreachActiveSlot tab.root → some id ∈ tab'.root

theorem Shrinks.refl (h : tab.Formed) : Shrinks tab tab :=
  ⟨h, fun _ _ _ => Iff.rfl, fun _ h => h, fun _ h => h, fun _ h _ => h⟩

theorem Shrinks.trans {tab tab' tab'' : KeywordTable σ η D} (h : Shrinks tab tab')
    (h' : Shrinks tab' tab'') : Shrinks tab tab'' where
  formed := h'.formed
  installed level keyword id := (h'.installed level keyword id).trans (h.installed level keyword id)
  root id hid := h.root id (h'.root id hid)
  visible id hid := h.visible id (h'.visible id hid)
  hidden id hid hnot := h'.hidden id (h.hidden id hid hnot) (mt (h.visible id) hnot)

theorem uninstallKeyword_shrinks (h : reg.tab.Formed) (keyword : Word) :
    Shrinks reg.tab (uninstallKeyword keyword reg).tab := by
  unfold uninstallKeyword
  split
  · exact .refl h
  · rename_i kstub hfind
    obtain ⟨hinst, vs, rest, hroot, -⟩ := (findKeystub_root_iff h.child).mp hfind
    have hmem := fun id => @mem_root_keywordUninstall _ _ _ reg _ id _ _ _ h hinst hroot
    have hvisible : foreachActiveSlot (keywordUninstall kstub reg).tab.root = vs :=
      (level_keywordUninstall_self h hinst hroot).1
    have hold : foreachActiveSlot reg.tab.root = vs ++ kstub :: foreachActiveSlot rest := by
      rw [hroot, foreachActiveSlot_map_some]
      rfl
    refine ⟨keywordUninstall_formed h hinst hroot,
      fun _ _ _ => installed_keywordUninstall hinst, fun id hid => ((hmem id).mp hid).2, ?_, ?_⟩
    · intro id hid
      rw [hold]
      exact List.mem_append_left _ (hvisible ▸ hid)
    · intro id hid hnot
      refine (hmem id).mpr ⟨?_, hid⟩
      rintro rfl
      rw [hold] at hnot
      exact hnot (List.mem_append_right _ List.mem_cons_self)

theorem uninstallEntries_shrinks (es : List (StubData σ η D)) (h : reg.tab.Formed) :
    Shrinks reg.tab (uninstallEntries es reg).tab := by
  induction es generalizing reg with
  | nil => exact .refl h
  | cons e es ih =>
    have hstep := uninstallKeyword_shrinks h e.keyword
    exact hstep.trans (ih hstep.formed)

theorem KeywordTable.Holds.mem_root (hid : tab.Holds id) (h : tab.Homed)
    (hinst : tab.Installed none keyword id) : some id ∈ tab.root := by
  cases hid with
  | root hid => exact hid
  | sub _ hid =>
    obtain ⟨_, hinst'⟩ := h _ id hid
    cases (hinst'.inj hinst).1

theorem Modules.Sound.own_eq (h : s.Sound desc) (hp : p ∈ s.modulelists) :
    List.Forall₂ (fun id e => s.reg.tab.Installed none e.keyword id) (s.own p)
      (desc p).entries := by
  have hown := h.own p (h.hasExec p hp)
  rwa [if_pos hp] at hown

section Unregisters

variable {e : StubData σ η D} {es : List (StubData σ η D)} {a : ℕ} {ids vs : List ℕ}
  {rest : Slots ℕ}

theorem Modules.own_split (hsplit : s.reg.tab.root = vs.map some ++ some kstub :: rest) :
    s.own p = vs.filter (fun id => s.owner id = some p) ++
      (kstub :: rest.reduceOption).filter fun id => s.owner id = some p := by
  rw [← List.filter_append, own, hsplit, List.reduceOption_append]
  simp [List.reduceOption]

/-- Where the first stub of a module is not, none is. -/
theorem Modules.own_front (hsplit : s.reg.tab.root = vs.map some ++ some kstub :: rest)
    (hown : s.own p = a :: ids) (ha : a ∉ vs) :
    vs.filter (fun id => s.owner id = some p) = [] := by
  have hsame := s.own_split (p := p) hsplit
  rw [hown] at hsame
  cases hvs : vs.filter fun id => s.owner id = some p with
  | nil => rfl
  | cons b bs =>
    rw [hvs, List.cons_append, List.cons.injEq] at hsame
    have hb : b ∈ vs.filter fun id => s.owner id = some p := hvs ▸ List.mem_cons_self
    exact absurd (hsame.1 ▸ (List.mem_filter.mp hb).1) ha

theorem Modules.Sound.shrinks (h : s.Sound desc) (hentries : (desc p).entries = e :: es) :
    Shrinks (uninstallKeyword e.keyword s.reg).tab (s.unregister desc p).reg.tab := by
  rw [unregister, lrcModuleUnregister_eq, hentries]
  exact uninstallEntries_shrinks es (uninstallKeyword_shrinks h.formed e.keyword).formed

variable (h : s.Sound desc) (hunreg : s.Unregisters desc p) (hentries : (desc p).entries = e :: es)
  (hown : s.own p = a :: ids) (hinst : s.reg.tab.Installed none e.keyword a)

include h hunreg hentries hown hinst

theorem Modules.Unregisters.find_first :
    findKeystub s.reg.tab s.reg.tab.root e.keyword = some a := by
  have hshrinks := h.shrinks hentries
  obtain ⟨hroot, howner⟩ := own_head hown
  cases hfind : findKeystub s.reg.tab s.reg.tab.root e.keyword with
  | none =>
    -- the stub is hidden, and stays
    have hhidden : a ∉ foreachActiveSlot s.reg.tab.root := by
      intro hvisible
      obtain ⟨stub, hstub, -, hkeyword⟩ := hinst
      have hno := List.find?_eq_none.mp hfind a hvisible
      simp [hstub, hkeyword] at hno
    rw [uninstallKeyword, hfind] at hshrinks
    exact absurd howner (hunreg.own a (hshrinks.hidden a hroot hhidden))
  | some kstub =>
    obtain ⟨hinst', vs, rest, hsplit, hfirst⟩ := (findKeystub_root_iff h.formed.child).mp hfind
    rw [uninstallKeyword, hfind] at hshrinks
    by_cases hkstub : s.owner kstub = some p
    · have hsame := s.own_split (p := p) hsplit
      rw [own_front hsplit hown fun hmem => hfirst a hmem hinst, hown, List.nil_append,
        List.filter_cons, if_pos (decide_eq_true hkstub), List.cons.injEq] at hsame
      rw [hsame.1]
    · -- a stub of another module is gone
      have hmem : some kstub ∈ s.reg.tab.root := by
        rw [hsplit]
        exact List.mem_append_right _ List.mem_cons_self
      have hholds := (hunreg.other kstub (.root hmem) hkstub).1
      have hnew := (hshrinks.installed _ _ _).mpr ((installed_keywordUninstall hinst').mpr hinst')
      have hkept := hshrinks.root kstub (hholds.mem_root hshrinks.formed.child hnew)
      exact absurd rfl ((mem_root_keywordUninstall h.formed hinst' hsplit).mp hkept).1

/-- The empty slot that the first stub leaves hides the further ones. -/
theorem Modules.Unregisters.own_eq : ids = [] := by
  have hshrinks := h.shrinks hentries
  have hfind := hunreg.find_first h hentries hown hinst
  obtain ⟨-, vs, rest, hsplit, hfirst⟩ := (findKeystub_root_iff h.formed.child).mp hfind
  have hfront := own_front hsplit hown fun hmem => hfirst a hmem hinst
  rw [uninstallKeyword, hfind] at hshrinks
  by_contra hne
  obtain ⟨b, hb⟩ := List.exists_mem_of_ne_nil ids hne
  have hbown : b ∈ s.own p := by
    rw [hown]
    exact List.mem_cons_of_mem _ hb
  obtain ⟨hroot, howner⟩ := mem_own.mp hbown
  have hba : b ≠ a := by
    have hnodup : (s.own p).Nodup := (h.formed.nodup none).filter _
    rw [hown, List.nodup_cons] at hnodup
    rintro rfl
    exact hnodup.1 hb
  have hhidden : b ∉ foreachActiveSlot (keywordUninstall a s.reg).tab.root := by
    rw [show foreachActiveSlot (keywordUninstall a s.reg).tab.root = vs from
      (level_keywordUninstall_self h.formed hinst hsplit).1]
    intro hvs
    exact absurd (decide_eq_true howner) (List.filter_eq_nil_iff.mp hfront b hvs)
  have hkept := (mem_root_keywordUninstall h.formed hinst hsplit).mpr ⟨hba, hroot⟩
  exact hunreg.own b (hshrinks.hidden b hkept hhidden) howner

end Unregisters

/-- A registered module that can be unregistered has no entries, or is alone with one. -/
theorem Modules.Sound.sole (h : s.Sound desc) (hp : p ∈ s.modulelists)
    (hun : s.Unregistrable desc p) :
    (desc p).entries = [] ∨ ∃ e kstub, s.Sole desc p e kstub := by
  have hown := h.own_eq hp
  obtain ⟨hlen, hfirst⟩ := hun
  cases hentries : (desc p).entries with
  | nil => exact .inl rfl
  | cons e es =>
    rw [hentries] at hown hlen hfirst
    obtain rfl : es = [] := List.length_eq_zero_iff.mp (by simpa using hlen)
    obtain ⟨kstub, howner, hkstub⟩ := hfirst e List.mem_cons_self
    have hmem : kstub ∈ s.own p := by
      obtain ⟨vs, rest, hsplit, -⟩ := hkstub
      refine mem_own.mpr ⟨?_, howner⟩
      rw [hsplit]
      exact List.mem_append_right _ List.mem_cons_self
    obtain ⟨a, ids, hinst, hnil, hids⟩ := List.forall₂_cons_right_iff.mp hown
    obtain rfl := List.forall₂_nil_right_iff.mp hnil
    rw [hids, List.mem_singleton] at hmem
    subst hmem
    exact .inr ⟨e, kstub, hentries, hids, hinst, hkstub⟩

/-- **One unregistration.** -/
theorem Modules.Sound.exact_iff (h : s.Sound desc) (hp : p ∈ s.modulelists) :
    s.Unregisters desc p ↔ s.Unregistrable desc p := by
  constructor
  · intro hunreg
    have hown := h.own_eq hp
    unfold Unregistrable
    cases hentries : (desc p).entries with
    | nil => exact ⟨Nat.zero_le _, nofun⟩
    | cons e es =>
      rw [hentries] at hown
      obtain ⟨a, ids, hinst, hrest, hids⟩ := List.forall₂_cons_right_iff.mp hown
      obtain rfl := hunreg.own_eq h hentries hids hinst
      obtain rfl := List.forall₂_nil_left_iff.mp hrest
      have hfind := hunreg.find_first h hentries hids hinst
      refine ⟨Nat.le_refl _, fun e' he' => ?_⟩
      obtain rfl := List.mem_singleton.mp he'
      exact ⟨a, (own_head hids).2, ((findKeystub_root_iff h.formed.child).mp hfind).2⟩
  · intro hun
    rcases h.sole hp hun with hnil | ⟨e, kstub, hsole⟩
    · exact (h.unregister_nil hp hnil).1
    · exact hsole.unregisters h

/-! ## Runs -/

theorem ModuleRun.sound (h : ModuleRun desc (Modules.Unregistrable desc) s) : s.Sound desc := by
  induction h with
  | init =>
    refine ⟨lreKeywordInit_formed, fun _ _ _ h => (lreKeywordInit_not_installed h).elim, nofun,
      .nil, nofun, fun p _ => ?_⟩
    rw [if_neg List.not_mem_nil]
    exact .nil
  | register p _ hp ih => exact ih.register hp
  | unregister _ hp hun ih =>
    rcases ih.sole hp hun with hnil | ⟨e, kstub, hsole⟩
    · exact (ih.unregister_nil hp hnil).2
    · exact hsole.sound ih

/-- **While every unregistration has been one of a module that can be unregistered, a further one
takes exactly what is the module's own if and only if it is, too.** -/
theorem ModuleRun.unregisters_iff {desc : ι → LrcModule σ η D} {s : Modules σ η D ι} {p : ι}
    (h : ModuleRun desc (Modules.Unregistrable desc) s) (hp : p ∈ s.modulelists) :
    s.Unregisters desc p ↔ s.Unregistrable desc p := h.sound.exact_iff hp

end Run

/-! ## Modules that cannot be unregistered -/

/-- A module with the functions `a` and `b`, and one with the function `a`. -/
def pairDesc : Bool → LrcModule Unit Unit Unit
  | true => ⟨[bareFunc ['a'], bareFunc ['b']], []⟩
  | false => ⟨[bareFunc ['a']], []⟩

/-- The state in which one of them is registered. -/
def oneRegistered (p : Bool) : Modules Unit Unit Unit Bool :=
  Modules.register pairDesc ⟨⟨lreKeywordInit, []⟩, fun _ => none, []⟩ p

theorem oneRegistered_run (P : Modules Unit Unit Unit Bool → Bool → Prop) (p : Bool) :
    ModuleRun pairDesc P (oneRegistered p) := .register p .init List.not_mem_nil

/-- The state in which the module with one function is registered, and then the other one. -/
def bothRegistered : Modules Unit Unit Unit Bool := (oneRegistered false).register pairDesc true

/-- The first of two modules goes, and its `a`; the functions `a` and `b` of the other one stay. -/
theorem ModuleRun.unregisters_first : bothRegistered.Unregisters pairDesc false ∧
    bothRegistered.reg.tab.root = [some 0, some 1, some 2] ∧
    (bothRegistered.unregister pairDesc false).reg.tab.root = [none, some 1, some 2] := by
  have hroot : bothRegistered.reg.tab.root = [some 0, some 1, some 2] := by decide +kernel
  refine ⟨?_, hroot, by decide +kernel⟩
  have hrun := (oneRegistered_run (Modules.Unregistrable pairDesc) false).register true (by decide)
  refine (ModuleRun.unregisters_iff hrun (by decide +kernel)).mpr ?_
  refine ⟨Nat.le_refl _, fun e he => ?_⟩
  obtain rfl := List.mem_singleton.mp he
  exact ⟨0, by decide +kernel, [], [some 1, some 2], hroot, nofun⟩

/-- Of the module with two functions the second stays. -/
theorem ModuleRun.unregisters_not_two :
    some 1 ∈ ((oneRegistered true).unregister pairDesc true).reg.tab.root ∧
    (oneRegistered true).owner 1 = some true ∧
    ¬∀ (s : Modules Unit Unit Unit Bool) (p : Bool),
      ModuleRun pairDesc (fun _ _ => True) s → p ∈ s.modulelists → s.Unregisters pairDesc p := by
  have hmem : some 1 ∈ ((oneRegistered true).unregister pairDesc true).reg.tab.root := by
    decide +kernel
  refine ⟨hmem, rfl, fun hall => ?_⟩
  have hunreg := hall _ true (oneRegistered_run _ true) List.mem_cons_self
  exact hunreg.own 1 hmem rfl

end Lre
