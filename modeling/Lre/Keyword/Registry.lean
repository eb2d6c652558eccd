import Mathlib.Data.List.DropRight
import Mathlib.Data.List.ReduceOption
import Lre.Keyword.Table

/-!
# Installing and uninstalling

* `vectorUnset`, `keywordUninstall`: a stub leaves the vector of its level, and it and what is
  below it are freed.
* `RegistryRun P`: sequences of installations and uninstallations, the latter where `P` holds.
* **`RegistryRun.lookup`**: while each stub that goes has only slots behind it whose keywords are
  also borne in front of it, lookups find what is live, and nothing else.
-/

namespace Lre

/-! ## Vectors with holes -/

section Slots

variable {α : Type}

/-- `vector_unset`. -/
def vectorUnset (slots : Slots α) (i : ℕ) : Slots α :=
  if i + 1 = slots.length then (slots.set i none).rdropWhile Option.isNone else slots.set i none

/-- The loop of `keyword_uninstall` from slot `i` on, for `n` slots. -/
def unsetLoop [DecidableEq α] (v : α) : ℕ → ℕ → Slots α → Slots α
  | 0, _, slots => slots
  | n + 1, i, slots =>
    match slots[i]? with
    | some (some w) =>
      if w ≠ v then unsetLoop v n (i + 1) slots
      else unsetLoop v n (i + 1) (vectorUnset slots i)
    | _ => slots

@[simp] theorem foreachActiveSlot_map_some (vs : List α) (slots : Slots α) :
    foreachActiveSlot (vs.map some ++ slots) = vs ++ foreachActiveSlot slots := by
  induction vs with
  | nil => rfl
  | cons v vs ih => exact congrArg (v :: ·) ih

theorem mem_vectorSet_iff {v val : α} {slots : Slots α} :
    some v ∈ vectorSet slots val ↔ some v ∈ slots ∨ v = val := by
  refine ⟨mem_vectorSet, ?_⟩
  induction slots with
  | nil => simp [vectorSet]
  | cons slot slots ih =>
    cases slot with
    | none => simp [vectorSet, or_comm]
    | some w =>
      rintro (h | rfl)
      · rcases List.mem_cons.mp h with h | h
        · exact h ▸ List.mem_cons_self
        · exact List.mem_cons_of_mem _ (ih (.inl h))
      · exact List.mem_cons_of_mem _ (ih (.inr rfl))

theorem vectorSet_perm (slots : Slots α) (val : α) :
    (vectorSet slots val).reduceOption.Perm (val :: slots.reduceOption) := by
  induction slots with
  | nil => exact .refl _
  | cons slot slots ih =>
    cases slot with
    | none => exact .refl _
    | some w => exact (ih.cons w).trans (.swap val w _)

/-- A value is put in front of the first empty slot: it is visible, and hides nothing. -/
theorem mem_foreachActiveSlot_vectorSet {v val : α} {slots : Slots α}
    (h : v ∈ foreachActiveSlot slots ∨ v = val) : v ∈ foreachActiveSlot (vectorSet slots val) := by
  induction slots with
  | nil =>
    rcases h with h | rfl
    · cases h
    · exact List.mem_cons_self
  | cons slot slots ih =>
    cases slot with
    | none =>
      rcases h with h | rfl
      · cases h
      · exact List.mem_cons_self
    | some w =>
      rcases h with h | rfl
      · rcases List.mem_cons.mp h with rfl | h
        · exact List.mem_cons_self
        · exact List.mem_cons_of_mem _ (ih (.inl h))
      · exact List.mem_cons_of_mem _ (ih (.inr rfl))

/-- **`vector_unset` of a slot with no empty one in front of it.** -/
theorem vectorUnset_spec (vs : List α) (v : α) (rest : Slots α) :
    foreachActiveSlot (vectorUnset (vs.map some ++ some v :: rest) vs.length) = vs ∧
    (vectorUnset (vs.map some ++ some v :: rest) vs.length).reduceOption =
      vs ++ rest.reduceOption := by
  have hset : (vs.map some ++ some v :: rest).set vs.length none = vs.map some ++ none :: rest := by
    rw [List.set_append_right _ _ (by rw [List.length_map]), List.length_map, Nat.sub_self]
    rfl
  rw [vectorUnset, hset]
  split
  · rename_i hlast
    obtain rfl : rest = [] := List.length_eq_zero_iff.mp (by simpa using hlast)
    have hdrop : (vs.map some ++ [none]).rdropWhile Option.isNone = vs.map some := by
      rw [List.rdropWhile_concat_pos _ _ _ rfl, List.rdropWhile_eq_self_iff]
      intro hne
      rw [List.getLast_map]
      exact Bool.false_ne_true
    rw [hdrop]
    refine ⟨?_, by simp [List.reduceOption]⟩
    simpa [foreachActiveSlot] using foreachActiveSlot_map_some vs []
  · exact ⟨by simp [foreachActiveSlot], by simp [List.reduceOption]⟩

theorem mem_of_mem_vectorUnset {v : α} {slots : Slots α} {i : ℕ}
    (h : some v ∈ vectorUnset slots i) : some v ∈ slots := by
  have hset : some v ∈ slots.set i none := by
    unfold vectorUnset at h
    split at h
    · exact (List.rdropWhile_prefix _ _).subset h
    · exact h
  exact (List.mem_or_eq_of_mem_set hset).resolve_right nofun

variable [DecidableEq α]

theorem mem_of_mem_unsetLoop {v w : α} {n i : ℕ} {slots : Slots α}
    (h : some w ∈ unsetLoop v n i slots) : some w ∈ slots := by
  induction n generalizing i slots with
  | zero => exact h
  | succ n ih =>
    rw [unsetLoop] at h
    split at h
    · split at h
      · exact ih h
      · exact mem_of_mem_vectorUnset (ih h)
    · exact h

theorem unsetLoop_of_notMem {v : α} (n i : ℕ) {slots : Slots α}
    (h : ∀ j, i ≤ j → slots[j]? ≠ some (some v)) : unsetLoop v n i slots = slots := by
  induction n generalizing i with
  | zero => rfl
  | succ n ih =>
    rw [unsetLoop]
    split
    · rename_i w hw
      have hne : w ≠ v := by
        rintro rfl
        exact h i (Nat.le_refl i) hw
      rw [if_pos hne]
      exact ih (i + 1) fun j hj => h j (Nat.le_of_succ_le hj)
    · rfl

theorem unsetLoop_skip {v : α} (k n i : ℕ) {slots : Slots α}
    (h : ∀ j, i ≤ j → j < i + k → ∃ w, slots[j]? = some (some w) ∧ w ≠ v) :
    unsetLoop v (k + n) i slots = unsetLoop v n (i + k) slots := by
  induction k generalizing i with
  | zero => rw [Nat.zero_add, Nat.add_zero]
  | succ k ih =>
    obtain ⟨w, hw, hne⟩ := h i (Nat.le_refl i) (by omega)
    rw [show k + 1 + n = k + n + 1 by omega, unsetLoop, hw]
    dsimp only
    rw [if_pos hne, ih (i + 1) fun j hj hlt => h j (by omega) (by omega)]
    congr 1
    omega

/-- The loop unsets the slot of the value, when no slot in front of it is empty. -/
theorem unsetLoop_eq (vs : List α) {v : α} {rest : Slots α} (hvs : v ∉ vs)
    (hrest : some v ∉ rest) : unsetLoop v (vs.map some ++ some v :: rest).length 0
      (vs.map some ++ some v :: rest) = vectorUnset (vs.map some ++ some v :: rest) vs.length := by
  have hlen : (vs.map some ++ some v :: rest).length = vs.length + (rest.length + 1) := by simp
  have hslot : (vs.map some ++ some v :: rest)[vs.length]? = some (some v) := by
    rw [List.getElem?_append_right (by simp)]
    simp
  rw [hlen, unsetLoop_skip, Nat.zero_add, unsetLoop, hslot]
  · dsimp only
    rw [if_neg (not_not_intro rfl)]
    refine unsetLoop_of_notMem _ _ fun j _ hj => ?_
    have hmem := List.reduceOption_mem_iff.mpr (List.mem_of_getElem? hj)
    rw [(vectorUnset_spec vs v rest).2] at hmem
    exact (List.mem_append.mp hmem).elim hvs fun h => hrest (List.reduceOption_mem_iff.mp h)
  · intro j _ hj
    rw [Nat.zero_add] at hj
    refine ⟨vs[j], ?_, fun heq => hvs (heq ▸ List.getElem_mem hj)⟩
    rw [List.getElem?_append_left (by simpa using hj)]
    simp [hj]

end Slots

/-! ## The operations -/

variable {σ η D : Type}

/-- The vector of a level: `root_kstub_vec`, or the `subvec` of a stub. -/
def KeywordTable.level (tab : KeywordTable σ η D) : Option ℕ → Slots ℕ
  | none => tab.root
  | some parent => (tab.stubs[parent]?.bind KeywordStub.subvec).getD []

/-- A change of the vector of a level. -/
def KeywordTable.modifyLevel (tab : KeywordTable σ η D) (f : Slots ℕ → Slots ℕ) :
    Option ℕ → KeywordTable σ η D
  | none => { tab with root := f tab.root }
  | some parent =>
    { tab with stubs := tab.stubs.modify parent fun p => { p with subvec := p.subvec.map f } }

/-- `keyword_stub_destroy`, `n` levels deep: the stubs it frees. -/
def keywordStubDestroy (tab : KeywordTable σ η D) : ℕ → ℕ → List ℕ
  | 0, _ => []
  | n + 1, keystub =>
    (foreachActiveSlot (tab.level (some keystub))).flatMap (keywordStubDestroy tab n) ++ [keystub]

/-- The stubs of `keyword.c`, and those that have been freed. -/
structure Registry (σ η D : Type) where
  tab : KeywordTable σ η D
  freed : List ℕ

/-- `keyword_uninstall`; a level is below its parent, so that `stubs.length` levels are enough. -/
def keywordUninstall (keystub : ℕ) (reg : Registry σ η D) : Registry σ η D :=
  match reg.tab.stubs[keystub]? with
  | none => reg
  | some stub =>
    let tab := reg.tab.modifyLevel (fun slots => unsetLoop keystub slots.length 0 slots) stub.parent
    ⟨tab, reg.freed ++ keywordStubDestroy tab tab.stubs.length keystub⟩

/-- The stub `find_stub_by_keyword` points to. -/
def findKeystub (tab : KeywordTable σ η D) (kwvec : Slots ℕ) (keyword : Word) : Option ℕ :=
  (foreachActiveSlot kwvec).find? fun id =>
    (tab.stubs[id]?.filter fun keystub => keystub.keyword = keyword).isSome

theorem findStubByKeyword_eq (tab : KeywordTable σ η D) (kwvec : Slots ℕ) (keyword : Word) :
    findStubByKeyword tab kwvec keyword =
      (findKeystub tab kwvec keyword).bind fun id => tab.stubs[id]? := by
  unfold findStubByKeyword findKeystub
  induction foreachActiveSlot kwvec with
  | nil => rfl
  | cons id ids ih =>
    rw [List.findSome?_cons, List.find?_cons]
    cases hid : tab.stubs[id]?.filter fun keystub => keystub.keyword = keyword with
    | none => exact ih
    | some keystub => exact (Option.eq_some_of_filter_eq_some hid).symm

/-! ## Histories -/

/-- The stub was installed at the level under the keyword. -/
def KeywordTable.Installed (tab : KeywordTable σ η D) (level : Option ℕ) (keyword : Word)
    (id : ℕ) : Prop :=
  ∃ keystub, tab.stubs[id]? = some keystub ∧ keystub.parent = level ∧ keystub.keyword = keyword

/-- Neither the stub nor one above it is among those that have been uninstalled. -/
inductive Live (tab : KeywordTable σ η D) (gone : List ℕ) : ℕ → Prop
  | root {keyword : Word} {id : ℕ} : tab.Installed none keyword id → id ∉ gone → Live tab gone id
  | sub {keyword : Word} {parent id : ℕ} : tab.Installed (some parent) keyword id → id ∉ gone →
    Live tab gone parent → Live tab gone id

/-- The level is the root, or that of a stub with a vector. -/
def KeywordTable.HasVector (tab : KeywordTable σ η D) : Option ℕ → Prop
  | none => True
  | some parent => ∃ keystub, tab.stubs[parent]? = some keystub ∧ keystub.subvec.isSome

/-- The root level, or that of a live function or call. -/
structure LiveLevel (tab : KeywordTable σ η D) (gone : List ℕ) (level : Option ℕ) : Prop where
  live : ∀ parent, level = some parent → Live tab gone parent
  hasVector : tab.HasVector level

/-- The registries after installations and uninstallations of live stubs, these where `P` holds;
`gone` are the stubs that have been uninstalled. -/
inductive RegistryRun (P : KeywordTable σ η D → ℕ → Prop) : Registry σ η D → List ℕ → Prop
  | init : RegistryRun P ⟨lreKeywordInit, []⟩ []
  | install {reg : Registry σ η D} {gone : List ℕ} {parent : Option ℕ} (type : KeystubType)
    (keyword : Word) (data : StubData σ η D) : RegistryRun P reg gone →
    LiveLevel reg.tab gone parent →
    RegistryRun P { reg with tab := (keywordInstall type keyword data parent reg.tab).1 } gone
  | uninstall {reg : Registry σ η D} {gone : List ℕ} {keystub : ℕ} : RegistryRun P reg gone →
    Live reg.tab gone keystub → P reg.tab keystub →
    RegistryRun P (keywordUninstall keystub reg) (keystub :: gone)

/-- No slot in front of the stub is empty, and the keywords behind it are also borne in front of
it. -/
def Removable (tab : KeywordTable σ η D) (keystub : ℕ) : Prop :=
  ∃ (level : Option ℕ) (keyword : Word) (vs : List ℕ) (rest : Slots ℕ),
    tab.Installed level keyword keystub ∧
    tab.level level = vs.map some ++ some keystub :: rest ∧
    ∀ id keyword', some id ∈ rest → tab.Installed level keyword' id →
      ∃ id' ∈ vs, tab.Installed level keyword' id'

variable {tab : KeywordTable σ η D} {reg : Registry σ η D} {gone : List ℕ} {level : Option ℕ}
  {keyword : Word} {id keystub : ℕ}

theorem KeywordTable.Installed.lt (h : tab.Installed level keyword id) : id < tab.stubs.length := by
  obtain ⟨keystub, hid, -⟩ := h
  exact (List.getElem?_eq_some_iff.mp hid).1

theorem KeywordTable.Installed.inj {level' : Option ℕ} {keyword' : Word}
    (h : tab.Installed level keyword id) (h' : tab.Installed level' keyword' id) :
    level = level' ∧ keyword = keyword' := by
  obtain ⟨stub, hid, rfl, rfl⟩ := h
  obtain ⟨stub', hid', rfl, rfl⟩ := h'
  obtain rfl := Option.some.inj (hid.symm.trans hid')
  exact ⟨rfl, rfl⟩

theorem Live.installed (h : Live tab gone id) :
    ∃ level keyword, tab.Installed level keyword id := by
  cases h with
  | root hid => exact ⟨_, _, hid⟩
  | sub hid => exact ⟨_, _, hid⟩

theorem Live.notMem (h : Live tab gone id) : id ∉ gone := by
  cases h with
  | root _ hmem => exact hmem
  | sub _ hmem => exact hmem

theorem Live.parent {parent : ℕ} (h : Live tab gone id)
    (hid : tab.Installed (some parent) keyword id) : Live tab gone parent := by
  cases h with
  | root hid' => cases (hid.inj hid').1
  | sub hid' _ hparent =>
    obtain rfl := Option.some.inj (hid.inj hid').1
    exact hparent

theorem LiveLevel.live_iff (h : LiveLevel tab gone level) (hid : tab.Installed level keyword id) :
    Live tab gone id ↔ id ∉ gone := by
  refine ⟨Live.notMem, fun hmem => ?_⟩
  cases level with
  | none => exact .root hid hmem
  | some parent => exact .sub hid hmem (h.live parent rfl)

theorem liveLevel_root : LiveLevel tab gone none := ⟨nofun, trivial⟩

/-! ## The tables of the operations -/

theorem getElem?_modifyLevel (f : Slots ℕ → Slots ℕ) (L : Option ℕ) :
    (tab.modifyLevel f L).stubs[id]? = tab.stubs[id]?.map fun stub =>
      if L = some id then { stub with subvec := stub.subvec.map f } else stub := by
  cases L with
  | none => simp [KeywordTable.modifyLevel]
  | some p =>
    rw [KeywordTable.modifyLevel, List.getElem?_modify]
    by_cases hp : p = id <;> simp [hp]

theorem installed_modifyLevel (f : Slots ℕ → Slots ℕ) (L : Option ℕ) :
    (tab.modifyLevel f L).Installed level keyword id ↔ tab.Installed level keyword id := by
  unfold KeywordTable.Installed
  rw [getElem?_modifyLevel]
  cases tab.stubs[id]? with
  | none => simp
  | some stub => by_cases hL : L = some id <;> simp [hL]

theorem hasVector_modifyLevel (f : Slots ℕ → Slots ℕ) (L : Option ℕ) :
    (tab.modifyLevel f L).HasVector level ↔ tab.HasVector level := by
  cases level with
  | none => exact Iff.rfl
  | some p =>
    simp only [KeywordTable.HasVector, getElem?_modifyLevel]
    cases tab.stubs[p]? with
    | none => simp
    | some stub => by_cases hL : L = some p <;> simp [hL]

theorem level_modifyLevel {f : Slots ℕ → Slots ℕ} {L : Option ℕ}
    (h : f [] = [] ∨ tab.HasVector L) :
    (tab.modifyLevel f L).level level =
      if level = L then f (tab.level level) else tab.level level := by
  cases level with
  | none => cases L <;> rfl
  | some p =>
    simp only [KeywordTable.level, getElem?_modifyLevel]
    by_cases hL : some p = L
    · subst hL
      rw [if_pos rfl]
      rcases h with hnil | ⟨stub, hstub, hvec⟩
      · rcases hstub : tab.stubs[p]? with - | ⟨_, _, _, _, - | subvec⟩
        · exact hnil.symm
        · simp [hnil]
        · simp
      · obtain ⟨subvec, hsubvec⟩ := Option.isSome_iff_exists.mp hvec
        simp [hstub, hsubvec]
    · rw [if_neg hL]
      cases tab.stubs[p]? with
      | none => rfl
      | some stub => simp [Ne.symm hL]

section Install

variable (type : KeystubType) (data : StubData σ η D) (parent : Option ℕ)

/-- The table with a further stub, which no vector holds yet. -/
def KeywordTable.append (tab : KeywordTable σ η D) (keystub : KeywordStub σ η D) :
    KeywordTable σ η D := { tab with stubs := tab.stubs ++ [keystub] }

theorem keywordInstall_fst : (keywordInstall type keyword data parent tab).1 =
    (tab.append (keywordStubCreate type keyword data parent)).modifyLevel
      (vectorSet · tab.stubs.length) parent := by
  cases parent <;> rfl

theorem getElem?_append_lt {stub : KeywordStub σ η D} (h : id < tab.stubs.length) :
    (tab.append stub).stubs[id]? = tab.stubs[id]? := List.getElem?_append_left h

theorem level_append (level : Option ℕ) :
    (tab.append (keywordStubCreate type keyword data parent)).level level = tab.level level := by
  cases level with
  | none => rfl
  | some p =>
    rcases Nat.lt_trichotomy p tab.stubs.length with hp | rfl | hp
    · rw [KeywordTable.level, getElem?_append_lt hp]
      rfl
    · by_cases htype : type = .func ∨ type = .call
      · simp [KeywordTable.level, KeywordTable.append, keywordStubCreate, htype]
      · simp [KeywordTable.level, KeywordTable.append, keywordStubCreate, htype]
    · have hge : (tab.stubs ++ [keywordStubCreate type keyword data parent]).length ≤ p := by
        rw [List.length_append]
        exact hp
      rw [KeywordTable.level, KeywordTable.level, KeywordTable.append,
        List.getElem?_eq_none hge, List.getElem?_eq_none (Nat.le_of_lt hp)]

theorem level_keywordInstall (hvec : tab.HasVector parent) :
    (keywordInstall type keyword data parent tab).1.level level =
      if level = parent then vectorSet (tab.level level) tab.stubs.length
      else tab.level level := by
  rw [keywordInstall_fst, level_modifyLevel, level_append]
  right
  cases parent with
  | none => trivial
  | some p =>
    obtain ⟨stub, hstub, hsome⟩ := hvec
    exact ⟨stub, (getElem?_append_lt (List.getElem?_eq_some_iff.mp hstub).1).trans hstub, hsome⟩

theorem installed_keywordInstall {keyword' : Word} :
    (keywordInstall type keyword data parent tab).1.Installed level keyword' id ↔
      tab.Installed level keyword' id ∨
        id = tab.stubs.length ∧ level = parent ∧ keyword' = keyword := by
  rw [keywordInstall_fst, installed_modifyLevel]
  constructor
  · rintro ⟨stub, hid, hlevel, hkeyword⟩
    by_cases hlt : id < tab.stubs.length
    · exact .inl ⟨stub, getElem?_append_lt hlt ▸ hid, hlevel, hkeyword⟩
    · rw [KeywordTable.append, List.getElem?_append_right (Nat.not_lt.mp hlt),
        List.getElem?_singleton] at hid
      split at hid
      · cases hid
        exact .inr ⟨by omega, hlevel.symm, hkeyword.symm⟩
      · cases hid
  · rintro (h | ⟨rfl, rfl, rfl⟩)
    · obtain ⟨stub, hid, hrest⟩ := h
      have hlt := (List.getElem?_eq_some_iff.mp hid).1
      exact ⟨stub, (getElem?_append_lt hlt).trans hid, hrest⟩
    · exact ⟨keywordStubCreate type keyword' data level, by simp [KeywordTable.append], rfl, rfl⟩

theorem hasVector_keywordInstall {p : ℕ} (hp : p < tab.stubs.length)
    (h : (keywordInstall type keyword data parent tab).1.HasVector (some p)) :
    tab.HasVector (some p) := by
  rw [keywordInstall_fst, hasVector_modifyLevel] at h
  obtain ⟨stub, hstub, hsome⟩ := h
  exact ⟨stub, (getElem?_append_lt hp).symm.trans hstub, hsome⟩

theorem KeywordTable.HasVector.install (h : tab.HasVector level) :
    (keywordInstall type keyword data parent tab).1.HasVector level := by
  rw [keywordInstall_fst, hasVector_modifyLevel]
  cases level with
  | none => trivial
  | some p =>
    obtain ⟨stub, hstub, hsome⟩ := h
    exact ⟨stub, (getElem?_append_lt (List.getElem?_eq_some_iff.mp hstub).1).trans hstub, hsome⟩

theorem length_keywordInstall :
    (keywordInstall type keyword data parent tab).1.stubs.length = tab.stubs.length + 1 := by
  cases parent <;> simp [keywordInstall, keywordStubAdd]

end Install

theorem keywordUninstall_tab (h : reg.tab.Installed level keyword keystub) :
    (keywordUninstall keystub reg).tab =
      reg.tab.modifyLevel (fun slots => unsetLoop keystub slots.length 0 slots) level := by
  obtain ⟨stub, hid, rfl, -⟩ := h
  rw [keywordUninstall, hid]

theorem keywordUninstall_freed (h : reg.tab.Installed level keyword keystub) :
    (keywordUninstall keystub reg).freed = reg.freed ++ keywordStubDestroy
      (keywordUninstall keystub reg).tab (keywordUninstall keystub reg).tab.stubs.length
      keystub := by
  obtain ⟨stub, hid, -⟩ := h
  rw [keywordUninstall, hid]

/-! ## Invariants -/

theorem Live.mono {tab' : KeywordTable σ η D} {gone' : List ℕ}
    (htab : ∀ {level keyword id}, tab.Installed level keyword id → tab'.Installed level keyword id)
    (hgone : ∀ id, Live tab gone id → id ∉ gone') (h : Live tab gone id) : Live tab' gone' id := by
  induction h with
  | root hid hmem => exact .root (htab hid) (hgone _ (.root hid hmem))
  | sub hid hmem hparent ih => exact .sub (htab hid) (hgone _ (.sub hid hmem hparent)) ih

/-- A vector holds stubs of its level. -/
def KeywordTable.Homed (tab : KeywordTable σ η D) : Prop :=
  ∀ level id, some id ∈ tab.level level → ∃ keyword, tab.Installed level keyword id

/-- What holds of every table: a vector holds stubs of its level, each once, and an owner is older
than what it owns. -/
structure KeywordTable.Formed (tab : KeywordTable σ η D) : Prop where
  child : ∀ level id, some id ∈ tab.level level → ∃ keyword, tab.Installed level keyword id
  older : ∀ parent keyword id, tab.Installed (some parent) keyword id → parent < id
  nodup : ∀ level, (tab.level level).reduceOption.Nodup

/-- What holds while every stub that goes is removable: the vector of a live level holds its live
stubs, their keywords are found, and no live stub has been freed. -/
structure Registry.Sound (reg : Registry σ η D) (gone : List ℕ) : Prop where
  formed : reg.tab.Formed
  bounded : ∀ id ∈ gone, id < reg.tab.stubs.length
  held : ∀ level keyword id, LiveLevel reg.tab gone level → reg.tab.Installed level keyword id →
    (some id ∈ reg.tab.level level ↔ id ∉ gone)
  found : ∀ level keyword id, LiveLevel reg.tab gone level → reg.tab.Installed level keyword id →
    id ∉ gone → ∃ id' ∈ foreachActiveSlot (reg.tab.level level),
      reg.tab.Installed level keyword id'
  freed : ∀ id ∈ reg.freed, id < reg.tab.stubs.length ∧ ¬Live reg.tab gone id

theorem lreKeywordInit_level (level : Option ℕ) :
    (lreKeywordInit : KeywordTable σ η D).level level = [] := by cases level <;> rfl

theorem lreKeywordInit_not_installed :
    ¬(lreKeywordInit : KeywordTable σ η D).Installed level keyword id := fun h => by
  simpa [lreKeywordInit] using h.lt

theorem lreKeywordInit_formed : (lreKeywordInit : KeywordTable σ η D).Formed where
  child level id h := by
    rw [lreKeywordInit_level] at h
    cases h
  older _ _ _ h := (lreKeywordInit_not_installed h).elim
  nodup level := by
    rw [lreKeywordInit_level]
    exact .nil

theorem lreKeywordInit_sound : (⟨lreKeywordInit, []⟩ : Registry σ η D).Sound [] where
  formed := lreKeywordInit_formed
  bounded _ h := by cases h
  held _ _ _ _ h := (lreKeywordInit_not_installed h).elim
  found _ _ _ _ h := (lreKeywordInit_not_installed h).elim
  freed _ h := by cases h

/-! ### Installation -/

theorem keywordInstall_homed (h : tab.Homed) (type : KeystubType) (data : StubData σ η D)
    {parent : Option ℕ} (hvec : tab.HasVector parent) :
    (keywordInstall type keyword data parent tab).1.Homed := by
  intro level id hid
  have hold : some id ∈ tab.level level →
      ∃ keyword', (keywordInstall type keyword data parent tab).1.Installed level keyword' id := by
    intro hid
    obtain ⟨keyword', hid⟩ := h level id hid
    exact ⟨keyword', (installed_keywordInstall ..).mpr (.inl hid)⟩
  rw [level_keywordInstall type data parent hvec] at hid
  split at hid
  · rename_i hlevel
    rcases mem_vectorSet hid with hid | rfl
    · exact hold hid
    · exact ⟨keyword, (installed_keywordInstall ..).mpr (.inr ⟨rfl, hlevel, rfl⟩)⟩
  · exact hold hid

theorem keywordInstall_formed (h : tab.Formed) (type : KeystubType) (data : StubData σ η D)
    {parent : Option ℕ} (hvec : tab.HasVector parent)
    (hparent : ∀ p, parent = some p → p < tab.stubs.length) :
    (keywordInstall type keyword data parent tab).1.Formed := by
  have hfresh : ∀ level, some tab.stubs.length ∉ tab.level level := by
    intro level hmem
    obtain ⟨keyword, hid⟩ := h.child level _ hmem
    exact absurd hid.lt (Nat.lt_irrefl _)
  constructor
  · exact keywordInstall_homed h.child type data hvec
  · intro p keyword' id hid
    rcases (installed_keywordInstall type data parent).mp hid with hid | ⟨rfl, hp, -⟩
    · exact h.older p keyword' id hid
    · exact hparent p hp.symm
  · intro level
    rw [level_keywordInstall type data parent hvec]
    split
    · rw [(vectorSet_perm _ _).nodup_iff, List.nodup_cons, List.reduceOption_mem_iff]
      exact ⟨hfresh level, h.nodup level⟩
    · exact h.nodup level

/-- The stubs that are live after an installation. -/
theorem live_keywordInstall (h : tab.Formed) (type : KeystubType) (data : StubData σ η D)
    {parent : Option ℕ} (hid : Live (keywordInstall type keyword data parent tab).1 gone id) :
    Live tab gone id ∨ id = tab.stubs.length := by
  induction hid with
  | root hid hmem =>
    rcases (installed_keywordInstall type data parent).mp hid with hid | ⟨rfl, -, -⟩
    · exact .inl (.root hid hmem)
    · exact .inr rfl
  | sub hid hmem hparent ih =>
    rcases (installed_keywordInstall type data parent).mp hid with hid | ⟨rfl, -, -⟩
    · rcases ih with ih | rfl
      · exact .inl (.sub hid hmem ih)
      · exact absurd (h.older _ _ _ hid) (Nat.not_lt.mpr (Nat.le_of_lt hid.lt))
    · exact .inr rfl

theorem liveLevel_keywordInstall (h : tab.Formed) (type : KeystubType) (data : StubData σ η D)
    {parent : Option ℕ}
    (hl : LiveLevel (keywordInstall type keyword data parent tab).1 gone level) :
    LiveLevel tab gone level ∨ level = some tab.stubs.length := by
  cases level with
  | none => exact .inl ⟨nofun, trivial⟩
  | some p =>
    rcases live_keywordInstall h type data (hl.live p rfl) with hp | rfl
    · left
      obtain ⟨_, _, hinst⟩ := hp.installed
      refine ⟨?_, hasVector_keywordInstall type data parent hinst.lt hl.hasVector⟩
      rintro q ⟨⟩
      exact hp
    · exact .inr rfl

theorem keywordInstall_sound (h : reg.Sound gone) (type : KeystubType) (keyword : Word)
    (data : StubData σ η D) {parent : Option ℕ} (hparent : LiveLevel reg.tab gone parent) :
    ({ reg with tab := (keywordInstall type keyword data parent reg.tab).1 } :
      Registry σ η D).Sound gone := by
  have hlt : ∀ p, parent = some p → p < reg.tab.stubs.length := by
    intro p hp
    obtain ⟨_, _, hinst⟩ := (hparent.live p hp).installed
    exact hinst.lt
  have hnew : ∀ keyword' id, ¬(keywordInstall type keyword data parent reg.tab).1.Installed
      (some reg.tab.stubs.length) keyword' id := by
    intro keyword' id hid
    rcases (installed_keywordInstall type data parent).mp hid with hid | ⟨-, hp, -⟩
    · exact absurd (h.formed.older _ _ _ hid) (Nat.not_lt.mpr (Nat.le_of_lt hid.lt))
    · exact absurd (hlt _ hp.symm) (Nat.lt_irrefl _)
  have hinst := fun level keyword' id => @installed_keywordInstall _ _ _ reg.tab level keyword id
    type data parent keyword'
  constructor
  · exact keywordInstall_formed h.formed type data hparent.hasVector hlt
  · intro id hid
    rw [length_keywordInstall]
    exact Nat.lt_succ_of_lt (h.bounded id hid)
  · intro level keyword' id hl hid
    rcases liveLevel_keywordInstall h.formed type data hl with hl | rfl
    · rw [level_keywordInstall type data parent hparent.hasVector]
      rcases (hinst level keyword' id).mp hid with hold | ⟨rfl, rfl, rfl⟩
      · rw [← h.held level keyword' id hl hold]
        split
        · rw [mem_vectorSet_iff, or_iff_left (Nat.ne_of_lt hold.lt)]
        · exact Iff.rfl
      · rw [if_pos rfl, mem_vectorSet_iff]
        exact iff_of_true (.inr rfl) fun hmem => absurd (h.bounded _ hmem) (Nat.lt_irrefl _)
    · exact absurd hid (hnew _ _)
  · intro level keyword' id hl hid hmem
    rcases liveLevel_keywordInstall h.formed type data hl with hl | rfl
    · rw [level_keywordInstall type data parent hparent.hasVector]
      rcases (hinst level keyword' id).mp hid with hold | ⟨rfl, rfl, rfl⟩
      · obtain ⟨id', hid', hkeyword⟩ := h.found level keyword' id hl hold hmem
        refine ⟨id', ?_, (hinst level keyword' id').mpr (.inl hkeyword)⟩
        split
        · exact mem_foreachActiveSlot_vectorSet (.inl hid')
        · exact hid'
      · rw [if_pos rfl]
        exact ⟨_, mem_foreachActiveSlot_vectorSet (.inr rfl), hid⟩
    · exact absurd hid (hnew _ _)
  · intro id hid
    obtain ⟨hbound, hdead⟩ := h.freed id hid
    rw [length_keywordInstall]
    refine ⟨Nat.lt_succ_of_lt hbound, fun hlive => ?_⟩
    rcases live_keywordInstall h.formed type data hlive with hlive | rfl
    · exact hdead hlive
    · exact absurd hbound (Nat.lt_irrefl _)

/-! ### Uninstallation -/

/-- A property of the stub, and of what the vector of a stub with it holds, is one of all that
`keyword_stub_destroy` frees. -/
theorem keywordStubDestroy_closed {Q : ℕ → Prop} {n : ℕ} (hself : Q id)
    (hclosed : ∀ parent c, Q parent → some c ∈ tab.level (some parent) → Q c) :
    ∀ d ∈ keywordStubDestroy tab n id, Q d := by
  induction n generalizing id with
  | zero => exact fun d hd => by cases hd
  | succ n ih =>
    intro d hd
    rcases List.mem_append.mp hd with hd | hd
    · obtain ⟨c, hc, hd⟩ := List.mem_flatMap.mp hd
      exact ih (hclosed id c hself (mem_of_mem_foreachActiveSlot hc)) d hd
    · rwa [List.mem_singleton.mp hd]

theorem keywordStubDestroy_spec (h : tab.Formed) {n : ℕ} (hid : ¬Live tab gone id)
    (hlt : id < tab.stubs.length) :
    ∀ d ∈ keywordStubDestroy tab n id, d < tab.stubs.length ∧ ¬Live tab gone d := by
  refine keywordStubDestroy_closed ⟨hlt, hid⟩ fun parent c hparent hc => ?_
  obtain ⟨keyword, hchild⟩ := h.child _ _ hc
  exact ⟨hchild.lt, fun hlive => hparent.2 (hlive.parent hchild)⟩

/-- `stubs.length` levels are enough. -/
theorem keywordStubDestroy_succ (h : tab.Formed) {n : ℕ} (hpos : 0 < n)
    (hn : tab.stubs.length ≤ id + n) :
    keywordStubDestroy tab (n + 1) id = keywordStubDestroy tab n id := by
  induction n generalizing id with
  | zero => cases hpos
  | succ n ih =>
    have hchildren : ∀ c ∈ foreachActiveSlot (tab.level (some id)),
        keywordStubDestroy tab (n + 1) c = keywordStubDestroy tab n c := by
      intro c hc
      obtain ⟨keyword, hchild⟩ := h.child _ _ (mem_of_mem_foreachActiveSlot hc)
      have hlt := h.older _ _ _ hchild
      have hbound := hchild.lt
      exact ih (by omega) (by omega)
    show List.flatMap _ _ ++ [id] = List.flatMap _ _ ++ [id]
    rw [List.flatMap_congr hchildren]

section Uninstall

variable {vs : List ℕ} {rest : Slots ℕ} {L : Option ℕ}

theorem level_keywordUninstall (hinst : reg.tab.Installed L keyword keystub) (level : Option ℕ) :
    (keywordUninstall keystub reg).tab.level level =
      if level = L then unsetLoop keystub (reg.tab.level level).length 0 (reg.tab.level level)
      else reg.tab.level level := by
  rw [keywordUninstall_tab hinst]
  exact level_modifyLevel (.inl rfl)

/-- The vector of the stub, after the stub with no empty slot in front of it is gone. -/
theorem level_keywordUninstall_self (h : reg.tab.Formed)
    (hinst : reg.tab.Installed L keyword keystub)
    (hslots : reg.tab.level L = vs.map some ++ some keystub :: rest) :
    foreachActiveSlot ((keywordUninstall keystub reg).tab.level L) = vs ∧
    ((keywordUninstall keystub reg).tab.level L).reduceOption =
      (reg.tab.level L).reduceOption.erase keystub := by
  have hreduce : (reg.tab.level L).reduceOption = vs ++ keystub :: rest.reduceOption := by
    simp [hslots, List.reduceOption]
  have hnodup := h.nodup L
  rw [hreduce] at hnodup
  have hvs : keystub ∉ vs := fun hmem =>
    (List.nodup_append.mp hnodup).2.2 keystub hmem keystub List.mem_cons_self rfl
  have hrest : keystub ∉ rest.reduceOption :=
    (List.nodup_cons.mp (List.nodup_append.mp hnodup).2.1).1
  rw [level_keywordUninstall hinst, if_pos rfl, hreduce, List.erase_append_right _ hvs,
    List.erase_cons_head, hslots, unsetLoop_eq vs hvs (mt List.reduceOption_mem_iff.mpr hrest)]
  exact vectorUnset_spec vs keystub rest

/-- Every vector, after a removable stub is gone. -/
theorem reduceOption_keywordUninstall (h : reg.tab.Formed)
    (hinst : reg.tab.Installed L keyword keystub)
    (hslots : reg.tab.level L = vs.map some ++ some keystub :: rest) (level : Option ℕ) :
    ((keywordUninstall keystub reg).tab.level level).reduceOption =
      (reg.tab.level level).reduceOption.erase keystub := by
  by_cases hlevel : level = L
  · subst hlevel
    exact (level_keywordUninstall_self h hinst hslots).2
  · rw [level_keywordUninstall hinst, if_neg hlevel, List.erase_of_not_mem]
    intro hmem
    obtain ⟨keyword', hinst'⟩ := h.child level _ (List.reduceOption_mem_iff.mp hmem)
    exact hlevel (hinst'.inj hinst).1

theorem installed_keywordUninstall (hinst : reg.tab.Installed L keyword keystub)
    {keyword' : Word} : (keywordUninstall keystub reg).tab.Installed level keyword' id ↔
      reg.tab.Installed level keyword' id := by
  rw [keywordUninstall_tab hinst]
  exact installed_modifyLevel _ _

theorem length_keywordUninstall (hinst : reg.tab.Installed L keyword keystub) :
    (keywordUninstall keystub reg).tab.stubs.length = reg.tab.stubs.length := by
  rw [keywordUninstall_tab hinst]
  cases L <;> simp [KeywordTable.modifyLevel]

theorem keywordUninstall_homed (h : reg.tab.Homed) (hinst : reg.tab.Installed L keyword keystub) :
    (keywordUninstall keystub reg).tab.Homed := by
  intro level id hid
  rw [level_keywordUninstall hinst] at hid
  have hold : some id ∈ reg.tab.level level := by
    split at hid
    · exact mem_of_mem_unsetLoop hid
    · exact hid
  obtain ⟨keyword', hid⟩ := h level id hold
  exact ⟨keyword', (installed_keywordUninstall hinst).mpr hid⟩

theorem keywordUninstall_formed (h : reg.tab.Formed)
    (hinst : reg.tab.Installed L keyword keystub)
    (hslots : reg.tab.level L = vs.map some ++ some keystub :: rest) :
    (keywordUninstall keystub reg).tab.Formed := by
  constructor
  · exact keywordUninstall_homed h.child hinst
  · intro parent keyword' id hid
    exact h.older parent keyword' id ((installed_keywordUninstall hinst).mp hid)
  · intro level
    rw [reduceOption_keywordUninstall h hinst hslots]
    exact (h.nodup level).erase keystub

theorem live_keywordUninstall (hinst : reg.tab.Installed L keyword keystub)
    (hid : Live (keywordUninstall keystub reg).tab (keystub :: gone) id) :
    Live reg.tab gone id :=
  hid.mono (installed_keywordUninstall hinst).mp fun _ hlive hmem =>
    hlive.notMem (List.mem_cons_of_mem _ hmem)

theorem liveLevel_keywordUninstall (hinst : reg.tab.Installed L keyword keystub)
    (hl : LiveLevel (keywordUninstall keystub reg).tab (keystub :: gone) level) :
    LiveLevel reg.tab gone level := by
  refine ⟨fun p hp => live_keywordUninstall hinst (hl.live p hp), ?_⟩
  have hvec := hl.hasVector
  rw [keywordUninstall_tab hinst] at hvec
  exact (hasVector_modifyLevel _ _).mp hvec

end Uninstall

theorem keywordUninstall_sound (h : reg.Sound gone) (hlive : Live reg.tab gone keystub)
    (hrem : Removable reg.tab keystub) :
    (keywordUninstall keystub reg).Sound (keystub :: gone) := by
  obtain ⟨L, keyword, vs, rest, hinst, hslots, hcover⟩ := hrem
  have hformed := keywordUninstall_formed h.formed hinst hslots
  have hmem : ∀ level id, some id ∈ (keywordUninstall keystub reg).tab.level level ↔
      id ≠ keystub ∧ some id ∈ reg.tab.level level := by
    intro level id
    rw [← List.reduceOption_mem_iff, reduceOption_keywordUninstall h.formed hinst hslots,
      (h.formed.nodup level).mem_erase_iff, List.reduceOption_mem_iff]
  constructor
  · exact hformed
  · intro id hid
    rw [length_keywordUninstall hinst]
    rcases List.mem_cons.mp hid with rfl | hid
    · exact hinst.lt
    · exact h.bounded id hid
  · intro level keyword' id hl hid
    rw [hmem, h.held level keyword' id (liveLevel_keywordUninstall hinst hl)
      ((installed_keywordUninstall hinst).mp hid), List.mem_cons, not_or]
  · intro level keyword' id hl hid hnot
    rw [List.mem_cons, not_or] at hnot
    have hid' := (installed_keywordUninstall hinst).mp hid
    have hl' := liveLevel_keywordUninstall hinst hl
    by_cases hlevel : level = L
    · subst hlevel
      rw [(level_keywordUninstall_self h.formed hinst hslots).1]
      have hheld := (h.held level keyword' id hl' hid').mpr hnot.2
      rw [hslots, List.mem_append, List.mem_cons] at hheld
      rcases hheld with hvs | hself | hrest
      · exact ⟨id, by simpa using hvs, hid⟩
      · exact absurd (Option.some.inj hself) hnot.1
      · obtain ⟨id', hvs, hkeyword⟩ := hcover id keyword' hrest hid'
        exact ⟨id', hvs, (installed_keywordUninstall hinst).mpr hkeyword⟩
    · obtain ⟨id', hfound, hkeyword⟩ := h.found level keyword' id hl' hid' hnot.2
      refine ⟨id', ?_, (installed_keywordUninstall hinst).mpr hkeyword⟩
      rw [level_keywordUninstall hinst, if_neg hlevel]
      exact hfound
  · intro id hid
    rw [keywordUninstall_freed hinst] at hid
    rcases List.mem_append.mp hid with hid | hid
    · obtain ⟨hlt, hdead⟩ := h.freed id hid
      rw [length_keywordUninstall hinst]
      exact ⟨hlt, mt (live_keywordUninstall hinst) hdead⟩
    · refine keywordStubDestroy_spec hformed (fun hself => ?_) ?_ id hid
      · exact hself.notMem List.mem_cons_self
      · rw [length_keywordUninstall hinst]
        exact hinst.lt

theorem RegistryRun.homed {P : KeywordTable σ η D → ℕ → Prop} (h : RegistryRun P reg gone) :
    reg.tab.Homed := by
  induction h with
  | init => exact lreKeywordInit_formed.child
  | install type keyword data _ hparent ih =>
    exact keywordInstall_homed ih type data hparent.hasVector
  | uninstall _ hlive _ ih =>
    obtain ⟨_, _, hinst⟩ := hlive.installed
    exact keywordUninstall_homed ih hinst

/-! ## Lookups -/

theorem RegistryRun.sound (h : RegistryRun Removable reg gone) : reg.Sound gone := by
  induction h with
  | init => exact lreKeywordInit_sound
  | install type keyword data _ hparent ih =>
    exact keywordInstall_sound ih type keyword data hparent
  | uninstall _ hlive hrem ih => exact keywordUninstall_sound ih hlive hrem

/-- A lookup finds a stub of the keyword exactly when one is live, and what it finds is live and
has not been freed. -/
def Registry.Lookup (reg : Registry σ η D) (gone : List ℕ) : Prop :=
  ∀ level keyword, LiveLevel reg.tab gone level →
    ((findStubByKeyword reg.tab (reg.tab.level level) keyword).isSome ↔
      ∃ id, reg.tab.Installed level keyword id ∧ Live reg.tab gone id) ∧
    ∀ id, findKeystub reg.tab (reg.tab.level level) keyword = some id →
      reg.tab.Installed level keyword id ∧ Live reg.tab gone id ∧ id ∉ reg.freed

theorem findKeystub_eq_some {kwvec : Slots ℕ} (h : findKeystub tab kwvec keyword = some id) :
    id ∈ foreachActiveSlot kwvec ∧
      ∃ keystub, tab.stubs[id]? = some keystub ∧ keystub.keyword = keyword := by
  refine ⟨List.mem_of_find?_eq_some h, ?_⟩
  have hsome := List.find?_some h
  obtain ⟨keystub, hfilter⟩ := Option.isSome_iff_exists.mp hsome
  obtain ⟨hid, hkeyword⟩ := Option.filter_eq_some_iff.mp hfilter
  exact ⟨keystub, hid, of_decide_eq_true hkeyword⟩

theorem isSome_findStubByKeyword {kwvec : Slots ℕ} :
    (findStubByKeyword tab kwvec keyword).isSome ↔
      ∃ id ∈ foreachActiveSlot kwvec,
        ∃ keystub, tab.stubs[id]? = some keystub ∧ keystub.keyword = keyword := by
  unfold findStubByKeyword
  rw [List.findSome?_isSome_iff]
  refine exists_congr fun id => and_congr_right fun _ => ?_
  rw [Option.isSome_iff_exists]
  refine exists_congr fun keystub => ?_
  rw [Option.filter_eq_some_iff]
  exact and_congr_right fun _ => decide_eq_true_iff

theorem Registry.Sound.finds (h : reg.Sound gone) : reg.Lookup gone := by
  intro level keyword hl
  -- a slot in front of the first empty one holds a live stub
  have hslot : ∀ id keystub, id ∈ foreachActiveSlot (reg.tab.level level) →
      reg.tab.stubs[id]? = some keystub → keystub.keyword = keyword →
      reg.tab.Installed level keyword id ∧ Live reg.tab gone id := by
    intro id keystub hid hstub hkeyword
    have hmem := mem_of_mem_foreachActiveSlot hid
    obtain ⟨keyword', hinst⟩ := h.formed.child level id hmem
    have hkey : keyword' = keyword := by
      obtain ⟨stub, hget, -, hkw⟩ := hinst
      rw [hstub] at hget
      cases hget
      exact hkw.symm.trans hkeyword
    subst hkey
    exact ⟨hinst, (hl.live_iff hinst).mpr ((h.held level _ id hl hinst).mp hmem)⟩
  constructor
  · rw [isSome_findStubByKeyword]
    constructor
    · rintro ⟨id, hid, keystub, hstub, hkeyword⟩
      exact ⟨id, hslot id keystub hid hstub hkeyword⟩
    · rintro ⟨id, hinst, hlive⟩
      obtain ⟨id', hid', keystub, hstub, -, hkeyword⟩ :=
        h.found level keyword id hl hinst hlive.notMem
      exact ⟨id', hid', keystub, hstub, hkeyword⟩
  · intro id hfind
    obtain ⟨hid, keystub, hstub, hkeyword⟩ := findKeystub_eq_some hfind
    obtain ⟨hinst, hlive⟩ := hslot id keystub hid hstub hkeyword
    exact ⟨hinst, hlive, fun hfreed => (h.freed id hfreed).2 hlive⟩

/-- **While every stub that is uninstalled is removable, lookups find exactly what is live.** -/
theorem RegistryRun.lookup {reg : Registry σ η D} {gone : List ℕ}
    (h : RegistryRun Removable reg gone) : reg.Lookup gone := h.sound.finds

/-! ## Registration -/

section Register

variable {P : KeywordTable σ η D → ℕ → Prop} {α : Type} {parent : Option ℕ}

/-- The table of a run in which nothing has been uninstalled. -/
def KeywordTable.Grown (P : KeywordTable σ η D → ℕ → Prop) (tab : KeywordTable σ η D) : Prop :=
  RegistryRun P ⟨tab, []⟩ []

theorem liveLevel_install (type : KeystubType) (data : StubData σ η D)
    (h : LiveLevel tab [] level) :
    LiveLevel (keywordInstall type keyword data parent tab).1 [] level := by
  constructor
  · intro p hp
    exact (h.live p hp).mono (fun hid => (installed_keywordInstall ..).mpr (.inl hid))
      fun _ _ => List.not_mem_nil
  · exact h.hasVector.install type data parent

theorem liveLevel_new {type : KeystubType} (htype : type = .func ∨ type = .call)
    (data : StubData σ η D) (hparent : LiveLevel tab [] parent) :
    LiveLevel (keywordInstall type keyword data parent tab).1 [] (some tab.stubs.length) := by
  have hinst : (keywordInstall type keyword data parent tab).1.Installed parent keyword
      tab.stubs.length := (installed_keywordInstall ..).mpr (.inr ⟨rfl, rfl, rfl⟩)
  constructor
  · rintro _ ⟨⟩
    cases parent with
    | none => exact .root hinst List.not_mem_nil
    | some p =>
      exact .sub hinst List.not_mem_nil ((liveLevel_install type data hparent).live p rfl)
  · rw [keywordInstall_fst, hasVector_modifyLevel]
    refine ⟨keywordStubCreate type keyword data parent, by simp [KeywordTable.append], ?_⟩
    rw [keywordStubCreate, if_pos htype]
    rfl

theorem installAll_run {type : KeystubType} {word : α → Word} {data : α → StubData σ η D}
    {kstub : ℕ} (descs : List α) (h : tab.Grown P) (hl : LiveLevel tab [] (some kstub)) :
    (installAll type word data kstub descs tab).Grown P ∧
      LiveLevel (installAll type word data kstub descs tab) [] (some kstub) := by
  induction descs generalizing tab with
  | nil => exact ⟨h, hl⟩
  | cons d ds ih => exact ih (.install _ _ _ h hl) (liveLevel_install _ _ hl)

theorem lrcCallRegister_run (call : LrcStubCall σ η D) (h : tab.Grown P)
    (hl : LiveLevel tab [] parent) : (lrcCallRegister parent call tab).2.Grown P := by
  rw [lrcCallRegister]
  split
  · exact h
  · have hargs := @installAll_run _ _ _ _ P _ .arg LrcStubArg.keyword .arg tab.stubs.length
      call.args (.install .call call.keyword (.call call) h hl)
      (liveLevel_new (.inr rfl) (.call call) hl)
    exact (installAll_run call.vars hargs.1 hargs.2).1

theorem lrcFuncRegister_run (func : LrcStubFunc σ η D) (h : tab.Grown P)
    (hl : LiveLevel tab [] parent) : (lrcFuncRegister parent func tab).2.Grown P := by
  have hargs := @installAll_run _ _ _ _ P _ .arg LrcStubArg.keyword .arg tab.stubs.length func.args
    (.install .func func.keyword (.func func) h hl) (liveLevel_new (.inl rfl) (.func func) hl)
  have hexprs := @installAll_run _ _ _ _ P _ .expr LrcStubExpr.keyword .expr _ func.exprs
    hargs.1 hargs.2
  have hvars := @installAll_run _ _ _ _ P _ .var LrcStubVar.keyword .var _ func.vars
    hexprs.1 hexprs.2
  exact (installAll_run func.funcs hvars.1 hvars.2).1

theorem registerAll_run {register : α → KeywordTable σ η D → ℤ × KeywordTable σ η D}
    (hr : ∀ d (tab : KeywordTable σ η D), tab.Grown P → (register d tab).2.Grown P) (ds : List α)
    (h : tab.Grown P) : (registerAll register ds tab).2.Grown P := by
  induction ds generalizing tab with
  | nil => exact h
  | cons d ds ih =>
    have hd := hr d tab h
    rw [registerAll]
    split <;> rename_i heq <;> rw [heq] at hd
    · exact ih hd
    · exact hd

theorem lrcModuleRegister_run (module : LrcModule σ η D) (h : tab.Grown P) :
    (lrcModuleRegister module tab).2.Grown P := by
  have hf := registerAll_run (fun f _ h => lrcFuncRegister_run f h liveLevel_root) module.funcs h
  rw [lrcModuleRegister]
  split <;> rename_i heq <;> rw [heq] at hf
  · exact registerAll_run (fun c _ h => lrcCallRegister_run c h liveLevel_root) _ hf
  · exact hf

/-- **Every table that registration makes is that of a run.** -/
theorem registerModules_run (modules : List (LrcModule σ η D)) :
    (registerModules modules).Grown P := by
  suffices ∀ tab : KeywordTable σ η D, tab.Grown P →
      KeywordTable.Grown P
        (modules.foldl (fun tab module => (lrcModuleRegister module tab).2) tab) from
    this _ .init
  induction modules with
  | nil => exact fun _ h => h
  | cons m ms ih => exact fun tab h => ih _ (lrcModuleRegister_run m h)

end Register

/-- The stub in the last slot of a vector without empty slots is removable. -/
theorem removable_last {vs : List ℕ} (hinst : tab.Installed level keyword keystub)
    (hslots : tab.level level = (vs ++ [keystub]).map some) : Removable tab keystub :=
  ⟨level, keyword, vs, [], hinst, by simpa using hslots, nofun⟩

/-- A function without members. -/
def bareFunc (keyword : Word) : LrcStubFunc Unit Unit Unit :=
  ⟨keyword, fun _ => (some (), ()), none, none, [], [], [], []⟩

/-- The functions `a` and `b`. -/
def twoFuncs : Registry Unit Unit Unit :=
  ⟨(keywordInstall .func ['b'] (.func (bareFunc ['b'])) none
    (keywordInstall .func ['a'] (.func (bareFunc ['a'])) none lreKeywordInit).1).1, []⟩

theorem twoFuncs_run {P : KeywordTable Unit Unit Unit → ℕ → Prop} : RegistryRun P twoFuncs [] :=
  .install _ _ _ (.install _ _ _ .init liveLevel_root) liveLevel_root

theorem twoFuncs_a : twoFuncs.tab.Installed none ['a'] 0 := ⟨_, rfl, rfl, rfl⟩

theorem twoFuncs_b : twoFuncs.tab.Installed none ['b'] 1 := ⟨_, rfl, rfl, rfl⟩

/-- When `b` goes, `a` is still found, and `b` is not. -/
theorem keywordUninstall_last : (keywordUninstall 1 twoFuncs).Lookup [1] ∧
    findKeystub (keywordUninstall 1 twoFuncs).tab
      ((keywordUninstall 1 twoFuncs).tab.level none) ['a'] = some 0 ∧
    findKeystub (keywordUninstall 1 twoFuncs).tab
      ((keywordUninstall 1 twoFuncs).tab.level none) ['b'] = none := by
  have hlast : Removable twoFuncs.tab 1 := @removable_last _ _ _ _ _ _ _ [0] twoFuncs_b rfl
  have hrun := twoFuncs_run.uninstall (.root twoFuncs_b nofun) hlast
  exact ⟨hrun.lookup, by decide +kernel, by decide +kernel⟩

/-- When `a` goes, `b` is not found any more. -/
theorem keywordUninstall_first :
    ¬ ∀ (reg : Registry Unit Unit Unit) (gone : List ℕ),
      RegistryRun (fun _ _ => True) reg gone → reg.Lookup gone := by
  intro hall
  have hrun : RegistryRun (fun _ _ => True) (keywordUninstall 0 twoFuncs) [0] :=
    .uninstall twoFuncs_run (.root twoFuncs_a nofun) trivial
  have hb : (keywordUninstall 0 twoFuncs).tab.Installed none ['b'] 1 := ⟨_, rfl, rfl, rfl⟩
  have hsome := (hall _ _ hrun none ['b'] liveLevel_root).1.mpr ⟨1, hb, .root hb (by decide)⟩
  have hnone : findStubByKeyword (keywordUninstall 0 twoFuncs).tab
      ((keywordUninstall 0 twoFuncs).tab.level none) ['b'] = none := rfl
  rw [hnone] at hsome
  cases hsome

end Lre
