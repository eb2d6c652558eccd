import Mathlib.Data.List.Nodup
import Mathlib.Logic.Function.Basic

/-!
# Circular lists

Doubly linked lists with a head, in a memory that holds other things as well.

* `Fields`: the words that the two pointers of a list head are stored in, and what a pointer looks
  like.
* `Fields.init`, `Fields.add`, `Fields.addTail`, `Fields.del`: the stores of the operations.
* `Fields.Ring`: from the head on, the pointers lead through the entries and back, both ways.
* `ring_init`, **`Ring.addTail`**, **`Ring.del`**: what the operations make of a ring.
* `Ring.congr`, `add_other`: the words that matter, and the words that are written.
-/

namespace Circular

variable {A W V : Type*}

/-! ## Paths -/

/-- From `a` through the list to `b`, each is related to the next one. -/
def Leads (R : A → A → Prop) : A → List A → A → Prop
  | a, [], b => R a b
  | a, x :: xs, b => R a x ∧ Leads R x xs b

section Leads

variable {R R' : A → A → Prop} {a b x : A} {xs ys : List A}

theorem leads_append : Leads R a (xs ++ x :: ys) b ↔ Leads R a xs x ∧ Leads R x ys b := by
  induction xs generalizing a with
  | nil => exact Iff.rfl
  | cons y xs ih => exact (and_congr_right fun _ => ih).trans and_assoc.symm

theorem Leads.imp (h : Leads R a xs b)
    (hR : ∀ p ∈ a :: xs, ∀ q ∈ xs ++ [b], R p q → R' p q) : Leads R' a xs b := by
  induction xs generalizing a with
  | nil => exact hR a (.head _) b (.head _) h
  | cons y xs ih =>
    refine ⟨hR a (.head _) y (.head _) h.1, ih h.2 fun p hp q hq => ?_⟩
    exact hR p (.tail _ hp) q (.tail _ hq)

theorem Leads.first (h : Leads R a xs b) : R a (xs.headD b) := by
  cases xs with
  | nil => exact h
  | cons x xs => exact h.1

theorem Leads.last (h : Leads R a xs b) : R (xs.getLastD a) b := by
  induction xs generalizing a with
  | nil => exact h
  | cons x xs ih =>
    rw [List.getLastD_cons]
    exact ih h.2

theorem Leads.relink {c : A} (h : Leads R a xs b) (hnodup : (a :: xs).Nodup)
    (hR : ∀ p ∈ a :: xs, p ≠ xs.getLastD a → ∀ q ∈ xs, R p q → R' p q)
    (hlast : R' (xs.getLastD a) c) : Leads R' a xs c := by
  induction xs generalizing a with
  | nil => exact hlast
  | cons y ys ih =>
    rw [List.getLastD_cons] at hR hlast
    have hne : a ≠ ys.getLastD y := fun heq =>
      (List.nodup_cons.mp hnodup).1 (heq ▸ List.getLastD_mem_cons)
    refine ⟨hR a (.head _) hne y (.head _) h.1,
      ih h.2 (List.nodup_cons.mp hnodup).2 (fun p hp hlt q hq => ?_) hlast⟩
    exact hR p (.tail _ hp) hlt q (.tail _ hq)

end Leads

/-! ## Memory -/

/-- Memory with list heads in it: where the two pointers of a list head stand, and the value that
points to one. -/
structure Fields (A W V : Type*) where
  next : A → W
  prev : A → W
  ptr : A → V
  read : V → Option A
  next_injective : Function.Injective next
  prev_injective : Function.Injective prev
  read_ptr : ∀ a, read (ptr a) = some a

namespace Fields

variable (F : Fields A W V)

/-- The pointers lead from `a` to `b` and back. -/
def Link (mem : W → V) (a b : A) : Prop := mem (F.next a) = F.ptr b ∧ mem (F.prev b) = F.ptr a

/-- No pointer of one is stored where one has its other pointer. -/
def Apart (l : List A) : Prop := ∀ a ∈ l, ∀ b ∈ l, F.next a ≠ F.prev b

/-- From the head on, the pointers lead through the entries and back to the head. -/
structure Ring (mem : W → V) (head : A) (xs : List A) : Prop where
  links : Leads (F.Link mem) head xs head
  nodup : (head :: xs).Nodup
  apart : F.Apart (head :: xs)

variable {F} {mem mem' : W → V} {head new entry : A} {xs ys : List A}

/-! ## Rings -/

theorem Apart.mono {l l' : List A} (h : F.Apart l) (hsub : l' ⊆ l) : F.Apart l' :=
  fun a ha b hb => h a (hsub ha) b (hsub hb)

theorem Ring.congr (h : F.Ring mem head xs)
    (hnext : ∀ a ∈ head :: xs, mem' (F.next a) = mem (F.next a))
    (hprev : ∀ a ∈ head :: xs, mem' (F.prev a) = mem (F.prev a)) : F.Ring mem' head xs := by
  refine ⟨h.links.imp fun p hp q hq hlink => ?_, h.nodup, h.apart⟩
  have hq : q ∈ head :: xs :=
    List.mem_cons.mpr ((List.mem_append.mp hq).symm.imp_left List.mem_singleton.mp)
  exact ⟨(hnext p hp).trans hlink.1, (hprev q hq).trans hlink.2⟩

theorem Ring.after (h : F.Ring mem head (xs ++ entry :: ys)) :
    mem (F.next entry) = F.ptr (ys.headD head) := (leads_append.mp h.links).2.first.1

variable [DecidableEq W]

/-! ## Operations -/

variable (F) in
/-- A list head of its own. -/
def init (a : A) (mem : W → V) : W → V :=
  Function.update (Function.update mem (F.next a) (F.ptr a)) (F.prev a) (F.ptr a)

variable (F) in
/-- A new entry between two. -/
def add (new prev next : A) (mem : W → V) : W → V :=
  Function.update (Function.update (Function.update (Function.update mem
    (F.prev next) (F.ptr new)) (F.next new) (F.ptr next)) (F.prev new) (F.ptr prev))
    (F.next prev) (F.ptr new)

variable (F) in
/-- A new entry in front of the head. -/
def addTail (new head : A) (mem : W → V) : Option (W → V) :=
  (F.read (mem (F.prev head))).map fun last => F.add new last head mem

variable (F) in
/-- The neighbours of an entry are linked. -/
def del (entry : A) (mem : W → V) : Option (W → V) :=
  (F.read (mem (F.prev entry))).bind fun prev => (F.read (mem (F.next entry))).map fun next =>
    Function.update (Function.update mem (F.prev next) (F.ptr prev)) (F.next prev) (F.ptr next)

theorem ring_init (hne : F.next head ≠ F.prev head) (mem : W → V) :
    F.Ring (F.init head mem) head [] := by
  refine ⟨⟨?_, Function.update_self ..⟩, List.nodup_singleton head, ?_⟩
  · rw [init, Function.update_of_ne hne, Function.update_self]
  · intro a ha b hb
    rwa [List.mem_singleton.mp ha, List.mem_singleton.mp hb]

theorem init_other {w : W} (hnext : w ≠ F.next head) (hprev : w ≠ F.prev head) :
    F.init head mem w = mem w := by
  rw [init, Function.update_of_ne hprev, Function.update_of_ne hnext]

theorem add_other {w : W} {prev next : A} (hprev : w ≠ F.next prev) (hnext : w ≠ F.prev next)
    (hnew : w ≠ F.next new) (hnew' : w ≠ F.prev new) : F.add new prev next mem w = mem w := by
  rw [add, Function.update_of_ne hprev, Function.update_of_ne hnew', Function.update_of_ne hnew,
    Function.update_of_ne hnext]

theorem add_links {prev next : A} (hprev : new ≠ prev) (hnext : new ≠ next)
    (hapart : F.Apart [new, prev, next]) :
    F.Link (F.add new prev next mem) prev new ∧ F.Link (F.add new prev next mem) new next := by
  have hnew : new ∈ [new, prev, next] := .head _
  have hp : prev ∈ [new, prev, next] := .tail _ (.head _)
  have hn : next ∈ [new, prev, next] := .tail _ (.tail _ (.head _))
  have h₁ : F.prev new ≠ F.next prev := (hapart prev hp new hnew).symm
  have h₂ : F.next new ≠ F.next prev := fun h => hprev (F.next_injective h)
  have h₃ : F.prev next ≠ F.next prev := (hapart prev hp next hn).symm
  have h₄ : F.prev next ≠ F.prev new := fun h => hnext (F.prev_injective h).symm
  have h₅ : F.prev next ≠ F.next new := (hapart new hnew next hn).symm
  refine ⟨⟨Function.update_self .., ?_⟩, ?_, ?_⟩
  · rw [add, Function.update_of_ne h₁, Function.update_self]
  · rw [add, Function.update_of_ne h₂, Function.update_of_ne (hapart new hnew new hnew),
      Function.update_self]
  · rw [add, Function.update_of_ne h₃, Function.update_of_ne h₄, Function.update_of_ne h₅,
      Function.update_self]

theorem add_keeps {prev next p q : A} {l : List A} (hapart : F.Apart l) (hnew : new ∈ l)
    (hprev : prev ∈ l) (hnext : next ∈ l) (hp : p ∈ l) (hq : q ∈ l) (hpp : p ≠ prev)
    (hpn : p ≠ new) (hqn : q ≠ next) (hqn' : q ≠ new) (h : F.Link mem p q) :
    F.Link (F.add new prev next mem) p q := by
  refine ⟨(add_other ?_ ?_ ?_ ?_).trans h.1, (add_other ?_ ?_ ?_ ?_).trans h.2⟩
  · exact fun h => hpp (F.next_injective h)
  · exact hapart p hp next hnext
  · exact fun h => hpn (F.next_injective h)
  · exact hapart p hp new hnew
  · exact (hapart prev hprev q hq).symm
  · exact fun h => hqn (F.prev_injective h)
  · exact (hapart new hnew q hq).symm
  · exact fun h => hqn' (F.prev_injective h)

/-- **The new entry becomes the last one.** -/
theorem Ring.addTail (h : F.Ring mem head xs) (hnew : new ∉ head :: xs)
    (hapart : F.Apart (new :: head :: xs)) :
    F.addTail new head mem = some (F.add new (xs.getLastD head) head mem) ∧
      F.Ring (F.add new (xs.getLastD head) head mem) head (xs ++ [new]) := by
  have hhead : head ∈ new :: head :: xs := .tail _ (.head _)
  have hlast : xs.getLastD head ∈ head :: xs := List.getLastD_mem_cons
  have hnewhead : new ≠ head := fun heq => hnew (heq ▸ List.mem_cons_self)
  have hnewlast : new ≠ xs.getLastD head := fun heq => hnew (heq ▸ hlast)
  have hsub : [new, xs.getLastD head, head] ⊆ new :: head :: xs := by
    rintro a (_ | ⟨_, _ | ⟨_, ha⟩⟩)
    · exact .head _
    · exact .tail _ hlast
    · rw [List.mem_singleton.mp ha]
      exact hhead
  obtain ⟨hto, hback⟩ : F.Link (F.add new (xs.getLastD head) head mem) (xs.getLastD head) new ∧
      F.Link (F.add new (xs.getLastD head) head mem) new head :=
    add_links hnewlast hnewhead (hapart.mono hsub)
  refine ⟨?_, leads_append.mpr ⟨h.links.relink h.nodup (fun p hp hplast q hq hlink => ?_) hto,
    hback⟩, ?_, ?_⟩
  · rw [Fields.addTail, h.links.last.2, F.read_ptr]
    rfl
  · refine add_keeps hapart (.head _) (.tail _ hlast) hhead (.tail _ hp) (.tail _ (.tail _ hq))
      hplast ?_ ?_ ?_ hlink
    · exact fun heq => hnew (heq ▸ hp)
    · exact fun heq => (List.nodup_cons.mp h.nodup).1 (heq ▸ hq)
    · exact fun heq => hnew (heq ▸ List.mem_cons_of_mem _ hq)
  · have hnodup : ((head :: xs) ++ [new]).Nodup := by
      refine List.nodup_append.mpr ⟨h.nodup, List.nodup_singleton new, ?_⟩
      rintro a ha b hb rfl
      exact hnew (List.mem_singleton.mp hb ▸ ha)
    exact hnodup
  · refine hapart.mono fun a ha => ?_
    rcases List.mem_append.mp (show a ∈ (head :: xs) ++ [new] from ha) with ha | ha
    · exact .tail _ ha
    · rw [List.mem_singleton.mp ha]
      exact .head _

/-- **The entry is taken out.** -/
theorem Ring.del (h : F.Ring mem head (xs ++ entry :: ys)) :
    ∃ mem', F.del entry mem = some mem' ∧ F.Ring mem' head (xs ++ ys) ∧
      ∀ w, w ≠ F.next (xs.getLastD head) → w ≠ F.prev (ys.headD head) → mem' w = mem w := by
  obtain ⟨hfront, hrear⟩ := leads_append.mp h.links
  have hdel : F.del entry mem = some (Function.update (Function.update mem
      (F.prev (ys.headD head)) (F.ptr (xs.getLastD head)))
      (F.next (xs.getLastD head)) (F.ptr (ys.headD head))) := by
    rw [Fields.del, hfront.last.2, F.read_ptr, Option.bind_some, h.after, F.read_ptr]
    rfl
  have hsub : head :: (xs ++ ys) ⊆ head :: (xs ++ entry :: ys) :=
    ((List.sublist_cons_self entry ys).append_left xs).cons_cons head |>.subset
  have hprev : xs.getLastD head ∈ head :: (xs ++ entry :: ys) := by
    rcases List.mem_cons.mp (List.getLastD_mem_cons (l := xs) (a := head)) with heq | hmem
    · rw [heq]
      exact .head _
    · exact .tail _ (List.mem_append_left _ hmem)
  have hnext : ys.headD head ∈ head :: (xs ++ entry :: ys) := by
    cases ys with
    | nil => exact .head _
    | cons y ys => exact .tail _ (List.mem_append_right _ (.tail _ (.head _)))
  have hnodup := h.nodup.sublist (((List.sublist_cons_self entry ys).append_left xs).cons_cons head)
  refine ⟨_, hdel, ⟨?_, hnodup, h.apart.mono hsub⟩, fun w hnext hprev => ?_⟩
  · obtain ⟨hheadxs, hxs, hys, hdisj⟩ : head ∉ xs ++ ys ∧ xs.Nodup ∧ ys.Nodup ∧ xs.Disjoint ys := by
      have hnodup := List.nodup_cons.mp hnodup
      exact ⟨hnodup.1, List.nodup_append'.mp hnodup.2⟩
    generalize hmem' : Function.update (Function.update mem _ _) _ _ = mem'
    have hto : F.Link mem' (xs.getLastD head) (ys.headD head) := by
      rw [← hmem']
      refine ⟨Function.update_self .., ?_⟩
      rw [Function.update_of_ne (h.apart _ hprev _ hnext).symm, Function.update_self]
    have hkeep : ∀ p ∈ head :: (xs ++ ys), ∀ q ∈ head :: (xs ++ ys), p ≠ xs.getLastD head →
        q ≠ ys.headD head → F.Link mem p q → F.Link mem' p q := by
      intro p hp q hq hplast hqfirst hlink
      rw [← hmem']
      refine ⟨?_, ?_⟩
      · rw [Function.update_of_ne fun h => hplast (F.next_injective h),
          Function.update_of_ne (h.apart p (hsub hp) _ hnext), hlink.1]
      · rw [Function.update_of_ne (h.apart _ hprev q (hsub hq)).symm,
          Function.update_of_ne fun h => hqfirst (F.prev_injective h), hlink.2]
    have hfirst : ∀ q ∈ xs, q ≠ ys.headD head := by
      rintro q hq rfl
      cases ys with
      | nil => exact hheadxs (List.mem_append_left _ hq)
      | cons y ws => exact hdisj hq (.head _)
    have hleads := hfront.relink (List.nodup_cons.mpr
      ⟨fun hmem => hheadxs (List.mem_append_left _ hmem), hxs⟩)
      (fun p hp hplast q hq => hkeep p (List.mem_append_left ys hp) q
        (.tail _ (List.mem_append_left ys hq)) hplast (hfirst q hq)) hto
    cases ys with
    | nil =>
      rw [List.append_nil]
      exact hleads
    | cons y ws =>
      refine leads_append.mpr ⟨hleads, hrear.2.imp fun p hp q hq => hkeep p ?_ q ?_ ?_ ?_⟩
      · exact .tail _ (List.mem_append_right _ hp)
      · rcases List.mem_append.mp hq with hq | hq
        · exact .tail _ (List.mem_append_right _ (.tail _ hq))
        · rw [List.mem_singleton.mp hq]
          exact .head _
      · rintro rfl
        rcases List.mem_cons.mp (List.getLastD_mem_cons (l := xs) (a := head)) with heq | hmem
        · exact hheadxs (List.mem_append_right _ (heq ▸ hp))
        · exact hdisj hmem hp
      · rintro rfl
        rcases List.mem_append.mp hq with hq | hq
        · exact (List.nodup_cons.mp hys).1 hq
        · exact hheadxs (List.mem_append_right _ (List.mem_singleton.mp hq ▸ .head _))
  · rw [Function.update_of_ne hnext, Function.update_of_ne hprev]

end Fields

end Circular
