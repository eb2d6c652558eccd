import Mathlib.Data.List.Basic
import Lre.Symbol

/-!
# Global memory over init and release

The globals of `conf.c`, `lrc_process.c`, `lrc_network.c`, `keyword.c` and `macro.c` that point to
allocated memory, through cycles of `lre_init` or `lre_initX`, executions and `lre_release`. `none`
is an access to memory that has been freed.

* `Session.run`: a cycle, on the globals that the cycles before it left.
* `Session.run_isSome_iff`, `Session.fits_released`: what a cycle needs of the globals it finds, and
  what it leaves for later ones.
* **`runSessions_isSome_iff`**: no cycle uses freed memory exactly when only the last one sets a
  path or loads processes, and network tables are opened again wherever they were opened before.
-/

namespace Lre

/-! ## Pointers -/

/-- What a global points to; with `freed`, the pointer has not been reset. -/
inductive Pointer
  | null
  | held
  | freed
  deriving DecidableEq

/-- A loop over what the pointer points to. -/
def Pointer.read : Pointer → Option Unit
  | .freed => none
  | _ => some ()

/-- `free`; the pointer is not reset. -/
def Pointer.free : Pointer → Option Pointer
  | .null => some .null
  | .held => some .freed
  | .freed => none

/-- The globals; `tcpStatcnt` entries of `tcp_stats` are filled. -/
structure Globals where
  confPath : Pointer
  processlist : Pointer
  tcpStats : Pointer
  tcpStatcnt : ℕ
  udpStats : Pointer
  netInitialized : Bool
  rootKstubVec : Pointer
  macroHlists : Pointer

/-- Before the first call. -/
def staticGlobals : Globals := ⟨.null, .null, .null, 0, .null, false, .null, .null⟩

/-! ## Initialization -/

/-- `lre_set_conf_path`. -/
def lreSetConfPath (path : Option Word) (g : Globals) : Option Globals :=
  match path with
  | none => some g
  | some _ => do
    let _ ← g.confPath.free
    return { g with confPath := .held }

/-- `lre_keyword_init`. -/
def initKeywords (g : Globals) : Globals := { g with rootKstubVec := .held }

/-- `lre_macro_init`: the macro files are read from `lre_get_conf_path`. -/
def lreMacroInit (g : Globals) : Option Globals := do
  g.confPath.read
  return { g with macroHlists := .held }

/-- `lrc_builtin_init`: the modules are installed in the root vector. -/
def lrcBuiltinInit (g : Globals) : Option Globals := do
  g.rootKstubVec.read
  return g

/-- `lre_init`. -/
def lreInit (g : Globals) : Option Globals := do
  let g ← lreMacroInit (initKeywords g)
  lrcBuiltinInit g

/-- `lre_initX`. -/
def lreInitX (path : Option Word) (g : Globals) : Option Globals := do
  let g ← lreSetConfPath path g
  lreInit g

/-! ## Executions -/

/-- An execution of `process`, `processdir` or `cmdline_extract`: whether a name or a path is given,
and how many processes there are when they are to be loaded. -/
structure ProcessUse where
  named : Bool
  found : ℕ

/-- `processes_info_load`, with an empty list. -/
def processesInfoLoad (found : ℕ) (g : Globals) : Globals :=
  if found = 0 then g else { g with processlist := .held }

/-- `process_execute`, `processdir_execute` and `cmdline_extract_execute`; the expressions of
`process` read what was found there. -/
def processExecute (u : ProcessUse) (g : Globals) : Option Globals := do
  let g := if g.processlist = .null then processesInfoLoad u.found g else g
  if u.named then g.processlist.read
  return g

/-- An execution of `network`: the lines of `/proc/net/tcp` and `/proc/net/udp` when these are to
be loaded, `none` where `fopen` fails, and whether a `listen` has a protocol and a port. -/
structure NetworkUse where
  tcp : Option ℕ
  udp : Option ℕ
  listens : Bool

/-- `tcp_state_load`. -/
def tcpStateLoad (tcp : Option ℕ) (g : Globals) : Globals :=
  match tcp with
  | none => g
  | some cnt => { g with tcpStats := .held, tcpStatcnt := cnt }

/-- `udp_state_load`. -/
def udpStateLoad (udp : Option ℕ) (g : Globals) : Globals :=
  match udp with
  | none => g
  | some _ => { g with udpStats := .held }

/-- `network_info_load`, whatever the two loads return. -/
def networkInfoLoad (u : NetworkUse) (g : Globals) : Globals :=
  { udpStateLoad u.udp (tcpStateLoad u.tcp g) with netInitialized := true }

/-- `network_execute`. -/
def networkExecute (u : NetworkUse) (g : Globals) : Globals :=
  if g.netInitialized then g else networkInfoLoad u g

/-- The loop of `expr_listen_handler`, which reads `tcp_stats` for either protocol. -/
def exprListenHandler (g : Globals) : Option Unit :=
  if g.tcpStatcnt = 0 then some () else g.tcpStats.read

/-- A function or call of a builtin component that uses a global. -/
inductive Use
  | process (u : ProcessUse)
  | network (u : NetworkUse)

/-- What it does to the globals. -/
def Use.run (g : Globals) : Use → Option Globals
  | .process u => processExecute u g
  | .network u => do
    let g := networkExecute u g
    if u.listens then exprListenHandler g
    return g

/-- `lre_execute`: macros and keywords are looked up, then components run. -/
def lreExecute (g : Globals) (uses : List Use) : Option Globals := do
  g.macroHlists.read
  g.rootKstubVec.read
  uses.foldlM Use.run g

/-! ## Release -/

/-- `processes_info_release`. -/
def processesInfoRelease (g : Globals) : Option Globals := do
  let processlist ← g.processlist.free
  return { g with processlist }

/-- `lrc_process_release`, up to the unregistration. -/
def lrcProcessRelease (g : Globals) : Option Globals :=
  if g.processlist = .null then some g else processesInfoRelease g

/-- `network_info_release`. -/
def networkInfoRelease (g : Globals) : Option Globals := do
  let tcpStats ← g.tcpStats.free
  let udpStats ← g.udpStats.free
  return { g with netInitialized := false, tcpStats, udpStats }

/-- `lrc_network_release`, up to the unregistration. -/
def lrcNetworkRelease (g : Globals) : Option Globals :=
  if g.netInitialized then networkInfoRelease g else some g

/-- `lrc_builtin_release`: the modules are looked up in the root vector. -/
def lrcBuiltinRelease (g : Globals) : Option Globals := do
  g.rootKstubVec.read
  let g ← lrcProcessRelease g
  lrcNetworkRelease g

/-- `lre_macro_release`: the macros are freed, and the array that holds their lists is kept. -/
def lreMacroRelease (g : Globals) : Option Globals := do
  g.macroHlists.read
  return g

/-- `lre_keyword_release`. -/
def lreKeywordRelease (g : Globals) : Option Globals := do
  let rootKstubVec ← g.rootKstubVec.free
  return { g with rootKstubVec }

/-- `lre_conf_release`. -/
def lreConfRelease (g : Globals) : Option Globals :=
  if g.confPath = .null then some g
  else do
    let confPath ← g.confPath.free
    return { g with confPath }

/-- `lre_release`. -/
def lreRelease (g : Globals) : Option Globals := do
  let g ← lrcBuiltinRelease g
  let g ← lreMacroRelease g
  let g ← lreKeywordRelease g
  lreConfRelease g

/-! ## Cycles -/

/-- A cycle: it starts with `lre_init`, or with `lre_initX` on a path that may be `NULL`. -/
structure Session where
  confpath : Option (Option Word)
  executions : List (List Use)

/-- The first call of a cycle. -/
def Session.init (c : Session) (g : Globals) : Option Globals :=
  match c.confpath with
  | none => lreInit g
  | some path => lreInitX path g

/-- A cycle. -/
def Session.run (g : Globals) (c : Session) : Option Globals := do
  let g ← c.init g
  let g ← c.executions.foldlM lreExecute g
  lreRelease g

/-- Cycles one after another. -/
def runSessions (cs : List Session) : Option Globals := cs.foldlM Session.run staticGlobals

/-! ## What a cycle does -/

/-- The cycle sets a path. -/
def Session.setsPath (c : Session) : Bool := c.confpath.join.isSome

/-- The uses of a cycle. -/
def Session.uses (c : Session) : List Use := c.executions.flatten

/-- Processes are found. -/
def Use.loads : Use → Bool
  | .process u => u.found != 0
  | .network _ => false

/-- The network tables are loaded. -/
def Use.network? : Use → Option NetworkUse
  | .process _ => none
  | .network u => some u

/-- The cycle loads processes. -/
def Session.loadsProcesses (c : Session) : Bool := c.uses.any Use.loads

/-- The use of `network` that loads the tables. -/
def Session.network? (c : Session) : Option NetworkUse := c.uses.findSome? Use.network?

/-- The later cycle can run on what the earlier one left. -/
def Session.Compatible (c c' : Session) : Prop :=
  c.setsPath = false ∧ c.loadsProcesses = false ∧
    ∀ u ∈ c.network?, ∀ u' ∈ c'.network?,
      (u.tcp.isSome → u'.tcp.isSome) ∧ (u.udp.isSome → u'.udp.isSome)

/-! ## The parts of a cycle -/

/-- The pointer after `free`. -/
def Pointer.drop : Pointer → Pointer
  | .null => .null
  | _ => .freed

theorem Pointer.read_of_ne {p : Pointer} (h : p ≠ .freed) : p.read = some () := by
  cases p with
  | null => rfl
  | held => rfl
  | freed => exact absurd rfl h

variable {g g' : Globals} {c : Session}

/-- The globals after the first call of a cycle. -/
def Session.inited (c : Session) (g : Globals) : Globals :=
  { g with
    confPath := if c.setsPath then .held else g.confPath
    rootKstubVec := .held
    macroHlists := .held }

theorem Session.init_eq (c : Session) (g : Globals) :
    c.init g = if g.confPath = .freed then none else some (c.inited g) := by
  obtain ⟨confPath, processlist, tcp, cnt, udp, net, root, macros⟩ := g
  obtain ⟨confpath, executions⟩ := c
  rcases confpath with _ | _ | path
  · cases confPath <;> rfl
  · cases confPath <;> rfl
  · cases confPath <;> rfl

/-- The globals after a use. -/
def Use.after (g : Globals) : Use → Globals
  | .process u =>
    { g with processlist := if g.processlist = .null ∧ u.found ≠ 0 then .held else g.processlist }
  | .network u => networkExecute u g

variable {u : Use} {us : List Use}

/-- What no use changes. -/
structure Globals.SameInit (g g' : Globals) : Prop where
  confPath : g'.confPath = g.confPath
  rootKstubVec : g'.rootKstubVec = g.rootKstubVec
  macroHlists : g'.macroHlists = g.macroHlists

theorem networkInfoLoad_eq (u : NetworkUse) (g : Globals) :
    networkInfoLoad u g =
      { g with
        tcpStats := if u.tcp.isSome then .held else g.tcpStats
        tcpStatcnt := u.tcp.getD g.tcpStatcnt
        udpStats := if u.udp.isSome then .held else g.udpStats
        netInitialized := true } := by
  obtain ⟨tcp, udp, listens⟩ := u
  cases tcp <;> cases udp <;> rfl

theorem Use.after_sameInit (u : Use) (g : Globals) : g.SameInit (u.after g) := by
  cases u with
  | process u => exact ⟨rfl, rfl, rfl⟩
  | network u =>
    rw [after, networkExecute]
    split
    · exact ⟨rfl, rfl, rfl⟩
    · rw [networkInfoLoad_eq]
      exact ⟨rfl, rfl, rfl⟩

theorem Use.after_process (u : ProcessUse) (g : Globals) :
    (if g.processlist = .null then processesInfoLoad u.found g else g) =
      Use.after g (.process u) := by
  show _ = ({ g with
    processlist := if g.processlist = .null ∧ u.found ≠ 0 then .held else g.processlist } : Globals)
  unfold processesInfoLoad
  by_cases hnull : g.processlist = .null
  · by_cases hfound : u.found = 0
    · have hno : ¬(g.processlist = .null ∧ u.found ≠ 0) := fun h => h.2 hfound
      rw [if_pos hnull, if_pos hfound, if_neg hno]
    · rw [if_pos hnull, if_neg hfound, if_pos ⟨hnull, hfound⟩]
  · have hno : ¬(g.processlist = .null ∧ u.found ≠ 0) := fun h => hnull h.1
    rw [if_neg hnull, if_neg hno]

theorem eq_of_guarded {c : Prop} [Decidable c] {read : Option Unit}
    (h : (if c then read.bind fun _ => some g else some g) = some g') : g' = g := by
  split_ifs at h
  · obtain ⟨-, -, h⟩ := Option.bind_eq_some_iff.mp h
    exact (Option.some.inj h).symm
  · exact (Option.some.inj h).symm

theorem Use.after_eq_of_run (h : u.run g = some g') : g' = u.after g := by
  cases u with
  | process u =>
    rw [run, processExecute, after_process] at h
    exact eq_of_guarded h
  | network u => exact eq_of_guarded h

/-- A use reads no freed memory when neither the list nor the table of `tcp_stats` is freed. -/
theorem Use.run_of_ne (hp : (u.after g).processlist ≠ .freed)
    (ht : ∀ v, u = .network v → (u.after g).tcpStats ≠ .freed) : (u.run g).isSome := by
  cases u with
  | process u =>
    rw [run, processExecute, after_process]
    dsimp only
    rw [Pointer.read_of_ne hp]
    split <;> rfl
  | network u =>
    have hread : exprListenHandler (networkExecute u g) = some () := by
      unfold exprListenHandler
      split
      · rfl
      · exact Pointer.read_of_ne (ht u rfl)
    rw [run]
    dsimp only
    rw [hread]
    split <;> rfl

/-- **The globals after uses.** -/
theorem uses_eq_of_run (h : us.foldlM Use.run g = some g') : g' = us.foldl Use.after g := by
  induction us generalizing g with
  | nil => exact (Option.some.inj h).symm
  | cons u us ih =>
    rw [List.foldlM_cons] at h
    obtain ⟨g₁, hu, hus⟩ := Option.bind_eq_some_iff.mp h
    rw [List.foldl_cons, ← Use.after_eq_of_run hu]
    exact ih hus

theorem uses_sameInit (us : List Use) (g : Globals) : g.SameInit (us.foldl Use.after g) := by
  induction us generalizing g with
  | nil => exact ⟨rfl, rfl, rfl⟩
  | cons u us ih =>
    obtain ⟨hc, hr, hm⟩ := u.after_sameInit g
    obtain ⟨hc', hr', hm'⟩ := ih (u.after g)
    exact ⟨hc'.trans hc, hr'.trans hr, hm'.trans hm⟩

theorem uses_processlist (us : List Use) (g : Globals) :
    (us.foldl Use.after g).processlist =
      if g.processlist = .null ∧ us.any Use.loads then .held else g.processlist := by
  induction us generalizing g with
  | nil => simp
  | cons u us ih =>
    rw [List.foldl_cons, ih, List.any_cons]
    cases u with
    | process u =>
      by_cases hnull : g.processlist = .null
      · by_cases hfound : u.found = 0 <;> simp [Use.after, Use.loads, hnull, hfound]
      · simp [Use.after, hnull]
    | network u =>
      have hsame : (networkExecute u g).processlist = g.processlist := by
        rw [networkExecute, networkInfoLoad_eq]
        split <;> rfl
      simp [Use.after, Use.loads, hsame]

/-- The network tables, and whether they count as loaded. -/
structure Globals.SameNetwork (g g' : Globals) : Prop where
  tcpStats : g'.tcpStats = g.tcpStats
  udpStats : g'.udpStats = g.udpStats
  netInitialized : g'.netInitialized = g.netInitialized

theorem Globals.SameNetwork.trans {g₁ : Globals} (h : g.SameNetwork g₁) (h' : g₁.SameNetwork g') :
    g.SameNetwork g' :=
  ⟨h'.tcpStats.trans h.tcpStats, h'.udpStats.trans h.udpStats,
    h'.netInitialized.trans h.netInitialized⟩

theorem uses_sameNetwork (h : g.netInitialized ∨ us.findSome? Use.network? = none) :
    g.SameNetwork (us.foldl Use.after g) := by
  induction us generalizing g with
  | nil => exact ⟨rfl, rfl, rfl⟩
  | cons u us ih =>
    cases u with
    | process u =>
      have hsame : g.SameNetwork (Use.after g (.process u)) := ⟨rfl, rfl, rfl⟩
      exact hsame.trans (ih h)
    | network u =>
      have hnet : g.netInitialized := h.resolve_right nofun
      have hsame : Use.after g (.network u) = g := if_pos hnet
      rw [List.foldl_cons, hsame]
      exact ih (.inl hnet)

theorem uses_network {v : NetworkUse} (hnet : g.netInitialized = false)
    (h : us.findSome? Use.network? = some v) :
    (networkInfoLoad v g).SameNetwork (us.foldl Use.after g) := by
  induction us generalizing g with
  | nil => cases h
  | cons u us ih =>
    cases u with
    | process u =>
      have hsame : (networkInfoLoad v g).SameNetwork
          (networkInfoLoad v (Use.after g (.process u))) := by
        rw [networkInfoLoad_eq, networkInfoLoad_eq]
        exact ⟨rfl, rfl, rfl⟩
      exact hsame.trans (ih hnet h)
    | network u =>
      obtain rfl : u = v := Option.some.inj h
      have hload : Use.after g (.network u) = networkInfoLoad u g := by
        rw [Use.after, networkExecute, hnet]
        rfl
      rw [List.foldl_cons, hload]
      exact uses_sameNetwork (.inl rfl)

theorem networkExecute_netInitialized (u : NetworkUse) (g : Globals) :
    (networkExecute u g).netInitialized = true := by
  unfold networkExecute
  split
  · assumption
  · rfl

theorem Use.after_processlist_ne (u : Use) (hp : g.processlist ≠ .freed) :
    (u.after g).processlist ≠ .freed := by
  have hone := uses_processlist [u] g
  rw [List.foldl_cons, List.foldl_nil] at hone
  rw [hone]
  split
  · exact nofun
  · exact hp

/-- Uses read no freed memory when the list and the table that `tcp_stats` comes to are not. -/
theorem uses_isSome (hp : g.processlist ≠ .freed)
    (ht : (us.foldl Use.after g).netInitialized → (us.foldl Use.after g).tcpStats ≠ .freed) :
    (us.foldlM Use.run g).isSome := by
  induction us generalizing g with
  | nil => rfl
  | cons u us ih =>
    have hp' := u.after_processlist_ne hp
    have hrun : (u.run g).isSome := by
      refine Use.run_of_ne hp' ?_
      rintro v rfl
      have hnet : (Use.after g (.network v)).netInitialized := networkExecute_netInitialized v g
      have hsame : (Use.after g (.network v)).SameNetwork
          (us.foldl Use.after (Use.after g (.network v))) := uses_sameNetwork (.inl hnet)
      rw [List.foldl_cons, hsame.tcpStats, hsame.netInitialized] at ht
      exact ht hnet
    obtain ⟨g₁, hg₁⟩ := Option.isSome_iff_exists.mp hrun
    obtain rfl := Use.after_eq_of_run hg₁
    rw [List.foldlM_cons, hg₁]
    exact ih hp' ht

theorem executions_eq (executions : List (List Use)) (hr : g.rootKstubVec = .held)
    (hm : g.macroHlists = .held) :
    executions.foldlM lreExecute g = executions.flatten.foldlM Use.run g := by
  induction executions generalizing g with
  | nil => rfl
  | cons us executions ih =>
    have hexec : lreExecute g us = us.foldlM Use.run g := by
      rw [lreExecute, hr, hm]
      rfl
    rw [List.foldlM_cons, hexec, List.flatten_cons, List.foldlM_append]
    cases hus : us.foldlM Use.run g with
    | none => rfl
    | some g₁ =>
      obtain rfl := uses_eq_of_run hus
      have hsame := uses_sameInit us g
      exact ih (hsame.rootKstubVec.trans hr) (hsame.macroHlists.trans hm)

/-! ### Release -/

theorem lrcProcessRelease_eq (g : Globals) :
    lrcProcessRelease g = if g.processlist = .freed then none
      else some { g with processlist := g.processlist.drop } := by
  obtain ⟨confPath, processlist, tcp, cnt, udp, net, root, macros⟩ := g
  cases processlist <;> rfl

theorem lrcNetworkRelease_eq (g : Globals) :
    lrcNetworkRelease g =
      if g.netInitialized ∧ (g.tcpStats = .freed ∨ g.udpStats = .freed) then none
      else some { g with
        netInitialized := false
        tcpStats := if g.netInitialized then g.tcpStats.drop else g.tcpStats
        udpStats := if g.netInitialized then g.udpStats.drop else g.udpStats } := by
  obtain ⟨confPath, processlist, tcp, cnt, udp, net, root, macros⟩ := g
  cases net with
  | false => rfl
  | true => cases tcp <;> cases udp <;> rfl

theorem lreConfRelease_eq (g : Globals) :
    lreConfRelease g = if g.confPath = .freed then none
      else some { g with confPath := g.confPath.drop } := by
  obtain ⟨confPath, processlist, tcp, cnt, udp, net, root, macros⟩ := g
  cases confPath <;> rfl

/-- What a release needs. -/
def Globals.Releasable (g : Globals) : Prop :=
  g.processlist ≠ .freed ∧ ¬(g.netInitialized ∧ (g.tcpStats = .freed ∨ g.udpStats = .freed)) ∧
    g.confPath ≠ .freed

/-- What a release leaves. -/
def Globals.released (g : Globals) : Globals :=
  { g with
    confPath := g.confPath.drop
    processlist := g.processlist.drop
    tcpStats := if g.netInitialized then g.tcpStats.drop else g.tcpStats
    udpStats := if g.netInitialized then g.udpStats.drop else g.udpStats
    netInitialized := false
    rootKstubVec := .freed }

theorem lreRelease_eq (hr : g.rootKstubVec = .held) (hm : g.macroHlists = .held) :
    lreRelease g =
      if g.processlist = .freed then none
      else if g.netInitialized ∧ (g.tcpStats = .freed ∨ g.udpStats = .freed) then none
      else if g.confPath = .freed then none
      else some g.released := by
  obtain ⟨confPath, processlist, tcp, cnt, udp, net, root, macros⟩ := g
  obtain rfl : root = .held := hr
  obtain rfl : macros = .held := hm
  rw [lreRelease, lrcBuiltinRelease, lrcProcessRelease_eq]
  by_cases hp : processlist = .freed
  · rw [if_pos hp, if_pos hp]
    rfl
  · rw [if_neg hp, if_neg hp]
    change (lrcNetworkRelease _ >>= fun g => lreMacroRelease g >>= fun g => lreKeywordRelease g >>=
      lreConfRelease) = _
    rw [lrcNetworkRelease_eq]
    by_cases hn : net ∧ (tcp = .freed ∨ udp = .freed)
    · rw [if_pos hn, if_pos hn]
      rfl
    · rw [if_neg hn, if_neg hn]
      exact lreConfRelease_eq _

theorem lreRelease_isSome_iff (hr : g.rootKstubVec = .held) (hm : g.macroHlists = .held) :
    (lreRelease g).isSome ↔ g.Releasable := by
  rw [lreRelease_eq hr hm, Globals.Releasable]
  split_ifs with hp hn hc
  · exact iff_of_false Bool.false_ne_true fun h => h.1 hp
  · exact iff_of_false Bool.false_ne_true fun h => h.2.1 hn
  · exact iff_of_false Bool.false_ne_true fun h => h.2.2 hc
  · exact iff_of_true rfl ⟨hp, hn, hc⟩

theorem lreRelease_eq_some (hr : g.rootKstubVec = .held) (hm : g.macroHlists = .held)
    (h : lreRelease g = some g') : g' = g.released := by
  rw [lreRelease_eq hr hm] at h
  split_ifs at h
  exact (Option.some.inj h).symm

/-! ## Whole cycles -/

/-- Between cycles nothing is allocated. -/
structure Globals.Idle (g : Globals) : Prop where
  confPath : g.confPath ≠ .held
  processlist : g.processlist ≠ .held
  tcpStats : g.tcpStats ≠ .held
  udpStats : g.udpStats ≠ .held
  netInitialized : g.netInitialized = false

/-- What a cycle needs of the globals that it finds. -/
def Session.Fits (c : Session) (g : Globals) : Prop :=
  g.confPath ≠ .freed ∧ g.processlist ≠ .freed ∧
    ∀ u ∈ c.network?, (g.tcpStats = .freed → u.tcp.isSome) ∧ (g.udpStats = .freed → u.udp.isSome)

/-- The globals at the end of the executions of a cycle. -/
def Session.last (c : Session) (g : Globals) : Globals := c.uses.foldl Use.after (c.inited g)

theorem Session.last_sameInit (c : Session) (g : Globals) : (c.inited g).SameInit (c.last g) :=
  uses_sameInit _ _

theorem Session.last_confPath (c : Session) (g : Globals) :
    (c.last g).confPath = if c.setsPath then .held else g.confPath :=
  (c.last_sameInit g).confPath

theorem Session.last_processlist (c : Session) (g : Globals) :
    (c.last g).processlist =
      if g.processlist = .null ∧ c.loadsProcesses then .held else g.processlist :=
  uses_processlist _ _

theorem Session.last_of_none (h : c.network? = none) : g.SameNetwork (c.last g) := by
  have hsame : g.SameNetwork (c.inited g) := ⟨rfl, rfl, rfl⟩
  exact hsame.trans (uses_sameNetwork (.inr h))

theorem Session.last_of_some {u : NetworkUse} (h : c.network? = some u)
    (hnet : g.netInitialized = false) : (networkInfoLoad u g).SameNetwork (c.last g) := by
  have hsame : (networkInfoLoad u g).SameNetwork (networkInfoLoad u (c.inited g)) := by
    rw [networkInfoLoad_eq, networkInfoLoad_eq]
    exact ⟨rfl, rfl, rfl⟩
  exact hsame.trans (uses_network hnet h)

theorem Session.last_network_iff (h : g.Idle) :
    ¬((c.last g).netInitialized ∧ ((c.last g).tcpStats = .freed ∨ (c.last g).udpStats = .freed)) ↔
      ∀ u ∈ c.network?,
        (g.tcpStats = .freed → u.tcp.isSome) ∧ (g.udpStats = .freed → u.udp.isSome) := by
  cases hfirst : c.network? with
  | none =>
    have hlast := last_of_none (g := g) hfirst
    rw [hlast.netInitialized, h.netInitialized]
    exact iff_of_true (fun h => Bool.false_ne_true h.1) nofun
  | some u =>
    have hlast := last_of_some hfirst h.netInitialized
    have hfreed : ∀ (x : Option ℕ) (p : Pointer),
        (if x.isSome then Pointer.held else p) = .freed ↔ ¬(p = .freed → x.isSome) := by
      intro x p
      cases x with
      | none => simp
      | some n => simp
    rw [hlast.netInitialized, hlast.tcpStats, hlast.udpStats, networkInfoLoad_eq]
    dsimp only
    rw [hfreed, hfreed, ← not_and_or]
    simp only [true_and, not_not, Option.mem_def, Option.some.injEq, forall_eq']

/-- **What the last state of a cycle is like, and what the cycle found.** -/
theorem Session.releasable_iff (h : g.Idle) (hconf : g.confPath ≠ .freed) :
    (c.last g).Releasable ↔ c.Fits g := by
  have hlast : (c.last g).confPath ≠ .freed := by
    rw [c.last_confPath]
    split
    · exact nofun
    · exact hconf
  have hlist : (c.last g).processlist = .freed ↔ g.processlist = .freed := by
    rw [c.last_processlist]
    split
    · rename_i hnull
      rw [hnull.1]
      exact iff_of_false nofun nofun
    · exact Iff.rfl
  unfold Globals.Releasable Session.Fits
  rw [Ne, Ne, hlist, last_network_iff h]
  exact ⟨fun h => ⟨hconf, h.1, h.2.1⟩, fun h => ⟨h.2.1, h.2.2, hlast⟩⟩

theorem Session.run_eq (hconf : g.confPath ≠ .freed) :
    c.run g = (c.uses.foldlM Use.run (c.inited g)).bind lreRelease := by
  have hexec := executions_eq c.executions (g := c.inited g) rfl rfl
  rw [run, init_eq, if_neg hconf]
  exact congrArg (·.bind lreRelease) hexec

theorem Session.last_held (c : Session) (g : Globals) :
    (c.last g).rootKstubVec = .held ∧ (c.last g).macroHlists = .held :=
  ⟨(c.last_sameInit g).rootKstubVec, (c.last_sameInit g).macroHlists⟩

/-- A cycle that finds what it needs uses no freed memory. -/
theorem Session.run_of_fits (h : g.Idle) (hfits : c.Fits g) :
    c.run g = some (c.last g).released := by
  obtain ⟨hr, hm⟩ := c.last_held g
  have hrel := (releasable_iff h hfits.1).mpr hfits
  have huses : (c.uses.foldlM Use.run (c.inited g)).isSome :=
    uses_isSome hfits.2.1 fun hnet hfreed => hrel.2.1 ⟨hnet, .inl hfreed⟩
  obtain ⟨g₂, hg₂⟩ := Option.isSome_iff_exists.mp huses
  obtain rfl : g₂ = c.last g := uses_eq_of_run hg₂
  obtain ⟨g', hg'⟩ := Option.isSome_iff_exists.mp ((lreRelease_isSome_iff hr hm).mpr hrel)
  rw [run_eq hfits.1, hg₂, Option.bind_some, hg', lreRelease_eq_some hr hm hg']

/-- **A cycle uses no freed memory exactly when it finds what it needs.** -/
theorem Session.run_isSome_iff (h : g.Idle) : (c.run g).isSome ↔ c.Fits g := by
  constructor
  · intro hsome
    obtain ⟨g', hrun⟩ := Option.isSome_iff_exists.mp hsome
    have hconf : g.confPath ≠ .freed := by
      intro hfreed
      rw [run, init_eq, if_pos hfreed] at hrun
      cases hrun
    rw [run_eq hconf] at hrun
    obtain ⟨g₂, hg₂, hrel⟩ := Option.bind_eq_some_iff.mp hrun
    obtain rfl : g₂ = c.last g := uses_eq_of_run hg₂
    obtain ⟨hr, hm⟩ := c.last_held g
    refine (releasable_iff h hconf).mp ((lreRelease_isSome_iff hr hm).mp ?_)
    rw [hrel]
    rfl
  · intro hfits
    rw [run_of_fits h hfits]
    rfl

theorem Pointer.drop_ne_held (p : Pointer) : p.drop ≠ .held := by cases p <;> exact nofun

theorem Session.released_idle (h : g.Idle) : (c.last g).released.Idle := by
  have htable : ∀ p, (c.last g).netInitialized = true ∨ p ≠ .held →
      (if (c.last g).netInitialized then Pointer.drop p else p) ≠ .held := by
    intro p hp
    split
    · exact p.drop_ne_held
    · rename_i hnet
      exact hp.resolve_left hnet
  have hsame : (c.last g).netInitialized = true ∨
      (c.last g).tcpStats = g.tcpStats ∧ (c.last g).udpStats = g.udpStats := by
    cases hfirst : c.network? with
    | none => exact .inr ⟨(last_of_none hfirst).tcpStats, (last_of_none hfirst).udpStats⟩
    | some u => exact .inl (last_of_some hfirst h.netInitialized).netInitialized
  refine ⟨Pointer.drop_ne_held _, Pointer.drop_ne_held _, htable _ ?_, htable _ ?_, rfl⟩
  · exact hsame.elim .inl fun hs => .inr (hs.1 ▸ h.tcpStats)
  · exact hsame.elim .inl fun hs => .inr (hs.2 ▸ h.udpStats)

theorem Session.released_network (h : g.Idle) :
    ((c.last g).released.tcpStats = .freed ↔
      g.tcpStats = .freed ∨ ∃ u ∈ c.network?, u.tcp.isSome) ∧
    ((c.last g).released.udpStats = .freed ↔
      g.udpStats = .freed ∨ ∃ u ∈ c.network?, u.udp.isSome) := by
  unfold Globals.released
  dsimp only
  cases hfirst : c.network? with
  | none =>
    have hlast := last_of_none (g := g) hfirst
    rw [hlast.netInitialized, h.netInitialized, hlast.tcpStats, hlast.udpStats]
    simp
  | some u =>
    have hlast := last_of_some hfirst h.netInitialized
    have hdrop : ∀ (x : Option ℕ) (p : Pointer), p ≠ .held →
        ((if x.isSome then Pointer.held else p).drop = .freed ↔ p = .freed ∨ x.isSome) := by
      intro x p hp
      cases x <;> cases p <;> simp_all [Pointer.drop]
    rw [hlast.netInitialized, hlast.tcpStats, hlast.udpStats, networkInfoLoad_eq]
    dsimp only
    rw [if_pos rfl, if_pos rfl, hdrop _ _ h.tcpStats, hdrop _ _ h.udpStats]
    simp

/-- **What a later cycle needs, once a cycle is over.** -/
theorem Session.fits_released {c' : Session} (h : g.Idle) (hfits : c.Fits g) :
    c'.Fits (c.last g).released ↔ c.Compatible c' ∧ c'.Fits g := by
  obtain ⟨hconf, hlist, -⟩ := hfits
  have hnull : ∀ p : Pointer, p ≠ .held → p ≠ .freed → p = .null := by
    intro p hheld hfreed
    cases p with
    | null => rfl
    | held => exact absurd rfl hheld
    | freed => exact absurd rfl hfreed
  have hpath : (c.last g).released.confPath ≠ .freed ↔ c.setsPath = false := by
    rw [Globals.released, last_confPath, hnull _ h.confPath hconf]
    cases c.setsPath <;> simp [Pointer.drop]
  have hload : (c.last g).released.processlist ≠ .freed ↔ c.loadsProcesses = false := by
    rw [Globals.released, last_processlist, hnull _ h.processlist hlist]
    cases c.loadsProcesses <;> simp [Pointer.drop]
  obtain ⟨htcp, hudp⟩ := released_network (c := c) h
  unfold Fits Compatible
  rw [hpath, hload, htcp, hudp]
  constructor
  · rintro ⟨hsets, hloads, hnet⟩
    refine ⟨⟨hsets, hloads, fun u hu u' hu' => ?_⟩, hconf, hlist, fun u' hu' => ?_⟩
    · exact ⟨fun hopen => (hnet u' hu').1 (.inr ⟨u, hu, hopen⟩),
        fun hopen => (hnet u' hu').2 (.inr ⟨u, hu, hopen⟩)⟩
    · exact ⟨fun hfreed => (hnet u' hu').1 (.inl hfreed),
        fun hfreed => (hnet u' hu').2 (.inl hfreed)⟩
  · rintro ⟨⟨hsets, hloads, hcompat⟩, -, -, hnet⟩
    refine ⟨hsets, hloads, fun u' hu' => ⟨?_, ?_⟩⟩
    · rintro (hfreed | ⟨u, hu, hopen⟩)
      · exact (hnet u' hu').1 hfreed
      · exact (hcompat u hu u' hu').1 hopen
    · rintro (hfreed | ⟨u, hu, hopen⟩)
      · exact (hnet u' hu').2 hfreed
      · exact (hcompat u hu u' hu').2 hopen

theorem foldlM_run_isSome_iff (h : g.Idle) (cs : List Session) :
    (cs.foldlM Session.run g).isSome ↔ cs.Pairwise Session.Compatible ∧ ∀ c ∈ cs, c.Fits g := by
  induction cs generalizing g with
  | nil => exact iff_of_true rfl ⟨.nil, nofun⟩
  | cons c cs ih =>
    rw [List.foldlM_cons, List.pairwise_cons, List.forall_mem_cons]
    by_cases hfits : c.Fits g
    · rw [Session.run_of_fits h hfits]
      refine (ih (Session.released_idle h)).trans ?_
      simp only [Session.fits_released h hfits, forall₂_and, hfits, true_and]
      tauto
    · have hnone : c.run g = none := by
        rwa [← Option.not_isSome_iff_eq_none, Session.run_isSome_iff h]
      rw [hnone]
      exact iff_of_false Bool.false_ne_true fun h => hfits h.2.1

/-- **No cycle reads or frees what an earlier one has freed exactly when each cycle can run on what
every earlier one left.** -/
theorem runSessions_isSome_iff (cs : List Session) :
    (runSessions cs).isSome ↔ cs.Pairwise Session.Compatible := by
  have hidle : staticGlobals.Idle := ⟨nofun, nofun, nofun, nofun, rfl⟩
  have hfits : ∀ c : Session, c.Fits staticGlobals := fun c =>
    ⟨nofun, nofun, fun u _ => ⟨nofun, nofun⟩⟩
  rw [runSessions, foldlM_run_isSome_iff hidle]
  exact and_iff_left fun c _ => hfits c

/-- A cycle that sets a path and executes nothing. -/
def pathSession : Session := ⟨some (some ['/']), []⟩

/-- Two such cycles: the second frees the path that the first has freed. -/
theorem runSessions_path : runSessions [pathSession, pathSession] = none ∧
    ¬∀ cs : List Session, (runSessions cs).isSome := by
  have hnone : runSessions [pathSession, pathSession] = none := rfl
  refine ⟨hnone, fun hall => ?_⟩
  have hsome := hall [pathSession, pathSession]
  rw [hnone] at hsome
  cases hsome

end Lre
