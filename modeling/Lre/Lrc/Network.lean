import Lre.Exec.Model

/-!
# Listening ports

* `NetState`, `NetworkInfo`: the socket tables, `LrcNetwork`: the object of the component.
* `lreCompareInt`: comparisons of integers (`lreCompareInt_eq_one_iff`).
* `LrcNetwork.exprListenHandler`: the expression `listen`; `Protocol.listens` is what it asks for.
* **`exprListenHandler_iff`**: when the verdict is the one of the protocol's own table, with the
  operands in the order written.
-/

namespace Lre

variable {D : Type}

/-- `LRE_RET_ERROR`. -/
def lreRetError : BitVec 32 := 0xdeaddead#32

/-! ## Comparisons -/

/-- `lre_compare_int`. -/
def lreCompareInt (a b : BitVec 32) : Sym → BitVec 32
  | .equal => if a.toInt = b.toInt then 1 else 0
  | .notEqual => if a.toInt ≠ b.toInt then 1 else 0
  | .gt => if a.toInt > b.toInt then 1 else 0
  | .lt => if a.toInt < b.toInt then 1 else 0
  | .gtOrEqual => if a.toInt ≥ b.toInt then 1 else 0
  | .ltOrEqual => if a.toInt ≤ b.toInt then 1 else 0
  | _ => retDeadVal

/-- `e op v`, for the comparison operators. -/
def Sym.Compares : Sym → ℤ → ℤ → Prop
  | .equal, e, v => e = v
  | .notEqual, e, v => e ≠ v
  | .gt, e, v => e > v
  | .lt, e, v => e < v
  | .gtOrEqual, e, v => e ≥ v
  | .ltOrEqual, e, v => e ≤ v
  | _, _, _ => False

/-! ## The component -/

/-- `struct net_state`, as far as it is read. -/
structure NetState where
  localport : BitVec 32
  state : BitVec 32
  deriving DecidableEq

/-- `tcp_stats` and `udp_stats`; the counts are the lengths. -/
structure NetworkInfo where
  tcpStats : List NetState
  udpStats : List NetState

/-- `struct lrc_network`. -/
structure LrcNetwork where
  protocol : Word
  port : BitVec 32

/-- The loop over a table. -/
def portExist (netstats : List NetState) (listenFlags port : BitVec 32) : Bool :=
  netstats.any fun stat => stat.state == listenFlags && stat.localport == port

/-- `strcasecmp`, where it returns zero. -/
def strcasecmp (a b : Word) : Bool := a.map Char.toLower == b.map Char.toLower

/-- `vaild_port`. -/
def vaildPort (port : BitVec 32) : Bool := 0 < port.toInt && port.toInt ≤ 65535

/-- The texts of `expr_listen_handler` for `output`. -/
def listenText (exist : Bool) : Word :=
  (if exist then [] else ['n', 'o', 't', ' ']) ++
    ['l', 'i', 's', 't', 'e', 'n', 'i', 'n', 'g', '.']

/-- The table and the state that `expr_listen_handler` looks for; the branch of `udp` reads the
table of `tcp`. -/
def netstats (info : NetworkInfo) (protocol : Word) : Option (List NetState × BitVec 32) :=
  if strcasecmp protocol ['t', 'c', 'p'] then some (info.tcpStats, 0x0A#32)
  else if strcasecmp protocol ['u', 'd', 'p'] then some (info.tcpStats, 0x07#32)
  else none

/-- `expr_listen_handler`: the result and the text that is output. -/
def LrcNetwork.exprListenHandler (info : NetworkInfo) (network : LrcNetwork) (opt : Sym)
    (lreval : Option (LreValue D)) : BitVec 32 × Option Word :=
  match lreval with
  | some ⟨.int val, _⟩ =>
    match netstats info network.protocol with
    | none => (lreRetError, none)
    | some (stats, listenFlags) =>
      if !vaildPort network.port then (lreRetError, none)
      else
        let exist := portExist stats listenFlags network.port
        let ret := lreCompareInt val (if exist then 1 else 0) opt
        (ret, if vaildLreResults ret.toInt then some (listenText exist) else none)
  | _ => (lreRetError, none)

/-! ## The purpose -/

/-- The protocols of the component. -/
inductive Protocol
  | tcp
  | udp
  deriving DecidableEq

namespace Protocol

/-- The name of a protocol. -/
def name : Protocol → Word
  | tcp => ['t', 'c', 'p']
  | udp => ['u', 'd', 'p']

/-- The table of a protocol. -/
def stats (info : NetworkInfo) : Protocol → List NetState
  | tcp => info.tcpStats
  | udp => info.udpStats

/-- The state of a socket that listens. -/
def listenFlags : Protocol → BitVec 32
  | tcp => 0x0A#32
  | udp => 0x07#32

/-- The table has an entry with the port in the listening state of the protocol. -/
def Listens (proto : Protocol) (netstats : List NetState) (port : BitVec 32) : Prop :=
  ∃ stat ∈ netstats, stat.state = proto.listenFlags ∧ stat.localport = port

instance (proto : Protocol) (netstats : List NetState) (port : BitVec 32) :
    Decidable (proto.Listens netstats port) :=
  inferInstanceAs (Decidable (∃ stat ∈ netstats, _))

/-- `1` when the port is found in the table and `0` when it is not. -/
def found (proto : Protocol) (netstats : List NetState) (port : BitVec 32) : ℤ :=
  if proto.Listens netstats port then 1 else 0

end Protocol

variable {info : NetworkInfo} {network : LrcNetwork} {proto : Protocol} {stats : List NetState}
  {port val a b : BitVec 32} {op : Sym}

/-! ## Comparisons of integers -/

theorem lreCompareInt_eq_one_iff : lreCompareInt a b op = 1 ↔ op.Compares a.toInt b.toInt := by
  cases op <;> simp [lreCompareInt, Sym.Compares, retDeadVal]

theorem vaildLreResults_answer (p : Prop) [Decidable p] :
    vaildLreResults (if p then 1 else 0 : BitVec 32).toInt = true := by
  split_ifs <;> rfl

theorem answer_eq_one_iff (p : Prop) [Decidable p] : (if p then 1 else 0 : BitVec 32) = 1 ↔ p := by
  split_ifs with hp <;> simp [hp]

theorem lreCompareInt_valid (hop : (symWords op).2 = .optComp) :
    vaildLreResults (lreCompareInt a b op).toInt = true := by
  cases op <;> first | exact vaildLreResults_answer _ | cases hop

/-- `v op e'` and `e op v` are the same for `e` and `e'` among 0 and 1: `v` stands between the two,
in the order that the operator asks for. -/
def OperandsAgree (op : Sym) (e e' v : ℤ) : Prop :=
  match op with
  | .equal | .notEqual => e = e' ∨ v ≠ 0 ∧ v ≠ 1
  | .lt | .gtOrEqual => e' ≤ v ∧ v ≤ e
  | .gt | .ltOrEqual => e ≤ v ∧ v ≤ e'
  | _ => True

theorem operandsAgree_iff {e e' v : ℤ} (he : e = 0 ∨ e = 1) (he' : e' = 0 ∨ e' = 1) :
    (op.Compares v e' ↔ op.Compares e v) ↔ OperandsAgree op e e' v := by
  cases op <;> simp only [Sym.Compares, OperandsAgree] <;> omega

/-! ## The tables -/

theorem portExist_iff :
    portExist stats proto.listenFlags port = true ↔ proto.Listens stats port := by
  simp [portExist, Protocol.Listens]

theorem found_eq (proto : Protocol) (stats : List NetState) (port : BitVec 32) :
    (if portExist stats proto.listenFlags port then 1 else 0 : BitVec 32).toInt =
      proto.found stats port := by
  by_cases h : proto.Listens stats port
  · rw [if_pos (portExist_iff.mpr h), Protocol.found, if_pos h]
    rfl
  · rw [if_neg fun hex => h (portExist_iff.mp hex), Protocol.found, if_neg h]
    rfl

theorem found_zero_or_one (proto : Protocol) (stats : List NetState) (port : BitVec 32) :
    proto.found stats port = 0 ∨ proto.found stats port = 1 := by
  unfold Protocol.found
  split_ifs
  · exact .inr rfl
  · exact .inl rfl

/-- Both branches read the table of `tcp`. -/
theorem netstats_eq {protocol : Word} (h : strcasecmp protocol proto.name = true) :
    netstats info protocol = some (info.tcpStats, proto.listenFlags) := by
  cases proto with
  | tcp => exact if_pos h
  | udp =>
    have hne : ¬strcasecmp protocol ['t', 'c', 'p'] = true := by
      intro htcp
      have h1 := eq_of_beq h
      have h2 := eq_of_beq htcp
      rw [h1] at h2
      exact absurd h2 (by decide)
    rw [netstats, if_neg hne]
    exact if_pos h

theorem exprListenHandler_fst (hproto : strcasecmp network.protocol proto.name = true)
    (hport : vaildPort network.port = true) (op : Sym) (val : BitVec 32) (ptr : Option ℕ) :
    (LrcNetwork.exprListenHandler (D := D) info network op (some ⟨.int val, ptr⟩)).1 =
      lreCompareInt val (if portExist info.tcpStats proto.listenFlags network.port then 1 else 0)
        op := by
  simp only [LrcNetwork.exprListenHandler, netstats_eq hproto, hport]
  rfl

/-! ## The verdict -/

/-- The verdict is the truth of `e op v`. -/
def ListenVerdict (info : NetworkInfo) (proto : Protocol) (port : BitVec 32) (op : Sym) (v : ℤ)
    (ret : BitVec 32) : Prop :=
  vaildLreResults ret.toInt = true ∧ (ret = 1 ↔ op.Compares (proto.found (proto.stats info) port) v)

/-- **The verdict of `listen op v` is the truth of `e op v` exactly when the table of `tcp` agrees
with that of the protocol as far as the operator can tell, and the operands can be swapped.** -/
theorem exprListenHandler_iff (hproto : strcasecmp network.protocol proto.name = true)
    (hport : vaildPort network.port = true) (hop : (symWords op).2 = .optComp) (val : BitVec 32)
    (ptr : Option ℕ) :
    ListenVerdict info proto network.port op val.toInt
        (LrcNetwork.exprListenHandler (D := D) info network op (some ⟨.int val, ptr⟩)).1 ↔
      OperandsAgree op (proto.found (proto.stats info) network.port)
        (proto.found info.tcpStats network.port) val.toInt := by
  rw [exprListenHandler_fst hproto hport, ListenVerdict, and_iff_right (lreCompareInt_valid hop),
    lreCompareInt_eq_one_iff, found_eq]
  exact operandsAgree_iff (found_zero_or_one _ _ _) (found_zero_or_one _ _ _)

/-- `TCP` with port 22 open. -/
theorem exprListenHandler_tcp :
    ListenVerdict ⟨[⟨22, 0x0A⟩], []⟩ .tcp 22 .equal 1
      (LrcNetwork.exprListenHandler (D := Unit) ⟨[⟨22, 0x0A⟩], []⟩ ⟨['T', 'C', 'P'], 22⟩ .equal
        (some ⟨.int 1, none⟩)).1 :=
  (exprListenHandler_iff (by decide) (by decide) (by decide) 1 none).mpr (.inl rfl)

/-- `udp` with port 53 open is not listening, and with `tcp` port 22 open, `listen > 0` fails. -/
theorem exprListenHandler_swapped :
    ¬ListenVerdict ⟨[], [⟨53, 0x07⟩]⟩ .udp 53 .equal 1
        (LrcNetwork.exprListenHandler (D := Unit) ⟨[], [⟨53, 0x07⟩]⟩ ⟨['u', 'd', 'p'], 53⟩ .equal
          (some ⟨.int 1, none⟩)).1 ∧
      ¬ListenVerdict ⟨[⟨22, 0x0A⟩], []⟩ .tcp 22 .gt 0
        (LrcNetwork.exprListenHandler (D := Unit) ⟨[⟨22, 0x0A⟩], []⟩ ⟨['t', 'c', 'p'], 22⟩ .gt
          (some ⟨.int 0, none⟩)).1 := by
  constructor
  · intro h
    have hfound : Protocol.found .udp [⟨53, 0x07⟩] 53 = 1 := rfl
    exact absurd (h.2.mpr hfound) (by decide)
  · intro h
    have hfound : Protocol.found .tcp [⟨22, 0x0A⟩] 22 > 0 := by decide
    exact absurd (h.2.mpr hfound) (by decide)

end Lre
