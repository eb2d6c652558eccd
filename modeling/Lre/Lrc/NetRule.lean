import Mathlib.Logic.Function.Basic
import Lre.Interp.Formula
import Lre.Lrc.Compare
import Lre.Lrc.NetState
import Lre.Lrc.SpecTable
import Lre.Lrc.Users

/-!
# Rules about sockets

The component `lrc_network` with its objects and tables, and the rules that are made of it.

* `NetWorld`: the files under `/proc/net`, the tables, and the objects.
* `networkModule`: the component as it registers itself.
* `NetAtom`: `network(..){..}` with any arguments and any proposition about `listen`.
* **`rule_network`**: a rule that is spelled like a proposition of these has its truth value.
* **`executions_network`**: the sockets are those that the first rule found, for as long as the
  component is there, and no object is left behind.
-/

namespace Lre

open CString (nul)

variable {D : Type}

/-! ## The component -/

/-- `struct lrc_network`: the bytes of `protocol`, and `port`. -/
structure NetObject where
  protocol : Word
  port : BitVec 32
  deriving DecidableEq

/-- The bytes of a port in memory. -/
def portBytes (port : BitVec 32) : Word :=
  [0, 8, 16, 24].map fun shift => Char.ofNat ((port >>> shift).toNat % 256)

/-- The C string at `protocol`. Behind the 16 bytes are `port` and padding that the constructor has
cleared. -/
def NetObject.name (o : NetObject) : Word := cstr (o.protocol ++ portBytes o.port ++ [nul])

/-- The members that a handler reads. -/
def NetObject.network (o : NetObject) : LrcNetwork := ⟨o.name, o.port⟩

/-- `INVAILD_PORT`. -/
def invaildPort : BitVec 32 := -1

/-- The contents of the two files, as the first and the second pass over each would read them;
`none` where `fopen` fails. -/
structure NetFiles where
  tcp : Option (Word × Word)
  udp : Option (Word × Word)

/-- What the component works on. -/
structure NetWorld where
  files : NetFiles
  tcpStats : List NetStateRow
  udpStats : List NetStateRow
  netInitialized : Bool
  objects : ℕ → NetObject
  /-- the objects that are not given back yet -/
  live : List ℕ
  next : ℕ
  /-- whether `malloc` returns memory for an object -/
  malloc : ℕ → Bool

namespace NetWorld

/-- `tcp_state_load` and `udp_state_load`: the table they leave. -/
def loadStats (file : Option (Word × Word)) (stats : List NetStateRow) : List NetStateRow :=
  match file with
  | none => stats
  | some (first, second) => tableRows (stateLoad first second).table

/-- `network_info_load`. -/
def networkInfoLoad (w : NetWorld) : NetWorld :=
  { w with
    tcpStats := loadStats w.files.tcp w.tcpStats
    udpStats := loadStats w.files.udp w.udpStats
    netInitialized := true }

/-- The tables as the expression `listen` reads them. -/
def info (w : NetWorld) : NetworkInfo :=
  ⟨w.tcpStats.map NetStateRow.toNetState, w.udpStats.map NetStateRow.toNetState⟩

/-- A store to an object. -/
def setObject (w : NetWorld) (handle : ℕ) (o : NetObject) : NetWorld :=
  { w with objects := Function.update w.objects handle o }

end NetWorld

/-- `network_constructor`. -/
def networkConstructor (env : Env NetWorld) : Option ℕ × Env NetWorld :=
  let w := env.1
  if w.malloc w.next then
    (some w.next, { w.setObject w.next ⟨List.replicate 16 nul, invaildPort⟩ with
      live := w.next :: w.live
      next := w.next + 1 }, env.2)
  else (none, { w with next := w.next + 1 }, env.2)

/-- `network_destructor`. -/
def networkDestructor (handle : ℕ) (env : Env NetWorld) : Env NetWorld :=
  ({ env.1 with live := env.1.live.erase handle }, env.2)

/-- The details of `network_execute`. -/
def networkText (o : NetObject) : Word :=
  let buf := OutText.empty.write detailsUnitMax ['n', 'e', 't', 'w', 'o', 'r', 'k', ' ']
  let buf := buf.write detailsUnitMax
    (['p', 'r', 'o', 't', 'o', 'c', 'o', 'l', ':'] ++ o.name ++ [' '])
  if o.port ≠ invaildPort then
    (buf.write detailsUnitMax (['p', 'o', 'r', 't', ':'] ++ sprintfInt o.port)).text
  else buf.text

/-- `tcp` for an empty protocol. -/
def NetObject.defaulted (o : NetObject) : NetObject :=
  if o.name = [] then { o with protocol := ['t', 'c', 'p', nul] ++ o.protocol.drop 4 } else o

/-- `network_execute`. -/
def networkExec (handle : ℕ) (env : Env NetWorld) : ℤ × Env NetWorld :=
  let w := if env.1.netInitialized then env.1 else env.1.networkInfoLoad
  let o := (w.objects handle).defaulted
  (0, w.setObject handle o, networkText o :: env.2)

/-- `strncpy` to `protocol`. -/
def NetObject.setProtocol (o : NetObject) (str : Word) : NetObject :=
  { o with protocol := (str ++ List.replicate 16 nul).take 16 }

/-- `arg_protocol_handler`. -/
def argProtocolHandler (handle : ℕ) (content : Content D) (env : Env NetWorld) :
    ℤ × Env NetWorld :=
  match content with
  | .string str =>
    (lreRetOk, env.1.setObject handle ((env.1.objects handle).setProtocol str), env.2)
  | _ => (lreRetError.toInt, env)

/-- `arg_port_handler`. -/
def argPortHandler (handle : ℕ) (content : Content D) (env : Env NetWorld) : ℤ × Env NetWorld :=
  match content with
  | .int val => (lreRetOk, env.1.setObject handle { env.1.objects handle with port := val }, env.2)
  | _ => (lreRetError.toInt, env)

/-- `expr_listen_handler`, on the tables of the component. -/
def listenHandler (handle : ℕ) (opt : Sym) (content : Content D) (env : Env NetWorld) :
    ℤ × Env NetWorld :=
  let out := (env.1.objects handle).network.exprListenHandler env.1.info opt (some ⟨content, none⟩)
  (out.1.toInt, env.1, out.2.toList ++ env.2)

/-- `lrc_funcs`. -/
def networkFunc : LrcStubFunc (Env NetWorld) ℕ D where
  keyword := ['n', 'e', 't', 'w', 'o', 'r', 'k']
  constructor := networkConstructor
  exec := some networkExec
  destructor := some networkDestructor
  args := [⟨['p', 'r', 'o', 't', 'o', 'c', 'o', 'l'], argProtocolHandler⟩,
    ⟨['p', 'o', 'r', 't'], argPortHandler⟩]
  exprs := [⟨['l', 'i', 's', 't', 'e', 'n'], listenHandler⟩]
  vars := []
  funcs := []

/-- `lrc_network_mod`. -/
def networkModule : LrcModule (Env NetWorld) ℕ D := ⟨[networkFunc], []⟩

/-! ## Rules -/

/-- `listen op num`. -/
structure NetListen where
  op : Sym
  num : Word
  isComp : op.IsComp
  isNumber : IsNumber num

/-- `protocol=x` or `port=num`. -/
inductive NetArg
  | protocol (x : Lexeme) (h : ¬IsNumber x.cstr)
  | port (num : Word) (h : IsNumber num)

namespace NetArg

/-- The keyword of an argument. -/
def keyword : NetArg → Word
  | protocol _ _ => ['p', 'r', 'o', 't', 'o', 'c', 'o', 'l']
  | port _ _ => ['p', 'o', 'r', 't']

/-- The literal of an argument. -/
def literal : NetArg → Lexeme
  | protocol x _ => x
  | port num _ => .ident num

/-- The protocol that an argument sets. -/
def protocol? : NetArg → Option Word
  | protocol x _ => some (literalText x)
  | port _ _ => none

/-- The port that an argument sets. -/
def port? : NetArg → Option (BitVec 32)
  | protocol _ _ => none
  | port num _ => some (atoi num)

/-- The protocol that is asked for: the last one, and `tcp` when it is empty. -/
def protocolOf (args : List NetArg) : Word :=
  let text := (args.filterMap protocol?).getLast?.getD []
  if text = [] then ['t', 'c', 'p'] else text

/-- The port that is asked for: the last one. -/
def portOf (args : List NetArg) : BitVec 32 := (args.filterMap port?).getLast?.getD invaildPort

end NetArg

/-- `network(args){body}` about a port of a protocol. -/
structure NetAtom where
  args : List NetArg
  body : Formula NetListen
  length_le : args.length ≤ syntaxArgMax
  proto : Protocol
  proto_eq : strcasecmp (NetArg.protocolOf args) proto.name = true
  vaildPort : vaildPort (NetArg.portOf args) = true

/-- The item of an expression. -/
def NetListen.item (listen : NetListen) : SyntaxItem Unit :=
  exprTree ['l', 'i', 's', 't', 'e', 'n'] listen.op (.ident listen.num)

/-- The item of an atom. -/
def NetAtom.item (atom : NetAtom) : SyntaxItem Unit :=
  funcTree ['n', 'e', 't', 'w', 'o', 'r', 'k']
    (argsTree NetArg.keyword NetArg.literal atom.args) (atom.body.tree NetListen.item)

/-- Whether the expression holds, when `found` says whether there is a socket. -/
def NetListen.val (found : ℤ) (listen : NetListen) : Bool :=
  listen.op.Compares (atoi listen.num).toInt found

/-- Whether the rule holds over a table of sockets. -/
def NetAtom.val (rows : List NetStateRow) (atom : NetAtom) : Bool :=
  atom.body.eval (NetListen.val
    (atom.proto.found (rows.map NetStateRow.toNetState) (NetArg.portOf atom.args)))

/-! ## Objects -/

/-- What a handler of an argument does to the object. -/
def NetArg.set (o : NetObject) : NetArg → NetObject
  | protocol x _ => o.setProtocol (literalText x)
  | port num _ => { o with port := atoi num }

/-- The object of the constructor. -/
def newNetObject : NetObject := ⟨List.replicate 16 nul, invaildPort⟩

/-- A string in `protocol`. -/
def padded (str : Word) : Word := (str ++ List.replicate 16 nul).take 16

theorem foldl_set_port (args : List NetArg) (o : NetObject) :
    (args.foldl NetArg.set o).port = (args.filterMap NetArg.port?).getLast?.getD o.port := by
  induction args generalizing o with
  | nil => rfl
  | cons arg args ih =>
    rw [List.foldl_cons, ih]
    cases arg with
    | protocol x h => rfl
    | port num h =>
      have hport : NetArg.port? (.port num h) = some (atoi num) := rfl
      rw [List.filterMap_cons_some hport, List.getLast?_cons]
      rfl

theorem foldl_set_protocol (args : List NetArg) (o : NetObject) :
    (args.foldl NetArg.set o).protocol =
      ((args.filterMap NetArg.protocol?).map padded).getLast?.getD o.protocol := by
  induction args generalizing o with
  | nil => rfl
  | cons arg args ih =>
    rw [List.foldl_cons, ih]
    cases arg with
    | protocol x h =>
      have hprotocol : NetArg.protocol? (.protocol x h) = some (literalText x) := rfl
      rw [List.filterMap_cons_some hprotocol, List.map_cons, List.getLast?_cons]
      rfl
    | port num h => rfl

theorem name_padded {str : Word} {o : NetObject} (ho : o.protocol = padded str)
    (hlt : str.length < 16) (hnul : nul ∉ str) : o.name = str := by
  have hpad : padded str = str ++ nul :: List.replicate (15 - str.length) nul := by
    rw [padded, List.take_append, List.take_of_length_le (Nat.le_of_lt hlt), List.take_replicate,
      ← List.replicate_succ]
    congr 2
    omega
  rw [NetObject.name, ho, hpad, cstr, List.append_assoc, List.append_assoc, List.cons_append,
    List.takeWhile_append_of_pos, List.takeWhile_cons_of_neg, List.append_nil]
  · simp
  · intro c hc
    rw [decide_eq_true_eq]
    exact fun heq => hnul (heq ▸ hc)

theorem length_of_strcasecmp {a b : Word} (h : strcasecmp a b = true) : a.length = b.length := by
  have hlen := congrArg List.length (eq_of_beq h)
  rwa [List.length_map, List.length_map] at hlen

theorem nul_notMem_of_strcasecmp {a : Word} {proto : Protocol}
    (h : strcasecmp a proto.name = true) : nul ∉ a := by
  intro hmem
  have hlower : nul.toLower ∈ a.map Char.toLower := List.mem_map_of_mem hmem
  rw [eq_of_beq h] at hlower
  cases proto <;> exact absurd hlower (by decide)

/-- **The object that a rule asks about**: the last arguments count, and the protocol is `tcp` when
there is none. -/
theorem network_defaulted {args : List NetArg} {proto : Protocol}
    (h : strcasecmp (NetArg.protocolOf args) proto.name = true) :
    (args.foldl NetArg.set newNetObject).defaulted.network =
      ⟨NetArg.protocolOf args, NetArg.portOf args⟩ := by
  have hport := foldl_set_port args newNetObject
  have hprotocol : (args.foldl NetArg.set newNetObject).protocol =
      padded ((args.filterMap NetArg.protocol?).getLast?.getD []) := by
    rw [foldl_set_protocol, List.getLast?_map]
    cases (args.filterMap NetArg.protocol?).getLast? <;> rfl
  rw [NetArg.protocolOf] at h ⊢
  generalize args.foldl NetArg.set newNetObject = o at hport hprotocol ⊢
  generalize (args.filterMap NetArg.protocol?).getLast?.getD [] = str at h hprotocol ⊢
  split at h
  · rename_i hempty
    subst hempty
    have hname : o.name = [] := name_padded hprotocol (by decide) List.not_mem_nil
    have htcp : (o.defaulted).name = ['t', 'c', 'p'] := by
      rw [NetObject.defaulted, if_pos hname, NetObject.name, cstr]
      rfl
    rw [if_pos rfl, NetObject.network, htcp, NetObject.defaulted, if_pos hname, NetArg.portOf]
    exact congrArg _ hport
  · rename_i hne
    have hlen := length_of_strcasecmp h
    have hlt : str.length < 16 := by cases proto <;> exact hlen.trans_lt (by decide)
    have hname : o.name = str := name_padded hprotocol hlt (nul_notMem_of_strcasecmp h)
    rw [if_neg hne, NetObject.defaulted, if_neg (hname ▸ hne), NetObject.network, hname,
      NetArg.portOf]
    exact congrArg _ hport

/-! ## Executing a rule -/

/-- The table of `tcp` is `rows`, or it will be when it is loaded; `live` are the objects. -/
structure NetSnapshot (rows : List NetStateRow) (live : List ℕ) (env : Env NetWorld) : Prop where
  rows : (if env.1.netInitialized then env.1.tcpStats
    else NetWorld.loadStats env.1.files.tcp env.1.tcpStats) = rows
  live : env.1.live = live
  malloc : ∀ n, env.1.malloc n = true

/-- The table is loaded. -/
structure NetLoaded (rows : List NetStateRow) (live : List ℕ) (env : Env NetWorld) : Prop extends
    NetSnapshot rows live env where
  initialized : env.1.netInitialized = true

/-- A rule has made an object. -/
structure NetHolding (rows : List NetStateRow) (live : List ℕ) (handle : ℕ) (o : NetObject)
    (env : Env NetWorld) : Prop extends NetSnapshot rows (handle :: live) env where
  object : env.1.objects handle = o

/-- The object is executed. -/
structure NetExecuted (rows : List NetStateRow) (live : List ℕ) (handle : ℕ) (o : NetObject)
    (env : Env NetWorld) : Prop extends NetHolding rows live handle o env where
  initialized : env.1.netInitialized = true

/-- The descriptor of an argument. -/
def NetArg.stub : NetArg → LrcStubArg (Env NetWorld) ℕ D
  | protocol _ _ => ⟨['p', 'r', 'o', 't', 'o', 'c', 'o', 'l'], argProtocolHandler⟩
  | port _ _ => ⟨['p', 'o', 'r', 't'], argPortHandler⟩

/-- The descriptor of the expression. -/
def listenStub : LrcStubExpr (Env NetWorld) ℕ D := ⟨['l', 'i', 's', 't', 'e', 'n'], listenHandler⟩

/-- The expression, with its stub. -/
def NetListen.resolved (kstub : ℕ) (listen : NetListen) :
    ResolvedItem (KeywordStub (Env NetWorld) ℕ D) :=
  .expr (memberStub kstub (.expr listenStub)) listen.op (literalVals (.ident listen.num))

/-- The stub of the component. -/
abbrev networkStub (D : Type) (kstub : ℕ) : KeywordStub (Env NetWorld) ℕ D :=
  entryStub (.func networkFunc) kstub

/-- The atom, with its stubs. -/
def NetAtom.resolved (kstub : ℕ) (atom : NetAtom) : ResolvedItem (KeywordStub (Env NetWorld) ℕ D) :=
  .func (networkStub D kstub)
    (argsResolved (fun arg => memberStub kstub (.arg arg.stub)) NetArg.literal atom.args)
    (atom.body.resolved (NetListen.resolved kstub))

section Execute

variable {R : Doubles D} {kstub depth handle : ℕ} {stk : List ℕ} {rows : List NetStateRow}
  {live : List ℕ} {o : NetObject}

theorem NetHolding.setObject {env : Env NetWorld} (h : NetHolding rows live handle o env)
    (o' : NetObject) : NetHolding rows live handle o' (env.1.setObject handle o', env.2) :=
  ⟨⟨h.rows, h.live, h.malloc⟩, Function.update_self ..⟩

theorem NetExecuted.setObject {env : Env NetWorld} (h : NetExecuted rows live handle o env)
    (o' : NetObject) (strs : List Word) :
    NetExecuted rows live handle o' (env.1.setObject handle o', strs) :=
  ⟨⟨⟨h.rows, h.live, h.malloc⟩, Function.update_self ..⟩, h.initialized⟩

theorem yields_netArg (o : NetObject) (arg : NetArg) :
    Yields depth (handle :: stk) (NetHolding rows live handle o)
      (executeArg (stubCallbacks (D := D)) handle (memberStub kstub (.arg arg.stub)) (do
        let handle ← execCtxGetHandle
        executeValLoop stubCallbacks R handle (literalVals arg.literal) .reserved .init))
      fun r env => r = (0, lreRetOk) ∧ NetHolding rows live handle (arg.set o) env := by
  cases arg with
  | protocol x h =>
    have hval := @val2lreValue_literalText _ R x h
    refine .arg rfl (.literal x .reserved (by rw [hval]; intro h; cases h)) ?_
    intro env henv
    rw [hval]
    refine ⟨rfl, ?_⟩
    have hset := henv.setObject (o.setProtocol (literalText x))
    rw [← henv.object] at hset ⊢
    exact hset
  | port num h =>
    have hval : val2lreValue R (NetArg.port num h).literal.cstr = .int (atoi num) :=
      val2lreValue_number h
    have hne : val2lreValue R (NetArg.port num h).literal.cstr ≠ .unknown := by
      rw [hval]
      intro h
      cases h
    refine .arg rfl (.literal _ .reserved hne) ?_
    intro env henv
    rw [hval]
    refine ⟨rfl, ?_⟩
    have hset := henv.setObject { o with port := atoi num }
    rw [← henv.object] at hset ⊢
    exact hset

theorem yields_listen {proto : Protocol} (hproto : strcasecmp o.network.protocol proto.name = true)
    (hport : vaildPort o.network.port = true) (listen : NetListen) :
    Yields depth (handle :: stk) (NetExecuted rows live handle o)
      (executeItem stubCallbacks R (listen.resolved (D := D) kstub))
      fun ret env => ret = verdict (listen.val
        (proto.found (rows.map NetStateRow.toNetState) o.network.port)) ∧
        NetExecuted rows live handle o env := by
  have hval := @val2lreValue_number _ R listen.num listen.isNumber
  rw [NetListen.resolved, executeItem]
  refine .expr rfl (by rw [Lexeme.cstr, hval]; intro h; cases h) ?_
  intro env henv
  have hrows : env.1.info.tcpStats = rows.map NetStateRow.toNetState := by
    have hrows := henv.rows
    rw [if_pos henv.initialized] at hrows
    rw [NetWorld.info, hrows]
  rw [Lexeme.cstr, hval]
  refine ⟨?_, ⟨⟨henv.rows, henv.live, henv.malloc⟩, henv.object⟩, henv.initialized⟩
  show ((env.1.objects handle).network.exprListenHandler env.1.info listen.op
    (some ⟨.int (atoi listen.num), none⟩)).1.toInt = _
  rw [henv.object, exprListenHandler_fst hproto hport, toInt_lreCompareInt listen.isComp, hrows,
    found_eq]
  rfl

theorem yields_listens {proto : Protocol} (hproto : strcasecmp o.network.protocol proto.name = true)
    (hport : vaildPort o.network.port = true) (body : Formula NetListen) :
    Yields depth (handle :: stk) (NetExecuted rows live handle o)
      (executeChildsLoop stubCallbacks R (body.resolved (NetListen.resolved (D := D) kstub))
        .reserved valUninitialized)
      fun ret env => ret = verdict (body.eval (NetListen.val
        (proto.found (rows.map NetStateRow.toNetState) o.network.port))) ∧
        NetExecuted rows live handle o env :=
  yields_formula (yields_listen hproto hport) (yields_listen hproto hport) body

theorem networkConstructor_holding {env : Env NetWorld} (h : NetSnapshot rows live env) :
    ∃ handle, (networkConstructor env).1 = some handle ∧
      NetHolding rows live handle newNetObject (networkConstructor env).2 := by
  rw [networkConstructor, if_pos (h.malloc _)]
  exact ⟨env.1.next, rfl, ⟨h.rows, congrArg _ h.live, h.malloc⟩, Function.update_self ..⟩

theorem networkExec_executed {env : Env NetWorld} (h : NetHolding rows live handle o env) :
    NetExecuted rows live handle o.defaulted (networkExec handle env).2 := by
  have hrows := h.rows
  rw [networkExec]
  by_cases hinit : env.1.netInitialized = true
  · rw [if_pos hinit, h.object]
    exact NetExecuted.setObject ⟨h, hinit⟩ _ _
  · rw [if_neg hinit] at hrows ⊢
    have hload : NetExecuted rows live handle o (env.1.networkInfoLoad, env.2) :=
      ⟨⟨⟨hrows, h.live, h.malloc⟩, h.object⟩, rfl⟩
    rw [show env.1.networkInfoLoad.objects handle = o from h.object]
    exact hload.setObject _ _

theorem networkDestructor_loaded {env : Env NetWorld} (h : NetExecuted rows live handle o env) :
    NetLoaded rows live (networkDestructor handle env) := by
  refine ⟨⟨h.rows, ?_, h.malloc⟩, h.initialized⟩
  show env.1.live.erase handle = live
  rw [h.live, List.erase_cons_head]

/-- **An atom has its truth value**, and gives its object back. -/
theorem yields_netAtom (atom : NetAtom) (hroom : stk.length + execStackGap < depth) :
    Yields depth stk (NetSnapshot rows live)
      (executeItem stubCallbacks R (atom.resolved (D := D) kstub))
      fun ret env => ret = verdict (atom.val rows) ∧ NetLoaded rows live env := by
  have hnetwork := network_defaulted atom.proto_eq
  generalize hargs : atom.args.foldl NetArg.set newNetObject = o at hnetwork
  have hproto : strcasecmp o.defaulted.network.protocol atom.proto.name = true := by
    rw [hnetwork]
    exact atom.proto_eq
  have hport : vaildPort o.defaulted.network.port = true := by
    rw [hnetwork]
    exact atom.vaildPort
  have hbody : ∀ handle, Yields depth (handle :: stk) (NetExecuted rows live handle o.defaulted)
      (executeChildsLoop stubCallbacks R (atom.body.resolved (NetListen.resolved (D := D) kstub))
        .reserved valUninitialized)
      fun ret env => ret = verdict (atom.val rows) ∧
        NetExecuted rows live handle o.defaulted env := by
    intro handle
    have hlistens := @yields_listens D R kstub depth handle stk rows live o.defaulted atom.proto
      hproto hport atom.body
    rw [hnetwork] at hlistens
    exact hlistens
  rw [NetAtom.resolved, executeItem]
  exact .func rfl hroom (fun _ => networkConstructor_holding)
    (fun handle => hargs ▸ yields_argsResolved yields_netArg atom.args newNetObject) rfl
    (fun _ _ henv => ⟨rfl, networkExec_executed henv⟩) hbody rfl
    fun _ _ => networkDestructor_loaded

end Execute

/-! ## The text of a rule -/

theorem NetListen.item_wf (listen : NetListen) : listen.item.WF :=
  ⟨trivial, listen.isComp, literalTree_wf _⟩

theorem NetAtom.item_wf (atom : NetAtom) : atom.item.WF :=
  ⟨trivial, ⟨argsTree_wf atom.args, (count_argsTree atom.args).trans_le atom.length_le⟩,
    atom.body.tree_wf NetListen.item_wf⟩

theorem networkFunc_distinct :
    ((StubData.func (networkFunc (D := D))).members.map StubData.keyword).Nodup := by
  show [['p', 'r', 'o', 't', 'o', 'c', 'o', 'l'], ['p', 'o', 'r', 't'],
    ['l', 'i', 's', 't', 'e', 'n']].Nodup
  decide

theorem semaniticParseItem_netAtom {tab : KeywordTable (Env NetWorld) ℕ D} {kstub : ℕ}
    {kwvec : Option (Slots ℕ)} (h : RootEntry tab (.func networkFunc) kstub)
    (hfind : semanticFindKeystub tab kwvec (networkFunc (D := D)).keyword =
      some (networkStub D kstub)) (atom : NetAtom) :
    semaniticParseItem (fun _ => []) tab kwvec atom.item = some (atom.resolved kstub) := by
  have hargs : ∀ arg : NetArg, StubData.arg (arg.stub (D := D)) ∈
      (StubData.func networkFunc).members := by
    intro arg
    cases arg with
    | protocol x h => exact .head _
    | port num h => exact .tail _ (.head _)
  have hkey : ∀ arg : NetArg, (arg.stub (D := D)).keyword = arg.keyword := by
    intro arg
    cases arg <;> rfl
  have hlisten : ∀ listen : NetListen, semaniticParseItem (fun _ => []) tab
      (networkStub D kstub).subvec listen.item = some (listen.resolved kstub) :=
    fun listen => semaniticParseItem_exprTree h networkFunc_distinct (.tail _ (.tail _ (.head _)))
      listen.op (.ident listen.num)
  exact semaniticParseItem_funcTree hfind
    (semaniticParseArgs_argsTree h networkFunc_distinct hargs hkey atom.args)
    (semaniticParseChilds_tree hlisten atom.body)

/-! ## Verdicts -/

/-- The rows that a rule is about. -/
def NetWorld.sockets (w : NetWorld) : List NetStateRow :=
  if w.netInitialized then w.tcpStats else loadStats w.files.tcp w.tcpStats

/-- Rules that are executed one after the other, each with the files as they are by then: their
results, and what is left. -/
def executions (E : Engine NetWorld ℕ D) (n : ℕ) :
    List (NetFiles × Word) → NetWorld → Except ExecuteFault (List ℤ × NetWorld)
  | [], w => .ok ([], w)
  | (files, code) :: runs, w => do
    let (ret, env) ← ruleRun E n code { w with files := files }
    let (rets, w) ← executions E n runs env.1
    return (ret :: rets, w)

section Verdict

variable {E : Engine NetWorld ℕ D} {code : Word} {formula : Formula NetAtom} {w : NetWorld}
  {rows : List NetStateRow} {live : List ℕ}

theorem ruleRun_network (h : E.Has (.func networkFunc)) (hcode : Spells NetAtom.item code formula)
    (hw : NetSnapshot rows live (w, [])) (n : ℕ) :
    ∃ env, ruleRun E (n + 1) code w = .ok (verdict (formula.eval (NetAtom.val rows)), env) ∧
      NetLoaded rows live env := by
  obtain ⟨kstub, hentry, hfind⟩ := h.find
  have hroom : ([] : List ℕ).length + execStackGap < defaultStacksSize := by decide
  have hfirst : ∀ a, Yields defaultStacksSize [] (NetSnapshot rows live)
      (executeItem stubCallbacks E.doubles (NetAtom.resolved (D := D) kstub a))
      fun ret env => ret = verdict (a.val rows) ∧ NetLoaded rows live env :=
    fun a => yields_netAtom a hroom
  have hatom := fun a =>
    (hfirst a).mono (fun _ henv => NetLoaded.toNetSnapshot henv) fun _ _ hq => hq
  exact ruleRun_formula hcode (fun _ => ⟨_, rfl⟩) h.tbl NetAtom.item_wf (fun _ => rfl)
    (semaniticParseItem_netAtom hentry hfind) (yields_formula hatom hfirst formula) hw n

/-- **The verdict of a rule about sockets is the truth value of the proposition that it spells.** -/
theorem rule_network (h : E.Has (.func networkFunc)) (hcode : Spells NetAtom.item code formula)
    (hmalloc : ∀ n, w.malloc n = true) (n : ℕ) :
    ∃ details, rule E (n + 1) code w =
      .ok (verdict (formula.eval (NetAtom.val w.sockets)), details) := by
  obtain ⟨env, hrun, -⟩ := ruleRun_network h hcode ⟨rfl, rfl, hmalloc⟩ n
  rw [rule_eq, hrun]
  exact ⟨_, rfl⟩

/-- An engine with the component, and no macros. -/
def netEngine : Engine NetWorld ℕ Unit where
  tab := registerModules [networkModule]
  tbl := .empty
  doubles := unitDoubles

theorem netEngine_has : netEngine.Has (.func networkFunc) := by
  refine ⟨⟨[.func networkFunc], ?_, by simp, .head _⟩, rfl⟩
  show (lrcModuleRegister networkModule lreKeywordInit).2 = _
  rw [lrcModuleRegister_eq]
  rfl

/-- `listen==1` -/
def listens : NetListen := ⟨.equal, ['1'], rfl, isDigit_iff.mp rfl⟩

/-- `network(port=22){listen==1}` -/
def port22 : NetAtom where
  args := [.port ['2', '2'] (isDigit_iff.mp rfl)]
  body := .last (.atom listens)
  length_le := by decide
  proto := .tcp
  proto_eq := by decide
  vaildPort := by decide

/-- The text of the rule. -/
def port22Rule : Word :=
  ['n', 'e', 't', 'w', 'o', 'r', 'k', '(', 'p', 'o', 'r', 't', '=', '2', '2', ')', '{', 'l', 'i',
    's', 't', 'e', 'n', '=', '=', '1', '}']

theorem spells_port22 : Spells NetAtom.item port22Rule (.last (.atom port22)) := ⟨rfl, by decide⟩

/-- A component that has loaded a table with port 22, and one that has loaded none. -/
def netWorld (netInitialized : Bool) : NetWorld where
  files := ⟨none, none⟩
  tcpStats := [⟨⟨22, 0x0A⟩, 0, 0, 0⟩]
  udpStats := []
  netInitialized := netInitialized
  objects _ := newNetObject
  live := []
  next := 0
  malloc _ := true

/-- With port 22 in the table the rule holds. -/
theorem rule_network_port22 :
    ∃ details, rule netEngine 1 port22Rule (netWorld true) = .ok (1, details) := by
  have h := rule_network netEngine_has spells_port22 (w := netWorld true) (fun _ => rfl) 0
  have hval :
      verdict ((Formula.last (.atom port22)).eval (NetAtom.val (netWorld true).sockets)) = 1 := by
    decide
  rwa [hval] at h

theorem executions_cons {files : NetFiles} {runs : List (NetFiles × Word)} {n : ℕ} {ret : ℤ}
    {rets : List ℤ} {env : Env NetWorld} {w' : NetWorld}
    (h : ruleRun E n code { w with files := files } = .ok (ret, env))
    (hruns : executions E n runs env.1 = .ok (rets, w')) :
    executions E n ((files, code) :: runs) w = .ok (ret :: rets, w') := by
  rw [executions, h]
  show (do
    let p ← executions E n runs env.1
    Except.ok (ret :: p.1, p.2)) = _
  rw [hruns]
  rfl

theorem executions_loaded (h : E.Has (.func networkFunc)) (n : ℕ) {runs : List (NetFiles × Word)}
    {formulas : List (Formula NetAtom)}
    (hruns : List.Forall₂ (fun run formula => Spells NetAtom.item run.2 formula) runs formulas)
    (hw : NetLoaded rows live (w, [])) : ∃ w',
      executions E (n + 1) runs w =
          .ok (formulas.map fun formula => verdict (formula.eval (NetAtom.val rows)), w') ∧
        NetLoaded rows live (w', []) := by
  induction hruns generalizing w with
  | nil => exact ⟨w, rfl, hw⟩
  | @cons run formula runs formulas hcode _ ih =>
    have hfiles : NetSnapshot rows live ({ w with files := run.1 }, []) := by
      refine ⟨?_, hw.live, hw.malloc⟩
      have hrows := hw.rows
      rw [if_pos hw.initialized] at hrows
      exact (if_pos hw.initialized).trans hrows
    obtain ⟨env, hrun, hloaded⟩ := ruleRun_network h hcode hfiles n
    obtain ⟨w', hrest, hleft⟩ := @ih env.1 ⟨⟨hloaded.rows, hloaded.live, hloaded.malloc⟩,
      hloaded.initialized⟩
    exact ⟨w', executions_cons hrun hrest, hleft⟩

/-- **All verdicts are about the sockets that the first rule found**, whatever the files say later;
and no object is left behind. -/
theorem executions_network (h : E.Has (.func networkFunc)) (n : ℕ) {header : Word}
    {ps : List ProcLine} {files : NetFiles} {runs : List (NetFiles × Word)}
    {formulas : List (Formula NetAtom)}
    (hfiles : files.tcp = some (procText header ps, procText header ps)) (hheader : '\n' ∉ header)
    (hps : ∀ p ∈ ps, p.WF) (hcode : Spells NetAtom.item code formula)
    (hruns : List.Forall₂ (fun run formula => Spells NetAtom.item run.2 formula) runs formulas)
    (hinit : w.netInitialized = false) (hmalloc : ∀ n, w.malloc n = true) : ∃ w',
      executions E (n + 1) ((files, code) :: runs) w =
          .ok ((formula :: formulas).map fun formula =>
            verdict (formula.eval (NetAtom.val (ps.map ProcLine.row))), w') ∧
        w'.live = w.live := by
  have hrows : NetWorld.loadStats files.tcp w.tcpStats = ps.map ProcLine.row := by
    rw [hfiles, NetWorld.loadStats]
    exact tableRows_eq (stateLoad_procText hheader hps)
  have hsnapshot : NetSnapshot (ps.map ProcLine.row) w.live ({ w with files := files }, []) :=
    ⟨(if_neg (by rw [hinit]; exact Bool.false_ne_true)).trans hrows, rfl, hmalloc⟩
  obtain ⟨env, hrun, hloaded⟩ := ruleRun_network h hcode hsnapshot n
  obtain ⟨w', hrest, hleft⟩ := executions_loaded h n hruns (w := env.1)
    ⟨⟨hloaded.rows, hloaded.live, hloaded.malloc⟩, hloaded.initialized⟩
  exact ⟨w', executions_cons hrun hrest, hleft.live⟩

/-- A socket that listens at port 22. -/
def line22 : ProcLine := ⟨3, ['0'], 0, 22, 0, 0, 0x0A, []⟩

/-- `/proc/net/tcp` with that socket. -/
def files22 : NetFiles := ⟨some (procText [] [line22], procText [] [line22]), none⟩

/-- Port 22 is open when the first rule is executed. The second one finds it open, though by then
the file is gone. -/
theorem executions_network_port22 : ∃ w',
    executions netEngine 1 [(files22, port22Rule), (⟨none, none⟩, port22Rule)] (netWorld false) =
        .ok ([1, 1], w') ∧ w'.live = [] := by
  have hfiles : files22.tcp = some (procText [] [line22], procText [] [line22]) := rfl
  have hsl : line22.sl ≠ [] ∧ ∀ c ∈ line22.sl, c.isDigit = true :=
    ⟨nofun, List.forall_mem_singleton.mpr rfl⟩
  have hline : line22.WF :=
    ⟨hsl, by decide, by decide, by decide, by decide, by decide, by decide, by decide⟩
  have hruns : List.Forall₂
      (fun (run : NetFiles × Word) formula => Spells NetAtom.item run.2 formula)
      [(⟨none, none⟩, port22Rule)] [.last (.atom port22)] := .cons spells_port22 .nil
  have hinit : (netWorld false).netInitialized = false := rfl
  obtain ⟨w', hresults, hlive⟩ := executions_network netEngine_has 0 hfiles
    List.not_mem_nil (List.forall_mem_singleton.mpr hline) spells_port22 hruns hinit fun _ => rfl
  have hval : verdict ((Formula.last (.atom port22)).eval (NetAtom.val [line22.row])) = 1 := by
    decide
  refine ⟨w', hresults.trans ?_, hlive⟩
  simp only [List.map_cons, List.map_nil, hval]

end Verdict

end Lre
