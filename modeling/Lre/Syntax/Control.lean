import Lre.Syntax.Pool
import Mathlib.Computability.StateTransition

/-!
# The control of the parser

The recursive descent as a pushdown automaton that reads the tokens from left to right.

* `Control`: what is read next, what it goes back to, and the tokens left. The automaton builds
  nothing; it counts the nodes of the values in hand, and the nodes of values that were given up.
* `Control.Strays`: the automaton is in front of a branch on which the parser goes on although the
  rule grammar does not.
* `Ledger`: book-keeping over a node pool, with the nodes that are in hand.
* `syntaxParseVal_control`, `syntaxParseBlock'_control`: the parser follows its control.
* **`interpSyntaxParse_total_iff`**: the parser returns, with its index inside the token list,
  exactly when the control comes to no call whose list it cannot look into.
-/

namespace Lre

open Run StateTransition

/-! ## The automaton -/

/-- Whose argument list is read. A call stands in a value that holds `held` nodes. -/
inductive ArgsOf
  | func
  | call (held : ℕ)
  deriving DecidableEq, Repr

/-- What the control goes back to. -/
inductive Frame
  /-- the value of an expression -/
  | expr
  /-- a parenthesised value, in a value that holds `held` nodes -/
  | valblock (held : ℕ)
  /-- the value of an argument; the list has `slots` slots left and holds `filled` nodes -/
  | arg (owner : ArgsOf) (slots filled : ℕ)
  /-- the items of a block -/
  | block
  /-- the items of a function body -/
  | body
  deriving DecidableEq, Repr

/-- What the control does next. -/
inductive Mode
  /-- in front of an item -/
  | items
  /-- behind an item -/
  | item
  | itemsEnd
  /-- in front of an operand -/
  | val (held : ℕ)
  /-- behind an operand -/
  | operand (held : ℕ)
  /-- the value is complete, or given up -/
  | valEnd (ok : Bool) (held : ℕ)
  /-- behind the opening bracket of an argument list -/
  | argsBegin (owner : ArgsOf)
  /-- in front of an argument -/
  | args (owner : ArgsOf) (slots filled : ℕ)
  /-- the list is complete, or given up -/
  | argsEnd (ok : Bool) (owner : ArgsOf) (filled : ℕ)
  | accept
  | reject
  deriving DecidableEq, Repr

/-- A state of the automaton. -/
structure Control where
  mode : Mode
  stack : List Frame
  toks : List Token
  /-- the nodes of values that were given up -/
  dropped : ℕ
  deriving DecidableEq, Repr

namespace Control

/-- An operand of one word. -/
def word (held : ℕ) (st : List Frame) (ts : List Token) (d : ℕ) : Control :=
  match ts.head?.bind Token.keyword? with
  | none => ⟨.valEnd false held, st, ts.tail, d⟩
  | some _ => ⟨.operand (held + 1), st, ts.tail, d⟩

/-- One step of the automaton. -/
def step : Control → Option Control
  | ⟨.items, st, ts, d⟩ =>
    match exprType ts.head? ts.tail.head? with
    | .eof => some ⟨.itemsEnd, st, ts, d⟩
    | .unknown => some ⟨.reject, st, ts, d⟩
    | .func =>
      match ts.tail.head?.bind Token.bracket? with
      | some .startParenthesis => some ⟨.argsBegin .func, st, ts.tail.tail, d⟩
      | some .startBrace => some ⟨.items, .body :: st, ts.tail.tail, d⟩
      | _ => some ⟨.reject, st, ts.tail.tail, d⟩
    | .negBlock => some ⟨.items, .block :: st, ts.tail.tail, d⟩
    | .block => some ⟨.items, .block :: st, ts.tail, d⟩
    | .normal =>
      if getSymbolType (ts.tail.head?.bind Token.operator?) = .optComp then
        some ⟨.val 0, .expr :: st, ts.tail.tail, d⟩
      else some ⟨.reject, st, ts.tail.tail, d⟩
  | ⟨.item, st, ts, d⟩ =>
    match ts.head?.bind Token.operator? with
    | some opt =>
      if getSymbolType (some opt) = .optLogic then some ⟨.items, st, ts.tail, d⟩
      else some ⟨.reject, st, ts.tail, d⟩
    | none =>
      match ts.head?.bind Token.endBracket? with
      | some _ => some ⟨.itemsEnd, st, ts, d⟩
      | none => some ⟨.items, st, ts, d⟩
  | ⟨.itemsEnd, [], ts, d⟩ => some ⟨.accept, [], ts, d⟩
  | ⟨.itemsEnd, .block :: st, ts, d⟩ =>
    match ts.head?.bind Token.endBracket? with
    | some .endParenthesis => some ⟨.item, st, ts.tail, d⟩
    | _ => some ⟨.reject, st, ts.tail, d⟩
  | ⟨.itemsEnd, .body :: st, ts, d⟩ =>
    match ts.head?.bind Token.endBracket? with
    | some .endBrace => some ⟨.item, st, ts.tail, d⟩
    | _ => some ⟨.reject, st, ts.tail, d⟩
  | ⟨.val held, st, ts, d⟩ =>
    match exprValType ts.head? ts.tail.head? with
    | .block => some ⟨.val 0, .valblock held :: st, ts.tail, d⟩
    | .call =>
      match ts.tail.tail.tail.head? with
      | none => none
      | some (.symbol .startParenthesis) => some ⟨.operand (held + 1), st, ts.tail.tail, d⟩
      | some _ => some ⟨.argsBegin (.call held), st, ts.tail.tail, d⟩
    | .var => some (word held st ts.tail d)
    | .normal => some (word held st ts d)
    | .unknown => some ⟨.valEnd false held, st, ts, d⟩
  | ⟨.operand held, st, ts, d⟩ =>
    if getSymbolType (ts.head?.bind Token.operator?) = .optArith then
      some ⟨.val held, st, ts.tail, d⟩
    else some ⟨.valEnd true held, st, ts, d⟩
  | ⟨.valEnd true _, .expr :: st, ts, d⟩ => some ⟨.item, st, ts, d⟩
  | ⟨.valEnd false _, .expr :: st, ts, d⟩ => some ⟨.reject, st, ts, d⟩
  | ⟨.valEnd _ held, .valblock outer :: st, ts, d⟩ =>
    match ts.head?.bind Token.endBracket? with
    | some .endParenthesis => some ⟨.operand (outer + (held + 1)), st, ts.tail, d⟩
    | _ => some ⟨.valEnd false outer, st, ts.tail, d + held⟩
  | ⟨.valEnd true held, .arg owner slots filled :: st, ts, d⟩ =>
    if ts.head? = some (.symbol .comma) then
      some ⟨.args owner slots (filled + held), st, ts.tail, d⟩
    else
      match ts.head?.bind Token.endBracket? with
      | some .endParenthesis => some ⟨.argsEnd true owner (filled + held), st, ts.tail, d⟩
      | _ => some ⟨.args owner slots (filled + held), st, ts, d⟩
  | ⟨.valEnd false held, .arg owner _ filled :: st, ts, d⟩ =>
    some ⟨.argsEnd false owner (filled + held), st, ts, d⟩
  | ⟨.argsBegin owner, st, ts, d⟩ =>
    match ts.head?.bind Token.endBracket? with
    | some .endParenthesis => some ⟨.argsEnd true owner 0, st, ts.tail, d⟩
    | _ => some ⟨.args owner syntaxArgMax 0, st, ts, d⟩
  | ⟨.args owner 0 filled, st, ts, d⟩ => some ⟨.argsEnd true owner filled, st, ts, d⟩
  | ⟨.args owner (slots + 1) filled, st, ts, d⟩ =>
    match ts.head?.bind Token.keyword? with
    | none => some ⟨.argsEnd false owner filled, st, ts.tail, d⟩
    | some _ =>
      if getSymbolType (ts.tail.head?.bind Token.operator?) = .optAssign then
        some ⟨.val 0, .arg owner slots filled :: st, ts.tail.tail, d⟩
      else some ⟨.argsEnd false owner filled, st, ts.tail.tail, d⟩
  | ⟨.argsEnd true (.call held) filled, st, ts, d⟩ =>
    some ⟨.operand (held + (filled + 1)), st, ts, d⟩
  | ⟨.argsEnd false (.call held) filled, st, ts, d⟩ =>
    some ⟨.valEnd false held, st, ts, d + filled⟩
  | ⟨.argsEnd true .func _, st, ts, d⟩ =>
    match ts.head?.bind Token.bracket? with
    | some .startBrace => some ⟨.items, .body :: st, ts.tail, d⟩
    | _ => some ⟨.reject, st, ts.tail, d⟩
  | ⟨.argsEnd false .func _, st, ts, d⟩ => some ⟨.reject, st, ts, d⟩
  | _ => none

/-- The automaton in front of a rule. -/
def start (ts : List Token) : Control := ⟨.items, [], ts, 0⟩

/-- The branches on which the parser goes on although the rule grammar does not. -/
def straying : Mode → List Frame → List Token → Bool
  | .item, _, ts =>
    match ts.head?.bind Token.operator? with
    -- `!` between two items, or an operator behind the last one
    | some opt => opt = .not || ts.tail.head?.isNone
    -- two items without an operator
    | none => (ts.head?.bind Token.endBracket?).isNone && ts.head?.isSome
  | .itemsEnd, [], ts => ts.head?.isSome
  | .val _, _, ts =>
    match exprValType ts.head? ts.tail.head? with
    -- the list of the call is skipped
    | .call => ts.tail.tail.tail.head? = some (.symbol .startParenthesis)
    | .var => (ts.tail.head?.bind Token.keyword?).any Lexeme.isQuoted
    | _ => false
  | .valEnd ok _, .valblock _ :: _, _ => !ok
  | .valEnd true _, .arg _ _ _ :: _, ts =>
    ts.head? ≠ some (.symbol .comma) ∧ ts.head?.bind Token.endBracket? ≠ some .endParenthesis
  | .args _ 0 _, _, _ => true
  | .args _ (_ + 1) _, _, ts => (ts.head?.bind Token.keyword?).any Lexeme.isQuoted
  | _, _, _ => false

/-- The automaton is in front of a branch outside the grammar. -/
def Strays (c : Control) : Prop := straying c.mode c.stack c.toks

instance (c : Control) : Decidable c.Strays := by unfold Strays; infer_instance

/-- The automaton that stops in front of these branches. -/
def straight (c : Control) : Option Control := if c.Strays then none else c.step

end Control

/-! ## Book-keeping -/

/-- Book-keeping over a node pool: `Holds pool ns d` when the nodes `ns` are in hand, and `d` others
are not in the pool either. -/
structure Ledger {π μ : Type} (P : NodePool π μ) where
  Holds : π → List μ → ℕ → Prop
  alloc {p : π} {ns : List μ} {d : ℕ} (h : Holds p ns d) :
    Holds (P.memAlloc p).2 ((P.memAlloc p).1 :: ns) d
  free {p : π} {m : μ} {ns : List μ} {d : ℕ} (h : Holds p (m :: ns) d) : Holds (P.memFree m p) ns d
  setCount {p : π} {m : μ} {ns : List μ} {d : ℕ} (k : ℕ) (h : Holds p (m :: ns) d) :
    Holds p (P.setCount k m :: ns) d
  perm {p : π} {ns ns' : List μ} {d : ℕ} (hp : ns.Perm ns') (h : Holds p ns d) : Holds p ns' d
  lose {p : π} {ms ns : List μ} {d : ℕ} (h : Holds p (ms ++ ns) d) : Holds p ns (d + ms.length)

/-- No book-keeping. -/
def Ledger.none {π μ : Type} (P : NodePool π μ) : Ledger P where
  Holds _ _ _ := True
  alloc _ := trivial
  free _ := trivial
  setCount _ _ := trivial
  perm _ _ := trivial
  lose _ := trivial

/-! ## The parser follows its control -/

/-- The control comes to a call with fewer than two tokens behind its bracket. -/
def ShortCall (c₀ : Control) : Prop := ∃ held st w ts d,
  Reaches Control.step c₀ ⟨.val held, st, .key w :: .symbol .startParenthesis :: ts, d⟩ ∧
    ts.length < 2

/-- The tokens in front of `c₀` lead to a branch outside the grammar, or there are none. -/
def Stray (c₀ : Control) : Prop := c₀.toks = [] ∨ ∃ c, Reaches Control.step c₀ c ∧ c.Strays

/-- The control comes from `c₀` to `c`, and the parser has recorded `slips` on the way. -/
structure ControlRun (c₀ c : Control) (slips : List Slip) : Prop where
  reaches : Reaches Control.step c₀ c
  straight : slips = [] → c₀.toks ≠ [] ∧ Reaches Control.straight c₀ c
  stray : slips ≠ [] → Stray c₀

theorem ControlRun.step {c₀ c c' : Control} {slips slips' : List Slip} (h : ControlRun c₀ c slips)
    (hstep : c.step = some c') (hslips : slips' = [] ↔ ¬c.Strays ∧ slips = []) :
    ControlRun c₀ c' slips' := by
  refine ⟨h.reaches.tail hstep, fun hnil => ?_, fun hne => ?_⟩
  · obtain ⟨hstay, hprev⟩ := hslips.mp hnil
    obtain ⟨htoks, hr⟩ := h.straight hprev
    refine ⟨htoks, hr.tail ?_⟩
    rw [Control.straight, if_neg hstay]
    exact hstep
  · by_cases hstray : c.Strays
    · exact .inr ⟨c, h.reaches, hstray⟩
    · exact h.stray fun hprev => hne (hslips.mpr ⟨hstray, hprev⟩)

section Simulation

variable {π μ : Type} {P : NodePool π μ} (L : Ledger P) (c₀ : Control)

/-- The parser is where the control is, with the nodes `ns` in hand. -/
def At (m : Mode) (st : List Frame) (ns : List μ) (s : ParseState π) : Prop :=
  ∃ d, ControlRun c₀ ⟨m, st, s.toks, d⟩ s.slips ∧ L.Holds s.pool ns d

/-- The parser has failed, and so has the control; the nodes `ns` are still in hand. -/
def Gone (ns : List μ) (s : ParseState π) : Prop :=
  (∃ st d, Reaches Control.step c₀ ⟨.reject, st, s.toks, d⟩) ∧ ∃ d, L.Holds s.pool ns d

/-- Why the parser may stop. -/
def Stops (e : ParseFault) : Prop := e = .fuel ∨ ShortCall c₀

variable {L c₀} {m m' : Mode} {st st' : List Frame} {ns ns' : List μ} {s s' : ParseState π}

/-- The step to `s'` records a branch when the control strays, and only then. -/
def Records (m : Mode) (st : List Frame) (s s' : ParseState π) : Prop :=
  s'.slips = [] ↔ Control.straying m st s.toks = false ∧ s.slips = []

theorem Records.stay (hstay : Control.straying m st s.toks = false) (hslips : s'.slips = s.slips) :
    Records m st s s' := by
  rw [Records, hslips, hstay]
  exact (and_iff_right rfl).symm

theorem Records.note {b : Bool} {x : Slip} (hstray : Control.straying m st s.toks = b)
    (hslips : s'.slips = (s.note b x).slips) : Records m st s s' := by
  rw [Records, hslips, ParseState.note_slips_eq_nil, hstray]

theorem At.step (h : At L c₀ m st ns s) (s' : ParseState π) (hpool : s'.pool = s.pool)
    (hrec : Records m st s s')
    (hstep : ∀ d, Control.step ⟨m, st, s.toks, d⟩ = some ⟨m', st', s'.toks, d⟩) :
    At L c₀ m' st' ns s' := by
  obtain ⟨d, hr, hh⟩ := h
  exact ⟨d, hr.step (hstep d) (by simpa [Control.Strays, Records] using hrec), hpool ▸ hh⟩

theorem At.perm (h : At L c₀ m st ns s) (hp : ns.Perm ns') : At L c₀ m st ns' s := by
  obtain ⟨d, hr, hh⟩ := h
  exact ⟨d, hr, L.perm hp hh⟩

theorem At.reject (h : At L c₀ m st ns s) (s' : ParseState π) (hpool : s'.pool = s.pool)
    (hstep : ∀ d, Control.step ⟨m, st, s.toks, d⟩ = some ⟨.reject, st', s'.toks, d⟩) :
    Gone L c₀ ns s' := by
  obtain ⟨d, hr, hh⟩ := h
  exact ⟨⟨st', d, hr.reaches.tail (hstep d)⟩, d, hpool ▸ hh⟩

theorem Gone.lose {ms : List μ} (h : Gone L c₀ (ms ++ ns) s) : Gone L c₀ ns s :=
  ⟨h.1, h.2.imp' _ fun _ => L.lose⟩

theorem Gone.perm (h : Gone L c₀ ns s) (hp : ns.Perm ns') : Gone L c₀ ns' s :=
  ⟨h.1, h.2.imp fun _ => L.perm hp⟩

theorem Gone.free {x : μ} (h : Gone L c₀ (x :: ns) s) :
    Gone L c₀ ns { s with pool := P.memFree x s.pool } :=
  ⟨h.1, h.2.imp fun _ => L.free⟩

theorem At.alloc (h : At L c₀ m st ns s) :
    At L c₀ m st ((P.memAlloc s.pool).1 :: ns) { s with pool := (P.memAlloc s.pool).2 } := by
  obtain ⟨d, hr, hh⟩ := h
  exact ⟨d, hr, L.alloc hh⟩

theorem At.free {x : μ} (h : At L c₀ m st (x :: ns) s) :
    At L c₀ m st ns { s with pool := P.memFree x s.pool } := by
  obtain ⟨d, hr, hh⟩ := h
  exact ⟨d, hr, L.free hh⟩

theorem At.setCount {x : μ} (h : At L c₀ m st (x :: ns) s) (k : ℕ) :
    At L c₀ m st (P.setCount k x :: ns) s := by
  obtain ⟨d, hr, hh⟩ := h
  exact ⟨d, hr, L.setCount k hh⟩

theorem At.giveUp {ms : List μ} (h : At L c₀ m st (ms ++ ns) s) (s' : ParseState π)
    (hpool : s'.pool = s.pool) (hrec : Records m st s s')
    (hstep : ∀ d, Control.step ⟨m, st, s.toks, d⟩ = some ⟨m', st', s'.toks, d + ms.length⟩) :
    At L c₀ m' st' ns s' := by
  obtain ⟨d, hr, hh⟩ := h
  exact ⟨d + ms.length, hr.step (hstep d) (by simpa [Control.Strays, Records] using hrec),
    hpool ▸ L.lose hh⟩

theorem perm_middle {x : μ} {ms : List μ} : (ms ++ x :: ns).Perm (x :: (ms ++ ns)) :=
  List.perm_middle

theorem perm_append {xs ys : List μ} : (ys ++ (xs ++ ns)).Perm ((xs ++ ys) ++ ns) := by
  rw [← List.append_assoc]
  exact List.perm_append_comm.append_right ns

/-! ### Values -/

theorem Control.step_valblock (ok : Bool) (held outer : ℕ) (st : List Frame) (ts : List Token)
    (d : ℕ) : Control.step ⟨.valEnd ok held, .valblock outer :: st, ts, d⟩ =
      match ts.head?.bind Token.endBracket? with
      | some .endParenthesis => some ⟨.operand (outer + (held + 1)), st, ts.tail, d⟩
      | _ => some ⟨.valEnd false outer, st, ts.tail, d + held⟩ := by
  cases ok <;> rfl

variable (L c₀) in
/-- What `syntax_parse_val` leaves. -/
def AtVal (held : ℕ) (st : List Frame) (ns : List μ) (r : Bool × SyntaxVals μ)
    (s : ParseState π) : Prop :=
  At L c₀ (.valEnd r.1 (held + r.2.nodes.length)) st (r.2.nodes ++ ns) s

variable (L c₀) in
/-- What `syntax_parse_call` leaves. -/
def AtCall (held : ℕ) (st : List Frame) (ns : List μ) :
    Option (SyntaxVal μ) → ParseState π → Prop
  | none, s => At L c₀ (.valEnd false held) st ns s
  | some node, s => At L c₀ (.operand (held + node.nodes.length)) st (node.nodes ++ ns) s

variable (L c₀) in
/-- What the readers of an argument list leave; it holds `filled` nodes so far. -/
def AtArgs (owner : ArgsOf) (filled : ℕ) (st : List Frame) (ns : List μ) :
    Option (SyntaxArgs μ) → ParseState π → Prop
  | none, s => ∃ ms : List μ,
    At L c₀ (.argsEnd false owner (filled + ms.length)) st (ms ++ ns) s
  | some args, s =>
    At L c₀ (.argsEnd true owner (filled + args.nodes.length)) st (args.nodes ++ ns) s

variable {held : ℕ}

theorem wp_syntaxAddVal_control {node : SyntaxVal μ} {more : Parse π (Bool × SyntaxVals μ)}
    (h : At L c₀ (.operand (held + node.nodes.length)) st (node.nodes ++ ns) s)
    (hmore : ∀ held' ns' s', At L c₀ (.val held') st ns' s' →
      wp (Stops c₀) more (AtVal L c₀ held' st ns') s') :
    wp (Stops c₀) (syntaxAddVal node more) (AtVal L c₀ held st ns) s := by
  unfold syntaxAddVal
  simp only [wp_bind, wp_peekOperator]
  split
  · rename_i harith
    simp only [wp_bind, wp_readOperator]
    have hval := h.step { s with toks := s.toks.tail } rfl (.stay rfl rfl) fun d => if_pos harith
    refine wp_mono (hmore _ _ _ hval) ?_
    rintro ⟨ret, rest⟩ s' hrest
    have hall := hrest.perm perm_append
    rwa [Nat.add_assoc, ← List.length_append] at hall
  · rename_i harith
    have hend := h.step s rfl (.stay rfl rfl) fun d => if_neg harith
    simpa only [wp_pure, AtVal, SyntaxVals.nodes, List.append_nil] using hend

theorem wp_syntaxParseWord_control {isvar : Bool} {more : Parse π (Bool × SyntaxVals μ)}
    {ts : List Token} (h : At L c₀ (.val held) st ns { s with toks := ts })
    (hstep : ∀ d, Control.step ⟨.val held, st, ts, d⟩ = some (Control.word held st s.toks d))
    (hstray : Control.straying (.val held) st ts =
      (isvar && (s.toks.head?.bind Token.keyword?).any Lexeme.isQuoted))
    (hmore : ∀ held' ns' s', At L c₀ (.val held') st ns' s' →
      wp (Stops c₀) more (AtVal L c₀ held' st ns') s') :
    wp (Stops c₀) (syntaxParseWord P isvar more) (AtVal L c₀ held st ns) s := by
  unfold syntaxParseWord
  simp only [wp_bind, wp_readKeyword]
  cases hk : s.toks.head?.bind Token.keyword? with
  | none =>
    have hstay : Control.straying (.val held) st ts = false := by
      rw [hstray, hk, Option.any_none, Bool.and_false]
    refine h.step { s with toks := s.toks.tail } rfl (.stay hstay rfl) fun d => ?_
    rw [hstep, Control.word, hk]
    rfl
  | some x =>
    simp only [wp_bind, wp_mark, wp_allocNode]
    have hword : Control.straying (.val held) st ts = (isvar && x.isQuoted) := by
      rw [hstray, hk, Option.any_some]
    have hop := h.step ({ s with toks := s.toks.tail }.note (isvar && x.isQuoted) .stringKey) rfl
      (.note hword rfl) fun d => by rw [hstep, Control.word, hk, ParseState.note_toks]
    exact wp_syntaxAddVal_control hop.alloc hmore

/-- After the value of an argument: a comma, the closing bracket, or neither. -/
theorem wp_argEnd_control {more : Parse π (Option (SyntaxArgs μ))} {owner : ArgsOf}
    {k filled : ℕ} {key : Lexeme} {vals : SyntaxVals μ}
    (h : At L c₀ (.valEnd true vals.nodes.length) (.arg owner k filled :: st) (vals.nodes ++ ns) s)
    (hmore : ∀ s' : ParseState π,
      At L c₀ (.args owner k (filled + vals.nodes.length)) st (vals.nodes ++ ns) s' →
        wp (Stops c₀) (do return (← more).map (.cons key vals))
          (AtArgs L c₀ owner filled st ns) s') :
    wp (Stops c₀) (do
      if ← peekComma then
        let _ ← readComma
        let rest ← more
        return rest.map (.cons key vals)
      else
        match ← peekEndBracket with
        | some .endParenthesis =>
          let _ ← readEndBracket
          return some (.cons key vals .nil)
        | _ =>
          mark true .noComma
          let rest ← more
          return rest.map (.cons key vals)) (AtArgs L c₀ owner filled st ns) s := by
  simp only [wp_bind, wp_peekComma]
  split
  · rename_i hcomma
    simp only [wp_bind, wp_readComma]
    have hhead := of_decide_eq_true hcomma
    refine (wp_bind ..).mp (hmore _ (h.step _ rfl (.stay ?_ rfl) fun d => ?_))
    · simp [Control.straying, hhead]
    · exact if_pos hhead
  · rename_i hcomma
    have hstep : ∀ d, Control.step ⟨.valEnd true vals.nodes.length,
        .arg owner k filled :: st, s.toks, d⟩ =
          match s.toks.head?.bind Token.endBracket? with
          | some .endParenthesis =>
            some ⟨.argsEnd true owner (filled + vals.nodes.length), st, s.toks.tail, d⟩
          | _ => some ⟨.args owner k (filled + vals.nodes.length), st, s.toks, d⟩ :=
      fun d => if_neg fun heq => hcomma (decide_eq_true heq)
    simp only [wp_bind, wp_peekEndBracket]
    split
    · rename_i hbracket
      simp only [wp_bind, wp_readEndBracket, wp_pure]
      have hend : At L c₀ (.argsEnd true owner (filled + vals.nodes.length)) st _
          { s with toks := s.toks.tail } :=
        h.step _ rfl (.stay (by simp [Control.straying, hbracket]) rfl) fun d => by
          rw [hstep, hbracket]
      simpa [AtArgs, SyntaxArgs.nodes] using hend
    · rename_i hbracket
      simp only [wp_bind, wp_mark]
      refine (wp_bind ..).mp (hmore _ (h.step _ rfl (.note ?_ rfl) fun d => ?_))
      · simpa [Control.straying] using And.intro (by simpa using hcomma) hbracket
      · rw [hstep]
        split
        · rename_i heq
          exact absurd heq hbracket
        · rfl

mutual

theorem syntaxParseVal_control : ∀ (n held : ℕ) (st : List Frame) (ns : List μ) (s : ParseState π),
    At L c₀ (.val held) st ns s →
    wp (Stops c₀) (syntaxParseVal P n) (AtVal L c₀ held st ns) s
  | 0, _, _, _, _, _ => by
    rw [syntaxParseVal]
    exact .inl rfl
  | n + 1, held, st, ns, s, h => by
    have ih := fun held' ns' s' => syntaxParseVal_control n held' st ns' s'
    simp only [syntaxParseVal, wp_bind, wp_peekExprValType]
    cases hty : exprValType s.toks.head? s.toks.tail.head? with
    | unknown =>
      refine h.step s rfl (.stay (by rw [Control.straying, hty]) rfl) fun d => ?_
      rw [Control.step, hty]
      rfl
    | normal =>
      refine wp_syntaxParseWord_control h (fun d => ?_) (by rw [Control.straying, hty]; rfl) ih
      rw [Control.step, hty]
    | var =>
      simp only [wp_bind, wp_readToken]
      refine wp_syntaxParseWord_control h (fun d => ?_) (by rw [Control.straying, hty]; rfl) ih
      rw [Control.step, hty]
    | block =>
      simp only [wp_bind, wp_readBracket, wp_allocNode]
      have hstay : Control.straying (.val held) st s.toks = false := by rw [Control.straying, hty]
      have hopen := h.step { s with toks := s.toks.tail } rfl (.stay hstay rfl) fun d => by
        rw [Control.step, hty]
      refine wp_mono (syntaxParseVal_control n _ _ _ _ hopen.alloc) ?_
      rintro ⟨ret, childs⟩ s₁ hchilds
      simp only [wp_bind, wp_mark, wp_readEndBracket, ParseState.note_toks]
      split
      · rename_i hbracket
        have hop := hchilds.step { s₁.note (!ret) .badBlock with toks := s₁.toks.tail } rfl
          (.note rfl rfl) fun d => by rw [Control.step_valblock, hbracket]
        refine wp_syntaxAddVal_control ?_ ih
        simpa [SyntaxVal.nodes] using hop
      · rename_i hbracket
        have hfree := (hchilds.perm perm_middle).free
        refine hfree.giveUp _ rfl (.note rfl rfl) fun d => ?_
        rw [Control.step_valblock]
        split
        · rename_i heq
          exact absurd heq hbracket
        · simp [SyntaxVals.nodes]
    | call =>
      simp only [wp_bind]
      refine wp_mono (syntaxParseCall_control n held st ns s hty h) ?_
      rintro (_ | node) s₁ hcall
      · exact hcall
      · exact wp_syntaxAddVal_control hcall ih

theorem syntaxParseCall_control : ∀ (n held : ℕ) (st : List Frame) (ns : List μ)
    (s : ParseState π), exprValType s.toks.head? s.toks.tail.head? = .call →
    At L c₀ (.val held) st ns s →
    wp (Stops c₀) (syntaxParseCall P n) (AtCall L c₀ held st ns) s
  | 0, _, _, _, _, _, _ => by
    rw [syntaxParseCall]
    exact .inl rfl
  | n + 1, held, st, ns, s, hty, h => by
    obtain ⟨w, hw, hbracket⟩ := eq_of_exprValType_call hty
    obtain ⟨ts, hts⟩ := eq_cons_of_head? hw
    rw [hts] at hbracket
    obtain ⟨ts₁, rfl⟩ := eq_cons_of_head? hbracket
    have hstep : ∀ d, Control.step ⟨.val held, st, s.toks, d⟩ =
        match ts₁.tail.head? with
        | none => none
        | some (.symbol .startParenthesis) => some ⟨.operand (held + 1), st, ts₁, d⟩
        | some _ => some ⟨.argsBegin (.call held), st, ts₁, d⟩ := by
      intro d
      rw [Control.step, hty, hts]
      rfl
    have hstray : Control.straying (.val held) st s.toks =
        decide (ts₁.tail.head? = some (.symbol .startParenthesis)) := by
      rw [Control.straying, hty, hts]
      rfl
    simp only [syntaxParseCall, wp_bind, wp_allocNode, wp_readKeyword, hts, List.head?_cons,
      Option.bind_some, Token.keyword?, List.tail_cons, wp_readBracket, Token.bracket?,
      wp_peekNextToken]
    split
    · rename_i hnext
      obtain ⟨d, hr, -⟩ := h
      refine .inr ⟨held, st, w, ts₁, d, hts ▸ hr.reaches, ?_⟩
      have htail := List.head?_eq_none_iff.mp hnext
      have hlen : ts₁.tail.length = 0 := by rw [htail]; rfl
      rw [List.length_tail] at hlen
      omega
    · rename_i hnext
      simp only [wp_bind, wp_mark, wp_pure]
      have hskip : Control.straying (.val held) st s.toks = true := by
        rw [hstray, hnext]
        rfl
      have hop := h.alloc.step ⟨ts₁, _, Slip.callSkip :: s.slips⟩ rfl (.note hskip rfl) fun d => by
        rw [hstep, hnext]
      exact hop.setCount 0
    · rename_i t hne hnext
      have hbegin : At L c₀ (.argsBegin (.call held)) st ((P.memAlloc s.pool).1 :: ns)
          ⟨ts₁, (P.memAlloc s.pool).2, s.slips⟩ := by
        have hstay : Control.straying (.val held) st s.toks = false := by
          rw [hstray, hnext]
          exact decide_eq_false fun heq => hne (Option.some.inj heq)
        refine h.alloc.step _ rfl (.stay hstay rfl) fun d => ?_
        rw [hstep, hnext]
        split
        · rename_i heq
          cases heq
        · rename_i heq
          exact absurd (Option.some.inj heq) hne
        · rfl
      simp only [wp_bind]
      refine wp_mono (syntaxParseFuncArgs_control n _ _ _ _ hbegin) ?_
      rintro (_ | args) s₁ hargs
      · obtain ⟨ms, hms⟩ := hargs
        have hfree := ((hms.perm perm_middle).setCount 0).free
        refine hfree.giveUp _ rfl (.stay rfl rfl) fun d => ?_
        rw [Nat.zero_add]
        rfl
      · have hop : At L c₀ (.operand (held + (0 + args.nodes.length + 1))) st _ s₁ :=
          hargs.step _ rfl (.stay rfl rfl) fun d => rfl
        have hset := ((hop.perm perm_middle).setCount args.count).perm perm_middle.symm
        simpa [AtCall, SyntaxVal.nodes] using hset

theorem syntaxParseFuncArgs_control : ∀ (n : ℕ) (owner : ArgsOf) (st : List Frame) (ns : List μ)
    (s : ParseState π), At L c₀ (.argsBegin owner) st ns s →
    wp (Stops c₀) (syntaxParseFuncArgs P n) (AtArgs L c₀ owner 0 st ns) s
  | 0, _, _, _, _, _ => by
    rw [syntaxParseFuncArgs]
    exact .inl rfl
  | n + 1, owner, st, ns, s, h => by
    simp only [syntaxParseFuncArgs, wp_bind, wp_peekEndBracket]
    split
    · rename_i hbracket
      simp only [wp_bind, wp_readEndBracket, wp_pure]
      refine h.step { s with toks := s.toks.tail } rfl (.stay rfl rfl) fun d => ?_
      rw [Control.step, hbracket]
      rfl
    · rename_i hbracket
      refine syntaxParseArgsLoop_control n _ _ _ _ _ _ (h.step s rfl (.stay rfl rfl) fun d => ?_)
      rw [Control.step]
      split
      · rename_i heq
        exact absurd heq hbracket
      · rfl

theorem syntaxParseArgsLoop_control : ∀ (n k filled : ℕ) (owner : ArgsOf) (st : List Frame)
    (ns : List μ) (s : ParseState π), At L c₀ (.args owner k filled) st ns s →
    wp (Stops c₀) (syntaxParseArgsLoop P n k) (AtArgs L c₀ owner filled st ns) s
  | 0, _, _, _, _, _, _, _ => by
    rw [syntaxParseArgsLoop]
    exact .inl rfl
  | n + 1, 0, filled, owner, st, ns, s, h => by
    simp only [syntaxParseArgsLoop, wp_bind, wp_mark, wp_pure]
    exact h.step (s.note true .openArgs) rfl (.note rfl rfl) fun d => rfl
  | n + 1, k + 1, filled, owner, st, ns, s, h => by
    have hfail : ∀ s' : ParseState π, At L c₀ (.argsEnd false owner filled) st ns s' →
        AtArgs L c₀ owner filled st ns none s' := fun s' h => ⟨[], h⟩
    have hstray : Control.straying (.args owner (k + 1) filled) st s.toks =
        (s.toks.head?.bind Token.keyword?).any Lexeme.isQuoted := rfl
    simp only [syntaxParseArgsLoop, wp_bind, wp_readKeyword]
    cases hk : s.toks.head?.bind Token.keyword? with
    | none =>
      rw [hk, Option.any_none] at hstray
      refine hfail _ (h.step _ rfl (.stay hstray rfl) fun d => ?_)
      rw [Control.step, hk]
    | some key =>
      rw [hk, Option.any_some] at hstray
      simp only [wp_bind, wp_mark, wp_readOperator]
      split
      · rename_i hassign
        simp only [wp_bind]
        have hval := h.step
            ⟨s.toks.tail.tail, s.pool, (s.note key.isQuoted .stringKey).slips⟩ rfl
            (.note hstray rfl) fun d => by
          rw [Control.step, hk]
          exact if_pos hassign
        refine wp_mono (syntaxParseVal_control n _ _ _ _ hval) ?_
        rintro ⟨ret, vals⟩ s₁ hvals
        have hmore : ∀ s₂ : ParseState π,
            At L c₀ (.args owner k (filled + vals.nodes.length)) st (vals.nodes ++ ns) s₂ →
            wp (Stops c₀) (do return (← syntaxParseArgsLoop P n k).map (.cons key vals))
              (AtArgs L c₀ owner filled st ns) s₂ := by
          intro s₂ h₂
          refine (wp_bind ..).mpr (wp_mono (syntaxParseArgsLoop_control n k _ _ _ _ _ h₂) ?_)
          rintro (_ | rest) s₃ h₃
          · obtain ⟨ms, hms⟩ := h₃
            refine ⟨vals.nodes ++ ms, ?_⟩
            simpa [Nat.add_assoc] using hms.perm perm_append
          · simpa [AtArgs, SyntaxArgs.nodes, Nat.add_assoc] using h₃.perm perm_append
        rw [AtVal, Nat.zero_add] at hvals
        cases ret with
        | false =>
          simp only [Bool.false_eq_true, if_false, wp_pure]
          exact ⟨vals.nodes, hvals.step _ rfl (.stay rfl rfl) fun d => rfl⟩
        | true =>
          simp only [if_true]
          exact wp_argEnd_control hvals hmore
      · rename_i hassign
        refine hfail _ (h.step _ rfl (.note hstray rfl) fun d => ?_)
        rw [Control.step, hk]
        exact if_neg hassign

end

/-! ### Items -/

variable (L c₀) in
/-- What the readers of one item leave. -/
def AtItem (st : List Frame) (ns : List μ) : Option (SyntaxItem μ) → ParseState π → Prop
  | none, s => Gone L c₀ ns s
  | some node, s => At L c₀ .item st (node.nodes ++ ns) s

variable (L c₀) in
/-- What `__syntax_parse_block` leaves. -/
def AtItems (st : List Frame) (ns : List μ) : Bool × SyntaxItems μ → ParseState π → Prop
  | (false, _), s => Gone L c₀ ns s
  | (true, items), s => At L c₀ .itemsEnd st (items.nodes ++ ns) s

/-- A failure behind nodes that nobody frees, and one that is freed. -/
theorem Gone.drop {x : μ} {ms : List μ} (h : Gone L c₀ (ms ++ x :: ns) s) :
    Gone L c₀ ns { s with pool := P.memFree x s.pool } :=
  (h.perm perm_middle).free.lose

theorem syntaxParseExpr_control (n : ℕ) (h : At L c₀ .items st ns s)
    (hty : exprType s.toks.head? s.toks.tail.head? = .normal) :
    wp (Stops c₀) (syntaxParseExpr P n) (AtItem L c₀ st ns) s := by
  obtain ⟨w, hw⟩ := eq_of_exprType_normal hty
  obtain ⟨ts, hts⟩ := eq_cons_of_head? hw
  have hstep : ∀ d, Control.step ⟨.items, st, s.toks, d⟩ =
      if getSymbolType (ts.head?.bind Token.operator?) = .optComp then
        some ⟨.val 0, .expr :: st, ts.tail, d⟩
      else some ⟨.reject, st, ts.tail, d⟩ := by
    intro d
    rw [Control.step, hty, hts]
    rfl
  simp only [syntaxParseExpr, wp_bind, wp_allocNode, wp_readKeyword, hts, List.head?_cons,
    Option.bind_some, Token.keyword?, List.tail_cons, wp_readOperator]
  split
  · rename_i hcomp
    simp only [wp_bind]
    have hval : At L c₀ (.val 0) (.expr :: st) ((P.memAlloc s.pool).1 :: ns)
        ⟨ts.tail, (P.memAlloc s.pool).2, s.slips⟩ :=
      h.alloc.step _ rfl (.stay rfl rfl) fun d => (hstep d).trans (if_pos hcomp)
    refine wp_mono (syntaxParseVal_control n _ _ _ _ hval) ?_
    rintro ⟨ret, vals⟩ s₁ hvals
    cases ret with
    | false =>
      have hgone : Gone L c₀ _ s₁ := hvals.reject _ rfl fun d => rfl
      simp only [Bool.false_eq_true, if_false, wp_bind, wp_freeNode, wp_pure]
      exact hgone.drop
    | true =>
      have hitem : At L c₀ .item st _ s₁ := hvals.step _ rfl (.stay rfl rfl) fun d => rfl
      simpa [AtItem, SyntaxItem.nodes] using hitem
  · rename_i hcomp
    simp only [wp_bind, wp_freeNode, wp_pure]
    have hgone : Gone L c₀ _ ⟨ts.tail, (P.memAlloc s.pool).2, s.slips⟩ :=
      h.alloc.reject _ rfl fun d => (hstep d).trans (if_neg hcomp)
    exact hgone.free

theorem wp_syntaxAddItem_control {node : SyntaxItem μ} {more : Parse π (Bool × SyntaxItems μ)}
    (h : At L c₀ .item st (node.nodes ++ ns) s)
    (hmore : ∀ ns' s', At L c₀ .items st ns' s' →
      wp (Stops c₀) more (AtItems L c₀ st ns') s') :
    wp (Stops c₀) (syntaxAddItem node more) (AtItems L c₀ st ns) s := by
  have hcons : ∀ (s₁ : ParseState π) (opt : Sym), At L c₀ .items st (node.nodes ++ ns) s₁ →
      wp (Stops c₀) (more >>= fun r => pure (r.1, .cons node opt r.2)) (AtItems L c₀ st ns) s₁ := by
    intro s₁ opt h₁
    refine (wp_bind ..).mpr (wp_mono (hmore _ _ h₁) ?_)
    rintro ⟨_ | _, rest⟩ s₂ hrest
    · exact hrest.lose
    · exact hrest.perm perm_append
  unfold syntaxAddItem
  simp only [wp_bind, wp_peekOperator]
  split
  · rename_i opt hopt
    simp only [wp_bind, wp_readOperator]
    split
    · rename_i hlogic
      simp only [wp_bind, wp_mark, wp_markEnd]
      refine (wp_bind ..).mp (hcons _ _ (h.step _ rfl ?_ fun d => ?_))
      · rw [Records, ParseState.note_slips_eq_nil, ParseState.note_slips_eq_nil,
          Control.straying, hopt, Bool.or_eq_false_iff]
        simp only [ParseState.note_toks, Option.some.injEq]
        tauto
      · rw [Control.step, hopt]
        exact if_pos (hopt ▸ hlogic)
    · rename_i hlogic
      have hgone : Gone L c₀ _ { s with toks := s.toks.tail } := h.reject _ rfl fun d => by
        rw [Control.step, hopt]
        exact if_neg (hopt ▸ hlogic)
      exact hgone.lose
  · rename_i hopt
    simp only [wp_bind, wp_peekEndBracket]
    split
    · rename_i hbracket
      have hstay : Control.straying .item st s.toks = false := by
        rw [Control.straying, hopt, hbracket]
        rfl
      have hend : At L c₀ .itemsEnd st _ s := h.step _ rfl (.stay hstay rfl) fun d => by
        rw [Control.step, hopt, hbracket]
      simpa [AtItems, SyntaxItems.nodes] using hend
    · rename_i hbracket
      simp only [wp_bind, wp_markMore]
      have hstray : Control.straying .item st s.toks = s.toks.head?.isSome := by
        rw [Control.straying, hopt, hbracket]
        rfl
      refine (wp_bind ..).mp (hcons _ _ (h.step _ rfl (.note hstray rfl) fun d => ?_))
      rw [Control.step, hopt, hbracket]
      rfl

theorem wp_syntaxCloseBlock_control {negative : Bool} {block : Parse π (Option (μ × SyntaxItems μ))}
    (hblock : wp (Stops c₀) block (fun r s' => match r with
      | none => Gone L c₀ ns s'
      | some (m, childs) => At L c₀ .itemsEnd (.block :: st) (childs.nodes ++ m :: ns) s') s) :
    wp (Stops c₀) (syntaxCloseBlock negative block) (AtItem L c₀ st ns) s := by
  unfold syntaxCloseBlock
  refine (wp_bind ..).mpr (wp_mono hblock ?_)
  rintro (_ | ⟨m, childs⟩) s₁ h₁
  · exact h₁
  · simp only [wp_bind, wp_readEndBracket]
    split
    · rename_i hbracket
      have hitem : At L c₀ .item st _ { s₁ with toks := s₁.toks.tail } :=
        h₁.step _ rfl (.stay rfl rfl) fun d => by rw [Control.step, hbracket]
      simpa [AtItem, SyntaxItem.nodes] using hitem
    · rename_i hbracket
      have hgone : Gone L c₀ _ { s₁ with toks := s₁.toks.tail } := h₁.reject _ rfl fun d => by
        rw [Control.step]
        split
        · rename_i heq
          exact absurd heq hbracket
        · rfl
      have hleft : Gone L c₀ ([m] ++ (childs.nodes ++ ns)) _ := hgone.perm perm_middle
      exact hleft.lose.lose

theorem wp_syntaxParseFuncEnd_control {m : μ} {k : Lexeme} {args : Option (SyntaxArgs μ)}
    {body : Parse π (Bool × SyntaxItems μ)}
    (hbody : wp (Stops c₀) body (AtItems L c₀ (.body :: st) (funcArgsNodes args ++ m :: ns)) s) :
    wp (Stops c₀) (syntaxParseFuncEnd P m k args body) (AtItem L c₀ st ns) s := by
  unfold syntaxParseFuncEnd
  refine (wp_bind ..).mpr (wp_mono hbody ?_)
  rintro ⟨_ | _, childs⟩ s₁ h₁
  · exact Gone.drop h₁
  · simp only [if_true, wp_bind, wp_readEndBracket]
    split
    · rename_i hbracket
      have hitem : At L c₀ .item st _ { s₁ with toks := s₁.toks.tail } :=
        At.step h₁ _ rfl (.stay rfl rfl) fun d => by rw [Control.step, hbracket]
      have hall := hitem.perm perm_append
      simpa [AtItem, SyntaxItem.nodes] using hall
    · rename_i hbracket
      have hgone : Gone L c₀ _ { s₁ with toks := s₁.toks.tail } := At.reject h₁ _ rfl fun d => by
        rw [Control.step]
        split
        · rename_i heq
          exact absurd heq hbracket
        · rfl
      exact (hgone.perm perm_append).drop

mutual

theorem syntaxParseBlock'_control : ∀ (n : ℕ) (st : List Frame) (ns : List μ) (s : ParseState π),
    At L c₀ .items st ns s → wp (Stops c₀) (syntaxParseBlock' P n) (AtItems L c₀ st ns) s
  | 0, _, _, _, _ => by
    rw [syntaxParseBlock']
    exact .inl rfl
  | n + 1, st, ns, s, h => by
    have ih := syntaxParseBlock'_control n st
    have hadd : ∀ r s₁, AtItem L c₀ st ns r s₁ → wp (Stops c₀)
        (match r with
          | none => return (false, .nil)
          | some node => syntaxAddItem node (syntaxParseBlock' P n)) (AtItems L c₀ st ns) s₁ := by
      rintro (_ | node) s₁ h₁
      · exact h₁
      · exact wp_syntaxAddItem_control h₁ ih
    simp only [syntaxParseBlock', wp_bind, wp_peekExprType]
    cases hty : exprType s.toks.head? s.toks.tail.head? with
    | eof =>
      refine At.step h _ rfl (.stay rfl rfl) fun d => ?_
      rw [Control.step, hty]
    | unknown =>
      have hgone : Gone L c₀ ns s := At.reject h s rfl fun d => by rw [Control.step, hty]
      exact hgone
    | func =>
      simp only [wp_bind]
      exact wp_mono (syntaxParseFunc_control n st ns s hty h) hadd
    | negBlock =>
      obtain ⟨-, hnext⟩ := eq_of_exprType_negBlock hty
      simp only [wp_bind, wp_skipNegblock, hnext, Option.isSome_some, if_true]
      have hopen : At L c₀ .items (.block :: st) ns { s with toks := s.toks.tail.tail } :=
        h.step _ rfl (.stay rfl rfl) fun d => by rw [Control.step, hty]
      exact wp_mono (wp_syntaxCloseBlock_control (syntaxParseBlock_control n _ _ _ hopen)) hadd
    | block =>
      simp only [wp_bind, wp_readBracket]
      have hopen : At L c₀ .items (.block :: st) ns { s with toks := s.toks.tail } :=
        h.step _ rfl (.stay rfl rfl) fun d => by rw [Control.step, hty]
      exact wp_mono (wp_syntaxCloseBlock_control (syntaxParseBlock_control n _ _ _ hopen)) hadd
    | normal =>
      simp only [wp_bind]
      exact wp_mono (syntaxParseExpr_control n h hty) hadd

theorem syntaxParseBlock_control : ∀ (n : ℕ) (st : List Frame) (ns : List μ) (s : ParseState π),
    At L c₀ .items st ns s → wp (Stops c₀) (syntaxParseBlock P n) (fun r s' => match r with
      | none => Gone L c₀ ns s'
      | some (m, childs) => At L c₀ .itemsEnd st (childs.nodes ++ m :: ns) s') s
  | 0, _, _, _, _ => by
    rw [syntaxParseBlock]
    exact .inl rfl
  | n + 1, st, ns, s, h => by
    simp only [syntaxParseBlock, wp_bind, wp_allocNode]
    refine wp_mono (syntaxParseBlock'_control n _ _ _ h.alloc) ?_
    rintro ⟨_ | _, childs⟩ s₁ h₁
    · exact Gone.free h₁
    · exact h₁

theorem syntaxParseFunc_control : ∀ (n : ℕ) (st : List Frame) (ns : List μ) (s : ParseState π),
    exprType s.toks.head? s.toks.tail.head? = .func → At L c₀ .items st ns s →
    wp (Stops c₀) (syntaxParseFunc P n) (AtItem L c₀ st ns) s
  | 0, _, _, _, _, _ => by
    rw [syntaxParseFunc]
    exact .inl rfl
  | n + 1, st, ns, s, hty, h => by
    obtain ⟨w, hw⟩ := eq_of_exprType_func hty
    obtain ⟨ts, hts⟩ := eq_cons_of_head? hw
    have hstep : ∀ d, Control.step ⟨.items, st, s.toks, d⟩ =
        match ts.head?.bind Token.bracket? with
        | some .startParenthesis => some ⟨.argsBegin .func, st, ts.tail, d⟩
        | some .startBrace => some ⟨.items, .body :: st, ts.tail, d⟩
        | _ => some ⟨.reject, st, ts.tail, d⟩ := by
      intro d
      rw [Control.step, hty, hts]
      rfl
    simp only [syntaxParseFunc, wp_bind, wp_allocNode, wp_readKeyword, hts, List.head?_cons,
      Option.bind_some, Token.keyword?, List.tail_cons, wp_readBracket]
    split
    · rename_i hbracket
      have hbegin : At L c₀ (.argsBegin .func) st ((P.memAlloc s.pool).1 :: ns)
          ⟨ts.tail, (P.memAlloc s.pool).2, s.slips⟩ :=
        h.alloc.step _ rfl (.stay rfl rfl) fun d => by rw [hstep, hbracket]
      simp only [wp_bind]
      refine wp_mono (syntaxParseFuncArgs_control n _ _ _ _ hbegin) ?_
      rintro (_ | args) s₁ hargs
      · obtain ⟨ms, hms⟩ := hargs
        simp only [wp_bind, wp_freeNode, wp_pure]
        have hgone : Gone L c₀ _ s₁ :=
          ((hms.perm perm_middle).setCount 0).reject s₁ rfl fun d => rfl
        exact hgone.free.lose
      · simp only [wp_bind, wp_readBracket]
        have hset := ((At.perm hargs perm_middle).setCount args.count).perm perm_middle.symm
        split
        · rename_i hbrace
          refine wp_syntaxParseFuncEnd_control (syntaxParseBlock'_control n _ _ _ ?_)
          exact hset.step _ rfl (.stay rfl rfl) fun d => by rw [Control.step, hbrace]
        · rename_i hbrace
          simp only [wp_bind, wp_freeNode, wp_pure]
          have hgone : Gone L c₀ _ { s₁ with toks := s₁.toks.tail } :=
            hset.reject _ rfl fun d => by
              rw [Control.step]
              split
              · rename_i heq
                exact absurd heq hbrace
              · rfl
          exact hgone.drop
    · rename_i hbracket
      refine wp_syntaxParseFuncEnd_control (syntaxParseBlock'_control n _ _ _ ?_)
      exact h.alloc.step _ rfl (.stay rfl rfl) fun d => by rw [hstep, hbracket]
    · rename_i hparen hbrace
      simp only [wp_bind, wp_freeNode, wp_pure]
      have hgone : Gone L c₀ _ ⟨ts.tail, (P.memAlloc s.pool).2, s.slips⟩ :=
        h.alloc.reject _ rfl fun d => by
          rw [hstep]
          split
          · rename_i heq
            exact absurd heq hparen
          · rename_i heq
            exact absurd heq hbrace
          · rfl
      exact hgone.free

end

variable (L c₀) in
/-- What `syntax_parse_content` leaves. -/
def AtContent : Option (μ × SyntaxItems μ) → ParseState π → Prop
  | none, s => ∃ m, Gone L c₀ [m] s
  | some (m, tree), s => At L c₀ .accept [] (tree.nodes ++ [m]) s

/-- **The parser follows its control.** It accepts where the control accepts, with the nodes of the
tree in hand, and fails where the control rejects. -/
theorem interpSyntaxParse_control {toks : List Token} {pool : π} (h : L.Holds pool [] 0) :
    (∀ r s, interpSyntaxParse P toks pool = .ok (r, s) → AtContent L (.start toks) r s) ∧
      ∀ e, interpSyntaxParse P toks pool = .error e → ShortCall (.start toks) := by
  have hstart : At L (.start toks) .items [] [(P.memAlloc pool).1]
      (ParseState.note ⟨toks, (P.memAlloc pool).2, []⟩ toks.head?.isNone .noItem) := by
    have hnote := ParseState.note_slips_eq_nil (s := ⟨toks, (P.memAlloc pool).2, []⟩)
      (b := toks.head?.isNone) (x := .noItem)
    have hnil : toks.head?.isNone = true ↔ toks = [] := by
      rw [Option.isNone_iff_eq_none, List.head?_eq_none_iff]
    refine ⟨0, ⟨.refl, fun hs => ⟨fun htoks => ?_, .refl⟩, fun hs => .inl ?_⟩, L.alloc h⟩
    · exact Bool.false_ne_true ((hnote.mp hs).1.symm.trans (hnil.mpr htoks))
    · by_contra htoks
      exact hs (hnote.mpr ⟨Bool.eq_false_iff.mpr fun hnone => htoks (hnil.mp hnone), rfl⟩)
  have hwp : wp (Stops (.start toks)) (syntaxParseContent P (parseFuel toks))
      (AtContent L (.start toks)) ⟨toks, pool, []⟩ := by
    simp only [syntaxParseContent, wp_bind, wp_allocNode, wp_markEnd]
    refine wp_mono (syntaxParseBlock'_control _ _ _ _ hstart) ?_
    rintro ⟨_ | _, tree⟩ s₁ h₁
    · exact ⟨_, h₁⟩
    · exact At.step h₁ _ rfl (.note rfl rfl) fun d => rfl
  refine ⟨fun r s hr => hwp.of_ok hr, fun e he => ?_⟩
  rcases (wp_iff.mp hwp).2 e he with rfl | hshort
  · exact absurd he (interpSyntaxParse_ne_fuel P toks pool)
  · exact hshort

end Simulation

/-! ## Totality -/

/-- The automaton after `n` steps, or where it halts before. -/
def Control.run : ℕ → Control → Control
  | 0, c => c
  | n + 1, c =>
    match c.step with
    | none => c
    | some c' => run n c'

theorem Control.reaches_run (n : ℕ) (c : Control) : Reaches step c (run n c) := by
  induction n generalizing c with
  | zero => exact .refl
  | succ n ih =>
    rw [run]
    split
    · exact .refl
    · rename_i c' hstep
      exact .head hstep (ih c')

/-- The control only moves forward. -/
theorem Control.step_suffix {c c' : Control} (h : c.step = some c') : c'.toks <:+ c.toks := by
  have htail : ∀ ts : List Token, ts.tail <:+ ts := List.tail_suffix
  have htail₂ : ∀ ts : List Token, ts.tail.tail <:+ ts :=
    fun ts => (htail ts.tail).trans (htail ts)
  have hword : ∀ held st ts d, (word held st ts d).toks = ts.tail := by
    intro held st ts d
    unfold word
    split <;> rfl
  unfold step at h
  split at h <;> (repeat' split at h) <;> cases h <;>
    simp only [hword, htail, htail₂, List.suffix_refl]

theorem Control.reaches_suffix {c c' : Control} (h : Reaches step c c') : c'.toks <:+ c.toks := by
  induction h with
  | refl => exact List.suffix_refl _
  | tail _ hstep ih => exact (step_suffix hstep).trans ih

/-- The parser only stops at the end of the token list. -/
theorem ShortCall.suffix {toks : List Token} (h : ShortCall (.start toks)) :
    ∃ w ts, .key w :: .symbol .startParenthesis :: ts <:+ toks ∧ ts.length < 2 := by
  obtain ⟨held, st, w, ts, d, hr, hlen⟩ := h
  exact ⟨w, ts, Control.reaches_suffix hr, hlen⟩

theorem Control.halted_unique {c c₁ c₂ : Control} (h₁ : Reaches step c c₁) (hs₁ : c₁.step = none)
    (h₂ : Reaches step c c₂) (hs₂ : c₂.step = none) : c₁ = c₂ :=
  Part.mem_unique (mem_eval.mpr ⟨h₁, hs₁⟩) (mem_eval.mpr ⟨h₂, hs₂⟩)

theorem ShortCall.halted {c₀ : Control} (h : ShortCall c₀) : ∃ held st ts d,
    Reaches Control.step c₀ ⟨.val held, st, ts, d⟩ ∧
      Control.step ⟨.val held, st, ts, d⟩ = none := by
  obtain ⟨held, st, w, ts, d, hr, hlen⟩ := h
  refine ⟨held, st, _, d, hr, ?_⟩
  match ts, hlen with
  | [], _ => rfl
  | [_], _ => rfl

/-- The parser returns when its control comes to no call that is too short, and only then. -/
theorem interpSyntaxParse_ok_iff {π μ : Type} (P : NodePool π μ) (toks : List Token) (pool : π) :
    (∃ r s, interpSyntaxParse P toks pool = .ok (r, s)) ↔ ¬ShortCall (.start toks) := by
  obtain ⟨hok, herr⟩ := @interpSyntaxParse_control _ _ P (.none P) toks pool trivial
  constructor
  · rintro ⟨r, s, hr⟩ hshort
    obtain ⟨held, st, ts, d, h₁, hs₁⟩ := hshort.halted
    cases r with
    | none =>
      obtain ⟨-, ⟨st', d', h₂⟩, -⟩ := hok _ s hr
      cases Control.halted_unique h₁ hs₁ h₂ rfl
    | some p =>
      obtain ⟨d', h₂, -⟩ := hok _ s hr
      cases Control.halted_unique h₁ hs₁ h₂.reaches rfl
  · intro hshort
    cases hr : interpSyntaxParse P toks pool with
    | error e => exact absurd (herr e hr) hshort
    | ok p => exact ⟨p.1, p.2, rfl⟩

theorem interpSyntaxParse_suffix {π μ : Type} {P : NodePool π μ} {toks : List Token} {pool : π}
    {r : Option (μ × SyntaxItems μ)} {s : ParseState π}
    (hr : interpSyntaxParse P toks pool = .ok (r, s)) : s.toks <:+ toks := by
  have hok := (@interpSyntaxParse_control _ _ P (.none P) toks pool trivial).1 r s hr
  cases r with
  | none =>
    obtain ⟨-, ⟨st, d, h⟩, -⟩ := hok
    exact Control.reaches_suffix h
  | some p =>
    obtain ⟨d, h, -⟩ := hok
    exact Control.reaches_suffix h.reaches

/-- **The parser returns, with its index inside the token list, exactly when its control comes to no
call with fewer than two tokens behind the bracket.** -/
theorem interpSyntaxParse_total_iff {π μ : Type} (P : NodePool π μ) (toks : List Token) (pool : π) :
    (∃ r s, interpSyntaxParse P toks pool = .ok (r, s) ∧
      ∃ tokenidx ≤ toks.length, s.toks = toks.drop tokenidx) ↔ ¬ShortCall (.start toks) := by
  rw [← interpSyntaxParse_ok_iff P toks pool]
  constructor
  · rintro ⟨r, s, hr, -⟩
    exact ⟨r, s, hr⟩
  · rintro ⟨r, s, hr⟩
    exact ⟨r, s, hr, toks.length - s.toks.length, Nat.sub_le _ _,
      List.suffix_iff_eq_drop.mp (interpSyntaxParse_suffix hr)⟩

/-- The tokens of `a==b()`: the parser looks at the token behind the closing bracket. -/
theorem interpSyntaxParse_shortCall :
    ¬∃ r s, interpSyntaxParse NodePool.unit [.key ['a'], .symbol .equal, .key ['b'],
      .symbol .startParenthesis, .symbol .endParenthesis] () = .ok (r, s) := by
  have hr : interpSyntaxParse NodePool.unit [.key ['a'], .symbol .equal, .key ['b'],
      .symbol .startParenthesis, .symbol .endParenthesis] () = .error .nullToken := by
    decide +kernel
  rintro ⟨r, s, h⟩
  rw [hr] at h
  cases h

end Lre
