import Lre.Syntax.Sound

/-!
# Node memory

`mempool.c` under the parser, and the trees that do not show it.

* `SyntaxNode`, `Mempool`: the nodes of the pool, with what their memory keeps from one rule to the
  next: `args.count`. A node type without argument slots does not reach this member.
* `SyntaxItems.nodes`: the order in which `destroy_syntax_tree` frees a tree.
* **`interpSyntaxParse_agree`**: on tokens without a function in brace form, parses with two pools
  agree, and their trees are closed.
-/

namespace Lre

/-! ## The pool -/

/-- A node of the pool. -/
structure SyntaxNode where
  id : ℕ
  count : ℕ
  deriving DecidableEq, Repr

/-- `struct mempool`: the free list, and the number of the next node that `malloc` makes. -/
structure Mempool where
  node : List SyntaxNode
  next : ℕ
  deriving DecidableEq, Repr

/-- The `count` that `interpreter_create` gives to `mempool_init`. -/
def mempoolCount : ℕ := 128

/-- `mempool_init`: the nodes are zero, the last one is at the head of the list. -/
def mempoolInit : Mempool := ⟨(List.range mempoolCount).reverse.map (⟨·, 0⟩), mempoolCount⟩

/-- `mem_alloc`; `heap` says what a node of `malloc` has as its `args.count`. -/
def memAlloc (heap : ℕ → ℕ) (pool : Mempool) : SyntaxNode × Mempool :=
  match pool.node with
  | node :: rest => (node, { pool with node := rest })
  | [] => (⟨pool.next, heap pool.next⟩, { pool with next := pool.next + 1 })

/-- `mem_free`. -/
def memFree (node : SyntaxNode) (pool : Mempool) : Mempool :=
  { pool with node := node :: pool.node }

/-- The pool of the interpreter. -/
def syntaxMpool (heap : ℕ → ℕ) : NodePool Mempool SyntaxNode :=
  ⟨memAlloc heap, memFree, fun count node => { node with count := count }⟩

variable {μ : Type}

/-! ## The order of `destroy_syntax_tree` -/

mutual

/-- The cases of `destroy_syntax_val`, with `destroy_syntax_call`. -/
def SyntaxVal.nodes : SyntaxVal μ → List μ
  | .val m _ _ => [m]
  | .valblock m childs => childs.nodes ++ [m]
  | .call m _ args => args.nodes ++ [m]

/-- `destroy_syntax_val`. -/
def SyntaxVals.nodes : SyntaxVals μ → List μ
  | .nil => []
  | .cons node _ rest => node.nodes ++ rest.nodes

/-- The loop over argument slots. -/
def SyntaxArgs.nodes : SyntaxArgs μ → List μ
  | .nil => []
  | .cons _ valchilds rest => valchilds.nodes ++ rest.nodes

end

/-- The argument slots of a function; slots that the parser did not fill have empty lists. -/
def funcArgsNodes : Option (SyntaxArgs μ) → List μ
  | none => []
  | some args => args.nodes

mutual

/-- The cases of `destroy_syntax_childs`: `destroy_syntax_func`, `destroy_syntax_block` and
`destroy_syntax_expr`. -/
def SyntaxItem.nodes : SyntaxItem μ → List μ
  | .func m _ args body => funcArgsNodes args ++ body.nodes ++ [m]
  | .block m _ childs => childs.nodes ++ [m]
  | .expr m _ _ valchilds => valchilds.nodes ++ [m]

/-- `destroy_syntax_childs`. -/
def SyntaxItems.nodes : SyntaxItems μ → List μ
  | .nil => []
  | .cons node _ rest => node.nodes ++ rest.nodes

end

/-- `destroy_syntax_tree`, on the content node and its list. -/
def destroySyntaxTree (m : SyntaxNode) (tree : SyntaxItems SyntaxNode) (pool : Mempool) : Mempool :=
  (tree.nodes ++ [m]).foldl (fun pool node => memFree node pool) pool

/-! ## Functions in brace form -/

/-- The tokens begin with a function in brace form. -/
def isBraceForm : List Token → Bool
  | .word (.ident _) :: .symbol .startBrace :: _ => true
  | _ => false

/-- No keyword is directly followed by `{`. -/
def NoBraceForm : List Token → Prop
  | [] => True
  | t :: ts => isBraceForm (t :: ts) = false ∧ NoBraceForm ts

instance NoBraceForm.decidable : DecidablePred NoBraceForm
  | [] => .isTrue trivial
  | _ :: ts => @instDecidableAnd _ _ _ (NoBraceForm.decidable ts)

theorem NoBraceForm.tail {ts : List Token} (h : NoBraceForm ts) : NoBraceForm ts.tail := by
  cases ts with
  | nil => exact h
  | cons t ts => exact h.2

theorem NoBraceForm.ne_startBrace {w : Word} {ts : List Token}
    (h : NoBraceForm (.word (.ident w) :: ts)) : ts.head? ≠ some (.symbol .startBrace) := by
  intro hhead
  cases ts with
  | nil => cases hhead
  | cons t ts =>
    cases hhead
    exact absurd h.1 (by rw [isBraceForm]; decide)

/-! ## Parses with two pools -/

section Agree

open Run

variable {π ρ μ' : Type} {P : NodePool π μ} {Q : NodePool ρ μ'}

/-- Two parse states with the same tokens, none of which begins a function in brace form. -/
def SameToks (s : ParseState π) (t : ParseState ρ) : Prop :=
  s.toks = t.toks ∧ NoBraceForm s.toks

/-- A simulation of two parses. -/
abbrev ParseSim {α β : Type} (RA : α → β → Prop) (x : Parse π α) (y : Parse ρ β) : Prop :=
  Sim SameToks RA x y

variable {α : Type}

theorem sim_readToken : ParseSim (π := π) (ρ := ρ) Eq readToken readToken := by
  intro s t h
  exact ⟨congrArg List.head? h.1, congrArg List.tail h.1, h.2.tail⟩

theorem sim_peekCurrToken : ParseSim (π := π) (ρ := ρ) Eq peekCurrToken peekCurrToken := by
  intro s t h
  exact ⟨congrArg List.head? h.1, h⟩

theorem sim_peekNextToken : ParseSim (π := π) (ρ := ρ) Eq peekNextToken peekNextToken := by
  intro s t h
  exact ⟨congrArg (·.tail.head?) h.1, h⟩

/-- A function of the next token, which is read. -/
theorem sim_read (f : Option Token → α) : ParseSim (π := π) (ρ := ρ) Eq
    (do return f (← readToken)) (do return f (← readToken)) :=
  sim_readToken.bind_eq fun _ => .pure rfl

theorem sim_peek (f : Option Token → α) : ParseSim (π := π) (ρ := ρ) Eq
    (do return f (← peekCurrToken)) (do return f (← peekCurrToken)) :=
  sim_peekCurrToken.bind_eq fun _ => .pure rfl

theorem sim_peekExprValType :
    ParseSim (π := π) (ρ := ρ) Eq peekExprValType peekExprValType :=
  sim_peekCurrToken.bind_eq fun _ => sim_peekNextToken.bind_eq fun _ => .pure rfl

theorem sim_mark (b : Bool) (x : Slip) : ParseSim (π := π) (ρ := ρ) Eq (mark b x) (mark b x) :=
  fun _ _ h => ⟨rfl, h⟩

theorem sim_markEnd (x : Slip) : ParseSim (π := π) (ρ := ρ) Eq (markEnd x) (markEnd x) :=
  sim_peekCurrToken.bind_eq fun _ => sim_mark _ _

theorem sim_markMore (x : Slip) : ParseSim (π := π) (ρ := ρ) Eq (markMore x) (markMore x) :=
  sim_peekCurrToken.bind_eq fun _ => sim_mark _ _

theorem sim_allocNode : ParseSim (fun _ _ => True) (allocNode P) (allocNode Q) :=
  fun _ _ h => ⟨trivial, h⟩

theorem sim_freeNode (m : μ) (m' : μ') : ParseSim Eq (freeNode P m) (freeNode Q m') :=
  fun _ _ h => ⟨rfl, h⟩

theorem sim_skipNegblock : ParseSim (π := π) (ρ := ρ) Eq skipNegblock skipNegblock := by
  refine sim_readToken.bind_eq fun _ => sim_readToken.bind_eq fun t => ?_
  cases t with
  | none => exact .throw _
  | some t => exact .pure rfl

/-! ## Values -/

/-- The same return code, and the same values. -/
def SameVals (r : Bool × SyntaxVals μ) (r' : Bool × SyntaxVals μ') : Prop :=
  r.1 = r'.1 ∧ r.2.erase = r'.2.erase

/-- The same operand. -/
def SameVal (v : SyntaxVal μ) (v' : SyntaxVal μ') : Prop := v.erase = v'.erase

/-- The same arguments. -/
def SameArgs (args : SyntaxArgs μ) (args' : SyntaxArgs μ') : Prop := args.erase = args'.erase

theorem SameArgs.count {args : SyntaxArgs μ} {args' : SyntaxArgs μ'} (h : SameArgs args args') :
    args.count = args'.count := by
  rw [← args.erase_count, ← args'.erase_count, h]

theorem sim_syntaxAddVal {node : SyntaxVal μ} {node' : SyntaxVal μ'}
    {more : Parse π (Bool × SyntaxVals μ)} {more' : Parse ρ (Bool × SyntaxVals μ')}
    (hn : SameVal node node') (hm : ParseSim SameVals more more') :
    ParseSim SameVals (syntaxAddVal node more) (syntaxAddVal node' more') := by
  refine (sim_peek _).bind_eq fun opt => ?_
  by_cases harith : getSymbolType opt = .optArith
  · simp only [if_pos harith]
    refine (sim_read _).bind_eq fun opt => hm.bind fun r r' hr => .pure ⟨hr.1, ?_⟩
    rw [SyntaxVals.erase, SyntaxVals.erase, hn, hr.2]
  · simp only [if_neg harith]
    refine .pure ⟨rfl, ?_⟩
    rw [SyntaxVals.erase, SyntaxVals.erase, hn]
    rfl

theorem sim_syntaxParseWord (isvar : Bool) {more : Parse π (Bool × SyntaxVals μ)}
    {more' : Parse ρ (Bool × SyntaxVals μ')} (hm : ParseSim SameVals more more') :
    ParseSim SameVals (syntaxParseWord P isvar more) (syntaxParseWord Q isvar more') := by
  refine (sim_read _).bind_eq fun x => ?_
  cases x with
  | none => exact .pure ⟨rfl, rfl⟩
  | some x =>
    exact (sim_mark _ _).bind_eq fun _ => sim_allocNode.bind fun m m' _ => sim_syntaxAddVal rfl hm

mutual

theorem sim_syntaxParseVal : ∀ n : ℕ, ParseSim SameVals (syntaxParseVal P n) (syntaxParseVal Q n)
  | 0 => by
    rw [syntaxParseVal, syntaxParseVal]
    exact .throw _
  | n + 1 => by
    have ih := sim_syntaxParseVal n
    rw [syntaxParseVal, syntaxParseVal]
    refine sim_peekExprValType.bind_eq fun type => ?_
    cases type with
    | block =>
      refine (sim_read _).bind_eq fun _ => sim_allocNode.bind fun m m' _ => ih.bind ?_
      rintro ⟨ret, childs⟩ ⟨_, childs'⟩ ⟨rfl, hchilds⟩
      refine (sim_mark _ _).bind_eq fun _ => (sim_read _).bind_eq fun bracket => ?_
      split
      · exact sim_syntaxAddVal (by rw [SameVal, SyntaxVal.erase, SyntaxVal.erase, hchilds]) ih
      · exact (sim_freeNode _ _).bind_eq fun _ => .pure ⟨rfl, rfl⟩
    | call =>
      refine (sim_syntaxParseCall n).bind fun r r' hr => ?_
      cases hr with
      | none => exact .pure ⟨rfl, rfl⟩
      | some hnode => exact sim_syntaxAddVal hnode ih
    | var => exact sim_readToken.bind_eq fun _ => sim_syntaxParseWord true ih
    | normal => exact sim_syntaxParseWord false ih
    | unknown => exact .pure ⟨rfl, rfl⟩

theorem sim_syntaxParseCall : ∀ n : ℕ,
    ParseSim (Option.Rel SameVal) (syntaxParseCall P n) (syntaxParseCall Q n)
  | 0 => by
    rw [syntaxParseCall, syntaxParseCall]
    exact .throw _
  | n + 1 => by
    rw [syntaxParseCall, syntaxParseCall]
    refine sim_allocNode.bind fun m m' _ => (sim_read _).bind_eq fun key => ?_
    cases key with
    | none => exact (sim_freeNode _ _).bind_eq fun _ => .pure .none
    | some k =>
      refine (sim_read _).bind_eq fun bracket => ?_
      split
      · refine sim_peekNextToken.bind_eq fun next => ?_
        split
        · exact .throw _
        · exact (sim_mark _ _).bind_eq fun _ => .pure (.some rfl)
        · refine (sim_syntaxParseFuncArgs n).bind fun r r' hr => ?_
          cases hr with
          | none => exact (sim_freeNode _ _).bind_eq fun _ => .pure .none
          | some hargs =>
            exact .pure (.some (by rw [SameVal, SyntaxVal.erase, SyntaxVal.erase, hargs]))
      · exact (sim_freeNode _ _).bind_eq fun _ => .pure .none

theorem sim_syntaxParseFuncArgs : ∀ n : ℕ,
    ParseSim (Option.Rel SameArgs) (syntaxParseFuncArgs P n) (syntaxParseFuncArgs Q n)
  | 0 => by
    rw [syntaxParseFuncArgs, syntaxParseFuncArgs]
    exact .throw _
  | n + 1 => by
    rw [syntaxParseFuncArgs, syntaxParseFuncArgs]
    refine (sim_peek _).bind_eq fun bracket => ?_
    split
    · exact (sim_read _).bind_eq fun _ => .pure (.some rfl)
    · exact sim_syntaxParseArgsLoop n _

theorem sim_syntaxParseArgsLoop : ∀ n k : ℕ,
    ParseSim (Option.Rel SameArgs) (syntaxParseArgsLoop P n k) (syntaxParseArgsLoop Q n k)
  | 0, _ => by
    rw [syntaxParseArgsLoop, syntaxParseArgsLoop]
    exact .throw _
  | _ + 1, 0 => by
    rw [syntaxParseArgsLoop, syntaxParseArgsLoop]
    exact (sim_mark _ _).bind_eq fun _ => .pure (.some rfl)
  | n + 1, k + 1 => by
    rw [syntaxParseArgsLoop, syntaxParseArgsLoop]
    refine (sim_read _).bind_eq fun key => ?_
    cases key with
    | none => exact .pure .none
    | some key =>
      refine (sim_mark _ _).bind_eq fun _ => (sim_read _).bind_eq fun opt => ?_
      by_cases hassign : getSymbolType opt = .optAssign
      · simp only [if_pos hassign]
        refine (sim_syntaxParseVal n).bind ?_
        rintro ⟨ret, vals⟩ ⟨_, vals'⟩ ⟨rfl, hvals⟩
        have hmore : ParseSim (Option.Rel SameArgs)
            (do return (← syntaxParseArgsLoop P n k).map (.cons key vals))
            (do return (← syntaxParseArgsLoop Q n k).map (.cons key vals')) := by
          refine (sim_syntaxParseArgsLoop n k).bind fun r r' hr => .pure ?_
          cases hr with
          | none => exact .none
          | some hrest =>
            refine .some ?_
            rw [SameArgs, SyntaxArgs.erase, SyntaxArgs.erase, hrest, hvals]
        cases ret with
        | false => exact .pure .none
        | true =>
          refine (sim_peek _).bind_eq fun comma => ?_
          cases comma with
          | true => exact (sim_read _).bind_eq fun _ => hmore
          | false =>
            refine (sim_peek _).bind_eq fun bracket => ?_
            dsimp only
            split
            · refine (sim_read _).bind_eq fun _ => .pure (.some ?_)
              rw [SameArgs, SyntaxArgs.erase, SyntaxArgs.erase, hvals]
              rfl
            · exact (sim_mark _ _).bind_eq fun _ => hmore
      · simp only [if_neg hassign]
        exact .pure .none

end

/-! ## Items -/

/-- The same items, without a function in brace form. -/
def SameItems (items : SyntaxItems μ) (items' : SyntaxItems μ') : Prop :=
  items.erase = items'.erase ∧ items.erase.Closed

/-- The same item, which is no function in brace form and holds none. -/
def SameItem (node : SyntaxItem μ) (node' : SyntaxItem μ') : Prop :=
  node.erase = node'.erase ∧ node.erase.Closed

theorem SameItems.cons {node : SyntaxItem μ} {node' : SyntaxItem μ'} {rest : SyntaxItems μ}
    {rest' : SyntaxItems μ'} (hn : SameItem node node') (hr : SameItems rest rest') (opt : Sym) :
    SameItems (.cons node opt rest) (.cons node' opt rest') := by
  refine ⟨?_, hn.2, hr.2⟩
  rw [SyntaxItems.erase, SyntaxItems.erase, hn.1, hr.1]

theorem SameItems.nil : SameItems (.nil : SyntaxItems μ) (.nil : SyntaxItems μ') := ⟨rfl, trivial⟩

/-- The same return code, and the same items. -/
def SameList (r : Bool × SyntaxItems μ) (r' : Bool × SyntaxItems μ') : Prop :=
  r.1 = r'.1 ∧ SameItems r.2 r'.2

theorem sim_syntaxAddItem {node : SyntaxItem μ} {node' : SyntaxItem μ'}
    {more : Parse π (Bool × SyntaxItems μ)} {more' : Parse ρ (Bool × SyntaxItems μ')}
    (hn : SameItem node node') (hm : ParseSim SameList more more') :
    ParseSim SameList (syntaxAddItem node more) (syntaxAddItem node' more') := by
  refine (sim_peek _).bind_eq fun opt => ?_
  cases opt with
  | some opt =>
    refine (sim_read _).bind_eq fun opt => ?_
    by_cases hlogic : getSymbolType opt = .optLogic
    · simp only [if_pos hlogic]
      exact (sim_mark _ _).bind_eq fun _ => (sim_markEnd _).bind_eq fun _ =>
        hm.bind fun r r' hr => .pure ⟨hr.1, .cons hn hr.2 _⟩
    · simp only [if_neg hlogic]
      exact .pure ⟨rfl, .cons hn .nil _⟩
  | none =>
    refine (sim_peek _).bind_eq fun bracket => ?_
    cases bracket with
    | some b => exact .pure ⟨rfl, .cons hn .nil _⟩
    | none =>
      exact (sim_markMore _).bind_eq fun _ => hm.bind fun r r' hr => .pure ⟨hr.1, .cons hn hr.2 _⟩

theorem sim_syntaxParseExpr (n : ℕ) :
    ParseSim (Option.Rel SameItem) (syntaxParseExpr P n) (syntaxParseExpr Q n) := by
  refine sim_allocNode.bind fun m m' _ => (sim_read _).bind_eq fun key => ?_
  cases key with
  | none => exact (sim_freeNode _ _).bind_eq fun _ => .pure .none
  | some key =>
    refine (sim_read _).bind_eq fun opt => ?_
    by_cases hcomp : getSymbolType opt = .optComp
    · simp only [if_pos hcomp]
      refine (sim_syntaxParseVal n).bind ?_
      rintro ⟨ret, vals⟩ ⟨_, vals'⟩ ⟨rfl, hvals⟩
      cases ret with
      | false => exact (sim_freeNode _ _).bind_eq fun _ => .pure .none
      | true =>
        refine .pure (.some ⟨?_, trivial⟩)
        rw [SyntaxItem.erase, SyntaxItem.erase, hvals]
    · simp only [if_neg hcomp]
      exact (sim_freeNode _ _).bind_eq fun _ => .pure .none

/-- The same block. -/
def SameBlock (r : μ × SyntaxItems μ) (r' : μ' × SyntaxItems μ') : Prop := SameItems r.2 r'.2

theorem sim_syntaxCloseBlock (negative : Bool) {block : Parse π (Option (μ × SyntaxItems μ))}
    {block' : Parse ρ (Option (μ' × SyntaxItems μ'))}
    (hb : ParseSim (Option.Rel SameBlock) block block') :
    ParseSim (Option.Rel SameItem) (syntaxCloseBlock negative block)
      (syntaxCloseBlock negative block') := by
  refine hb.bind fun r r' hr => ?_
  cases hr with
  | none => exact .pure .none
  | some hblock =>
    refine (sim_read _).bind_eq fun bracket => ?_
    split
    · refine .pure (.some ⟨?_, hblock.2⟩)
      rw [SyntaxItem.erase, SyntaxItem.erase, hblock.1]
    · exact .pure .none

theorem sim_syntaxParseFuncEnd (m : μ) (m' : μ') (k : Lexeme) {args : SyntaxArgs μ}
    {args' : SyntaxArgs μ'} (ha : SameArgs args args') {body : Parse π (Bool × SyntaxItems μ)}
    {body' : Parse ρ (Bool × SyntaxItems μ')} (hb : ParseSim SameList body body') :
    ParseSim (Option.Rel SameItem) (syntaxParseFuncEnd P m k (some args) body)
      (syntaxParseFuncEnd Q m' k (some args') body') := by
  refine hb.bind ?_
  rintro ⟨ret, childs⟩ ⟨_, childs'⟩ ⟨rfl, hchilds⟩
  cases ret with
  | false => exact (sim_freeNode _ _).bind_eq fun _ => .pure .none
  | true =>
    refine (sim_read _).bind_eq fun bracket => ?_
    split
    · refine .pure (.some ⟨?_, rfl, hchilds.2⟩)
      rw [SyntaxItem.erase, SyntaxItem.erase, hchilds.1, Option.map_some, Option.map_some, ha]
    · exact (sim_freeNode _ _).bind_eq fun _ => .pure .none

theorem sim_peekExprType_bind {α β : Type} {RB : α → β → Prop}
    {f : ExprType → Parse π α} {g : ExprType → Parse ρ β}
    (h : ∀ s t, SameToks s t → Agree SameToks RB (f (exprType s.toks.head? s.toks.tail.head?) s)
      (g (exprType s.toks.head? s.toks.tail.head?) t)) :
    ParseSim RB (peekExprType >>= f) (peekExprType >>= g) := by
  intro s t hst
  have hrun : (peekExprType >>= g) t = g (exprType t.toks.head? t.toks.tail.head?) t := rfl
  rw [hrun, ← hst.1]
  exact h s t hst

theorem toks_of_func {ts : List Token} (hts : NoBraceForm ts)
    (h : exprType ts.head? ts.tail.head? = .func) :
    ∃ w rest, ts = .key w :: .symbol .startParenthesis :: rest := by
  obtain ⟨w, hw⟩ := eq_of_exprType_func h
  cases ts with
  | nil => cases hw
  | cons t ts =>
    cases hw
    have hne := hts.ne_startBrace
    cases ts with
    | nil => cases h
    | cons u rest =>
      refine ⟨w, rest, ?_⟩
      simp only [List.head?_cons, List.tail_cons] at h
      unfold exprType at h
      split at h <;> simp_all

mutual

theorem sim_syntaxParseBlock' : ∀ n : ℕ,
    ParseSim SameList (syntaxParseBlock' P n) (syntaxParseBlock' Q n)
  | 0 => by
    rw [syntaxParseBlock', syntaxParseBlock']
    exact .throw _
  | n + 1 => by
    have ih := sim_syntaxParseBlock' n
    rw [syntaxParseBlock', syntaxParseBlock']
    have hitem : ∀ r r', Option.Rel SameItem r r' → ParseSim SameList
        (match r with
          | none => return (false, .nil)
          | some node => syntaxAddItem node (syntaxParseBlock' P n))
        (match r' with
          | none => return (false, .nil)
          | some node => syntaxAddItem node (syntaxParseBlock' Q n)) := by
      intro r r' hr
      cases hr with
      | none => exact .pure ⟨rfl, .nil⟩
      | some hnode => exact sim_syntaxAddItem hnode ih
    refine sim_peekExprType_bind fun s t hst => ?_
    cases htype : exprType s.toks.head? s.toks.tail.head? with
    | eof => exact ⟨⟨rfl, .nil⟩, hst⟩
    | unknown => exact ⟨⟨rfl, .nil⟩, hst⟩
    | func => exact (agree_syntaxParseFunc n s t hst htype).bind hitem
    | negBlock =>
      exact (sim_skipNegblock.bind_eq fun _ =>
        (sim_syntaxCloseBlock true (sim_syntaxParseBlock n)).bind hitem) s t hst
    | block =>
      exact ((sim_read _).bind_eq fun _ =>
        (sim_syntaxCloseBlock false (sim_syntaxParseBlock n)).bind hitem) s t hst
    | normal => exact ((sim_syntaxParseExpr n).bind hitem) s t hst

theorem sim_syntaxParseBlock : ∀ n : ℕ,
    ParseSim (Option.Rel SameBlock) (syntaxParseBlock P n) (syntaxParseBlock Q n)
  | 0 => by
    rw [syntaxParseBlock, syntaxParseBlock]
    exact .throw _
  | n + 1 => by
    rw [syntaxParseBlock, syntaxParseBlock]
    refine sim_allocNode.bind fun m m' _ => (sim_syntaxParseBlock' n).bind ?_
    rintro ⟨ret, childs⟩ ⟨_, childs'⟩ ⟨rfl, hchilds⟩
    cases ret with
    | true => exact .pure (.some hchilds)
    | false => exact (sim_freeNode _ _).bind_eq fun _ => .pure .none

theorem agree_syntaxParseFunc : ∀ (n : ℕ) (s : ParseState π) (t : ParseState ρ), SameToks s t →
    exprType s.toks.head? s.toks.tail.head? = .func →
    Agree SameToks (Option.Rel SameItem) (syntaxParseFunc P n s) (syntaxParseFunc Q n t)
  | 0, _, _, _, _ => by
    rw [syntaxParseFunc, syntaxParseFunc]
    rfl
  | n + 1, ⟨toks, pool, slips⟩, ⟨toks', pool', slips'⟩, hst, htype => by
    obtain ⟨rfl, hno⟩ : toks = toks' ∧ NoBraceForm toks := hst
    obtain ⟨w, rest, rfl⟩ := toks_of_func hno htype
    have hrest : ∀ r r', Option.Rel SameArgs r r' → ParseSim (Option.Rel SameItem)
        (match r with
          | none => do freeNode P (P.setCount 0 (P.memAlloc pool).1); return none
          | some args => do
            match ← readBracket with
            | some .startBrace =>
              syntaxParseFuncEnd P (P.setCount args.count (P.memAlloc pool).1) (.ident w)
                (some args) (syntaxParseBlock' P n)
            | _ => freeNode P (P.setCount args.count (P.memAlloc pool).1); return none)
        (match r' with
          | none => do freeNode Q (Q.setCount 0 (Q.memAlloc pool').1); return none
          | some args => do
            match ← readBracket with
            | some .startBrace =>
              syntaxParseFuncEnd Q (Q.setCount args.count (Q.memAlloc pool').1) (.ident w)
                (some args) (syntaxParseBlock' Q n)
            | _ => freeNode Q (Q.setCount args.count (Q.memAlloc pool').1); return none) := by
      intro r r' hr
      cases hr with
      | none => exact (sim_freeNode _ _).bind_eq fun _ => .pure .none
      | some hargs =>
        refine (sim_read _).bind_eq fun bracket => ?_
        split
        · exact sim_syntaxParseFuncEnd _ _ _ hargs (sim_syntaxParseBlock' n)
        · exact (sim_freeNode _ _).bind_eq fun _ => .pure .none
    -- the keyword and the bracket are read, and the list is parsed next
    exact ((sim_syntaxParseFuncArgs n).bind hrest) ⟨rest, _, slips⟩ ⟨rest, _, slips'⟩
      ⟨rfl, hno.tail.tail⟩

end

theorem sim_syntaxParseContent (n : ℕ) :
    ParseSim (Option.Rel SameBlock) (syntaxParseContent P n) (syntaxParseContent Q n) := by
  refine sim_allocNode.bind fun m m' _ => (sim_markEnd _).bind_eq fun _ =>
    (sim_syntaxParseBlock' n).bind ?_
  rintro ⟨ret, childs⟩ ⟨_, childs'⟩ ⟨rfl, hchilds⟩
  cases ret with
  | true => exact (sim_markMore _).bind_eq fun _ => .pure (.some hchilds)
  | false => exact .pure .none

/-- **The parser does not look at node memory: on tokens without a function in brace form, two
pools give the same tree, or the same fault.** -/
theorem interpSyntaxParse_agree {toks : List Token} (h : NoBraceForm toks) (pool : π)
    (pool' : ρ) : Agree SameToks (Option.Rel SameBlock) (interpSyntaxParse P toks pool)
      (interpSyntaxParse Q toks pool') :=
  sim_syntaxParseContent (parseFuel toks) ⟨toks, pool, []⟩ ⟨toks, pool', []⟩ ⟨rfl, h⟩

end Agree

end Lre
