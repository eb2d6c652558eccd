import Lre.Syntax.Dump
import Lre.Syntax.Pool
import Lre.Syntax.Sound

/-!
# The text of what was parsed

* `emptyCalls`, `emptyFuncs`: the argument lists that are not written.
* `Parsed`: the trees that a parse without a slip builds from tokens without a function in brace
  form.
* `lex_dumpSyntaxTree_eq_iff`: the text has the tokens of the code exactly when no argument list
  in the code is empty.
* `length_dumpSyntaxTree_lt`: the text is less than twice as long as the code.
-/

namespace Lre

open Run

variable {μ : Type}

/-! ## What is not written -/

mutual

/-- The number of calls without arguments. -/
def SyntaxVal.emptyCalls : SyntaxVal μ → ℕ
  | .val .. => 0
  | .valblock _ childs => childs.emptyCalls
  | .call _ _ args => if args.count = 0 then 1 else args.emptyCalls

def SyntaxVals.emptyCalls : SyntaxVals μ → ℕ
  | .nil => 0
  | .cons node _ rest => node.emptyCalls + rest.emptyCalls

def SyntaxArgs.emptyCalls : SyntaxArgs μ → ℕ
  | .nil => 0
  | .cons _ vs rest => vs.emptyCalls + rest.emptyCalls

end

/-- The calls without arguments in the arguments of a function. -/
def argsEmptyCalls : Option (SyntaxArgs μ) → ℕ
  | none => 0
  | some args => args.emptyCalls

mutual

def SyntaxItem.emptyCalls : SyntaxItem μ → ℕ
  | .func _ _ args body => argsEmptyCalls args + body.emptyCalls
  | .block _ _ childs => childs.emptyCalls
  | .expr _ _ _ vs => vs.emptyCalls

def SyntaxItems.emptyCalls : SyntaxItems μ → ℕ
  | .nil => 0
  | .cons node _ rest => node.emptyCalls + rest.emptyCalls

end

mutual

/-- The number of functions with an empty parenthesised list. -/
def SyntaxItem.emptyFuncs : SyntaxItem μ → ℕ
  | .func _ _ args body => (if args.map SyntaxArgs.count = some 0 then 1 else 0) + body.emptyFuncs
  | .block _ _ childs => childs.emptyFuncs
  | .expr .. => 0

def SyntaxItems.emptyFuncs : SyntaxItems μ → ℕ
  | .nil => 0
  | .cons node _ rest => node.emptyFuncs + rest.emptyFuncs

end

theorem SyntaxArgs.dumped_sepToks (args : SyntaxArgs μ) : args.dumped.sepToks = args.sepToks := by
  cases args <;> rfl

mutual

/-- Two tokens are not written for each call without arguments. -/
theorem SyntaxVal.length_dumped_toks : ∀ node : SyntaxVal μ,
    node.dumped.toks.length + 2 * node.emptyCalls = node.toks.length
  | .val _ _ true => rfl
  | .val _ _ false => rfl
  | .valblock _ childs => by
    have h := childs.length_dumped_toks
    simp only [SyntaxVal.dumped, SyntaxVal.toks, SyntaxVal.emptyCalls, List.length_append,
      List.length_cons, List.length_nil]
    omega
  | .call _ k args => by
    have h := args.length_dumped_toks
    rw [SyntaxVal.dumped, SyntaxVal.emptyCalls]
    split
    · rename_i hcount
      rw [SyntaxArgs.eq_nil_of_count hcount]
      rfl
    · simp only [SyntaxVal.toks, List.length_append, List.length_cons, List.length_nil]
      omega

theorem SyntaxVals.length_dumped_toks : ∀ vs : SyntaxVals μ,
    vs.dumped.toks.length + 2 * vs.emptyCalls = vs.toks.length
  | .nil => rfl
  | .cons node opt rest => by
    have h₁ := node.length_dumped_toks
    have h₂ := rest.length_dumped_toks
    simp only [SyntaxVals.dumped, SyntaxVals.toks, SyntaxVals.emptyCalls, List.length_append]
    omega

theorem SyntaxArgs.length_dumped_toks : ∀ args : SyntaxArgs μ,
    args.dumped.toks.length + 2 * args.emptyCalls = args.toks.length
  | .nil => rfl
  | .cons k vs rest => by
    have h₁ := vs.length_dumped_toks
    have h₂ := rest.length_dumped_toks
    simp only [SyntaxArgs.dumped, SyntaxArgs.toks, SyntaxArgs.emptyCalls, List.length_append,
      List.length_cons, SyntaxArgs.dumped_sepToks]
    omega

end

mutual

theorem SyntaxItem.length_dumped_toks : ∀ node : SyntaxItem μ,
    node.dumped.toks.length + 2 * (node.emptyCalls + node.emptyFuncs) = node.toks.length
  | .func _ k none body => by
    have h := body.length_dumped_toks
    simp only [SyntaxItem.dumped, argsDumped, SyntaxItem.toks, SyntaxItem.emptyCalls,
      SyntaxItem.emptyFuncs, argsEmptyCalls, Option.map_none, reduceCtorEq, if_false,
      List.length_append, List.length_cons, List.length_nil]
    omega
  | .func _ k (some args) body => by
    have h₁ := args.length_dumped_toks
    have h₂ := body.length_dumped_toks
    simp only [SyntaxItem.dumped, argsDumped, SyntaxItem.emptyCalls, SyntaxItem.emptyFuncs,
      argsEmptyCalls, Option.map_some, Option.some.injEq]
    split
    · rename_i hcount
      rw [SyntaxArgs.eq_nil_of_count hcount] at h₁ ⊢
      simp only [SyntaxItem.toks, SyntaxArgs.toks, SyntaxArgs.emptyCalls, List.length_append,
        List.length_cons, List.length_nil]
      omega
    · simp only [SyntaxItem.toks, List.length_append, List.length_cons, List.length_nil]
      omega
  | .block _ true childs => by
    have h := childs.length_dumped_toks
    simp only [SyntaxItem.dumped, SyntaxItem.toks, SyntaxItem.emptyCalls, SyntaxItem.emptyFuncs,
      List.length_append, List.length_cons, List.length_nil]
    omega
  | .block _ false childs => by
    have h := childs.length_dumped_toks
    simp only [SyntaxItem.dumped, SyntaxItem.toks, SyntaxItem.emptyCalls, SyntaxItem.emptyFuncs,
      List.length_append, List.length_cons, List.length_nil]
    omega
  | .expr _ k opt vs => by
    have h := vs.length_dumped_toks
    simp only [SyntaxItem.dumped, SyntaxItem.toks, SyntaxItem.emptyCalls, SyntaxItem.emptyFuncs,
      List.length_cons]
    omega

theorem SyntaxItems.length_dumped_toks : ∀ items : SyntaxItems μ,
    items.dumped.toks.length + 2 * (items.emptyCalls + items.emptyFuncs) = items.toks.length
  | .nil => rfl
  | .cons node opt rest => by
    have h₁ := node.length_dumped_toks
    have h₂ := rest.length_dumped_toks
    simp only [SyntaxItems.dumped, SyntaxItems.toks, SyntaxItems.emptyCalls, SyntaxItems.emptyFuncs,
      List.length_append]
    omega

end

mutual

theorem SyntaxVal.dumped_eq_erase : ∀ node : SyntaxVal μ, node.emptyCalls = 0 →
    node.dumped = node.erase
  | .val .., _ => rfl
  | .valblock _ childs, h => by rw [SyntaxVal.dumped, SyntaxVal.erase, childs.dumped_eq_erase h]
  | .call _ k args, h => by
    rw [SyntaxVal.emptyCalls] at h
    split at h
    · cases h
    · rename_i hcount
      rw [SyntaxVal.dumped, if_neg hcount, SyntaxVal.erase, args.dumped_eq_erase h]

theorem SyntaxVals.dumped_eq_erase : ∀ vs : SyntaxVals μ, vs.emptyCalls = 0 →
    vs.dumped = vs.erase
  | .nil, _ => rfl
  | .cons node opt rest, h => by
    obtain ⟨h₁, h₂⟩ := Nat.add_eq_zero_iff.mp h
    rw [SyntaxVals.dumped, SyntaxVals.erase, node.dumped_eq_erase h₁, rest.dumped_eq_erase h₂]

theorem SyntaxArgs.dumped_eq_erase : ∀ args : SyntaxArgs μ, args.emptyCalls = 0 →
    args.dumped = args.erase
  | .nil, _ => rfl
  | .cons k vs rest, h => by
    obtain ⟨h₁, h₂⟩ := Nat.add_eq_zero_iff.mp h
    rw [SyntaxArgs.dumped, SyntaxArgs.erase, vs.dumped_eq_erase h₁, rest.dumped_eq_erase h₂]

end

mutual

theorem SyntaxItem.dumped_eq_erase : ∀ node : SyntaxItem μ, node.emptyCalls = 0 →
    node.emptyFuncs = 0 → node.dumped = node.erase
  | .func _ k none body, h, h' => by
    simp only [SyntaxItem.emptyCalls, SyntaxItem.emptyFuncs, Nat.add_eq_zero_iff] at h h'
    rw [SyntaxItem.dumped, SyntaxItem.erase, body.dumped_eq_erase h.2 h'.2]
    rfl
  | .func _ k (some args) body, h, h' => by
    simp only [SyntaxItem.emptyCalls, SyntaxItem.emptyFuncs, argsEmptyCalls, Nat.add_eq_zero_iff,
      Option.map_some, Option.some.injEq, ite_eq_right_iff, Nat.one_ne_zero, imp_false] at h h'
    rw [SyntaxItem.dumped, SyntaxItem.erase, argsDumped_of_count h'.1, args.dumped_eq_erase h.1,
      body.dumped_eq_erase h.2 h'.2]
    rfl
  | .block _ negative childs, h, h' => by rw [SyntaxItem.dumped, SyntaxItem.erase,
    childs.dumped_eq_erase h h']
  | .expr _ k opt vs, h, _ => by rw [SyntaxItem.dumped, SyntaxItem.erase, vs.dumped_eq_erase h]

theorem SyntaxItems.dumped_eq_erase : ∀ items : SyntaxItems μ, items.emptyCalls = 0 →
    items.emptyFuncs = 0 → items.dumped = items.erase
  | .nil, _, _ => rfl
  | .cons node opt rest, h, h' => by
    simp only [SyntaxItems.emptyCalls, SyntaxItems.emptyFuncs, Nat.add_eq_zero_iff] at h h'
    rw [SyntaxItems.dumped, SyntaxItems.erase, node.dumped_eq_erase h.1 h'.1,
      rest.dumped_eq_erase h.2 h'.2]

end

/-! ## Rules stay rules -/

mutual

theorem SyntaxVal.dumped_wf : ∀ node : SyntaxVal μ, node.WF → node.dumped.WF
  | .val .., h => h
  | .valblock _ childs, h => childs.dumped_wf h
  | .call _ k args, h => by
    rw [SyntaxVal.dumped]
    split
    · exact fun hvar => absurd hvar Bool.false_ne_true
    · exact ⟨h.1, args.dumped_wf h.2.1, by rw [args.dumped_count]; exact h.2.2⟩

theorem SyntaxVals.dumped_wf : ∀ vs : SyntaxVals μ, vs.WF → vs.dumped.WF
  | .nil, h => h
  | .cons node opt rest, h => by
    obtain ⟨hnode, ⟨rfl, rfl⟩ | ⟨hopt, hrest⟩⟩ := h
    · exact ⟨node.dumped_wf hnode, .inl ⟨rfl, rfl⟩⟩
    · exact ⟨node.dumped_wf hnode, .inr ⟨hopt, rest.dumped_wf hrest⟩⟩

theorem SyntaxArgs.dumped_wf : ∀ args : SyntaxArgs μ, args.WF → args.dumped.WF
  | .nil, h => h
  | .cons _ vs rest, h => ⟨h.1, vs.dumped_wf h.2.1, rest.dumped_wf h.2.2⟩

end

theorem argsDumped_wf {args : Option (SyntaxArgs μ)} (h : argsWF args) :
    argsWF (argsDumped args) := by
  cases args with
  | none => trivial
  | some args =>
    rw [argsDumped]
    split
    · trivial
    · exact ⟨args.dumped_wf h.1, by rw [args.dumped_count]; exact h.2⟩

mutual

theorem SyntaxItem.dumped_wf : ∀ node : SyntaxItem μ, node.WF → node.dumped.WF
  | .func _ _ _ body, h => ⟨h.1, argsDumped_wf h.2.1, body.dumped_wf h.2.2⟩
  | .block _ _ childs, h => childs.dumped_wf h
  | .expr _ _ _ vs, h => ⟨h.1, h.2.1, vs.dumped_wf h.2.2⟩

theorem SyntaxItems.dumped_wf : ∀ items : SyntaxItems μ, items.WF → items.dumped.WF
  | .nil, h => h
  | .cons node opt rest, h => by
    obtain ⟨hnode, ⟨rfl, rfl⟩ | ⟨hopt, hrest⟩⟩ := h
    · exact ⟨node.dumped_wf hnode, .inl ⟨rfl, rfl⟩⟩
    · exact ⟨node.dumped_wf hnode, .inr ⟨hopt, rest.dumped_wf hrest⟩⟩

end

mutual

theorem SyntaxItem.closed_erase : ∀ node : SyntaxItem μ, node.erase.Closed ↔ node.Closed
  | .func _ _ args body => by
    rw [SyntaxItem.erase, SyntaxItem.Closed, SyntaxItem.Closed, body.closed_erase,
      Option.isSome_map]
  | .block _ _ childs => childs.closed_erase
  | .expr .. => Iff.rfl

theorem SyntaxItems.closed_erase : ∀ items : SyntaxItems μ, items.erase.Closed ↔ items.Closed
  | .nil => Iff.rfl
  | .cons node _ rest => and_congr node.closed_erase rest.closed_erase

end

/-! ## Trees without node memory -/

mutual

theorem SyntaxVal.erase_unit : ∀ node : SyntaxVal Unit, node.erase = node
  | .val .. => rfl
  | .valblock _ childs => by rw [SyntaxVal.erase, childs.erase_unit]
  | .call _ k args => by rw [SyntaxVal.erase, args.erase_unit]

theorem SyntaxVals.erase_unit : ∀ vs : SyntaxVals Unit, vs.erase = vs
  | .nil => rfl
  | .cons node opt rest => by rw [SyntaxVals.erase, node.erase_unit, rest.erase_unit]

theorem SyntaxArgs.erase_unit : ∀ args : SyntaxArgs Unit, args.erase = args
  | .nil => rfl
  | .cons k vs rest => by rw [SyntaxArgs.erase, vs.erase_unit, rest.erase_unit]

end

mutual

theorem SyntaxItem.erase_unit : ∀ node : SyntaxItem Unit, node.erase = node
  | .func _ k none body => by rw [SyntaxItem.erase, body.erase_unit]; rfl
  | .func _ k (some args) body => by
    rw [SyntaxItem.erase, body.erase_unit, Option.map_some, args.erase_unit]
  | .block _ negative childs => by rw [SyntaxItem.erase, childs.erase_unit]
  | .expr _ k opt vs => by rw [SyntaxItem.erase, vs.erase_unit]

theorem SyntaxItems.erase_unit : ∀ items : SyntaxItems Unit, items.erase = items
  | .nil => rfl
  | .cons node opt rest => by rw [SyntaxItems.erase, node.erase_unit, rest.erase_unit]

end

/-! ## Writing out what was parsed -/

/-- A tree without functions in brace form that the tokens stand for. -/
structure Parsed (toks : List Token) (tree : SyntaxItems μ) : Prop where
  wf : tree.WF
  closed : tree.Closed
  toks_eq : tree.toks = toks

section Parsed

variable {π ρ μ' : Type} {P : NodePool π μ} {Q : NodePool ρ μ'}
variable {code : Word} {toks : List Token} {tree : SyntaxItems μ} {stale : μ → List Word}

theorem parsed_of_interpSyntaxParse {pool : π} {m : μ} {s : ParseState π} (hno : NoBraceForm toks)
    (h : interpSyntaxParse P toks pool = .ok (some (m, tree), s)) (hs : s.slips = []) :
    Parsed toks tree := by
  have hsound := syntaxParseContent_sound (P := P) (parseFuel toks) ⟨toks, pool, []⟩
    (by simp [parseFuel])
  obtain ⟨-, hwf, htoks⟩ := (wp_iff.mp hsound).1 _ s h hs m tree rfl
  refine ⟨hwf, ?_, htoks⟩
  have hagree := @interpSyntaxParse_agree _ _ _ _ P P toks hno pool pool
  rw [h] at hagree
  cases hagree.1 with
  | some hblock => exact tree.closed_erase.mp hblock.2

theorem Parsed.lex_dumpSyntaxTree (h : Parsed toks tree) (hlex : lex code = (toks, .eof)) :
    lex (dumpSyntaxTree stale tree) = (tree.dumped.toks, .eof) :=
  Lre.lex_dumpSyntaxTree h.wf h.closed (h.toks_eq ▸ spelled_of_lex hlex)

theorem Parsed.lex_dumpSyntaxTree_eq (h : Parsed toks tree) (hlex : lex code = (toks, .eof))
    (hcalls : tree.emptyCalls = 0) (hfuncs : tree.emptyFuncs = 0) :
    lex (dumpSyntaxTree stale tree) = lex code := by
  rw [h.lex_dumpSyntaxTree hlex, hlex, ← h.toks_eq, tree.dumped_eq_erase hcalls hfuncs,
    tree.erase_toks]

/-- **The text of a tree has the tokens of the code it was parsed from exactly when no argument list
in the code is empty.** -/
theorem lex_dumpSyntaxTree_eq_iff {pool : π} {m : μ} {s : ParseState π}
    (hlex : lex code = (toks, .eof)) (hno : NoBraceForm toks)
    (hparse : interpSyntaxParse P toks pool = .ok (some (m, tree), s)) (hs : s.slips = []) :
    lex (dumpSyntaxTree stale tree) = lex code ↔ tree.emptyCalls = 0 ∧ tree.emptyFuncs = 0 := by
  have h := parsed_of_interpSyntaxParse hno hparse hs
  refine ⟨fun heq => ?_, fun hempty => h.lex_dumpSyntaxTree_eq hlex hempty.1 hempty.2⟩
  have hlen := tree.length_dumped_toks
  rw [h.lex_dumpSyntaxTree hlex, hlex, Prod.mk.injEq, ← h.toks_eq] at heq
  rw [heq.1] at hlen
  omega

/-- `f(){e==1}` -/
def emptyListRule : Word := ['f', '(', ')', '{', 'e', '=', '=', '1', '}']

/-- The tree of `f(){e==1}`. -/
def emptyListTree : SyntaxItems Unit :=
  .cons (.func () (.ident ['f']) (some .nil) (.cons (.expr () (.ident ['e']) .equal
    (.cons (.val () (.ident ['1']) false) .reserved .nil)) .reserved .nil)) .reserved .nil

theorem lex_emptyListRule : lex emptyListRule = (emptyListTree.toks, .eof) := by decide

theorem interpSyntaxParse_emptyListTree :
    interpSyntaxParse NodePool.unit emptyListTree.toks () =
      .ok (some ((), emptyListTree), ⟨[], (), []⟩) := by
  decide +kernel

/-- The text of `f(){e==1}` is `f{e == 1}`. -/
theorem lex_dumpSyntaxTree_emptyListTree :
    lex (dumpSyntaxTree (fun _ => []) emptyListTree) ≠ lex emptyListRule := by
  intro h
  have hempty := (lex_dumpSyntaxTree_eq_iff lex_emptyListRule (by decide)
    interpSyntaxParse_emptyListTree rfl).mp h
  exact absurd hempty.2 (by decide)

end Parsed

/-! ## The length of the text -/

/-- The characters of a token; those of `~`, which has no word, are not counted. -/
def Token.size : Token → ℕ
  | .word x => x.cstr.length
  | .symbol s => ((symWords s).1.getD []).length

/-- The characters of the tokens. -/
def tokensSize (toks : List Token) : ℕ := (toks.map Token.size).sum

@[simp] theorem tokensSize_nil : tokensSize [] = 0 := rfl

@[simp] theorem tokensSize_cons (t : Token) (ts : List Token) :
    tokensSize (t :: ts) = t.size + tokensSize ts := rfl

@[simp] theorem tokensSize_append (ts us : List Token) :
    tokensSize (ts ++ us) = tokensSize ts + tokensSize us := by
  simp [tokensSize]

theorem scan_size {code rest : Word} {t : Token} (h : scan code = .token t rest) :
    t.size + rest.length ≤ code.length := by
  have hskip := length_dropWhile_le isBlank code
  unfold scan at h
  split at h
  · cases h
  · rename_i c x heq
    rw [skipBlank] at heq
    rw [heq] at hskip
    unfold scanToken at h
    split at h
    · cases h
      have hlen := congrArg List.length (List.takeWhile_append_dropWhile (p := isWordChar) (l := x))
      simp only [List.length_append, List.length_cons] at hlen hskip
      simp only [Token.size, Lexeme.cstr, List.length_cons]
      omega
    · split at h
      · split at h
        · rename_i hquote
          cases h
          rw [scanQuote_eq hquote] at hskip
          simp only [Token.size, Lexeme.cstr, List.length_cons, List.length_append,
            List.length_nil] at hskip ⊢
          omega
        · cases h
      · split at h
        · rename_i s _ hsym
          cases h
          by_cases hs : s = .invert
          · subst hs
            have : rest.length ≤ x.length := scanSymbol_length hsym
            simp only [List.length_cons] at hskip
            simp only [Token.size, symWords, Option.getD_none, List.length_nil]
            omega
          · obtain ⟨w, hw, -, happ⟩ := scanSymbol_spelling hsym hs
            rw [happ, List.length_append] at hskip
            simp only [Token.size, hw, Option.getD_some]
            omega
        · cases h

theorem tokensSize_lex_le {code : Word} {toks : List Token} {e : LexEnd}
    (h : lex code = (toks, e)) : tokensSize toks ≤ code.length := by
  induction code using lex_induction generalizing toks e with
  | step code ih =>
    rw [lex_eq] at h
    cases hscan : scan code with
    | token t rest =>
      rw [hscan] at h
      cases h
      have hrest := @ih t rest hscan (lex rest).1 (lex rest).2 rfl
      have hsize := scan_size hscan
      rw [tokensSize_cons]
      omega
    | _ =>
      rw [hscan] at h
      cases h
      exact Nat.zero_le _

theorem Lexeme.Spelled.one_le_size {x : Lexeme} (hx : x.Spelled) : 1 ≤ x.cstr.length := by
  cases x with
  | ident w => exact List.length_pos_iff.mpr hx.1
  | quoted w => simp [Lexeme.cstr]

theorem length_optText {opt : Sym} (hopt : opt.IsArith ∨ opt.IsComp ∨ opt.IsJoin) :
    (optText opt).length = (Token.symbol opt).size + 2 ∧ 1 ≤ (Token.symbol opt).size := by
  cases opt <;> first | exact ⟨rfl, by decide⟩ | exact absurd hopt (by decide)

theorem length_dumpOpt {opt : Sym} (hopt : opt.IsArith ∨ opt.IsComp ∨ opt.IsJoin) :
    (dumpOpt opt).length + 1 ≤ 2 * tokensSize (optToks opt) + 2 ∧
      1 ≤ tokensSize (optToks opt) := by
  have hne : opt ≠ .reserved := by rintro rfl; exact absurd hopt (by decide)
  have htoks : optToks opt = [.symbol opt] := by cases opt <;> first | rfl | exact (hne rfl).elim
  obtain ⟨hlen, hpos⟩ := length_optText hopt
  rw [dumpOpt, if_neg hne, htoks, hlen]
  simp only [tokensSize_cons, tokensSize_nil]
  omega

theorem length_comma_le (args : SyntaxArgs μ) :
    args.comma.length ≤ 2 * tokensSize args.sepToks := by
  cases args with
  | nil => exact Nat.zero_le _
  | cons k vs rest => exact (by decide : 1 ≤ 2)

mutual

theorem length_dumpSyntaxVal_lt : ∀ {node : SyntaxVal μ}, node.WF → Spelled node.toks →
    (dumpSyntaxVal node).length < 2 * tokensSize node.toks
  | .val _ x true, _, hsp => by
    have hx := (spelled_word.mp (spelled_symbol.mp hsp)).1.one_le_size
    simp only [dumpSyntaxVal, SyntaxVal.toks, tokensSize_cons, tokensSize_nil, Token.size,
      symWords, Option.getD_some, if_true, List.length_append, List.length_cons, List.length_nil]
    omega
  | .val _ x false, _, hsp => by
    have hx := (spelled_word.mp hsp).1.one_le_size
    simp only [dumpSyntaxVal, SyntaxVal.toks, tokensSize_cons, tokensSize_nil, Token.size,
      Bool.false_eq_true, if_false, List.nil_append]
    omega
  | .valblock _ childs, hwf, hsp => by
    have h := length_dumpSyntaxVals_lt hwf (spelled_append.mp (spelled_symbol.mp hsp)).1
    simp only [dumpSyntaxVal, SyntaxVal.toks, tokensSize_cons, tokensSize_append, tokensSize_nil,
      Token.size, symWords, Option.getD_some, List.length_append, List.length_cons,
      List.length_nil]
    omega
  | .call _ k args, hwf, hsp => by
    obtain ⟨hk, hsp⟩ := spelled_word.mp hsp
    have hk := hk.one_le_size
    have h := length_dumpSyntaxArgs_le hwf.2.1 (spelled_append.mp (spelled_symbol.mp hsp)).1
    rw [dumpSyntaxVal]
    simp only [SyntaxVal.toks, tokensSize_cons, tokensSize_append, tokensSize_nil, Token.size,
      symWords, Option.getD_some, List.length_append, List.length_cons, List.length_nil]
    split <;> simp only [List.length_append, List.length_cons, List.length_nil] <;> omega

theorem length_dumpSyntaxVals_lt : ∀ {vs : SyntaxVals μ}, vs.WF → Spelled vs.toks →
    (dumpSyntaxVals vs).length < 2 * tokensSize vs.toks
  | .nil, hwf, _ => hwf.elim
  | .cons node opt rest, hwf, hsp => by
    rw [SyntaxVals.toks, List.append_assoc, spelled_append, spelled_append] at hsp
    obtain ⟨hnode, ⟨rfl, rfl⟩ | ⟨hopt, hrest⟩⟩ := hwf
    · have h := length_dumpSyntaxVal_lt hnode hsp.1
      simpa [dumpSyntaxVals, dumpOpt, SyntaxVals.toks, optToks] using h
    · have h₁ := length_dumpSyntaxVal_lt hnode hsp.1
      have h₂ := length_dumpSyntaxVals_lt hrest hsp.2.2
      have h₃ := length_dumpOpt (.inl hopt)
      simp only [dumpSyntaxVals, SyntaxVals.toks, List.length_append, tokensSize_append]
      omega

theorem length_dumpSyntaxArgs_le : ∀ {args : SyntaxArgs μ}, args.WF → Spelled args.toks →
    (dumpSyntaxArgs args).length ≤ 2 * tokensSize args.toks
  | .nil, _, _ => Nat.le_refl _
  | .cons k vs rest, hwf, hsp => by
    rw [SyntaxArgs.toks] at hsp
    simp only [List.append_assoc, List.cons_append, spelled_word, spelled_symbol,
      spelled_append] at hsp
    have hk := hsp.1.one_le_size
    have h₁ := length_dumpSyntaxVals_lt hwf.2.1 hsp.2.1
    have h₂ := length_dumpSyntaxArgs_le hwf.2.2 hsp.2.2.2
    have h₃ := length_comma_le rest
    simp only [dumpSyntaxArgs, SyntaxArgs.toks, tokensSize_cons, tokensSize_append, Token.size,
      symWords, Option.getD_some, List.length_append, List.length_cons, List.length_nil]
    omega

end

mutual

theorem length_dumpSyntaxItem_lt {stale : μ → List Word} : ∀ {node : SyntaxItem μ}, node.WF →
    node.Closed → Spelled node.toks →
    (dumpSyntaxItem stale node).length < 2 * tokensSize node.toks
  | .func _ k none body, _, hclosed, _ => absurd hclosed.1 Bool.false_ne_true
  | .func _ k (some args) body, hwf, hclosed, hsp => by
    obtain ⟨-, ⟨hargs, -⟩, hbody⟩ := hwf
    rw [SyntaxItem.toks] at hsp
    simp only [List.append_assoc, List.cons_append, spelled_word, spelled_symbol,
      spelled_append] at hsp
    have hk := hsp.1.one_le_size
    have h₁ := length_dumpSyntaxArgs_le hargs hsp.2.1
    have h₂ := @length_dumpSyntaxChilds_lt stale body hbody hclosed.2 hsp.2.2.1
    rw [dumpSyntaxItem, dumpFuncArgs]
    simp only [SyntaxItem.toks, tokensSize_cons, tokensSize_append, tokensSize_nil, Token.size,
      symWords, Option.getD_some, List.length_append, List.length_cons, List.length_nil]
    split <;> simp only [List.length_append, List.length_cons, List.length_nil] <;> omega
  | .block _ true childs, hwf, hclosed, hsp => by
    simp only [SyntaxItem.toks, List.cons_append, spelled_symbol, spelled_append] at hsp
    have h := @length_dumpSyntaxChilds_lt stale childs hwf hclosed hsp.1
    simp only [dumpSyntaxItem, SyntaxItem.toks, tokensSize_cons, tokensSize_append, tokensSize_nil,
      Token.size, symWords, Option.getD_some, if_true, List.length_append, List.length_cons,
      List.length_nil]
    omega
  | .block _ false childs, hwf, hclosed, hsp => by
    simp only [SyntaxItem.toks, List.cons_append, spelled_symbol, spelled_append] at hsp
    have h := @length_dumpSyntaxChilds_lt stale childs hwf hclosed hsp.1
    simp only [dumpSyntaxItem, SyntaxItem.toks, tokensSize_cons, tokensSize_append, tokensSize_nil,
      Token.size, symWords, Option.getD_some, Bool.false_eq_true, if_false, List.length_append,
      List.length_cons, List.length_nil]
    omega
  | .expr _ k opt vs, hwf, _, hsp => by
    obtain ⟨-, hopt, hvs⟩ := hwf
    simp only [SyntaxItem.toks, spelled_word, spelled_symbol] at hsp
    have hk := hsp.1.one_le_size
    have h := length_dumpSyntaxVals_lt hvs hsp.2
    have hlen := length_optText (.inr (.inl hopt))
    rw [Token.size] at hlen
    simp only [dumpSyntaxItem, SyntaxItem.toks, tokensSize_cons, Token.size, List.length_append]
    omega

theorem length_dumpSyntaxChilds_lt {stale : μ → List Word} : ∀ {items : SyntaxItems μ}, items.WF →
    items.Closed → Spelled items.toks →
    (dumpSyntaxChilds stale items).length < 2 * tokensSize items.toks
  | .nil, hwf, _, _ => hwf.elim
  | .cons node opt rest, hwf, hclosed, hsp => by
    rw [SyntaxItems.toks, List.append_assoc, spelled_append, spelled_append] at hsp
    obtain ⟨hnode, ⟨rfl, rfl⟩ | ⟨hopt, hrest⟩⟩ := hwf
    · have h := @length_dumpSyntaxItem_lt stale node hnode hclosed.1 hsp.1
      simpa [dumpSyntaxChilds, dumpOpt, SyntaxItems.toks, optToks] using h
    · have h₁ := @length_dumpSyntaxItem_lt stale node hnode hclosed.1 hsp.1
      have h₂ := @length_dumpSyntaxChilds_lt stale rest hrest hclosed.2 hsp.2.2
      have h₃ := length_dumpOpt (.inr (.inr hopt))
      simp only [dumpSyntaxChilds, SyntaxItems.toks, List.length_append, tokensSize_append]
      omega

end

theorem Parsed.length_dumped_lt {code : Word} {toks : List Token} {tree : SyntaxItems μ}
    {stale : μ → List Word} (h : Parsed toks tree) (hlex : lex code = (toks, .eof)) :
    (dumpSyntaxTree stale tree).length < 2 * code.length := by
  have hsp : Spelled tree.toks := h.toks_eq ▸ spelled_of_lex hlex
  calc (dumpSyntaxTree stale tree).length
    _ < 2 * tokensSize tree.toks := length_dumpSyntaxChilds_lt h.wf h.closed hsp
    _ ≤ 2 * code.length := Nat.mul_le_mul_left 2 (h.toks_eq ▸ tokensSize_lex_le hlex)

/-- **The text of a tree is less than twice as long as the code it was parsed from.** -/
theorem length_dumpSyntaxTree_lt {π : Type} {P : NodePool π μ} {code : Word} {toks : List Token}
    {tree : SyntaxItems μ} {stale : μ → List Word} {pool : π} {m : μ} {s : ParseState π}
    (hlex : lex code = (toks, .eof)) (hno : NoBraceForm toks)
    (hparse : interpSyntaxParse P toks pool = .ok (some (m, tree), s)) (hs : s.slips = []) :
    (dumpSyntaxTree stale tree).length < 2 * code.length :=
  (parsed_of_interpSyntaxParse hno hparse hs).length_dumped_lt hlex

theorem length_dumpSyntaxTree_emptyListTree :
    (dumpSyntaxTree (fun _ => []) emptyListTree).length < 2 * emptyListRule.length :=
  length_dumpSyntaxTree_lt lex_emptyListRule (by decide) interpSyntaxParse_emptyListTree rfl

end Lre
