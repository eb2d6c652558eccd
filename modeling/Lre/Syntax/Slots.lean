import Lre.Syntax.Parse

/-!
# Argument slots

A node has room for `SYNTAX_ARG_MAX` arguments.

* `SyntaxItems.Fits`: no argument list of the tree has more entries.
* **`interpSyntaxParse_fits`**: the parser makes no other trees.
-/

namespace Lre

open Run

variable {π μ : Type} {P : NodePool π μ}

/-! ## The slots of a list -/

mutual

/-- No argument list of the value has more than `SYNTAX_ARG_MAX` entries. -/
def SyntaxVal.Fits : SyntaxVal μ → Prop
  | .val .. => True
  | .valblock _ childs => childs.Fits
  | .call _ _ args => args.count ≤ syntaxArgMax ∧ args.Fits

def SyntaxVals.Fits : SyntaxVals μ → Prop
  | .nil => True
  | .cons node _ rest => node.Fits ∧ rest.Fits

def SyntaxArgs.Fits : SyntaxArgs μ → Prop
  | .nil => True
  | .cons _ valchilds rest => valchilds.Fits ∧ rest.Fits

end

/-- The argument list of a function, when it is written. -/
def FuncArgsFits : Option (SyntaxArgs μ) → Prop
  | none => True
  | some args => args.count ≤ syntaxArgMax ∧ args.Fits

mutual

/-- No argument list of the item has more than `SYNTAX_ARG_MAX` entries. -/
def SyntaxItem.Fits : SyntaxItem μ → Prop
  | .func _ _ args body => FuncArgsFits args ∧ body.Fits
  | .block _ _ childs => childs.Fits
  | .expr _ _ _ valchilds => valchilds.Fits

def SyntaxItems.Fits : SyntaxItems μ → Prop
  | .nil => True
  | .cons node _ rest => node.Fits ∧ rest.Fits

end

/-! ## The parser -/

theorem syntaxAddVal_fits {node : SyntaxVal μ} {more : Parse π (Bool × SyntaxVals μ)}
    (hnode : node.Fits) (hmore : Returns (fun r => r.2.Fits) more) :
    Returns (fun r => r.2.Fits) (syntaxAddVal node more) := by
  unfold syntaxAddVal
  refine returns_bind fun opt => ?_
  split_ifs
  · refine returns_bind fun opt => hmore.bind ?_
    rintro ⟨ret, rest⟩ hrest
    exact .pure ⟨hnode, hrest⟩
  · exact .pure ⟨hnode, trivial⟩

theorem syntaxParseWord_fits {isvar : Bool} {more : Parse π (Bool × SyntaxVals μ)}
    (hmore : Returns (fun r => r.2.Fits) more) :
    Returns (fun r => r.2.Fits) (syntaxParseWord P isvar more) := by
  unfold syntaxParseWord
  refine returns_bind fun x => ?_
  split
  · exact .pure trivial
  · exact returns_bind fun _ => returns_bind fun _ => syntaxAddVal_fits trivial hmore

/-- A list that is returned has at most `k` entries. -/
def ArgsFit (k : ℕ) (r : Option (SyntaxArgs μ)) : Prop :=
  ∀ args, r = some args → args.count ≤ k ∧ args.Fits

theorem ArgsFit.none {k : ℕ} : ArgsFit k (Option.none : Option (SyntaxArgs μ)) := by
  rintro args ⟨⟩

theorem ArgsFit.some {k : ℕ} {args : SyntaxArgs μ} (hle : args.count ≤ k) (h : args.Fits) :
    ArgsFit k (some args) := by
  rintro _ ⟨⟩
  exact ⟨hle, h⟩

theorem ArgsFit.cons {k : ℕ} {key : Lexeme} {vals : SyntaxVals μ} {r : Option (SyntaxArgs μ)}
    (hvals : vals.Fits) (h : ArgsFit k r) : ArgsFit (k + 1) (r.map (.cons key vals)) := by
  cases r with
  | none => exact .none
  | some args => exact .some (Nat.succ_le_succ (h args rfl).1) ⟨hvals, (h args rfl).2⟩

mutual

theorem syntaxParseVal_fits : ∀ n : ℕ, Returns (fun r => r.2.Fits) (syntaxParseVal P n)
  | 0 => .throw _
  | n + 1 => by
    unfold syntaxParseVal
    refine returns_bind fun type => ?_
    cases type with
    | unknown => exact .pure trivial
    | normal => exact syntaxParseWord_fits (syntaxParseVal_fits n)
    | var => exact returns_bind fun _ => syntaxParseWord_fits (syntaxParseVal_fits n)
    | block =>
      refine returns_bind fun _ => returns_bind fun m => (syntaxParseVal_fits n).bind ?_
      rintro ⟨ret, childs⟩ hchilds
      refine returns_bind fun _ => returns_bind fun o => ?_
      split
      · exact syntaxAddVal_fits hchilds (syntaxParseVal_fits n)
      · exact returns_bind fun _ => .pure trivial
    | call =>
      refine (syntaxParseCall_fits n).bind fun r hr => ?_
      cases r with
      | none => exact .pure trivial
      | some node => exact syntaxAddVal_fits (hr node rfl) (syntaxParseVal_fits n)

theorem syntaxParseCall_fits : ∀ n : ℕ,
    Returns (fun r => ∀ node, r = some node → node.Fits) (syntaxParseCall P n)
  | 0 => .throw _
  | n + 1 => by
    have hfail : ∀ m : μ, Returns (fun r => ∀ node, r = some node → node.Fits)
        (do freeNode P m; return none : Parse π (Option (SyntaxVal μ))) := fun m =>
      returns_bind fun _ => .pure fun _ h => by cases h
    unfold syntaxParseCall
    refine returns_bind fun m => returns_bind fun k => ?_
    split
    · exact hfail m
    · refine returns_bind fun o => ?_
      split
      · refine returns_bind fun t => ?_
        split
        · exact .throw _
        · refine returns_bind fun _ => .pure ?_
          rintro _ ⟨⟩
          exact ⟨Nat.zero_le _, trivial⟩
        · refine (syntaxParseFuncArgs_fits n).bind fun r hr => ?_
          cases r with
          | none => exact hfail _
          | some args =>
            refine .pure ?_
            rintro _ ⟨⟩
            exact hr args rfl
      · exact hfail m

theorem syntaxParseFuncArgs_fits : ∀ n : ℕ,
    Returns (ArgsFit syntaxArgMax) (syntaxParseFuncArgs P n)
  | 0 => .throw _
  | n + 1 => by
    unfold syntaxParseFuncArgs
    refine returns_bind fun o => ?_
    split
    · exact returns_bind fun _ => .pure (.some (Nat.zero_le _) trivial)
    · exact syntaxParseArgsLoop_fits n syntaxArgMax

theorem syntaxParseArgsLoop_fits : ∀ n k : ℕ, Returns (ArgsFit k) (syntaxParseArgsLoop P n k)
  | 0, _ => .throw _
  | n + 1, 0 => by
    unfold syntaxParseArgsLoop
    exact returns_bind fun _ => .pure (.some (Nat.le_refl _) trivial)
  | n + 1, k + 1 => by
    unfold syntaxParseArgsLoop
    refine returns_bind fun key => ?_
    split
    · exact .pure .none
    · refine returns_bind fun _ => returns_bind fun opt => ?_
      split_ifs
      · refine (syntaxParseVal_fits n).bind ?_
        rintro ⟨ret, vals⟩ hvals
        have hrest : ∀ key : Lexeme, Returns (ArgsFit (k + 1)) (do
            let rest ← syntaxParseArgsLoop P n k
            return rest.map (.cons key vals)) := fun key =>
          (syntaxParseArgsLoop_fits n k).bind fun r hr => .pure (hr.cons hvals)
        cases ret with
        | false => exact .pure .none
        | true =>
          refine returns_bind fun comma => ?_
          split_ifs
          · exact returns_bind fun _ => hrest _
          · refine returns_bind fun o => ?_
            split
            · exact returns_bind fun _ =>
                .pure (.some (Nat.succ_le_succ (Nat.zero_le k)) ⟨hvals, trivial⟩)
            · exact returns_bind fun _ => hrest _
      · exact .pure .none

end

/-- An item that is returned. -/
def ItemFits (r : Option (SyntaxItem μ)) : Prop := ∀ node, r = some node → node.Fits

theorem ItemFits.none : ItemFits (Option.none : Option (SyntaxItem μ)) := by
  rintro node ⟨⟩

theorem ItemFits.some {node : SyntaxItem μ} (h : node.Fits) : ItemFits (some node) := by
  rintro _ ⟨⟩
  exact h

theorem freeNode_fits (m : μ) :
    Returns ItemFits (do freeNode P m; return none : Parse π (Option (SyntaxItem μ))) :=
  returns_bind fun _ => .pure .none

theorem syntaxParseExpr_fits (n : ℕ) : Returns ItemFits (syntaxParseExpr P n) := by
  unfold syntaxParseExpr
  refine returns_bind fun m => returns_bind fun key => ?_
  split
  · exact freeNode_fits m
  · refine returns_bind fun opt => ?_
    split_ifs
    · refine (syntaxParseVal_fits n).bind ?_
      rintro ⟨ret, vals⟩ hvals
      cases ret with
      | false => exact freeNode_fits m
      | true => exact .pure (.some hvals)
    · exact freeNode_fits m

theorem syntaxAddItem_fits {node : SyntaxItem μ} {more : Parse π (Bool × SyntaxItems μ)}
    (hnode : node.Fits) (hmore : Returns (fun r => r.2.Fits) more) :
    Returns (fun r => r.2.Fits) (syntaxAddItem node more) := by
  unfold syntaxAddItem
  refine returns_bind fun opt => ?_
  split
  · refine returns_bind fun opt => ?_
    split_ifs
    · refine returns_bind fun _ => returns_bind fun _ => hmore.bind ?_
      rintro ⟨ret, rest⟩ hrest
      exact .pure ⟨hnode, hrest⟩
    · exact .pure ⟨hnode, trivial⟩
  · refine returns_bind fun o => ?_
    split
    · exact .pure ⟨hnode, trivial⟩
    · refine returns_bind fun _ => hmore.bind ?_
      rintro ⟨ret, rest⟩ hrest
      exact .pure ⟨hnode, hrest⟩

theorem syntaxCloseBlock_fits {negative : Bool} {block : Parse π (Option (μ × SyntaxItems μ))}
    (hblock : Returns (fun r => ∀ p, r = some p → p.2.Fits) block) :
    Returns ItemFits (syntaxCloseBlock negative block) := by
  unfold syntaxCloseBlock
  refine hblock.bind fun r hr => ?_
  split
  · exact .pure .none
  · refine returns_bind fun o => ?_
    split
    · exact .pure (.some (hr _ rfl))
    · exact .pure .none

theorem syntaxParseFuncEnd_fits {m : μ} {k : Lexeme} {args : Option (SyntaxArgs μ)}
    {body : Parse π (Bool × SyntaxItems μ)} (hargs : FuncArgsFits args)
    (hbody : Returns (fun r => r.2.Fits) body) :
    Returns ItemFits (syntaxParseFuncEnd P m k args body) := by
  unfold syntaxParseFuncEnd
  refine hbody.bind ?_
  rintro ⟨ret, childs⟩ hchilds
  cases ret with
  | false => exact freeNode_fits m
  | true =>
    refine returns_bind fun o => ?_
    split
    · exact .pure (.some ⟨hargs, hchilds⟩)
    · exact freeNode_fits m

mutual

theorem syntaxParseBlock'_fits : ∀ n : ℕ, Returns (fun r => r.2.Fits) (syntaxParseBlock' P n)
  | 0 => .throw _
  | n + 1 => by
    have hadd : ∀ item : Parse π (Option (SyntaxItem μ)), Returns ItemFits item →
        Returns (fun r => r.2.Fits) (do
          match ← item with
          | none => return (false, .nil)
          | some node => syntaxAddItem node (syntaxParseBlock' P n)) := by
      intro item hitem
      refine hitem.bind fun r hr => ?_
      cases r with
      | none => exact .pure trivial
      | some node => exact syntaxAddItem_fits (hr node rfl) (syntaxParseBlock'_fits n)
    unfold syntaxParseBlock'
    refine returns_bind fun type => ?_
    cases type with
    | eof => exact .pure trivial
    | unknown => exact .pure trivial
    | func => exact hadd _ (syntaxParseFunc_fits n)
    | negBlock =>
      exact returns_bind fun _ => hadd _ (syntaxCloseBlock_fits (syntaxParseBlock_fits n))
    | block => exact returns_bind fun _ => hadd _ (syntaxCloseBlock_fits (syntaxParseBlock_fits n))
    | normal => exact hadd _ (syntaxParseExpr_fits n)

theorem syntaxParseBlock_fits : ∀ n : ℕ,
    Returns (fun r => ∀ p, r = some p → p.2.Fits) (syntaxParseBlock P n)
  | 0 => .throw _
  | n + 1 => by
    unfold syntaxParseBlock
    refine returns_bind fun m => (syntaxParseBlock'_fits n).bind ?_
    rintro ⟨ret, childs⟩ hchilds
    cases ret with
    | false => exact returns_bind fun _ => .pure fun _ h => by cases h
    | true =>
      refine .pure ?_
      rintro _ ⟨⟩
      exact hchilds

theorem syntaxParseFunc_fits : ∀ n : ℕ, Returns ItemFits (syntaxParseFunc P n)
  | 0 => .throw _
  | n + 1 => by
    unfold syntaxParseFunc
    refine returns_bind fun m => returns_bind fun k => ?_
    split
    · exact freeNode_fits m
    · refine returns_bind fun o => ?_
      split
      · refine (syntaxParseFuncArgs_fits n).bind fun r hr => ?_
        cases r with
        | none => exact freeNode_fits _
        | some args =>
          refine returns_bind fun o => ?_
          split
          · exact syntaxParseFuncEnd_fits (hr args rfl) (syntaxParseBlock'_fits n)
          · exact freeNode_fits _
      · exact syntaxParseFuncEnd_fits trivial (syntaxParseBlock'_fits n)
      · exact freeNode_fits m

end

/-- **No list of a parsed tree has more entries than its node has slots.** -/
theorem interpSyntaxParse_fits {toks : List Token} {pool : π} {m : μ} {tree : SyntaxItems μ}
    {s : ParseState π} (h : interpSyntaxParse P toks pool = .ok (some (m, tree), s)) :
    tree.Fits := by
  have hcontent : Returns (fun r => ∀ p, r = some p → p.2.Fits)
      (syntaxParseContent P (parseFuel toks)) := by
    unfold syntaxParseContent
    refine returns_bind fun m => returns_bind fun _ => (syntaxParseBlock'_fits _).bind ?_
    rintro ⟨ret, childs⟩ hchilds
    cases ret with
    | false => exact .pure fun _ h => by cases h
    | true =>
      refine returns_bind fun _ => .pure ?_
      rintro _ ⟨⟩
      exact hchilds
  exact hcontent _ _ _ h (m, tree) rfl

end Lre
