import Lre.Interp.History
import Lre.Syntax.Nodes

/-!
# Nodes in every run

* `HandsTokens`: the tokens with which an execution comes to the parser.
* `interpreterExecute_account`: the nodes an execution loses, stage by stage.
* `History.wellformed`: the pool of an interpreter in any history.
* **`interpreterExecute_returned_iff`**: an execution returns every node exactly when no tokens
  come to the parser, or the tokens are accepted without giving up a value. A failed parse keeps
  the node of its content at least.
-/

namespace Lre

open CString

variable {σ η D : Type} {E : Engine σ η D} {n : ℕ} {w : World} {code : Word} {env : σ}
  {interp interp' : Interp Mempool}

/-! ## The stages in front of the parser -/

/-- What the stages in front of the parser keep: the pool, and the room in the buffers. -/
structure Interp.Kept (interp interp' : Interp Mempool) : Prop where
  syntaxMpool : interp'.syntaxMpool = interp.syntaxMpool
  codebuf : interp.codebuf.size ≤ interp'.codebuf.size
  workmem : interp.workmem.size ≤ interp'.workmem.size
  outbuf : interp.outbuf.size ≤ interp'.outbuf.size

theorem Interp.Kept.refl (interp : Interp Mempool) : interp.Kept interp :=
  ⟨rfl, Nat.le_refl _, Nat.le_refl _, Nat.le_refl _⟩

theorem Interp.Kept.trans {i₁ i₂ i₃ : Interp Mempool} (h : i₁.Kept i₂) (h' : i₂.Kept i₃) :
    i₁.Kept i₃ :=
  ⟨h'.syntaxMpool.trans h.syntaxMpool, Nat.le_trans h.codebuf h'.codebuf,
    Nat.le_trans h.workmem h'.workmem, Nat.le_trans h.outbuf h'.outbuf⟩

theorem interpLoadCode_kept (realloc : Option Memory) (code : Word) (interp : Interp Mempool) :
    interp.Kept (interpLoadCode realloc code interp).2 := by
  unfold interpLoadCode
  dsimp only
  split
  · cases he : interpExpands codebufSizeMax realloc interp.codebuf with
    | none =>
      rw [interpExpandsCodebuf, he]
      exact .refl interp
    | some b =>
      have hsize := le_interpExpands_size he
      rw [interpExpandsCodebuf, he]
      exact ⟨rfl, hsize, Nat.le_refl _, Nat.le_refl _⟩
  · exact ⟨rfl, Nat.le_refl _, Nat.le_refl _, Nat.le_refl _⟩

theorem interpLoad_kept {call : LoadCall} {realloc : Option Memory} {ret : ℤ}
    (h : interpLoad call realloc code interp = .ok (ret, interp')) : interp.Kept interp' := by
  rw [← interpLoad_state h]
  have hinit : interp.Kept (interpContextInit interp) :=
    ⟨rfl, Nat.le_refl _, Nat.le_refl _, Nat.le_refl _⟩
  exact hinit.trans (interpLoadCode_kept realloc code _)

theorem le_interpLexerAnalysis_size (realloc : Option Memory) (code : Word)
    (interp : Interp Mempool) :
    interp.workmem.size ≤ (interpLexerAnalysis realloc code interp).2.workmem.size := by
  obtain hsize | ⟨b, hb, hsize⟩ := interpLexerAnalysis_size realloc code interp
  · exact Nat.le_of_eq hsize.symm
  · exact hsize ▸ le_interpExpands_size hb

theorem lexerRound_kept {realloc : Option Memory} {r : Except ℤ (List Token)}
    (h : lexerRound realloc interp = .ok (r, interp')) : interp.Kept interp' := by
  rw [lexerRound] at h
  split at h
  · cases h
  · dsimp only at h
    split at h
    · split at h <;> cases h <;>
        exact ⟨rfl, Nat.le_refl _, le_interpLexerAnalysis_size _ _ _, Nat.le_refl _⟩
    · cases h

theorem executeLoop_kept {tbl : MacroTable} {r : Except ℤ (List Token)}
    (h : executeLoop tbl w n interp = .ok (r, interp')) : interp.Kept interp' := by
  induction n generalizing interp with
  | zero => cases h
  | succ n ih =>
    rw [executeLoop] at h
    split at h
    · cases h
    · rename_i heq
      cases h
      exact lexerRound_kept heq
    · rename_i interp₁ heq
      have hround := lexerRound_kept heq
      split at h
      · cases h
        exact hround
      · cases h
        exact hround
      · split at h <;> rename_i hload
        · have hreload := @interpLoad_kept _ _ _ .reload _ _ (congrArg Except.ok hload)
          exact hround.trans (hreload.trans (ih h))
        · cases h
          exact hround.trans (@interpLoad_kept _ _ _ .reload _ _ (congrArg Except.ok hload))

theorem executeEnd_kept (ret : ℤ) (interp : Interp Mempool) :
    interp.Kept (executeEnd ret interp).2 := by
  unfold executeEnd
  split <;> exact ⟨rfl, Nat.le_refl _, Nat.le_refl _, Nat.le_refl _⟩

/-! ## The parser -/

/-- The tokens with which an execution comes to the parser. -/
def HandsTokens (E : Engine σ η D) (n : ℕ) (w : World) (code : Word) (interp : Interp Mempool)
    (toks : List Token) : Prop :=
  ∃ ret interp₀ interp₁, interpContextCreate (w.codebuf n) code interp = .ok (ret, interp₀) ∧
    executeLoop E.tbl w n interp₀ = .ok (.ok toks, interp₁)

theorem executeRule_kept {toks : List Token} {ret : ℤ}
    (h : executeRule E w toks env interp = .ok (ret, interp')) :
    ∃ p, interpSyntaxParse (syntaxMpool w.count) toks interp.syntaxMpool = .ok p ∧
      ({ interp with syntaxMpool := poolAfter p }).Kept interp' := by
  have hend : ∀ (ret' : ℤ) (interp₁ : Interp Mempool),
      (.ok (executeEnd ret' interp₁) : Except ExecuteFault _) = .ok (ret, interp') →
      interp₁.Kept interp' := by
    intro ret' interp₁ he
    have hkept := executeEnd_kept ret' interp₁
    rwa [Except.ok.inj he] at hkept
  rw [executeRule] at h
  split at h
  · cases h
  · rename_i s heq
    exact ⟨_, heq, hend _ _ h⟩
  · rename_i m tree s heq
    refine ⟨_, heq, ?_⟩
    dsimp only at h
    split at h
    · exact hend _ _ h
    · rw [executeTree] at h
      split at h
      · cases h
      · have hkept := hend _ _ h
        exact ⟨hkept.syntaxMpool, hkept.codebuf, hkept.workmem,
          Nat.le_trans (le_execOutputs_size _ _ _) hkept.outbuf⟩

/-- **The nodes that an execution loses.** -/
theorem interpreterExecute_account {ret : ℤ}
    (h : interpreterExecute E n w code env interp = .ok (ret, interp')) :
    ∃ lost, interp.syntaxMpool.Account interp'.syntaxMpool [] lost ∧
      (lost = [] ↔ ∀ toks, HandsTokens E n w code interp toks → CleanRule toks) := by
  rw [interpreterExecute] at h
  split at h
  · cases h
  · rename_i ret₀ interp₀ hcreate
    have hkept₀ := @interpLoad_kept _ _ _ .create _ _ hcreate
    split at h
    · cases h
    · rename_i ret₁ interp₁ hloop
      have hkept : interp.Kept interp' := by
        have hend := executeEnd_kept ret₁ interp₁
        rw [Except.ok.inj h] at hend
        exact hkept₀.trans ((executeLoop_kept hloop).trans hend)
      refine ⟨[], hkept.syntaxMpool ▸ .refl _, fun _ toks htoks => ?_, fun _ => rfl⟩
      obtain ⟨_, _, _, hcreate', hloop'⟩ := htoks
      rw [hcreate] at hcreate'
      cases hcreate'
      rw [hloop] at hloop'
      cases hloop'
    · rename_i toks interp₁ hloop
      have hkept := hkept₀.trans (executeLoop_kept hloop)
      obtain ⟨p, hparse, hafter⟩ := executeRule_kept h
      obtain ⟨lost, hacc, hclean⟩ := interpSyntaxParse_account w.count hparse
      have hpool : interp'.syntaxMpool = poolAfter p := hafter.syntaxMpool
      rw [hkept.syntaxMpool, ← hpool] at hacc
      refine ⟨lost, hacc, hclean.trans ?_⟩
      constructor
      · rintro hclean toks' ⟨_, _, _, hcreate', hloop'⟩
        rw [hcreate] at hcreate'
        cases hcreate'
        rw [hloop] at hloop'
        cases hloop'
        exact hclean
      · intro hall
        exact hall toks ⟨ret₀, interp₀, interp₁, hcreate, hloop⟩

/-- The pool of an interpreter holds no node twice, in any history. -/
theorem History.wellformed {Q : Word → σ → Prop} (h : History E Q interp) :
    interp.syntaxMpool.Wellformed := by
  induction h with
  | create heap => exact mempoolInit_wellformed
  | execute n w _ _ he ih =>
    obtain ⟨lost, hacc, -⟩ := interpreterExecute_account he
    exact hacc.wellformed ih

/-- **In any history, an execution returns every node it has taken, and each one once, exactly when
no tokens come to the parser, or its control accepts them without giving up a value.** -/
theorem interpreterExecute_returned_iff {Q : Word → σ → Prop} (h : History E Q interp) {ret : ℤ}
    (he : interpreterExecute E n w code env interp = .ok (ret, interp')) :
    interp.syntaxMpool.Returned interp'.syntaxMpool ↔
      ∀ toks, HandsTokens E n w code interp toks → CleanRule toks := by
  obtain ⟨lost, hacc, hclean⟩ := interpreterExecute_account he
  exact (hacc.returned_iff h.wellformed).trans hclean

theorem HandsTokens.macroLoop {toks : List Token} (h : interp.Ungrown) (hc : Contained E code env)
    (ht : HandsTokens E n w code interp toks) : macroLoop E.tbl n code = .handed toks := by
  obtain ⟨ret, interp₀, interp₁, hcreate, hloop⟩ := ht
  have hload := (h.load hc.nul_notMem hc.length_lt .create (w.codebuf n)).1
  rw [interpLoad, hcreate] at hload
  cases hload
  obtain ⟨interp₂, -, hloop'⟩ := executeLoop_loaded w n h hc.nul_notMem hc.length_lt hc.texts
  rw [hloop] at hloop'
  cases hend : Lre.macroLoop E.tbl n code with
  | handed toks' =>
    rw [hend] at hloop'
    cases hloop'
    rfl
  | err => rw [hend] at hloop'; cases hloop'
  | fuel => rw [hend] at hloop'; cases hloop'

theorem cleanRule_exampleToks : CleanRule exampleToks := by
  have hrun : Control.run 20 (.start exampleToks) = ⟨.accept, [], [], 0⟩ := by decide
  exact ⟨[], [], hrun ▸ Control.reaches_run 20 _⟩

/-- `f(x=1){e==1}` returns the nodes it has taken. -/
theorem interpreterExecute_returned_argRule : ∃ ret interp,
    interpreterExecute exampleEngine 1 exampleWorld argRule () newInterp = .ok (ret, interp) ∧
      newInterp.syntaxMpool.Returned interp.syntaxMpool := by
  have hnew : History exampleEngine (fun _ _ => True) newInterp := .create _
  have hungrown : newInterp.Ungrown := interpreterCreate_ungrown _ _
  have href := interpreterExecute_refines hungrown contained_argRule 1 exampleWorld
  rw [rule_argRule] at href
  obtain ⟨⟨ret, interp⟩, he⟩ := href.exists_ok
  refine ⟨ret, interp, he, (interpreterExecute_returned_iff hnew he).mpr fun toks htoks => ?_⟩
  have hloop := htoks.macroLoop hungrown contained_argRule
  rw [macroLoop_argRule] at hloop
  cases hloop
  exact cleanRule_exampleToks

/-- The rule `f)` is refused, and the node of its content is not returned. -/
theorem interpreterExecute_lostContent : ∃ ret interp,
    interpreterExecute exampleEngine 1 exampleWorld ['f', ')'] () newInterp = .ok (ret, interp) ∧
      ret = einval ∧ ¬newInterp.syntaxMpool.Returned interp.syntaxMpool := by
  have hrun : (interpreterExecute exampleEngine 1 exampleWorld ['f', ')'] () newInterp).map
      (fun p => (p.1, p.2.syntaxMpool.node.length)) = .ok (einval, 127) := by decide +kernel
  cases he : interpreterExecute exampleEngine 1 exampleWorld ['f', ')'] () newInterp with
  | error fault => rw [he] at hrun; cases hrun
  | ok p =>
    rw [he] at hrun
    obtain ⟨hret, hlen⟩ := Prod.mk.inj (Except.ok.inj hrun)
    refine ⟨p.1, p.2, rfl, hret, fun hback => ?_⟩
    have hall := hback.once.length_eq
    rw [List.length_append, Mempool.ids, Mempool.ids, List.length_map, List.length_map] at hall
    have hnew : newInterp.syntaxMpool.node.length = 128 := rfl
    omega

end Lre
