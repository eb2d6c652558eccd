import Lre.Lexer.Scan
import Lre.Macro.Table

/-!
# The content of a macro

* `contentTokens`, `lreMacroContent2token`: the source, with its local array of tokens.
* `substitute`: the content with the actuals in place of the references to the formals.
* `Clean`: in front of the last `$`, the name of a formal stands only where it is referred to.
* **`content2token_exact_iff`**: the code of a macro is its content with the actuals, for all
  actuals, exactly when the content is clean and has no more references than the array takes.
-/

namespace Lre

open CString

/-! ## The source -/

/-- The loop of `lre_macro_content2token` over `macro->args`, with `strncmp`. -/
def findFormal (formals : List Word) (ptr : Word) : Option (Fin formals.length) :=
  formals.findFinIdx? (·.isPrefixOf ptr)

/-- The loop of `lre_macro_content2token` at `ptr`; `word` is the text between the last token and
`ptr`. -/
def contentTokens (formals : List Word) (word : Word) :
    Word → List (MacroToken formals.length)
  | [] => [.word word]
  | c :: ptr =>
    if '$' ∈ c :: ptr then
      match findFormal formals ptr with
      -- the cut drops `c`, whatever it is
      | some i => .word word :: .arg i :: contentTokens formals [] (ptr.drop formals[i].length)
      | none => contentTokens formals (word ++ [c]) ptr
    else [.word (word ++ c :: ptr)]
  termination_by ptr => ptr.length
  decreasing_by
    · exact Nat.lt_succ_of_le (List.length_drop ▸ Nat.sub_le _ _)
    · exact Nat.lt_succ_self _

/-- `2 * LRE_MACRO_ARGC_MAX + 1`, the length of the local array `token`. -/
def contentTokenMax : ℕ := 2 * lreMacroArgcMax + 1

theorem nul_notMem_contentTokens {formals : List Word} {word ptr : Word} (hword : nul ∉ word)
    (hptr : nul ∉ ptr) : ∀ w, .word w ∈ contentTokens formals word ptr → nul ∉ w := by
  induction word, ptr using contentTokens.induct formals with
  | case1 word => simpa [contentTokens] using hword
  | case2 word c ptr h i hi ih =>
    have hrest := ih nofun fun hmem => hptr (List.mem_cons_of_mem _ (List.mem_of_mem_drop hmem))
    rw [contentTokens, if_pos h, hi]
    intro w hw
    rcases List.mem_cons.mp hw with heq | hw
    · exact MacroToken.word.inj heq ▸ hword
    · rcases List.mem_cons.mp hw with heq | hw
      · cases heq
      · exact hrest w hw
  | case3 word c ptr h hi ih =>
    rw [List.mem_cons, not_or] at hptr
    rw [contentTokens, if_pos h, hi]
    exact ih (by simpa using ⟨hword, hptr.1⟩) hptr.2
  | case4 word c ptr h =>
    rw [contentTokens, if_neg h]
    intro w hw
    rw [MacroToken.word.inj (List.mem_singleton.mp hw), List.mem_append, not_or]
    exact ⟨hword, hptr⟩

/-- `lre_macro_content2token`, which makes the macro; `none` when it writes behind its array. -/
def lreMacroContent2token (keyword : Word) (args : List Word) (content : Word)
    (h : nul ∉ content) : Option LreMacro :=
  if (contentTokens args [] content).length ≤ contentTokenMax then
    some ⟨keyword, args, contentTokens args [] content, nul_notMem_contentTokens nofun h⟩
  else none

/-! ## References -/

/-- The formal that is referred to where `c` is followed by `rest`: `c` is a `$`, and the formal
the identifier behind it. -/
def reference (formals : List Word) (c : Char) (rest : Word) : Option (Fin formals.length) :=
  if c = '$' then formals.findFinIdx? (· = rest.takeWhile isWordChar) else none

/-- **The content with the actuals in place of the references to the formals.** -/
def substitute (formals actuals : List Word) : Word → Word
  | [] => []
  | c :: rest =>
    match reference formals c rest with
    | some i => actuals.getD i [] ++ substitute formals actuals (rest.dropWhile isWordChar)
    | none => c :: substitute formals actuals rest
  termination_by content => content.length
  decreasing_by
    · exact Nat.lt_succ_of_le (length_dropWhile_le _ _)
    · exact Nat.lt_succ_self _

/-- How often the content refers to a formal. -/
def references (formals : List Word) : Word → ℕ
  | [] => 0
  | c :: rest =>
    match reference formals c rest with
    | some _ => references formals (rest.dropWhile isWordChar) + 1
    | none => references formals rest
  termination_by content => content.length
  decreasing_by
    · exact Nat.lt_succ_of_le (length_dropWhile_le _ _)
    · exact Nat.lt_succ_self _

/-- Up to the last `$`, no formal's name begins behind a character but where the formal is
referred to, and there no formal before it in the list is the beginning of its name. -/
def Clean (formals : List Word) : Word → Prop
  | [] => True
  | c :: rest =>
    '$' ∈ c :: rest →
      match reference formals c rest with
      | some i => (∀ j, j < i → ¬formals[j] <+: rest) ∧ Clean formals (rest.dropWhile isWordChar)
      | none => (∀ f ∈ formals, ¬f <+: rest) ∧ Clean formals rest
  termination_by content => content.length
  decreasing_by
    · exact Nat.lt_succ_of_le (length_dropWhile_le _ _)
    · exact Nat.lt_succ_self _

/-! ## Pieces -/

/-- A content as characters and references. -/
inductive Piece (argc : ℕ)
  | char (c : Char)
  | ref (i : Fin argc)
  deriving DecidableEq

/-- The pieces of a token. -/
def MacroToken.pieces {argc : ℕ} : MacroToken argc → List (Piece argc)
  | .arg argindex => [.ref argindex]
  | .word wordptr => wordptr.map .char

/-- The text of a piece. -/
def Piece.text {argc : ℕ} (actuals : List Word) : Piece argc → Word
  | .char c => [c]
  | .ref i => actuals.getD i []

/-- The pieces of a content. -/
def contentPieces (formals : List Word) : Word → List (Piece formals.length)
  | [] => []
  | c :: rest =>
    match reference formals c rest with
    | some i => .ref i :: contentPieces formals (rest.dropWhile isWordChar)
    | none => .char c :: contentPieces formals rest
  termination_by content => content.length
  decreasing_by
    · exact Nat.lt_succ_of_le (length_dropWhile_le _ _)
    · exact Nat.lt_succ_self _

variable {formals actuals : List Word} {c : Char} {rest ptr content : Word}

theorem substitute_eq (content : Word) : substitute formals actuals content =
    (contentPieces formals content).flatMap (Piece.text actuals) := by
  induction content using contentPieces.induct formals with
  | case1 => rw [substitute, contentPieces]; rfl
  | case2 c rest i hi ih =>
    rw [substitute, contentPieces, hi, List.flatMap_cons, ← ih]
    rfl
  | case3 c rest hi ih =>
    rw [substitute, contentPieces, hi, List.flatMap_cons, ← ih]
    rfl

theorem length_contentPieces (content : Word) :
    (contentPieces formals content).length ≤ content.length := by
  induction content using contentPieces.induct formals with
  | case1 => rw [contentPieces]; exact Nat.le_refl _
  | case2 c rest i hi ih =>
    rw [contentPieces, hi]
    exact Nat.succ_le_succ (Nat.le_trans ih (length_dropWhile_le _ _))
  | case3 c rest hi ih =>
    rw [contentPieces, hi]
    exact Nat.succ_le_succ ih

/-- The piece is a reference. -/
def Piece.isRef {argc : ℕ} : Piece argc → Bool
  | .char _ => false
  | .ref _ => true

theorem references_eq (content : Word) :
    references formals content = (contentPieces formals content).countP Piece.isRef := by
  induction content using contentPieces.induct formals with
  | case1 => rw [references, contentPieces]; rfl
  | case2 c rest i hi ih => rw [references, contentPieces, hi, List.countP_cons, ih]; rfl
  | case3 c rest hi ih => rw [references, contentPieces, hi, List.countP_cons, ih]; rfl

theorem MacroToken.text_eq {argc : ℕ} (t : MacroToken argc) (h : argc = actuals.length) :
    t.text actuals h = t.pieces.flatMap (Piece.text actuals) := by
  cases t with
  | arg argindex =>
    have hlt : argindex.val < actuals.length := h ▸ argindex.isLt
    simp [text, pieces, Piece.text, hlt]
  | word wordptr => simp [text, pieces, Piece.text, List.flatMap_map]

/-! ### The scanner -/

/-- The pieces of the scanner's tokens. -/
def scanPieces (formals : List Word) : Word → List (Piece formals.length)
  | [] => []
  | c :: ptr =>
    if '$' ∈ c :: ptr then
      match findFormal formals ptr with
      | some i => .ref i :: scanPieces formals (ptr.drop formals[i].length)
      | none => .char c :: scanPieces formals ptr
    else (c :: ptr).map .char
  termination_by ptr => ptr.length
  decreasing_by
    · exact Nat.lt_succ_of_le (List.length_drop ▸ Nat.sub_le _ _)
    · exact Nat.lt_succ_self _

theorem pieces_contentTokens (word ptr : Word) :
    (contentTokens formals word ptr).flatMap MacroToken.pieces =
      word.map .char ++ scanPieces formals ptr := by
  induction word, ptr using contentTokens.induct formals with
  | case1 word => simp [contentTokens, scanPieces, MacroToken.pieces]
  | case2 word c ptr h i hi ih =>
    rw [contentTokens, scanPieces, if_pos h, if_pos h, hi]
    dsimp only
    rw [List.flatMap_cons, List.flatMap_cons, ih]
    rfl
  | case3 word c ptr h hi ih =>
    rw [contentTokens, scanPieces, if_pos h, if_pos h, hi]
    simp [ih]
  | case4 word c ptr h =>
    rw [contentTokens, scanPieces, if_neg h, if_neg h]
    simp [MacroToken.pieces]

theorem countP_isRef_chars {argc : ℕ} (w : Word) :
    (w.map (Piece.char : Char → Piece argc)).countP Piece.isRef = 0 := by
  rw [List.countP_map]
  exact List.countP_eq_zero.mpr fun _ _ => Bool.false_ne_true

theorem length_contentTokens (word ptr : Word) : (contentTokens formals word ptr).length =
    2 * (scanPieces formals ptr).countP Piece.isRef + 1 := by
  induction word, ptr using contentTokens.induct formals with
  | case1 word => rw [contentTokens, scanPieces]; rfl
  | case2 word c ptr h i hi ih =>
    rw [contentTokens, scanPieces, if_pos h, if_pos h, hi]
    dsimp only
    rw [List.length_cons, List.length_cons, ih, List.countP_cons]
    show _ = 2 * (_ + 1) + 1
    omega
  | case3 word c ptr h hi ih =>
    rw [contentTokens, scanPieces, if_pos h, if_pos h, hi]
    exact ih
  | case4 word c ptr h =>
    rw [contentTokens, scanPieces, if_neg h, if_neg h, countP_isRef_chars]
    rfl

theorem length_scanPieces (ptr : Word) : (scanPieces formals ptr).length ≤ ptr.length := by
  induction ptr using scanPieces.induct formals with
  | case1 => rw [scanPieces]; exact Nat.le_refl _
  | case2 c ptr h i hi ih =>
    rw [scanPieces, if_pos h, hi]
    refine Nat.succ_le_succ (Nat.le_trans ih ?_)
    exact List.length_drop ▸ Nat.sub_le _ _
  | case3 c ptr h hi ih =>
    rw [scanPieces, if_pos h, hi]
    exact Nat.succ_le_succ ih
  | case4 c ptr h =>
    rw [scanPieces, if_neg h, List.length_map]

/-! ### Clean contents -/

theorem findFormal_eq_none : findFormal formals ptr = none ↔ ∀ f ∈ formals, ¬f <+: ptr := by
  rw [findFormal, List.findFinIdx?_eq_none_iff]
  simp

theorem findFormal_eq_some {i : Fin formals.length} : findFormal formals ptr = some i ↔
    formals.get i <+: ptr ∧ ∀ j, j < i → ¬formals.get j <+: ptr := by
  rw [findFormal, List.findFinIdx?_eq_some_iff]
  simp only [List.isPrefixOf_iff_prefix]
  exact Iff.rfl

theorem reference_eq_some {i : Fin formals.length} (h : reference formals c rest = some i) :
    c = '$' ∧ formals.get i = rest.takeWhile isWordChar := by
  rw [reference] at h
  split at h
  · rename_i hc
    exact ⟨hc, of_decide_eq_true (List.findFinIdx?_eq_some_iff.mp h).1⟩
  · cases h

theorem contentPieces_of_notMem (h : '$' ∉ content) :
    contentPieces formals content = content.map .char := by
  induction content with
  | nil => rw [contentPieces]; rfl
  | cons c rest ih =>
    rw [List.mem_cons, not_or] at h
    have hnone : reference formals c rest = none := if_neg (Ne.symm h.1)
    rw [contentPieces, hnone, List.map_cons, ← ih h.2]

/-- **The scanner finds the references of clean contents, and of no others.** -/
theorem scanPieces_eq_iff (content : Word) :
    scanPieces formals content = contentPieces formals content ↔ Clean formals content := by
  induction content using contentPieces.induct formals with
  | case1 =>
    rw [scanPieces, contentPieces, Clean]
    exact iff_of_true rfl trivial
  | case2 c rest i hi ih =>
    obtain ⟨rfl, hname⟩ := reference_eq_some hi
    have hmem : '$' ∈ '$' :: rest := List.mem_cons_self
    have hprefix : formals.get i <+: rest := hname ▸ List.takeWhile_prefix _
    have hdrop : rest.drop formals[i].length = rest.dropWhile isWordChar := by
      have happ := @List.drop_left _ (rest.takeWhile isWordChar) (rest.dropWhile isWordChar)
      rwa [List.takeWhile_append_dropWhile, ← hname] at happ
    rw [scanPieces, contentPieces, Clean, if_pos hmem, hi, forall_prop_of_true hmem]
    cases hfind : findFormal formals rest with
    | none => exact absurd hprefix (findFormal_eq_none.mp hfind _ (List.getElem_mem _))
    | some k =>
      obtain ⟨hk, hfirst⟩ := findFormal_eq_some.mp hfind
      dsimp only
      by_cases hki : k = i
      · subst hki
        rw [hdrop, List.cons_inj_right, ih]
        exact (and_iff_right hfirst).symm
      · have hlt : k < i := by
          rcases Nat.lt_trichotomy k i with h | h | h
          · exact h
          · exact absurd (Fin.ext h) hki
          · exact absurd hprefix (hfirst i h)
        exact iff_of_false (fun h => hki (Piece.ref.inj (List.cons.inj h).1)) fun h => h.1 k hlt hk
  | case3 c rest hi ih =>
    by_cases hmem : '$' ∈ c :: rest
    · rw [scanPieces, contentPieces, Clean, if_pos hmem, hi, forall_prop_of_true hmem]
      cases hfind : findFormal formals rest with
      | none =>
        dsimp only
        rw [List.cons_inj_right, ih, and_iff_right (findFormal_eq_none.mp hfind)]
      | some k =>
        have hk := (findFormal_eq_some.mp hfind).1
        exact iff_of_false (fun h => nomatch (List.cons.inj h).1)
          fun h => h.1 _ (List.getElem_mem _) hk
    · rw [contentPieces_of_notMem hmem, scanPieces, Clean, if_neg hmem]
      exact iff_of_true rfl fun h => absurd h hmem

/-! ## Exact contents -/

/-- Actuals of one character each. -/
def charActuals {argc : ℕ} (a : Fin argc → Char) : List Word := List.ofFn fun i => [a i]

theorem length_charActuals {argc : ℕ} (a : Fin argc → Char) : (charActuals a).length = argc :=
  List.length_ofFn

/-- The character of a piece. -/
def Piece.at {argc : ℕ} (a : Fin argc → Char) : Piece argc → Char
  | .char c => c
  | .ref i => a i

theorem text_charActuals {argc : ℕ} (a : Fin argc → Char) (ps : List (Piece argc)) :
    ps.flatMap (Piece.text (charActuals a)) = ps.map (Piece.at a) := by
  induction ps with
  | nil => rfl
  | cons p ps ih =>
    rw [List.flatMap_cons, ih, List.map_cons]
    cases p with
    | char c => rfl
    | ref i => simp [Piece.text, Piece.at, charActuals]

theorem Piece.ext_at {argc : ℕ} {p q : Piece argc} (h : ∀ a, p.at a = q.at a) : p = q := by
  cases p with
  | char c =>
    cases q with
    | char d => exact congrArg char (h fun _ => c)
    | ref j =>
      have hne : (if c = 'a' then 'b' else 'a') ≠ c := by split <;> simp_all [eq_comm]
      exact absurd (h fun _ => if c = 'a' then 'b' else 'a').symm hne
  | ref i =>
    cases q with
    | char d =>
      have hne : (if d = 'a' then 'b' else 'a') ≠ d := by split <;> simp_all [eq_comm]
      exact absurd (h fun _ => if d = 'a' then 'b' else 'a') hne
    | ref j =>
      by_contra hij
      have hji : j ≠ i := fun heq => hij (congrArg ref heq.symm)
      have hval := h fun k => if k = i then 'a' else 'b'
      simp [Piece.at, hji] at hval

theorem pieces_ext {argc : ℕ} {ps qs : List (Piece argc)}
    (h : ∀ a, ps.map (Piece.at a) = qs.map (Piece.at a)) : ps = qs := by
  induction ps generalizing qs with
  | nil =>
    cases qs with
    | nil => rfl
    | cons q qs => exact absurd (h fun _ => 'a') nofun
  | cons p ps ih =>
    cases qs with
    | nil => exact absurd (h fun _ => 'a') nofun
    | cons q qs =>
      rw [Piece.ext_at fun a => (List.cons.inj (h a)).1, ih fun a => (List.cons.inj (h a)).2]

/-- The code of a macro and its content with the actuals agree, as the macro is made. -/
def ExactContent (keyword : Word) (formals : List Word) (content : Word) (h : nul ∉ content) :
    Prop :=
  ∃ mac, lreMacroContent2token keyword formals content h = some mac ∧
    ∀ actuals, actuals.length = formals.length →
      (substitute formals actuals content).length < defaultCodebufSize →
      lreCreateCodeByMacro mac actuals = some (substitute formals actuals content)

theorem createCode_content {keyword : Word} {h : nul ∉ content} {mac : LreMacro}
    (hmac : lreMacroContent2token keyword formals content h = some mac)
    (hlen : actuals.length = formals.length) : lreCreateCodeByMacro mac actuals =
      some (((scanPieces formals content).flatMap (Piece.text actuals)).take
        (defaultCodebufSize - 1)) := by
  rw [lreMacroContent2token] at hmac
  split at hmac
  · cases hmac
    have hpieces : scanPieces formals content = _ := (pieces_contentTokens [] content).symm
    rw [lreCreateCodeByMacro_eq hlen.symm, hpieces, ← List.flatMap_def, List.flatMap_assoc]
    congr 2
    exact List.flatMap_congr fun t _ => t.text_eq hlen.symm
  · cases hmac

/-- The macro is made when the array takes the references that are found. -/
theorem content2token_isSome {keyword : Word} {h : nul ∉ content} :
    (∃ mac, lreMacroContent2token keyword formals content h = some mac) ↔
      (scanPieces formals content).countP Piece.isRef ≤ lreMacroArgcMax := by
  have hcount : (contentTokens formals [] content).length ≤ contentTokenMax ↔
      (scanPieces formals content).countP Piece.isRef ≤ lreMacroArgcMax := by
    rw [length_contentTokens, contentTokenMax]
    omega
  rw [← hcount, lreMacroContent2token]
  split
  · rename_i hle
    exact iff_of_true ⟨_, rfl⟩ hle
  · rename_i hnot
    exact iff_of_false nofun hnot

/-- **Macro substitution is exact when the content is clean and the array takes its references,
and only then.** -/
theorem content2token_exact_iff (keyword : Word) (formals : List Word) (content : Word)
    (h : nul ∉ content) (hlen : content.length < defaultCodebufSize) :
    ExactContent keyword formals content h ↔
      Clean formals content ∧ references formals content ≤ lreMacroArgcMax := by
  constructor
  · rintro ⟨mac, hmac, hexact⟩
    -- actuals of one character keep every expansion below the bound
    have hpieces : scanPieces formals content = contentPieces formals content := by
      refine pieces_ext fun a => ?_
      have hsub : substitute formals (charActuals a) content =
          (contentPieces formals content).map (Piece.at a) := by
        rw [substitute_eq, text_charActuals]
      have hbound : (substitute formals (charActuals a) content).length < defaultCodebufSize := by
        rw [hsub, List.length_map]
        exact Nat.lt_of_le_of_lt (length_contentPieces content) hlen
      have hcode := hexact (charActuals a) (length_charActuals a) hbound
      rw [createCode_content hmac (length_charActuals a), text_charActuals, hsub,
        List.take_of_length_le] at hcode
      · exact Option.some.inj hcode
      · rw [List.length_map]
        have hscan := @length_scanPieces formals content
        omega
    rw [references_eq, ← hpieces]
    exact ⟨(scanPieces_eq_iff content).mp hpieces, content2token_isSome.mp ⟨mac, hmac⟩⟩
  · rintro ⟨hclean, hrefs⟩
    have hpieces := (scanPieces_eq_iff content).mpr hclean
    rw [references_eq, ← hpieces] at hrefs
    obtain ⟨mac, hmac⟩ := (@content2token_isSome formals content keyword h).mpr hrefs
    refine ⟨mac, hmac, fun actuals hargs hbound => ?_⟩
    rw [createCode_content hmac hargs, hpieces, ← substitute_eq, List.take_of_length_le]
    exact Nat.le_sub_one_of_lt hbound

/-- The content of `define m(x) "f(x=$x)"`. -/
def shadowContent : Word := ['f', '(', 'x', '=', '$', 'x', ')']

theorem scanPieces_shadowContent : scanPieces [['x']] shadowContent =
    [.char 'f', .ref 0, .char '=', .ref 0, .char ')'] := by
  simp [shadowContent, scanPieces, findFormal, List.findFinIdx?_cons]

theorem substitute_shadowContent : substitute [['x']] [['1']] shadowContent =
    ['f', '(', 'x', '=', '1', ')'] := by
  simp [shadowContent, substitute, reference, List.findFinIdx?_cons, isWordChar]

/-- The formal `x` is taken for the `x` in front of the `=`, and the parenthesis is lost. -/
theorem content2token_shadowContent :
    (∃ mac, lreMacroContent2token ['m'] [['x']] shadowContent (by decide) = some mac ∧
      lreCreateCodeByMacro mac [['1']] = some ['f', '1', '=', '1', ')']) ∧
    substitute [['x']] [['1']] shadowContent = ['f', '(', 'x', '=', '1', ')'] ∧
    ¬ExactContent ['m'] [['x']] shadowContent (by decide) := by
  obtain ⟨mac, hmac⟩ := (@content2token_isSome [['x']] shadowContent ['m'] (by decide)).mpr
    (by rw [scanPieces_shadowContent]; decide)
  have hcode := @createCode_content _ [['1']] _ _ _ _ hmac rfl
  rw [scanPieces_shadowContent] at hcode
  refine ⟨⟨mac, hmac, hcode⟩, substitute_shadowContent, ?_⟩
  rintro ⟨mac', hmac', hexact⟩
  rw [hmac] at hmac'
  cases hmac'
  have hsub := hexact [['1']] rfl (by rw [substitute_shadowContent]; decide)
  rw [hcode, substitute_shadowContent] at hsub
  exact absurd (Option.some.inj hsub) (by decide)

/-- `define m(ab, a) "f(x=$ab,y=$a)"` is exact. -/
theorem content2token_exact_pair :
    ExactContent ['m'] [['a', 'b'], ['a']]
      ['f', '(', 'x', '=', '$', 'a', 'b', ',', 'y', '=', '$', 'a', ')'] (by decide) := by
  refine (content2token_exact_iff _ _ _ _ (by decide)).mpr ⟨?_, ?_⟩
  · simp [Clean, reference, List.findFinIdx?_cons, isWordChar]
  · simp [references, reference, List.findFinIdx?_cons, isWordChar, lreMacroArgcMax]

end Lre
