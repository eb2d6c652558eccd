import Mathlib.Data.List.TakeWhile
import Lre.Lexer.Scan

/-!
# Longest match

* `Tokenisation`: how a code is cut into identifiers, strings and the symbols of `symWords`, always
  taking as much as possible.
* `tildeOutside`: the one character the lexer takes for a symbol although `symWords` has no word for
  it.
* `Tokenisation.lex`, `tokenisation_of_lex`: the lexer cuts a code so, when there is no such
  character in it.
* `Tokenisation.joined`: and finds the same when the words are joined by blanks.
* `scan_append`: a token does not change when the text goes on behind the characters after it.
-/

namespace Lre

/-- A part of a code that stands for a token. -/
inductive Slice
  | ident (w : Word)
  | string (w : Word)
  | symbol (w : Word)
  deriving DecidableEq, Repr

/-- The text of a slice. -/
def Slice.text : Slice → Word
  | .ident w | .string w | .symbol w => w

/-- A spelling that `symWords` lists. -/
def Spelling (w : Word) : Prop := w ≠ [] ∧ ∃ s, (symWords s).1 = some w

/-- **The longest-match tokenisation of a code.** -/
inductive Tokenisation : Word → List Slice → Prop
  | nil : Tokenisation [] []
  | blank {c : Char} {rest : Word} {slices : List Slice} : isBlank c = true →
    Tokenisation rest slices → Tokenisation (c :: rest) slices
  /-- a maximal run of identifier characters -/
  | ident {w rest : Word} {slices : List Slice} : w ≠ [] → (∀ c ∈ w, isWordChar c = true) →
    (∀ c ∈ rest.head?, isWordChar c = false) → Tokenisation rest slices →
    Tokenisation (w ++ rest) (.ident w :: slices)
  /-- from a quote to the next one -/
  | string {w rest : Word} {slices : List Slice} : '"' ∉ w → Tokenisation rest slices →
    Tokenisation ('"' :: (w ++ '"' :: rest)) (.string ('"' :: (w ++ ['"'])) :: slices)
  /-- the longest spelling of a symbol -/
  | symbol {w rest : Word} {slices : List Slice} : Spelling w →
    (∀ w', Spelling w' → w' <+: w ++ rest → w'.length ≤ w.length) → Tokenisation rest slices →
    Tokenisation (w ++ rest) (.symbol w :: slices)

/-- The slice a token stands for; none for a symbol without a word. -/
def Token.slice : Token → Option Slice
  | .word (.ident w) => some (.ident w)
  | .word (.quoted w) => some (.string ('"' :: (w ++ ['"'])))
  | .symbol s => (symWords s).1.map .symbol

/-- A `~` stands outside the strings of the code; the flag says that the code begins in one. -/
def tildeOutside : Bool → Word → Bool
  | _, [] => false
  | true, c :: x => tildeOutside (c ≠ '"') x
  | false, c :: x => c = '~' || tildeOutside (c = '"') x

/-! ## Symbols -/

theorem scanSymbol_spelling {c : Char} {x rest : Word} {s : Sym}
    (h : scanSymbol c x = some (s, rest)) (hs : s ≠ .invert) :
    ∃ w, (symWords s).1 = some w ∧ w ≠ [] ∧ c :: x = w ++ rest := by
  have hpair : ∀ d two one, scanPair d two one x = (s, rest) →
      (symWords two).1 = some [c, d] → (symWords one).1 = some [c] →
      ∃ w, (symWords s).1 = some w ∧ w ≠ [] ∧ c :: x = w ++ rest := by
    intro d two one hp htwo hone
    unfold scanPair at hp
    split at hp
    · cases hp
      exact ⟨[c], hone, nofun, rfl⟩
    · split at hp
      · rename_i hd
        cases hp
        exact ⟨[c, d], htwo, nofun, by rw [hd]; rfl⟩
      · cases hp
        exact ⟨[c], hone, nofun, rfl⟩
  unfold scanSymbol at h
  split at h <;>
    first
    | exact hpair _ _ _ (Option.some.inj h) rfl rfl
    | (cases h <;> first | exact absurd rfl hs | exact ⟨_, rfl, nofun, rfl⟩)

theorem scanSymbol_two {s : Sym} {a b : Char} (h : (symWords s).1 = some [a, b]) (x : Word) :
    scanSymbol a (b :: x) = some (s, x) := by
  cases s <;> cases h <;> rfl

theorem scanPair_ne_invert {d : Char} {two one : Sym} {x : Word} (htwo : two ≠ .invert)
    (hone : one ≠ .invert) : (scanPair d two one x).1 ≠ .invert := by
  unfold scanPair
  split
  · exact hone
  · split
    · exact htwo
    · exact hone

/-- A spelling has one or two characters; the first begins a symbol, and both are neither blanks
nor part of identifiers or strings. -/
theorem spelling_cases {w : Word} (h : Spelling w) : w.length ≤ 2 ∧
    (∀ c ∈ w, isBlank c = false ∧ isWordChar c = false ∧ c ≠ '"' ∧ c ≠ '~') ∧
    ∃ c w', w = c :: w' ∧ ∀ x, ∃ s rest, scanSymbol c x = some (s, rest) ∧ s ≠ .invert := by
  obtain ⟨hne, s, hs⟩ := h
  cases s <;> cases hs
  · exact absurd rfl hne
  all_goals
    refine ⟨by decide, List.forall_iff_forall_mem.mp (by decide), _, _, rfl,
      fun x => ⟨_, _, rfl, ?_⟩⟩
    first
    | exact scanPair_ne_invert (by decide) (by decide)
    | decide

/-- **What `next_token` takes for a symbol is the longest spelling.** -/
theorem scanSymbol_longest {c : Char} {x rest : Word} {s : Sym}
    (h : scanSymbol c x = some (s, rest)) (hs : s ≠ .invert) :
    ∃ w, (symWords s).1 = some w ∧ Spelling w ∧ c :: x = w ++ rest ∧
      ∀ w', Spelling w' → w' <+: c :: x → w'.length ≤ w.length := by
  obtain ⟨w, hw, hne, happ⟩ := scanSymbol_spelling h hs
  refine ⟨w, hw, ⟨hne, s, hw⟩, happ, fun w' hspell hprefix => ?_⟩
  obtain ⟨hlen, -, -⟩ := spelling_cases hspell
  have hpos : 0 < w.length := List.length_pos_iff.mpr hne
  rcases w' with - | ⟨a, - | ⟨b, - | ⟨d, w''⟩⟩⟩
  · exact Nat.zero_le _
  · exact hpos
  · -- two characters of a spelling are found as such
    obtain ⟨-, s', hs'⟩ := hspell
    obtain ⟨tail, htail⟩ := hprefix
    cases htail
    have hfound := scanSymbol_two hs' tail
    cases h.symm.trans hfound
    rw [hw] at hs'
    cases hs'
    exact Nat.le_refl _
  · exact absurd hlen (by simp)

/-! ## Tokens -/

theorem scan_blank {c : Char} (hc : isBlank c = true) (x : Word) : scan (c :: x) = scan x := by
  rw [scan, scan, skipBlank, skipBlank, List.dropWhile_cons_of_pos hc]

theorem lex_blank {c : Char} (hc : isBlank c = true) (x : Word) : lex (c :: x) = lex x := by
  rw [lex_eq, lex_eq, scan_blank hc]

theorem scan_of_not_blank {c : Char} (hc : isBlank c = false) (x : Word) :
    scan (c :: x) = scanToken c x := by
  rw [scan, skipBlank, List.dropWhile_cons_of_neg (by rw [hc]; exact Bool.false_ne_true)]

theorem not_blank_of_wordChar {c : Char} (hc : isWordChar c = true) : isBlank c = false := by
  by_contra hblank
  rw [Bool.not_eq_false] at hblank
  simp only [isBlank, Bool.or_eq_true, decide_eq_true_eq] at hblank
  rcases hblank with ((rfl | rfl) | rfl) | rfl <;> exact absurd hc (by decide)

theorem scan_ident {w rest : Word} (hne : w ≠ []) (hw : ∀ c ∈ w, isWordChar c = true)
    (hrest : ∀ c ∈ rest.head?, isWordChar c = false) :
    scan (w ++ rest) = .token (.key w) rest := by
  obtain ⟨c, w, rfl⟩ := List.exists_cons_of_ne_nil hne
  have hc := hw c List.mem_cons_self
  have htail : ∀ c ∈ w, isWordChar c = true := fun c hc => hw c (List.mem_cons_of_mem _ hc)
  have htake : (w ++ rest).takeWhile isWordChar = w := by
    rw [List.takeWhile_append_of_pos htail]
    cases rest with
    | nil => simp
    | cons d rest => simp [hrest d rfl]
  have hdrop : (w ++ rest).dropWhile isWordChar = rest := by
    rw [List.dropWhile_append_of_pos htail]
    cases rest with
    | nil => rfl
    | cons d rest => simp [hrest d rfl]
  rw [List.cons_append, scan_of_not_blank (not_blank_of_wordChar hc), scanToken, if_pos hc, htake,
    hdrop]

theorem scanQuote_append {w rest : Word} (hw : '"' ∉ w) :
    scanQuote (w ++ '"' :: rest) = (w, some rest) := by
  induction w with
  | nil => rfl
  | cons c w ih =>
    rw [List.mem_cons, not_or] at hw
    rw [List.cons_append, scanQuote, if_neg (Ne.symm hw.1), ih hw.2]

theorem scan_string {w rest : Word} (hw : '"' ∉ w) :
    scan ('"' :: (w ++ '"' :: rest)) = .token (.word (.quoted w)) rest := by
  rw [scan_of_not_blank (by decide), scanToken, if_neg (by decide), if_pos rfl,
    scanQuote_append hw]

theorem scan_symbol {w rest : Word} (hw : Spelling w)
    (hmax : ∀ w', Spelling w' → w' <+: w ++ rest → w'.length ≤ w.length) :
    ∃ s, (symWords s).1 = some w ∧ scan (w ++ rest) = .token (.symbol s) rest := by
  obtain ⟨-, hchars, c, tail, rfl, hsome⟩ := spelling_cases hw
  obtain ⟨hblank, hword, hquote, -⟩ := hchars c List.mem_cons_self
  obtain ⟨s, rest', hscan, hs⟩ := hsome (tail ++ rest)
  obtain ⟨w', hw', hspell, happ, hlong⟩ := scanSymbol_longest hscan hs
  -- both are longest spellings of one text
  have hlen : w'.length = (c :: tail).length :=
    Nat.le_antisymm (hmax w' hspell ⟨rest', happ.symm⟩) (hlong _ hw (List.prefix_append _ _))
  obtain ⟨rfl, rfl⟩ := List.append_inj happ hlen.symm
  refine ⟨s, hw', ?_⟩
  rw [List.cons_append, scan_of_not_blank hblank, scanToken,
    if_neg (by rw [hword]; exact Bool.false_ne_true), if_neg hquote, hscan]

/-- **A code with a tokenisation is cut so by the lexer.** -/
theorem Tokenisation.lex {code : Word} {slices : List Slice} (h : Tokenisation code slices) :
    ∃ ts, lex code = (ts, .eof) ∧ ts.map Token.slice = slices.map some := by
  have hcons : ∀ {t : Token} {slice : Slice} {code rest : Word} {slices : List Slice},
      scan code = .token t rest → t.slice = some slice →
      (∃ ts, Lre.lex rest = (ts, .eof) ∧ ts.map Token.slice = slices.map some) →
      ∃ ts, Lre.lex code = (ts, .eof) ∧ ts.map Token.slice = (slice :: slices).map some := by
    rintro t slice code rest slices hscan hslice ⟨ts, hlex, hmap⟩
    refine ⟨t :: ts, ?_, by rw [List.map_cons, List.map_cons, hslice, hmap]⟩
    rw [lex_eq, hscan]
    dsimp only
    rw [hlex]
  induction h with
  | nil => exact ⟨[], rfl, rfl⟩
  | blank hc _ ih =>
    rw [lex_blank hc]
    exact ih
  | ident hne hw hrest _ ih => exact hcons (scan_ident hne hw hrest) rfl ih
  | string hw _ ih => exact hcons (scan_string hw) rfl ih
  | symbol hw hmax _ ih =>
    obtain ⟨s, hs, hscan⟩ := scan_symbol hw hmax
    exact hcons hscan (by rw [Token.slice, hs]; rfl) ih

theorem Tokenisation.of_skipBlank {code : Word} {slices : List Slice}
    (h : Tokenisation (skipBlank code) slices) : Tokenisation code slices := by
  induction code with
  | nil => exact h
  | cons c x ih =>
    by_cases hc : isBlank c = true
    · rw [skipBlank, List.dropWhile_cons_of_pos hc] at h
      exact .blank hc (ih h)
    · rwa [skipBlank, List.dropWhile_cons_of_neg hc] at h

theorem scanQuote_notMem {x w rest : Word} (h : scanQuote x = (w, some rest)) : '"' ∉ w := by
  induction x generalizing w with
  | nil => cases h
  | cons c x ih =>
    rw [scanQuote] at h
    split at h
    · cases h
      exact List.not_mem_nil
    · rename_i hc
      cases hx : scanQuote x with
      | mk w' rest' =>
        rw [hx] at h
        cases h
        rw [List.mem_cons, not_or]
        exact ⟨Ne.symm hc, ih hx⟩

theorem head?_dropWhile_wordChar (x : Word) :
    ∀ c ∈ (x.dropWhile isWordChar).head?, isWordChar c = false := by
  intro c hc
  have hne : x.dropWhile isWordChar ≠ [] := by
    intro hnil
    rw [hnil] at hc
    cases hc
  have hhead := List.head_dropWhile_not isWordChar hne
  rw [List.head?_eq_some_head hne] at hc
  exact Option.some.inj hc ▸ hhead

/-! ### Characters outside strings -/

theorem tildeOutside_append {w : Word} (hw : ∀ c ∈ w, c ≠ '"' ∧ c ≠ '~') (rest : Word) :
    tildeOutside false (w ++ rest) = tildeOutside false rest := by
  induction w with
  | nil => rfl
  | cons c w ih =>
    obtain ⟨hquote, htilde⟩ := hw c List.mem_cons_self
    rw [List.cons_append, tildeOutside, decide_eq_false htilde, decide_eq_false hquote,
      Bool.false_or]
    exact ih fun c hc => hw c (List.mem_cons_of_mem _ hc)

theorem tildeOutside_string {w : Word} (hw : '"' ∉ w) (rest : Word) :
    tildeOutside true (w ++ '"' :: rest) = tildeOutside false rest := by
  induction w with
  | nil => rfl
  | cons c w ih =>
    rw [List.mem_cons, not_or] at hw
    rw [List.cons_append, tildeOutside, decide_eq_true (Ne.symm hw.1)]
    exact ih hw.2

theorem tildeOutside_skipBlank (code : Word) :
    tildeOutside false (skipBlank code) = tildeOutside false code := by
  have hblanks : ∀ c ∈ code.takeWhile isBlank, c ≠ '"' ∧ c ≠ '~' := by
    intro c hc
    have hblank := List.mem_takeWhile_imp hc
    constructor <;> rintro rfl <;> exact absurd hblank (by decide)
  rw [← tildeOutside_append hblanks, skipBlank, List.takeWhile_append_dropWhile]

theorem wordChar_ne {c : Char} (hc : isWordChar c = true) : c ≠ '"' ∧ c ≠ '~' := by
  constructor <;> rintro rfl <;> exact absurd hc (by decide)

/-- **The next token of a code, if it is no `~`, is the next slice.** -/
theorem scan_slice {code rest : Word} {t : Token} (h : scan code = .token t rest)
    (ht : t ≠ .symbol .invert) : tildeOutside false code = tildeOutside false rest ∧
      ∃ slice, t.slice = some slice ∧
        ∀ slices, Tokenisation rest slices → Tokenisation code (slice :: slices) := by
  rw [← tildeOutside_skipBlank code]
  suffices hsuff : tildeOutside false (skipBlank code) = tildeOutside false rest ∧
      ∃ slice, t.slice = some slice ∧ ∀ slices, Tokenisation rest slices →
        Tokenisation (skipBlank code) (slice :: slices) by
    obtain ⟨htilde, slice, hslice, htok⟩ := hsuff
    exact ⟨htilde, slice, hslice, fun slices hs => (htok slices hs).of_skipBlank⟩
  unfold scan at h
  split at h
  · cases h
  · rename_i c x hcode
    rw [hcode]
    unfold scanToken at h
    split at h
    · rename_i hc
      cases h
      have hsplit : c :: x = (c :: x.takeWhile isWordChar) ++ x.dropWhile isWordChar :=
        congrArg (c :: ·) List.takeWhile_append_dropWhile.symm
      have hchars : ∀ d ∈ c :: x.takeWhile isWordChar, isWordChar d = true := by
        intro d hd
        rcases List.mem_cons.mp hd with rfl | hd
        · exact hc
        · exact List.mem_takeWhile_imp hd
      rw [hsplit]
      exact ⟨tildeOutside_append (fun d hd => wordChar_ne (hchars d hd)) _, _, rfl,
        fun slices hs => .ident nofun hchars (head?_dropWhile_wordChar x) hs⟩
    · split at h
      · rename_i hc
        subst hc
        split at h
        · rename_i w rest' hquote
          cases h
          have hw := scanQuote_notMem hquote
          rw [scanQuote_eq hquote]
          exact ⟨tildeOutside_string hw rest, _, rfl, fun slices hs => .string hw hs⟩
        · cases h
      · split at h
        · rename_i s rest' hsym
          cases h
          obtain ⟨w, hword, hspell, happ, hmax⟩ :=
            scanSymbol_longest hsym fun hs => ht (congrArg _ hs)
          rw [happ] at hmax ⊢
          obtain ⟨-, hchars, -⟩ := spelling_cases hspell
          exact ⟨tildeOutside_append (fun d hd => (hchars d hd).2.2) _, _,
            by rw [Token.slice, hword]; rfl, fun slices hs => .symbol hspell hmax hs⟩
        · cases h

theorem scan_eof {code : Word} (h : scan code = .eof) : skipBlank code = [] := by
  unfold scan at h
  split at h
  · assumption
  · rename_i c x _
    unfold scanToken at h
    split at h
    · cases h
    · split at h
      · split at h <;> cases h
      · split at h <;> cases h

theorem lex_eof_cases {code : Word} {ts : List Token} (h : lex code = (ts, .eof)) :
    (ts = [] ∧ skipBlank code = []) ∨
    ∃ t rest ts', ts = t :: ts' ∧ scan code = .token t rest ∧ lex rest = (ts', .eof) := by
  rw [lex_eq] at h
  cases hscan : scan code with
  | eof =>
    rw [hscan] at h
    cases h
    exact .inl ⟨rfl, scan_eof hscan⟩
  | token t rest =>
    rw [hscan] at h
    obtain ⟨hts, hend⟩ := Prod.mk.inj h
    exact .inr ⟨t, rest, _, hts.symm, rfl, Prod.ext rfl hend⟩
  | _ => rw [hscan] at h; cases h

theorem Tokenisation.unique {code : Word} {slices slices' : List Slice}
    (h : Tokenisation code slices) (h' : Tokenisation code slices') : slices = slices' := by
  obtain ⟨ts, hlex, hmap⟩ := h.lex
  obtain ⟨ts', hlex', hmap'⟩ := h'.lex
  rw [hlex] at hlex'
  cases hlex'
  exact List.map_injective_iff.mpr (fun _ _ => Option.some.inj) (hmap.symm.trans hmap')

/-- **The lexer's tokens are a tokenisation when none of them is a `~`.** -/
theorem tokenisation_of_lex {code : Word} {ts : List Token} (h : lex code = (ts, .eof))
    (hts : .symbol .invert ∉ ts) :
    ∃ slices, Tokenisation code slices ∧ ts.map Token.slice = slices.map some := by
  induction code using lex_induction generalizing ts with
  | step code ih =>
    rcases lex_eof_cases h with ⟨rfl, hskip⟩ | ⟨t, rest, ts', rfl, hscan, hrest⟩
    · exact ⟨[], Tokenisation.of_skipBlank (hskip ▸ .nil), rfl⟩
    · rw [List.mem_cons, not_or] at hts
      obtain ⟨slices, hslices, hmap⟩ := ih t rest hscan hrest hts.2
      obtain ⟨-, slice, hslice, htok⟩ := scan_slice hscan (Ne.symm hts.1)
      refine ⟨slice :: slices, htok slices hslices, ?_⟩
      rw [List.map_cons, List.map_cons, hslice, hmap]

theorem scanSymbol_invert {c : Char} {x rest : Word} (h : scanSymbol c x = some (.invert, rest)) :
    c = '~' := by
  have hpair : ∀ {d two one}, scanPair d two one x = (.invert, rest) → two ≠ .invert →
      one ≠ .invert → c = '~' := by
    intro d two one hp htwo hone
    have hne := @scanPair_ne_invert d two one x htwo hone
    rw [hp] at hne
    exact absurd rfl hne
  unfold scanSymbol at h
  split at h <;>
    first
    | exact hpair (Option.some.inj h) (by decide) (by decide)
    | rfl
    | cases h

/-- A `~` that is a token. -/
theorem scan_invert {code rest : Word} (h : scan code = .token (.symbol .invert) rest) :
    tildeOutside false code = true := by
  rw [← tildeOutside_skipBlank]
  unfold scan at h
  split at h
  · cases h
  · rename_i c x hcode
    rw [hcode]
    unfold scanToken at h
    split at h
    · cases h
    · split at h
      · split at h <;> cases h
      · split at h
        · rename_i s rest' hsym
          cases h
          rw [scanSymbol_invert hsym]
          rfl
        · cases h

/-- **A code has the token `~` exactly when a `~` stands outside its strings.** -/
theorem invert_mem_lex_iff {code : Word} {ts : List Token} (h : lex code = (ts, .eof)) :
    .symbol .invert ∈ ts ↔ tildeOutside false code = true := by
  induction code using lex_induction generalizing ts with
  | step code ih =>
    rcases lex_eof_cases h with ⟨rfl, hskip⟩ | ⟨t, rest, ts', rfl, hscan, hrest⟩
    · rw [← tildeOutside_skipBlank, hskip]
      exact iff_of_false nofun Bool.false_ne_true
    · by_cases ht : t = .symbol .invert
      · subst ht
        exact iff_of_true List.mem_cons_self (scan_invert hscan)
      · rw [(scan_slice hscan ht).1, ← ih t rest hscan hrest, List.mem_cons,
          or_iff_right (Ne.symm ht)]

/-! ## Words joined by blanks -/

/-- The words joined by single blanks. -/
def joined (slices : List Slice) : Word := [' '].intercalate (slices.map Slice.text)

/-- A slice whose text is a token by itself. -/
def Slice.Proper : Slice → Prop
  | .ident w => w ≠ [] ∧ ∀ c ∈ w, isWordChar c = true
  | .string w => ∃ v, w = '"' :: (v ++ ['"']) ∧ '"' ∉ v
  | .symbol w => Spelling w

theorem Tokenisation.proper {code : Word} {slices : List Slice} (h : Tokenisation code slices) :
    ∀ s ∈ slices, s.Proper := by
  have hcons : ∀ {s : Slice} {slices : List Slice}, s.Proper → (∀ s ∈ slices, s.Proper) →
      ∀ s' ∈ s :: slices, s'.Proper := by
    intro s slices hs hrest s' hmem
    rcases List.mem_cons.mp hmem with rfl | hmem
    · exact hs
    · exact hrest s' hmem
  induction h with
  | nil => exact nofun
  | blank _ _ ih => exact ih
  | ident hne hw _ _ ih => exact hcons ⟨hne, hw⟩ ih
  | string hw _ ih => exact hcons ⟨_, rfl, hw⟩ ih
  | symbol hw _ _ ih => exact hcons hw ih

theorem Slice.Proper.tokenisation {s : Slice} {rest : Word} {slices : List Slice} (hs : s.Proper)
    (hhead : ∀ c ∈ rest.head?, c = ' ') (hrest : Tokenisation rest slices) :
    Tokenisation (s.text ++ rest) (s :: slices) := by
  cases s with
  | ident w =>
    refine .ident hs.1 hs.2 (fun c hc => ?_) hrest
    rw [hhead c hc]
    rfl
  | string w =>
    obtain ⟨v, rfl, hv⟩ := hs
    show Tokenisation ('"' :: (v ++ ['"'] ++ rest)) _
    rw [List.append_assoc]
    exact .string hv hrest
  | symbol w =>
    refine .symbol hs (fun w' hspell hprefix => ?_) hrest
    -- a longer spelling would hold the blank
    rcases List.prefix_or_prefix_of_prefix hprefix (List.prefix_append w rest) with hle | ⟨v, rfl⟩
    · exact hle.length_le
    · have hv : v <+: rest := (List.prefix_append_right_inj w).mp hprefix
      cases v with
      | nil =>
        rw [List.append_nil]
        exact Nat.le_refl _
      | cons d v =>
        obtain ⟨tail, rfl⟩ := hv
        obtain ⟨-, hchars, -⟩ := spelling_cases hspell
        have hblank := (hchars d (List.mem_append_right _ List.mem_cons_self)).1
        rw [hhead d rfl] at hblank
        cases hblank

theorem tokenisation_joined {slices : List Slice} (h : ∀ s ∈ slices, s.Proper) :
    Tokenisation (joined slices) slices := by
  induction slices with
  | nil => exact .nil
  | cons s slices ih =>
    have hs := h s List.mem_cons_self
    have hrest := ih fun s' hmem => h s' (List.mem_cons_of_mem _ hmem)
    cases slices with
    | nil =>
      have htext : joined [s] = s.text ++ [] := by simp [joined, List.intercalate]
      rw [htext]
      exact hs.tokenisation (fun c hc => by cases hc) .nil
    | cons s' slices =>
      have htext : joined (s :: s' :: slices) = s.text ++ ' ' :: joined (s' :: slices) := by
        simp [joined, List.intercalate]
      rw [htext]
      refine hs.tokenisation (fun c hc => (Option.some.inj hc).symm) (.blank rfl hrest)

/-- **Lexing the words joined by blanks finds the same.** -/
theorem Tokenisation.joined {code : Word} {slices : List Slice} (h : Tokenisation code slices) :
    Tokenisation (Lre.joined slices) slices := tokenisation_joined h.proper

/-! ## A text that goes on -/

theorem scanPair_append {d : Char} {two one : Sym} {w : Word} (h : (scanPair d two one w).2 ≠ [])
    (x : Word) : scanPair d two one (w ++ x) =
      ((scanPair d two one w).1, (scanPair d two one w).2 ++ x) := by
  cases w with
  | nil => exact absurd rfl h
  | cons e w =>
    rw [List.cons_append, scanPair, scanPair]
    split <;> rfl

theorem scanSymbol_append {c : Char} {w rest : Word} {s : Sym}
    (h : scanSymbol c w = some (s, rest)) (hne : rest ≠ []) (x : Word) :
    scanSymbol c (w ++ x) = some (s, rest ++ x) := by
  have hpair : ∀ {d : Char} {two one : Sym}, scanPair d two one w = (s, rest) →
      scanPair d two one (w ++ x) = (s, rest ++ x) := by
    intro d two one hscan
    rw [scanPair_append (by rw [hscan]; exact hne), hscan]
  unfold scanSymbol at h ⊢
  split at h <;> first
    | exact congrArg some (hpair (Option.some.inj h))
    | (cases h; rfl)
    | cases h

/-- **A token that ends in front of the end of a text is read from every longer text.** -/
theorem scan_append {w rest : Word} {t : Token} (h : scan w = .token t rest) (hne : rest ≠ [])
    (x : Word) : scan (w ++ x) = .token t (rest ++ x) := by
  unfold scan at h ⊢
  cases hskip : skipBlank w with
  | nil =>
    rw [hskip] at h
    cases h
  | cons c y =>
    have hskip' : skipBlank (w ++ x) = c :: (y ++ x) := by
      rw [skipBlank, List.dropWhile_append, ← skipBlank, hskip]
      rfl
    rw [hskip] at h
    rw [hskip']
    dsimp only at h ⊢
    unfold scanToken at h ⊢
    split_ifs at h ⊢ with hword hquote
    · cases h
      have hlen := congrArg List.length (List.takeWhile_append_dropWhile (p := isWordChar) (l := y))
      rw [List.length_append] at hlen
      have hpos := List.length_pos_iff.mpr hne
      rw [List.dropWhile_append, List.takeWhile_append, if_neg (by omega),
        if_neg (by rwa [List.isEmpty_iff])]
    · cases hy : scanQuote y with
      | mk v rest' =>
        rw [hy] at h
        cases rest' with
        | none => cases h
        | some rest' =>
          cases h
          rw [scanQuote_eq hy, List.append_assoc, List.cons_append,
            scanQuote_append (scanQuote_notMem hy)]
    · cases hs : scanSymbol c y with
      | none =>
        rw [hs] at h
        cases h
      | some p =>
        rw [hs] at h
        cases h
        rw [scanSymbol_append hs hne]

end Lre
