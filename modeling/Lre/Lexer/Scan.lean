import Lre.CString
import Lre.Symbol

/-!
# Scanning

What `next_token` reads, without what it writes.

* `scan`: the next token of a text, or why there is none.
* `lex`: the tokens of a code up to its end or the first lexical error, and how it ends.
* `scan_length`: a token takes at least one character.
* `lex_isCString`: the tokens of a C string point to C strings.
-/

namespace Lre

open CString

/-- The blanks of `skip_blank`. -/
def isBlank (c : Char) : Bool := c = ' ' || c = '\t' || c = '\r' || c = '\n'

/-- `skip_blank`. -/
def skipBlank (x : Word) : Word := x.dropWhile isBlank

/-- The characters of a keyword. -/
def isWordChar (c : Char) : Bool :=
  ('a' ≤ c && c ≤ 'z') || ('A' ≤ c && c ≤ 'Z') || ('0' ≤ c && c ≤ '9') || c = '_'

/-- A character and the one after it: `two` when that is `d`, else `one`. -/
def scanPair (d : Char) (two one : Sym) : Word → Sym × Word
  | [] => (one, [])
  | e :: x => if e = d then (two, x) else (one, e :: x)

/-- The switch of `next_token` on symbols. -/
def scanSymbol (c : Char) (x : Word) : Option (Sym × Word) :=
  match c with
  | '&' => some (scanPair '&' .and .bitand x)
  | '|' => some (scanPair '|' .or .bitor x)
  | '!' => some (scanPair '=' .notEqual .not x)
  | '=' => some (scanPair '=' .equal .assign x)
  | '>' => some (scanPair '=' .gtOrEqual .gt x)
  | '<' => some (scanPair '=' .ltOrEqual .lt x)
  | '{' => some (.startBrace, x)
  | '}' => some (.endBrace, x)
  | '(' => some (.startParenthesis, x)
  | ')' => some (.endParenthesis, x)
  | '$' => some (.var, x)
  | ',' => some (.comma, x)
  | '%' => some (.mod, x)
  | '~' => some (.invert, x)
  | '^' => some (.bitxor, x)
  | '+' => some (scanPair '=' .addEqual .add x)
  | '-' => some (scanPair '=' .subEqual .sub x)
  | '*' => some (scanPair '=' .mulEqual .mul x)
  | '/' => some (scanPair '=' .divEqual .div x)
  | _ => none

/-- The text of a string up to its closing quote and the text behind it, or all of the text. -/
def scanQuote : Word → Word × Option Word
  | [] => ([], none)
  | c :: x =>
    if c = '"' then ([], some x)
    else
      let (w, rest) := scanQuote x
      (c :: w, rest)

/-- What comes next in a text. -/
inductive Scan
  | eof
  | token (t : Token) (rest : Word)
  /-- a string without its closing quote -/
  | unterminated (w : Word)
  /-- a character that starts no token -/
  | unknown
  deriving DecidableEq

/-- What `next_token` finds at a character that is no blank. -/
def scanToken (c : Char) (x : Word) : Scan :=
  if isWordChar c then .token (.key (c :: x.takeWhile isWordChar)) (x.dropWhile isWordChar)
  else if c = '"' then
    match scanQuote x with
    | (w, some rest) => .token (.word (.quoted w)) rest
    | (w, none) => .unterminated w
  else
    match scanSymbol c x with
    | some (s, rest) => .token (.symbol s) rest
    | none => .unknown

/-- What `next_token` finds. -/
def scan (code : Word) : Scan :=
  match skipBlank code with
  | [] => .eof
  | c :: x => scanToken c x

/-- How the tokens of a code end. -/
inductive LexEnd
  | eof
  | unterminated (w : Word)
  | unknown
  /-- never reached from `lex` -/
  | fuel
  deriving DecidableEq

/-- The tokens of a code, with fuel. -/
def lexFuel : ℕ → Word → List Token × LexEnd
  | 0, _ => ([], .fuel)
  | n + 1, code =>
    match scan code with
    | .eof => ([], .eof)
    | .unterminated w => ([], .unterminated w)
    | .unknown => ([], .unknown)
    | .token t rest => (t :: (lexFuel n rest).1, (lexFuel n rest).2)

/-- The tokens of a code up to its end or the first lexical error, and how it ends. -/
def lex (code : Word) : List Token × LexEnd := lexFuel (code.length + 1) code

/-! ## A token takes a character -/

theorem length_dropWhile_le (p : Char → Bool) (x : Word) : (x.dropWhile p).length ≤ x.length :=
  (List.dropWhile_suffix p).length_le

theorem scanPair_length (d : Char) (two one : Sym) (x : Word) :
    (scanPair d two one x).2.length ≤ x.length := by
  unfold scanPair
  split
  · exact Nat.le_refl _
  · split <;> simp

theorem scanSymbol_length {c : Char} {x : Word} {r : Sym × Word}
    (h : scanSymbol c x = some r) : r.2.length ≤ x.length := by
  unfold scanSymbol at h
  split at h <;> cases h <;> first | exact scanPair_length _ _ _ _ | exact Nat.le_refl _

theorem scanQuote_length {x w rest : Word} (h : scanQuote x = (w, some rest)) :
    rest.length ≤ x.length := by
  induction x generalizing w with
  | nil => cases h
  | cons c x ih =>
    rw [scanQuote] at h
    split at h
    · cases h
      exact Nat.le_succ _
    · cases hx : scanQuote x with
      | mk w' rest' =>
        rw [hx] at h
        cases h
        exact Nat.le_succ_of_le (ih hx)

theorem scanToken_length {c : Char} {x rest : Word} {t : Token}
    (h : scanToken c x = .token t rest) : rest.length ≤ x.length := by
  unfold scanToken at h
  split at h
  · cases h
    exact length_dropWhile_le _ _
  · split at h
    · split at h
      · rename_i heq
        cases h
        exact scanQuote_length heq
      · cases h
    · split at h
      · rename_i heq
        cases h
        exact scanSymbol_length heq
      · cases h

theorem scan_length {code rest : Word} {t : Token} (h : scan code = .token t rest) :
    rest.length < code.length := by
  have hle := length_dropWhile_le isBlank code
  unfold scan at h
  split at h
  · cases h
  · rename_i c x heq
    have := scanToken_length h
    rw [skipBlank] at heq
    rw [heq, List.length_cons] at hle
    omega

theorem lexFuel_eq_of_lt {n m : ℕ} {code : Word} (hn : code.length < n) (hm : code.length < m) :
    lexFuel n code = lexFuel m code := by
  induction n generalizing m code with
  | zero => omega
  | succ n ih =>
    cases m with
    | zero => omega
    | succ m =>
      rw [lexFuel, lexFuel]
      cases hs : scan code with
      | token t rest =>
        have := scan_length hs
        have hrest : lexFuel n rest = lexFuel m rest := ih (by omega) (by omega)
        simp only [hrest]
      | _ => rfl

theorem lex_eq (code : Word) : lex code =
    match scan code with
    | .eof => ([], .eof)
    | .unterminated w => ([], .unterminated w)
    | .unknown => ([], .unknown)
    | .token t rest => (t :: (lex rest).1, (lex rest).2) := by
  rw [lex, lexFuel]
  cases hs : scan code with
  | token t rest =>
    have := scan_length hs
    have hrest : lexFuel code.length rest = lex rest := lexFuel_eq_of_lt (by omega) (by omega)
    simp only [hrest]
  | _ => rfl

theorem lex_induction {motive : Word → Prop}
    (step : ∀ code, (∀ t rest, scan code = .token t rest → motive rest) → motive code)
    (code : Word) : motive code := by
  generalize hn : code.length = n
  induction n using Nat.strongRecOn generalizing code with
  | ind n ih => exact step code fun t rest hs => ih _ (hn ▸ scan_length hs) rest rfl

theorem lex_end_ne_fuel (code : Word) : (lex code).2 ≠ .fuel := by
  induction code using lex_induction with
  | step code ih =>
    rw [lex_eq]
    cases hs : scan code with
    | token t rest => exact ih t rest hs
    | _ => exact nofun

/-! ## Words without a terminator in them -/

/-- The word of a token is a C string. -/
def Token.IsCString : Token → Prop
  | .word x => nul ∉ x.cstr
  | .symbol _ => True

theorem scanQuote_eq {x w rest : Word} (h : scanQuote x = (w, some rest)) :
    x = w ++ '"' :: rest := by
  induction x generalizing w with
  | nil => cases h
  | cons c x ih =>
    rw [scanQuote] at h
    split at h
    · rename_i hc
      cases h
      rw [hc]
      rfl
    · cases hx : scanQuote x with
      | mk w' rest' =>
        rw [hx] at h
        cases h
        rw [ih hx]
        rfl

theorem scanSymbol_subset {c : Char} {x : Word} {r : Sym × Word} (h : scanSymbol c x = some r) :
    r.2 ⊆ x := by
  have hpair : ∀ d two one, (scanPair d two one x).2 ⊆ x := by
    intro d two one
    unfold scanPair
    split
    · exact fun _ h => h
    · split
      · exact List.subset_cons_self _ _
      · exact fun _ h => h
  unfold scanSymbol at h
  split at h <;> cases h <;> first | exact hpair _ _ _ | exact fun _ h => h

theorem scan_isCString {code rest : Word} {t : Token} (hcode : nul ∉ code)
    (h : scan code = .token t rest) : t.IsCString ∧ nul ∉ rest := by
  unfold scan at h
  split at h
  · cases h
  · rename_i c x hx
    have hcx : nul ∉ c :: x := fun hnul =>
      hcode ((List.dropWhile_suffix isBlank).subset (show nul ∈ skipBlank code from hx ▸ hnul))
    have hx : nul ∉ x := fun hnul => hcx (List.mem_cons_of_mem _ hnul)
    unfold scanToken at h
    split at h
    · cases h
      refine ⟨fun hnul => ?_, fun hnul => hx ((List.dropWhile_suffix _).subset hnul)⟩
      rcases List.mem_cons.mp hnul with hnul | hnul
      · exact hcx (hnul ▸ List.mem_cons_self)
      · exact hx ((List.takeWhile_prefix _).subset hnul)
    · split at h
      · split at h
        · rename_i heq
          cases h
          have hsplit := scanQuote_eq heq
          subst hsplit
          rw [List.mem_append, List.mem_cons, not_or, not_or] at hx
          refine ⟨?_, hx.2.2⟩
          simp only [Token.IsCString, Lexeme.cstr, List.mem_cons, List.mem_append, List.not_mem_nil]
          rintro (hq | hw | hq | hf)
          · exact hx.2.1 hq
          · exact hx.1 hw
          · exact hx.2.1 hq
          · exact hf
        · cases h
      · split at h
        · rename_i heq
          cases h
          exact ⟨trivial, fun hnul => hx (scanSymbol_subset heq hnul)⟩
        · cases h

theorem lex_isCString {code : Word} (hcode : nul ∉ code) : ∀ t ∈ (lex code).1, t.IsCString := by
  induction code using lex_induction with
  | step code ih =>
    rw [lex_eq]
    cases hs : scan code with
    | token t rest =>
      obtain ⟨ht, hrest⟩ := scan_isCString hcode hs
      intro u hu
      rcases List.mem_cons.mp hu with rfl | hu
      · exact ht
      · exact ih t rest hs hrest u hu
    | _ => exact nofun

end Lre
