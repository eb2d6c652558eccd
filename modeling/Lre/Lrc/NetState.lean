import Mathlib.Data.List.Induction
import Mathlib.Data.List.TakeWhile
import Lre.Counted
import Lre.Lrc.Network
import Lre.Macro.Lines
import Lre.Scanf

/-!
# Socket tables

`tcp_state_load` and `udp_state_load`, from the text under `/proc/net` to the table.

* `NetStateRow`, `scanNetState`: a row of a table, and what `sscanf` makes of a line.
* `stateLoad`: the two passes over the file, the first to count and the second to store.
* **`stateLoad_holds`**: whatever the passes read, every store is in the table, and the table has
  the rows of the lines behind the first, as far as there is room.
* `ProcLine`: a line as it is written; **`stateLoad_procText`**: the table has a row for each.
* `str2hex_digits_iff`: which addresses are read as they are.
-/

namespace Lre

open CString (nul)
open Counted Scanf

/-! ## The source -/

/-- `struct net_state`, with the members that are written only. -/
structure NetStateRow extends NetState where
  localaddr : BitVec 32
  remoteaddr : BitVec 32
  remoteport : BitVec 32
  deriving DecidableEq

/-- `str2hexnum`. -/
def str2hexnum (c : Char) : BitVec 32 :=
  if '0' ≤ c ∧ c ≤ '9' then BitVec.ofNat 32 (c.toNat - 48)
  else if 'a' ≤ c ∧ c ≤ 'f' then BitVec.ofNat 32 (c.toNat - 97 + 10)
  else 0

/-- `str2hex`, in an `int`. -/
def str2hex (str : Word) : BitVec 32 :=
  str.foldl (fun value c => value <<< 4 ||| str2hexnum c) 0

/-- A number that `sscanf` stores in an `unsigned int`: it is read as an `unsigned long`. -/
def storeUnsigned (negative : Bool) (n : ℕ) : BitVec 32 :=
  if 2 ^ 64 ≤ n then BitVec.ofNat 32 (2 ^ 64 - 1)
  else if negative then BitVec.ofNat 32 ((2 ^ 64 - n) % 2 ^ 64)
  else BitVec.ofNat 32 n

/-- The format of the lines. -/
def netStateFormat : List Directive :=
  [.number .dec false, .char ':', .space, .set 32 isXDigit, .char ':', .number .hex true, .space,
    .set 32 isXDigit, .char ':', .number .hex true, .space, .number .hex true, .space,
    .number .hex false, .char ':', .number .hex false, .space, .number .hex false, .char ':',
    .number .hex false, .space, .number .hex false, .space, .number .dec false, .space,
    .number .dec false, .space, .number .dec false, .space]

/-- The row of a line; `none` when `sscanf` does not return 5. -/
def scanNetState (buf : Word) : Option NetStateRow :=
  match scanf netStateFormat buf with
  | [.text localAddr, .number neg localPort, .text remAddr, .number neg' remPort,
      .number neg'' state] =>
    some ⟨⟨storeUnsigned neg localPort, storeUnsigned neg'' state⟩, str2hex localAddr,
      str2hex remAddr, storeUnsigned neg' remPort⟩
  | _ => none

/-- The size of the lines that are read. -/
def netLineSize : ℕ := 511

/-- The C strings that a loop over `xgetline` finds in its buffer. -/
def stateLines (file : Word) : List Word :=
  let line := xgetline netLineSize file
  if _h : line.got then cstr line.buf :: stateLines line.file else []
termination_by file.length
decreasing_by exact xgetline_length _h

/-- The indices that the second pass stores at, and the table. -/
structure NetLoad where
  stores : List ℕ
  table : Arr NetStateRow

/-- The loop of the second pass. -/
def stateLoadLoop (entries : ℕ) : List Word → Arr NetStateRow → NetLoad
  | [], table => ⟨[], table⟩
  | buf :: lines, table =>
    if entries ≤ table.count then ⟨[], table⟩
    else
      match scanNetState buf with
      | none => stateLoadLoop entries lines table
      | some row =>
        let load := stateLoadLoop entries lines (table.push row)
        ⟨table.count :: load.stores, load.table⟩

/-- The passes over a file that reads as `first` and then as `second`. -/
def stateLoad (first second : Word) : NetLoad :=
  stateLoadLoop (stateLines first).length (stateLines (xgetline netLineSize second).file)
    ⟨fun _ => none, 0⟩

/-- The rows of a table. -/
def tableRows (table : Arr NetStateRow) : List NetStateRow :=
  (List.range table.count).filterMap table.entries

/-! ## The table -/

variable {file first second : Word} {table : Arr NetStateRow} {rows : List NetStateRow}

theorem tableRows_eq (h : table.Holds rows) : tableRows table = rows := by
  have hmap : ∀ i < rows.length, table.entries i = rows[i]? := fun i hi => by
    rw [h.entries i hi, List.getElem?_eq_getElem hi]
  rw [tableRows, h.count, List.filterMap_congr fun i hi => hmap i (List.mem_range.mp hi)]
  clear hmap h
  induction rows using List.reverseRecOn with
  | nil => rfl
  | append_singleton rows row ih =>
    rw [List.length_append, List.length_singleton, List.range_succ, List.filterMap_append]
    congr 1
    · refine Eq.trans (List.filterMap_congr fun i hi => ?_) ih
      exact List.getElem?_append_left (List.mem_range.mp hi)
    · simp

theorem stateLines_of_not_got (h : ¬(xgetline netLineSize file).got = true) :
    stateLines file = [] := by
  rw [stateLines, dif_neg h]

theorem stateLines_of_got (h : (xgetline netLineSize file).got = true) :
    stateLines file = cstr (xgetline netLineSize file).buf ::
      stateLines (xgetline netLineSize file).file := by
  rw [stateLines, dif_pos h]

theorem skipLine_not_got {buf file : Word} (h : ¬(skipLine buf file).got = true) :
    (skipLine buf file).file = [] := by
  induction file with
  | nil => rfl
  | cons c file ih =>
    rw [skipLine] at h ⊢
    split
    · rename_i hc
      rw [if_pos hc] at h
      exact absurd rfl h
    · rename_i hc
      rw [if_neg hc] at h
      exact ih h

theorem xgetlineLoop_not_got {room : ℕ} {buf file : Word}
    (h : ¬(xgetlineLoop room buf file).got = true) : (xgetlineLoop room buf file).file = [] := by
  induction room generalizing buf file with
  | zero =>
    rw [xgetlineLoop] at h ⊢
    exact skipLine_not_got h
  | succ room ih =>
    cases file with
    | nil => rfl
    | cons c file =>
      rw [xgetlineLoop] at h ⊢
      split
      · rename_i hc
        rw [if_pos hc] at h
        exact absurd rfl h
      · rename_i hc
        rw [if_neg hc] at h
        exact ih h

/-- The line that the second pass discards is the first one. -/
theorem stateLines_tail (file : Word) :
    stateLines (xgetline netLineSize file).file = (stateLines file).tail := by
  by_cases h : (xgetline netLineSize file).got = true
  · rw [stateLines_of_got h, List.tail_cons]
  · have hempty : (xgetline netLineSize file).file = [] := xgetlineLoop_not_got h
    rw [stateLines_of_not_got h, hempty]
    exact stateLines_of_not_got (by decide)

theorem stateLoadLoop_holds {entries : ℕ} : ∀ (lines : List Word) {table : Arr NetStateRow}
    {rows : List NetStateRow}, table.Holds rows → rows.length ≤ entries →
    (∀ i ∈ (stateLoadLoop entries lines table).stores, i < entries) ∧
      (stateLoadLoop entries lines table).table.Holds
        ((rows ++ lines.filterMap scanNetState).take entries)
  | [], table, rows, h, hle => by
    rw [stateLoadLoop, List.filterMap_nil, List.append_nil, List.take_of_length_le hle]
    exact ⟨fun i hi => absurd hi List.not_mem_nil, h⟩
  | buf :: lines, table, rows, h, hle => by
    rw [stateLoadLoop]
    split
    · rename_i hfull
      have hlen : rows.length = entries := Nat.le_antisymm hle (h.count ▸ hfull)
      rw [List.take_left' hlen]
      exact ⟨fun i hi => absurd hi List.not_mem_nil, h⟩
    · rename_i hroom
      have hlt : rows.length < entries := by
        rw [h.count] at hroom
        omega
      cases hscan : scanNetState buf with
      | none =>
        rw [List.filterMap_cons_none hscan]
        exact stateLoadLoop_holds lines h hle
      | some row =>
        have hpush : (rows ++ [row]).length ≤ entries := by
          rw [List.length_append]
          exact hlt
        obtain ⟨hstores, hholds⟩ := stateLoadLoop_holds lines (h.push row) hpush
        rw [List.filterMap_cons_some hscan, List.append_cons]
        refine ⟨fun i hi => ?_, hholds⟩
        rcases List.mem_cons.mp hi with rfl | hi
        · rwa [h.count]
        · exact hstores i hi

theorem stateLoad_rows (first second : Word) :
    (stateLoad first second).table.Holds
      (((stateLines second).tail.filterMap scanNetState).take (stateLines first).length) := by
  have hnil : (⟨fun _ => none, 0⟩ : Arr NetStateRow).Holds [] := Arr.holds_nil rfl
  have h := (stateLoadLoop_holds (stateLines (xgetline netLineSize second).file) hnil
    (Nat.zero_le (stateLines first).length)).2
  rw [List.nil_append, stateLines_tail] at h
  rwa [stateLoad, stateLines_tail]

/-- **Loading a table**: every store is in the table, even when the file has grown since its lines
were counted, and the table has the rows of the lines behind the first that there is room for. -/
theorem stateLoad_holds (first second : Word) :
    (∀ i ∈ (stateLoad first second).stores, i < (stateLines first).length) ∧
      (stateLoad first second).table.Holds
        (((stateLines second).tail.filterMap scanNetState).take (stateLines first).length) := by
  have hnil : (⟨fun _ => none, 0⟩ : Arr NetStateRow).Holds [] := Arr.holds_nil rfl
  exact ⟨(stateLoadLoop_holds _ hnil (Nat.zero_le _)).1, stateLoad_rows first second⟩

/-! ## Lines as they are written -/

/-- A socket under `/proc/net`: the number of the line, the members of its row, and what stands
behind them. -/
structure ProcLine where
  blanks : ℕ
  sl : Word
  localaddr : ℕ
  localport : ℕ
  remoteaddr : ℕ
  remoteport : ℕ
  state : ℕ
  rest : Word

namespace ProcLine

/-- The fields have their digits, and the line fits into the buffer. -/
structure WF (p : ProcLine) : Prop where
  sl : p.sl ≠ [] ∧ ∀ c ∈ p.sl, c.isDigit = true
  localaddr : p.localaddr < 16 ^ 8
  localport : p.localport < 16 ^ 4
  remoteaddr : p.remoteaddr < 16 ^ 8
  remoteport : p.remoteport < 16 ^ 4
  state : p.state < 16 ^ 2
  rest : '\n' ∉ p.rest ∧ nul ∉ p.rest
  length : p.blanks + p.sl.length + p.rest.length + 33 < 510

/-- `%4d: %08X:%04X %08X:%04X %02X %s` -/
def text (p : ProcLine) : Word :=
  List.replicate p.blanks ' ' ++ (p.sl ++ (':' :: ([' '] ++ (digits .hex 8 p.localaddr ++ (':' ::
    (digits .hex 4 p.localport ++ ([' '] ++ (digits .hex 8 p.remoteaddr ++ (':' ::
      (digits .hex 4 p.remoteport ++ ([' '] ++ (digits .hex 2 p.state ++ (' ' :: p.rest)))))))))))))

/-- The row of the socket. -/
def row (p : ProcLine) : NetStateRow :=
  ⟨⟨BitVec.ofNat 32 p.localport, BitVec.ofNat 32 p.state⟩, str2hex (digits .hex 8 p.localaddr),
    str2hex (digits .hex 8 p.remoteaddr), BitVec.ofNat 32 p.remoteport⟩

end ProcLine

/-- The text of a file under `/proc/net`, with its header. -/
def procText (header : Word) (ps : List ProcLine) : Word :=
  header ++ '\n' :: ps.flatMap fun p => p.text ++ ['\n']

theorem digits_ne_nil {b : Base} {w n : ℕ} (hw : 0 < w) : digits b w n ≠ [] := fun h => by
  have hlen := length_digits b w n
  rw [h] at hlen
  exact absurd hlen (Nat.ne_of_lt hw)

theorem storeUnsigned_ofNat {n : ℕ} (h : n < 2 ^ 64) :
    storeUnsigned false n = BitVec.ofNat 32 n := by
  rw [storeUnsigned, if_neg (Nat.not_le.mpr h), if_neg Bool.false_ne_true]

theorem scan_hex {blanks rest : Word} {w n : ℕ} {c : Char} (hw : 0 < w) (hn : n < 16 ^ w)
    (hblanks : ∀ c ∈ blanks, isSpace c = true)
    (hc : isXDigit c = false ∧ c ≠ 'x' ∧ c ≠ 'X') :
    (Directive.number .hex true).scan (blanks ++ (digits .hex w n ++ c :: rest)) =
      some (some (.number false n), c :: rest) := by
  have hx : (c :: rest).head? ≠ some 'x' ∧ (c :: rest).head? ≠ some 'X' :=
    ⟨fun h => hc.2.1 (Option.some.inj h), fun h => hc.2.2 (Option.some.inj h)⟩
  have hends : Ends (Base.isDigit .hex) (c :: rest) := hc.1
  rw [scan_number hblanks (fun _ => isDigit_of_mem_digits) (digits_ne_nil hw) hends hx,
    number_digits hn]
  rfl

theorem scan_addr {rest : Word} {n : ℕ} :
    (Directive.set 32 isXDigit).scan (digits .hex 8 n ++ ':' :: rest) =
      some (some (.text (digits .hex 8 n)), ':' :: rest) :=
  scan_set (fun _ h => isDigit_of_mem_digits (b := .hex) h) (digits_ne_nil (by decide))
    ((length_digits .hex 8 n).trans_le (by decide)) rfl

theorem scan_space_digits {w n : ℕ} {rest : Word} (hw : 0 < w) :
    Directive.space.scan (' ' :: (digits .hex w n ++ rest)) =
      some (none, digits .hex w n ++ rest) := by
  obtain ⟨d, ds, hds⟩ := List.exists_cons_of_ne_nil (digits_ne_nil (b := .hex) (n := n) hw)
  have hd : d ∈ digits .hex w n := hds ▸ List.mem_cons_self
  have hends : Ends isSpace (digits .hex w n ++ rest) := by
    rw [hds]
    exact (isDigit_ne (isDigit_of_mem_digits hd)).1
  have hblank : ∀ c ∈ [' '], isSpace c = true := List.forall_mem_singleton.mpr rfl
  exact scan_space hblank hends

/-- **A line is read as its socket.** -/
theorem scanNetState_text {p : ProcLine} (h : p.WF) (tail : Word) :
    scanNetState (p.text ++ tail) = some p.row := by
  have hblank : ∀ c ∈ List.replicate p.blanks ' ', isSpace c = true := fun c hc => by
    rw [List.eq_of_mem_replicate hc]
    rfl
  have hnil : ∀ c ∈ ([] : Word), isSpace c = true := fun c hc => absurd hc List.not_mem_nil
  have hcolon : isXDigit ':' = false ∧ ':' ≠ 'x' ∧ ':' ≠ 'X' := by decide
  have hspace : isXDigit ' ' = false ∧ ' ' ≠ 'x' ∧ ' ' ≠ 'X' := by decide
  have hsl : ∀ rest : Word, (Directive.number .dec false).scan
      (List.replicate p.blanks ' ' ++ (p.sl ++ ':' :: rest)) = some (none, ':' :: rest) :=
    fun rest => scan_number (b := .dec) hblank h.sl.2 h.sl.1 rfl (by simp)
  have hport : ∀ {w n : ℕ} {c : Char} (rest : Word), 0 < w → n < 16 ^ w →
      isXDigit c = false ∧ c ≠ 'x' ∧ c ≠ 'X' →
      (Directive.number .hex true).scan (digits .hex w n ++ c :: rest) =
        some (some (.number false n), c :: rest) :=
    fun rest hw hn hc => scan_hex hw hn hnil hc
  have htext : p.text ++ tail = List.replicate p.blanks ' ' ++ (p.sl ++ ':' :: ' ' ::
      (digits .hex 8 p.localaddr ++ ':' :: (digits .hex 4 p.localport ++ ' ' ::
        (digits .hex 8 p.remoteaddr ++ ':' :: (digits .hex 4 p.remoteport ++ ' ' ::
          (digits .hex 2 p.state ++ ' ' :: (p.rest ++ tail))))))) := by
    simp only [ProcLine.text, List.append_assoc, List.cons_append, List.nil_append]
  have hscan : scanf netStateFormat (p.text ++ tail) =
      [.text (digits .hex 8 p.localaddr), .number false p.localport,
        .text (digits .hex 8 p.remoteaddr), .number false p.remoteport, .number false p.state] := by
    rw [htext, netStateFormat, scanf_cons (hsl _), scanf_cons (scan_char _ _),
      scanf_cons (scan_space_digits (by decide)), scanf_cons scan_addr, scanf_cons (scan_char _ _),
      scanf_cons (hport _ (by decide) h.localport hspace),
      scanf_cons (scan_space_digits (by decide)), scanf_cons scan_addr, scanf_cons (scan_char _ _),
      scanf_cons (hport _ (by decide) h.remoteport hspace),
      scanf_cons (scan_space_digits (by decide)),
      scanf_cons (hport _ (by decide) h.state hspace), scanf_eq_nil (by decide)]
    rfl
  have hlt : ∀ {w n : ℕ}, n < 16 ^ w → w ≤ 4 → n < 2 ^ 64 := fun {w n} hn hw => by
    have hpow : 16 ^ w ≤ 16 ^ 4 := Nat.pow_le_pow_right (by decide) hw
    exact lt_of_lt_of_le hn (hpow.trans (by decide))
  rw [scanNetState, hscan]
  simp only [storeUnsigned_ofNat (hlt h.localport (by decide)),
    storeUnsigned_ofNat (hlt h.remoteport (by decide)),
    storeUnsigned_ofNat (hlt h.state (by decide))]
  rfl

theorem ProcLine.WF.clean {p : ProcLine} (h : p.WF) : '\n' ∉ p.text ∧ nul ∉ p.text := by
  have hdigit : ∀ {b : Base} {c : Char}, b.isDigit c = true → c ≠ '\n' ∧ c ≠ nul := by
    intro b c hc
    have hspace := (isDigit_ne hc).1
    refine ⟨?_, ?_⟩
    · rintro rfl
      exact absurd hspace (by decide)
    · rintro rfl
      cases b <;> exact absurd hc (by decide)
  have hclean : ∀ c ∈ p.text, c ≠ '\n' ∧ c ≠ nul := by
    intro c hc
    have hhex : ∀ {w n : ℕ}, c ∈ digits .hex w n → c ≠ '\n' ∧ c ≠ nul :=
      fun hc => hdigit (isDigit_of_mem_digits hc)
    simp only [ProcLine.text, List.mem_append, List.mem_cons, List.not_mem_nil, or_false] at hc
    rcases hc with hc | hc | rfl | rfl | hc | rfl | hc | rfl | hc | rfl | hc | rfl | hc | rfl | hc
    · rw [List.eq_of_mem_replicate hc]
      decide
    · exact hdigit (b := .dec) (h.sl.2 c hc)
    · decide
    · decide
    · exact hhex hc
    · decide
    · exact hhex hc
    · decide
    · exact hhex hc
    · decide
    · exact hhex hc
    · decide
    · exact hhex hc
    · decide
    · exact ⟨fun heq => h.rest.1 (heq ▸ hc), fun heq => h.rest.2 (heq ▸ hc)⟩
  exact ⟨fun hc => (hclean _ hc).1 rfl, fun hc => (hclean _ hc).2 rfl⟩

theorem ProcLine.WF.length_text {p : ProcLine} (h : p.WF) : p.text.length + 1 < netLineSize := by
  have hlen := h.length
  simp only [ProcLine.text, List.length_append, List.length_cons, List.length_nil,
    List.length_replicate, length_digits, netLineSize]
  omega

theorem stateLines_procLines : ∀ {ps : List ProcLine}, (∀ p ∈ ps, p.WF) →
    stateLines (ps.flatMap fun p => p.text ++ ['\n']) = ps.map fun p => p.text ++ ['\n']
  | [], _ => stateLines_of_not_got (by decide)
  | p :: ps, h => by
    have hp := h p List.mem_cons_self
    have hline := @xgetline_line netLineSize p.text (ps.flatMap fun p => p.text ++ ['\n'])
      (by decide) hp.clean.1
    rw [if_pos hp.length_text] at hline
    have hcstr : cstr (p.text ++ ['\n']) = p.text ++ ['\n'] := by
      refine List.takeWhile_eq_self_iff.mpr fun c hc => ?_
      rw [decide_eq_true_eq]
      rcases List.mem_append.mp hc with hc | hc
      · exact fun heq => hp.clean.2 (heq ▸ hc)
      · rw [List.mem_singleton.mp hc]
        decide
    rw [List.flatMap_cons, List.append_assoc, List.singleton_append,
      stateLines_of_got (by rw [hline]), hline, hcstr, List.map_cons,
      stateLines_procLines fun p hp => h p (List.mem_cons_of_mem _ hp)]

/-- **The table of a file has a row for each of its sockets.** -/
theorem stateLoad_procText {header : Word} {ps : List ProcLine} (hheader : '\n' ∉ header)
    (h : ∀ p ∈ ps, p.WF) :
    (stateLoad (procText header ps) (procText header ps)).table.Holds (ps.map ProcLine.row) := by
  have hlines : ∃ l, stateLines (procText header ps) = l :: ps.map fun p => p.text ++ ['\n'] := by
    have hline := @xgetline_line netLineSize header (ps.flatMap fun p => p.text ++ ['\n'])
      (by decide) hheader
    have hgot : (xgetline netLineSize (procText header ps)).got = true ∧
        (xgetline netLineSize (procText header ps)).file =
          ps.flatMap fun p => p.text ++ ['\n'] := by
      rw [procText, hline]
      split <;> exact ⟨rfl, rfl⟩
    rw [stateLines_of_got hgot.1, hgot.2, stateLines_procLines h]
    exact ⟨_, rfl⟩
  obtain ⟨l, hlines⟩ := hlines
  have hscan : (ps.map fun p => p.text ++ ['\n']).filterMap scanNetState = ps.map ProcLine.row := by
    rw [List.filterMap_map, ← List.filterMap_eq_map]
    exact List.filterMap_congr fun p hp => scanNetState_text (h p hp) ['\n']
  have hload := stateLoad_rows (procText header ps) (procText header ps)
  rw [hlines, List.tail_cons, hscan, List.take_of_length_le (by simp)] at hload
  exact hload

/-! ## Addresses -/

/-- A number without the hexadecimal digits of it that are letters. -/
def dropLetters : ℕ → ℕ → ℕ
  | 0, _ => 0
  | w + 1, n => dropLetters w (n / 16) * 16 + if n % 16 < 10 then n % 16 else 0

theorem dropLetters_lt (w n : ℕ) : dropLetters w n < 16 ^ w := by
  induction w generalizing n with
  | zero => exact Nat.one_pos
  | succ w ih =>
    have hlt := ih (n / 16)
    rw [dropLetters, pow_succ]
    split <;> omega

theorem str2hexnum_digit (n : ℕ) :
    str2hexnum (digit (n % 16)) = BitVec.ofNat 32 (if n % 16 < 10 then n % 16 else 0) := by
  have h : ∀ k < 16, str2hexnum (digit k) = BitVec.ofNat 32 (if k < 10 then k else 0) := by decide
  exact h _ (Nat.mod_lt n (by decide))

theorem shift_or_digit {x d : ℕ} (hx : x < 2 ^ 28) (hd : d < 16) :
    BitVec.ofNat 32 x <<< 4 ||| BitVec.ofNat 32 d = BitVec.ofNat 32 (x * 16 + d) := by
  apply BitVec.eq_of_toNat_eq
  rw [BitVec.toNat_or, BitVec.toNat_shiftLeft, BitVec.toNat_ofNat, BitVec.toNat_ofNat,
    BitVec.toNat_ofNat, Nat.mod_eq_of_lt (show x < 2 ^ 32 by omega),
    Nat.mod_eq_of_lt (show d < 2 ^ 32 by omega), Nat.shiftLeft_eq,
    Nat.mod_eq_of_lt (show x * 2 ^ 4 < 2 ^ 32 by omega),
    Nat.mod_eq_of_lt (show x * 16 + d < 2 ^ 32 by omega), ← Nat.shiftLeft_eq,
    ← Nat.shiftLeft_add_eq_or_of_lt (show d < 2 ^ 4 by omega), Nat.shiftLeft_eq]

theorem str2hex_digits {w : ℕ} (hw : w ≤ 8) (n : ℕ) :
    str2hex (digits .hex w n) = BitVec.ofNat 32 (dropLetters w n) := by
  induction w generalizing n with
  | zero => rfl
  | succ w ih =>
    have hlt : dropLetters w (n / 16) < 2 ^ 28 := by
      have hpow : (16 : ℕ) ^ w ≤ 16 ^ 7 :=
        Nat.pow_le_pow_right (by decide) (Nat.le_of_succ_le_succ hw)
      exact lt_of_lt_of_le (dropLetters_lt w _) hpow
    have hstep : str2hex (digits .hex (w + 1) n) =
        str2hex (digits .hex w (n / 16)) <<< 4 ||| str2hexnum (digit (n % 16)) := by
      rw [digits, str2hex, List.foldl_append]
      rfl
    rw [hstep, ih (Nat.le_of_succ_le hw), str2hexnum_digit, shift_or_digit hlt (by split <;> omega),
      dropLetters]

theorem dropLetters_le (w n : ℕ) : dropLetters w n ≤ n := by
  induction w generalizing n with
  | zero => exact Nat.zero_le _
  | succ w ih =>
    have hle := ih (n / 16)
    rw [dropLetters]
    split <;> omega

theorem dropLetters_eq_iff {w n : ℕ} (hn : n < 16 ^ w) :
    dropLetters w n = n ↔ ∀ c ∈ digits .hex w n, c.isDigit = true := by
  have hdigit : ∀ k < 16, (digit k).isDigit = true ↔ k < 10 := by decide
  induction w generalizing n with
  | zero =>
    rw [pow_zero] at hn
    obtain rfl : n = 0 := by omega
    exact iff_of_true rfl fun c hc => absurd hc List.not_mem_nil
  | succ w ih =>
    have hdiv : n / 16 < 16 ^ w := Nat.div_lt_of_lt_mul (by rwa [← pow_succ'])
    have hle := dropLetters_le w (n / 16)
    have hlast := hdigit _ (Nat.mod_lt n (by decide))
    have hrest := ih hdiv
    have hsplit : (∀ c ∈ digits .hex (w + 1) n, c.isDigit = true) ↔
        dropLetters w (n / 16) = n / 16 ∧ n % 16 < 10 := by
      rw [digits, List.forall_mem_append, List.forall_mem_singleton]
      exact and_congr hrest.symm hlast
    rw [hsplit, dropLetters]
    split <;> omega

/-- **An address is read as it is exactly when its hexadecimal digits are decimal ones**: `str2hex`
knows small letters only, and the file has capital ones. -/
theorem str2hex_digits_iff {n : ℕ} (hn : n < 16 ^ 8) :
    str2hex (digits .hex 8 n) = BitVec.ofNat 32 n ↔
      ∀ c ∈ digits .hex 8 n, c.isDigit = true := by
  have hlt := lt_of_le_of_lt (dropLetters_le 8 n) hn
  rw [str2hex_digits (Nat.le_refl 8), ← dropLetters_eq_iff hn, ← BitVec.toNat_inj,
    BitVec.toNat_ofNat, BitVec.toNat_ofNat, Nat.mod_eq_of_lt (by omega),
    Nat.mod_eq_of_lt (by omega)]

/-- `0100007F`, the address `127.0.0.1`, is read as another one. -/
theorem str2hex_digits_localhost :
    str2hex (digits .hex 8 0x0100007F) ≠ BitVec.ofNat 32 0x0100007F :=
  mt (str2hex_digits_iff (by decide)).mp fun h => absurd (h 'F' (by decide)) (by decide)

end Lre
