import Lre.Interp.Buffer
import Lre.Lined

/-!
# Lines of a configuration file

* `xgetline`: a physical line into a buffer.
* `followLine`, `readMacroLine`: the source, on the text that has been joined in the buffer;
  `readMacroLines` are its successive results.
* `macroLines`: the logical lines of a file that are neither blank nor comments.
* **`readMacroLines_iff`**: when the results are those lines and nothing in front of a buffer is
  touched.
-/

namespace Lre

open CString (nul)
open Lined

/-! ## The reader -/

/-- What `xgetline` leaves: the bytes in the buffer, whether it returns the buffer, and the rest of
the file. -/
structure Getline where
  buf : Word
  got : Bool
  file : Word

/-- The end of a line that is too long. -/
def skipLine (buf : Word) : Word → Getline
  | [] => ⟨buf, false, []⟩
  | c :: file => if c = '\n' then ⟨[], true, file⟩ else skipLine buf file

/-- The loop of `xgetline`, with the bytes that there is room for. -/
def xgetlineLoop : ℕ → Word → Word → Getline
  | 0, buf, file => skipLine buf file
  | _ + 1, buf, [] => ⟨buf, !buf.isEmpty, []⟩
  | room + 1, buf, c :: file =>
    if c = '\n' then ⟨buf ++ [c], true, file⟩ else xgetlineLoop room (buf ++ [c]) file

/-- `xgetline`. -/
def xgetline (size : ℕ) (file : Word) : Getline :=
  if size < 1 then ⟨[], false, file⟩ else xgetlineLoop (size - 1) [] file

/-- The C string at the front of the bytes. -/
def cstr (bytes : Word) : Word := bytes.takeWhile (· ≠ nul)

/-- `isspace`. -/
def isspace (c : Char) : Bool :=
  c = ' ' ∨ c = '\t' ∨ c = '\n' ∨ c = Char.ofNat 11 ∨ c = Char.ofNat 12 ∨ c = '\r'

/-- A comment or an empty line, behind leading whitespace. -/
def isSkipped (text : Word) : Bool :=
  let p := text.dropWhile isspace
  p.head? = some '#' ∨ p = []

/-- What `read_macro_line` leaves: the C string in the buffer, the length that is returned, the rest
of the file, and whether a byte in front of a buffer has been read. -/
structure MacroLine where
  text : Word
  len : ℕ
  file : Word
  outside : Bool

theorem skipLine_length {buf file : Word} (h : (skipLine buf file).got = true) :
    (skipLine buf file).file.length < file.length := by
  induction file with
  | nil => cases h
  | cons c file ih =>
    rw [skipLine] at h ⊢
    split_ifs at h ⊢ with hc
    · exact Nat.lt_succ_self _
    · exact Nat.lt_succ_of_lt (ih h)

theorem xgetlineLoop_length {room : ℕ} {buf file : Word}
    (h : (xgetlineLoop room buf file).got = true) :
    (xgetlineLoop room buf file).file.length < buf.length + file.length := by
  induction room generalizing buf file with
  | zero =>
    rw [xgetlineLoop] at h ⊢
    exact Nat.lt_of_lt_of_le (skipLine_length h) (Nat.le_add_left _ _)
  | succ room ih =>
    cases file with
    | nil =>
      cases buf with
      | nil => simp [xgetlineLoop] at h
      | cons c buf => exact Nat.succ_pos _
    | cons c file =>
      rw [xgetlineLoop] at h ⊢
      split_ifs at h ⊢ with hc
      · exact Nat.lt_add_left _ (Nat.lt_succ_self _)
      · have hlt := ih h
        rw [List.length_append, List.length_singleton] at hlt
        rw [List.length_cons]
        omega

theorem xgetline_length {size : ℕ} {file : Word} (h : (xgetline size file).got = true) :
    (xgetline size file).file.length < file.length := by
  rw [xgetline] at h ⊢
  split_ifs at h ⊢ with hsize
  have hlt := xgetlineLoop_length h
  rwa [List.length_nil, Nat.zero_add] at hlt

/-- The line behind `t` in the buffer, without its newline: `buf[len - 1]` is the last byte, which
stands in `t` when the line is empty. -/
def Getline.text (line : Getline) (t : Word) : Word :=
  let buf := t ++ cstr line.buf
  if buf.getLast? = some '\n' then buf.dropLast else buf

/-- `buf[len - 1]` is read with `len = 0`, before or after the newline has been removed. -/
def Getline.outside (line : Getline) (t : Word) : Bool :=
  cstr line.buf = [] ∨ (line.text t).length ≤ t.length

/-- `read_macro_line(buf + len, maxlen - len, …)`, where `t` stands in front of `buf + len`, up to
the test of the flags. The byte in front of the whole buffer is none that is looked for. -/
def followLine (maxlen : ℕ) (t : Word) (file : Word) : MacroLine :=
  let line := xgetline (maxlen - t.length) file
  if _h : line.got then
    if (line.text t).getLast? = some '\\' then
      let r := followLine maxlen (line.text t).dropLast line.file
      { r with outside := line.outside t || r.outside }
    else ⟨line.text t, (line.text t).length, line.file, line.outside t⟩
  else ⟨t ++ cstr line.buf, t.length, line.file, false⟩
termination_by file.length
decreasing_by exact xgetline_length _h

theorem followLine_of_not_got {maxlen : ℕ} {t file : Word}
    (h : ¬(xgetline (maxlen - t.length) file).got = true) : followLine maxlen t file =
      ⟨t ++ cstr (xgetline (maxlen - t.length) file).buf, t.length,
        (xgetline (maxlen - t.length) file).file, false⟩ := by
  rw [followLine, dif_neg h]

theorem followLine_of_end {maxlen : ℕ} {t file : Word}
    (h : (xgetline (maxlen - t.length) file).got = true)
    (hend : ¬((xgetline (maxlen - t.length) file).text t).getLast? = some '\\') :
    followLine maxlen t file =
      ⟨(xgetline (maxlen - t.length) file).text t,
        ((xgetline (maxlen - t.length) file).text t).length,
        (xgetline (maxlen - t.length) file).file,
        (xgetline (maxlen - t.length) file).outside t⟩ := by
  rw [followLine, dif_pos h, if_neg hend]

theorem followLine_of_cont {maxlen : ℕ} {t file : Word}
    (h : (xgetline (maxlen - t.length) file).got = true)
    (hcont : ((xgetline (maxlen - t.length) file).text t).getLast? = some '\\') :
    followLine maxlen t file =
      { followLine maxlen ((xgetline (maxlen - t.length) file).text t).dropLast
          (xgetline (maxlen - t.length) file).file with
        outside := (xgetline (maxlen - t.length) file).outside t ||
          (followLine maxlen ((xgetline (maxlen - t.length) file).text t).dropLast
            (xgetline (maxlen - t.length) file).file).outside } := by
  rw [followLine, dif_pos h, if_pos hcont]

theorem skipLine_length_le (buf file : Word) :
    (skipLine buf file).file.length ≤ file.length := by
  induction file with
  | nil => exact le_rfl
  | cons c file ih =>
    rw [skipLine]
    split_ifs
    · exact Nat.le_succ _
    · exact Nat.le_succ_of_le ih

theorem xgetlineLoop_length_le (room : ℕ) (buf file : Word) :
    (xgetlineLoop room buf file).file.length ≤ file.length := by
  induction room generalizing buf file with
  | zero => exact skipLine_length_le _ _
  | succ room ih =>
    cases file with
    | nil => exact le_rfl
    | cons c file =>
      rw [xgetlineLoop]
      split_ifs
      · exact Nat.le_succ _
      · exact Nat.le_succ_of_le (ih _ _)

theorem xgetline_length_le (size : ℕ) (file : Word) :
    (xgetline size file).file.length ≤ file.length := by
  rw [xgetline]
  split_ifs
  · exact le_rfl
  · exact xgetlineLoop_length_le _ _ _

theorem followLine_length_le (maxlen : ℕ) (t file : Word) :
    (followLine maxlen t file).file.length ≤ (xgetline (maxlen - t.length) file).file.length := by
  induction hk : file.length using Nat.strongRecOn generalizing t file with
  | ind k ih =>
    by_cases hgot : (xgetline (maxlen - t.length) file).got = true
    · by_cases hcont : ((xgetline (maxlen - t.length) file).text t).getLast? = some '\\'
      · rw [followLine_of_cont hgot hcont]
        exact Nat.le_trans (ih _ (hk ▸ xgetline_length hgot) _ _ rfl) (xgetline_length_le _ _)
      · rw [followLine_of_end hgot hcont]
    · rw [followLine_of_not_got hgot]

/-- `read_macro_line` with `_FLAGS_NEWLINE`. -/
def readMacroLine (maxlen : ℕ) (file : Word) : MacroLine :=
  if _h : (xgetline maxlen file).got then
    if isSkipped (followLine maxlen [] file).text then
      let next := readMacroLine maxlen (followLine maxlen [] file).file
      { next with outside := (followLine maxlen [] file).outside || next.outside }
    else followLine maxlen [] file
  else ⟨cstr (xgetline maxlen file).buf, 0, (xgetline maxlen file).file, false⟩
termination_by file.length
decreasing_by exact Nat.lt_of_le_of_lt (followLine_length_le _ _ _) (xgetline_length _h)

theorem readMacroLine_of_not_got {maxlen : ℕ} {file : Word}
    (h : ¬(xgetline maxlen file).got = true) : readMacroLine maxlen file =
      ⟨cstr (xgetline maxlen file).buf, 0, (xgetline maxlen file).file, false⟩ := by
  rw [readMacroLine, dif_neg h]

theorem readMacroLine_of_kept {maxlen : ℕ} {file : Word} (h : (xgetline maxlen file).got = true)
    (hkept : ¬isSkipped (followLine maxlen [] file).text = true) :
    readMacroLine maxlen file = followLine maxlen [] file := by
  rw [readMacroLine, dif_pos h, if_neg hkept]

theorem readMacroLine_of_skipped {maxlen : ℕ} {file : Word} (h : (xgetline maxlen file).got = true)
    (hskip : isSkipped (followLine maxlen [] file).text = true) :
    readMacroLine maxlen file =
      { readMacroLine maxlen (followLine maxlen [] file).file with
        outside := (followLine maxlen [] file).outside ||
          (readMacroLine maxlen (followLine maxlen [] file).file).outside } := by
  rw [readMacroLine, dif_pos h, if_pos hskip]

theorem readMacroLine_length {maxlen : ℕ} {file : Word} (h : 0 < (readMacroLine maxlen file).len) :
    (readMacroLine maxlen file).file.length < file.length := by
  induction hk : file.length using Nat.strongRecOn generalizing file with
  | ind k ih =>
    by_cases hgot : (xgetline maxlen file).got = true
    · have hlt : (followLine maxlen [] file).file.length < k :=
        hk ▸ Nat.lt_of_le_of_lt (followLine_length_le maxlen [] file) (xgetline_length hgot)
      by_cases hskip : isSkipped (followLine maxlen [] file).text = true
      · rw [readMacroLine_of_skipped hgot hskip] at h ⊢
        exact Nat.lt_trans (ih _ hlt h rfl) hlt
      · rwa [readMacroLine_of_kept hgot hskip]
    · rw [readMacroLine_of_not_got hgot] at h
      exact absurd h (Nat.lt_irrefl 0)

/-- The results of `read_macro_line` in the loop of `lre_macro_conf_load`: each with the string in
the buffer, and whether a byte in front of a buffer has been read. -/
def readMacroLines (maxlen : ℕ) (file : Word) : List (Word × ℕ) × Bool :=
  let r := readMacroLine maxlen file
  if _h : 0 < r.len then
    let next := readMacroLines maxlen r.file
    ((r.text, r.len) :: next.1, r.outside || next.2)
  else ([], r.outside)
termination_by file.length
decreasing_by exact readMacroLine_length _h

/-! ## The purpose -/

/-- The logical lines of the file that are neither empty nor comments. A line is the C string of a
physical line. -/
def macroLines (file : Word) : List Word :=
  (logical '\\' ((lines '\n' file).map cstr)).filter fun l => !isSkipped l

/-- The results are the lines with their lengths, and nothing in front of a buffer has been read. -/
structure ReadsLines (file : Word) (out : List (Word × ℕ) × Bool) : Prop where
  results : out.1 = (macroLines file).map fun l => (l, l.length)
  inside : out.2 = false

/-- The line does not change what is returned when it is not read to its end: it is empty, or its
logical line is skipped, and so is what there is room for. -/
def Immaterial (maxlen : ℕ) (t p : Word) : Prop :=
  cstr p = [] ∨
    (∀ l ∈ logical '\\' [cstr p], isSkipped (t ++ l) = true) ∧
      (t = [] ∨ isSkipped (t ++ cstr (p.take (maxlen - 1 - t.length))) = true)

/-- The text that has been joined behind the line. -/
def carried (t p : Word) : Word :=
  if (cstr p).getLast? = some '\\' then t ++ (cstr p).dropLast else []

/-- The physical lines behind the text `t` that has been joined: none is empty, and each fits behind
the text with its newline and the terminator; only a last line without a newline may be longer when
that is immaterial. -/
def Readable (maxlen : ℕ) (newline : Prop) : Word → List Word → Prop
  | _, [] => True
  | t, p :: ps =>
    if t.length + p.length + 1 < maxlen then
      cstr p ≠ [] ∧ Readable maxlen newline (carried t p) ps
    else ps = [] ∧ ¬newline ∧ Immaterial maxlen t p

variable {maxlen size room : ℕ} {t p rest buf file : Word} {ls : List Word}

/-! ## A physical line -/

theorem skipLine_line (h : '\n' ∉ p) : skipLine buf (p ++ '\n' :: rest) = ⟨[], true, rest⟩ := by
  induction p with
  | nil => exact if_pos rfl
  | cons c p ih =>
    have hc : c ≠ '\n' := fun heq => h (heq ▸ List.mem_cons_self)
    rw [List.cons_append, skipLine, if_neg hc, ih fun hmem => h (List.mem_cons_of_mem _ hmem)]

theorem skipLine_last (h : '\n' ∉ p) : skipLine buf p = ⟨buf, false, []⟩ := by
  induction p with
  | nil => rfl
  | cons c p ih =>
    have hc : c ≠ '\n' := fun heq => h (heq ▸ List.mem_cons_self)
    rw [skipLine, if_neg hc, ih fun hmem => h (List.mem_cons_of_mem _ hmem)]

theorem xgetlineLoop_line (h : '\n' ∉ p) : xgetlineLoop room buf (p ++ '\n' :: rest) =
    if p.length < room then ⟨buf ++ (p ++ ['\n']), true, rest⟩ else ⟨[], true, rest⟩ := by
  induction room generalizing buf p with
  | zero => exact skipLine_line h
  | succ room ih =>
    cases p with
    | nil => rfl
    | cons c p =>
      have hc : c ≠ '\n' := fun heq => h (heq ▸ List.mem_cons_self)
      rw [List.cons_append, xgetlineLoop, if_neg hc,
        ih fun hmem => h (List.mem_cons_of_mem _ hmem)]
      simp

theorem xgetlineLoop_last (h : '\n' ∉ p) : xgetlineLoop room buf p =
    if p.length < room then ⟨buf ++ p, !(buf ++ p).isEmpty, []⟩
    else ⟨buf ++ p.take room, false, []⟩ := by
  induction room generalizing buf p with
  | zero =>
    rw [xgetlineLoop, skipLine_last h]
    simp
  | succ room ih =>
    cases p with
    | nil => simp [xgetlineLoop]
    | cons c p =>
      have hc : c ≠ '\n' := fun heq => h (heq ▸ List.mem_cons_self)
      rw [xgetlineLoop, if_neg hc, ih fun hmem => h (List.mem_cons_of_mem _ hmem)]
      simp

theorem xgetline_line (hsize : 1 ≤ size) (h : '\n' ∉ p) : xgetline size (p ++ '\n' :: rest) =
    if p.length + 1 < size then ⟨p ++ ['\n'], true, rest⟩ else ⟨[], true, rest⟩ := by
  have hlt : p.length < size - 1 ↔ p.length + 1 < size := by omega
  rw [xgetline, if_neg (Nat.not_lt.mpr hsize), xgetlineLoop_line h, List.nil_append]
  simp only [hlt]

theorem xgetline_last (hsize : 1 ≤ size) (h : '\n' ∉ p) : xgetline size p =
    if p.length + 1 < size then ⟨p, !p.isEmpty, []⟩ else ⟨p.take (size - 1), false, []⟩ := by
  have hlt : p.length < size - 1 ↔ p.length + 1 < size := by omega
  rw [xgetline, if_neg (Nat.not_lt.mpr hsize), xgetlineLoop_last h, List.nil_append,
    List.nil_append]
  simp only [hlt]

/-! ## The line in the buffer -/

theorem cstr_subset {c : Char} (h : c ∈ cstr p) : c ∈ p := (List.takeWhile_prefix _).subset h

theorem cstr_append_newline :
    cstr (p ++ ['\n']) = cstr p ++ ['\n'] ∨ cstr (p ++ ['\n']) = cstr p := by
  unfold cstr
  rw [List.takeWhile_append]
  split_ifs with h
  · left
    rw [(List.takeWhile_prefix _).eq_of_length h]
    rfl
  · exact .inr rfl

theorem text_of_cstr {line : Getline} (ht : '\n' ∉ t) (hp : '\n' ∉ p)
    (h : cstr line.buf = cstr p ++ ['\n'] ∨ cstr line.buf = cstr p) :
    line.text t = t ++ cstr p := by
  unfold Getline.text
  rcases h with hnl | hlast
  · rw [hnl, ← List.append_assoc]
    simp
  · have hno : ¬(t ++ cstr p).getLast? = some '\n' := fun heq => by
      rcases List.mem_append.mp (List.mem_of_getLast? heq) with hmem | hmem
      · exact ht hmem
      · exact hp (cstr_subset hmem)
    rw [hlast]
    exact if_neg hno

theorem outside_of_cstr {line : Getline} (ht : '\n' ∉ t) (hp : '\n' ∉ p)
    (h : cstr line.buf = cstr p ++ ['\n'] ∨ cstr line.buf = cstr p) :
    line.outside t = decide (cstr p = []) := by
  rw [Getline.outside, text_of_cstr ht hp h, List.length_append, decide_eq_decide]
  constructor
  · rintro (hnil | hle)
    · rcases h with hnl | hlast
      · exact absurd (hnl.symm.trans hnil) (List.append_ne_nil_of_right_ne_nil _ (by decide))
      · exact hlast.symm.trans hnil
    · exact List.eq_nil_of_length_eq_zero (by omega)
  · intro hnil
    right
    rw [hnil]
    exact le_rfl

/-! ## A run -/

/-- The results for logical lines. -/
def lineResults (ls : List Word) : List (Word × ℕ) :=
  (ls.filter fun l => !isSkipped l).map fun l => (l, l.length)

/-- The results when the text `t` has been joined. -/
def resume (maxlen : ℕ) (t file : Word) : List (Word × ℕ) × Bool :=
  let r := followLine maxlen t file
  let next := readMacroLines maxlen r.file
  if isSkipped r.text then (next.1, r.outside || next.2)
  else if 0 < r.len then ((r.text, r.len) :: next.1, r.outside || next.2)
  else ([], r.outside)

theorem isSkipped_nil : isSkipped [] = true := rfl

theorem lineResults_cons (l : Word) (ls : List Word) : lineResults (l :: ls) =
    if isSkipped l then lineResults ls else (l, l.length) :: lineResults ls := by
  unfold lineResults
  cases h : isSkipped l <;> simp [h]

theorem lineResults_glue_nil (ls : List Word) : lineResults (glue [] ls) = lineResults ls := by
  cases ls with
  | nil => rfl
  | cons l ls => rfl

theorem xgetline_nil (hsize : 1 ≤ size) : xgetline size [] = ⟨[], false, []⟩ := by
  rw [xgetline_last hsize List.not_mem_nil, List.take_nil]
  split_ifs <;> rfl

theorem readMacroLines_of_not_got (h : ¬(xgetline maxlen file).got = true) :
    readMacroLines maxlen file = ([], false) := by
  rw [readMacroLines, readMacroLine_of_not_got h]
  rfl

theorem xgetline_file_of_not_got (hsize : 1 ≤ size) (h : ¬(xgetline size file).got = true) :
    (xgetline size file).file = [] := by
  rcases line_cases '\n' file with rfl | ⟨-, hnl⟩ | ⟨p, rest, hp, rfl⟩
  · rw [xgetline_nil hsize]
  · rw [xgetline_last hsize hnl]
    split_ifs <;> rfl
  · rw [xgetline_line hsize hp] at h
    split_ifs at h <;> exact absurd rfl h

theorem readMacroLines_eq (maxlen : ℕ) (file : Word) : readMacroLines maxlen file =
    if 0 < (readMacroLine maxlen file).len then
      (((readMacroLine maxlen file).text, (readMacroLine maxlen file).len) ::
          (readMacroLines maxlen (readMacroLine maxlen file).file).1,
        (readMacroLine maxlen file).outside ||
          (readMacroLines maxlen (readMacroLine maxlen file).file).2)
    else ([], (readMacroLine maxlen file).outside) := by
  rw [readMacroLines]
  rfl

theorem readMacroLines_nil (hsize : 1 ≤ maxlen) : readMacroLines maxlen [] = ([], false) := by
  apply readMacroLines_of_not_got
  rw [xgetline_nil hsize]
  exact Bool.false_ne_true

theorem resume_nil (hsize : 1 ≤ maxlen) : readMacroLines maxlen file = resume maxlen [] file := by
  by_cases hgot : (xgetline maxlen file).got = true
  · by_cases hskip : isSkipped (followLine maxlen [] file).text = true
    · rw [resume, readMacroLines_eq maxlen file, readMacroLine_of_skipped hgot hskip,
        if_pos hskip, readMacroLines_eq maxlen (followLine maxlen [] file).file]
      split_ifs <;> simp [Bool.or_assoc]
    · rw [resume, readMacroLines_eq maxlen file, readMacroLine_of_kept hgot hskip, if_neg hskip]
  · have hend := xgetline_file_of_not_got hsize hgot
    have hfollow : followLine maxlen [] file = ⟨cstr (xgetline maxlen file).buf, 0, [], false⟩ := by
      rw [followLine_of_not_got (t := []) hgot]
      exact congrArg (MacroLine.mk _ _ · _) hend
    rw [readMacroLines_of_not_got hgot, resume, hfollow, readMacroLines_nil hsize]
    split_ifs with hskip hlen
    · rfl
    · exact absurd hlen (Nat.lt_irrefl 0)
    · rfl

theorem resume_of_cont (hgot : (xgetline (maxlen - t.length) file).got = true)
    (hcont : ((xgetline (maxlen - t.length) file).text t).getLast? = some '\\') :
    resume maxlen t file =
      ((resume maxlen ((xgetline (maxlen - t.length) file).text t).dropLast
          (xgetline (maxlen - t.length) file).file).1,
        (xgetline (maxlen - t.length) file).outside t ||
          (resume maxlen ((xgetline (maxlen - t.length) file).text t).dropLast
            (xgetline (maxlen - t.length) file).file).2) := by
  unfold resume
  rw [followLine_of_cont hgot hcont]
  dsimp only
  split_ifs <;> simp [Bool.or_assoc]

theorem resume_of_end (hgot : (xgetline (maxlen - t.length) file).got = true)
    (hend : ¬((xgetline (maxlen - t.length) file).text t).getLast? = some '\\') :
    resume maxlen t file =
      (lineResults [(xgetline (maxlen - t.length) file).text t] ++
          (readMacroLines maxlen (xgetline (maxlen - t.length) file).file).1,
        (xgetline (maxlen - t.length) file).outside t ||
          (readMacroLines maxlen (xgetline (maxlen - t.length) file).file).2) := by
  rw [resume, followLine_of_end hgot hend, lineResults_cons]
  by_cases hskip : isSkipped ((xgetline (maxlen - t.length) file).text t) = true
  · rw [if_pos hskip, if_pos hskip]
    rfl
  · have hpos : 0 < ((xgetline (maxlen - t.length) file).text t).length := by
      apply List.length_pos_iff.mpr
      intro hnil
      rw [hnil] at hskip
      exact hskip isSkipped_nil
    rw [if_neg hskip, if_neg hskip, if_pos hpos]
    rfl

theorem readable_congr {newline newline' : Prop} (h : ls ≠ [] → (newline ↔ newline')) :
    Readable maxlen newline t ls ↔ Readable maxlen newline' t ls := by
  cases ls with
  | nil => exact Iff.rfl
  | cons p ps => rw [h (List.cons_ne_nil _ _)]

/-- The results and the flag that the logical lines ask for when `t` has been joined. -/
def Resumes (t : Word) (ls : List Word) (out : List (Word × ℕ) × Bool) : Prop :=
  out.1 = lineResults (glue t (logical '\\' (ls.map cstr))) ∧ out.2 = false

theorem resume_of_outside (hgot : (xgetline (maxlen - t.length) file).got = true)
    (hout : (xgetline (maxlen - t.length) file).outside t = true) :
    (resume maxlen t file).2 = true := by
  by_cases hcont : ((xgetline (maxlen - t.length) file).text t).getLast? = some '\\'
  · rw [resume_of_cont hgot hcont, hout, Bool.true_or]
  · rw [resume_of_end hgot hcont, hout, Bool.true_or]

/-- A text that has been joined in the buffer: there is room for a byte and the terminator. -/
structure InBuffer (maxlen : ℕ) (t : Word) : Prop where
  lt : t.length < maxlen
  room : t ≠ [] → t.length + 1 < maxlen
  newline : '\n' ∉ t

theorem InBuffer.nil (h : 1 ≤ maxlen) : InBuffer maxlen [] :=
  ⟨h, fun h => absurd rfl h, List.not_mem_nil⟩

theorem InBuffer.carried (h : InBuffer maxlen t) (hp : '\n' ∉ p)
    (hfit : t.length + p.length + 1 < maxlen) (hne : cstr p ≠ []) :
    InBuffer maxlen (carried t p) := by
  unfold Lre.carried
  split_ifs
  · have hle : (cstr p).length ≤ p.length := (List.takeWhile_prefix _).length_le
    have hpos : 0 < (cstr p).length := List.length_pos_iff.mpr hne
    have hlen : (t ++ (cstr p).dropLast).length + 1 < maxlen := by
      rw [List.length_append, List.length_dropLast]
      omega
    refine ⟨Nat.lt_of_succ_lt hlen, fun _ => hlen, fun hmem => ?_⟩
    rcases List.mem_append.mp hmem with hmem | hmem
    · exact h.newline hmem
    · exact hp (cstr_subset (List.dropLast_subset _ hmem))
  · exact .nil (Nat.one_le_of_lt h.lt)

theorem resumes_of_fits {ls : List Word} (hsize : 1 ≤ maxlen) (ht : '\n' ∉ t) (hp : '\n' ∉ p)
    (hgot : (xgetline (maxlen - t.length) file).got = true)
    (hbuf : cstr (xgetline (maxlen - t.length) file).buf = cstr p ++ ['\n'] ∨
      cstr (xgetline (maxlen - t.length) file).buf = cstr p)
    (hrest : (xgetline (maxlen - t.length) file).file = rest) :
    Resumes t (p :: ls) (resume maxlen t file) ↔
      cstr p ≠ [] ∧ Resumes (carried t p) ls (resume maxlen (carried t p) rest) := by
  have htext := text_of_cstr ht hp hbuf
  have hout := outside_of_cstr ht hp hbuf
  by_cases hnil : cstr p = []
  · refine iff_of_false (fun h => ?_) fun h => h.1 hnil
    have hflag := resume_of_outside hgot (hout.trans (decide_eq_true hnil))
    exact absurd (hflag.symm.trans h.2) (by decide)
  · have hlast : (t ++ cstr p).getLast? = (cstr p).getLast? := List.getLast?_append_of_ne_nil _ hnil
    have hdrop : (t ++ cstr p).dropLast = t ++ (cstr p).dropLast :=
      List.dropLast_append_of_ne_nil hnil
    rw [and_iff_right hnil, carried]
    by_cases hcont : (cstr p).getLast? = some '\\'
    · rw [if_pos hcont, resume_of_cont hgot (by rw [htext, hlast, hcont]), htext, hdrop, hrest,
        hout, decide_eq_false hnil, Bool.false_or, Resumes, Resumes, List.map_cons,
        logical_cons_of_cont hcont, glue_glue]
    · rw [if_neg hcont, resume_of_end hgot (by rwa [htext, hlast]), htext, hrest, hout,
        decide_eq_false hnil, Bool.false_or, Resumes, Resumes, List.map_cons,
        logical_cons_of_not hcont, glue_cons, lineResults_glue_nil, ← resume_nil hsize]
      have hcons : lineResults ((t ++ cstr p) :: logical '\\' (ls.map cstr)) =
          lineResults [t ++ cstr p] ++ lineResults (logical '\\' (ls.map cstr)) := by
        rw [lineResults_cons, lineResults_cons]
        split_ifs <;> rfl
      rw [hcons, List.append_right_inj]

theorem logical_singleton (s : Word) :
    ∃ l, logical '\\' [s] = [l] ∧ (s = l ∨ s = l ++ ['\\']) := by
  by_cases hcont : s.getLast? = some '\\'
  · have hsplit := (List.dropLast_append_getLast? _ hcont).symm
    exact ⟨s.dropLast, logical_cons_of_cont hcont, .inr hsplit⟩
  · exact ⟨s, logical_cons_of_not hcont, .inl rfl⟩

theorem cstr_cons (c : Char) (p : Word) :
    cstr (c :: p) = if c = nul then [] else c :: cstr p := by
  unfold cstr
  by_cases hc : c = nul <;> simp [hc]

theorem cstr_take_eq_nil_iff (n : ℕ) : cstr (p.take (n + 1)) = [] ↔ cstr p = [] := by
  cases p with
  | nil => rw [List.take_nil]
  | cons c p =>
    rw [List.take_succ_cons, cstr_cons, cstr_cons]
    split_ifs <;> simp

theorem cstr_take_of_eq_nil (h : cstr p = []) (n : ℕ) : cstr (p.take n) = [] := by
  cases n with
  | zero => rw [List.take_zero, cstr, List.takeWhile_nil]
  | succ n => exact (cstr_take_eq_nil_iff n).mpr h

/-- Of a last line without a newline that does not fit, what there is room for stays in the buffer,
but only the text in front of it is counted. -/
theorem resume_of_last (h : InBuffer maxlen t) (hp : '\n' ∉ p)
    (hfit : ¬t.length + p.length + 1 < maxlen) : resume maxlen t p =
      (if t = [] ∨ isSkipped (t ++ cstr (p.take (maxlen - 1 - t.length))) = true then []
        else [(t ++ cstr (p.take (maxlen - 1 - t.length)), t.length)], false) := by
  have hlt := h.lt
  have hline : xgetline (maxlen - t.length) p = ⟨p.take (maxlen - 1 - t.length), false, []⟩ := by
    rw [xgetline_last (by omega) hp, if_neg (by omega), Nat.sub_right_comm]
  have hfollow : followLine maxlen t p =
      ⟨t ++ cstr (p.take (maxlen - 1 - t.length)), t.length, [], false⟩ := by
    rw [followLine_of_not_got (by rw [hline]; exact Bool.false_ne_true), hline]
  rw [resume, hfollow, readMacroLines_nil (Nat.one_le_of_lt hlt)]
  by_cases ht : t = []
  · subst ht
    simp
  · have hpos : 0 < t.length := List.length_pos_iff.mpr ht
    simp only [ht, hpos, if_true, false_or, Bool.false_or]
    split_ifs <;> rfl

theorem lineResults_of_skipped {l : Word} {n : ℕ} (hempty : cstr p = [] → l = [])
    (hcut : t = [] ∨ isSkipped (t ++ cstr (p.take n)) = true) :
    [] = lineResults [t ++ l] ↔ cstr p = [] ∨ isSkipped (t ++ l) = true := by
  rw [lineResults_cons]
  by_cases hskip : isSkipped (t ++ l) = true
  · rw [if_pos hskip]
    exact iff_of_true rfl (.inr hskip)
  · rw [if_neg hskip]
    refine iff_of_false nofun ?_
    rintro (hnil | h)
    · rw [hempty hnil, List.append_nil] at hskip
      rw [cstr_take_of_eq_nil hnil, List.append_nil] at hcut
      rcases hcut with rfl | h
      · exact hskip isSkipped_nil
      · exact hskip h
    · exact hskip h

theorem lineResults_of_kept {l : Word} {n : ℕ} (hempty : cstr p = [] → l = [])
    (hkept : ¬isSkipped (t ++ cstr (p.take (n + 1))) = true) :
    [(t ++ cstr (p.take (n + 1)), t.length)] = lineResults [t ++ l] ↔ cstr p = [] := by
  rw [lineResults_cons]
  constructor
  · intro heq
    split_ifs at heq with hskip
    · exact absurd heq (List.cons_ne_nil _ _)
    · obtain ⟨happ, hlen⟩ := Prod.mk.inj (List.cons.inj heq).1
      have hnil : l = [] := by
        rw [List.length_append] at hlen
        exact List.eq_nil_of_length_eq_zero (by omega)
      rw [hnil] at happ
      exact (cstr_take_eq_nil_iff n).mp (List.append_cancel_left happ)
  · intro hnil
    rw [cstr_take_of_eq_nil hnil, List.append_nil] at hkept ⊢
    rw [hempty hnil, List.append_nil, if_neg hkept]
    rfl

theorem resumes_of_last (h : InBuffer maxlen t) (hp : '\n' ∉ p)
    (hfit : ¬t.length + p.length + 1 < maxlen) :
    Resumes t [p] (resume maxlen t p) ↔ Immaterial maxlen t p := by
  obtain ⟨l, hl, hcstr⟩ := logical_singleton (cstr p)
  have hempty : cstr p = [] → l = [] := by
    intro h
    rcases hcstr with heq | heq
    · rw [← heq, h]
    · exact absurd (heq.symm.trans h) (List.append_ne_nil_of_right_ne_nil _ (by decide))
  rw [resume_of_last h hp hfit, Resumes, List.map_singleton, hl, glue_cons, and_iff_left rfl,
    Immaterial, hl]
  simp only [List.mem_singleton, forall_eq]
  by_cases hnone : t = [] ∨ isSkipped (t ++ cstr (p.take (maxlen - 1 - t.length))) = true
  · rw [if_pos hnone, and_iff_left hnone]
    exact lineResults_of_skipped hempty hnone
  · obtain ⟨ht, htext⟩ := not_or.mp hnone
    obtain ⟨n, hn⟩ := Nat.exists_eq_add_of_lt (h.room ht)
    have hcut : maxlen - 1 - t.length = n + 1 := by omega
    rw [hcut] at htext ⊢
    rw [if_neg (not_or.mpr ⟨ht, htext⟩), or_iff_left fun h => h.2.elim ht htext]
    exact lineResults_of_kept hempty htext

theorem resume_of_nil (h : InBuffer maxlen t) : resume maxlen t [] = (lineResults [t], false) := by
  have hline : xgetline (maxlen - t.length) [] = ⟨[], false, []⟩ :=
    xgetline_nil (Nat.sub_pos_of_lt h.lt)
  have hfollow : followLine maxlen t [] = ⟨t, t.length, [], false⟩ := by
    rw [followLine_of_not_got (by rw [hline]; exact Bool.false_ne_true), hline]
    exact congrArg (MacroLine.mk · _ _ _) (List.append_nil t)
  rw [resume, hfollow, readMacroLines_nil (Nat.one_le_of_lt h.lt), lineResults_cons]
  by_cases hskip : isSkipped t = true
  · rw [if_pos hskip, if_pos hskip]
    rfl
  · have hpos : 0 < t.length := List.length_pos_iff.mpr fun heq => hskip (heq ▸ isSkipped_nil)
    rw [if_neg hskip, if_neg hskip, if_pos hpos]
    rfl

theorem getLast?_line (p : Word) (hne : rest ≠ []) :
    (p ++ '\n' :: rest).getLast? = rest.getLast? := by
  rw [List.getLast?_append_of_ne_nil _ (List.cons_ne_nil _ _), List.getLast?_cons_of_ne_nil hne]

/-- A line that does not fit is read as an empty one, with the byte in front of the buffer. -/
theorem resume_of_long (h : InBuffer maxlen t) (hp : '\n' ∉ p)
    (hfit : ¬t.length + p.length + 1 < maxlen) :
    (resume maxlen t (p ++ '\n' :: rest)).2 = true := by
  have hline : xgetline (maxlen - t.length) (p ++ '\n' :: rest) = ⟨[], true, rest⟩ := by
    rw [xgetline_line (Nat.sub_pos_of_lt h.lt) hp, if_neg (by omega)]
  have hnil : cstr ([] : Word) = [] := rfl
  apply resume_of_outside (by rw [hline])
  rw [hline, outside_of_cstr h.newline List.not_mem_nil (.inr hnil), decide_eq_true hnil]

theorem not_readable_of_long (hfit : ¬t.length + p.length + 1 < maxlen) :
    ¬Readable maxlen ((p ++ '\n' :: rest).getLast? = some '\n') t (p :: lines '\n' rest) := by
  rw [Readable, if_neg hfit]
  rintro ⟨hls, hlast, -⟩
  rw [lines_eq_nil_iff.mp hls] at hlast
  exact hlast List.getLast?_concat

theorem resumes_iff (h : InBuffer maxlen t) : Resumes t (lines '\n' file) (resume maxlen t file) ↔
    Readable maxlen (file.getLast? = some '\n') t (lines '\n' file) := by
  induction hk : file.length using Nat.strongRecOn generalizing t file with
  | ind k ih =>
    have hsize : 1 ≤ maxlen := Nat.one_le_of_lt h.lt
    have hroom : 1 ≤ maxlen - t.length := Nat.sub_pos_of_lt h.lt
    rcases line_cases '\n' file with rfl | ⟨hne, hp⟩ | ⟨p, rest, hp, rfl⟩
    · rw [resume_of_nil h]
      exact iff_of_true ⟨rfl, rfl⟩ trivial
    · rw [lines_of_notMem hp hne]
      by_cases hfit : t.length + file.length + 1 < maxlen
      · have hline : xgetline (maxlen - t.length) file = ⟨file, true, []⟩ := by
          rw [xgetline_last hroom hp, if_pos (by omega), List.isEmpty_eq_false_iff.mpr hne]
          rfl
        rw [resumes_of_fits hsize h.newline hp (by rw [hline]) (by rw [hline]; exact .inr rfl)
          (by rw [hline]), Readable, if_pos hfit]
        refine and_congr_right fun hnil => ?_
        rw [resume_of_nil (h.carried hp hfit hnil)]
        exact iff_of_true ⟨rfl, rfl⟩ trivial
      · have hlast : ¬file.getLast? = some '\n' := fun heq => hp (List.mem_of_getLast? heq)
        rw [resumes_of_last h hp hfit, Readable, if_neg hfit, and_iff_right rfl,
          and_iff_right hlast]
    · rw [lines_append hp]
      by_cases hfit : t.length + p.length + 1 < maxlen
      · have hline : xgetline (maxlen - t.length) (p ++ '\n' :: rest) =
            ⟨p ++ ['\n'], true, rest⟩ := by
          rw [xgetline_line hroom hp, if_pos (by omega)]
        rw [resumes_of_fits hsize h.newline hp (by rw [hline])
          (by rw [hline]; exact cstr_append_newline) (by rw [hline]), Readable, if_pos hfit]
        refine and_congr_right fun hnil => ?_
        have hlt : rest.length < k := by
          rw [← hk, List.length_append, List.length_cons]
          omega
        rw [ih _ hlt (h.carried hp hfit hnil) rfl]
        apply readable_congr
        intro hls
        have hrest : rest ≠ [] := fun heq => hls (heq ▸ rfl)
        rw [getLast?_line p hrest]
      · refine iff_of_false (fun hres => ?_) (not_readable_of_long hfit)
        exact absurd ((resume_of_long h hp hfit).symm.trans hres.2) (by decide)

/-- **The results are the logical lines of the file, and nothing in front of a buffer is read,
exactly when no physical line is empty and each fits into what is left of the buffer.** -/
theorem readMacroLines_iff (hsize : 1 ≤ maxlen) (file : Word) :
    ReadsLines file (readMacroLines maxlen file) ↔
      Readable maxlen (file.getLast? = some '\n') [] (lines '\n' file) := by
  rw [← resumes_iff (.nil hsize), Resumes, lineResults_glue_nil, resume_nil hsize]
  exact ⟨fun h => ⟨h.results, h.inside⟩, fun h => ⟨h.1, h.2⟩⟩

/-- The strings of a readable file are its lines. -/
theorem readMacroLines_of_readable (hsize : 1 ≤ maxlen)
    (h : Readable maxlen (file.getLast? = some '\n') [] (lines '\n' file)) :
    (readMacroLines maxlen file).1.map Prod.fst = macroLines file := by
  have hres := ((resumes_iff (.nil hsize)).mpr h).1
  rw [lineResults_glue_nil, ← resume_nil hsize] at hres
  rw [hres, lineResults, List.map_map]
  exact List.map_id _

/-- A comment and two lines that are joined. -/
theorem readMacroLines_joined : ReadsLines ['#', '\n', 'a', '\\', '\n', 'b']
    (readMacroLines 8 ['#', '\n', 'a', '\\', '\n', 'b']) :=
  (readMacroLines_iff (by decide) _).mpr (by simp [lines, Readable, carried, cstr, nul])

/-- An empty line between two others. -/
theorem readMacroLines_empty : ¬ReadsLines ['#', '\n', '\n', 'a']
    (readMacroLines defaultCodebufSize ['#', '\n', '\n', 'a']) := by
  intro h
  have hres : Resumes [] (lines '\n' ['#', '\n', '\n', 'a'])
      (resume defaultCodebufSize [] ['#', '\n', '\n', 'a']) := by
    rw [← resume_nil (by decide)]
    exact ⟨h.results, h.inside⟩
  have hread := (resumes_iff (.nil (by decide))).mp hres
  simp [lines, Readable, cstr, nul, defaultCodebufSize] at hread

end Lre
