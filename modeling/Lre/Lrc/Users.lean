import Lre.Lrc.Network
import Lre.Lrc.Process

/-!
# Users of processes

* `sprintfInt`: the decimal numeral of an integer (`sprintfInt_injective`).
* `getProcessUser`: the user of a process, a name or the numeral of its uid.
* `ExecutedProcess.exprUserHandler`: the expression `user`.
* **`exprUserHandler_iff`**: when its verdict is the one that the value asks for.
-/

namespace Lre

variable {D : Type}

/-! ## Numerals -/

/-- `sprintf` with `"%d"`. -/
def sprintfInt (val : BitVec 32) : Word :=
  if val.toInt < 0 then '-' :: Nat.toDigits 10 val.toInt.natAbs
  else Nat.toDigits 10 val.toInt.natAbs

/-- The length of `user[32]`, with its terminator. -/
def userMax : ℕ := 32

/-- A string stored in `user[32]`; `none` is a store behind it. -/
def storeUser (text : Word) : Option Word :=
  if text.length < userMax then some text else none

/-- The user of a process in `get_process_info`, for the name that `getpwuid` returns. -/
def getProcessUser (pwName : Option Word) (stUid : BitVec 32) : Option Word :=
  match pwName with
  | none => storeUser (sprintfInt stUid)
  | some pwName => storeUser pwName

/-! ## The component -/

/-- `struct process_info` with the user. -/
structure ProcessUser extends ProcessInfo where
  user : Word

/-- `STATE_EXEC_FAILED` and `STATE_EXEC_SUCCESS`. -/
inductive ObjState
  | failed
  | success
  deriving DecidableEq

/-- `struct lrc_process`, with what its execution left; `count` is the length. -/
structure ExecutedProcess where
  psinfo : List ProcessUser
  state : ObjState

/-- The string that `expr_user_handler` prints into `user`: `lre_value_is_int` stands where the
integer should be read. -/
def userPrinted : Content D → Option Word
  | .int _ => some (sprintfInt 1)
  | .string str => some str
  | _ => none

/-- The text of `expr_user_handler` for `output`. -/
def userText (matched : Bool) : Word :=
  ['e', 'x', 'p', 'r', ' ', '\'', 'u', 's', 'e', 'r', '\'', ' '] ++
    (if matched then [] else ['n', 'o', 't', ' ']) ++ ['m', 'a', 't', 'c', 'h', 'e', 'd', '.']

/-- `expr_user_handler`: the result and the text that is output; `none` is a store behind `user`. -/
def ExecutedProcess.exprUserHandler (process : ExecutedProcess) (opt : Sym)
    (lreval : Option (LreValue D)) : Option (BitVec 32 × Option Word) :=
  match process.state, lreval with
  | .failed, _ => some (lreRetError, none)
  | .success, none => some (lreRetError, none)
  | .success, some lreval =>
    match userPrinted lreval.content with
    | none => some (lreRetError, none)
    | some printed =>
      (storeUser printed).map fun user =>
        let found := process.psinfo.any fun psinfo => psinfo.user == user
        let ret := lreCompareInt (if found then 1 else 0) 1 opt
        (ret, if vaildLreResults ret.toInt then some (userText (ret != 0)) else none)

/-! ## The purpose -/

/-- A user that a rule asks for. -/
inductive UserValue
  | int (val : BitVec 32)
  | string (str : Word)
  deriving DecidableEq

namespace UserValue

/-- The value that the handler is given. -/
def content : UserValue → Content D
  | int val => .int val
  | string str => .string str

/-- The user asked for: an integer is one as `get_process_info` writes it. -/
def user : UserValue → Word
  | int val => sprintfInt val
  | string str => str

end UserValue

/-- Some process has the user. -/
def HasUser (psinfo : List ProcessUser) (user : Word) : Prop := ∃ ps ∈ psinfo, ps.user = user

instance (psinfo : List ProcessUser) (user : Word) : Decidable (HasUser psinfo user) :=
  inferInstanceAs (Decidable (∃ ps ∈ psinfo, _))

/-- Nothing is stored behind the buffer, and the verdict is whether some process has the user, or
its negation for `!=`. -/
def UserVerdict (psinfo : List ProcessUser) (op : Sym) (u : UserValue)
    (out : Option (BitVec 32 × Option Word)) : Prop :=
  ∃ ret text, out = some (ret, text) ∧ vaildLreResults ret.toInt = true ∧
    (ret = 1 ↔ if op = .equal then HasUser psinfo u.user else ¬HasUser psinfo u.user)

/-- The string that is printed is as good as the user asked for: a string fits into the buffer, and
for an integer the user `1` is there exactly when the integer's own user is. -/
def UserRead (psinfo : List ProcessUser) : UserValue → Prop
  | .int val => HasUser psinfo ['1'] ↔ HasUser psinfo (sprintfInt val)
  | .string str => str.length < userMax

variable {psinfo : List ProcessUser} {op : Sym} {a b val stUid : BitVec 32} {user text : Word}
  {u : UserValue}

/-! ## Numerals -/

theorem minus_notMem_toDigits (n : ℕ) : '-' ∉ Nat.toDigits 10 n := fun h =>
  absurd (Nat.isDigit_of_mem_toDigits (by decide) le_rfl h) (by decide)

theorem toDigits_injective : Function.Injective (Nat.toDigits 10) := fun m n h => by
  have hval := congrArg (Nat.ofDigitChars 10 · 0) h
  simpa using hval

theorem sprintfInt_injective : Function.Injective sprintfInt := by
  intro a b h
  apply BitVec.eq_of_toInt_eq
  by_cases ha : a.toInt < 0 <;> by_cases hb : b.toInt < 0
  · rw [sprintfInt, sprintfInt, if_pos ha, if_pos hb] at h
    have habs := toDigits_injective (List.cons.inj h).2
    omega
  · rw [sprintfInt, sprintfInt, if_pos ha, if_neg hb] at h
    exact absurd (h ▸ List.mem_cons_self) (minus_notMem_toDigits _)
  · rw [sprintfInt, sprintfInt, if_neg ha, if_pos hb] at h
    exact absurd (h ▸ List.mem_cons_self) (minus_notMem_toDigits _)
  · rw [sprintfInt, sprintfInt, if_neg ha, if_neg hb] at h
    have habs := toDigits_injective h
    omega

theorem length_sprintfInt_le (val : BitVec 32) : (sprintfInt val).length ≤ 11 := by
  have hlt := BitVec.toInt_lt (x := val)
  have hle := BitVec.le_toInt val
  have hdigits : (Nat.toDigits 10 val.toInt.natAbs).length ≤ 10 := by
    apply (Nat.length_toDigits_le_iff (by decide) (by decide)).mpr
    omega
  unfold sprintfInt
  split_ifs
  · exact Nat.succ_le_succ hdigits
  · exact Nat.le_succ_of_le hdigits

theorem storeUser_of_lt (h : text.length < userMax) : storeUser text = some text := if_pos h

theorem storeUser_of_le (h : userMax ≤ text.length) : storeUser text = none :=
  if_neg (Nat.not_lt.mpr h)

/-- A process whose uid has no name has the user of an integer exactly when the uid is the
integer. -/
theorem getProcessUser_uid_iff (val stUid : BitVec 32) :
    getProcessUser none stUid = some (UserValue.int val).user ↔ stUid = val := by
  have hle := length_sprintfInt_le stUid
  have hstore : getProcessUser none stUid = some (sprintfInt stUid) :=
    storeUser_of_lt (Nat.lt_of_le_of_lt hle (by decide))
  rw [hstore, Option.some_inj]
  exact sprintfInt_injective.eq_iff

/-! ## The verdict -/

theorem lreCompareInt_found (hop : op = .equal ∨ op = .notEqual) (p : Prop) [Decidable p] :
    lreCompareInt (if p then 1 else 0) 1 op = 1 ↔ if op = .equal then p else ¬p := by
  rw [lreCompareInt_eq_one_iff]
  rcases hop with rfl | rfl <;> by_cases hp : p <;> simp [Sym.Compares, hp]

theorem hasUser_iff :
    (psinfo.any fun ps => ps.user == user) = true ↔ HasUser psinfo user := by
  simp [HasUser]

theorem exprUserHandler_of_stored {content : Content D} {ptr : Option ℕ}
    (hprint : (userPrinted content).bind storeUser = some user) :
    ExecutedProcess.exprUserHandler ⟨psinfo, .success⟩ op (some ⟨content, ptr⟩) =
      some (lreCompareInt (if HasUser psinfo user then 1 else 0) 1 op,
        if vaildLreResults (lreCompareInt (if HasUser psinfo user then 1 else 0) 1 op).toInt then
          some (userText (lreCompareInt (if HasUser psinfo user then 1 else 0) 1 op != 0))
        else none) := by
  obtain ⟨printed, hprinted, hstore⟩ := Option.bind_eq_some_iff.mp hprint
  simp only [ExecutedProcess.exprUserHandler, hprinted, hstore, Option.map_some, hasUser_iff]

/-- The verdict is right when the string printed is there exactly when the user is. -/
theorem userVerdict_iff (hop : op = .equal ∨ op = .notEqual) {ptr : Option ℕ}
    (hprint : (userPrinted (D := D) u.content).bind storeUser = some user) :
    UserVerdict psinfo op u
        (ExecutedProcess.exprUserHandler (D := D) ⟨psinfo, .success⟩ op
          (some ⟨u.content, ptr⟩)) ↔
      (HasUser psinfo user ↔ HasUser psinfo u.user) := by
  have hcomp : (symWords op).2 = .optComp := by
    rcases hop with rfl | rfl <;> rfl
  rw [exprUserHandler_of_stored hprint, UserVerdict]
  constructor
  · rintro ⟨ret, text, hout, -, hiff⟩
    cases hout
    rw [lreCompareInt_found hop] at hiff
    by_cases heq : op = .equal
    · rwa [if_pos heq, if_pos heq] at hiff
    · rw [if_neg heq, if_neg heq] at hiff
      exact not_iff_not.mp hiff
  · intro hiff
    refine ⟨_, _, rfl, lreCompareInt_valid hcomp, ?_⟩
    rw [lreCompareInt_found hop, hiff]

/-- **`user == u` and `user != u` give the verdict that is asked for, within the buffer, exactly
when a string `u` is shorter than the buffer, and for an integer `u` the user `1` is there exactly
when the user of the integer is.** -/
theorem exprUserHandler_iff (psinfo : List ProcessUser) (hop : op = .equal ∨ op = .notEqual)
    (u : UserValue) (ptr : Option ℕ) :
    UserVerdict psinfo op u
        (ExecutedProcess.exprUserHandler (D := D) ⟨psinfo, .success⟩ op
          (some ⟨u.content, ptr⟩)) ↔
      UserRead psinfo u := by
  cases u with
  | int val => exact userVerdict_iff hop rfl
  | string str =>
    by_cases hlt : str.length < userMax
    · have hprint : (userPrinted (D := D) (UserValue.string str).content).bind storeUser =
          some str := storeUser_of_lt hlt
      exact iff_of_true ((userVerdict_iff hop hprint).mpr Iff.rfl) hlt
    · refine iff_of_false ?_ hlt
      rintro ⟨ret, text, hout, -⟩
      have hstore : storeUser str = none := storeUser_of_le (Nat.not_lt.mp hlt)
      have hnone : ExecutedProcess.exprUserHandler (D := D) ⟨psinfo, .success⟩ op
          (some ⟨.string str, ptr⟩) = none := by
        simp only [ExecutedProcess.exprUserHandler, userPrinted, hstore, Option.map_none]
      exact absurd (hnone.symm.trans hout) nofun

theorem ne_nil_of_mem_none : ∀ path ∈ (none : Option Word), path ≠ [] :=
  fun _ h => absurd h (Option.not_mem_none _)

theorem length_lt_of_mem_none : ∀ path ∈ (none : Option Word), path.length < pathMax :=
  fun _ h => absurd h (Option.not_mem_none _)

/-- A process of a user, without a name and without a path. -/
def processOf (user : Word) : ProcessUser where
  name := none
  binpath := none
  cmdline := []
  binpath_ne_nil := ne_nil_of_mem_none
  binpath_lt := length_lt_of_mem_none
  cmdline_le := Nat.zero_le _
  user := user

/-- `user == "adm"` in front of processes of `root` and `adm`. -/
theorem exprUserHandler_name :
    UserVerdict [processOf ['r', 'o', 'o', 't'], processOf ['a', 'd', 'm']] .equal
      (.string ['a', 'd', 'm'])
      (ExecutedProcess.exprUserHandler (D := Unit)
        ⟨[processOf ['r', 'o', 'o', 't'], processOf ['a', 'd', 'm']], .success⟩ .equal
        (some ⟨.string ['a', 'd', 'm'], none⟩)) :=
  (exprUserHandler_iff _ (.inl rfl) (.string ['a', 'd', 'm']) none).mpr
    (show 3 < 32 by decide)

/-- `user == 42` does not find the process of uid 42, and a string of 32 bytes is stored behind the
buffer. -/
theorem exprUserHandler_uid :
    getProcessUser none 42 = some ['4', '2'] ∧
      ¬UserVerdict [processOf ['4', '2']] .equal (.int 42)
        (ExecutedProcess.exprUserHandler (D := Unit) ⟨[processOf ['4', '2']], .success⟩ .equal
          (some ⟨.int 42, none⟩)) ∧
      ExecutedProcess.exprUserHandler (D := Unit) ⟨[], .success⟩ .equal
        (some ⟨.string (List.replicate 32 'a'), none⟩) = none := by
  refine ⟨rfl, ?_, rfl⟩
  rintro ⟨ret, text, hout, -, hiff⟩
  have hret : ret = 0 := by
    cases hout
    rfl
  have huser : HasUser [processOf ['4', '2']] (UserValue.int 42).user :=
    ⟨_, List.mem_cons_self, rfl⟩
  rw [if_pos rfl, hret] at hiff
  exact absurd (hiff.mpr huser) (by decide)

end Lre
