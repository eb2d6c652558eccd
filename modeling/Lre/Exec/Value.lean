import Lre.Symbol

/-!
# Values

* `LreValue`: `struct lre_value`. The member of the union that was written last is the one its
  `type` names; `ptr` is the heap string of `lre_value_dup2_string`, when the value owns one.
* `Doubles`: the type `double` with what the engine uses of it.
* `val2lreValue`, `lreCalcInt`, `lreCalcDobule`: literals and arithmetic.
-/

namespace Lre

/-- `RET_DEAD_VAL`, which is `LRE_RESULT_UNKNOWN`. -/
def retDeadVal : BitVec 32 := 0xdeaddeed#32

/-- A type of doubles: arithmetic, `(double)RET_DEAD_VAL`, `atof`, and the first four bytes. -/
structure Doubles (D : Type) where
  add : D → D → D
  sub : D → D → D
  mul : D → D → D
  div : D → D → D
  deadVal : D
  atof : Word → D
  valint : D → BitVec 32

/-- The type tag of a value with the member it names. -/
inductive Content (D : Type)
  | unknown
  | int (valint : BitVec 32)
  | double (valdouble : D)
  | string (valstring : Word)
  deriving DecidableEq

/-- `struct lre_value`; `ptr` is `none` when `LRE_VALUE_F_NEEDFREE` is clear. -/
structure LreValue (D : Type) where
  content : Content D
  ptr : Option ℕ
  deriving DecidableEq

variable {D : Type}

/-- `lre_value_init`. -/
def LreValue.init : LreValue D := ⟨.unknown, none⟩

/-- A store through an out parameter: `lre_value_set_int`, `lre_value_set_double`,
`lre_value_set_string` and `lre_value_dup2_string`. -/
inductive SetValue (D : Type)
  | setInt (ival : BitVec 32)
  | setDouble (dval : D)
  | setString (str : Word)
  | dup2String (str : Word)
  deriving DecidableEq

/-! ## Literals -/

/-- `is_digit`, which holds of the empty string. -/
def isDigit (str : Word) : Bool := str.all Char.isDigit

/-- The loop of `is_double_digit`. -/
def isDoubleDigitLoop : ℕ → Word → Bool
  | flags, [] => flags = 1
  | flags, c :: p =>
    let flags := if c = '.' then flags + 1 else flags
    if c.isDigit then isDoubleDigitLoop flags p else false

/-- `is_double_digit`. -/
def isDoubleDigit (str : Word) : Bool :=
  if str.head? = some '.' then false else isDoubleDigitLoop 0 str

/-- The number a string of digits denotes. -/
def digitsVal (str : Word) : ℕ := str.foldl (fun n c => 10 * n + (c.toNat - '0'.toNat)) 0

/-- `atoi` on a string of digits: `strtol` saturates at `LONG_MAX`, the cast keeps 32 bits. -/
def atoi (str : Word) : BitVec 32 := BitVec.ofNat 32 (min (digitsVal str) (2 ^ 63 - 1))

/-- `val2lre_value` with `peek_val_type`, on the C string of the word. -/
def val2lreValue (R : Doubles D) (val : Word) : Content D :=
  if isDigit val then .int (atoi val)
  else if isDoubleDigit val then .double (R.atof val)
  else if val.head? = some '"' then .string val.tail.dropLast
  else .string val

/-! ## Arithmetic -/

/-- `lre_calc_int`; `none` is the trap of the division instruction. -/
def lreCalcInt (a b : BitVec 32) : Sym → Option (BitVec 32)
  | .add => some (a + b)
  | .sub => some (a - b)
  | .mul => some (a * b)
  | .div => if b = 0 ∨ a = BitVec.intMin 32 ∧ b = -1 then none else some (a.sdiv b)
  | _ => some retDeadVal

/-- `lre_calc_dobule`. -/
def lreCalcDobule (R : Doubles D) (a b : D) : Sym → D
  | .add => R.add a b
  | .sub => R.sub a b
  | .mul => R.mul a b
  | .div => R.div a b
  | _ => R.deadVal

end Lre
