import Mathlib.Logic.Function.Basic
import Lre.Interp.Formula
import Lre.Lrc.Compare
import Lre.Lrc.Permission
import Lre.Lrc.SpecTable
import Lre.Macro.Lines

/-!
# Rules about files

The component `lrc_file` with its objects and its heap strings, and the rules that are made of it.

* `FileWorld`: the system that the component asks, the objects and the strings; `fileModule`: the
  component as it registers itself.
* `FileAtom`: `file(path=..){..}` with any proposition about `exist`, `owner` and `permission`.
* `FileAtom.step`: each function asks `stat` once, and keeps every path but the last.
* **`rule_file`**: a rule that is spelled like a proposition of these does what the run of the
  proposition does.
* `rule_file_still`: while no file changes, its verdict is the truth value of the proposition.
-/

namespace Lre

open CString (nul)

variable {D : Type}

/-! ## The component -/

/-- What `stat` returns. -/
inductive StatResult
  | found (stUid stGid stMode : BitVec 32)
  | noEntry
  | failed

/-- `struct lrc_file`; `path` is a block of the heap, with the string in it. -/
structure FileObject where
  path : Option (ℕ × Word)
  exist : BitVec 32
  owner : BitVec 32
  group : BitVec 32
  permission : BitVec 32
  state : ObjState

/-- The system. -/
structure StatSystem where
  /-- what a call of `stat` returns, by the number of calls before it -/
  stat : ℕ → Word → StatResult
  /-- the name that `getpwuid` returns -/
  pwName : BitVec 32 → Option Word
  /-- the bytes behind `user[32]` -/
  behindUser : Word
  /-- whether `malloc` returns memory for an object -/
  malloc : ℕ → Bool

/-- What the component works on. -/
structure FileWorld where
  sys : StatSystem
  /-- the calls of `stat` so far -/
  stats : ℕ
  objects : ℕ → FileObject
  /-- the objects that are not given back yet -/
  live : List ℕ
  next : ℕ
  /-- the blocks of `strdup` that are not given back yet -/
  strings : List ℕ
  nextString : ℕ
  /-- a handler has not returned -/
  hung : Bool

/-- A store to an object. -/
def FileWorld.setObject (w : FileWorld) (handle : ℕ) (file : FileObject) : FileWorld :=
  { w with objects := Function.update w.objects handle file }

theorem FileWorld.setObject_self (w : FileWorld) (handle : ℕ) (file : FileObject) :
    (w.setObject handle file).objects handle = file := Function.update_self ..

/-- `file_constructor`: the other members are as `malloc` finds them. -/
def fileConstructor (env : Env FileWorld) : Option ℕ × Env FileWorld :=
  let w := env.1
  if w.sys.malloc w.next then
    (some w.next, { w.setObject w.next { w.objects w.next with path := none } with
      live := w.next :: w.live
      next := w.next + 1 }, env.2)
  else (none, { w with next := w.next + 1 }, env.2)

/-- `file_destructor`. -/
def fileDestructor (handle : ℕ) (env : Env FileWorld) : Env FileWorld :=
  let strings := match (env.1.objects handle).path with
    | none => env.1.strings
    | some (block, _) => env.1.strings.erase block
  ({ env.1 with live := env.1.live.erase handle, strings := strings }, env.2)

/-- The members that `file_execute` sets. -/
def FileObject.setStat (file : FileObject) : StatResult → FileObject
  | .found stUid stGid stMode =>
    { file with
      exist := 1
      owner := stUid
      group := stGid
      permission := stMode &&& filePermissionMask
      state := .success }
  | .noEntry =>
    { file with exist := 0, owner := -1, group := -1, permission := -1, state := .success }
  | .failed =>
    { file with exist := -1, owner := -1, group := -1, permission := -1, state := .success }

/-- The details of `file_execute`: of a long path the end. -/
def fileText (path : Word) : Word :=
  let omitted := detailsUnitMax - 32 < path.length
  let p := if omitted then path.drop (path.length - (detailsUnitMax - 32)) else path
  (OutText.empty.write detailsUnitMax (['f', 'i', 'l', 'e', ' ', '\''] ++
    (if omitted then ['.', '.', '.'] else []) ++ p ++ ['\''])).text

/-- `file_execute`. -/
def fileExec (handle : ℕ) (env : Env FileWorld) : ℤ × Env FileWorld :=
  let file := env.1.objects handle
  match file.path with
  | none => (einval, env.1.setObject handle { file with state := .failed }, env.2)
  | some (_, path) =>
    let w := env.1.setObject handle (file.setStat (env.1.sys.stat env.1.stats path))
    (0, { w with stats := w.stats + 1 }, fileText path :: env.2)

/-- `arg_path_handler`: an earlier path is not given back. -/
def fileArgPathHandler (handle : ℕ) (content : Content D) (env : Env FileWorld) :
    ℤ × Env FileWorld :=
  match content with
  | .string str =>
    let w := env.1
    (lreRetOk, { w.setObject handle { w.objects handle with path := some (w.nextString, str) } with
      strings := w.nextString :: w.strings
      nextString := w.nextString + 1 }, env.2)
  | _ => (lreRetError.toInt, env)

/-- The text of `expr_exist_handler`. -/
def existText (exist : BitVec 32) : Word :=
  (if exist ≠ 0 then [] else ['n', 'o', 't', ' ']) ++ ['e', 'x', 'i', 's', 't', '.']

/-- `expr_exist_handler`. -/
def existHandler (handle : ℕ) (opt : Sym) (content : Content D) (env : Env FileWorld) :
    ℤ × Env FileWorld :=
  let file := env.1.objects handle
  match file.state, content with
  | .success, .int val =>
    let ret := lreCompareInt file.exist val opt
    (ret.toInt, env.1,
      if vaildLreResults ret.toInt then existText file.exist :: env.2 else env.2)
  | _, _ => (lreRetError.toInt, env)

/-- The string in `user[32]`: a name of 32 bytes and more has no terminator there. -/
def StatSystem.user (sys : StatSystem) (owner : BitVec 32) : Word :=
  match sys.pwName owner with
  | none => sprintfInt owner
  | some pwName =>
    cstr ((pwName ++ List.replicate userMax nul).take userMax ++ sys.behindUser)

/-- The text of `expr_owner_handler`, with the owner when it does not match. -/
def ownerText (matched : Bool) (user : Word) : Word :=
  let buf := OutText.empty.write detailsUnitMax (['\'', 'o', 'w', 'n', 'e', 'r', '\'', ' '] ++
    (if matched then [] else ['n', 'o', 't', ' ']) ++ ['m', 'a', 't', 'c', 'h', 'e', 'd', '.'])
  if matched then buf.text
  else (buf.write detailsUnitMax
    ([' ', 'o', 'w', 'n', 'e', 'r', ':', ' ', '\''] ++ user ++ ['\''])).text

/-- The string that `expr_owner_handler` compares with. -/
def ownerAsked : Content D → Option Word
  | .int val => some (sprintfInt val)
  | .string str => some str
  | _ => none

/-- `expr_owner_handler`. -/
def ownerHandler (handle : ℕ) (opt : Sym) (content : Content D) (env : Env FileWorld) :
    ℤ × Env FileWorld :=
  let file := env.1.objects handle
  match file.state, ownerAsked content with
  | .success, some str =>
    let user := env.1.sys.user file.owner
    let ret := lreCompareString user str opt
    (ret.toInt, env.1,
      if vaildLreResults ret.toInt then ownerText (ret != 0) user :: env.2 else env.2)
  | _, _ => (lreRetError.toInt, env)

/-- The members that `permission` reads. -/
def FileObject.lrcFile (file : FileObject) : LrcFile :=
  ⟨file.path.map Prod.snd, file.permission, file.state⟩

/-- `expr_permission_handler`; when it does not return, what it returns counts for nothing. -/
def permissionHandler (handle : ℕ) (opt : Sym) (content : Content D) (env : Env FileWorld) :
    ℤ × Env FileWorld :=
  match (env.1.objects handle).lrcFile.exprPermissionHandler opt (some ⟨content, none⟩) with
  | none => (0, { env.1 with hung := true }, env.2)
  | some (ret, text) => (ret.toInt, env.1, text.toList ++ env.2)

/-- `file_args`. -/
def pathStub : LrcStubArg (Env FileWorld) ℕ D := ⟨['p', 'a', 't', 'h'], fileArgPathHandler⟩

/-- The members of `file_exprs`. -/
inductive FileMember
  | exist
  | owner
  | permission
  deriving DecidableEq

/-- `file_exprs`. -/
def FileMember.stub : FileMember → LrcStubExpr (Env FileWorld) ℕ D
  | exist => ⟨['e', 'x', 'i', 's', 't'], existHandler⟩
  | owner => ⟨['o', 'w', 'n', 'e', 'r'], ownerHandler⟩
  | permission => ⟨['p', 'e', 'r', 'm', 'i', 's', 's', 'i', 'o', 'n'], permissionHandler⟩

/-- `lrc_funcs`. -/
def fileFunc : LrcStubFunc (Env FileWorld) ℕ D where
  keyword := ['f', 'i', 'l', 'e']
  constructor := fileConstructor
  exec := some fileExec
  destructor := some fileDestructor
  args := [pathStub]
  exprs := [FileMember.stub .exist, FileMember.stub .owner, FileMember.stub .permission]
  vars := []
  funcs := []

/-- `lrc_file_mod`. -/
def fileModule : LrcModule (Env FileWorld) ℕ D := ⟨[fileFunc], []⟩

/-- The members that the expression `permission` reads are set as `LrcFile.execute` sets them. -/
theorem lrcFile_setStat (file : FileObject) (block : ℕ) (path : Word) (found : StatResult) :
    (({ file with path := some (block, path) }).setStat found).lrcFile =
      (LrcFile.execute { file.lrcFile with path := some path } (match found with
        | .found _ _ stMode => some stMode
        | _ => none)).1 := by
  cases found <;> rfl

/-! ## Rules -/

namespace StatResult

/-- What the expression `exist` is about. -/
def exist : StatResult → BitVec 32
  | found .. => 1
  | noEntry => 0
  | failed => -1

/-- The user that the file belongs to. -/
def owner : StatResult → BitVec 32
  | found stUid _ _ => stUid
  | _ => -1

/-- The permission of the file. -/
def permission : StatResult → BitVec 32
  | found _ _ stMode => stMode &&& filePermissionMask
  | _ => -1

/-- There is no file with a mode. -/
def missing : StatResult → Bool
  | found .. => false
  | _ => true

end StatResult

/-- What an operator asks of two permissions, where one is below the other when it has no bit
more. -/
def Sym.Permits : Sym → BitVec 32 → BitVec 32 → Prop
  | .equal, a, b => a = b
  | .notEqual, a, b => a ≠ b
  | .gt, a, b => a &&& ~~~b ≠ 0
  | .lt, a, b => a &&& ~~~b = 0 ∧ a ≠ b
  | .gtOrEqual, a, b => a = b ∨ a &&& ~~~b ≠ 0
  | .ltOrEqual, a, b => a &&& ~~~b = 0
  | _, _, _ => False

instance (op : Sym) (a b : BitVec 32) : Decidable (op.Permits a b) := by
  cases op <;> (unfold Sym.Permits; infer_instance)

/-- `exist op x`, `owner op x` or `permission op x`. -/
structure FileExpr where
  member : FileMember
  op : Sym
  x : Lexeme
  isComp : op.IsComp
  isNumber : member ≠ .owner → IsNumber x.cstr

/-- `path=x`. -/
structure FilePath where
  x : Lexeme
  isString : ¬IsNumber x.cstr

/-- `file(paths){body}`. -/
structure FileAtom where
  paths : List FilePath
  body : Formula FileExpr
  length_le : paths.length ≤ syntaxArgMax
  ne_nil : paths ≠ []

/-- The keyword of an expression. -/
def FileMember.keyword (member : FileMember) : Word := (member.stub (D := Unit)).keyword

/-- The item of an expression. -/
def FileExpr.item (e : FileExpr) : SyntaxItem Unit := exprTree e.member.keyword e.op e.x

/-- The item of an atom. -/
def FileAtom.item (atom : FileAtom) : SyntaxItem Unit :=
  funcTree ['f', 'i', 'l', 'e'] (argsTree (fun _ => ['p', 'a', 't', 'h']) FilePath.x atom.paths)
    (atom.body.tree FileExpr.item)

/-- The text of a path. -/
def FilePath.text (path : FilePath) : Word := literalText path.x

/-- The path that is asked about: the last one. -/
def FileAtom.path (atom : FileAtom) : Word := (atom.paths.getLast atom.ne_nil).text

/-- The owner that is asked for: of a number the numeral. -/
def askedOwner (x : Lexeme) : Word :=
  if isDigit x.cstr then sprintfInt (atoi x.cstr) else literalText x

/-- Whether an expression holds of what `stat` has returned. -/
def FileExpr.val (sys : StatSystem) (found : StatResult) (e : FileExpr) : Bool :=
  match e.member with
  | .exist => e.op.Compares found.exist.toInt (atoi e.x.cstr).toInt
  | .owner => e.op.Sorts (sys.user found.owner) (askedOwner e.x)
  | .permission => e.op.Permits found.permission (int2perm (atoi e.x.cstr))

/-- An expression: a permission that does not match is printed, which has no end when there is no
file. -/
def FileExpr.step (sys : StatSystem) (found : StatResult) (e : FileExpr) (hung : Bool) :
    Bool × Bool :=
  (e.val sys found, hung || (e.member = .permission && !e.val sys found && found.missing))

/-- What rules leave behind: the calls of `stat`, the strings that are not given back, and whether a
handler has not returned. -/
structure FileLedger where
  stats : ℕ
  strings : ℕ
  hung : Bool
  deriving DecidableEq

/-- An atom: it calls `stat` once, and gives back one of its paths. -/
def FileAtom.step (sys : StatSystem) (atom : FileAtom) (t : FileLedger) : Bool × FileLedger :=
  let out := atom.body.run (FileExpr.step sys (sys.stat t.stats atom.path)) t.hung
  (out.1, ⟨t.stats + 1, t.strings + (atom.paths.length - 1), out.2⟩)

/-! ## Expressions -/

theorem compares_filePermCompare {op : Sym} {a b : BitVec 32} :
    op.Compares (filePermCompare (a.setWidth 64) (b.setWidth 64)).toInt 0 ↔ op.Permits a b := by
  have hback : ∀ x : BitVec 32, (x.setWidth 64).setWidth 32 = x := fun x => by simp
  have hneg : (-1 : BitVec 32).toInt = -1 := rfl
  have hpos : (1 : BitVec 32).toInt = 1 := rfl
  have hcases := filePermCompare_cases (a := a.setWidth 64) (b := b.setWidth 64)
  rw [hback, hback, ← and_not_eq_zero_iff] at hcases
  rcases hcases with ⟨rfl, h⟩ | ⟨hne, hsub, h⟩ | ⟨hsub, h⟩
  · have hsub : a &&& ~~~a = 0#32 := and_not_eq_zero_iff.mpr fun _ => id
    rw [h]
    cases op <;> simp [Sym.Compares, Sym.Permits]
  · have hsub : a &&& ~~~b = 0#32 := hsub
    rw [h, hneg]
    cases op <;> simp [Sym.Compares, Sym.Permits, hsub, hne]
  · have hsub : a &&& ~~~b ≠ 0#32 := hsub
    have hne : a ≠ b := by
      rintro rfl
      exact hsub (and_not_eq_zero_iff.mpr fun _ => id)
    rw [h, hpos]
    cases op <;> simp [Sym.Compares, Sym.Permits, hsub, hne]

/-- The permission of a file is no negative number, so `perm2int` comes to its end. -/
theorem perm2int_isNone (found : StatResult) :
    (perm2int found.permission).isNone = found.missing := by
  cases found with
  | found stUid stGid stMode =>
    have hle : (stMode &&& filePermissionMask).toNat ≤ 0xfff := by
      rw [BitVec.toNat_and]
      exact Nat.and_le_right
    have hnonneg : ¬(stMode &&& filePermissionMask).toInt < 0 := by
      rw [BitVec.toInt_eq_toNat_of_lt (by omega)]
      omega
    rw [StatResult.permission, perm2int, if_neg hnonneg]
    rfl
  | noEntry => rfl
  | failed => rfl

section Execute

variable {R : Doubles D} {kstub depth handle stats strings : ℕ} {stk : List ℕ} {live : List ℕ}
  {sys : StatSystem} {found : StatResult} {hung : Bool} {t : FileLedger}

/-- The strings and the calls are counted, and the system is as it was. -/
structure FileState (sys : StatSystem) (live : List ℕ) (t : FileLedger) (env : Env FileWorld) :
    Prop where
  sys : env.1.sys = sys
  live : env.1.live = live
  stats : env.1.stats = t.stats
  strings : env.1.strings.length = t.strings
  hung : env.1.hung = t.hung

/-- A rule has made an object, and has stored the paths, the last one in front. -/
structure FileHolding (sys : StatSystem) (live : List ℕ) (t : FileLedger) (handle : ℕ)
    (paths : List Word) (env : Env FileWorld) : Prop extends
    FileState sys (handle :: live) { t with strings := t.strings + paths.length } env where
  path : match paths with
    | [] => (env.1.objects handle).path = none
    | path :: _ => ∃ block rest, (env.1.objects handle).path = some (block, path) ∧
      env.1.strings = block :: rest

/-- The object is executed. -/
structure FileExecuted (sys : StatSystem) (live : List ℕ) (handle stats strings : ℕ)
    (found : StatResult) (hung : Bool) (env : Env FileWorld) : Prop extends
    FileState sys (handle :: live) ⟨stats, strings + 1, hung⟩ env where
  path : ∃ block path rest, (env.1.objects handle).path = some (block, path) ∧
    env.1.strings = block :: rest
  exist : (env.1.objects handle).exist = found.exist
  owner : (env.1.objects handle).owner = found.owner
  permission : (env.1.objects handle).permission = found.permission
  state : (env.1.objects handle).state = .success

/-- The expression, with its stub. -/
def FileExpr.resolved (kstub : ℕ) (e : FileExpr) : ResolvedItem (KeywordStub (Env FileWorld) ℕ D) :=
  .expr (memberStub kstub (.expr e.member.stub)) e.op (literalVals e.x)

/-- The stub of the component. -/
abbrev fileStub (D : Type) (kstub : ℕ) : KeywordStub (Env FileWorld) ℕ D :=
  entryStub (.func fileFunc) kstub

/-- The atom, with its stubs. -/
def FileAtom.resolved (kstub : ℕ) (atom : FileAtom) :
    ResolvedItem (KeywordStub (Env FileWorld) ℕ D) :=
  .func (fileStub D kstub)
    (argsResolved (fun _ => memberStub kstub (.arg pathStub)) FilePath.x atom.paths)
    (atom.body.resolved (FileExpr.resolved kstub))

theorem FileExecuted.details {env : Env FileWorld}
    (h : FileExecuted sys live handle stats strings found hung env) (strs : List Word) :
    FileExecuted sys live handle stats strings found hung (env.1, strs) :=
  ⟨⟨h.sys, h.live, h.stats, h.strings, h.hung⟩, h.path, h.exist, h.owner, h.permission, h.state⟩

theorem existHandler_executed {env : Env FileWorld} {op : Sym} (hop : op.IsComp) (val : BitVec 32)
    (h : FileExecuted sys live handle stats strings found hung env) :
    (existHandler (D := D) handle op (.int val) env).1 =
        verdict (op.Compares found.exist.toInt val.toInt) ∧
      FileExecuted sys live handle stats strings found hung
        (existHandler (D := D) handle op (.int val) env).2 := by
  unfold existHandler
  dsimp only
  rw [h.state, h.exist]
  exact ⟨toInt_lreCompareInt hop, h.details _⟩

theorem ownerHandler_executed {env : Env FileWorld} {op : Sym} (hop : op.IsComp)
    {content : Content D} {str : Word} (hasked : ownerAsked content = some str)
    (h : FileExecuted sys live handle stats strings found hung env) :
    (ownerHandler handle op content env).1 = verdict (op.Sorts (sys.user found.owner) str) ∧
      FileExecuted sys live handle stats strings found hung
        (ownerHandler handle op content env).2 := by
  unfold ownerHandler
  dsimp only
  rw [h.state, h.owner, h.sys, hasked]
  exact ⟨toInt_lreCompareString hop _ _, h.details _⟩

theorem permissionHandler_executed {env : Env FileWorld} {op : Sym} (hop : op.IsComp)
    (val : BitVec 32) (h : FileExecuted sys live handle stats strings found hung env) :
    let b : Bool := op.Permits found.permission (int2perm val)
    (permissionHandler (D := D) handle op (.int val) env).1 = verdict b ∧
      FileExecuted sys live handle stats strings found (hung || (!b && found.missing))
        (permissionHandler (D := D) handle op (.int val) env).2 := by
  intro b
  have hret : (lreCompare (found.permission.setWidth 64) ((int2perm val).setWidth 64) op
      filePermCompare).toInt = verdict b := by
    rw [lreCompare, toInt_lreCompareInt hop]
    exact congrArg verdict (decide_eq_decide.mpr compares_filePermCompare)
  have hmissing := perm2int_isNone found
  unfold permissionHandler LrcFile.exprPermissionHandler FileObject.lrcFile
  dsimp only
  rw [h.state, h.permission]
  dsimp only
  generalize lreCompare _ _ _ _ = ret at hret ⊢
  have hvaild : (!vaildLreResults ret.toInt) = false := by
    rw [hret, vaildLreResults_verdict]
    rfl
  rw [hvaild, if_neg Bool.false_ne_true]
  cases hb : b with
  | true =>
    have hne : ret ≠ 0 := by
      rintro rfl
      rw [hb] at hret
      exact absurd hret (by decide)
    rw [if_pos hne, Bool.not_true, Bool.false_and, Bool.or_false]
    exact ⟨hret.trans (congrArg verdict hb), h.details _⟩
  | false =>
    have hzero : ret = 0 := BitVec.eq_of_toInt_eq (by rw [hret, hb]; rfl)
    rw [if_neg (not_not_intro hzero), Bool.not_false, Bool.true_and, ← hmissing]
    cases perm2int found.permission with
    | none =>
      rw [Option.isNone_none, Bool.or_true]
      exact ⟨rfl, ⟨h.sys, h.live, h.stats, h.strings, rfl⟩, h.path, h.exist, h.owner, h.permission,
        h.state⟩
    | some perm =>
      rw [Option.isNone_some, Bool.or_false, hzero]
      exact ⟨rfl, h.details _⟩

theorem ownerAsked_literal (x : Lexeme) :
    ownerAsked (val2lreValue R x.cstr) = some (askedOwner x) := by
  rw [askedOwner]
  by_cases hx : IsNumber x.cstr
  · rw [val2lreValue_number hx, if_pos (isDigit_iff.mpr hx)]
    rfl
  · rw [val2lreValue_literalText hx, if_neg (mt isDigit_iff.mp hx)]
    rfl

theorem val2lreValue_ne_unknown (x : Lexeme) : val2lreValue R x.cstr ≠ .unknown := by
  intro h
  have hasked := @ownerAsked_literal _ R x
  rw [h] at hasked
  cases hasked

theorem yields_fileExpr (e : FileExpr) (hung : Bool) :
    Yields depth (handle :: stk) (FileExecuted sys live handle stats strings found hung)
      (executeItem stubCallbacks R (e.resolved (D := D) kstub))
      fun ret env => ret = verdict (e.step sys found hung).1 ∧
        FileExecuted sys live handle stats strings found (e.step sys found hung).2 env := by
  rw [FileExpr.resolved, executeItem]
  refine .expr rfl (val2lreValue_ne_unknown e.x) ?_
  intro env henv
  obtain ⟨member, op, x, hop, hnum⟩ := e
  cases member with
  | exist =>
    rw [val2lreValue_number (hnum (by decide))]
    obtain ⟨hret, hq⟩ := existHandler_executed (D := D) hop (atoi x.cstr) henv
    rw [← Bool.or_false hung] at hq
    exact ⟨hret, hq⟩
  | owner =>
    obtain ⟨hret, hq⟩ := ownerHandler_executed hop (@ownerAsked_literal _ R x) henv
    rw [← Bool.or_false hung] at hq
    exact ⟨hret, hq⟩
  | permission =>
    rw [val2lreValue_number (hnum (by decide))]
    exact permissionHandler_executed (D := D) hop (atoi x.cstr) henv

theorem yields_filePath (paths : List Word) (path : FilePath) :
    Yields depth (handle :: stk) (FileHolding sys live t handle paths)
      (executeArg (stubCallbacks (D := D)) handle (memberStub kstub (.arg pathStub)) (do
        let handle ← execCtxGetHandle
        executeValLoop stubCallbacks R handle (literalVals path.x) .reserved .init))
      fun r env => r = (0, lreRetOk) ∧ FileHolding sys live t handle (path.text :: paths) env := by
  refine .arg rfl (.literal path.x .reserved (val2lreValue_ne_unknown path.x)) ?_
  intro env henv
  rw [val2lreValue_literalText path.isString]
  refine ⟨rfl, ⟨henv.sys, henv.live, henv.stats, congrArg (· + 1) henv.strings, henv.hung⟩,
    env.1.nextString, env.1.strings, ?_, rfl⟩
  exact congrArg FileObject.path (env.1.setObject_self handle _)

theorem fileConstructor_holding {env : Env FileWorld} (hmalloc : ∀ n, sys.malloc n = true)
    (h : FileState sys live t env) : ∃ handle, (fileConstructor env).1 = some handle ∧
      FileHolding sys live t handle [] (fileConstructor env).2 := by
  rw [fileConstructor, if_pos (by rw [h.sys, hmalloc])]
  refine ⟨env.1.next, rfl, ⟨h.sys, congrArg _ h.live, h.stats, h.strings, h.hung⟩, ?_⟩
  exact congrArg FileObject.path (env.1.setObject_self env.1.next _)

theorem fileExec_executed {env : Env FileWorld} {path : Word} {paths : List Word}
    (h : FileHolding sys live t handle (path :: paths) env) : (fileExec handle env).1 = 0 ∧
      FileExecuted sys live handle (t.stats + 1) (t.strings + paths.length)
        (sys.stat t.stats path) t.hung (fileExec handle env).2 := by
  obtain ⟨block, rest, hpath, hrest⟩ := h.path
  have hstats : env.1.stats = t.stats := h.stats
  rw [fileExec]
  dsimp only
  rw [hpath, h.sys, hstats]
  dsimp only
  generalize sys.stat t.stats path = found
  have hself := env.1.setObject_self handle ((env.1.objects handle).setStat found)
  have hpath' : ((env.1.objects handle).setStat found).path = some (block, path) := by
    rw [← hpath]
    cases found <;> rfl
  refine ⟨rfl, ⟨h.sys, h.live, congrArg (· + 1) h.stats, h.strings, h.hung⟩,
    ⟨block, path, rest, (congrArg FileObject.path hself).trans hpath', hrest⟩,
    (congrArg FileObject.exist hself).trans ?_, (congrArg FileObject.owner hself).trans ?_,
    (congrArg FileObject.permission hself).trans ?_, (congrArg FileObject.state hself).trans ?_⟩
  all_goals cases found <;> rfl

theorem fileDestructor_state {env : Env FileWorld}
    (h : FileExecuted sys live handle stats strings found hung env) :
    FileState sys live ⟨stats, strings, hung⟩ (fileDestructor handle env) := by
  obtain ⟨block, path, rest, hpath, hrest⟩ := h.path
  have hlen := h.strings
  rw [hrest] at hlen
  rw [fileDestructor]
  dsimp only
  rw [hpath, hrest, h.live, List.erase_cons_head]
  dsimp only
  rw [List.erase_cons_head]
  exact ⟨h.sys, rfl, h.stats, Nat.succ.inj hlen, h.hung⟩

/-- **An atom does what its step does.** -/
theorem yields_fileAtom (hmalloc : ∀ n, sys.malloc n = true) (atom : FileAtom)
    (hroom : stk.length + execStackGap < depth) (t : FileLedger) :
    Yields depth stk (FileState sys live t)
      (executeItem stubCallbacks R (atom.resolved (D := D) kstub))
      fun ret env => ret = verdict (atom.step sys t).1 ∧
        FileState sys live (atom.step sys t).2 env := by
  have hpaths : atom.paths.foldl (fun paths path => path.text :: paths) [] =
      atom.path :: (atom.paths.dropLast.map FilePath.text).reverse := by
    rw [← List.dropLast_append_getLast atom.ne_nil]
    simp [FileAtom.path]
  have hlen : (atom.paths.dropLast.map FilePath.text).reverse.length = atom.paths.length - 1 := by
    rw [List.length_reverse, List.length_map, List.length_dropLast]
  have hbody : ∀ handle, Yields depth (handle :: stk)
      (FileExecuted sys live handle (t.stats + 1) (t.strings + (atom.paths.length - 1))
        (sys.stat t.stats atom.path) t.hung)
      (executeChildsLoop stubCallbacks R (atom.body.resolved (FileExpr.resolved (D := D) kstub))
        .reserved valUninitialized)
      fun ret env => ret = verdict (atom.step sys t).1 ∧
        FileExecuted sys live handle (t.stats + 1) (t.strings + (atom.paths.length - 1))
          (sys.stat t.stats atom.path) (atom.step sys t).2.hung env :=
    fun handle => yields_run yields_fileExpr atom.body t.hung
  rw [FileAtom.resolved, executeItem]
  refine .func rfl hroom (fun _ => fileConstructor_holding hmalloc)
    (fun handle => yields_argsResolved yields_filePath atom.paths []) rfl
    (fun handle env henv => ?_) hbody rfl fun _ _ => fileDestructor_state
  rw [hpaths] at henv
  rw [← hlen]
  exact fileExec_executed henv

end Execute

/-! ## The text of a rule -/

theorem FileExpr.item_wf (e : FileExpr) : e.item.WF := ⟨trivial, e.isComp, literalTree_wf _⟩

theorem FileAtom.item_wf (atom : FileAtom) : atom.item.WF :=
  ⟨trivial, ⟨argsTree_wf atom.paths, (count_argsTree atom.paths).trans_le atom.length_le⟩,
    atom.body.tree_wf FileExpr.item_wf⟩

theorem fileFunc_distinct :
    ((StubData.func (fileFunc (D := D))).members.map StubData.keyword).Nodup := by
  show [['p', 'a', 't', 'h'], ['e', 'x', 'i', 's', 't'], ['o', 'w', 'n', 'e', 'r'],
    ['p', 'e', 'r', 'm', 'i', 's', 's', 'i', 'o', 'n']].Nodup
  decide

theorem semaniticParseItem_fileAtom {tab : KeywordTable (Env FileWorld) ℕ D} {kstub : ℕ}
    {kwvec : Option (Slots ℕ)} (h : RootEntry tab (.func fileFunc) kstub)
    (hfind : semanticFindKeystub tab kwvec (fileFunc (D := D)).keyword = some (fileStub D kstub))
    (atom : FileAtom) :
    semaniticParseItem (fun _ => []) tab kwvec atom.item = some (atom.resolved kstub) := by
  have hmem : ∀ member : FileMember, StubData.expr (member.stub (D := D)) ∈
      (StubData.func fileFunc).members := by
    intro member
    cases member with
    | exist => exact .tail _ (.head _)
    | owner => exact .tail _ (.tail _ (.head _))
    | permission => exact .tail _ (.tail _ (.tail _ (.head _)))
  have hkey : ∀ member : FileMember, (member.stub (D := D)).keyword = member.keyword := by
    intro member
    cases member <;> rfl
  have hexpr : ∀ e : FileExpr, semaniticParseItem (fun _ => []) tab (fileStub D kstub).subvec
      e.item = some (e.resolved kstub) := by
    intro e
    rw [FileExpr.item, ← hkey]
    exact semaniticParseItem_exprTree h fileFunc_distinct (hmem e.member) e.op e.x
  exact semaniticParseItem_funcTree hfind
    (semaniticParseArgs_argsTree h fileFunc_distinct (fun _ => .head _) (fun _ => rfl) atom.paths)
    (semaniticParseChilds_tree hexpr atom.body)

/-! ## Verdicts -/

/-- What the rules so far have left behind. -/
def FileWorld.ledger (w : FileWorld) : FileLedger := ⟨w.stats, w.strings.length, w.hung⟩

/-- The result of a rule and what it leaves; `none` when it does not return. -/
def fileRule (E : Engine FileWorld ℕ D) (n : ℕ) (code : Word) (w : FileWorld) :
    Except ExecuteFault (Option (ℤ × FileWorld)) :=
  (ruleRun E n code w).map fun (ret, env) => if env.1.hung then none else some (ret, env.1)

section Verdict

variable {E : Engine FileWorld ℕ D} {code : Word} {formula : Formula FileAtom} {w : FileWorld}

theorem fileRule_run (h : E.Has (.func fileFunc)) (hcode : Spells FileAtom.item code formula)
    (hmalloc : ∀ n, w.sys.malloc n = true) (n : ℕ) :
    let out := formula.run (FileAtom.step w.sys) w.ledger
    ∃ w', fileRule E (n + 1) code w =
        .ok (if out.2.hung then none else some (verdict out.1, w')) ∧
      w'.ledger = out.2 ∧ w'.live = w.live := by
  intro out
  obtain ⟨kstub, hentry, hfind⟩ := h.find
  have hroom : ([] : List ℕ).length + execStackGap < defaultStacksSize := by decide
  have hstate : FileState w.sys w.live w.ledger (w, []) := ⟨rfl, rfl, rfl, rfl, rfl⟩
  obtain ⟨env, hrun, henv⟩ := ruleRun_formula hcode (fun _ => ⟨_, rfl⟩) h.tbl FileAtom.item_wf
    (fun _ => rfl) (semaniticParseItem_fileAtom hentry hfind)
    (yields_run (fun atom t => yields_fileAtom hmalloc atom hroom t) formula w.ledger) hstate n
  have hledger : env.1.ledger = out.2 := by
    rw [FileWorld.ledger, henv.stats, henv.strings, henv.hung]
  refine ⟨env.1, ?_, hledger, henv.live⟩
  rw [fileRule, hrun, ← hledger]
  rfl

/-- **A rule about files is the run of the proposition that it spells**: each function asks for its
own file when its turn comes, keeps every path but the last, and does not return when it has to
print the permission of a file that is not there. -/
theorem rule_file (h : E.Has (.func fileFunc)) (hcode : Spells FileAtom.item code formula)
    (hmalloc : ∀ n, w.sys.malloc n = true) (n : ℕ) :
    let out := formula.run (FileAtom.step w.sys) w.ledger
    if out.2.hung then fileRule E (n + 1) code w = .ok none
    else ∃ w', fileRule E (n + 1) code w = .ok (some (verdict out.1, w')) ∧
      w'.ledger = out.2 ∧ w'.live = w.live := by
  intro out
  obtain ⟨w', hrule, hledger, hlive⟩ := fileRule_run h hcode hmalloc n
  rw [hrule]
  by_cases hhung : out.2.hung = true
  · rw [if_pos hhung, if_pos hhung]
  · rw [if_neg hhung, if_neg hhung]
    exact ⟨w', rfl, hledger, hlive⟩

/-- The truth value of an atom, while no file changes. -/
def FileAtom.val (sys : StatSystem) (files : Word → StatResult) (atom : FileAtom) : Bool :=
  atom.body.eval (FileExpr.val sys (files atom.path))

/-- **While no file changes, a rule that returns has the truth value of the proposition that it
spells.** -/
theorem rule_file_still (h : E.Has (.func fileFunc)) (hcode : Spells FileAtom.item code formula)
    (hmalloc : ∀ n, w.sys.malloc n = true) {files : Word → StatResult}
    (hstill : ∀ stats path, w.sys.stat stats path = files path) (n : ℕ) {ret : ℤ} {w' : FileWorld}
    (hret : fileRule E (n + 1) code w = .ok (some (ret, w'))) :
    ret = verdict (formula.eval (FileAtom.val w.sys files)) := by
  have hstep : ∀ atom t, (FileAtom.step w.sys atom t).1 = FileAtom.val w.sys files atom := by
    intro atom t
    have hexpr : ∀ e hung, (FileExpr.step w.sys (files atom.path) e hung).1 =
        FileExpr.val w.sys (files atom.path) e := fun _ _ => rfl
    rw [FileAtom.step, hstill]
    exact atom.body.run_fst hexpr t.hung
  obtain ⟨w₁, hrule, -, -⟩ := fileRule_run h hcode hmalloc n
  rw [hret, formula.run_fst hstep] at hrule
  split_ifs at hrule
  · cases hrule
  · cases hrule
    rfl

end Verdict

/-- An engine with the component, and no macros. -/
def fileEngine : Engine FileWorld ℕ Unit where
  tab := registerModules [fileModule]
  tbl := .empty
  doubles := unitDoubles

theorem fileEngine_has : fileEngine.Has (.func fileFunc) := by
  refine ⟨⟨[.func fileFunc], ?_, by simp, .head _⟩, rfl⟩
  show (lrcModuleRegister fileModule lreKeywordInit).2 = _
  rw [lrcModuleRegister_eq]
  rfl

theorem isNumber_zero : IsNumber ['0'] := isDigit_iff.mp rfl

theorem isNumber_one : IsNumber ['1'] := isDigit_iff.mp rfl

theorem equal_isComp : Sym.equal.IsComp := rfl

/-- `file(path=a){exist==num}` -/
def existAtom (num : Word) (h : IsNumber num) : FileAtom where
  paths := [⟨.ident ['a'], fun hnum => absurd (hnum 'a' (.head _)) (by decide)⟩]
  body := .last (.atom ⟨.exist, .equal, .ident num, equal_isComp, fun _ => h⟩)
  length_le := by decide
  ne_nil := List.cons_ne_nil _ _

/-- `file(path=a){exist==1}&&file(path=a){exist==0}` -/
def goneRule : Formula FileAtom :=
  .join (.atom (existAtom ['1'] isNumber_one)) false
    (.last (.atom (existAtom ['0'] isNumber_zero)))

/-- Its text. -/
def goneText : Word :=
  ['f', 'i', 'l', 'e', '(', 'p', 'a', 't', 'h', '=', 'a', ')', '{', 'e', 'x', 'i', 's', 't', '=',
    '=', '1', '}', '&', '&', 'f', 'i', 'l', 'e', '(', 'p', 'a', 't', 'h', '=', 'a', ')', '{', 'e',
    'x', 'i', 's', 't', '=', '=', '0', '}']

theorem spells_gone : Spells FileAtom.item goneText goneRule := ⟨rfl, by decide⟩

/-- A component on a system where the files come and go. -/
def fileWorld (stat : ℕ → Word → StatResult) : FileWorld where
  sys := ⟨stat, fun _ => none, [nul], fun _ => true⟩
  stats := 0
  objects _ := ⟨none, 0, 0, 0, 0, .failed⟩
  live := []
  next := 0
  strings := []
  nextString := 0
  hung := false

/-- A component on a system where the file is there for the first function only. -/
def goneWorld : FileWorld :=
  fileWorld fun stats _ => if stats = 0 then .found 0 0 0o644 else .noEntry

/-- The file is there, and it is not there. -/
theorem rule_file_gone : ∃ w', fileRule fileEngine 1 goneText goneWorld = .ok (some (1, w')) ∧
    w'.ledger = ⟨2, 0, false⟩ ∧ w'.live = [] := by
  have hrun : goneRule.run (FileAtom.step goneWorld.sys) goneWorld.ledger =
      (true, ⟨2, 0, false⟩) := by decide
  have h := rule_file fileEngine_has spells_gone (w := goneWorld) (fun _ => rfl) 0
  dsimp only at h
  rw [hrun, if_neg Bool.false_ne_true] at h
  exact h

/-- Without a change the rule is false. -/
theorem rule_file_still_missing : ∃ w',
    fileRule fileEngine 1 goneText (fileWorld fun _ _ => .noEntry) = .ok (some (0, w')) := by
  have hrun : goneRule.run (FileAtom.step (fileWorld fun _ _ => .noEntry).sys)
      (fileWorld fun _ _ => .noEntry).ledger = (false, ⟨1, 0, false⟩) := by decide
  obtain ⟨w', hrule, -, -⟩ := fileRule_run fileEngine_has spells_gone
    (w := fileWorld fun _ _ => .noEntry) (fun _ => rfl) 0
  rw [hrun, if_neg Bool.false_ne_true] at hrule
  have hret := rule_file_still fileEngine_has spells_gone (fun _ => rfl) (fun _ _ => rfl) 0 hrule
  rw [hret] at hrule
  exact ⟨w', hrule⟩

end Lre
