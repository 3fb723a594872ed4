import Nezumi.Common.Text
import Nezumi.Login.Account

/-!
# The file of the accounts (`login/login.c`, text-file build)

* `AccountRecord` is `struct auth_dat`, with the variables of the account as a list.
* `accountToStr` is `account_to_str`: the line of an account.
* `readAccountLine` is what `init_db` does with a line, in any of its four layouts, and with
  `add_account`. `initDb` reads a file.
* A pointer into a line is what is left of the line.
-/

namespace Nezumi

open Decimal Scanf

/-- `struct auth_dat` -/
structure AccountRecord where
  accountId : Int32 := 0
  sex : Fin 8 := 0
  userid : CStr 24 := default
  pass : CStr 32 := default
  lastlogin : CStr 23 := default
  logincount : Int32 := 0
  state : Int16 := 0
  email : CStr 40 := default
  errorMessage : CStr 19 := default
  banUntilTime : Int64 := 0
  connectUntilTime : Int64 := 0
  lastIp : CStr 15 := default
  memo : Option (List UInt8) := none
  level : UInt8 := 0
  accountReg2 : List GlobalReg := []
deriving DecidableEq

/-! ## Writing -/

/-- A text, or `-` for an empty one. -/
def dashed (s : List UInt8) : List UInt8 := if s = [] then [45] else s

/-- The letter of a sex: of a server, a man or a woman. -/
def sexLetter (sex : Fin 8) : UInt8 := if sex = 2 then 83 else if sex ≠ 0 then 77 else 70

/-- The size of a memo is limited. -/
def memoMax : ℕ := 60000

def memoText : Option (List UInt8) → List UInt8
  | none => [45]
  | some memo => memo.take memoMax

/-- A variable, if it has a name. -/
def accountRegText (r : GlobalReg) : List UInt8 :=
  if r.str.bytes = [] then []
  else r.str.bytes ++ 44 :: (int2string (Int32.ofBitVec r.value) ++ [32])

/-- The fields of a line. The GM level is among them if it is saved with the accounts. -/
def accountFields (saveGmLevelWithAccounts : Bool) (a : AccountRecord) : List (List UInt8) :=
  [int2string a.accountId, a.userid.bytes, a.pass.bytes, dashed a.lastlogin.bytes,
    [sexLetter a.sex], int2string a.logincount, int2string a.state.toInt32, dashed a.email.bytes,
    dashed a.errorMessage.bytes, lint2string a.connectUntilTime, dashed a.lastIp.bytes,
    memoText a.memo, lint2string a.banUntilTime] ++
  if saveGmLevelWithAccounts then [int2string (Int32.ofNat a.level.toNat)] else []

/-- `account_to_str` -/
def accountToStr (saveGmLevelWithAccounts : Bool) (a : AccountRecord) : List UInt8 :=
  (accountFields saveGmLevelWithAccounts a).flatMap (· ++ [9]) ++
    a.accountReg2.flatMap accountRegText

/-! ## Reading -/

/-- The first seven values of a line. -/
def headLayout : List Directive :=
  [.int, .space, .upto 9, .space, .upto 9, .space, .upto 9, .space, .char, .space, .int, .space,
    .int, .space]

/-- The layouts with twelve, thirteen and fourteen values. -/
def layout12 : List Directive :=
  headLayout ++ [Directive.upto 9, .space, .upto 9, .space, .long, .space, .upto 9, .space, .upto 9,
    .space]

def layout13 : List Directive := layout12 ++ [Directive.long, .space]

def layout14 : List Directive := layout13 ++ [Directive.int, .space]

/-- The values of a line in the first layout that fits. -/
def accountValues (line : List UInt8) : Option Result :=
  if (sscanf layout14 line).1.length = 14 then some (sscanf layout14 line)
  else if (sscanf layout13 line).1.length = 13 then some (sscanf layout13 line)
  else if (sscanf layout12 line).1.length = 12 then some (sscanf layout12 line)
  else if 5 ≤ (sscanf headLayout line).1.length then some (sscanf headLayout line)
  else none

/-- A text in a field, without control characters. -/
def fieldOf (n : ℕ) (s : List UInt8) : CStr n := CStr.ofField n (removeControlChars s)

/-- The sex of a letter. -/
def letterSex (c : UInt8) : Fin 8 :=
  if c = 83 ∨ c = 115 then 2 else if c = 77 ∨ c = 109 then 1 else 0

/-- The login count and the state, if they have been read. -/
def readCounts (a : AccountRecord) : List Value → AccountRecord
  | .int logincount :: vs =>
    let a := if 0 ≤ logincount then { a with logincount := logincount } else a
    match vs with
    | .int state :: _ => { a with state := if 255 < state then 100 else state.toInt16 }
    | _ => a
  | _ => a

/-- The ban and the level, if they have been read. -/
def readLimits (a : AccountRecord) : List Value → AccountRecord
  | .long banUntilTime :: vs =>
    let a := { a with banUntilTime := banUntilTime }
    match vs with
    | .int level :: _ => { a with level := if 99 < level then 99 else level.toUInt32.toUInt8 }
    | _ => a
  | _ => a

/-- What stands behind the state, and the memo. -/
def readRest (a : AccountRecord) (state : Int32) : List Value → AccountRecord × List UInt8
  | .text email :: .text errorMessage :: .long connectUntilTime :: .text lastIp :: .text memo ::
      vs =>
    let errorMessage := removeControlChars errorMessage
    (readLimits
      { a with
        email := if email.length ≤ 40 ∧ eMailCheck (CStr.ofField 40 email) then fieldOf 40 email
          else cstr 40 "a@a.com"
        errorMessage := if errorMessage = [] ∨ state ≠ 7 then cstr 19 "-"
          else CStr.ofField 19 errorMessage
        connectUntilTime := connectUntilTime
        lastIp := fieldOf 15 lastIp } vs,
      removeControlChars memo)
  | _ => ({ a with email := cstr 40 "a@a.com", errorMessage := cstr 19 "-", lastIp := cstr 15 "-" },
      [])

/-- `tmp_account` without its variables, and the memo. -/
def tmpAccount : List Value → Option (AccountRecord × List UInt8)
  | .int accountId :: .text userid :: .text pass :: .text lastlogin :: .char sex :: vs =>
    let a : AccountRecord :=
      { accountId := accountId
        userid := fieldOf 24 (userid.take 24)
        pass := fieldOf 32 pass
        lastlogin := fieldOf 23 lastlogin
        sex := letterSex sex }
    match vs with
    | .int logincount :: .int state :: vs' =>
      some (readRest (readCounts a (.int logincount :: .int state :: vs')) state vs')
    | vs => some (readRest (readCounts a vs) 0 [])
  | _ => none

def accountReg2Num : ℕ := 700

/-- The variables of a line, of which `left` more may come, and the last `%n`. -/
def readAccountRegs : ℕ → ℕ → List UInt8 → ℕ → List GlobalReg × ℕ
  | 0, _, _, n => ([], n)
  | _, 0, _, n => ([], n)
  | f + 1, left + 1, p, n =>
    let p := p.drop n
    match sscanf [.outside [9, 44], .lit 44, .int, .space] p with
    | ([.text str, .int v], some r) =>
      let rest := readAccountRegs f left p (p.length - r.length)
      (⟨fieldOf 32 str, v.toBitVec⟩ :: rest.1, rest.2)
    | _ =>
      if p.head? = some 44 then
        match sscanf [.lit 44, .int, .space] p with
        | ([.int _], some r) => readAccountRegs f (left + 1) p (p.length - r.length)
        | _ => ([], n)
      else ([], n)

/-- The table, `account_id_count` and the last `%n`. -/
structure AccountTable where
  authDat : List AccountRecord := []
  accountIdCount : Int := startAccountNum
  n : ℕ := 0

/-- The memo that `add_account` keeps. -/
def keptMemo (memo : List UInt8) : Option (List UInt8) :=
  if 2 < memo.length ∨ (memo.length = 1 ∧ memo.head? ≠ some 45) then some (memo.take memoMax)
  else none

/-- `add_account` -/
def addAccountRecord (t : AccountTable) (account : AccountRecord) (memo : List UInt8) :
    AccountTable :=
  { t with
    authDat := t.authDat ++ [{ account with memo := keptMemo memo }]
    accountIdCount := if t.accountIdCount ≤ account.accountId.toInt then
      account.accountId.toInt + 1 else t.accountIdCount }

/-- The id of a line may be taken: it is in range, and neither it nor the name is in the table. -/
def mayAdd (t : AccountTable) (account : AccountRecord) : Prop :=
  account.accountId.toInt ≤ endAccountNum ∧ 0 ≤ account.accountId.toInt ∧
    ∀ a ∈ t.authDat, a.accountId ≠ account.accountId ∧ a.userid ≠ account.userid

instance (t : AccountTable) (account : AccountRecord) : Decidable (mayAdd t account) :=
  inferInstanceAs (Decidable (_ ∧ _ ∧ _))

/-- What `init_db` does with a line. -/
def readAccountLine (t : AccountTable) (line : List UInt8) : AccountTable :=
  if line.take 2 = [47, 47] ∨ line = [] ∨ line.head? = some 10 ∨ line.head? = some 13 then t
  else
    let line := trimEnd line
    match accountValues line with
    | some (vs, rest) =>
      let t := { t with n := rest.elim t.n fun r => line.length - r.length }
      match tmpAccount vs with
      | none => t
      | some (account, memo) =>
        if mayAdd t account then
          let regs := readAccountRegs (line.length + accountReg2Num) accountReg2Num line t.n
          addAccountRecord { t with n := regs.2 } { account with accountReg2 := regs.1 } memo
        else t
    | none =>
      match sscanf newidFormat line with
      | ([.int accountId], some _) =>
        { t with accountIdCount := max t.accountIdCount accountId.toInt }
      | _ => t

/-- What `fgets` reads into a buffer: up to a line's end, and less than its size. -/
def fgets (size : ℕ) (file : List UInt8) : List UInt8 :=
  let text := (file.take (size - 1)).takeWhile (· ≠ 10)
  if text.length < (file.take (size - 1)).length then text ++ [10] else text

/-- The lines that a loop of `fgets` reads, at most some. -/
def fgetsLoop (size : ℕ) : ℕ → List UInt8 → List (List UInt8)
  | 0, _ => []
  | n + 1, file =>
    if file = [] then []
    else fgets size file :: fgetsLoop size n (file.drop (fgets size file).length)

def lineSize : ℕ := 65535

/-- `init_db`: the file is read into a table. -/
def initDb (t : AccountTable) (file : List UInt8) : AccountTable :=
  (fgetsLoop lineSize file.length file).foldl readAccountLine t

end Nezumi
