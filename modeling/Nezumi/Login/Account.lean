import Nezumi.Common.Mmo

/-!
# The accounts of the login server (`login/login.c`, `login/ladmin.c`, text-file build)

* `AuthDat` is `struct auth_dat`; the table `auth_dat` is a list, so `auth_num` is its length.
* `searchAccountIndex`/`searchAccountIndex2` search it by name and by id, `addAccount` and
  `deleteAccount` write it.
* `mmoAuth` is `mmo_auth`: what a client's login does to the table, and its result.
* `Libc` is what the server takes from outside: MD5 and the calendar of the C library.
-/

namespace Nezumi

def startAccountNum : Int := 2000001
def endAccountNum : Int := 100000000

/-- `struct auth_dat`. `state` is `0` for an account that may log in; `banUntilTime` and
`connectUntilTime` are `0` without a limit. -/
structure AuthDat where
  accountId : Int := 0
  sex : Nat := 0
  userid : CStr 24 := default
  pass : CStr 32 := default
  lastlogin : CStr 23 := default
  logincount : Int := 0
  state : Int := 0
  email : CStr 40 := default
  errorMessage : CStr 19 := default
  banUntilTime : Int := 0
  connectUntilTime : Int := 0
  level : Nat := 0
  accountReg2Num : UInt16 := 0
  accountReg2 : Nat → GlobalReg := fun _ => {}
  deriving Inhabited

/-- `struct mmo_account`: a login request, and the ids of a login that is accepted. -/
structure MmoAccount where
  userid : CStr 24
  passwd : List UInt8
  passwdenc : Nat
  version : Int := 0
  sex : Nat := 0
  accountId : Int := 0
  loginId1 : UInt32 := 0
  loginId2 : UInt32 := 0
  lastlogin : CStr 23 := default

/-- The table and the counter of account ids. -/
structure Accounts where
  authDat : List AuthDat := []
  accountIdCount : Int := startAccountNum

/-- The configuration, with the values of `init_conf_variables`. -/
structure LoginConf where
  strictAccountNameCompare : Bool := true
  useMd5Passwds : Bool := false
  newAccountFlag : Bool := true
  uniqueCaseAccountNameCreation : Bool := true
  levelNewAccount : Nat := 0
  startLimitedTime : Int := -1
  minLevelToConnect : Nat := 0
  clientVersionToConnect : Int := 0
  subnet : UInt32 := 0x0100007f
  subnetmask : UInt32 := 0xffffffff
  checkIpFlag : Bool := true
  checkAuthfifoLogin2 : Bool := true

/-- A ban request: what is added to the year, month, day, hour, minute and second. -/
structure BanDelta where
  year : Int := 0
  mon : Int := 0
  mday : Int := 0
  hour : Int := 0
  min : Int := 0
  sec : Int := 0

/-- What is outside the login server: `MD5_String2binary` and `MD5_String`, and `mktime` of
`localtime`, as it is and with some fields moved. A result `-1` is a date that `mktime` refuses. -/
structure Libc where
  md5String2binary : List UInt8 → List UInt8
  md5String : List UInt8 → CStr 32
  mktimeLocal : Int → Int
  mktimeAdd : Int → BanDelta → Int

/-- What one call of `mmo_auth` sees besides the request: the clock as a number and as a text, two
results of `rand`, the address of the client and its `md5key`, if it has asked for one. -/
structure LoginCall where
  now : Int
  tmpstr : CStr 23 := default
  rand1 : UInt32
  rand2 : UInt32
  ip : UInt32
  md5key : Option (CStr 19) := none

/-! ## Names and passwords -/

/-- `memcmp(a, b, n) == 0`, of buffers that end in zeros. -/
def memcmp (n : Nat) (a b : List UInt8) : Bool :=
  (List.range n).all fun i => a.getD i 0 == b.getD i 0

/-- The C string at the start of a buffer. -/
def strOf (buf : List UInt8) : List UInt8 := buf.takeWhile (· ≠ 0)

/-- `password_check`. -/
def passwordCheck (libc : Libc) (passwordDb : CStr 32) (pass key : List UInt8) : Bool :=
  passwordDb.bytes == strOf pass ||
    memcmp 16 (libc.md5String2binary (strOf pass)) passwordDb.bytes ||
    memcmp 32 (libc.md5String (strOf pass)).bytes passwordDb.bytes ||
    (!key.isEmpty &&
      (memcmp 16 pass (libc.md5String2binary (passwordDb.bytes ++ key)) ||
        memcmp 16 pass (libc.md5String2binary (key ++ passwordDb.bytes))))

/-- The loop of `search_account_index` without strict comparison, from entry `i` on: `quantity`
accounts so far are equal ignoring case, the last of them is `idx`. -/
def searchLoop (name : CStr 24) : List AuthDat → Nat → Nat → Option Nat → Option Nat
  | [], _, quantity, idx => if quantity = 1 then idx else none
  | a :: as, i, quantity, idx =>
    if strcasecmp a.userid name then
      if a.userid = name then some i else searchLoop name as (i + 1) (quantity + 1) (some i)
    else searchLoop name as (i + 1) quantity idx

/-- `search_account_index`. -/
def searchAccountIndex (conf : LoginConf) (authDat : List AuthDat) (name : CStr 24) : Option Nat :=
  if conf.strictAccountNameCompare then authDat.findIdx? fun a => a.userid = name
  else searchLoop name authDat 0 0 none

/-- `search_account_index2`. -/
def searchAccountIndex2 (authDat : List AuthDat) (accountId : Int) : Option Nat :=
  authDat.findIdx? fun a => a.accountId = accountId

/-- `check_existing_account_name_for_creation`. -/
def checkExistingAccountNameForCreation (conf : LoginConf) (authDat : List AuthDat)
    (name : CStr 24) : Bool :=
  if conf.uniqueCaseAccountNameCreation then authDat.any fun a => strcasecmp a.userid name
  else authDat.any fun a => a.userid = name

/-! ## Creation and deletion -/

/-- The loop of `init_new_account` over ids of GM accounts. Each round passes one account of the
table, so its length is fuel enough. -/
def skipGmIds (authDat : List AuthDat) : Nat → Int → Int
  | 0, count => count
  | fuel + 1, count =>
    if authDat.any fun a => a.accountId = count ∧ a.level > 0 then
      skipGmIds authDat fuel (count + 1)
    else count

/-- The time limit of a new account. -/
def newConnectUntilTime (libc : Libc) (conf : LoginConf) (now : Int) : Int :=
  if conf.startLimitedTime < 0 then 0
  else
    let timestamp := now + conf.startLimitedTime
    let temp := libc.mktimeLocal timestamp
    if temp ≠ -1 ∧ temp + 3600 ≥ timestamp then temp else 0

/-- `init_new_account`: the account and the counter behind it. -/
def initNewAccount (libc : Libc) (conf : LoginConf) (now : Int) (db : Accounts) : AuthDat × Int :=
  let id := skipGmIds db.authDat db.authDat.length db.accountIdCount
  ({ accountId := id
     email := cstr 40 "a@a.com"
     lastlogin := cstr 23 "-"
     errorMessage := cstr 19 "-"
     connectUntilTime := newConnectUntilTime libc conf now
     level := conf.levelNewAccount }, id + 1)

/-- `add_account`. The new account is the last one of the table. -/
def addAccount (db : Accounts) (account : AuthDat) : Accounts where
  authDat := db.authDat ++ [account]
  accountIdCount :=
    if account.accountId ≥ db.accountIdCount then account.accountId + 1 else db.accountIdCount

/-- What `delete_account` leaves of an account: the pointer to the variables is freed. -/
def AuthDat.deleted (a : AuthDat) : AuthDat :=
  { a with userid := CStr.empty, accountId := -1, accountReg2 := fun _ => {} }

/-- `delete_account`. -/
def deleteAccount (conf : LoginConf) (db : Accounts) (name : CStr 24) : Accounts :=
  match searchAccountIndex conf db.authDat name with
  | none => db
  | some i => { db with authDat := db.authDat.modify i AuthDat.deleted }

/-- The stored form of a password. -/
def storedPass (libc : Libc) (conf : LoginConf) (passwd : List UInt8) : CStr 32 :=
  if conf.useMd5Passwds then libc.md5String (strOf passwd) else CStr.ofField 32 passwd

/-- The account of a creation: `init_new_account`, then the given values, then `add_account`. -/
def createAccount (libc : Libc) (conf : LoginConf) (now : Int) (db : Accounts) (userid : CStr 24)
    (passwd : List UInt8) (sex : Nat) (email : Option (CStr 40)) : Accounts :=
  let (account, count) := initNewAccount libc conf now db
  addAccount { db with accountIdCount := count }
    { account with
      userid := userid
      pass := storedPass libc conf passwd
      sex := sex
      email := email.getD account.email }

/-! ## `mmo_auth` -/

/-- The test for an account creation with `_M` or `_F`. -/
def asksCreation (conf : LoginConf) (db : Accounts) (account : MmoAccount) : Bool :=
  let name := account.userid.bytes
  account.passwdenc = 0 && 4 + 2 ≤ name.length && name.length ≤ 22 + 2 &&
    name.getD (name.length - 2) 0 = 95 &&
    (name.getD (name.length - 1) 0 = 70 || name.getD (name.length - 1) 0 = 77) &&
    conf.newAccountFlag && db.accountIdCount ≤ endAccountNum &&
    4 ≤ (strOf account.passwd).length && (strOf account.passwd).length ≤ 24

/-- The name without its last two characters. -/
def cutSuffix (name : CStr 24) : CStr 24 where
  bytes := name.bytes.take (name.bytes.length - 2)
  le := le_trans (List.length_take_le _ _) (le_trans (Nat.sub_le _ _) name.le)
  ne c hc := name.ne c (List.mem_of_mem_take hc)

/-- The sex of a new account. -/
def sexOf (c : UInt8) : Nat :=
  if c = 83 ∨ c = 115 then 2 else if c = 77 ∨ c = 109 then 1 else 0

/-- The client's version is refused. -/
def versionRefused (conf : LoginConf) (account : MmoAccount) (found : Option AuthDat) : Bool :=
  conf.clientVersionToConnect ≠ 0 && account.version ≠ conf.clientVersionToConnect &&
    found.all fun a => a.sex ≠ 2

/-- The key of a password check: none for a password in plain text. -/
def passwordKey (account : MmoAccount) (call : LoginCall) : List UInt8 :=
  if account.passwdenc > 0 then call.md5key.elim [] CStr.bytes else []

/-- The checks of an account that exists: the result, and the account (an old ban is reset). -/
def checkAccount (libc : Libc) (a : AuthDat) (account : MmoAccount) (call : LoginCall) :
    Int × AuthDat :=
  if account.passwdenc > 0 ∧ call.md5key = none then (1, a)
  else if !passwordCheck libc a.pass account.passwd (passwordKey account call) then (1, a)
  else if a.state ≠ 0 then
    (if 1 ≤ a.state ∧ a.state ≤ 9 ∨ a.state = 100 then a.state - 1 else 99, a)
  else if a.banUntilTime ≠ 0 ∧ a.banUntilTime > call.now then (6, a)
  else
    let a := { a with banUntilTime := 0 }
    if a.connectUntilTime ≠ 0 ∧ a.connectUntilTime < call.now then (2, a) else (-1, a)

/-- The end of `mmo_auth` for the account at index `i`: the ids of this login. -/
def acceptLogin (db : Accounts) (account : MmoAccount) (call : LoginCall) (i : Nat) :
    Int × MmoAccount × Accounts :=
  let a := db.authDat.getD i default
  (-1, { account with
      accountId := a.accountId
      loginId1 := call.rand1
      loginId2 := call.rand2
      lastlogin := a.lastlogin
      sex := a.sex },
    { db with
      authDat := db.authDat.modify i fun a =>
        { a with lastlogin := call.tmpstr, logincount := a.logincount + 1 } })

/-- `mmo_auth`: the result (`-1` for an authorized account), the request with the ids of the login
and the table. -/
def mmoAuth (libc : Libc) (conf : LoginConf) (db : Accounts) (account : MmoAccount)
    (call : LoginCall) : Int × MmoAccount × Accounts :=
  let newaccount := asksCreation conf db account
  let sex := sexOf (account.userid.bytes.getD (account.userid.bytes.length - 1) 0)
  let account :=
    if newaccount then { account with userid := cutSuffix account.userid } else account
  let found := searchAccountIndex conf db.authDat account.userid
  if versionRefused conf account (found.map fun i => db.authDat.getD i default) then
    (5, account, db)
  else if newaccount then
    if found.any fun i => (db.authDat.getD i default).userid = account.userid then (0, account, db)
    else if conf.uniqueCaseAccountNameCreation && (found.isSome ||
        checkExistingAccountNameForCreation conf db.authDat account.userid) then (0, account, db)
    else if db.accountIdCount > endAccountNum then (0, account, db)
    else
      acceptLogin (createAccount libc conf call.now db account.userid account.passwd sex none)
        account call db.authDat.length
  else
    match found with
    | none => (0, account, db)
    | some i =>
      let account := { account with userid := (db.authDat.getD i default).userid }
      let (result, a) := checkAccount libc (db.authDat.getD i default) account call
      let db := { db with authDat := db.authDat.set i a }
      if result = -1 then acceptLogin db account call i else (result, account, db)

/-! ## Administration -/

/-- `ladmin_account_creation`, of a request with its control characters removed. -/
def ladminAccountCreation (libc : Libc) (conf : LoginConf) (now : Int) (db : Accounts)
    (userid pass : CStr 24) (sex : UInt8) (email : CStr 40) : Accounts :=
  if userid.bytes.length < 4 then db
  else if pass.bytes.length < 4 then db
  else if sex ≠ 70 ∧ sex ≠ 77 then db
  else if db.accountIdCount > endAccountNum then db
  else
    let found := searchAccountIndex conf db.authDat userid
    if found.any fun i => (db.authDat.getD i default).userid = userid then db
    else if conf.uniqueCaseAccountNameCreation && (found.isSome ||
        checkExistingAccountNameForCreation conf db.authDat userid) then db
    else createAccount libc conf now db userid pass.bytes (sexOf sex) (some email)

/-- `ladmin_account_deletion`. -/
def ladminAccountDeletion (conf : LoginConf) (db : Accounts) (name : CStr 24) : Accounts :=
  match searchAccountIndex conf db.authDat name with
  | none => db
  | some _ => deleteAccount conf db name

end Nezumi
