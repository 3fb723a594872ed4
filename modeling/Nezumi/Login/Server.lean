import Nezumi.Lib.KeyRing
import Nezumi.Login.Account

/-!
# Clients and char-servers at the login server (`login/login.c`, text-file build)

* `parseLogin` is the connection request of a client (`0x64`, `0x1dd`, `0x27c`) in `parse_login`.
* `authRequest`, `changeStatus`, `banRequest` and `changeSex` are `0x2712`, `0x2724`, `0x2725` and
  `0x2727` in `parse_fromchar`.
* `authFifo` is the ring `auth_fifo` of logins that a char-server may still ask for.
* Packets to char-servers are lists of bytes. The variables of an account are written into a buffer
  at a running offset, by a loop each for `0x64` (`loginReg2`) and `0x2712` (`requestReg2`).
-/

namespace Nezumi

open Bytes

/-- An entry of `auth_fifo`. `delflag` is set when the entry is not valid. -/
structure AuthFifo where
  accountId : Int := 0
  loginId1 : UInt32 := 0
  loginId2 : UInt32 := 0
  ip : UInt32 := 0
  sex : Nat := 0
  delflag : Bool := true
  deriving DecidableEq

/-- The login server. `authFifo` is the ring `auth_fifo` with `auth_fifo_pos`; `serverFd k` says
that char-server `k` is connected, `online` are the accounts of `online_db`. -/
structure LoginState extends Accounts where
  authFifo : KeyRing authFifoSize AuthFifo := ⟨fun _ => {}, 0⟩
  serverFd : Fin maxServers → Bool := fun _ => false
  online : List Int := []

/-! ## Packets -/

/-- A 16-bit field. -/
def word (v : Nat) : List UInt8 := leBytes 2 v

/-- A 32-bit field. -/
def long (v : Int) : List UInt8 := leBytes 4 (BitVec.ofInt 32 v).toNat

/-- The 32-bit field at an offset of a packet. -/
def longAt (packet : List UInt8) (off : Nat) : BitVec 32 :=
  BitVec.ofNat 32 (leVal ((packet.drop off).take 4))

/-- One variable in a buffer: 32 bytes of name, 4 of value. -/
def writeReg (buf : Buf) (off : Nat) (reg : GlobalReg) : Buf :=
  write (write buf off reg.str.pad) (off + 32) (leBytes 4 reg.value.toNat)

/-- The head of a `0x2729` packet, and the packet: the first `size` bytes of the buffer. -/
def reg2Packet (buf : Buf) (size : Nat) (accountId : Int) : List UInt8 :=
  read (write (write (write buf 0 (word 0x2729)) 2 (word size)) 4 (long accountId)) 0 size

/-- The loop of `0x64` over the variables of account `a`: the buffer and the offset behind it. -/
def loginReg2 (a : AuthDat) (buf : Buf) : Buf × Nat :=
  (List.range a.accountReg2Num.toNat).foldl
    (fun p j => (writeReg p.1 p.2 (a.accountReg2 j), p.2 + 36)) (buf, 8)

/-- The account at an index. Behind the table, it is whatever the memory holds. -/
def authDatAt (mem : Nat → AuthDat) (authDat : List AuthDat) (k : Nat) : AuthDat :=
  authDat[k]?.getD (mem k)

/-- The loop of `0x2712`: the buffer and the account's index behind it. The loop advances the index
of the account, not the offset. -/
def requestReg2 (mem : Nat → AuthDat) (authDat : List AuthDat) (size : Nat) (buf : Buf)
    (k j : Nat) : Buf × Nat :=
  if j < (authDatAt mem authDat k).accountReg2Num.toNat then
    requestReg2 mem authDat size (writeReg buf size ((authDatAt mem authDat k).accountReg2 j))
      (k + 36) (j + 1)
  else (buf, k)
termination_by 65536 - j
decreasing_by
  have := (authDatAt mem authDat k).accountReg2Num.toNat_lt
  omega

/-- A `0x2713` packet that accepts a request. -/
def authOkPacket (accountId : Int) (a : AuthDat) : List UInt8 :=
  word 0x2713 ++ long accountId ++ [0] ++ a.email.pad ++ long a.connectUntilTime

/-- A `0x2713` packet that refuses a request. -/
def authRefusedPacket (accountId : Int) : List UInt8 :=
  word 0x2713 ++ long accountId ++ [1] ++ List.replicate 44 0

/-- A `0x2719` packet: a login, for the char-servers. -/
def authInfoPacket (account : MmoAccount) (ip : UInt32) : List UInt8 :=
  word 0x2719 ++ long account.accountId ++ leBytes 4 account.loginId1.toNat ++
    leBytes 4 account.loginId2.toNat ++ leBytes 4 ip.toNat ++ [UInt8.ofNat account.sex]

/-- A `0x2731` packet: a new status (`type` 0) or a ban (`type` 1). -/
def statusPacket (accountId : Int) (type : UInt8) (value : Int) : List UInt8 :=
  word 0x2731 ++ long accountId ++ [type] ++ long value

/-- A `0x2723` packet. A sex `-1` says that the change failed. -/
def sexPacket (accountId : Int) (sex : Int) (gm : Int) : List UInt8 :=
  word 0x2723 ++ long accountId ++ [UInt8.ofNat (BitVec.ofInt 8 sex).toNat] ++ long gm

/-- What the server says to a client. -/
inductive LoginAnswer where
  /-- `0x69`: the login is done. -/
  | charServers (loginId1 : UInt32) (accountId : Int) (loginId2 : UInt32) (lastlogin : CStr 23)
      (sex : Nat)
  /-- `0x81`. -/
  | closed (code : Nat)
  /-- `0x6a`. For the result 6 there is a date or a message. -/
  | refused (result : Int) (reason : Option (Int ⊕ CStr 19))

/-- A packet of the login server: to the client, to the char-server that has asked, or to all. -/
inductive LoginOut where
  | client (a : LoginAnswer)
  | char (packet : List UInt8)
  | sendall (packet : List UInt8)

/-! ## Clients -/

inductive LoginCmd where
  | x64
  | x01dd
  | x027c
  deriving DecidableEq

/-- A connection request: the bytes of the name and of the password as they stand in the packet. -/
structure ClientLogin where
  cmd : LoginCmd := .x64
  version : Int := 0
  userid : List UInt8
  passwd : List UInt8
  call : LoginCall

/-- The `struct mmo_account` of a request. -/
def ClientLogin.account (p : ClientLogin) : MmoAccount where
  userid := CStr.ofField 24 (removeControlChars (CStr.ofField 24 p.userid).bytes)
  passwd := removeControlChars <|
    match p.cmd with
    | .x64 => (CStr.ofField 24 p.passwd).bytes
    | .x01dd => p.passwd.take 16
    | .x027c => p.passwd.take 24
  passwdenc := if p.cmd = .x64 then 0 else 3
  version := p.version

/-- A login is stored in the ring: in the entry of its account, else in the next one. -/
def storeAuth (s : LoginState) (account : MmoAccount) (ip : UInt32) : LoginState :=
  { s with
    authFifo := s.authFifo.put AuthFifo.accountId
      { accountId := account.accountId
        loginId1 := account.loginId1
        loginId2 := account.loginId2
        ip := ip
        sex := account.sex
        delflag := false } }

/-- The connection request of a client, in `parse_login`. -/
def parseLogin (libc : Libc) (conf : LoginConf) (buf : Buf) (s : LoginState) (p : ClientLogin) :
    LoginState × List LoginOut :=
  let (result, account, db) := mmoAuth libc conf s.toAccounts p.account p.call
  let s := { s with toAccounts := db }
  let i := searchAccountIndex conf s.authDat account.userid
  let a := i.elim default fun i => s.authDat.getD i default
  if result = -1 then
    let out :=
      LoginOut.sendall (word 0x2733 ++ long account.accountId ++ [UInt8.ofNat a.level]) ::
        if account.sex ≠ 2 then [.sendall (word 0x2732 ++ long account.accountId)] else []
    if conf.minLevelToConnect > a.level then (s, out ++ [LoginOut.client (.closed 1)])
    else if s.online.contains account.accountId then (s, out ++ [LoginOut.client (.closed 8)])
    else if (List.finRange maxServers).any s.serverFd then
      let reg2 := loginReg2 a buf
      (storeAuth s account p.call.ip, out ++
        [LoginOut.client (.charServers account.loginId1 account.accountId account.loginId2
            account.lastlogin account.sex),
          .sendall (reg2Packet reg2.1 reg2.2 account.accountId),
          .sendall (authInfoPacket account p.call.ip)])
    else (s, out ++ [LoginOut.client (.closed 1)])
  else
    let reason :=
      if result = 6 ∧ i.isSome then
        some (if a.banUntilTime ≠ 0 then .inl a.banUntilTime else .inr a.errorMessage)
      else none
    (s, [.client (.refused result reason)])

/-! ## Char-servers -/

/-- `lan_ip_check`. -/
def lanIpCheck (conf : LoginConf) (ip : UInt32) : Bool :=
  conf.subnet &&& conf.subnetmask = ip &&& conf.subnetmask

/-- The test of `0x2712` on an entry of the ring. -/
def AuthFifo.answers (conf : LoginConf) (r : AuthRequest) (e : AuthFifo) : Bool :=
  e.accountId = r.accountId && e.loginId1 = r.loginId1 &&
    (!conf.checkAuthfifoLogin2 || e.loginId2 = r.loginId2) && e.sex = r.sex &&
    (!conf.checkIpFlag || e.ip = r.ip || lanIpCheck conf e.ip || lanIpCheck conf r.ip) &&
    !e.delflag

/-- The entry and the account that accept a request. Without an account no entry does. -/
def authAccepted (conf : LoginConf) (s : LoginState) (r : AuthRequest) :
    Option (Fin authFifoSize × Nat) :=
  match searchAccountIndex2 s.authDat r.accountId with
  | none => none
  | some k => (Slots.first (AuthFifo.answers conf r) s.authFifo.entry).map fun i => (i, k)

/-- `0x2712`: a char-server asks for a login. -/
def authRequest (conf : LoginConf) (mem : Nat → AuthDat) (buf : Buf) (s : LoginState)
    (r : AuthRequest) : LoginState × List LoginOut :=
  match authAccepted conf s r with
  | some (i, k) =>
    let reg2 := requestReg2 mem s.authDat 8 buf k 0
    ({ s with authFifo := s.authFifo.modify i fun e => { e with delflag := true } },
      [.char (reg2Packet reg2.1 8 r.accountId),
        .char (authOkPacket r.accountId (authDatAt mem s.authDat reg2.2))])
  | none => (s, [.char (authRefusedPacket r.accountId)])

/-- The logins of an account get another `login_id1`. -/
def AuthFifo.alter (accountId : Int) (e : AuthFifo) : AuthFifo :=
  if e.accountId = accountId then { e with loginId1 := e.loginId1 + 1 } else e

/-- `0x2724`: another status. The status is stored in a `short`. -/
def changeStatus (s : LoginState) (accountId statut : Int) : LoginState × List LoginOut :=
  match searchAccountIndex2 s.authDat accountId with
  | none => (s, [])
  | some i =>
    let a := s.authDat.getD i default
    if a.sex = 2 then (s, [])
    else if a.state ≠ statut then
      ({ s with
          authDat := s.authDat.set i { a with state := (BitVec.ofInt 16 statut).toInt }
          authFifo :=
            if statut ≠ 0 then s.authFifo.map (AuthFifo.alter accountId) else s.authFifo },
        if statut ≠ 0 then [.sendall (statusPacket accountId 0 statut)] else [])
    else (s, [])

/-- The new end of a ban, if the date is valid. -/
def banTimestamp (libc : Libc) (now : Int) (a : AuthDat) (delta : BanDelta) : Option Int :=
  let start := if a.banUntilTime = 0 ∨ a.banUntilTime < now then now else a.banUntilTime
  let timestamp := libc.mktimeAdd start delta
  if timestamp = -1 then none else some (if timestamp ≤ now then 0 else timestamp)

/-- `0x2725`: a ban. -/
def banRequest (libc : Libc) (now : Int) (s : LoginState) (accountId : Int) (delta : BanDelta) :
    LoginState × List LoginOut :=
  match searchAccountIndex2 s.authDat accountId with
  | none => (s, [])
  | some i =>
    let a := s.authDat.getD i default
    if a.sex = 2 then (s, [])
    else
      match banTimestamp libc now a delta with
      | none => (s, [])
      | some timestamp =>
        if a.banUntilTime ≠ timestamp then
          ({ s with
              authDat := s.authDat.set i { a with banUntilTime := timestamp }
              authFifo :=
                if timestamp ≠ 0 then s.authFifo.map (AuthFifo.alter accountId)
                else s.authFifo },
            if timestamp ≠ 0 then [.sendall (statusPacket a.accountId 1 timestamp)] else [])
        else (s, [])

/-- `0x2727`: the sex is reversed. -/
def changeSex (s : LoginState) (accountId gm : Int) : LoginState × List LoginOut :=
  match searchAccountIndex2 s.authDat accountId with
  | none => (s, [.sendall (sexPacket accountId (-1) gm)])
  | some i =>
    let a := s.authDat.getD i default
    if a.sex = 2 then (s, [.sendall (sexPacket accountId (-1) gm)])
    else
      let sex := if a.sex = 0 then 1 else 0
      ({ s with
          authDat := s.authDat.set i { a with sex := sex }
          authFifo := s.authFifo.map (AuthFifo.alter accountId) },
        [.sendall (sexPacket accountId sex gm)])

end Nezumi
