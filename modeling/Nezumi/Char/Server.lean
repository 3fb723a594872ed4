import Nezumi.Char.Char

/-!
# The packets of the char-server (`char/char.c`, text-file build)

* `connectRequest`, `charSelect`, `charCreate` and `charDelete` are `0x65` to `0x68` in `parse_char`.
* `loginAnswer`, `emailAnswer`, `loginInfo`, `accountDeleted` and `disconnectPlayer` are `0x2713`,
  `0x2717`, `0x2719`, `0x2730` and `0x2731` in `parse_tologin`.
* `mapBack`, `mapChange` and `mapAuth` are `0x2b02`, `0x2b05` and `0x2afc` in `parse_frommap`.
-/

namespace Nezumi

/-- A character with its friends and its variables. -/
structure Character where
  status : CharStatus
  friends : List Friend
  regs : List GlobalReg

/-- The packets that answer `0x2afc`: the record, the friends and the variables of a character. -/
structure CharAnswer where
  accountId : Int
  loginId2 : UInt32
  character : Character
  connectUntilTime : Int

/-- What the char-server says: to the client of a connection, to the login-server (for a connection),
to a map-server. -/
inductive CharOut where
  /-- `0x6c`, `0x6e`, `0x70` or `0x81` with a code. -/
  | error (fd : Fin fdSetsize) (cmd code : Nat)
  /-- `0x6b`: the characters of the account. -/
  | charList (fd : Fin fdSetsize) (ids : List Int)
  /-- `0x6d`. -/
  | charNew (fd : Fin fdSetsize) (charId : Int)
  /-- `0x6f`. -/
  | charDeleted (fd : Fin fdSetsize)
  /-- `0x71`. -/
  | mapServer (fd : Fin fdSetsize) (charId : Int) (map : CStr 16) (server : Fin maxMapServers)
  /-- `0x2712`. -/
  | toLogin (fd : Fin fdSetsize) (r : AuthRequest)
  /-- `0x2afd` and the packets behind it. -/
  | charData (a : CharAnswer)
  /-- `0x2afe`. -/
  | refused (accountId : Int)

/-! ## Connections -/

/-- The indexes of an account's characters, nine at most. -/
def foundOf (s : CharServer) (accountId : Int) : List Nat :=
  ((List.range s.charNum).filter fun i => (s.charDat i).accountId = accountId).take 9

/-- `mmo_char_send006b`, with the end of an accepted login. -/
def sendChars (s : CharServer) (fd : Fin fdSetsize) (accountId : Int) : CharServer × List CharOut :=
  let found := foundOf s accountId
  (s.updateData fd fun sd => { sd with foundChar := fun k => found[k.val]?, auth := true },
    [.charList fd (found.map fun i => (s.charDat i).charId)])

/-- `always_online_timer`. -/
def alwaysOnlineTimer (s : CharServer) (now accountId : Int) : Bool :=
  (List.range s.charNum).any fun i =>
    (s.charDat i).accountId = accountId && (s.onlineChars i ≠ 0 || s.charDatTimer i > now)

/-- `count_users`. -/
def countUsers (s : CharServer) : Nat :=
  ((List.finRange maxMapServers).map fun i => (s.server i).elim 0 MapServer.users).sum

/-- The limit of connected users lets an account in. -/
def usersOk (conf : CharConf) (s : CharServer) (accountId : Int) : Bool :=
  conf.maxConnectUser = 0 || countUsers s < conf.maxConnectUser ||
    conf.minLevelToBypass ≤ conf.isGM accountId

/-- The fields of a `0x65` request. -/
structure ConnectRequest where
  accountId : Int
  loginId1 : UInt32
  loginId2 : UInt32
  sex : Nat
  deriving DecidableEq

/-- The test of `0x65` on an entry of the ring. -/
def AuthEntry.opens (conf : CharConf) (r : ConnectRequest) (ip : UInt32) (e : AuthEntry) : Bool :=
  e.accountId = r.accountId && e.loginId1 = r.loginId1 && e.sex = r.sex &&
    (!conf.checkAuthfifoLogin2 || e.loginId2 = r.loginId2) && (!conf.checkIpFlag || e.ip = ip) &&
    e.delflag = 2

/-- The data of a session that takes up a request. -/
def takeUp (data : Option SessionData) (r : ConnectRequest) : SessionData :=
  { data.getD {} with
    accountId := r.accountId
    loginId1 := r.loginId1
    loginId2 := r.loginId2
    sex := r.sex
    auth := false }

/-- `0x65`: a client asks for its account's characters. -/
def connectRequest (conf : CharConf) (now : Int) (s : CharServer) (fd : Fin fdSetsize)
    (c : Session) (r : ConnectRequest) : CharServer × List CharOut :=
  if r.accountId < maxServers then (s.setEof fd, [.error fd 0x6c 0])
  else
    match Slots.first (fun o : Option Session => (o.bind Session.data).any fun sd =>
        sd.accountId = r.accountId) (Function.update s.session fd none) with
    | some i =>
      (((s.setEof fd).setEof i).updateData i fun sd => { sd with auth := false },
        [.error fd 0x81 2, .error i 0x81 2])
    | none =>
      let s := s.updateSession fd fun c => { c with data := some (takeUp c.data r) }
      match Slots.first (AuthEntry.opens conf r c.ip) s.authFifo.entry with
      | some i =>
        let entry := s.authFifo.entry i
        let s := { s with authFifo := s.authFifo.modify i fun e => { e with delflag := 1 } }
        if usersOk conf s r.accountId then
          if !entry.mapAuth && alwaysOnlineTimer s now r.accountId then
            (s.setEof fd, [.error fd 0x81 8])
          else sendChars s fd r.accountId
        else (s.setEof fd, [.error fd 0x6c 0])
      | none =>
        if s.loginFd then
          (s, [.toLogin fd { accountId := r.accountId, loginId1 := r.loginId1,
                             loginId2 := r.loginId2, sex := r.sex, ip := c.ip }])
        else (s.setEof fd, [.error fd 0x6c 0])

/-- `0x2713`: the login-server answers for an account. The first session of the account gets the
answer. -/
def loginAnswer (conf : CharConf) (now : Int) (s : CharServer) (accountId : Int) (error : Bool)
    (email : CStr 40) (connectUntilTime : Int) : CharServer × List CharOut :=
  match s.sessionOf accountId with
  | none => (s, [])
  | some fd =>
    if error then (s, [.error fd 0x6c 0x42])
    else if usersOk conf s accountId then
      if alwaysOnlineTimer s now accountId then
        (s.updateData fd fun sd => { sd with auth := false }, [.error fd 0x81 8])
      else
        sendChars (s.updateData fd fun sd =>
          { sd with email := eMailOf email, connectUntilTime := connectUntilTime }) fd accountId
    else (s, [.error fd 0x6c 0])

/-- `0x2717`: the e-mail and the time limit of an account. -/
def emailAnswer (s : CharServer) (accountId : Int) (email : CStr 40) (connectUntilTime : Int) :
    CharServer :=
  match s.sessionOf accountId with
  | none => s
  | some fd =>
    s.updateData fd fun sd =>
      { sd with email := eMailOf email, connectUntilTime := connectUntilTime }

/-! ## Characters -/

/-- `search_mapserver`: the name is compared up to its dot. -/
def searchMapserver (s : CharServer) (map : CStr 16) : Option (Fin maxMapServers) :=
  let name := map.bytes.takeWhile (· ≠ 46) ++ if map.bytes.contains 46 then [46] else []
  Slots.first (fun o : Option MapServer => o.any fun m =>
    m.map.any fun n => !n.bytes.isEmpty && name.isPrefixOf n.bytes) s.server

/-- The cities that are tried when no server has the map of a character. -/
def majorCities : List Point :=
  [⟨cstr 16 "prontera.gat", 273, 354⟩, ⟨cstr 16 "geffen.gat", 120, 100⟩,
    ⟨cstr 16 "morocc.gat", 160, 94⟩, ⟨cstr 16 "alberta.gat", 116, 57⟩,
    ⟨cstr 16 "payon.gat", 87, 117⟩, ⟨cstr 16 "izlude.gat", 94, 103⟩]

/-- Where a selected character enters, and the map-server of that place. -/
def selectPoint (s : CharServer) (p : Point) : Option (Point × Fin maxMapServers) :=
  match searchMapserver s p.map with
  | some i => some (p, i)
  | none =>
    match majorCities.findSome? fun c => (searchMapserver s c.map).map fun i => (c, i) with
    | some r => some r
    | none =>
      (List.finRange maxMapServers).findSome? fun j =>
        match (s.server j).bind fun m => m.map.head? with
        | some map => if map.bytes.isEmpty then none else some ({ p with map := map }, j)
        | none => none

/-- The first character of a session that passes a test. -/
def foundIndex (s : CharServer) (sd : SessionData) (p : CharStatus → Bool) : Option (Fin 9) :=
  Slots.first (fun o : Option Nat => o.any fun i => p (s.charDat i)) sd.foundChar

/-- The end of a selection: the session can do no more. -/
def endSelect (s : CharServer) (fd : Fin fdSetsize) : CharServer :=
  s.updateData fd fun sd => { sd with auth := false }

/-- The client must give an e-mail first. -/
def needsEmail (conf : CharConf) (s : CharServer) (sd : SessionData) : Bool :=
  conf.emailCreation && sd.email = cstr 40 "a@a.com" && s.loginFd

/-- `0x66`: a character is selected by its slot. -/
def charSelect (conf : CharConf) (now : Int) (s : CharServer) (fd : Fin fdSetsize) (ip : UInt32)
    (sd : SessionData) (slot : Int) : CharServer × List CharOut :=
  if needsEmail conf s sd then (s, [.error fd 0x70 0])
  else
    match (foundIndex s sd fun c => c.charNum = slot).bind sd.foundChar with
    | none => (endSelect s fd, [])
    | some ch =>
      if (s.charDat ch).name = conf.wispServerName then
        (endSelect (s.setEof fd) fd, [.error fd 0x81 1])
      else
        match selectPoint s (s.charDat ch).lastPoint with
        | none => (endSelect (s.setEof fd) fd, [.error fd 0x81 1])
        | some (p, i) =>
          let s := { s with
            charDat := Function.update s.charDat ch { s.charDat ch with lastPoint := p }
            charDatTimer := Function.update s.charDatTimer ch (now + 15 + 5)
            authFifo := s.authFifo.put AuthEntry.accountId
              { accountId := sd.accountId
                charId := (s.charDat ch).charId
                loginId1 := sd.loginId1
                loginId2 := sd.loginId2
                delflag := 0
                charPos := ch
                sex := sd.sex
                connectUntilTime := sd.connectUntilTime
                ip := ip
                mapAuth := true } }
          (endSelect s fd, [.mapServer fd (s.charDat ch).charId p.map i])

/-- `0x67`: a character is created. -/
def charCreate (conf : CharConf) (s : CharServer) (fd : Fin fdSetsize) (sd : SessionData)
    (dat : List UInt8) : CharServer × List CharOut :=
  let counter := ((List.finRange 9).filter fun k => (sd.foundChar k).isSome).length
  if counter = 9 then (s, [.error fd 0x6e 2])
  else if counter ≠ 0 && needsEmail conf s sd then (s, [.error fd 0x6e 2])
  else
    match makeNewChar conf s sd.accountId dat with
    | .error e => (s, [.error fd 0x6e (if e = -2 then 2 else 0)])
    | .ok (s, i) =>
      (s.updateData fd fun sd => { sd with foundChar := fillFound sd.foundChar i },
        [.charNew fd (s.charDat i).charId])

/-- The deletion of the character at place `k` of a session, with index `i`. -/
def deleteFound (s : CharServer) (fd : Fin fdSetsize) (k : Fin 9) (i : Nat) : CharServer :=
  let s := charDivorce s i
  let s := if i ≠ s.charNum - 1 then repairFound (moveLast s i) i else s
  { s with charNum := s.charNum - 1 }.updateData fd fun sd =>
    { sd with foundChar := closeFound sd.foundChar k }

/-- `0x68`: a character is deleted. When an e-mail is asked for first, the request gives it and
selects the character. -/
def charDelete (conf : CharConf) (now : Int) (s : CharServer) (fd : Fin fdSetsize) (ip : UInt32)
    (sd : SessionData) (charId : Int) (email : CStr 40) : CharServer × List CharOut :=
  let email := eMailOf email
  let place := foundIndex s sd fun c => c.charId = charId
  if needsEmail conf s sd then
    if email = cstr 40 "a@a.com" then (s, [.error fd 0x70 0])
    else
      match place.bind sd.foundChar with
      | none => (s, [.error fd 0x70 0])
      | some i =>
        let sd := { sd with email := email }
        let r := charSelect conf now (s.updateData fd fun sd => { sd with email := email }) fd ip sd
          (s.charDat i).charNum
        (r.1, .error fd 0x70 1 :: r.2)
  else if !strcasecmp email sd.email then (s, [.error fd 0x70 0])
  else
    match place.bind fun k => (sd.foundChar k).map fun i => (k, i) with
    | none => (s, [.error fd 0x70 0])
    | some (k, i) => (deleteFound s fd k i, [.charDeleted fd])

/-! ## Clients -/

/-- A packet of a client. -/
inductive ClientPacket where
  | connect (r : ConnectRequest)
  | select (slot : Int)
  | create (dat : List UInt8)
  | delete (charId : Int) (email : CStr 40)

/-- `parse_char`. A client may select, create and delete when it is authenticated, and connect when it
is not. -/
def parseChar (conf : CharConf) (now : Int) (s : CharServer) (fd : Fin fdSetsize)
    (p : ClientPacket) : CharServer × List CharOut :=
  match s.session fd with
  | none => (s, [])
  | some c =>
    if !s.loginFd || c.eof then ({ s with session := Function.update s.session fd none }, [])
    else
      match p, c.data.filter SessionData.auth with
      | .connect r, none => connectRequest conf now s fd c r
      | .select slot, some sd => charSelect conf now s fd c.ip sd slot
      | .create dat, some sd => charCreate conf s fd sd dat
      | .delete charId email, some sd => charDelete conf now s fd c.ip sd charId email
      | _, _ => (s.setEof fd, [.error fd 0x6c 0])

/-! ## The login-server and the map-servers -/

/-- The fields of `0x2719` and of `0x2b02`. -/
structure LoginInfo where
  accountId : Int
  loginId1 : UInt32
  loginId2 : UInt32
  ip : UInt32
  sex : Nat
  deriving DecidableEq

/-- A login that a client may connect with. -/
def storeLogin (s : CharServer) (r : LoginInfo) (mapAuth : Bool) : CharServer :=
  { s with
    authFifo := s.authFifo.put AuthEntry.accountId
      { accountId := r.accountId
        loginId1 := r.loginId1
        loginId2 := r.loginId2
        delflag := 2
        sex := r.sex
        ip := r.ip
        mapAuth := mapAuth } }

/-- `0x2719`: a login. -/
def loginInfo (s : CharServer) (r : LoginInfo) : CharServer := storeLogin s r false

/-- `0x2b02`: a player comes back from a map-server. -/
def mapBack (s : CharServer) (r : LoginInfo) : CharServer := storeLogin s r true

/-- The loop of `0x2730` from index `i` on: the characters of the account are deleted. A moved
character of the same account is looked at again. Each round shortens the rest of the table, so
`char_num` is fuel enough. -/
def deleteAccountLoop (accountId : Int) : Nat → CharServer → Nat → CharServer
  | 0, s, _ => s
  | fuel + 1, s, i =>
    if i < s.charNum then
      if (s.charDat i).accountId = accountId then
        let s := charDivorce s i
        if i < s.charNum - 1 then
          let s := moveLast s i
          if (s.charDat i).accountId = accountId then
            deleteAccountLoop accountId fuel { s with charNum := s.charNum - 1 } i
          else
            deleteAccountLoop accountId fuel
              { repairFound s i with charNum := s.charNum - 1 } (i + 1)
        else deleteAccountLoop accountId fuel { s with charNum := s.charNum - 1 } (i + 1)
      else deleteAccountLoop accountId fuel s (i + 1)
    else s

/-- `disconnect_player`. -/
def disconnectPlayer (s : CharServer) (accountId : Int) : CharServer :=
  match s.sessionOf accountId with
  | some fd => s.setEof fd
  | none => s

/-- `0x2730`: an account has been deleted. -/
def accountDeleted (s : CharServer) (accountId : Int) : CharServer :=
  disconnectPlayer (deleteAccountLoop accountId s.charNum s 0) accountId

/-- The fields of `0x2b05` and of `0x2afc`. -/
structure MapRequest where
  accountId : Int
  charId : Int
  loginId1 : UInt32
  loginId2 : UInt32
  ip : UInt32
  sex : Nat
  deriving DecidableEq

/-- `0x2b05`: a character changes to another map-server. -/
def mapChange (s : CharServer) (r : MapRequest) : CharServer :=
  match charIndex s fun c => c.charId = r.charId with
  | none => s
  | some j =>
    { s with
      authFifo := s.authFifo.put AuthEntry.accountId
        { accountId := r.accountId
          charId := r.charId
          loginId1 := r.loginId1
          loginId2 := r.loginId2
          delflag := 0
          sex := r.sex
          ip := r.ip
          mapAuth := true
          charPos := j } }

/-- The test of `0x2afc` on an entry of the ring. -/
def AuthEntry.serves (conf : CharConf) (r : MapRequest) (e : AuthEntry) : Bool :=
  e.accountId = r.accountId && e.charId = r.charId && e.loginId1 = r.loginId1 && e.sex = r.sex &&
    (!conf.checkAuthfifoLogin2 || e.loginId2 = r.loginId2 || r.loginId2 = 0) &&
    (!conf.checkIpFlag || e.ip = r.ip) && e.delflag = 0

/-- The row of an index in the parallel arrays. -/
def CharServer.character (s : CharServer) (i : Nat) : Character :=
  ⟨s.charDat i, s.friendDat i, s.globalRegDb i⟩

/-- `0x2afc`: a map-server asks for a character. -/
def mapAuth (conf : CharConf) (s : CharServer) (r : MapRequest) : CharServer × List CharOut :=
  match Slots.first (AuthEntry.serves conf r) s.authFifo.entry with
  | none => (s, [.refused r.accountId])
  | some i =>
    let entry := s.authFifo.entry i
    let idx := entry.charPos
    let s := { s with
      authFifo := s.authFifo.modify i fun e => { e with delflag := 1 }
      charDat := Function.update s.charDat idx { s.charDat idx with sex := entry.sex } }
    (s, [.charData { accountId := r.accountId
                     loginId2 := entry.loginId2
                     character := s.character idx
                     connectUntilTime := entry.connectUntilTime }])

/-! ## Steps -/

/-- What can happen to the char-server. -/
inductive CharEvent where
  | accept (fd : Fin fdSetsize) (ip : UInt32)
  | close (fd : Fin fdSetsize)
  | client (fd : Fin fdSetsize) (p : ClientPacket)
  | loginAnswer (accountId : Int) (error : Bool) (email : CStr 40) (connectUntilTime : Int)
  | emailAnswer (accountId : Int) (email : CStr 40) (connectUntilTime : Int)
  | loginInfo (r : LoginInfo)
  | accountDeleted (accountId : Int)
  | disconnect (accountId : Int)
  | mapBack (r : LoginInfo)
  | mapChange (r : MapRequest)
  | mapAuth (r : MapRequest)
  /-- Servers connect and disconnect, players come online and go offline. -/
  | servers (loginFd : Bool) (server : Fin maxMapServers → Option MapServer)
      (onlineChars charDatTimer : Nat → Int)

/-- A step at a time, with the packets that are sent. -/
def charRun (conf : CharConf) (s : CharServer) (now : Int) : CharEvent → CharServer × List CharOut
  | .accept fd ip =>
    (if (s.session fd).isSome then s
      else { s with session := Function.update s.session fd (some { ip := ip }) }, [])
  | .close fd => ({ s with session := Function.update s.session fd none }, [])
  | .client fd p => parseChar conf now s fd p
  | .loginAnswer accountId error email time => loginAnswer conf now s accountId error email time
  | .emailAnswer accountId email time => (emailAnswer s accountId email time, [])
  | .loginInfo r => (loginInfo s r, [])
  | .accountDeleted accountId => (accountDeleted s accountId, [])
  | .disconnect accountId => (disconnectPlayer s accountId, [])
  | .mapBack r => (mapBack s r, [])
  | .mapChange r => (mapChange s r, [])
  | .mapAuth r => mapAuth conf s r
  | .servers loginFd server onlineChars charDatTimer =>
    ({ s with loginFd := loginFd, server := server, onlineChars := onlineChars,
              charDatTimer := charDatTimer }, [])

end Nezumi
