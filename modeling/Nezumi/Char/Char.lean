import Nezumi.Lib.KeyRing
import Nezumi.Lib.Pool
import Nezumi.Common.Mmo
import Nezumi.Map.Item

/-!
# The character table of the char-server (`char/char.c`, text-file build)

The characters of all players stand in parallel arrays of `char_num` entries: `char_dat`,
`friend_dat`, `global_reg_db`, `char_dat_timer` and `online_chars`. Sessions and the ring `auth_fifo`
designate a character by its index.

* `makeNewChar` is `make_new_char`.
* `charDivorce` is what `char_delete` does to the table; `moveLast` and `repairFound` are the parts
  of a deletion that close the gap.
* `charNumOf` searches the table by character id.
-/

namespace Nezumi

def fdSetsize : Nat := 1024
def maxMapServers : Nat := 30
def weddingRingM : Int16 := 2634
def weddingRingF : Int16 := 2635

/-- `struct point`. -/
structure Point where
  map : CStr 16 := default
  x : Int := 0
  y : Int := 0
  deriving DecidableEq

/-- `struct mmo_charstatus`. `charNum` is the slot of the character. -/
structure CharStatus where
  charId : Int := 0
  accountId : Int := 0
  partnerId : Int := 0
  zeny : Int := 0
  hp : Int := 0
  maxHp : Int := 0
  sp : Int := 0
  maxSp : Int := 0
  hair : Int := 0
  hairColor : Int := 0
  weapon : Int := 0
  name : CStr 24 := default
  baseLevel : Nat := 0
  jobLevel : Nat := 0
  str : Int := 0
  agi : Int := 0
  vit : Int := 0
  int : Int := 0
  dex : Int := 0
  luk : Int := 0
  charNum : Int := 0
  sex : Nat := 0
  lastPoint : Point := {}
  savePoint : Point := {}
  inventory : Inventory := fun _ => Item.zero
  skill : Nat → Skill := fun _ => {}

/-- `struct friend`. -/
structure Friend where
  accountId : Int
  charId : Int
  name : CStr 24
  deriving DecidableEq

/-- `struct char_session_data`. `foundChar k` is the index of a character of the account, `none` is
`-1`. -/
structure SessionData where
  accountId : Int := 0
  loginId1 : UInt32 := 0
  loginId2 : UInt32 := 0
  foundChar : Fin 9 → Option Nat := fun _ => some 0
  email : CStr 40 := cstr 40 "no mail"
  connectUntilTime : Int := 0
  sex : Nat := 0
  auth : Bool := false

/-- A connection of a client. -/
structure Session where
  ip : UInt32
  eof : Bool := false
  data : Option SessionData := none

/-- An entry of `auth_fifo`. `delflag`: 0 for a selected character, 2 for a login that has been
received, 1 when it has been used. -/
structure AuthEntry where
  accountId : Int := 0
  charId : Int := 0
  loginId1 : UInt32 := 0
  loginId2 : UInt32 := 0
  ip : UInt32 := 0
  charPos : Nat := 0
  delflag : Fin 3 := 0
  sex : Nat := 0
  connectUntilTime : Int := 0
  mapAuth : Bool := false
  deriving DecidableEq

/-- A connected map-server. -/
structure MapServer where
  map : List (CStr 16) := []
  users : Nat := 0

/-- The configuration and the tables that are read from files. -/
structure CharConf where
  maxConnectUser : Nat := 0
  minLevelToBypass : Nat := 99
  isGM : Int → Nat := fun _ => 0
  emailCreation : Bool := false
  checkIpFlag : Bool := true
  checkAuthfifoLogin2 : Bool := true
  wispServerName : CStr 24 := cstr 24 "Server"
  nameIgnoringCase : Bool := false
  charNameOption : Nat := 0
  charNameLetters : List UInt8 := []
  charNameWithSpaces : Bool := true
  charNameDoubleSpaces : Bool := false
  charNameSpaceAtFirst : Bool := false
  charNameSpaceAtLast : Bool := false
  checkBadWord : List UInt8 → Bool := fun _ => false
  charsPerAccount : Nat := 0
  maxHairStyle : Int := 24
  maxHairColor : Int := 9
  startZeny : Int := 500
  startWeapon : Int := 1201
  startArmor : Int := 2301
  startItem : Int := 0
  startItemQuantity : Int := 0
  startPoint : Point := { map := cstr 16 "new_1-1.gat", x := 53, y := 111 }

/-- The char-server. `session fd` is the client on a connection, `loginFd` says that the login-server
is connected. -/
structure CharServer where
  charNum : Nat := 0
  charDat : Nat → CharStatus := fun _ => {}
  friendDat : Nat → List Friend := fun _ => []
  globalRegDb : Nat → List GlobalReg := fun _ => []
  charDatTimer : Nat → Int := fun _ => 0
  onlineChars : Nat → Int := fun _ => 0
  charIdCount : Int := 500000
  session : Fin fdSetsize → Option Session := fun _ => none
  authFifo : KeyRing authFifoSize AuthEntry := ⟨fun _ => {}, 0⟩
  loginFd : Bool := true
  server : Fin maxMapServers → Option MapServer := fun _ => none

/-! ## Sessions -/

/-- The data of a connection. -/
def CharServer.data (s : CharServer) (fd : Fin fdSetsize) : Option SessionData :=
  (s.session fd).bind Session.data

/-- The first session of an account, other than one. -/
def CharServer.sessionOf (s : CharServer) (accountId : Int) : Option (Fin fdSetsize) :=
  Slots.first (fun o : Option Session => (o.bind Session.data).any fun sd =>
    sd.accountId = accountId) s.session

/-- One session is changed. -/
def CharServer.updateSession (s : CharServer) (fd : Fin fdSetsize) (f : Session → Session) :
    CharServer :=
  { s with session := Function.update s.session fd ((s.session fd).map f) }

/-- The data of one session are changed. -/
def CharServer.updateData (s : CharServer) (fd : Fin fdSetsize) (f : SessionData → SessionData) :
    CharServer :=
  s.updateSession fd fun c => { c with data := c.data.map f }

def CharServer.setEof (s : CharServer) (fd : Fin fdSetsize) : CharServer :=
  s.updateSession fd fun c => { c with eof := true }

/-- The first void place of the characters of a session gets a character. -/
def fillFound {α : Type*} (found : Fin 9 → Option α) (a : α) : Fin 9 → Option α :=
  match Slots.first Option.isNone found with
  | some k => Function.update found k (some a)
  | none => found

/-- The characters behind a place move up. -/
def closeFound {α : Type*} (found : Fin 9 → Option α) (i : Fin 9) (k : Fin 9) : Option α :=
  if k < i then found k else if h : k.val + 1 < 9 then found ⟨k + 1, h⟩ else none

/-! ## Creation -/

/-- The value of a `char`. -/
def schar (b : UInt8) : Int := b.toInt8.toInt

/-- Runs of spaces become one space. -/
def dropDoubleSpaces : List UInt8 → List UInt8
  | [] => []
  | c :: cs =>
    if c = 32 ∧ cs.head? = some 32 then dropDoubleSpaces cs else c :: dropDoubleSpaces cs

/-- The name of a new character, if the text of the packet is allowed. -/
def newCharName (conf : CharConf) (dat : List UInt8) : Option (CStr 24) :=
  let name := (CStr.ofField 24 dat).bytes
  if removeControlChars name ≠ name then none
  else
    let name := name.map fun c => if c = 160 then 32 else c
    if !conf.charNameWithSpaces && name.contains 32 then none
    else
      let name := if conf.charNameDoubleSpaces then name else dropDoubleSpaces name
      let name := if conf.charNameSpaceAtFirst then name else name.dropWhile (· = 32)
      let name := if conf.charNameSpaceAtLast then name
        else (name.reverse.dropWhile (· = 32)).reverse
      if name.length < 4 then none
      else if conf.charNameOption = 1 && !name.all conf.charNameLetters.contains then none
      else if conf.charNameOption = 2 && name.any conf.charNameLetters.contains then none
      else some (CStr.ofField 24 name)

/-- The signed byte at an offset of the packet. -/
def datAt (dat : List UInt8) (i : Nat) : Int := schar (dat.getD i 0)

/-- The numbers of a creation are allowed: the six stats, the slot, the hair. -/
def newCharValues (conf : CharConf) (dat : List UInt8) : Bool :=
  datAt dat 24 + datAt dat 25 + datAt dat 26 + datAt dat 27 + datAt dat 28 + datAt dat 29 = 30 &&
    0 ≤ datAt dat 30 && datAt dat 30 < 9 && 0 < datAt dat 33 && datAt dat 33 ≤ conf.maxHairStyle &&
    0 ≤ datAt dat 31 && datAt dat 31 ≤ conf.maxHairColor &&
    (List.range 6).all fun i => 1 ≤ datAt dat (24 + i) && datAt dat (24 + i) ≤ 9

/-- The loop of `make_new_char` over the table: the number of characters of the account, or the
error `-1` (name) or `-2` (slot). -/
def existingChars (conf : CharConf) (s : CharServer) (name : CStr 24) (accountId slot : Int) :
    Except Int Nat :=
  (List.range s.charNum).foldlM (fun j i =>
    let c := s.charDat i
    if c.name = name ∨ !conf.nameIgnoringCase ∧ strcasecmp c.name name then throw (-1)
    else if c.accountId = accountId then
      if c.charNum = slot then throw (-2) else pure (j + 1)
    else pure j) 0

/-- The items of a new character. -/
def startItems (conf : CharConf) : List Item :=
  (if conf.startWeapon > 0 then
    [{ nameid := Int16.ofInt conf.startWeapon, amount := 1, equip := 2, identify := true }] else []) ++
  (if conf.startArmor > 0 then
    [{ nameid := Int16.ofInt conf.startArmor, amount := 1, equip := 16, identify := true }] else []) ++
  (if conf.startItem > 0 ∨ conf.startItemQuantity > 0 then
    [{ nameid := Int16.ofInt conf.startItem, amount := Int16.ofInt conf.startItemQuantity,
       identify := true }] else [])

/-- The record of a new character. -/
def newChar (conf : CharConf) (charId accountId : Int) (name : CStr 24) (dat : List UInt8) :
    CharStatus :=
  let vit := datAt dat 26
  let int := datAt dat 27
  { charId := charId
    accountId := accountId
    charNum := datAt dat 30
    name := name
    baseLevel := 1
    jobLevel := 1
    zeny := conf.startZeny
    str := datAt dat 24
    agi := datAt dat 25
    vit := vit
    int := int
    dex := datAt dat 28
    luk := datAt dat 29
    maxHp := 40 * (100 + vit) / 100
    maxSp := 11 * (100 + int) / 100
    hp := 40 * (100 + vit) / 100
    sp := 11 * (100 + int) / 100
    hair := datAt dat 33
    hairColor := datAt dat 31
    weapon := if conf.startWeapon > 0 then 1 else 0
    inventory := slotsOf (startItems conf)
    lastPoint := conf.startPoint
    savePoint := conf.startPoint
    skill := fun k => if k = 1 then { id := 1 } else {} }

/-- `make_new_char`, for a session of the account: the index of the new character, or an error. -/
def makeNewChar (conf : CharConf) (s : CharServer) (accountId : Int) (dat : List UInt8) :
    Except Int (CharServer × Nat) :=
  match newCharName conf dat with
  | none => .error (-1)
  | some name =>
    if !newCharValues conf dat then .error (-2)
    else if conf.wispServerName = name then .error (-1)
    else if conf.checkBadWord name.bytes then .error (-2)
    else
      match existingChars conf s name accountId (datAt dat 30) with
      | .error e => .error e
      | .ok j =>
        if conf.charsPerAccount ≠ 0 ∧ j ≥ conf.charsPerAccount then .error (-2)
        else
          .ok ({ s with
            charNum := s.charNum + 1
            charDat := Function.update s.charDat s.charNum
              (newChar conf s.charIdCount accountId name dat)
            friendDat := Function.update s.friendDat s.charNum []
            globalRegDb := Function.update s.globalRegDb s.charNum []
            charIdCount := s.charIdCount + 1 }, s.charNum)

/-! ## Deletion -/

/-- The first index with a character that passes a test. -/
def charIndex (s : CharServer) (p : CharStatus → Bool) : Option Nat :=
  (List.range s.charNum).find? fun i => p (s.charDat i)

/-- A partner after the divorce: no partner, no wedding ring. -/
def CharStatus.divorced (c : CharStatus) : CharStatus :=
  { c with
    partnerId := 0
    inventory := fun i =>
      if (c.inventory i).nameid = weddingRingM ∨ (c.inventory i).nameid = weddingRingF then Item.zero
      else c.inventory i }

/-- `char_divorce` of the character at index `idx`, which is deleted next. -/
def charDivorce (s : CharServer) (idx : Nat) : CharServer :=
  let cs := s.charDat idx
  if cs.partnerId > 0 then
    match charIndex s fun c => c.charId = cs.partnerId && c.partnerId = cs.charId with
    | some i =>
      { s with charDat := Function.update s.charDat i (s.charDat i).divorced }
    | none => s
  else s

/-- The last entries of the arrays are moved to index `i`. -/
def moveLast (s : CharServer) (i : Nat) : CharServer :=
  let last := s.charNum - 1
  { s with
    charDat := Function.update s.charDat i (s.charDat last)
    friendDat := Function.update (Function.update s.friendDat i (s.friendDat last)) last []
    globalRegDb := Function.update (Function.update s.globalRegDb i (s.globalRegDb last)) last []
    charDatTimer := Function.update s.charDatTimer i (s.charDatTimer last)
    onlineChars := Function.update s.onlineChars i (s.onlineChars last) }

/-- The session of the moved character's owner gets the new index. -/
def repairFound (s : CharServer) (i : Nat) : CharServer :=
  let last := s.charNum - 1
  match s.sessionOf (s.charDat last).accountId with
  | none => s
  | some j =>
    s.updateData j fun sd =>
      match Slots.first (fun o => o = some last) sd.foundChar with
      | some k => { sd with foundChar := Function.update sd.foundChar k (some i) }
      | none => sd

end Nezumi
