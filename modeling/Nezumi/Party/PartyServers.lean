import Nezumi.Party.PartyShare

/-!
# Parties on several map-servers (`map/party.c`, `map/intif.c`, `char/int_party.c`)

Every map-server has its own copy of the parties it knows, and its own connection to the
char-server.

* `PartyRequest` and `PartyReply` are the packets of the two directions that `ToInter` and
  `FromInter` leave out, with these.
* `interPartyParseFrommap` is what the char-server does with a packet. A reply goes back on the
  connection (`mapif_send`) or to all map-servers (`mapif_sendall`).
* `PartyMap.intifParseReply` is what a map-server does with a packet. There is none if the server
  stops itself (`exit`).
* `PartyServers` are the servers with what is under way between them, `partyServersStep` an event.
-/

namespace Nezumi

/-- From a map-server to the char-server. -/
inductive PartyRequest where
  /-- 0x3020 -/
  | create (accountId : Int) (partyName nick map : String) (lv : UInt16) (item item2 : UInt8)
  /-- 0x3021 -/
  | info (partyId : Int)
  /-- 0x3023 -/
  | changeOption (partyId accountId : Int) (exp : UInt16) (item : UInt8)
  /-- 0x3025 -/
  | changeMap (partyId accountId : Int) (map : String) (online : UInt8) (lv : UInt16)
  /-- 0x3026 -/
  | breakParty (partyId : Int)
  /-- the packets of `Party.lean` -/
  | inter (m : ToInter)

/-- From the char-server to a map-server. -/
inductive PartyReply where
  /-- 0x3821 without a party -/
  | noInfo (partyId : Int)
  /-- the packets of `PartyShare.lean` -/
  | answer (m : PartyAnswer)

/-- A packet that the char-server sends. -/
inductive PartySend where
  /-- `mapif_send` to the server that asked -/
  | back (r : PartyReply)
  /-- `mapif_sendall` -/
  | all (r : PartyReply)

/-! ## The char-server (`int_party.c`) -/

/-- Where the packets of `Party.lean` go. An answer about an option that has been changed in part
goes back only. -/
def FromInter.sends (m : FromInter) : PartySend :=
  match m with
  | .memberAdded .. => .back (.answer (.sent m))
  | .optionChanged _ _ _ _ flag =>
    if flag = 0 then .all (.answer (.sent m)) else .back (.answer (.sent m))
  | .info _ | .memberLeaved .. | .broken _ => .all (.answer (.sent m))

/-- Where the packets of a change of map go. -/
def PartyAnswer.sends : PartyAnswer → PartySend
  | .sent m => m.sends
  | m => .all (.answer m)

/-- `mapif_parse_PartyInfo` -/
def parsePartyInfo (db : List Party) (partyId : Int) : PartyReply :=
  match partySearch db partyId with
  | some p => .answer (.sent (.info p))
  | none => .noInfo partyId

/-- `inter_party_parse_frommap` -/
def interPartyParseFrommap (partyShareLevel : Int) (s : PartyServer) :
    PartyRequest → PartyServer × List PartySend
  | .create accountId partyName nick map lv item item2 =>
    let r := parseCreateParty s accountId partyName nick map lv item item2
    (r.1, r.2.map fun m => .back (.answer m))
  | .info partyId => (s, [.back (parsePartyInfo s.db partyId)])
  | .changeOption partyId accountId exp item =>
    let r := parsePartyChangeOption partyShareLevel s.db partyId accountId exp item
    ({ s with db := r.1 }, r.2.map FromInter.sends)
  | .changeMap partyId accountId map online lv =>
    let r := parsePartyChangeMap partyShareLevel s.db partyId accountId map online lv
    ({ s with db := r.1 }, r.2.map PartyAnswer.sends)
  | .breakParty partyId =>
    let r := parseBreakParty s.db partyId
    ({ s with db := r.1 }, r.2.map FromInter.sends)
  | .inter m =>
    let r := interPartyParse partyShareLevel s.db m
    ({ s with db := r.1 }, r.2.map FromInter.sends)

/-! ## A map-server (`party.c`) -/

namespace PartyMap

variable (s : PartyMap)

/-- `party_create`. The name has no control characters and no bad word. -/
def partyCreate (badWord : String → Bool) (sd : PartyPlayer) (name : String) (item item2 : UInt8) :
    List PartyRequest :=
  if sd.partyId ≠ 0 ∨ name = "" ∨
    name.toList.any (fun c => c.toNat &&& 0xe0 = 0 || c.toNat = 0x7f) ∨ badWord name then []
  else
    [.create sd.accountId name sd.name sd.map (UInt16.ofInt sd.baseLevel) item item2]

/-- `party_changeoption`. The player is a leader. -/
def partyChangeoption (sd : PartyPlayer) (exp item : UInt16) : List PartyRequest :=
  match (if sd.partyId = 0 then none else partySearch s.db sd.partyId) with
  | none => []
  | some p =>
    match Slots.first (fun m => m.accountId = sd.accountId ∧ m.name = sd.name ∧ m.leader)
      p.member with
    | none => []
    | some _ => [.changeOption sd.partyId sd.accountId exp item.toUInt8]

/-- `intif_party_changemap` -/
def changemap (sd : PartyPlayer) (online : UInt8) : PartyRequest :=
  .changeMap sd.partyId sd.accountId sd.map online (UInt16.ofInt sd.baseLevel)

/-- What `pc_authok` does about the party of a player who comes in. -/
def pcAuthok (sd : PartyPlayer) : PartyMap × List PartyRequest :=
  let s := { s with players := s.players ++ [sd] }
  if ¬ 0 < sd.partyId then (s, [])
  else
    match partySearch s.db sd.partyId with
    | none => (s, [.info sd.partyId, changemap sd 1])
    | some p =>
      match Slots.first (fun m => m.accountId = sd.accountId ∧ m.name = sd.name) p.member with
      | some _ => (s, [changemap sd 1])
      | none => (s.setPlayer sd.accountId fun sd => { sd with partyId := 0 }, [])

/-- A player of the party is on the entry's account, but under another name. -/
def otherOnAccount (partyId : Int) (m : PartyMember) : Bool :=
  s.players.any fun sd => sd.partyId = partyId ∧ sd.accountId = m.accountId ∧ sd.name ≠ m.name

/-- `party_check_member` of a party of the server itself -/
def partyCheckOwn (p : Party) : PartyMap :=
  { s.partyCheckMember p with db := partyPut s.db { p with member := fun i =>
    { p.member i with sd := (p.member i).sd && !s.otherOnAccount p.partyId (p.member i) } } }

/-- `party_send_movemap`. `sended` is `party_sended`. -/
def partySendMovemap (sd : PartyPlayer) (sended : Bool) : PartyMap × List PartyRequest :=
  if sd.partyId = 0 then (s, [])
  else if sended then (s, [changemap sd 1])
  else
    (match partySearch s.db sd.partyId with
      | none => s
      | some p => s.partyCheckOwn p,
      [changemap sd 1, .inter (.checkConflict sd.partyId sd.accountId sd.name)])

/-- `party_send_logout`, and the player is gone -/
def partySendLogout (sd : PartyPlayer) : PartyMap × List PartyRequest :=
  let s' := { s with players := s.players.filter fun t => t.accountId ≠ sd.accountId }
  if 0 < sd.partyId then
    (match partySearch s.db sd.partyId with
      | none => s'
      | some p =>
        { s' with db := partyPut s.db { p with member := fun i =>
          { p.member i with
            sd := (p.member i).sd && (p.member i).accountId ≠ sd.accountId } } },
      [changemap sd 0])
  else (s', [])

/-- `party_created`. The server stops itself if it has the party already. -/
def partyCreated (accountId : Int) (fail : Nat) (partyId : Int) (name : String) :
    Option PartyMap :=
  match s.id2sd accountId with
  | none => some s
  | some _ =>
    if fail ≠ 0 then some s
    else
      match partySearch s.db partyId with
      | some _ => none
      | none =>
        let s := s.setPlayer accountId fun sd => { sd with partyId }
        some { s with db := s.db ++ [{ partyId, name }] }

/-- `party_recv_noinfo` -/
def partyRecvNoinfo (partyId : Int) : PartyMap :=
  { s with players := s.players.map fun sd =>
      if sd.partyId = partyId then { sd with partyId := 0 } else sd }

/-- `party_recv_movemap` -/
def partyRecvMovemap (partyId accountId : Int) (map : String) (online : Bool) (lv : Int) :
    PartyMap :=
  match partySearch s.db partyId with
  | none => s
  | some p =>
    match Slots.first (fun m => m.accountId = accountId) p.member with
    | none => s
    | some i =>
      let member := Function.update p.member i { p.member i with map, online, lv }
      { s with db := partyPut s.db { p with member := fun i =>
        { member i with
          sd := (s.id2sd (member i).accountId).any fun sd => sd.partyId = p.partyId } } }

/-- `intif_parse` -/
def intifParseReply : PartyReply → Option (PartyMap × List ToInter)
  | .noInfo partyId => some (s.partyRecvNoinfo partyId, [])
  | .answer (.created accountId fail partyId name) =>
    (s.partyCreated accountId fail partyId name).map fun s => (s, [])
  | .answer (.memberMoved partyId accountId map online lv) =>
    some (s.partyRecvMovemap partyId accountId map online lv, [])
  | .answer (.sent m) => some (s.intifParse m)

end PartyMap

/-! ## All servers -/

/-- A map-server with the packets under way on its connection, oldest first. -/
structure PartyLink where
  map : PartyMap := ⟨[], []⟩
  up : List PartyRequest := []
  down : List PartyReply := []

/-- The servers. -/
structure PartyServers (ι : Type) where
  server : PartyServer := {}
  link : ι → PartyLink := fun _ => {}

structure PartyServersConf where
  inviteRequestCheck : Bool := true
  partyShareLevel : Int := 10
  badWord : String → Bool := fun _ => false

/-- What a player does, and what happens to one on a map-server. -/
inductive PartyAction where
  | create (name : String) (item item2 : UInt8)
  | invite (accountId : Int)
  | replyInvite (flag : Nat)
  | leave
  | removeMember (accountId : Int) (name : String)
  | changeOption (exp item : UInt16)
  | level (baseLevel : Int)
  | moveMap (map : String) (sended : Bool)
  | logout

/-- `login` is a player who comes to a map-server, and `act` what the player of an account does
there. `charReceives` and `mapReceives` are the arrival of the oldest packet on one of the
connections, and `deleted` a member whose character is deleted on the char-server. -/
inductive PartyServersEvent (ι : Type) where
  | login (i : ι) (sd : PartyPlayer)
  | act (i : ι) (accountId : Int) (a : PartyAction)
  | charReceives (i : ι)
  | mapReceives (i : ι)
  | deleted (partyId accountId : Int)

/-- What a map-server does for a player. -/
def PartyMap.acts (conf : PartyServersConf) (s : PartyMap) (sd : PartyPlayer) :
    PartyAction → PartyMap × List PartyRequest
  | .create name item item2 => (s, PartyMap.partyCreate conf.badWord sd name item item2)
  | .invite accountId => (s.partyInvite conf.inviteRequestCheck sd accountId, [])
  | .replyInvite flag => ((s.partyReplyInvite sd flag).1, (s.partyReplyInvite sd flag).2.map .inter)
  | .leave => (s, (s.partyLeave sd).map .inter)
  | .removeMember accountId name => (s, (s.partyRemovemember sd accountId name).map .inter)
  | .changeOption exp item => (s, s.partyChangeoption sd exp item)
  | .level baseLevel => (s.setPlayer sd.accountId fun sd => { sd with baseLevel }, [])
  | .moveMap map sended =>
    (s.setPlayer sd.accountId fun sd => { sd with map }).partySendMovemap { sd with map } sended
  | .logout => s.partySendLogout sd

/-- The packets that come to a map-server, which has asked or has not. -/
def PartySend.toServer (asked : Bool) : PartySend → Option PartyReply
  | .back r => if asked then some r else none
  | .all r => some r

section

variable {ι : Type} [DecidableEq ι]

/-- A map-server does something and sends the requests for it. -/
def PartyServers.mapDoes (w : PartyServers ι) (i : ι) (r : PartyMap × List PartyRequest) :
    PartyServers ι :=
  let link := { w.link i with map := r.1, up := (w.link i).up ++ r.2 }
  { w with link := Function.update w.link i link }

/-- The char-server has done something for a map-server, or for none, and sends packets. -/
def PartyServers.charDoes (w : PartyServers ι) (i : Option ι) (r : PartyServer × List PartySend) :
    PartyServers ι where
  server := r.1
  link j := { w.link j with
    down := (w.link j).down ++ r.2.filterMap (PartySend.toServer (i = some j)) }

def partyServersStep (conf : PartyServersConf) (w : PartyServers ι) :
    PartyServersEvent ι → PartyServers ι
  | .login i sd =>
    if ((w.link i).map.id2sd sd.accountId).isSome then w
    else w.mapDoes i ((w.link i).map.pcAuthok sd)
  | .act i accountId a =>
    match (w.link i).map.id2sd accountId with
    | none => w
    | some sd => w.mapDoes i ((w.link i).map.acts conf sd a)
  | .charReceives i =>
    match (w.link i).up with
    | [] => w
    | m :: up =>
      { w with link := Function.update w.link i { w.link i with up } }.charDoes (some i)
        (interPartyParseFrommap conf.partyShareLevel w.server m)
  | .mapReceives i =>
    match (w.link i).down with
    | [] => w
    | m :: down =>
      match (w.link i).map.intifParseReply m with
      -- the server has stopped: nothing is left of it
      | none => { w with link := Function.update w.link i {} }
      | some (map, up) =>
        let link := { map, up := (w.link i).up ++ up.map .inter, down }
        { w with link := Function.update w.link i link }
  | .deleted partyId accountId =>
    let r := parsePartyLeave w.server.db partyId accountId
    w.charDoes none ({ w.server with db := r.1 }, r.2.map FromInter.sends)

end

end Nezumi
