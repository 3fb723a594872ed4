import Nezumi.Lib.Sizes
import Nezumi.Lib.Slots

/-!
# Parties on the map-server and the char-server (`map/party.c`, `char/int_party.c`)

The char-server keeps the member tables; the map-server keeps copies of them and the `party_id` of
each connected player. The packets between the two are `ToInter` (0x30xx) and `FromInter` (0x38xx).

* A party table is a list in the order of `numdb_foreach`. `partySearch`, `partyPut` and
  `partyErase` are the calls to `numdb`.
* Names are C strings of at most 24 bytes, so that `strncmp(.., 24)` is equality.
* `PartyMember.sd` says that the pointer to the player of the entry's account is set.
* What is only sent to clients is left out.
-/

namespace Nezumi

abbrev maxParty : Nat := 12

/-! ## `struct party` (`mmo.h`) -/

structure PartyMember where
  accountId : Int := 0
  name : String := ""
  map : String := ""
  leader : Bool := false
  online : Bool := false
  lv : Int := 0
  sd : Bool := false
  deriving DecidableEq

structure Party where
  partyId : Int
  name : String := ""
  exp : Nat := 0
  item : Nat := 0
  itemc : Nat := 0
  member : Fin maxParty → PartyMember := fun _ => {}

/-- What a member is known by. -/
def PartyMember.key (m : PartyMember) : Int × String := (m.accountId, m.name)

def partySearch (db : List Party) (partyId : Int) : Option Party :=
  db.find? fun p => p.partyId = partyId

/-- Writes through the pointer to a party. -/
def partyPut (db : List Party) (p : Party) : List Party :=
  db.map fun q => if q.partyId = p.partyId then p else q

def partyErase (db : List Party) (partyId : Int) : List Party :=
  db.filter fun p => p.partyId ≠ partyId

/-! ## The packets -/

/-- From the map-server to the char-server. -/
inductive ToInter where
  /-- 0x3022 -/
  | addMember (partyId accountId : Int) (nick map : String) (lv : Int)
  /-- 0x3024 -/
  | leave (partyId accountId : Int)
  /-- 0x3028 -/
  | checkConflict (partyId accountId : Int) (nick : String)

/-- From the char-server to the map-server. -/
inductive FromInter where
  /-- 0x3821 -/
  | info (p : Party)
  /-- 0x3822 -/
  | memberAdded (partyId accountId : Int) (flag : Nat)
  /-- 0x3823 -/
  | optionChanged (partyId accountId : Int) (exp item flag : Nat)
  /-- 0x3824 -/
  | memberLeaved (partyId accountId : Int) (name : String)
  /-- 0x3826 -/
  | broken (partyId : Int)

/-! ## The char-server (`int_party.c`)

Each function returns the table and the packets that it sends. -/

/-- `party_check_exp_share` -/
def partyCheckExpShare (partyShareLevel : Int) (p : Party) : Bool :=
  let lvs := ((List.finRange maxParty).filter fun i => (p.member i).online).map fun i =>
    (p.member i).lv
  let maxlv := lvs.foldl max 0
  let minlv := lvs.foldl min 0x7fffffff
  maxlv = 0 || maxlv - minlv ≤ partyShareLevel

/-- `party_check_empty`. The first component is the result. -/
def partyCheckEmpty (db : List Party) (p : Party) : Bool × List Party × List FromInter :=
  if p.partyId = 0 then (true, db, [])
  else if (Slots.first (fun m => 0 < m.accountId) p.member).isSome then (false, db, [])
  else (true, partyErase db p.partyId, [.broken p.partyId])

/-- `mapif_parse_PartyAddMember` -/
def parsePartyAddMember (partyShareLevel : Int) (db : List Party) (partyId accountId : Int)
    (nick map : String) (lv : Int) : List Party × List FromInter :=
  match partySearch db partyId with
  | none => (db, [.memberAdded partyId accountId 1])
  | some p =>
    match Slots.first (fun m => m.accountId = 0) p.member with
    | none => (db, [.memberAdded partyId accountId 1])
    | some i =>
      let m := { p.member i with accountId, name := nick, map, leader := false, online := true, lv }
      let p := { p with member := Function.update p.member i m }
      if 0 < p.exp ∧ ¬ partyCheckExpShare partyShareLevel p then
        (partyPut db { p with exp := 0 },
          [.memberAdded partyId accountId 0, .info p, .optionChanged partyId 0 0 p.item 0])
      else (partyPut db p, [.memberAdded partyId accountId 0, .info p])

/-- `mapif_parse_PartyLeave`. The first entry of the account is removed. -/
def parsePartyLeave (db : List Party) (partyId accountId : Int) : List Party × List FromInter :=
  match partySearch db partyId with
  | none => (db, [])
  | some p =>
    match Slots.first (fun m => m.accountId = accountId) p.member with
    | none => (db, [])
    | some i =>
      let leaved := .memberLeaved partyId accountId (p.member i).name
      let p := { p with member := Function.update p.member i {} }
      match partyCheckEmpty (partyPut db p) p with
      | (true, db, out) => (db, leaved :: out)
      | (false, db, out) => (db, leaved :: out ++ [FromInter.info p])

/-- `party_check_conflict_sub`, for one place of a party. After the party has been freed its entries
are zero, so that none of them is the player's. -/
def partyCheckConflictAt (accountId : Int) (nick : String) (key : Int)
    (r : List Party × List FromInter) (i : Fin maxParty) : List Party × List FromInter :=
  match partySearch r.1 key with
  | none => r
  | some p =>
    if (p.member i).accountId = accountId ∧ (p.member i).name = nick then
      let s := parsePartyLeave r.1 key accountId
      (s.1, r.2 ++ s.2)
    else r

/-- `party_check_conflict_sub` -/
def partyCheckConflictSub (partyId accountId : Int) (nick : String) (key : Int)
    (db : List Party) : List Party × List FromInter :=
  if key = partyId then (db, [])
  else (List.finRange maxParty).foldl (partyCheckConflictAt accountId nick key) (db, [])

/-- `party_check_conflict` -/
def partyCheckConflict (db : List Party) (partyId accountId : Int) (nick : String) :
    List Party × List FromInter :=
  (db.map Party.partyId).foldl (fun r key =>
    let s := partyCheckConflictSub partyId accountId nick key r.1
    (s.1, r.2 ++ s.2)) (db, [])

/-- `inter_party_parse_frommap` -/
def interPartyParse (partyShareLevel : Int) (db : List Party) :
    ToInter → List Party × List FromInter
  | .addMember partyId accountId nick map lv =>
    parsePartyAddMember partyShareLevel db partyId accountId nick map lv
  | .leave partyId accountId => parsePartyLeave db partyId accountId
  | .checkConflict partyId accountId nick => partyCheckConflict db partyId accountId nick

/-! ## The map-server (`party.c`) -/

/-- The fields of `struct map_session_data` that are read. -/
structure PartyPlayer where
  accountId : Int
  name : String
  map : String := ""
  baseLevel : Int := 1
  partyId : Int := 0
  partyInvite : Int := 0
  partyInviteAccount : Int := 0
  guildInvite : Int := 0
  tradePartner : Int := 0

/-- The connected players and the copies of the member tables. -/
structure PartyMap where
  players : List PartyPlayer
  db : List Party

namespace PartyMap

variable (s : PartyMap)

/-- `map_id2sd` -/
def id2sd (accountId : Int) : Option PartyPlayer :=
  s.players.find? fun sd => sd.accountId = accountId

/-- Writes to a player. -/
def setPlayer (accountId : Int) (f : PartyPlayer → PartyPlayer) : PartyMap :=
  { s with players := s.players.map fun sd => if sd.accountId = accountId then f sd else sd }

/-- `party_invite` -/
def partyInvite (inviteRequestCheck : Bool) (sd : PartyPlayer) (accountId : Int) : PartyMap :=
  match s.id2sd accountId, partySearch s.db sd.partyId with
  | some tsd, some p =>
    if ¬ inviteRequestCheck ∧ (0 < tsd.guildInvite ∨ tsd.tradePartner ≠ 0) then s
    else if 0 < tsd.partyId ∨ 0 < tsd.partyInvite then s
    else if (Slots.first (fun m => m.accountId = accountId ∧ m.name = tsd.name) p.member).isSome
      then s
    else s.setPlayer accountId fun tsd =>
      { tsd with partyInvite := sd.partyId, partyInviteAccount := sd.accountId }
  | _, _ => s

/-- `party_reply_invite` -/
def partyReplyInvite (sd : PartyPlayer) (flag : Nat) : PartyMap × List ToInter :=
  if flag = 1 then
    (s, [.addMember sd.partyInvite sd.accountId sd.name sd.map sd.baseLevel])
  else
    (s.setPlayer sd.accountId fun sd => { sd with partyInvite := 0, partyInviteAccount := 0 }, [])

/-- `party_leave` -/
def partyLeave (sd : PartyPlayer) : List ToInter :=
  match partySearch s.db sd.partyId with
  | none => []
  | some p =>
    match Slots.first (fun m => m.accountId = sd.accountId ∧ m.name = sd.name) p.member with
    | none => []
    | some _ => [.leave p.partyId sd.accountId]

/-- `party_removemember` -/
def partyRemovemember (sd : PartyPlayer) (accountId : Int) (name : String) : List ToInter :=
  match partySearch s.db sd.partyId with
  | none => []
  | some p =>
    if (Slots.first (fun m => m.accountId = sd.accountId ∧ m.name = sd.name ∧ ¬ m.leader)
        p.member).isSome then []
    else
      match Slots.first (fun m => m.accountId = accountId ∧ m.name = name) p.member with
      | none => []
      | some _ => [.leave p.partyId accountId]

/-- `party_member_added` with `party_check_conflict` -/
def partyMemberAdded (partyId accountId : Int) (flag : Nat) : PartyMap × List ToInter :=
  match s.id2sd accountId with
  | none => (s, if flag = 0 then [.leave partyId accountId] else [])
  | some sd =>
    let s := s.setPlayer accountId fun sd => { sd with partyInvite := 0, partyInviteAccount := 0 }
    if flag = 1 then (s, [])
    else
      (s.setPlayer accountId fun sd => { sd with partyId }, [.checkConflict partyId accountId sd.name])

/-- `party_member_leaved` -/
def partyMemberLeaved (partyId accountId : Int) (name : String) : PartyMap :=
  let s := match partySearch s.db partyId with
    | none => s
    | some p => { s with db := partyPut s.db { p with member := fun i =>
        if (p.member i).accountId = accountId ∧ (p.member i).name = name then {} else p.member i } }
  s.setPlayer accountId fun sd => if sd.partyId = partyId then { sd with partyId := 0 } else sd

/-- `party_check_member` -/
def partyCheckMember (p : Party) : PartyMap :=
  { s with players := s.players.map fun sd =>
      if sd.partyId = p.partyId ∧ (Slots.first (fun m => m.accountId = sd.accountId ∧
        m.name = sd.name) p.member).isNone then { sd with partyId := 0 } else sd }

/-- `party_recv_info` -/
def partyRecvInfo (sp : Party) : PartyMap :=
  let s := match partySearch s.db sp.partyId with
    | none => { s.partyCheckMember sp with db := s.db ++ [sp] }
    | some _ => s
  { s with db := partyPut s.db { sp with member := fun i =>
      { sp.member i with
        sd := (s.id2sd (sp.member i).accountId).any fun sd => sd.partyId = sp.partyId } } }

/-- `party_broken` -/
def partyBroken (partyId : Int) : PartyMap :=
  match partySearch s.db partyId with
  | none => s
  | some p =>
    let s := (List.finRange maxParty).foldl (fun s i =>
      if (p.member i).sd then s.setPlayer (p.member i).accountId fun sd => { sd with partyId := 0 }
      else s) s
    { s with db := partyErase s.db partyId }

/-- `party_optionchanged` -/
def partyOptionchanged (partyId : Int) (exp item flag : Nat) : PartyMap :=
  match partySearch s.db partyId with
  | none => s
  | some p =>
    let p := if flag &&& 0x01 = 0 then { p with exp } else p
    let p := if flag &&& 0x10 = 0 then { p with item } else p
    { s with db := partyPut s.db p }

/-- `intif_parse`, for the packets about parties -/
def intifParse : FromInter → PartyMap × List ToInter
  | .info p => (s.partyRecvInfo p, [])
  | .memberAdded partyId accountId flag => s.partyMemberAdded partyId accountId flag
  | .optionChanged partyId _ exp item flag => (s.partyOptionchanged partyId exp item flag, [])
  | .memberLeaved partyId accountId name => (s.partyMemberLeaved partyId accountId name, [])
  | .broken partyId => (s.partyBroken partyId, [])

end PartyMap

/-! ## Both servers -/

structure PartyConf where
  inviteRequestCheck : Bool := true
  partyShareLevel : Int := 10

/-- The servers and the packets under way between them, oldest first. -/
structure PartyWorld where
  map : PartyMap
  db : List Party
  up : List ToInter := []
  down : List FromInter := []

/-- A packet of a client, or the arrival of the oldest packet on either channel. -/
inductive PartyEvent where
  | invite (sd accountId : Int)
  | replyInvite (sd : Int) (flag : Nat)
  | leave (sd : Int)
  | removeMember (sd accountId : Int) (name : String)
  | charReceives
  | mapReceives

/-- A client packet is served for the player of the account, if there is one. -/
def PartyWorld.served (w : PartyWorld) (accountId : Int)
    (f : PartyPlayer → PartyMap × List ToInter) : PartyWorld :=
  match w.map.id2sd accountId with
  | none => w
  | some sd => { w with map := (f sd).1, up := w.up ++ (f sd).2 }

def partyStep (conf : PartyConf) (w : PartyWorld) : PartyEvent → PartyWorld
  | .invite sd accountId => w.served sd fun sd =>
    (w.map.partyInvite conf.inviteRequestCheck sd accountId, [])
  | .replyInvite sd flag => w.served sd fun sd => w.map.partyReplyInvite sd flag
  | .leave sd => w.served sd fun sd => (w.map, w.map.partyLeave sd)
  | .removeMember sd accountId name => w.served sd fun sd =>
    (w.map, w.map.partyRemovemember sd accountId name)
  | .charReceives =>
    match w.up with
    | [] => w
    | m :: up =>
      let r := interPartyParse conf.partyShareLevel w.db m
      { w with db := r.1, up, down := w.down ++ r.2 }
  | .mapReceives =>
    match w.down with
    | [] => w
    | m :: down =>
      let r := w.map.intifParse m
      { w with map := r.1, up := w.up ++ r.2, down }

end Nezumi
