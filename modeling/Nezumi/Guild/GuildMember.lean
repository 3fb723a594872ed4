import Nezumi.Guild.GuildExp
import Nezumi.Guild.GuildServer

/-!
# Joining and leaving guilds (`map/guild.c`, `char/int_guild.c`)

A map server has a copy of each guild that it knows. Players join and leave guilds by requests to
the char-server, which answers. The messages of each direction arrive in order.

* `ToGuilds` and `FromGuilds` are the messages.
* `mapifParseGuildAddMember`, `mapifParseGuildLeave` and `guildCheckConflict` are what the
  char-server does.
* The functions of `GuildMap` are those of the map server, `guildReplyInvite`, `guildLeave` and
  `guildExplusion` for the players and `guildMemberAdded` to `guildBroken` for the answers.
* `GuildWorld` are the two servers with the messages under way, `memberStep` an event.

What the clients are told, alliances on the map server, castles and storages are left out.
-/

namespace Nezumi

/-- A player on the map server. -/
structure GuildSession where
  accountId : Int32
  charId : Int32
  name : CStr 24 := default
  hair : Int16 := 0
  hairColor : Int16 := 0
  sex : Int16 := 0
  class_ : Int16 := 0
  baseLevel : Int16 := 0
  guildId : Int32 := 0
  guildInvite : Int32 := 0
  guildInviteAccount : Int32 := 0
deriving DecidableEq

/-- A message to the char-server. -/
inductive ToGuilds where
  /-- 0x3032 -/
  | addMember (guildId : Int32) (m : GuildMemberRecord)
  /-- 0x3034 -/
  | leave (guildId accountId charId : Int32) (flag : UInt8) (mes : CStr 40)
  /-- 0x3038 -/
  | checkConflict (guildId accountId charId : Int32)

/-- A message to the map server. -/
inductive FromGuilds where
  /-- 0x3832. `flag` is set if there is no guild, or no place in it. -/
  | memberAdded (guildId accountId charId : Int32) (flag : UInt8)
  /-- 0x3834 -/
  | memberLeaved (guildId accountId charId : Int32) (flag : UInt8) (name : CStr 24)
      (mes : CStr 40)
  /-- 0x3831 -/
  | info (g : GuildRecord)
  /-- 0x3836 -/
  | broken (guildId : Int32) (flag : UInt8)

/-! ## The char-server (`int_guild.c`) -/

/-- `numdb_search` of a guild -/
def guildSearch (guilds : List GuildRecord) (guildId : Int32) : Option GuildRecord :=
  guilds.find? fun g => g.guildId = guildId

/-- A guild in the place of the one with its id. -/
def guildPut (guilds : List GuildRecord) (g : GuildRecord) : List GuildRecord :=
  guilds.map fun h => if h.guildId = g.guildId then g else h

/-- A slot for a new member. -/
def freeSlot (g : GuildRecord) : Option (Fin maxGuild) :=
  (List.finRange maxGuild).find? fun i =>
    i.val < g.maxMember.toInt ∧ (g.member i).accountId = 0

/-- `guild_calcinfo` of a guild that was `before`, with the message that it sends. -/
def calcinfoSends (conf : GuildConf) (before : GuildRecord) : List FromGuilds :=
  let g := guildCalcinfo conf before
  if g.maxMember ≠ before.maxMember ∨ g.guildLv ≠ before.guildLv ∨
      g.skillPoint ≠ before.skillPoint then [.info g] else []

/-- `mapif_parse_GuildAddMember` -/
def mapifParseGuildAddMember (conf : GuildConf) (guilds : List GuildRecord) (guildId : Int32)
    (m : GuildMemberRecord) : List GuildRecord × List FromGuilds :=
  let refused := (guilds, [.memberAdded guildId m.accountId m.charId 1])
  match guildSearch guilds guildId with
  | none => refused
  | some g =>
    if g.guildId ≤ 0 then refused
    else
      match freeSlot g with
      | none => refused
      | some i =>
        let g := { g with member := Function.update g.member i m }
        (guildPut guilds (guildCalcinfo conf g),
          .memberAdded guildId m.accountId m.charId 0 :: (calcinfoSends conf g ++
            [.info (guildCalcinfo conf g)]))

/-- A member that is driven out is entered in the list of these. The oldest one makes room. -/
def addExplusion (g : GuildRecord) (accountId : Int32) (name : CStr 24) (mes : CStr 40) :
    GuildRecord :=
  let enter := fun e : GuildExplusion => { e with accountId, acc := cstr 40 "dummy", name, mes }
  { g with
    explusion :=
      match Slots.first (fun e => e.accountId = 0) g.explusion with
      | some j => Function.update g.explusion j (enter (g.explusion j))
      | none => fun j =>
        if h : j.val + 1 < maxGuildExplusion then g.explusion ⟨j.val + 1, h⟩
        else enter (g.explusion j) }

/-- `mapif_parse_GuildLeave`, with `guild_check_empty` -/
def mapifParseGuildLeave (guilds : List GuildRecord) (guildId accountId charId : Int32)
    (flag : UInt8) (mes : CStr 40) : List GuildRecord × List FromGuilds :=
  match guildSearch guilds guildId with
  | none => (guilds, [])
  | some g =>
    if g.guildId ≤ 0 then (guilds, [])
    else
      match Slots.first (fun m => m.charId = charId) g.member with
      | none => (guilds, [])
      | some i =>
        let name := (g.member i).name
        let g := if flag ≠ 0 then addExplusion g accountId name mes else g
        let g := { g with member := Function.update g.member i {} }
        let leaved := FromGuilds.memberLeaved guildId accountId charId flag name mes
        if g.noMember then
          ((guildBreak { guilds } g.guildId).guilds, [leaved, .broken g.guildId 0])
        else (guildPut guilds g, [leaved, .info g])

/-- The loop of `guild_check_conflict_sub` over the members of a guild. It goes no further when the
guild is freed. -/
def conflictLoop (key accountId charId : Int32) (r : List GuildRecord × List FromGuilds)
    (i : Fin maxGuild) : List GuildRecord × List FromGuilds :=
  match guildSearch r.1 key with
  | none => r
  | some g =>
    if (g.member i).charId = charId then
      let r' := mapifParseGuildLeave r.1 key accountId charId 0 (cstr 40 "**Guild Data Bug**")
      (r'.1, r.2 ++ r'.2)
    else r

/-- `guild_check_conflict_sub` -/
def guildCheckConflictSub (guildId accountId charId : Int32)
    (r : List GuildRecord × List FromGuilds) (key : Int32) : List GuildRecord × List FromGuilds :=
  if key = guildId then r else (List.finRange maxGuild).foldl (conflictLoop key accountId charId) r

/-- `guild_check_conflict` -/
def guildCheckConflict (guilds : List GuildRecord) (guildId accountId charId : Int32) :
    List GuildRecord × List FromGuilds :=
  (guilds.map GuildRecord.guildId).foldl (guildCheckConflictSub guildId accountId charId)
    (guilds, [])

/-- `inter_guild_parse_frommap` -/
def interGuildParse (conf : GuildConf) (guilds : List GuildRecord) :
    ToGuilds → List GuildRecord × List FromGuilds
  | .addMember guildId m => mapifParseGuildAddMember conf guilds guildId m
  | .leave guildId accountId charId flag mes =>
    mapifParseGuildLeave guilds guildId accountId charId flag mes
  | .checkConflict guildId accountId charId => guildCheckConflict guilds guildId accountId charId

/-! ## The map server (`guild.c`) -/

/-- A guild on the map server. `sd` are the members that have a session. -/
structure GuildCopy where
  guild : GuildRecord
  sd : Fin maxGuild → Bool

/-- A member is erased. -/
def GuildCopy.erase (i : Fin maxGuild) (c : GuildCopy) : GuildCopy where
  guild := { c.guild with member := Function.update c.guild.member i {} }
  sd := Function.update c.sd i false

/-- Every member of the number is erased. -/
def GuildCopy.without (charId : Int32) (c : GuildCopy) : GuildCopy where
  guild := eraseMembers charId c.guild
  sd := fun i =>
    c.sd i && !decide (i.val < c.guild.maxMember.toInt ∧ (c.guild.member i).charId = charId)

/-- `guild_db` and the players. -/
structure GuildMap where
  guilds : List GuildCopy := []
  players : List GuildSession := []

/-- What stands in the memory beyond the positions of a guild, and how the servers are set up. -/
structure MemberConf extends GuildConf where
  beyond : GuildRecord → Int → Int32

/-- `position[ps].mode`, at any index. -/
def modeAt (conf : MemberConf) (g : GuildRecord) (ps : Int) : Int32 :=
  if h : 0 ≤ ps ∧ ps < maxGuildPosition then (g.position ⟨ps.toNat, toNat_lt_position h⟩).mode
  else conf.beyond g ps

namespace GuildMap

variable (s : GuildMap)

/-- `map_id2sd` -/
def id2sd (accountId : Int32) : Option GuildSession :=
  s.players.find? fun sd => sd.accountId = accountId

/-- `guild_search` -/
def search (guildId : Int32) : Option GuildCopy :=
  s.guilds.find? fun c => c.guild.guildId = guildId

/-- A change of the player of an account. -/
def setPlayer (accountId : Int32) (f : GuildSession → GuildSession) : GuildMap :=
  { s with players := s.players.map fun sd => if sd.accountId = accountId then f sd else sd }

/-- A change of a guild. -/
def setGuild (guildId : Int32) (f : GuildCopy → GuildCopy) : GuildMap :=
  { s with guilds := s.guilds.map fun c => if c.guild.guildId = guildId then f c else c }

/-- `guild_invite`. `war` says that one of the two stands where guilds are at war, `busy` that the
other one has an invitation to a party or a trade that is looked at. -/
def guildInvite (accountId target : Int32) (war busy : Bool) : GuildMap :=
  match s.id2sd accountId, s.id2sd target with
  | some sd, some tsd =>
    match s.search sd.guildId with
    | none => s
    | some c =>
      if war ∨ busy ∨ 0 < tsd.guildId ∨ 0 < tsd.guildInvite ∨ freeSlot c.guild = none then s
      else
        s.setPlayer target fun tsd =>
          { tsd with guildInvite := sd.guildId, guildInviteAccount := sd.accountId }
  | _, _ => s

/-- No invitation is waiting any more. -/
def uninvited (sd : GuildSession) : GuildSession :=
  { sd with guildInvite := 0, guildInviteAccount := 0 }

/-- `guild_makemember` -/
def guildMakemember (sd : GuildSession) : GuildMemberRecord where
  accountId := sd.accountId
  charId := sd.charId
  hair := sd.hair
  hairColor := sd.hairColor
  gender := sd.sex
  class_ := sd.class_
  lv := sd.baseLevel
  position := Int16.ofNat (maxGuildPosition - 1)
  name := sd.name

/-- `guild_reply_invite`. The invitation stays until the answer of the char-server. -/
def guildReplyInvite (sd : GuildSession) (guildId : Int32) (flag : Int) :
    GuildMap × List ToGuilds :=
  match s.id2sd sd.guildInviteAccount with
  | none => (s, [])
  | some tsd =>
    if sd.guildInvite ≠ guildId then (s, [])
    else if flag ≠ 1 then (s.setPlayer sd.accountId uninvited, [])
    else
      match s.search tsd.guildId with
      | none => (s.setPlayer sd.accountId uninvited, [])
      | some c =>
        match freeSlot c.guild with
        | none => (s.setPlayer sd.accountId uninvited, [])
        | some _ => (s, [.addMember sd.guildInvite (guildMakemember sd)])

/-- `guild_member_added` -/
def guildMemberAdded (guildId accountId charId : Int32) (flag : UInt8) :
    GuildMap × List ToGuilds :=
  let failure := if flag = 0 then
      [.leave guildId accountId charId 0 (cstr 40 "* Failure of register *")]
    else []
  match s.search guildId with
  | none => (s, [])
  | some _ =>
    match s.id2sd accountId with
    | none => (s, failure)
    | some sd =>
      if sd.guildInvite = 0 then (s, failure)
      else if flag = 1 then (s.setPlayer accountId uninvited, [])
      else
        (s.setPlayer accountId fun sd => { uninvited sd with guildId },
          [.checkConflict guildId sd.accountId sd.charId])

/-- `guild_leave`, of the guild, the account and the character in the packet of a player. `war` says
that the player stands where guilds are at war. -/
def guildLeave (sd : GuildSession) (guildId accountId charId : Int32) (war : Bool)
    (mes : CStr 40) : List ToGuilds :=
  if sd.accountId ≠ accountId ∨ sd.charId ≠ charId ∨ sd.guildId ≠ guildId then []
  else
    match s.search guildId with
    | none => []
    | some c =>
      if war then [.leave guildId accountId charId 1 mes]
      else if (guildGetindex c.guild charId).isSome then [.leave guildId accountId charId 0 mes]
      else []

/-- `guild_explusion`, of the guild, the account and the character in the packet of a player. -/
def guildExplusion (conf : MemberConf) (sd : GuildSession) (guildId accountId charId : Int32)
    (mes : CStr 40) : GuildMap × List ToGuilds :=
  if sd.guildId ≠ guildId then (s, [])
  else
    match s.search guildId with
    | none => (s, [])
    | some c =>
      let ps := guildGetposition c.guild sd.charId
      if ps < 0 ∨ modeAt conf c.guild ps &&& 0x0010 = 0 then (s, [])
      else
        match guildGetindex c.guild charId with
        | none => (s, [])
        | some i =>
          (s.setGuild guildId (GuildCopy.erase i),
            [.leave c.guild.guildId accountId charId 1 mes])

/-- `guild_member_leaved` -/
def guildMemberLeaved (guildId accountId charId : Int32) : GuildMap :=
  (s.setGuild guildId (GuildCopy.without charId)).setPlayer accountId fun sd =>
    if sd.guildId = guildId ∧ sd.charId = charId then { sd with guildId := 0 } else sd

/-- `guild_check_member` -/
def guildCheckMember (g : GuildRecord) : GuildMap :=
  { s with
    players := s.players.map fun sd =>
      if sd.guildId = g.guildId ∧ ∀ i, (g.member i).charId ≠ sd.charId then
        { sd with guildId := 0 }
      else sd }

/-- The copy that `guild_recv_info` makes. -/
def copyOf (g : GuildRecord) : GuildCopy where
  guild := g
  sd i := i.val < g.maxMember.toInt ∧ 0 < (g.member i).accountId ∧
    (s.id2sd (g.member i).accountId).any fun sd =>
      sd.charId = (g.member i).charId ∧ sd.guildId = g.guildId

/-- `guild_recv_info` -/
def guildRecvInfo (g : GuildRecord) : GuildMap :=
  match s.search g.guildId with
  | none =>
    let s := s.guildCheckMember g
    { s with guilds := s.guilds ++ [s.copyOf g] }
  | some _ => s.setGuild g.guildId fun _ => s.copyOf g

/-- `guild_broken` -/
def guildBroken (guildId : Int32) (flag : UInt8) : GuildMap :=
  match s.search guildId with
  | none => s
  | some c =>
    if flag ≠ 0 then s
    else
      { guilds := s.guilds.filter fun c => c.guild.guildId ≠ guildId
        players := s.players.map fun sd =>
          if ∃ i : Fin maxGuild, i.val < c.guild.maxMember.toInt ∧ c.sd i ∧
              (c.guild.member i).accountId = sd.accountId then { sd with guildId := 0 }
          else sd }

/-- `intif_parse` -/
def intifParseGuild : FromGuilds → GuildMap × List ToGuilds
  | .memberAdded guildId accountId charId flag => s.guildMemberAdded guildId accountId charId flag
  | .memberLeaved guildId accountId charId .. => (s.guildMemberLeaved guildId accountId charId, [])
  | .info g => (s.guildRecvInfo g, [])
  | .broken guildId flag => (s.guildBroken guildId flag, [])

end GuildMap

/-! ## Both servers -/

/-- The servers, and the messages under way, oldest first. -/
structure GuildWorld where
  map : GuildMap := {}
  guilds : List GuildRecord := []
  up : List ToGuilds := []
  down : List FromGuilds := []

/-- What a player asks for, with what its client sends, and the arrival of a message. -/
inductive MemberEvent where
  | invite (accountId target : Int32) (war busy : Bool)
  | replyInvite (sd guildId : Int32) (flag : Int)
  | leave (sd guildId accountId charId : Int32) (war : Bool) (mes : CStr 40)
  | explusion (sd guildId accountId charId : Int32) (mes : CStr 40)
  | charReceives
  | mapReceives

/-- The map server does something for the player of an account. -/
def GuildWorld.served (w : GuildWorld) (accountId : Int32)
    (f : GuildSession → GuildMap × List ToGuilds) : GuildWorld :=
  match w.map.id2sd accountId with
  | none => w
  | some sd => { w with map := (f sd).1, up := w.up ++ (f sd).2 }

def memberStep (conf : MemberConf) (w : GuildWorld) : MemberEvent → GuildWorld
  | .invite accountId target war busy =>
    { w with map := w.map.guildInvite accountId target war busy }
  | .replyInvite sd guildId flag => w.served sd fun sd => w.map.guildReplyInvite sd guildId flag
  | .leave sd guildId accountId charId war mes =>
    w.served sd fun sd => (w.map, w.map.guildLeave sd guildId accountId charId war mes)
  | .explusion sd guildId accountId charId mes =>
    w.served sd fun sd => w.map.guildExplusion conf sd guildId accountId charId mes
  | .charReceives =>
    match w.up with
    | [] => w
    | m :: up =>
      let r := interGuildParse conf.toGuildConf w.guilds m
      { w with guilds := r.1, up, down := w.down ++ r.2 }
  | .mapReceives =>
    match w.down with
    | [] => w
    | m :: down =>
      let r := w.map.intifParseGuild m
      { w with map := r.1, up := w.up ++ r.2, down }

end Nezumi
