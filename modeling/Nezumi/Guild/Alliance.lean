import Nezumi.Guild.GuildServer
import Nezumi.Lib.Run
import Nezumi.Lib.Ties

/-!
# Alliances and oppositions (`map/guild.c`, `char/int_guild.c`)

A guild lists the guilds it is allied with and those it opposes in one table of 16 slots. An
alliance is listed by both guilds, an opposition by the one that has declared it.

* `mapifParseGuildAlliance` is the function of the same name on the char-server, and
  `mapifParseBreakGuild` is what the end of a guild does to the others.
* `guildReqalliance`, `guildReplyReqalliance`, `guildDelalliance` and `guildOpposition` are the
  requests of players on the map server. They look at its copies of the guilds, which are those of
  the char-server when a request starts, and send messages, which are handled in order.
-/

namespace Nezumi

/-- What a player on the map server is to alliances. -/
structure AlliancePlayer where
  guildId : Int32
  guildAlliance : Int32 := 0
  deriving DecidableEq

/-- The guilds of the char-server by their ids, and the players of the map server by their accounts.
-/
structure AllianceWorld where
  guilds : Int32 → Option GuildRecord := fun _ => none
  players : Int32 → Option AlliancePlayer := fun _ => none
  agitFlag : Bool := false

/-- `flag & 1`: an opposition -/
def oppositionBit (flag : BitVec 32) : Bool := flag.getLsbD 0

/-- `flag & 0x8`: a relation that ends -/
def endBit (flag : BitVec 32) : Bool := flag.getLsbD 3

/-- `opposition` of a relation of a kind -/
def oppositionOf (flag : BitVec 32) : Int32 := if oppositionBit flag then 1 else 0

/-! ## The char-server -/

/-- A relation with another guild is entered, into the first slot that is free. -/
def addAlliance (flag : BitVec 32) (other g : GuildRecord) : GuildRecord :=
  { g with
    alliance := Ties.put GuildAlliance.guildId 0 g.alliance
      { guildId := other.guildId, name := other.name, opposition := oppositionOf flag } }

/-- The first relation of a kind with another guild ends. -/
def endAlliance (flag : BitVec 32) (other g : GuildRecord) : GuildRecord :=
  { g with
    alliance := Ties.clear GuildAlliance.guildId GuildAlliance.opposition
      (fun a => { a with guildId := 0 }) g.alliance other.guildId (oppositionOf flag) }

/-- What `mapif_parse_GuildAlliance` does to one of the two guilds. -/
def changeAlliance (flag : BitVec 32) (other g : GuildRecord) : GuildRecord :=
  if endBit flag then endAlliance flag other g else addAlliance flag other g

/-- A message to the char-server. -/
structure AllianceMessage where
  guildId1 : Int32
  guildId2 : Int32
  flag : BitVec 32

/-- `mapif_parse_GuildAlliance`. The two guilds may be the same one. -/
def mapifParseGuildAlliance (guilds : Int32 → Option GuildRecord) (m : AllianceMessage) :
    Int32 → Option GuildRecord :=
  if m.guildId1 ≤ 0 ∨ m.guildId2 ≤ 0 then guilds
  else
    match guilds m.guildId1, guilds m.guildId2 with
    | some g1, some g2 =>
      if g1.guildId = 0 ∨ g2.guildId = 0 then guilds
      else
        let guilds := Function.update guilds m.guildId1 (some (changeAlliance m.flag g2 g1))
        if oppositionBit m.flag then guilds
        else
          Function.update guilds m.guildId2 ((guilds m.guildId2).map (changeAlliance m.flag g1))
    | _, _ => guilds

/-- `mapif_parse_BreakGuild` -/
def mapifParseBreakGuild (guilds : Int32 → Option GuildRecord) (guildId : Int32) :
    Int32 → Option GuildRecord :=
  if guilds guildId = none then guilds
  else fun i => if i = guildId then none else (guilds i).map (guildBreakSub guildId)

/-! ## The map server -/

/-- `guild_get_alliance_count` -/
def guildGetAllianceCount (g : GuildRecord) (flag : Int32) : ℕ :=
  Slots.card (fun a => 0 < a.guildId ∧ a.opposition = flag) g.alliance

namespace AllianceWorld

variable (w : AllianceWorld)

/-- A change of the player of an account. -/
def withPlayer (accountId : Int32) (f : AlliancePlayer → AlliancePlayer) : AllianceWorld :=
  { w with players := fun a => if a = accountId then (w.players a).map f else w.players a }

/-- Messages are handled in order. -/
def send (ms : List AllianceMessage) : AllianceWorld :=
  { w with guilds := ms.foldl mapifParseGuildAlliance w.guilds }

/-- Two players that are there. -/
def both (accountId account2 : Int32) : Option (AlliancePlayer × AlliancePlayer) := do
  let sd ← w.players accountId
  let tsd ← w.players account2
  pure (sd, tsd)

end AllianceWorld

/-- `guild_reqalliance`. A request goes on where a guild has too many allies. -/
def guildReqalliance (w : AllianceWorld) (accountId account2 : Int32) : AllianceWorld :=
  match w.both accountId account2 with
  | none => w
  | some (sd, tsd) =>
    if sd.guildId ≤ 0 ∨ w.agitFlag ∨ tsd.guildId ≤ 0 then w
    else
      match w.guilds sd.guildId, w.guilds tsd.guildId with
      | some g0, some _ =>
        if 0 < tsd.guildAlliance then w
        else if ∃ i, (g0.alliance i).guildId = tsd.guildId ∧ (g0.alliance i).opposition = 0 then w
        else w.withPlayer account2 fun tsd => { tsd with guildAlliance := sd.guildId }
      | _, _ => w

/-- The oppositions of a guild against another one are to end. -/
def endOppositions (g : GuildRecord) (guildId1 guildId2 : Int32) : List AllianceMessage :=
  ((List.ofFn g.alliance).filter fun a => a.guildId = guildId2 ∧ a.opposition = 1).map
    fun _ => ⟨guildId1, guildId2, 9⟩

/-- The guilds of a request that is accepted, if neither has too many allies. -/
def acceptedGuilds (w : AllianceWorld) (sd tsd : AlliancePlayer) (flag : Int32) :
    Option (GuildRecord × GuildRecord) :=
  if sd.guildAlliance ≠ tsd.guildId ∨ flag ≠ 1 then none
  else
    match w.guilds sd.guildId, w.guilds tsd.guildId with
    | some g1, some g2 =>
      if guildGetAllianceCount g1 0 > 3 ∨ guildGetAllianceCount g2 0 > 3 then none
      else some (g1, g2)
    | _, _ => none

/-- `guild_reply_reqalliance`. The answer of the char-server ends the request. -/
def guildReplyReqalliance (w : AllianceWorld) (accountId account2 flag : Int32) : AllianceWorld :=
  match w.both accountId account2 with
  | none => w
  | some (sd, tsd) =>
    match acceptedGuilds w sd tsd flag with
    | some (g1, g2) =>
      (w.send (endOppositions g1 sd.guildId tsd.guildId ++
        (endOppositions g2 tsd.guildId sd.guildId ++ [⟨sd.guildId, tsd.guildId, 0⟩]))).withPlayer
          accountId fun sd => { sd with guildAlliance := 0 }
    | none =>
      if sd.guildAlliance = tsd.guildId ∧ flag ≠ 1 then
        w.withPlayer accountId fun sd => { sd with guildAlliance := 0 }
      else w

/-- `guild_delalliance`. The flag is that of the client. -/
def guildDelalliance (w : AllianceWorld) (accountId guildId : Int32) (flag : BitVec 32) :
    AllianceWorld :=
  match w.players accountId with
  | none => w
  | some sd => if w.agitFlag then w else w.send [⟨sd.guildId, guildId, flag ||| 8⟩]

/-- The loop of `guild_opposition` over the table of the guild, and the message behind it. -/
def oppositionLoop (guildId1 guildId2 : Int32) : List GuildAlliance → List AllianceMessage
  | [] => [⟨guildId1, guildId2, 1⟩]
  | a :: as =>
    if a.guildId = guildId2 then
      if a.opposition = 1 then []
      else ⟨guildId1, guildId2, 8⟩ :: oppositionLoop guildId1 guildId2 as
    else oppositionLoop guildId1 guildId2 as

/-- `guild_opposition`. It goes on where the guild has too many oppositions. -/
def guildOpposition (w : AllianceWorld) (accountId account2 : Int32) : AllianceWorld :=
  match w.both accountId account2 with
  | none => w
  | some (sd, tsd) =>
    match w.guilds sd.guildId with
    | none => w
    | some g => w.send (oppositionLoop sd.guildId tsd.guildId (List.ofFn g.alliance))

/-! ## Runs -/

/-- What happens to guilds and players. -/
inductive AllianceEvent
  /-- a guild is made, under an id that no guild has -/
  | create (guildId : Int32) (name : CStr 24) (master : GuildMemberRecord)
  | enters (accountId guildId : Int32)
  | leaves (accountId : Int32)
  /-- a player joins or leaves a guild -/
  | changes (accountId guildId : Int32)
  | agit (flag : Bool)
  | request (accountId account2 : Int32)
  | reply (accountId account2 flag : Int32)
  | delete (accountId guildId : Int32) (flag : BitVec 32)
  | oppose (accountId account2 : Int32)
  | breakUp (guildId : Int32)

def allianceStep (w : AllianceWorld) : AllianceEvent → AllianceWorld
  | .create guildId name master =>
    if 0 < guildId ∧ w.guilds guildId = none then
      { w with guilds := Function.update w.guilds guildId (some (newGuild guildId name master)) }
    else w
  | .enters accountId guildId =>
    { w with players := Function.update w.players accountId (some { guildId }) }
  | .leaves accountId => { w with players := Function.update w.players accountId none }
  | .changes accountId guildId => w.withPlayer accountId fun sd => { sd with guildId }
  | .agit flag => { w with agitFlag := flag }
  | .request accountId account2 => guildReqalliance w accountId account2
  | .reply accountId account2 flag => guildReplyReqalliance w accountId account2 flag
  | .delete accountId guildId flag => guildDelalliance w accountId guildId flag
  | .oppose accountId account2 => guildOpposition w accountId account2
  | .breakUp guildId => { w with guilds := mapifParseBreakGuild w.guilds guildId }

end Nezumi
