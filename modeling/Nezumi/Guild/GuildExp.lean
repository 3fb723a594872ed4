import Nezumi.Guild.GuildText
import Nezumi.Lib.Run
import Nezumi.Lib.Tally

/-!
# The experience of a guild on the map server (`map/guild.c`)

What players earn for their guilds waits in `guild_expcache_db`, an entry for each character, until
`guild_payexp_timer` sends it to the char-server.

* `guildPayexp` and `guildGetexp` are the functions that take experience of a player.
* `guildPayexpTimerSub` and `guildPayexpTimer` are the timer. No more than 8192 entries are sent at
  a time, and none of a guild that is not known or of a character that is not in it.
* `guildMemberAdded` to `guildRecvNoinfo` are what the messages of the char-server about members do.
* `earned` and `reported` are records of what has been taken and what has been sent, for each guild
  and member.

The order of `numdb_foreach` is that of the entries.
-/

namespace Nezumi

open Scanf

/-- `GUILD_PAYEXP_LIST` -/
def guildPayexpList : ℕ := 8192

/-- What a player on the map server is to guilds. -/
structure GuildPlayer where
  charId : Int32
  guildId : Int32
  guildInvite : Int32 := 0
  deriving DecidableEq

/-- `struct guild_expcache` -/
structure GuildExpcache where
  guildId : Int32
  accountId : Int32
  charId : Int32
  exp : Int32
  deriving DecidableEq

/-- A member of a guild, who earns experience for it. -/
structure Earner where
  guildId : Int32
  accountId : Int32
  charId : Int32
  deriving DecidableEq

def GuildExpcache.earner (c : GuildExpcache) : Earner := ⟨c.guildId, c.accountId, c.charId⟩

/-- The map server: `guild_db`, the players by their accounts, and `guild_expcache_db`. -/
structure ExpWorld where
  guilds : Int32 → Option GuildRecord := fun _ => none
  players : Int32 → Option GuildPlayer := fun _ => none
  expcache : List GuildExpcache := []
  earned : Earner → ℤ := fun _ => 0
  reported : Earner → ℤ := fun _ => 0

/-- What does not change: the account of each character, and what stands in the memory beyond the
positions of a guild. -/
structure ExpConf where
  accountOf : Int32 → Int32
  beyond : GuildRecord → Int → Int32

/-! ## Taking experience -/

/-- `guild_getindex` -/
def guildGetindex (g : GuildRecord) (charId : Int32) : Option (Fin maxGuild) :=
  (List.finRange maxGuild).find? fun i =>
    i.val < g.maxMember.toInt ∧ (g.member i).charId = charId

/-- `guild_getposition` -/
def guildGetposition (g : GuildRecord) (charId : Int32) : Int :=
  match guildGetindex g charId with
  | none => -1
  | some i => (g.member i).position.toInt

namespace ExpWorld

variable (conf : ExpConf) (w : ExpWorld) (accountId : Int32)

/-- A player and its guild, if it has one that is known. -/
def guildOf : Option (GuildPlayer × GuildRecord) := do
  let sd ← w.players accountId
  if sd.guildId = 0 then none
  else do
    let g ← w.guilds sd.guildId
    pure (sd, g)

/-- The entry of a character gets experience. A new one is for the guild of the player. -/
def cacheExp (sd : GuildPlayer) (exp : Int32) : ExpWorld :=
  let e : Earner := ⟨sd.guildId, accountId, sd.charId⟩
  { w with
    expcache :=
      if w.expcache.any fun c => c.charId = sd.charId then
        w.expcache.map fun c => if c.charId = sd.charId then { c with exp := c.exp + exp } else c
      else w.expcache ++ [⟨sd.guildId, accountId, sd.charId, exp⟩]
    earned := Function.update w.earned e (w.earned e + exp.toInt) }

end ExpWorld

/-- `position[ps].exp_mode`, at any index. -/
def expModeAt (conf : ExpConf) (g : GuildRecord) (ps : Int) : Int32 :=
  if h : 0 ≤ ps ∧ ps < maxGuildPosition then (g.position ⟨ps.toNat, toNat_lt_position h⟩).expMode
  else conf.beyond g ps

/-- The percentage that a player gives to its guild. -/
def payPer (conf : ExpConf) (g : GuildRecord) (charId : Int32) : Int32 :=
  let per := expModeAt conf g (guildGetposition g charId)
  if 100 < per then 100 else per

/-- `guild_payexp`, with the experience that it takes -/
def guildPayexp (conf : ExpConf) (w : ExpWorld) (accountId guildExp : Int32) : ExpWorld × Int32 :=
  match w.guildOf accountId with
  | none => (w, 0)
  | some (sd, g) =>
    let per := payPer conf g sd.charId
    if per ≤ 0 then (w, 0)
    else
      let exp2 := guildExp * per / 100
      if exp2 ≤ 0 then (w, 0) else (w.cacheExp accountId sd exp2, exp2)

/-- `guild_getexp` -/
def guildGetexp (w : ExpWorld) (accountId guildExp : Int32) : ExpWorld × Int32 :=
  match w.guildOf accountId with
  | none => (w, 0)
  | some (sd, _) => (w.cacheExp accountId sd guildExp, guildExp)

/-! ## The timer -/

/-- A message to the char-server: `GMI_EXP` -/
structure ExpReport where
  guildId : Int32
  accountId : Int32
  charId : Int32
  exp : Int32

def ExpReport.earner (r : ExpReport) : Earner := ⟨r.guildId, r.accountId, r.charId⟩

/-- What a run of the timer has done so far. -/
structure Payment where
  guilds : Int32 → Option GuildRecord
  delp : ℕ := 0
  reports : List ExpReport := []
  left : List GuildExpcache := []

/-- A member gets experience, which does not become negative. -/
def addMemberExp (g : GuildRecord) (i : Fin maxGuild) (exp : Int32) : GuildRecord :=
  let sum := (g.member i).exp + exp
  let m := { g.member i with exp := if sum < 0 then 0x7FFFFFFF else sum }
  { g with member := Slots.putAt g.member i m }

/-- `guild_payexp_timer_sub` -/
def guildPayexpTimerSub (s : Payment) (c : GuildExpcache) : Payment :=
  let stay := { s with left := s.left ++ [c] }
  if s.delp ≥ guildPayexpList then stay
  else
    match s.guilds c.guildId with
    | none => stay
    | some g =>
      match guildGetindex g c.charId with
      | none => stay
      | some i =>
        { s with
          guilds := Function.update s.guilds c.guildId (some (addMemberExp g i c.exp))
          delp := s.delp + 1
          reports := s.reports ++ [⟨g.guildId, c.accountId, c.charId, c.exp⟩] }

/-- `guild_payexp_timer` -/
def guildPayexpTimer (w : ExpWorld) : ExpWorld :=
  let s := w.expcache.foldl guildPayexpTimerSub { guilds := w.guilds }
  { w with
    guilds := s.guilds
    expcache := s.left
    reported := fun e =>
      w.reported e + Tally.due ExpReport.earner (fun r => r.exp.toInt) s.reports e }

/-! ## Members -/

namespace ExpWorld

variable (w : ExpWorld)

/-- A change of the player of an account. -/
def withPlayer (accountId : Int32) (f : GuildPlayer → GuildPlayer) : ExpWorld :=
  { w with
    players := fun a => if a = accountId then (w.players a).map f else w.players a }

/-- A change of a guild. -/
def withGuild (guildId : Int32) (f : GuildRecord → GuildRecord) : ExpWorld :=
  { w with guilds := fun i => if i = guildId then (w.guilds i).map f else w.guilds i }

end ExpWorld

/-- The char-server has a player come to the map server. -/
def playerEnters (conf : ExpConf) (w : ExpWorld) (charId guildId : Int32) : ExpWorld :=
  { w with players := Function.update w.players (conf.accountOf charId) (some { charId, guildId }) }

def playerLeaves (w : ExpWorld) (accountId : Int32) : ExpWorld :=
  { w with players := Function.update w.players accountId none }

/-- `guild_invite`, of a player that is in no guild -/
def guildInvite (w : ExpWorld) (accountId guildId : Int32) : ExpWorld :=
  w.withPlayer accountId fun sd =>
    if 0 < sd.guildId ∨ 0 < sd.guildInvite then sd else { sd with guildInvite := guildId }

/-- `guild_member_added`. `flag` is set if the char-server has refused the member. -/
def guildMemberAdded (w : ExpWorld) (guildId accountId : Int32) (flag : Bool) : ExpWorld :=
  if w.guilds guildId = none then w
  else
    w.withPlayer accountId fun sd =>
      if sd.guildInvite = 0 then sd
      else if flag then { sd with guildInvite := 0 }
      else { sd with guildInvite := 0, guildId }

/-- Every member of the number is erased. -/
def eraseMembers (charId : Int32) (g : GuildRecord) : GuildRecord :=
  { g with
    member := fun i =>
      if i.val < g.maxMember.toInt ∧ (g.member i).charId = charId then {} else g.member i }

/-- `guild_member_leaved` -/
def guildMemberLeaved (w : ExpWorld) (guildId accountId charId : Int32) : ExpWorld :=
  (w.withGuild guildId (eraseMembers charId)).withPlayer accountId fun sd =>
    if sd.guildId = guildId ∧ sd.charId = charId then { sd with guildId := 0 } else sd

/-- The member that `guild_explusion` erases on the map server, before the char-server has heard of
it. -/
def guildExplusion (w : ExpWorld) (guildId charId : Int32) : ExpWorld :=
  w.withGuild guildId fun g =>
    match guildGetindex g charId with
    | none => g
    | some i => { g with member := Slots.putAt g.member i {} }

/-- `guild_check_member`, and what `guild_recv_info` does to the guild -/
def guildRecvInfo (w : ExpWorld) (sg : GuildRecord) : ExpWorld :=
  { w with
    guilds := Function.update w.guilds sg.guildId (some sg)
    players :=
      if (w.guilds sg.guildId).isSome then w.players
      else fun a => (w.players a).map fun sd =>
        if sd.guildId = sg.guildId ∧ ∀ i, (sg.member i).charId ≠ sd.charId then
          { sd with guildId := 0 }
        else sd }

/-- `guild_recv_noinfo` -/
def guildRecvNoinfo (w : ExpWorld) (guildId : Int32) : ExpWorld :=
  { w with
    players := fun a => (w.players a).map fun sd =>
      if sd.guildId = guildId then { sd with guildId := 0 } else sd }

/-! ## Runs -/

/-- What happens on the map server. -/
inductive ExpEvent
  /-- a player earns experience, of which its guild gets a part -/
  | payexp (accountId guildExp : Int32)
  /-- a player earns experience for its guild -/
  | getexp (accountId guildExp : Int32)
  | timer
  | enters (charId guildId : Int32)
  | leaves (accountId : Int32)
  | invite (accountId guildId : Int32)
  | memberAdded (guildId accountId : Int32) (flag : Bool)
  | memberLeaved (guildId accountId charId : Int32)
  | explusion (guildId charId : Int32)
  | recvInfo (sg : GuildRecord)
  | recvNoinfo (guildId : Int32)

def expStep (conf : ExpConf) (w : ExpWorld) : ExpEvent → ExpWorld
  | .payexp accountId guildExp => (guildPayexp conf w accountId guildExp).1
  | .getexp accountId guildExp => (guildGetexp w accountId guildExp).1
  | .timer => guildPayexpTimer w
  | .enters charId guildId => playerEnters conf w charId guildId
  | .leaves accountId => playerLeaves w accountId
  | .invite accountId guildId => guildInvite w accountId guildId
  | .memberAdded guildId accountId flag => guildMemberAdded w guildId accountId flag
  | .memberLeaved guildId accountId charId => guildMemberLeaved w guildId accountId charId
  | .explusion guildId charId => guildExplusion w guildId charId
  | .recvInfo sg => guildRecvInfo w sg
  | .recvNoinfo guildId => guildRecvNoinfo w guildId

end Nezumi
