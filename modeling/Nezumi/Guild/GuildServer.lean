import Nezumi.Guild.GuildText

/-!
# The guilds of the char-server (`char/int_guild.c`)

`GuildServer` is `guild_db`, a guild for each id, and the next id.

* `guildCalcinfo` is the function of the same name: the levels that the experience gives, and the
  number of places. `levelUps_ended` says that its loop comes to an end.
* `mapifParseCreateGuild`, `mapifParseGuildInfo`, `mapifParseGuildExp` and `mapifParseGuildSkillUp`
  are what the requests of the map server do.
* `interGuildRestart` is `inter_guild_save` and then `inter_guild_init`, line by line.

Answers, and the numbers of connected members that only they have, are left out.
-/

namespace Nezumi

open Scanf

def gdSkillbase : Nat := 10000
def gdExtension : Nat := 10004

/-- What is read at the start: the experience of the levels (`exp_guild.txt`), and the places that a
level of the extension brings. -/
structure GuildConf where
  guildExp : Fin 100 → Int32
  guildExtensionBonus : Int
  bonus_le : 0 ≤ guildExtensionBonus ∧ guildExtensionBonus ≤ 6

structure GuildServer where
  guilds : List GuildRecord := []
  guildNewid : Int32 := 10000

section Calcinfo

variable (conf : GuildConf)

/-- `guild_nextexp` -/
def guildNextexp (level : Int) : Int32 :=
  if h : level < 100 ∧ 0 < level then conf.guildExp ⟨(level - 1).toNat, by omega⟩ else 0

/-- `guild_checkskill` -/
def guildCheckskill (g : GuildRecord) (id : Int) : Int :=
  let idx := id - gdSkillbase
  if h : idx < 0 ∨ idx ≥ maxGuildSkill then 0 else (g.skill ⟨idx.toNat, by omega⟩).lv.toInt

/-- The loop of `guild_calcinfo`. No guild has more than 100 levels. -/
def levelUps : ℕ → GuildRecord → GuildRecord
  | 0, g => g
  | fuel + 1, g =>
    let nextexp := guildNextexp conf g.guildLv.toInt
    if nextexp ≤ g.exp ∧ 0 < nextexp then
      levelUps fuel { g with
        exp := g.exp - nextexp, guildLv := g.guildLv + 1, skillPoint := g.skillPoint + 1 }
    else g

/-- The id of a skill, by its place. -/
def skillWithId (i : Fin maxGuildSkill) (s : GuildSkill) : GuildSkill :=
  { s with id := Int16.ofInt (i.val + gdSkillbase) }

@[simp] theorem skillWithId_lv (i : Fin maxGuildSkill) (s : GuildSkill) :
    (skillWithId i s).lv = s.lv := by
  unfold skillWithId
  rfl

/-- `guild_calcinfo` -/
def guildCalcinfo (g : GuildRecord) : GuildRecord :=
  let g := { g with skill := fun i => skillWithId i (g.skill i) }
  let g := if g.guildLv ≤ 0 then { g with guildLv := 1 } else g
  let g := levelUps conf 100 g
  { g with
    maxMember := Int16.ofInt (16 + guildCheckskill g gdExtension * conf.guildExtensionBonus) }

end Calcinfo

namespace GuildServer

variable (s : GuildServer)

/-- `numdb_search` of a guild, and a change of it. -/
def update (guildId : Int32) (f : GuildRecord → GuildRecord) : GuildServer :=
  { s with guilds := s.guilds.map fun g => if g.guildId = guildId then f g else g }

/-- `numdb_insert` -/
def insert (g : GuildRecord) : GuildServer :=
  { s with guilds := s.guilds.filter (fun h => h.guildId ≠ g.guildId) ++ [g] }

end GuildServer

/-- `guild_break_sub` -/
def guildBreakSub (guildId : Int32) (g : GuildRecord) : GuildRecord :=
  { g with
    alliance := fun i =>
      if (g.alliance i).guildId = guildId then { g.alliance i with guildId := 0 }
      else g.alliance i }

/-- A guild is broken: the alliances with it are dissolved, and it is no longer there. -/
def guildBreak (s : GuildServer) (guildId : Int32) : GuildServer :=
  { s with guilds := (s.guilds.map (guildBreakSub guildId)).filter fun g => g.guildId ≠ guildId }

/-- A guild in which there is nobody, as `guild_check_empty` sees it. -/
def GuildRecord.noMember (g : GuildRecord) : Bool :=
  (List.finRange maxGuild).all fun i => ¬ (i.val < g.maxMember.toInt ∧ (g.member i).used)

/-! ## Requests of the map server -/

/-- A byte that no guild name has. -/
def badNameByte (c : UInt8) : Bool := c &&& 0xe0 = 0 || c = 0x7f

/-- The guild that `mapif_parse_CreateGuild` makes. -/
def newGuild (guildId : Int32) (name : CStr 24) (master : GuildMemberRecord) : GuildRecord where
  guildId
  name
  master := master.name
  member := Slots.putAt (fun _ => {}) 0 master
  position i := { mode := if i.val = 0 then 0x11 else 0, name := defaultPositionName i }
  maxMember := 16
  skill i := skillWithId i {}

/-- `mapif_parse_CreateGuild` -/
def mapifParseCreateGuild (s : GuildServer) (name : CStr 24) (master : GuildMemberRecord) :
    GuildServer :=
  if name.bytes.any badNameByte then s
  else if s.guilds.any fun g => strcasecmp g.name name then s
  else
    { GuildServer.insert s (newGuild s.guildNewid name master) with guildNewid := s.guildNewid + 1 }

/-- `mapif_parse_GuildInfo` -/
def mapifParseGuildInfo (conf : GuildConf) (s : GuildServer) (guildId : Int32) : GuildServer :=
  s.update guildId fun g => if 0 < g.guildId then guildCalcinfo conf g else g

/-- Experience is added, and does not become negative. -/
def addExp (x exp : Int32) : Int32 := if x + exp < 0 then 0x7FFFFFFF else x + exp

/-- The `GMI_EXP` of `mapif_parse_GuildMemberInfoChange`: the experience of a guild and of a member.
-/
def gainExp (conf : GuildConf) (accountId charId exp : Int32) (g : GuildRecord) : GuildRecord :=
  match (List.finRange maxGuild).find? fun i =>
    i.val < g.maxMember.toInt ∧ (g.member i).accountId = accountId ∧
      (g.member i).charId = charId with
  | none => g
  | some i => guildCalcinfo conf { g with
      exp := addExp g.exp exp
      member := Slots.putAt g.member i
        { g.member i with exp := addExp (g.member i).exp exp } }

def mapifParseGuildExp (conf : GuildConf) (s : GuildServer) (guildId accountId charId exp : Int32) :
    GuildServer := s.update guildId (gainExp conf accountId charId exp)

/-- A level of a skill is bought. -/
def buySkill (conf : GuildConf) (idx : Fin maxGuildSkill) (g : GuildRecord) : GuildRecord :=
  if 0 < g.skillPoint ∧ 0 < (g.skill idx).id ∧ (g.skill idx).lv < 10 then
    guildCalcinfo conf { g with
      skill := Function.update g.skill idx { g.skill idx with lv := (g.skill idx).lv + 1 }
      skillPoint := g.skillPoint - 1 }
  else g

/-- `mapif_parse_GuildSkillUp` -/
def mapifParseGuildSkillUp (conf : GuildConf) (s : GuildServer) (guildId : Int32) (skillNum : Int) :
    GuildServer :=
  let idx := skillNum - gdSkillbase
  if h : idx < 0 ∨ idx ≥ maxGuildSkill then s
  else s.update guildId (buySkill conf ⟨idx.toNat, by omega⟩)

/-! ## Saving and loading -/

/-- The id of a line that is not a guild but the next id. -/
def newidOf (line : List UInt8) : Option Int32 :=
  match sscanf newidFormat line with
  | ([.int i], some _) => some i
  | _ => none

/-- A line of the guild file in `inter_guild_init`. -/
def interGuildLine (conf : GuildConf) (s : GuildServer) (line : List UInt8) : GuildServer :=
  match newidOf line with
  | some i => { s with guildNewid := if s.guildNewid < i then i else s.guildNewid }
  | none =>
    match interGuildFromstr conf.guildExtensionBonus line with
    | none => s
    | some g =>
      if 0 < g.guildId then
        let s := { s.insert g with
          guildNewid := if s.guildNewid ≤ g.guildId then g.guildId + 1 else s.guildNewid }
        -- The guild itself is freed by `guild_check_empty`.
        if g.noMember then guildBreak s g.guildId else s.update g.guildId (guildCalcinfo conf)
      else s

/-- `inter_guild_save`, and `inter_guild_init` at the next start. -/
def interGuildRestart (conf : GuildConf) (s : GuildServer) : GuildServer :=
  (s.guilds.map interGuildTostr).foldl (interGuildLine conf) {}

/-! ## The loop over the levels -/

section Levels

variable {conf : GuildConf} {g : GuildRecord} {fuel : ℕ}

/-- A level that has experience to be reached is not the last one. -/
theorem level_of_nextexp {level : Int} (h : 0 < guildNextexp conf level) :
    0 < level ∧ level < 100 := by
  unfold guildNextexp at h
  split at h
  · rename_i hlevel
    exact ⟨hlevel.2, hlevel.1⟩
  · exact absurd h (by decide)

theorem toInt_succ {x : Int16} (h : x.toInt < 2 ^ 15 - 1) : (x + 1).toInt = x.toInt + 1 := by
  have hlo := (toInt16_bounds x).1
  rw [Int16.toInt_add, show (1 : Int16).toInt = 1 from rfl,
    Int.bmod_eq_of_le (by omega) (by omega)]

theorem toInt_pred {x : Int16} (h : -2 ^ 15 < x.toInt) : (x - 1).toInt = x.toInt - 1 := by
  have hhi := (toInt16_bounds x).2
  rw [Int16.toInt_sub, show (1 : Int16).toInt = 1 from rfl,
    Int.bmod_eq_of_le (by omega) (by omega)]

/-- **The loop comes to an end**: there is not experience enough for one more level. -/
theorem levelUps_ended (hlv : 0 < g.guildLv.toInt) (hfuel : 100 - g.guildLv.toInt ≤ fuel) :
    ¬ (guildNextexp conf (levelUps conf fuel g).guildLv.toInt ≤ (levelUps conf fuel g).exp ∧
      0 < guildNextexp conf (levelUps conf fuel g).guildLv.toInt) := by
  induction fuel generalizing g with
  | zero =>
    rintro ⟨-, hpos⟩
    have hlevel := level_of_nextexp hpos
    change _ ∧ g.guildLv.toInt < 100 at hlevel
    omega
  | succ fuel ih =>
    rw [levelUps]
    split
    · rename_i hmore
      have hlevel := level_of_nextexp hmore.2
      have hsucc := toInt_succ (x := g.guildLv) (by omega)
      exact ih (by dsimp only; omega) (by dsimp only; omega)
    · rename_i hstop
      exact hstop

/-- **What the loop does**: each level brings a point, and nothing else of the guild changes. -/
theorem levelUps_spec (conf : GuildConf) (fuel : ℕ)
    (hlv : 1 ≤ g.guildLv.toInt ∧ g.guildLv.toInt ≤ 100)
    (hpoint : g.skillPoint.toInt ≤ 2 * g.guildLv.toInt) :
    ∃ exp lv point, levelUps conf fuel g =
        { g with exp := exp, guildLv := lv, skillPoint := point } ∧
      point.toInt - g.skillPoint.toInt = lv.toInt - g.guildLv.toInt ∧
      g.guildLv.toInt ≤ lv.toInt ∧ lv.toInt ≤ 100 := by
  induction fuel generalizing g with
  | zero => exact ⟨g.exp, g.guildLv, g.skillPoint, rfl, by omega, le_rfl, hlv.2⟩
  | succ fuel ih =>
    rw [levelUps]
    split
    · rename_i hmore
      have hlevel := level_of_nextexp hmore.2
      have hsucc := toInt_succ (x := g.guildLv) (by omega)
      have hpsucc := toInt_succ (x := g.skillPoint) (by omega)
      obtain ⟨exp, lv, point, heq, hdiff, hle, hmax⟩ := ih
        (g := { g with
          exp := g.exp - guildNextexp conf g.guildLv.toInt
          guildLv := g.guildLv + 1
          skillPoint := g.skillPoint + 1 })
        (by dsimp only; omega) (by dsimp only; omega)
      dsimp only at hdiff hle
      exact ⟨exp, lv, point, heq, by omega, by omega, hmax⟩
    · exact ⟨g.exp, g.guildLv, g.skillPoint, rfl, by omega, le_rfl, hlv.2⟩

/-- The extension has the level it had. -/
theorem checkskill_counted (exp : Int32) (lv point : Int16) (id : ℤ) :
    guildCheckskill { g with
        exp := exp, guildLv := lv, skillPoint := point
        skill := fun i => skillWithId i (g.skill i) } id = guildCheckskill g id := by
  unfold guildCheckskill skillWithId
  rfl

end Levels

end Nezumi
