import Nezumi.Common.Mmo
import Nezumi.Common.Text
import Nezumi.Lib.Fill

/-!
# The lines of the guild file (`char/int_guild.c`)

A guild is a line of `guild.txt`, of seven sections: the guild itself, its members, its positions,
its emblem, its alliances, its expulsions and its skills.

* `interGuildTostr` is the function of the same name, a section after the other.
* `interGuildFromstr` is the function of the same name. It reads the first four sections by `%n`,
  and steps over the tabs of the others by `strchr`. The texts are C strings, so that a line ends
  where its list of bytes does.

Fields that a line does not have are left out: the counts and sums over the connected members, and
`rsv1`, `rsv2`, `online` and `sd` of a member.
-/

namespace Nezumi

open Decimal Scanf

def maxGuild : Nat := 76
def maxGuildPosition : Nat := 20
def maxGuildAlliance : Nat := 16
def maxGuildExplusion : Nat := 32
def maxGuildSkill : Nat := 15

theorem toNat_lt_position {ps : ℤ} (h : 0 ≤ ps ∧ ps < maxGuildPosition) :
    ps.toNat < maxGuildPosition := by
  omega

/-- `struct guild_member` -/
structure GuildMemberRecord where
  accountId : Int32 := 0
  charId : Int32 := 0
  hair : Int16 := 0
  hairColor : Int16 := 0
  gender : Int16 := 0
  class_ : Int16 := 0
  lv : Int16 := 0
  exp : Int32 := 0
  expPayper : Int32 := 0
  position : Int16 := 0
  name : CStr 24 := default
  deriving DecidableEq

/-- `struct guild_position` -/
structure GuildPosition where
  name : CStr 24 := default
  mode : Int32 := 0
  expMode : Int32 := 0
  deriving DecidableEq

/-- `struct guild_alliance` -/
structure GuildAlliance where
  opposition : Int32 := 0
  guildId : Int32 := 0
  name : CStr 24 := default
  deriving DecidableEq

/-- `struct guild_explusion` -/
structure GuildExplusion where
  name : CStr 24 := default
  mes : CStr 40 := default
  acc : CStr 40 := default
  accountId : Int32 := 0
  rsv1 : Int32 := 0
  rsv2 : Int32 := 0
  rsv3 : Int32 := 0
  deriving DecidableEq

/-- `struct guild_skill` -/
structure GuildSkill where
  id : Int16 := 0
  lv : Int16 := 0
  deriving DecidableEq

/-- `struct guild` -/
structure GuildRecord where
  guildId : Int32 := 0
  guildLv : Int16 := 0
  maxMember : Int16 := 0
  exp : Int32 := 0
  skillPoint : Int16 := 0
  name : CStr 24 := default
  master : CStr 24 := default
  member : Fin maxGuild → GuildMemberRecord := fun _ => {}
  position : Fin maxGuildPosition → GuildPosition := fun _ => {}
  mes1 : CStr 60 := default
  mes2 : CStr 120 := default
  emblemLen : Int16 := 0
  emblemId : Int32 := 0
  emblemData : Fin 2048 → UInt8 := fun _ => 0
  alliance : Fin maxGuildAlliance → GuildAlliance := fun _ => {}
  explusion : Fin maxGuildExplusion → GuildExplusion := fun _ => {}
  skill : Fin maxGuildSkill → GuildSkill := fun _ => {}

/-! ## Writing -/

/-- A member that is saved: not a void one. -/
def GuildMemberRecord.used (m : GuildMemberRecord) : Bool := 0 < m.accountId

def GuildAlliance.used (a : GuildAlliance) : Bool := 0 < a.guildId

def GuildExplusion.used (e : GuildExplusion) : Bool := 0 < e.accountId

/-- The numbers of a member. -/
def GuildMemberRecord.ints (m : GuildMemberRecord) : List Int :=
  [m.accountId.toInt, m.charId.toInt, m.hair.toInt, m.hairColor.toInt, m.gender.toInt,
    m.class_.toInt, m.lv.toInt, m.exp.toInt, m.expPayper.toInt, m.position.toInt]

/-- `"%d,%d,%d,%d,%d,%d,%d,%d,%d,%d\t%s\t"` -/
def guildMemberText (m : GuildMemberRecord) : List UInt8 :=
  printInts m.ints ++ 9 :: (m.name.bytes ++ [9])

/-- `"%d,%d\t%s#\t"` -/
def guildPositionText (p : GuildPosition) : List UInt8 :=
  printInts [p.mode.toInt, p.expMode.toInt] ++ 9 :: (p.name.bytes ++ [35, 9])

/-- `"%d,%d\t%s\t"` -/
def guildAllianceText (a : GuildAlliance) : List UInt8 :=
  printInts [a.guildId.toInt, a.opposition.toInt] ++ 9 :: (a.name.bytes ++ [9])

/-- `"%d,%d,%d,%d\t%s\t%s\t%s#\t"` -/
def guildExplusionText (e : GuildExplusion) : List UInt8 :=
  printInts [e.accountId.toInt, e.rsv1.toInt, e.rsv2.toInt, e.rsv3.toInt] ++ 9 ::
    (e.name.bytes ++ 9 :: (e.acc.bytes ++ 9 :: (e.mes.bytes ++ [35, 9])))

/-- `"%d,%d "` -/
def guildSkillText (s : GuildSkill) : List UInt8 := printInts [s.id.toInt, s.lv.toInt] ++ [32]

/-- A digit of `"%02x"`. -/
def hexDigit (n : Nat) : UInt8 := if n < 10 then UInt8.ofNat (48 + n) else UInt8.ofNat (87 + n)

/-- `"%02x"` -/
def hexByte (b : UInt8) : List UInt8 := [hexDigit (b.toNat / 16), hexDigit (b.toNat % 16)]

namespace GuildRecord

variable (g : GuildRecord)

/-- The members that are saved: the first `max_member` places, without the void ones. -/
def savedMembers : List GuildMemberRecord :=
  (((List.finRange maxGuild).filter fun i => i.val < g.maxMember.toInt).map g.member).filter
    GuildMemberRecord.used

def savedAlliances : List GuildAlliance := (List.ofFn g.alliance).filter GuildAlliance.used

def savedExplusions : List GuildExplusion := (List.ofFn g.explusion).filter GuildExplusion.used

/-- The bytes of the emblem. -/
def emblem : List UInt8 := (List.ofFn g.emblemData).take g.emblemLen.toInt.toNat

/-- `"%d\t%s\t%s\t%d,%d,%d,%d,%d\t%s#\t%s#\t"`. The castle is no longer saved. -/
def headText : List UInt8 :=
  ofInt g.guildId.toInt ++ 9 :: (g.name.bytes ++ 9 :: (g.master.bytes ++ 9 ::
    (printInts [g.guildLv.toInt, g.maxMember.toInt, g.exp.toInt, g.skillPoint.toInt, -1] ++ 9 ::
      (g.mes1.bytes ++ 35 :: 9 :: (g.mes2.bytes ++ [35, 9])))))

/-- `"%d,%d,"`, the bytes of the emblem, and `"$\t"`. -/
def emblemText : List UInt8 :=
  printInts [g.emblemLen.toInt, g.emblemId.toInt] ++ 44 :: (g.emblem.flatMap hexByte ++ [36, 9])

end GuildRecord

/-- A section of entries with their number in front. -/
def countedText {α : Type} (text : α → List UInt8) (es : List α) : List UInt8 :=
  ofInt es.length ++ 9 :: es.flatMap text

/-- `inter_guild_tostr` -/
def interGuildTostr (g : GuildRecord) : List UInt8 :=
  g.headText ++ (g.savedMembers.flatMap guildMemberText ++
    ((List.ofFn g.position).flatMap guildPositionText ++ (g.emblemText ++
      (countedText guildAllianceText g.savedAlliances ++
        (countedText guildExplusionText g.savedExplusions ++
          ((List.ofFn g.skill).flatMap guildSkillText ++ [9]))))))

/-! ## Reading -/

/-- `"%d\t%[^\t]\t%[^\t]\t%d,%d,%d,%d,%d\t%[^\t]\t%[^\t]\t%n"` -/
def guildFormat : List Directive :=
  [Directive.int, .space, .upto 9, .space, .upto 9, .space] ++ (ints 5 ++
    [Directive.space, .upto 9, .space, .upto 9, .space])

/-- `"%d,%d,%d,%d,%d,%d,%d,%d,%d,%d\t%[^\t]\t%n"` -/
def guildMemberFormat : List Directive := ints 10 ++ [Directive.space, .upto 9, .space]

/-- `"%d,%d\t%[^\t]\t%n"`, and `"%d,%d\t%[^\t]\t"` of an alliance. -/
def guildPositionFormat : List Directive := ints 2 ++ [Directive.space, .upto 9, .space]

/-- `"%d,%d,%[^\t]\t%n"` -/
def emblemFormat : List Directive := ints 2 ++ [Directive.lit 44, .upto 9, .space]

/-- `"%d,%[^\t]\t%n"` -/
def oldEmblemFormat : List Directive := [.int, .lit 44, .upto 9, .space]

/-- `"%d,%d,%d,%d\t%[^\t]\t%[^\t]\t%[^\t]\t"` -/
def guildExplusionFormat : List Directive :=
  ints 4 ++ [Directive.space, .upto 9, .space, .upto 9, .space, .upto 9, .space]

/-- `"%d,%d "` -/
def guildSkillFormat : List Directive := ints 2 ++ [Directive.space]

/-- "suppress #" -/
def suppressHash (s : List UInt8) : List UInt8 := s.rdropWhile (· == 35)

/-- The two bounds of `max_member`. -/
def clampMembers (guildExtensionBonus : Int) (maxMember : Int16) : Int16 :=
  let m := if maxMember.toInt > maxGuild then Int16.ofInt maxGuild else maxMember
  if m.toInt > 16 + 10 * guildExtensionBonus then Int16.ofInt (16 + 10 * guildExtensionBonus) else m

/-- The position of a member, if there are that many. -/
def clampPosition (position : Int32) : Int16 :=
  if position.toInt ≥ maxGuildPosition then Int16.ofInt (maxGuildPosition - 1) else position.toInt16

/-- The first `sscanf` of `inter_guild_fromstr`. The last text is that of `mes1` without its `#`,
which stays in `tmp_str[2]`. With less than ten values, the place of the next section is not known.
-/
def fromstrHead (guildExtensionBonus : Int) (str : List UInt8) :
    Option (GuildRecord × List UInt8 × List UInt8) :=
  match sscanf guildFormat str with
  | ([.int guildId, .text name, .text master, .int guildLv, .int maxMember, .int exp,
      .int skillPoint, .int _, .text mes1, .text mes2], some rest) =>
    some ({ guildId
            guildLv := guildLv.toInt16
            maxMember := clampMembers guildExtensionBonus maxMember.toInt16
            exp
            skillPoint := skillPoint.toInt16
            name := CStr.ofField 24 name
            master := CStr.ofField 24 master
            mes1 := CStr.ofField 60 (suppressHash mes1)
            mes2 := CStr.ofField 120 (suppressHash mes2) }, rest, suppressHash mes1)
  | _ => none

/-- The loop over the members. A line has more bytes than members. -/
def fromstrGuildMembers : (fuel i : ℕ) → List UInt8 → GuildRecord → GuildRecord × List UInt8
  | 0, _, str, g => (g, str)
  | fuel + 1, i, str, g =>
    match sscanf guildMemberFormat str with
    | ([.int accountId, .int charId, .int hair, .int hairColor, .int gender, .int class_, .int lv,
        .int exp, .int expPayper, .int position, .text name], some rest) =>
      if i < g.maxMember.toInt ∧ 0 < accountId then
        let m := { accountId
                   charId
                   hair := hair.toInt16
                   hairColor := hairColor.toInt16
                   gender := gender.toInt16
                   class_ := class_.toInt16
                   lv := lv.toInt16
                   exp
                   expPayper
                   position := clampPosition position
                   name := CStr.ofField 24 name }
        fromstrGuildMembers fuel (i + 1) rest { g with member := Slots.putAt g.member i m }
      else fromstrGuildMembers fuel i rest g
    | _ => (g, str)

/-- The name of a position that has none. -/
def defaultPositionName (i : ℕ) : CStr 24 :=
  if i = 0 then cstr 24 "GuildMaster"
  else if i = maxGuildPosition - 1 then cstr 24 "Newbie"
  else CStr.ofField 24 ((cstr 24 "Position ").bytes ++ ofInt (i + 1))

/-- The name of a position that has been read. -/
def positionName (i : ℕ) (s : List UInt8) : CStr 24 :=
  let name := CStr.ofField 24 (suppressHash s)
  if name.bytes = [] then defaultPositionName i else name

/-- The loop over the positions. -/
def fromstrGuildPositions : (fuel i : ℕ) → List UInt8 → GuildRecord → GuildRecord × List UInt8
  | 0, _, str, g => (g, str)
  | fuel + 1, i, str, g =>
    match sscanf guildPositionFormat str with
    | ([.int mode, .int expMode, .text name], some rest) =>
      if name.getLast? = some 35 then
        if i < maxGuildPosition then
          let p := { mode, expMode, name := positionName i name }
          fromstrGuildPositions fuel (i + 1) rest { g with position := Slots.putAt g.position i p }
        else fromstrGuildPositions fuel i rest g
      else (g, str)
    | _ => (g, str)

/-- The value of a digit, or zero. -/
def hexValue (c : UInt8) : Nat :=
  if 48 ≤ c ∧ c ≤ 57 then c.toNat - 48
  else if 97 ≤ c ∧ c ≤ 102 then c.toNat - 87
  else if 65 ≤ c ∧ c ≤ 70 then c.toNat - 55
  else 0

/-- `(x1 << 4) | x2` of two digits. -/
def unhexByte (c1 c2 : UInt8) : UInt8 := UInt8.ofNat (16 * hexValue c1 + hexValue c2)

/-- The emblem, of the line of it or of one without an id. The id that the first format has read
stays for the second one. -/
def fromstrEmblem (str : List UInt8) (g : GuildRecord) : Option (GuildRecord × List UInt8) :=
  let read (len id : Int32) (hex rest : List UInt8) : GuildRecord × List UInt8 :=
    ({ g with
      emblemLen := len.toInt16
      emblemId := id
      emblemData := fun i =>
        if i.val < len.toInt16.toInt then
          unhexByte (hex[2 * i.val]?.getD 0) (hex[2 * i.val + 1]?.getD 0)
        else 0 }, rest)
  match sscanf emblemFormat str with
  | ([.int len, .int id, .text hex], some rest) => some (read len id hex rest)
  | (vs, _) =>
    let id := match vs with
      | [_, .int id] => id
      | _ => 0
    match sscanf oldEmblemFormat str with
    | ([.int len, .text hex], some rest) => some (read len id hex rest)
    | _ => none

/-- The number of entries of a section: `"%d\t"`. -/
def fromstrCount (str : List UInt8) : Option Int32 :=
  match sscanf [.int, .space] str with
  | ([.int c], _) => some c
  | _ => none

/-- The loop over the alliances. `str` points to the tab before the next one. -/
def fromstrAlliances : (left i : ℕ) → Option (List UInt8) → GuildRecord →
    Option (GuildRecord × Option (List UInt8))
  | 0, _, str, g => some (g, str)
  | _ + 1, _, none, _ => none
  | left + 1, i, some str, g =>
    match sscanf guildPositionFormat str.tail with
    | ([.int guildId, .int opposition, .text name], _) =>
      let a := { guildId, opposition, name := CStr.ofField 24 name }
      fromstrAlliances left (i + 1) (next 9 (next 9 (some str)))
        { g with alliance := Slots.putAt g.alliance i a }
    | _ => none

/-- The loop over the expulsions. A text that is not read is the one of the entry before, or `mes1`.
-/
def fromstrExplusions : (left i : ℕ) → (stale : List UInt8) → Option (List UInt8) → GuildRecord →
    Option (GuildRecord × Option (List UInt8))
  | 0, _, _, str, g => some (g, str)
  | _ + 1, _, _, none, _ => none
  | left + 1, i, stale, some str, g =>
    match sscanf guildExplusionFormat str.tail with
    | (.int accountId :: .int rsv1 :: .int rsv2 :: .int rsv3 :: .text name :: .text acc :: vs, _) =>
      let mes := suppressHash (match vs with
        | [.text mes] => mes
        | _ => stale)
      let e := { accountId, rsv1, rsv2, rsv3, name := CStr.ofField 24 name
                 acc := CStr.ofField 40 (CStr.ofField 24 acc).bytes, mes := CStr.ofField 40 mes }
      fromstrExplusions left (i + 1) mes (next 9 (next 9 (next 9 (next 9 (some str)))))
        { g with explusion := Slots.putAt g.explusion i e }
    | _ => none

/-- The loop over the skills, which counts those that have a level. -/
def fromstrSkills : (left i j : ℕ) → Option (List UInt8) → GuildRecord → Option (GuildRecord × ℕ)
  | _, _, _, none, _ => none
  | 0, _, j, some _, g => some (g, j)
  | left + 1, i, j, some str, g =>
    match sscanf guildSkillFormat str.tail with
    | ([.int id, .int lv], _) =>
      let s := { id := id.toInt16, lv := lv.toInt16 }
      fromstrSkills left (i + 1) (if 0 < lv then j + 1 else j) (next 32 (some str))
        { g with skill := Slots.putAt g.skill i s }
    | _ => some (g, j)

/-- The points that are left when `j` skills have a level. -/
def leftPoints (guildLv skillPoint : Int16) (j : ℕ) : Int16 :=
  if guildLv.toInt - 1 > j + skillPoint.toInt then
    if guildLv.toInt - 1 - j ≥ 0 then Int16.ofInt (guildLv.toInt - 1 - j) else skillPoint
  else skillPoint

/-- The sections behind the emblem. -/
def fromstrLists (stale str : List UInt8) (g : GuildRecord) : Option GuildRecord := do
  let c ← fromstrCount str
  let (g, str) ← fromstrAlliances c.toInt.toNat 0 (next 9 (some str)) g
  let str ← str
  let c ← fromstrCount str.tail
  let (g, str) ← fromstrExplusions c.toInt.toNat 0 stale (next 9 (some str)) g
  let (g, j) ← fromstrSkills maxGuildSkill 0 0 str g
  pure { g with skillPoint := leftPoints g.guildLv g.skillPoint j }

/-- `inter_guild_fromstr`. There is no result where it returns 1. -/
def interGuildFromstr (guildExtensionBonus : Int) (str : List UInt8) : Option GuildRecord := do
  let (g, str, mes1) ← fromstrHead guildExtensionBonus str
  let (g, str) := fromstrGuildMembers str.length 0 str g
  let (g, str) := fromstrGuildPositions str.length 0 str g
  let (g, str) ← fromstrEmblem str g
  fromstrLists mes1 str g

end Nezumi
