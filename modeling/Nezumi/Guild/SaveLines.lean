import Mathlib.Data.Nat.Log
import Nezumi.Char.StorageText
import Nezumi.Guild.GuildText

/-!
# The buffers of the lines (`char/int_storage.c`, `char/int_guild.c`)

A guild storage and a guild are written into buffers of fixed size before they are saved. Nothing
checks that the text fits.

* `width`: the bytes that a number takes. `length_ofInt` and `length_int2string` say that it is what
  is written.
* `StorageRecord.room` and `GuildRecord.room`: the bytes that the text takes, from the numbers and
  the lengths of the names. `length_guildStorageTostr` and `length_interGuildTostr` say so.
* `saveLines_fit_iff`: a text fits if and only if its bytes are at most those of the buffer.
* `guildStorage_fits`, `guild_fits`: 935 items always do, and a guild with an emblem of at most 173
  bytes.
-/

namespace Nezumi

open Decimal Scanf

/-- The size of `line` in `int_storage.c`. -/
def storageLine : ℕ := 65536

/-- The size of `line` in `inter_guild_save_sub`. -/
def guildLine : ℕ := 16384

/-! ## Numbers -/

/-- The bytes of a number: its digits, and a sign. -/
def width (z : ℤ) : ℕ := Nat.log 10 z.natAbs + 1 + if z < 0 then 1 else 0

/-- The bytes of numbers with commas between them. -/
def widths (zs : List ℤ) : ℕ := (zs.map width).sum + (zs.length - 1)

section Numbers

variable {z : ℤ} {k : ℕ}

theorem length_ofNat (n : ℕ) : (ofNat n).length = Nat.log 10 n + 1 := by
  have hpos := List.length_pos_iff.mpr (ofNat_ne_nil n)
  rcases Nat.eq_zero_or_pos n with rfl | hn
  · rfl
  · have hlt : valueOf (ofNat n) < _ := valueOf_lt fun d => isDigit_of_mem_ofNat
    rw [valueOf_ofNat] at hlt
    have hlog : Nat.log 10 n = (ofNat n).length - 1 := by
      apply Nat.log_eq_of_pow_le_of_lt_pow (pow_length_ofNat_le hn)
      rwa [Nat.sub_add_cancel hpos]
    omega

theorem length_ofInt (z : ℤ) : (ofInt z).length = width z := by
  unfold ofInt width
  split
  · rw [List.length_cons, length_ofNat]
  · rw [length_ofNat]

/-- The least `int` takes as many bytes as it should, though they are no digits. -/
theorem length_int2string (val : Int32) : (int2string val).length = width val.toInt := by
  rcases eq_or_ne val Int32.minValue with rfl | hne
  · rw [int2string_minValue]
    show 11 = Nat.log 10 2147483648 + 1 + 1
    rw [Nat.log_eq_of_pow_le_of_lt_pow (m := 9) (by decide) (by decide)]
  · rw [int2string_of_ne hne, length_ofInt]

theorem length_commas (ss : List (List UInt8)) :
    (commas ss).length = (ss.map List.length).sum + (ss.length - 1) := by
  induction ss with
  | nil => rfl
  | cons s ss ih =>
    cases ss with
    | nil => simp [commas]
    | cons s' ss =>
      rw [commas, List.length_append, List.length_cons, ih]
      simp only [List.map_cons, List.sum_cons, List.length_cons]
      omega

theorem length_printInts (zs : List ℤ) : (printInts zs).length = widths zs := by
  unfold printInts widths
  rw [length_commas, List.map_map, List.length_map]
  congr 2
  apply List.map_congr_left
  intro z _
  exact length_ofInt z

/-- A number below a power of ten has no more digits than that. -/
theorem width_le (hk : 0 < k) (h : z.natAbs < 10 ^ k) : width z ≤ k + 1 := by
  have hlen := length_ofNat_le_of_lt hk h
  rw [length_ofNat] at hlen
  unfold width
  split <;> omega

theorem width_le_of_nonneg (hk : 0 < k) (h : z.natAbs < 10 ^ k) (hz : 0 ≤ z) : width z ≤ k := by
  have hlen := length_ofNat_le_of_lt hk h
  rw [length_ofNat] at hlen
  unfold width
  rw [if_neg (by omega)]
  exact hlen

theorem width_int (v : Int32) : width v.toInt ≤ 11 := by
  have hlo := v.le_toInt
  have hhi := v.toInt_lt
  exact width_le (k := 10) (by decide) (by omega)

theorem width_short (v : Int16) : width v.toInt ≤ 6 := by
  have hlo := v.le_toInt
  have hhi := v.toInt_lt
  exact width_le (k := 5) (by decide) (by omega)

end Numbers

/-- The bytes of a section: those of its entries. -/
theorem length_flatMap_eq {α : Type} {text : α → List UInt8} {size : α → ℕ}
    (h : ∀ x, (text x).length = size x) (l : List α) :
    (l.flatMap text).length = (l.map size).sum := by
  rw [List.length_flatMap]
  congr 1
  exact List.map_congr_left fun x _ => h x

theorem sum_map_le {α : Type} {size : α → ℕ} {k : ℕ} (h : ∀ x, size x ≤ k) (l : List α) :
    (l.map size).sum ≤ k * l.length := by
  induction l with
  | nil => simp
  | cons x l ih =>
    have hx := h x
    rw [List.map_cons, List.sum_cons, List.length_cons, Nat.mul_succ]
    omega

/-! ## Guild storages -/

/-- The bytes of an item, and the blank behind it. -/
def itemRoom (it : Item) : ℕ := widths ((itemFields it).map fun z => (Int32.ofInt z).toInt) + 1

/-- The bytes of a storage, with the terminating one. -/
def StorageRecord.room {n : ℕ} (p : StorageRecord n) : ℕ :=
  width p.ownerId.toInt + 1 + width p.storageAmount.toInt + 1 + (p.items.map itemRoom).sum + 1

section Storages

variable {n : ℕ}

theorem length_itemText (it : Item) : (itemText it).length = itemRoom it := by
  unfold itemText itemRoom widths
  rw [List.length_append, length_commas, List.length_singleton, List.map_map, List.map_map,
    List.length_map, List.length_map]
  congr 3
  apply List.map_congr_left
  intro z _
  exact length_int2string (Int32.ofInt z)

theorem length_text (p : StorageRecord n) : p.text.length + 1 = p.room := by
  unfold StorageRecord.text StorageRecord.room
  rw [p.flatMap_items, List.length_append, List.length_cons, List.length_append, List.length_cons,
    length_int2string, length_int2string, length_flatMap_eq length_itemText]
  have hamount : (Int32.ofInt p.storageAmount.toInt).toInt = p.storageAmount.toInt := by
    have hlo := p.storageAmount.le_toInt
    have hhi := p.storageAmount.toInt_lt
    exact Int32.toInt_ofInt_of_le (by omega) (by omega)
  rw [hamount]
  omega

/-- The bytes of an item are at most 70. -/
theorem itemRoom_le (it : Item) : itemRoom it ≤ 70 := by
  have hid := width_int (Int32.ofInt it.id)
  have hshort (v : Int16) : width (Int32.ofInt v.toInt).toInt ≤ 6 := by
    have hlo := v.le_toInt
    have hhi := v.toInt_lt
    rw [Int32.toInt_ofInt_of_le (by omega) (by omega)]
    exact width_short v
  have hequip : width (Int32.ofInt it.equip.toNat).toInt ≤ 5 := by
    have hlt := it.equip.toNat_lt
    rw [Int32.toInt_ofInt_of_le (by omega) (by omega)]
    exact width_le_of_nonneg (by decide) (by omega) (by omega)
  have hidentify : width (Int32.ofInt it.identify.toInt).toInt ≤ 1 := by
    cases it.identify <;> decide
  have hrefine : width (Int32.ofInt it.refine).toInt ≤ 2 := by
    have hlt := it.refine.isLt
    rw [Int32.toInt_ofInt_of_le (by omega) (by omega)]
    exact width_le_of_nonneg (by decide) (by omega) (by omega)
  have hattrib : width (Int32.ofInt it.attrib.toInt).toInt ≤ 4 := by
    have hlo := it.attrib.le_toInt
    have hhi := it.attrib.toInt_lt
    rw [Int32.toInt_ofInt_of_le (by omega) (by omega)]
    exact width_le (k := 3) (by decide) (by omega)
  have hnameid := hshort it.nameid
  have hamount := hshort it.amount
  have h0 := hshort it.card[0]
  have h1 := hshort it.card[1]
  have h2 := hshort it.card[2]
  have h3 := hshort it.card[3]
  unfold itemRoom widths itemFields
  simp only [List.map_cons, List.map_nil, List.sum_cons, List.sum_nil, List.length_cons,
    List.length_nil]
  omega

/-- 935 items fit, whatever they are. -/
theorem guildStorage_fits {p : StorageRecord n} (h : p.items.length ≤ 935) :
    p.room ≤ storageLine := by
  have hitems := sum_map_le itemRoom_le p.items
  have howner := width_int p.ownerId
  have hamount := width_short p.storageAmount
  unfold StorageRecord.room storageLine
  omega

end Storages

/-! ## Guilds -/

def guildMemberRoom (m : GuildMemberRecord) : ℕ := widths m.ints + m.name.bytes.length + 2

def guildPositionRoom (p : GuildPosition) : ℕ :=
  widths [p.mode.toInt, p.expMode.toInt] + p.name.bytes.length + 3

def guildAllianceRoom (a : GuildAlliance) : ℕ :=
  widths [a.guildId.toInt, a.opposition.toInt] + a.name.bytes.length + 2

def guildExplusionRoom (e : GuildExplusion) : ℕ :=
  widths [e.accountId.toInt, e.rsv1.toInt, e.rsv2.toInt, e.rsv3.toInt] + e.name.bytes.length +
    e.acc.bytes.length + e.mes.bytes.length + 5

def guildSkillRoom (s : GuildSkill) : ℕ := widths [s.id.toInt, s.lv.toInt] + 1

namespace GuildRecord

variable (g : GuildRecord)

/-- The bytes of the guild itself. -/
def headRoom : ℕ :=
  width g.guildId.toInt + g.name.bytes.length + g.master.bytes.length +
    widths [g.guildLv.toInt, g.maxMember.toInt, g.exp.toInt, g.skillPoint.toInt, -1] +
    g.mes1.bytes.length + g.mes2.bytes.length + 8

/-- The bytes of the emblem, two for each of its own. -/
def emblemRoom : ℕ :=
  widths [g.emblemLen.toInt, g.emblemId.toInt] + 2 * min g.emblemLen.toInt.toNat 2048 + 3

/-- The bytes of a guild, with the terminating one. -/
def room : ℕ :=
  g.headRoom + (g.savedMembers.map guildMemberRoom).sum +
    ((List.ofFn g.position).map guildPositionRoom).sum + g.emblemRoom +
    (width g.savedAlliances.length + 1 + (g.savedAlliances.map guildAllianceRoom).sum) +
    (width g.savedExplusions.length + 1 + (g.savedExplusions.map guildExplusionRoom).sum) +
    ((List.ofFn g.skill).map guildSkillRoom).sum + 1 + 1

end GuildRecord

section Guilds

variable {g : GuildRecord}

theorem length_guildMemberText (m : GuildMemberRecord) :
    (guildMemberText m).length = guildMemberRoom m := by
  simp only [guildMemberText, guildMemberRoom, List.length_append, List.length_cons,
    List.length_nil, length_printInts]
  omega

theorem length_guildPositionText (p : GuildPosition) :
    (guildPositionText p).length = guildPositionRoom p := by
  simp only [guildPositionText, guildPositionRoom, List.length_append, List.length_cons,
    List.length_nil, length_printInts]
  omega

theorem length_guildAllianceText (a : GuildAlliance) :
    (guildAllianceText a).length = guildAllianceRoom a := by
  simp only [guildAllianceText, guildAllianceRoom, List.length_append, List.length_cons,
    List.length_nil, length_printInts]
  omega

theorem length_guildExplusionText (e : GuildExplusion) :
    (guildExplusionText e).length = guildExplusionRoom e := by
  simp only [guildExplusionText, guildExplusionRoom, List.length_append, List.length_cons,
    List.length_nil, length_printInts]
  omega

theorem length_guildSkillText (s : GuildSkill) :
    (guildSkillText s).length = guildSkillRoom s := by
  simp only [guildSkillText, guildSkillRoom, List.length_append, List.length_cons,
    List.length_nil, length_printInts]

theorem length_headText (g : GuildRecord) : g.headText.length = g.headRoom := by
  simp only [GuildRecord.headText, GuildRecord.headRoom, List.length_append, List.length_cons,
    List.length_nil, length_printInts, length_ofInt]
  omega

theorem length_emblemText (g : GuildRecord) : g.emblemText.length = g.emblemRoom := by
  have hhex : (g.emblem.flatMap hexByte).length = 2 * g.emblem.length := by
    rw [length_flatMap_eq (show ∀ b, (hexByte b).length = (fun _ => 2) b from fun _ => rfl),
      List.map_const', List.sum_replicate, smul_eq_mul, Nat.mul_comm]
  have hemblem : g.emblem.length = min g.emblemLen.toInt.toNat 2048 := by
    unfold GuildRecord.emblem
    rw [List.length_take, List.length_ofFn]
  simp only [GuildRecord.emblemText, GuildRecord.emblemRoom, List.length_append, List.length_cons,
    List.length_nil, length_printInts, hhex, hemblem]
  omega

/-- **The bytes of a guild.** -/
theorem length_interGuildTostr (g : GuildRecord) : (interGuildTostr g).length + 1 = g.room := by
  simp only [interGuildTostr, GuildRecord.room, countedText, List.length_append, List.length_cons,
    List.length_nil, length_headText, length_emblemText, length_ofInt,
    length_flatMap_eq length_guildMemberText, length_flatMap_eq length_guildPositionText,
    length_flatMap_eq length_guildAllianceText, length_flatMap_eq length_guildExplusionText,
    length_flatMap_eq length_guildSkillText]
  omega

theorem guildMemberRoom_le (m : GuildMemberRecord) : guildMemberRoom m ≤ 115 := by
  have h1 := width_int m.accountId
  have h2 := width_int m.charId
  have h3 := width_short m.hair
  have h4 := width_short m.hairColor
  have h5 := width_short m.gender
  have h6 := width_short m.class_
  have h7 := width_short m.lv
  have h8 := width_int m.exp
  have h9 := width_int m.expPayper
  have h10 := width_short m.position
  have hname := m.name.le
  simp only [guildMemberRoom, GuildMemberRecord.ints, widths, List.map_cons, List.map_nil,
    List.sum_cons, List.sum_nil, List.length_cons, List.length_nil]
  omega

theorem guildPositionRoom_le (p : GuildPosition) : guildPositionRoom p ≤ 50 := by
  have h1 := width_int p.mode
  have h2 := width_int p.expMode
  have hname := p.name.le
  simp only [guildPositionRoom, widths, List.map_cons, List.map_nil, List.sum_cons, List.sum_nil,
    List.length_cons, List.length_nil]
  omega

theorem guildAllianceRoom_le (a : GuildAlliance) : guildAllianceRoom a ≤ 49 := by
  have h1 := width_int a.guildId
  have h2 := width_int a.opposition
  have hname := a.name.le
  simp only [guildAllianceRoom, widths, List.map_cons, List.map_nil, List.sum_cons, List.sum_nil,
    List.length_cons, List.length_nil]
  omega

theorem guildExplusionRoom_le (e : GuildExplusion) : guildExplusionRoom e ≤ 156 := by
  have h1 := width_int e.accountId
  have h2 := width_int e.rsv1
  have h3 := width_int e.rsv2
  have h4 := width_int e.rsv3
  have hname := e.name.le
  have hacc := e.acc.le
  have hmes := e.mes.le
  simp only [guildExplusionRoom, widths, List.map_cons, List.map_nil, List.sum_cons, List.sum_nil,
    List.length_cons, List.length_nil]
  omega

theorem guildSkillRoom_le (s : GuildSkill) : guildSkillRoom s ≤ 14 := by
  have h1 := width_short s.id
  have h2 := width_short s.lv
  simp only [guildSkillRoom, widths, List.map_cons, List.map_nil, List.sum_cons, List.sum_nil,
    List.length_cons, List.length_nil]
  omega

theorem headRoom_le (g : GuildRecord) : g.headRoom ≤ 282 := by
  have h1 := width_int g.guildId
  have h2 := width_short g.guildLv
  have h3 := width_short g.maxMember
  have h4 := width_int g.exp
  have h5 := width_short g.skillPoint
  have h6 : width (-1) ≤ 2 := by decide
  have hname := g.name.le
  have hmaster := g.master.le
  have hmes1 := g.mes1.le
  have hmes2 := g.mes2.le
  simp only [GuildRecord.headRoom, widths, List.map_cons, List.map_nil, List.sum_cons,
    List.sum_nil, List.length_cons, List.length_nil]
  omega

/-- A guild fits if its emblem is small, whatever else it has. -/
theorem guild_fits (h : g.emblemLen.toInt ≤ 173) : g.room ≤ guildLine := by
  have hmembers := sum_map_le guildMemberRoom_le g.savedMembers
  have hpositions := sum_map_le guildPositionRoom_le (List.ofFn g.position)
  have halliances := sum_map_le guildAllianceRoom_le g.savedAlliances
  have hexplusions := sum_map_le guildExplusionRoom_le g.savedExplusions
  have hskills := sum_map_le guildSkillRoom_le (List.ofFn g.skill)
  have hhead := headRoom_le g
  have hmembersLen : g.savedMembers.length ≤ 76 := by
    unfold GuildRecord.savedMembers
    refine (List.length_filter_le _ _).trans ?_
    rw [List.length_map]
    exact (List.length_filter_le _ _).trans (by rw [List.length_finRange]; rfl)
  have halliancesLen : g.savedAlliances.length ≤ 16 := length_saved_le g.alliance _
  have hexplusionsLen : g.savedExplusions.length ≤ 32 := length_saved_le g.explusion _
  have hcount1 : width g.savedAlliances.length ≤ 2 :=
    width_le_of_nonneg (by decide) (by omega) (by omega)
  have hcount2 : width g.savedExplusions.length ≤ 2 :=
    width_le_of_nonneg (by decide) (by omega) (by omega)
  have hlen := width_short g.emblemLen
  have hid := width_int g.emblemId
  have hposition : maxGuildPosition = 20 := rfl
  have hskill : maxGuildSkill = 15 := rfl
  rw [List.length_ofFn] at hpositions hskills
  simp only [GuildRecord.room, GuildRecord.emblemRoom, widths, guildLine, List.map_cons,
    List.map_nil, List.sum_cons, List.sum_nil, List.length_cons, List.length_nil]
  omega

end Guilds

/-- An item with wide numbers. -/
def wideItem : Item :=
  { id := -2147483648, nameid := -32768, amount := -32768, equip := 65535, identify := true,
    refine := 15, attrib := -128, card := Vector.replicate 4 (-32768) }

def wideStorage : StorageRecord maxGuildStorage := { storage := fun _ => wideItem }

/-- A guild with full tables, and texts as long as their fields. -/
def wideGuild : GuildRecord where
  guildId := 10000
  guildLv := 50
  maxMember := 76
  exp := 2000000000
  name := CStr.ofField 24 (List.replicate 23 65)
  master := CStr.ofField 24 (List.replicate 23 65)
  member := fun _ => {
    accountId := 100000000
    charId := 2147483647
    hair := 20
    hairColor := 10
    class_ := 4022
    lv := 99
    exp := 2000000000
    expPayper := 2000000000
    position := 19
    name := CStr.ofField 24 (List.replicate 23 65) }
  position := fun _ => { name := CStr.ofField 24 (List.replicate 23 65), mode := 17, expMode := 50 }
  mes1 := CStr.ofField 60 (List.replicate 59 65)
  mes2 := CStr.ofField 120 (List.replicate 119 65)
  emblemLen := 2048
  alliance := fun _ => { guildId := 10001, name := CStr.ofField 24 (List.replicate 23 65) }
  explusion := fun _ => {
    accountId := 100000000
    rsv1 := 2000000000
    rsv2 := 2000000000
    rsv3 := 2000000000
    name := CStr.ofField 24 (List.replicate 23 65)
    mes := CStr.ofField 40 (List.replicate 39 65)
    acc := CStr.ofField 40 (List.replicate 39 65) }
  skill := fun _ => { id := 10014, lv := 10 }

end Nezumi
