import Mathlib.Algebra.BigOperators.Intervals
import Nezumi.Guild.GuildExpRun

/-!
# The experience of a player (`map/pc.c`)

A gain is scaled by a song, a part of it goes to the guild, and the rest is added to the experience.
Then levels are gained as long as the experience is enough for the next one.

* `pcGainexp` is `pc_gainexp`, for a player in memory. `fuel` bounds the rounds of the two loops.
  `intptr_t` has 64 bits.
* `pcNextbaseexp` to `pcNextjobafter` are the lookups in `exp_table`, `pcCheckbaselevelup` and
  `pcCheckjoblevelup` a level of either kind. Both kinds are a `Track`.
* `levelLoop_spec`: the loop ends, and the levels account for the experience that is gone.
* `toInt_addGain_cutGain`: what a gain adds, where the sum does not wrap round.

What is left out writes neither levels nor experience: the status of the player, the effects of a
new level and the messages.
-/

namespace Nezumi

open Scanf

/-- `MAX_LEVEL` -/
def maxLevel : ℕ := 255

/-- The settings, `exp_table`, and what does not change of the guilds. -/
structure GainConf where
  pvpExp : Int32 := 1
  multiLevelUp : Int32 := 0
  maxParameter : Int32 := 99
  expTable : Fin 14 → Fin maxLevel → Int32
  guild : ExpConf

/-- The fields of a player that gains read and write. `richmankim` is the level of the song while it
lasts. -/
structure GainPlayer where
  accountId : Int32
  onMap : Bool := true
  dead : Bool := false
  pvp : Bool := false
  richmankim : Option Int64 := none
  class_ : Int16 := 0
  baseLevel : UInt8 := 1
  jobLevel : UInt8 := 1
  baseExp : Int32 := 0
  jobExp : Int32 := 0
  statusPoint : Int16 := 0
  skillPoint : Int16 := 0
  str : Int16 := 1
  agi : Int16 := 1
  vit : Int16 := 1
  int_ : Int16 := 1
  dex : Int16 := 1
  luk : Int16 := 1

/-! ## The next level -/

/-- The kind of a class, which chooses a row of the table. -/
def expRow (c : Int16) : Fin 7 :=
  if c = 0 ∨ c = 4023 then 0
  else if c ≤ 6 ∨ (4024 ≤ c ∧ c ≤ 4029) then 1
  else if c ≤ 22 ∨ (4030 ≤ c ∧ c ≤ 4044) then 2
  else if c = 23 ∨ c = 4045 then 3
  else if c = 4001 then 4
  else if c ≤ 4007 then 5
  else 6

/-- The experience for the next level, by a row of the table, and 0 where there is none. -/
def nextExp (row : Fin maxLevel → Int32) (level : UInt8) : Int32 :=
  if h : 0 < level.toNat ∧ level.toNat < maxLevel then row ⟨level.toNat - 1, by omega⟩ else 0

/-- The experience for the level after the next one. -/
def nextAfter (row : Fin maxLevel → Int32) (level : UInt8) : Int32 :=
  if h : 0 < level.toNat ∧ level.toNat < maxLevel then row ⟨level.toNat, h.2⟩ else 0

section Lookups

variable (conf : GainConf) (sd : GainPlayer)

def baseRow : Fin maxLevel → Int32 := conf.expTable (Fin.castLE (by decide) (expRow sd.class_))

def jobRow : Fin maxLevel → Int32 := conf.expTable (Fin.natAdd 7 (expRow sd.class_))

/-- `pc_nextbaseexp` -/
def pcNextbaseexp : Int32 := nextExp (baseRow conf sd) sd.baseLevel

/-- `pc_nextjobexp` -/
def pcNextjobexp : Int32 := nextExp (jobRow conf sd) sd.jobLevel

/-- `pc_nextbaseafter` -/
def pcNextbaseafter : Int32 := nextAfter (baseRow conf sd) sd.baseLevel

/-- `pc_nextjobafter` -/
def pcNextjobafter : Int32 := nextAfter (jobRow conf sd) sd.jobLevel

/-- All of the six values are at their highest. -/
def GainPlayer.maxed : Bool :=
  [sd.str, sd.agi, sd.vit, sd.int_, sd.dex, sd.luk].all fun v =>
    conf.maxParameter ≤ v.toInt32

/-- `pc_checkbaselevelup` -/
def pcCheckbaselevelup : Option GainPlayer :=
  let next := pcNextbaseexp conf sd
  if next ≤ sd.baseExp ∧ 0 < next then
    let level := sd.baseLevel + 1
    let points := sd.statusPoint + Int16.ofNat ((level.toNat + 14) / 5)
    some { sd with
      baseExp := sd.baseExp - next
      baseLevel := level
      statusPoint := if sd.maxed conf then 0 else points }
  else none

/-- `pc_checkjoblevelup` -/
def pcCheckjoblevelup : Option GainPlayer :=
  let next := pcNextjobexp conf sd
  if next ≤ sd.jobExp ∧ 0 < next then
    some { sd with
      jobExp := sd.jobExp - next
      jobLevel := sd.jobLevel + 1
      skillPoint := sd.skillPoint + 1 }
  else none

end Lookups

/-- `while(check(sd));` -/
def levelLoop (check : GainPlayer → Option GainPlayer) : ℕ → GainPlayer → Option GainPlayer
  | 0, _ => none
  | fuel + 1, sd =>
    match check sd with
    | none => some sd
    | some sd => levelLoop check fuel sd

/-! ## A gain -/

/-- A gain under the song. -/
def scaleExp (val1 : Int64) (exp : Int32) : Int32 :=
  (exp.toInt64 * (125 + val1 * 11) / 100).toInt32

def GainPlayer.scaled (sd : GainPlayer) (exp : Int32) : Int32 :=
  match sd.richmankim with
  | none => exp
  | some val1 => scaleExp val1 exp

def guildIdOf (w : ExpWorld) (accountId : Int32) : Int32 :=
  (w.players accountId).elim 0 GuildPlayer.guildId

/-- The guild takes its part of a gain. -/
def payGuild (conf : GainConf) (w : ExpWorld) (accountId exp : Int32) : ExpWorld × Int32 :=
  if 0 < guildIdOf w accountId then
    let (w, paid) := guildPayexp conf.guild w accountId exp
    (w, if exp - paid < 0 then 0 else exp - paid)
  else (w, exp)

/-- A gain that is cut down to what two levels take. -/
def cutGain (conf : GainConf) (after exp gain : Int32) : Int32 :=
  if conf.multiLevelUp = 0 ∧ after ≠ 0 ∧ after ≤ exp + gain then
    if after - exp < 0 then 0 else after - exp
  else gain

/-- The experience with a gain, which does not become negative. -/
def addGain (exp gain : Int32) : Int32 := if exp + gain < 0 then 0 else exp + gain

/-- A player who is not there, or gains nothing where it is. -/
def GainPlayer.idle (conf : GainConf) (sd : GainPlayer) : Bool :=
  !sd.onMap || sd.dead || (conf.pvpExp = 0 && sd.pvp)

/-- The player with its gains, before the levels. -/
def gained (conf : GainConf) (sd : GainPlayer) (baseExp jobExp : Int32) : GainPlayer :=
  { sd with
    baseExp := addGain sd.baseExp (cutGain conf (pcNextbaseafter conf sd) sd.baseExp baseExp)
    jobExp := addGain sd.jobExp (cutGain conf (pcNextjobafter conf sd) sd.jobExp jobExp) }

/-- `pc_gainexp` -/
def pcGainexp (conf : GainConf) (fuel : ℕ) (w : ExpWorld) (sd : GainPlayer)
    (baseExp jobExp : Int32) : Option (ExpWorld × GainPlayer) :=
  if sd.idle conf then some (w, sd)
  else do
    let (w, baseExp) := payGuild conf w sd.accountId (sd.scaled baseExp)
    let sd := gained conf sd baseExp (sd.scaled jobExp)
    let sd ← levelLoop (pcCheckbaselevelup conf) fuel sd
    let sd ← levelLoop (pcCheckjoblevelup conf) fuel sd
    return (w, sd)

/-! ## Levels -/

/-- One kind of levels: the level and the experience of a player, and the row of the table. -/
structure Track where
  level : GainPlayer → UInt8
  exp : GainPlayer → Int32
  row : Fin maxLevel → Int32

/-- What a check does for a track, for players of a kind that it keeps. -/
structure Track.Checks (T : Track) (check : GainPlayer → Option GainPlayer)
    (Kind : GainPlayer → Prop) : Prop where
  none_of : ∀ sd, Kind sd → check sd = none →
    T.exp sd < nextExp T.row (T.level sd) ∨ nextExp T.row (T.level sd) ≤ 0
  some_of : ∀ sd sd', Kind sd → check sd = some sd' →
    nextExp T.row (T.level sd) ≤ T.exp sd ∧ 0 < nextExp T.row (T.level sd) ∧
      T.level sd' = T.level sd + 1 ∧ T.exp sd' = T.exp sd - nextExp T.row (T.level sd) ∧ Kind sd'

/-- The experience that the levels from one to another take. -/
def consumed (row : Fin maxLevel → Int32) (from_ to_ : UInt8) : ℤ :=
  ∑ l ∈ Finset.Ico from_.toNat to_.toNat, (nextExp row (UInt8.ofNat l)).toInt

section Levels

variable {T : Track} {check : GainPlayer → Option GainPlayer} {Kind : GainPlayer → Prop}
  {sd sd' : GainPlayer} {row : Fin maxLevel → Int32} {level : UInt8}

theorem level_lt (h : 0 < nextExp row level) : level.toNat < maxLevel := by
  by_contra hge
  unfold nextExp at h
  rw [dif_neg fun hlt => hge hlt.2] at h
  exact absurd h (by decide)

theorem toNat_level_succ (h : level.toNat < maxLevel) : (level + 1).toNat = level.toNat + 1 := by
  rw [UInt8.toNat_add]
  have hone : (1 : UInt8).toNat = 1 := rfl
  unfold maxLevel at h
  omega

/-- Behind the next level comes the one after it. -/
theorem nextExp_succ (h : level.toNat < maxLevel) (hpos : 0 < level.toNat) :
    nextExp row (level + 1) = nextAfter row level ∨ nextExp row (level + 1) = 0 := by
  have hsucc := toNat_level_succ h
  unfold nextExp nextAfter
  by_cases hlt : level.toNat + 1 < maxLevel
  · left
    rw [dif_pos (by omega), dif_pos ⟨hpos, h⟩]
    congr 1
    apply Fin.ext
    show (level + 1).toNat - 1 = level.toNat
    omega
  · right
    rw [dif_neg (by omega)]

theorem level_pos (h : 0 < nextExp row level) : 0 < level.toNat := by
  by_contra hge
  unfold nextExp at h
  rw [dif_neg fun hlt => hge hlt.1] at h
  exact absurd h (by decide)

/-- The experience that is left after a level. -/
theorem toInt_exp_sub {exp next : Int32} (hle : next ≤ exp) (hpos : 0 < next) :
    (exp - next).toInt = exp.toInt - next.toInt := by
  have h1 := Int32.le_iff_toInt_le.mp hle
  have h2 := Int32.lt_iff_toInt_lt.mp hpos
  have h3 := exp.toInt_lt
  have h0 : (0 : Int32).toInt = 0 := rfl
  rw [Int32.toInt_sub, Int.bmod_eq_of_le (by omega) (by omega)]

theorem consumed_self (row : Fin maxLevel → Int32) (level : UInt8) :
    consumed row level level = 0 := by
  simp [consumed]

theorem consumed_step {to_ : UInt8} (h : level.toNat < maxLevel) (hle : level + 1 ≤ to_) :
    consumed row level to_ = (nextExp row level).toInt + consumed row (level + 1) to_ := by
  have hsucc := toNat_level_succ h
  have hto := UInt8.le_iff_toNat_le.mp hle
  unfold consumed
  rw [Finset.sum_eq_sum_Ico_succ_bot (by omega), UInt8.ofNat_toNat, hsucc]

/-- **The loop ends**, and what is gone of the experience is what the levels took. -/
theorem levelLoop_spec (h : T.Checks check Kind) (hsd : Kind sd) {fuel : ℕ}
    (hfuel : maxLevel - (T.level sd).toNat < fuel) :
    ∃ sd', levelLoop check fuel sd = some sd' ∧ Kind sd' ∧ T.level sd ≤ T.level sd' ∧
      (T.exp sd').toInt + consumed T.row (T.level sd) (T.level sd') = (T.exp sd).toInt := by
  induction fuel generalizing sd with
  | zero => omega
  | succ fuel ih =>
    unfold levelLoop
    cases hcheck : check sd with
    | none =>
      exact ⟨sd, rfl, hsd, UInt8.le_refl _, by rw [consumed_self, add_zero]⟩
    | some sd₁ =>
      obtain ⟨hle, hpos, hlevel, hexp, hkind⟩ := h.some_of sd sd₁ hsd hcheck
      have hlt := level_lt hpos
      have hsucc := toNat_level_succ hlt
      rw [← hlevel] at hsucc
      obtain ⟨sd', hloop, hkind', hlevels, hexps⟩ := ih hkind (by omega)
      refine ⟨sd', hloop, hkind', ?_, ?_⟩
      · have := UInt8.le_iff_toNat_le.mp hlevels
        rw [UInt8.le_iff_toNat_le]
        omega
      · rw [hlevel] at hlevels hexps
        rw [hexp, toInt_exp_sub hle hpos] at hexps
        rw [consumed_step hlt hlevels]
        omega

/-- A player whose experience is not enough stays at its level. -/
theorem levelLoop_of_lt (h : T.Checks check Kind) (hsd : Kind sd) {fuel : ℕ}
    (hexp : T.exp sd < nextExp T.row (T.level sd) ∨ nextExp T.row (T.level sd) ≤ 0)
    (hloop : levelLoop check fuel sd = some sd') : sd' = sd := by
  cases fuel with
  | zero => cases hloop
  | succ fuel =>
    unfold levelLoop at hloop
    cases hcheck : check sd with
    | none =>
      rw [hcheck] at hloop
      exact (Option.some.inj hloop).symm
    | some sd₁ =>
      obtain ⟨hle, hpos, -⟩ := h.some_of sd sd₁ hsd hcheck
      rw [Int32.lt_iff_toInt_lt, Int32.le_iff_toInt_le] at *
      omega

/-- A player whose experience is not enough for two levels gains one at most. -/
theorem levelLoop_le_one (h : T.Checks check Kind) (hsd : Kind sd) {fuel : ℕ}
    (hexp : nextAfter T.row (T.level sd) = 0 ∨ T.exp sd ≤ nextAfter T.row (T.level sd))
    (hloop : levelLoop check fuel sd = some sd') :
    (T.level sd').toNat ≤ (T.level sd).toNat + 1 := by
  cases fuel with
  | zero => cases hloop
  | succ fuel =>
    unfold levelLoop at hloop
    cases hcheck : check sd with
    | none =>
      rw [hcheck] at hloop
      rw [Option.some.inj hloop]
      omega
    | some sd₁ =>
      rw [hcheck] at hloop
      obtain ⟨hle, hpos, hlevel, hexp₁, hkind⟩ := h.some_of sd sd₁ hsd hcheck
      have hlt := level_lt hpos
      have hstay : T.exp sd₁ < nextExp T.row (T.level sd₁) ∨
          nextExp T.row (T.level sd₁) ≤ 0 := by
        rw [hlevel]
        have hsucc : nextExp T.row _ = _ ∨ _ := nextExp_succ hlt (level_pos hpos)
        rcases hsucc with hafter | hzero
        · rw [hafter, hexp₁]
          rcases hexp with hexp | hexp
          · exact .inr (hexp ▸ Int32.le_refl 0)
          · left
            rw [Int32.lt_iff_toInt_lt, toInt_exp_sub hle hpos]
            rw [Int32.le_iff_toInt_le] at hexp
            have hpos' := Int32.lt_iff_toInt_lt.mp hpos
            have h0 : (0 : Int32).toInt = 0 := rfl
            omega
        · exact .inr (hzero ▸ Int32.le_refl 0)
      rw [levelLoop_of_lt h hkind hstay hloop, hlevel, toNat_level_succ hlt]

end Levels

/-! ## What is added -/

section Gains

variable {conf : GainConf} {after exp gain : Int32}

/-- The experience with a gain, which is cut down, of a sum that does not wrap round. -/
theorem toInt_addGain_cutGain (hafter : 0 ≤ after.toInt) (hsum : IsInt (exp.toInt + gain.toInt)) :
    (addGain exp (cutGain conf after exp gain)).toInt =
      max 0 (if conf.multiLevelUp = 0 ∧ after ≠ 0 ∧ after.toInt ≤ exp.toInt + gain.toInt then
        max after.toInt exp.toInt else exp.toInt + gain.toInt) := by
  have hadd := toInt_add_of_isInt hsum
  have h0 : (0 : Int32).toInt = 0 := rfl
  have hlo := exp.le_toInt
  have hhi := exp.toInt_lt
  have hgain := gain.toInt_lt
  have hmax := after.toInt_lt
  unfold cutGain
  simp only [Int32.le_iff_toInt_le, hadd]
  split
  · rename_i hcut
    have hsub : (after - exp).toInt = after.toInt - exp.toInt := by
      rw [Int32.toInt_sub, Int.bmod_eq_of_le (by omega) (by omega)]
    split
    · rename_i hneg
      rw [Int32.lt_iff_toInt_lt, hsub] at hneg
      have hzero : (exp + 0).toInt = exp.toInt := by rw [Int32.add_zero]
      unfold addGain
      split
      · rename_i hexp
        rw [Int32.lt_iff_toInt_lt, hzero] at hexp
        omega
      · rename_i hexp
        rw [Int32.lt_iff_toInt_lt, hzero] at hexp
        rw [hzero]
        omega
    · rename_i hneg
      rw [Int32.lt_iff_toInt_lt, hsub] at hneg
      have hback : (exp + (after - exp)).toInt = after.toInt := by
        rw [toInt_add_of_isInt (by rw [hsub]; unfold IsInt; omega), hsub]
        omega
      unfold addGain
      split
      · rename_i hexp
        rw [Int32.lt_iff_toInt_lt, hback] at hexp
        omega
      · rw [hback]
        omega
  · unfold addGain
    split
    · rename_i hexp
      rw [Int32.lt_iff_toInt_lt, hadd] at hexp
      omega
    · rename_i hexp
      rw [Int32.lt_iff_toInt_lt, hadd] at hexp
      rw [hadd]
      omega

/-- One level at a time: there is not enough for two levels, or there was too much before. -/
theorem addGain_le_after (hafter : 0 ≤ after.toInt) (hsum : IsInt (exp.toInt + gain.toInt))
    (hmulti : conf.multiLevelUp = 0) (hne : after ≠ 0) :
    (addGain exp (cutGain conf after exp gain)).toInt ≤ max after.toInt exp.toInt := by
  rw [toInt_addGain_cutGain hafter hsum]
  split
  · omega
  · rename_i hcut
    have hlt : ¬after.toInt ≤ exp.toInt + gain.toInt := fun h => hcut ⟨hmulti, hne, h⟩
    omega

end Gains

end Nezumi
