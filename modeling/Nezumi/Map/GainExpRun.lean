import Nezumi.Map.GainExp

/-!
# What a gain keeps (`map/pc.c`)

* `GainedWell`: after a gain no level is lost, what is gone of the experience is what the levels
  took, and there is one new level at most where levels are gained one at a time.
* `GainExact`: the sums and the products of a gain, as the code forms them, stay within their types.
  `GainFits` says the same of the exact numbers.
* `pcGainexp_right_iff`: a gain ends, is right and wraps nowhere round if and only if the exact
  numbers fit.
-/

namespace Nezumi

open Scanf

/-- The experience is enough for the next level. -/
def LevelPending (next exp : Int32) : Prop := next ≤ exp ∧ 0 < next

/-- What a gain may do to a player. -/
structure GainedWell (conf : GainConf) (sd sd' : GainPlayer) : Prop where
  baseLevel : sd.baseLevel ≤ sd'.baseLevel
  jobLevel : sd.jobLevel ≤ sd'.jobLevel
  baseExp : sd.baseExp.toInt ≤
    sd'.baseExp.toInt + consumed (baseRow conf sd) sd.baseLevel sd'.baseLevel
  jobExp : sd.jobExp.toInt ≤
    sd'.jobExp.toInt + consumed (jobRow conf sd) sd.jobLevel sd'.jobLevel
  oneBase : conf.multiLevelUp = 0 → ¬LevelPending (pcNextbaseexp conf sd) sd.baseExp →
    sd'.baseLevel.toNat ≤ sd.baseLevel.toNat + 1
  oneJob : conf.multiLevelUp = 0 → ¬LevelPending (pcNextjobexp conf sd) sd.jobExp →
    sd'.jobLevel.toNat ≤ sd.jobLevel.toNat + 1

/-! ## The numbers that the code forms -/

/-- The numbers of `scaleExp`. -/
def ScaleExact (val1 : Int64) (exp : Int32) : Prop :=
  IsLong (val1.toInt * 11) ∧ IsLong (125 + (val1 * 11).toInt) ∧
    IsLong (exp.toInt * (125 + val1 * 11).toInt) ∧
    IsInt (exp.toInt64 * (125 + val1 * 11) / 100).toInt

/-- The numbers of `guild_payexp`, for a player with a guild. -/
def PayExact (conf : ExpConf) (w : ExpWorld) (p : GuildPlayer × GuildRecord) (exp : Int32) : Prop :=
  let per := payPer conf p.2 p.1.charId
  0 < per → IsInt (exp.toInt * per.toInt) ∧
    (0 < exp * per / 100 → ∀ c ∈ w.expcache, c.charId = p.1.charId →
      IsInt (c.exp.toInt + (exp * per / 100).toInt))

/-- **No sum and no product wraps round** on the way of a gain. -/
def GainExact (conf : GainConf) (w : ExpWorld) (sd : GainPlayer) (baseExp jobExp : Int32) : Prop :=
  sd.idle conf = false →
    (∀ val1 ∈ sd.richmankim, ScaleExact val1 baseExp ∧ ScaleExact val1 jobExp) ∧
    (0 < guildIdOf w sd.accountId → ∀ p ∈ w.guildOf sd.accountId,
      PayExact conf.guild w p (sd.scaled baseExp)) ∧
    IsInt (sd.baseExp.toInt + (payGuild conf w sd.accountId (sd.scaled baseExp)).2.toInt) ∧
    IsInt (sd.jobExp.toInt + (sd.scaled jobExp).toInt)

/-! ## The exact numbers -/

/-- The numbers of a gain under the song. -/
def ScaleFits (val1 exp : ℤ) : Prop :=
  IsLong (val1 * 11) ∧ IsLong (125 + val1 * 11) ∧ IsLong (exp * (125 + val1 * 11)) ∧
    IsInt ((exp * (125 + val1 * 11)).tdiv 100)

/-- The numbers of what a guild takes, by its percentage. -/
def PayFits (conf : ExpConf) (w : ExpWorld) (p : GuildPlayer × GuildRecord) (exp : ℤ) : Prop :=
  let per := (payPer conf p.2 p.1.charId).toInt
  0 < per → IsInt (exp * per) ∧ (0 < (exp * per).tdiv 100 → ∀ c ∈ w.expcache,
    c.charId = p.1.charId → IsInt (c.exp.toInt + (exp * per).tdiv 100))

/-- A gain with the song. -/
def scaledExp (sd : GainPlayer) (exp : ℤ) : ℤ :=
  match sd.richmankim with
  | none => exp
  | some val1 => (exp * (125 + val1.toInt * 11)).tdiv 100

/-- What the guild of a player takes of a gain. -/
def paidExp (conf : GainConf) (w : ExpWorld) (accountId : Int32) (exp : ℤ) : ℤ :=
  match w.guildOf accountId with
  | none => 0
  | some (sd, g) =>
    if 0 < payPer conf.guild g sd.charId then
      max 0 ((exp * (payPer conf.guild g sd.charId).toInt).tdiv 100)
    else 0

/-- What is left of a gain for the player. -/
def leftExp (conf : GainConf) (w : ExpWorld) (accountId : Int32) (exp : ℤ) : ℤ :=
  if 0 < guildIdOf w accountId then max 0 (exp - paidExp conf w accountId exp) else exp

/-- A gain takes nothing away: it is not negative, as under any song of a level that is not, or
there is nothing to take, or more than two levels take. -/
def TakesNothing (conf : GainConf) (after exp gain : ℤ) : Prop :=
  0 ≤ gain ∨ exp ≤ 0 ∨ (conf.multiLevelUp = 0 ∧ after ≠ 0 ∧ after ≤ exp + gain)

/-- **The numbers fit**: the products of the song and of the guild, the sum that the guild keeps for
the player, and the sums of the experience and the gains. And the song takes nothing away. -/
def GainFits (conf : GainConf) (w : ExpWorld) (sd : GainPlayer) (baseExp jobExp : ℤ) : Prop :=
  let base := leftExp conf w sd.accountId (scaledExp sd baseExp)
  let job := scaledExp sd jobExp
  sd.idle conf = false →
    ((∀ val1 ∈ sd.richmankim, ScaleFits val1.toInt baseExp ∧ ScaleFits val1.toInt jobExp) ∧
      (0 < guildIdOf w sd.accountId → ∀ p ∈ w.guildOf sd.accountId,
        PayFits conf.guild w p (scaledExp sd baseExp)) ∧
      IsInt (sd.baseExp.toInt + base) ∧ IsInt (sd.jobExp.toInt + job)) ∧
    TakesNothing conf (pcNextbaseafter conf sd).toInt sd.baseExp.toInt base ∧
    TakesNothing conf (pcNextjobafter conf sd).toInt sd.jobExp.toInt job

/-! ## The numbers agree -/

section Exact

variable {conf : GainConf} {w : ExpWorld} {sd : GainPlayer} {val1 : Int64} {exp : Int32}
  {accountId : Int32} {p : GuildPlayer × GuildRecord}

theorem toInt_mul_of_isInt {a b : Int32} (h : IsInt (a.toInt * b.toInt)) :
    (a * b).toInt = a.toInt * b.toInt := by
  obtain ⟨hlo, hhi⟩ := h
  rw [Int32.toInt_mul, Int.bmod_eq_of_le (by omega) (by omega)]

theorem toInt_mul_of_isLong {a b : Int64} (h : IsLong (a.toInt * b.toInt)) :
    (a * b).toInt = a.toInt * b.toInt := by
  obtain ⟨hlo, hhi⟩ := h
  rw [Int64.toInt_mul, Int.bmod_eq_of_le (by omega) (by omega)]

theorem toInt_add_of_isLong {a b : Int64} (h : IsLong (a.toInt + b.toInt)) :
    (a + b).toInt = a.toInt + b.toInt := by
  obtain ⟨hlo, hhi⟩ := h
  rw [Int64.toInt_add, Int.bmod_eq_of_le (by omega) (by omega)]

/-- A quotient by 100 is exact. -/
theorem toInt_div_100 (a : Int32) : (a / 100).toInt = a.toInt.tdiv 100 := by
  have hlo := a.le_toInt
  have hhi := a.toInt_lt
  have hdiv := Int.mul_tdiv_add_tmod a.toInt 100
  have hlt := Int.tmod_lt_of_pos a.toInt (show (0 : ℤ) < 100 by decide)
  have hgt := Int.lt_tmod_of_pos a.toInt (show (0 : ℤ) < 100 by decide)
  have h100 : (100 : Int32).toInt = 100 := rfl
  rw [Int32.toInt_div, h100, Int.bmod_eq_of_le (by omega) (by omega)]

theorem toInt64_div_100 (a : Int64) : (a / 100).toInt = a.toInt.tdiv 100 := by
  obtain ⟨hlo, hhi⟩ := isLong_toInt a
  have hdiv := Int.mul_tdiv_add_tmod a.toInt 100
  have hlt := Int.tmod_lt_of_pos a.toInt (show (0 : ℤ) < 100 by decide)
  have hgt := Int.lt_tmod_of_pos a.toInt (show (0 : ℤ) < 100 by decide)
  have h100 : (100 : Int64).toInt = 100 := rfl
  rw [Int64.toInt_div, h100, Int.bmod_eq_of_le (by omega) (by omega)]

section Song

variable (h1 : IsLong (val1.toInt * 11)) (h2 : IsLong (125 + val1.toInt * 11))

include h1

theorem toInt_mul_11 : (val1 * 11).toInt = val1.toInt * 11 := toInt_mul_of_isLong h1

include h2

theorem toInt_songPercent : (125 + val1 * 11).toInt = 125 + val1.toInt * 11 := by
  have e1 := toInt_mul_11 h1
  rw [toInt_add_of_isLong (by rw [e1]; exact h2), e1]
  rfl

theorem toInt_songProduct (h3 : IsLong (exp.toInt * (125 + val1.toInt * 11))) :
    (exp.toInt64 * (125 + val1 * 11)).toInt = exp.toInt * (125 + val1.toInt * 11) := by
  have e2 := toInt_songPercent h1 h2
  rw [toInt_mul_of_isLong (by rwa [Int32.toInt_toInt64, e2]), Int32.toInt_toInt64, e2]

end Song

theorem scaleExact_iff : ScaleExact val1 exp ↔ ScaleFits val1.toInt exp.toInt := by
  unfold ScaleExact ScaleFits
  refine and_congr_right fun h1 => ?_
  rw [toInt_mul_11 h1]
  refine and_congr_right fun h2 => ?_
  rw [toInt_songPercent h1 h2]
  refine and_congr_right fun h3 => ?_
  rw [toInt64_div_100, toInt_songProduct h1 h2 h3]

/-- A gain under the song, where the numbers fit. -/
theorem toInt_scaleExp (h : ScaleFits val1.toInt exp.toInt) :
    (scaleExp val1 exp).toInt = (exp.toInt * (125 + val1.toInt * 11)).tdiv 100 := by
  obtain ⟨h1, h2, h3, hlo, hhi⟩ := h
  unfold scaleExp
  rw [Int64.toInt_toInt32, toInt64_div_100, toInt_songProduct h1 h2 h3]
  exact Int.bmod_eq_of_le (by omega) (by omega)

theorem toInt_scaled (h : ∀ val1 ∈ sd.richmankim, ScaleFits val1.toInt exp.toInt) :
    (sd.scaled exp).toInt = scaledExp sd exp.toInt := by
  unfold GainPlayer.scaled scaledExp
  cases hsong : sd.richmankim with
  | none => rfl
  | some val1 => exact toInt_scaleExp (h val1 hsong)

theorem payExact_iff : PayExact conf.guild w p exp ↔ PayFits conf.guild w p exp.toInt := by
  have hpos : (0 < payPer conf.guild p.2 p.1.charId) =
      (0 < (payPer conf.guild p.2 p.1.charId).toInt) := by
    rw [Int32.lt_iff_toInt_lt]
    rfl
  unfold PayExact PayFits
  dsimp only
  rw [hpos]
  refine imp_congr_right fun _ => and_congr_right fun hmul => ?_
  have hdiv : (exp * payPer conf.guild p.2 p.1.charId / 100).toInt =
      (exp.toInt * (payPer conf.guild p.2 p.1.charId).toInt).tdiv 100 := by
    rw [toInt_div_100, toInt_mul_of_isInt hmul]
  rw [Int32.lt_iff_toInt_lt, hdiv]
  rfl

theorem payPer_le (g : GuildRecord) (charId : Int32) :
    (payPer conf.guild g charId).toInt ≤ 100 := by
  unfold payPer
  dsimp only
  split
  · exact le_of_eq rfl
  · rename_i hle
    exact Int32.le_iff_toInt_le.mp (Int32.not_lt.mp hle)

/-- What a guild takes is not more than there is. -/
theorem max_tdiv_pay_le {e per : ℤ} (hpos : 0 < per) (hle : per ≤ 100) :
    max 0 ((e * per).tdiv 100) ≤ max 0 e := by
  rcases lt_or_ge e 0 with he | he
  · have hmul : 0 ≤ -(e * per) := neg_nonneg.mpr (mul_nonpos_of_nonpos_of_nonneg he.le hpos.le)
    have hdiv := Int.tdiv_nonneg hmul (show (0 : ℤ) ≤ 100 by decide)
    rw [Int.neg_tdiv] at hdiv
    omega
  · have hmul : e * per ≤ e * 100 := mul_le_mul_of_nonneg_left hle he
    have hdiv : (e * per).tdiv 100 ≤ e := by
      rw [Int.tdiv_eq_ediv_of_nonneg (mul_nonneg he hpos.le)]
      exact Int.ediv_le_of_le_mul (by decide) hmul
    omega

theorem paidExp_le (e : ℤ) :
    0 ≤ paidExp conf w accountId e ∧ paidExp conf w accountId e ≤ max 0 e := by
  unfold paidExp
  split
  · omega
  · rename_i sd g _
    split
    · rename_i hper
      exact ⟨le_max_left _ _,
        max_tdiv_pay_le (Int32.lt_iff_toInt_lt.mp hper) (payPer_le g sd.charId)⟩
    · omega

/-- What `guild_payexp` takes, where the product fits. -/
theorem toInt_guildPayexp
    (hpay : ∀ p ∈ w.guildOf accountId, PayFits conf.guild w p exp.toInt) :
    (guildPayexp conf.guild w accountId exp).2.toInt = paidExp conf w accountId exp.toInt := by
  unfold guildPayexp paidExp
  cases hguild : w.guildOf accountId with
  | none => rfl
  | some p =>
    obtain ⟨sd, g⟩ := p
    dsimp only
    split
    · rename_i hper
      rw [if_neg (Int32.not_lt.mpr hper)]
      rfl
    · rename_i hper
      have hpos : 0 < payPer conf.guild g sd.charId := Int32.not_le.mp hper
      obtain ⟨hmul, -⟩ := hpay (sd, g) hguild (Int32.lt_iff_toInt_lt.mp hpos)
      have hdiv : (exp * payPer conf.guild g sd.charId / 100).toInt =
          (exp.toInt * (payPer conf.guild g sd.charId).toInt).tdiv 100 := by
        rw [toInt_div_100, toInt_mul_of_isInt hmul]
      have h0 : (0 : Int32).toInt = 0 := rfl
      rw [if_pos hpos]
      split
      · rename_i hle
        rw [Int32.le_iff_toInt_le, hdiv, h0] at hle
        show (0 : Int32).toInt = _
        omega
      · rename_i hlt
        rw [Int32.le_iff_toInt_le, hdiv, h0] at hlt
        show (exp * payPer conf.guild g sd.charId / 100).toInt = _
        rw [hdiv]
        omega

/-- The gain that is left for the player. -/
theorem toInt_payGuild
    (hpay : 0 < guildIdOf w accountId → ∀ p ∈ w.guildOf accountId,
      PayFits conf.guild w p exp.toInt) :
    (payGuild conf w accountId exp).2.toInt = leftExp conf w accountId exp.toInt := by
  unfold payGuild leftExp
  split
  · rename_i hid
    have hpaid := toInt_guildPayexp (hpay hid)
    have hle : 0 ≤ paidExp conf w accountId exp.toInt ∧ _ := paidExp_le exp.toInt
    have hlo := exp.le_toInt
    have hlt := exp.toInt_lt
    have hsub : (exp - (guildPayexp conf.guild w accountId exp).2).toInt =
        exp.toInt - paidExp conf w accountId exp.toInt := by
      rw [Int32.toInt_sub, hpaid, Int.bmod_eq_of_le (by omega) (by omega)]
    have h0 : (0 : Int32).toInt = 0 := rfl
    show (if exp - (guildPayexp conf.guild w accountId exp).2 < 0 then 0
      else exp - (guildPayexp conf.guild w accountId exp).2).toInt = _
    split
    · rename_i hneg
      rw [Int32.lt_iff_toInt_lt, hsub, h0] at hneg
      omega
    · rename_i hneg
      rw [Int32.lt_iff_toInt_lt, hsub, h0] at hneg
      rw [hsub]
      omega
  · rfl
/-- The exact numbers fit just where no number of the code wraps round, and the gains that the code
forms take nothing away. -/
theorem gainFits_iff {baseExp jobExp : Int32} (hidle : sd.idle conf = false) :
    GainFits conf w sd baseExp.toInt jobExp.toInt ↔
      GainExact conf w sd baseExp jobExp ∧
        TakesNothing conf (pcNextbaseafter conf sd).toInt sd.baseExp.toInt
          (payGuild conf w sd.accountId (sd.scaled baseExp)).2.toInt ∧
        TakesNothing conf (pcNextjobafter conf sd).toInt sd.jobExp.toInt
          (sd.scaled jobExp).toInt := by
  unfold GainFits GainExact
  simp only [hidle, true_imp_iff, scaleExact_iff, and_assoc]
  refine and_congr_right fun hscale => ?_
  have ebase := toInt_scaled fun val1 h => (hscale val1 h).1
  have ejob := toInt_scaled fun val1 h => (hscale val1 h).2
  simp only [payExact_iff, ebase, ejob]
  refine and_congr_right fun hpay => ?_
  rw [toInt_payGuild (by rwa [ebase]), ebase]

end Exact

/-! ## The two tracks -/

section Tracks

variable {conf : GainConf} {sd sd' sd₀ : GainPlayer} {after exp gain : Int32}

def baseTrack (conf : GainConf) (sd : GainPlayer) : Track :=
  { level := GainPlayer.baseLevel, exp := GainPlayer.baseExp, row := baseRow conf sd }

def jobTrack (conf : GainConf) (sd : GainPlayer) : Track :=
  { level := GainPlayer.jobLevel, exp := GainPlayer.jobExp, row := jobRow conf sd }

/-- What base levels leave alone. -/
def SameJob (sd₀ sd : GainPlayer) : Prop :=
  sd.class_ = sd₀.class_ ∧ sd.jobLevel = sd₀.jobLevel ∧ sd.jobExp = sd₀.jobExp

/-- What job levels leave alone. -/
def SameBase (sd₀ sd : GainPlayer) : Prop :=
  sd.class_ = sd₀.class_ ∧ sd.baseLevel = sd₀.baseLevel ∧ sd.baseExp = sd₀.baseExp

theorem baseRow_congr (h : sd.class_ = sd₀.class_) : baseRow conf sd = baseRow conf sd₀ := by
  unfold baseRow
  rw [h]

theorem jobRow_congr (h : sd.class_ = sd₀.class_) : jobRow conf sd = jobRow conf sd₀ := by
  unfold jobRow
  rw [h]

theorem baseTrack_checks :
    (baseTrack conf sd₀).Checks (pcCheckbaselevelup conf) (SameJob sd₀) where
  none_of sd hkind hcheck := by
    have hrow : baseRow conf sd = baseRow conf sd₀ := baseRow_congr hkind.1
    unfold pcCheckbaselevelup pcNextbaseexp at hcheck
    rw [hrow] at hcheck
    by_cases hpend : nextExp (baseRow conf sd₀) sd.baseLevel ≤ sd.baseExp ∧
        0 < nextExp (baseRow conf sd₀) sd.baseLevel
    · simp only [hpend, and_self, if_true] at hcheck
      cases hcheck
    · rwa [not_and_or, Int32.not_le, Int32.not_lt] at hpend
  some_of sd sd' hkind hcheck := by
    have hrow : baseRow conf sd = baseRow conf sd₀ := baseRow_congr hkind.1
    unfold pcCheckbaselevelup pcNextbaseexp at hcheck
    rw [hrow] at hcheck
    dsimp only at hcheck
    split at hcheck
    · rename_i hpend
      obtain rfl := Option.some.inj hcheck
      exact ⟨hpend.1, hpend.2, rfl, rfl, hkind⟩
    · cases hcheck

theorem jobTrack_checks :
    (jobTrack conf sd₀).Checks (pcCheckjoblevelup conf) (SameBase sd₀) where
  none_of sd hkind hcheck := by
    have hrow : jobRow conf sd = jobRow conf sd₀ := jobRow_congr hkind.1
    unfold pcCheckjoblevelup pcNextjobexp at hcheck
    rw [hrow] at hcheck
    by_cases hpend : nextExp (jobRow conf sd₀) sd.jobLevel ≤ sd.jobExp ∧
        0 < nextExp (jobRow conf sd₀) sd.jobLevel
    · simp only [hpend, and_self, if_true] at hcheck
      cases hcheck
    · rwa [not_and_or, Int32.not_le, Int32.not_lt] at hpend
  some_of sd sd' hkind hcheck := by
    have hrow : jobRow conf sd = jobRow conf sd₀ := jobRow_congr hkind.1
    unfold pcCheckjoblevelup pcNextjobexp at hcheck
    rw [hrow] at hcheck
    dsimp only at hcheck
    split at hcheck
    · rename_i hpend
      obtain rfl := Option.some.inj hcheck
      exact ⟨hpend.1, hpend.2, rfl, rfl, hkind⟩
    · cases hcheck

theorem nextAfter_nonneg {row : Fin maxLevel → Int32} (h : ∀ l, 0 ≤ (row l).toInt) (level : UInt8) :
    0 ≤ (nextAfter row level).toInt := by
  unfold nextAfter
  split
  · exact h _
  · exact le_of_eq rfl

/-- The experience is not less than before if and only if the gain takes nothing away. -/
theorem le_addGain_iff (hafter : 0 ≤ after.toInt) (hsum : IsInt (exp.toInt + gain.toInt)) :
    exp.toInt ≤ (addGain exp (cutGain conf after exp gain)).toInt ↔
      TakesNothing conf after.toInt exp.toInt gain.toInt := by
  have hzero : after = 0 ↔ after.toInt = 0 := Int32.toInt_inj.symm
  rw [toInt_addGain_cutGain hafter hsum]
  unfold TakesNothing
  simp only [ne_eq, hzero]
  by_cases hcut : conf.multiLevelUp = 0 ∧ ¬after.toInt = 0 ∧ after.toInt ≤ exp.toInt + gain.toInt
  · rw [if_pos hcut]
    exact ⟨fun _ => .inr (.inr hcut), fun _ => by omega⟩
  · rw [if_neg hcut]
    refine ⟨fun h => ?_, fun h => ?_⟩
    · rcases le_or_gt exp.toInt 0 with hexp | hexp
      · exact .inr (.inl hexp)
      · exact .inl (by omega)
    · rcases h with h | h | h
      · omega
      · omega
      · exact absurd h hcut

/-- A track after a gain: the levels account for the experience, and at most one of them is new
where levels are gained one at a time. -/
theorem gainTrack_spec {T : Track} {check : GainPlayer → Option GainPlayer}
    {Kind : GainPlayer → Prop} {fuel : ℕ} (hfuel : maxLevel < fuel) (h : T.Checks check Kind)
    (hkind : Kind sd) (hrow : ∀ l, 0 ≤ (T.row l).toInt) (hsum : IsInt (exp.toInt + gain.toInt))
    (hexp : T.exp sd = addGain exp (cutGain conf (nextAfter T.row (T.level sd)) exp gain)) :
    ∃ sd', levelLoop check fuel sd = some sd' ∧ Kind sd' ∧ T.level sd ≤ T.level sd' ∧
      (T.exp sd').toInt + consumed T.row (T.level sd) (T.level sd') = (T.exp sd).toInt ∧
      (conf.multiLevelUp = 0 → ¬LevelPending (nextExp T.row (T.level sd)) exp →
        (T.level sd').toNat ≤ (T.level sd).toNat + 1) := by
  obtain ⟨sd', hloop, hkind', hlevel, hexps⟩ :=
    levelLoop_spec h hkind (show maxLevel - (T.level sd).toNat < fuel by omega)
  refine ⟨sd', hloop, hkind', hlevel, hexps, fun hmulti hpend => ?_⟩
  by_cases hne : nextAfter T.row (T.level sd) = 0
  · exact levelLoop_le_one h hkind (.inl hne) hloop
  · have hle := addGain_le_after (nextAfter_nonneg hrow _) hsum hmulti hne
    rw [← hexp] at hle
    by_cases hafter : (T.exp sd).toInt ≤ (nextAfter T.row (T.level sd)).toInt
    · exact levelLoop_le_one h hkind (.inr (Int32.le_iff_toInt_le.mpr hafter)) hloop
    · -- There was too much for two levels before, and not enough for one.
      have hstay : T.exp sd < nextExp T.row (T.level sd) ∨ nextExp T.row (T.level sd) ≤ 0 := by
        unfold LevelPending at hpend
        rw [not_and_or, Int32.not_le, Int32.not_lt] at hpend
        refine hpend.imp_left fun hlt => ?_
        rw [Int32.lt_iff_toInt_lt] at hlt ⊢
        omega
      rw [levelLoop_of_lt h hkind hstay hloop]
      omega

end Tracks

/-! ## The whole gain -/

section Whole

variable {conf : GainConf} {w : ExpWorld} {sd : GainPlayer} {baseExp jobExp : Int32} {fuel : ℕ}

/-- A gain whose sums are exact ends, and is right if and only if it takes nothing away. -/
theorem pcGainexp_spec (htable : ∀ i l, 0 ≤ (conf.expTable i l).toInt)
    (hidle : sd.idle conf = false) (hfuel : maxLevel < fuel)
    (hbase : IsInt (sd.baseExp.toInt +
      (payGuild conf w sd.accountId (sd.scaled baseExp)).2.toInt))
    (hjob : IsInt (sd.jobExp.toInt + (sd.scaled jobExp).toInt)) :
    ∃ w' sd', pcGainexp conf fuel w sd baseExp jobExp = some (w', sd') ∧
      (GainedWell conf sd sd' ↔
        TakesNothing conf (pcNextbaseafter conf sd).toInt sd.baseExp.toInt
          (payGuild conf w sd.accountId (sd.scaled baseExp)).2.toInt ∧
        TakesNothing conf (pcNextjobafter conf sd).toInt sd.jobExp.toInt
          (sd.scaled jobExp).toInt) := by
  have hbaserow : ∀ l, 0 ≤ (baseRow conf sd l).toInt := fun l => htable _ l
  have hjobrow : ∀ l, 0 ≤ (jobRow conf sd l).toInt := fun l => htable _ l
  let g := gained conf sd (payGuild conf w sd.accountId (sd.scaled baseExp)).2 (sd.scaled jobExp)
  obtain ⟨sd₁, hloop₁, ⟨hclass₁, hjoblevel₁, hjobexp₁⟩, hlevel₁, hexp₁, hone₁⟩ :=
    gainTrack_spec hfuel (baseTrack_checks : (baseTrack conf g).Checks _ (SameJob g))
      ⟨rfl, rfl, rfl⟩ hbaserow hbase rfl
  have hrow₁ : jobRow conf sd₁ = jobRow conf sd := jobRow_congr hclass₁
  have hexp₁' : sd₁.jobExp = addGain sd.jobExp (cutGain conf
      (nextAfter (jobRow conf sd₁) sd₁.jobLevel) sd.jobExp (sd.scaled jobExp)) := by
    rw [hjobexp₁, hjoblevel₁, hrow₁]
    rfl
  obtain ⟨sd₂, hloop₂, ⟨-, hbaselevel₂, hbaseexp₂⟩, hlevel₂, hexp₂, hone₂⟩ :=
    gainTrack_spec hfuel (jobTrack_checks : (jobTrack conf sd₁).Checks _ (SameBase sd₁))
      ⟨rfl, rfl, rfl⟩ (by rw [← hrow₁] at hjobrow; exact hjobrow) hjob hexp₁'
  refine ⟨(payGuild conf w sd.accountId (sd.scaled baseExp)).1, sd₂, ?_, ?_⟩
  · unfold pcGainexp
    rw [if_neg (by rw [hidle]; exact Bool.false_ne_true)]
    show (levelLoop (pcCheckbaselevelup conf) fuel g >>= fun sd =>
      levelLoop (pcCheckjoblevelup conf) fuel sd >>= fun sd => pure (_, sd)) = _
    rw [hloop₁, Option.bind_eq_bind, Option.bind_some, hloop₂]
    rfl
  · have ebase : sd₂.baseExp.toInt + consumed (baseRow conf sd) sd.baseLevel sd₂.baseLevel =
        g.baseExp.toInt := by
      rw [hbaselevel₂, hbaseexp₂]
      exact hexp₁
    have ejob : sd₂.jobExp.toInt + consumed (jobRow conf sd) sd.jobLevel sd₂.jobLevel =
        g.jobExp.toInt := by
      rw [← hjobexp₁, ← hrow₁]
      exact hjoblevel₁ ▸ hexp₂
    have hbasekeeps : sd.baseExp.toInt ≤ g.baseExp.toInt ↔ TakesNothing conf
        (pcNextbaseafter conf sd).toInt sd.baseExp.toInt _ :=
      le_addGain_iff (nextAfter_nonneg hbaserow _) hbase
    have hjobkeeps : sd.jobExp.toInt ≤ g.jobExp.toInt ↔ TakesNothing conf
        (pcNextjobafter conf sd).toInt sd.jobExp.toInt _ :=
      le_addGain_iff (nextAfter_nonneg hjobrow _) hjob
    have honejob : conf.multiLevelUp = 0 → ¬LevelPending (pcNextjobexp conf sd) sd.jobExp →
        sd₂.jobLevel.toNat ≤ sd.jobLevel.toNat + 1 := by
      simp only [jobTrack, hrow₁, hjoblevel₁] at hone₂
      exact hone₂
    rw [← hbasekeeps, ← hjobkeeps]
    refine ⟨fun h => ⟨ebase ▸ h.baseExp, ejob ▸ h.jobExp⟩, fun ⟨hb, hj⟩ => ?_⟩
    exact
      { baseLevel := hbaselevel₂ ▸ hlevel₁
        jobLevel := hjoblevel₁ ▸ hlevel₂
        baseExp := le_of_le_of_eq hb ebase.symm
        jobExp := le_of_le_of_eq hj ejob.symm
        oneBase := hbaselevel₂ ▸ hone₁
        oneJob := honejob }

theorem gainedWell_self : GainedWell conf sd sd where
  baseLevel := UInt8.le_refl _
  jobLevel := UInt8.le_refl _
  baseExp := by rw [consumed_self, add_zero]
  jobExp := by rw [consumed_self, add_zero]
  oneBase := fun _ _ => Nat.le_succ _
  oneJob := fun _ _ => Nat.le_succ _

/-- **A gain ends, is right and wraps nowhere round if and only if the exact numbers fit.** -/
theorem pcGainexp_right_iff (conf : GainConf) (w : ExpWorld) (sd : GainPlayer)
    (baseExp jobExp : Int32) (htable : ∀ i l, 0 ≤ conf.expTable i l) :
    (∀ fuel, maxLevel < fuel → ∃ w' sd',
      pcGainexp conf fuel w sd baseExp jobExp = some (w', sd') ∧ GainedWell conf sd sd') ∧
        GainExact conf w sd baseExp jobExp ↔
      GainFits conf w sd baseExp.toInt jobExp.toInt := by
  have htable' : ∀ i l, 0 ≤ (conf.expTable i l).toInt := fun i l =>
    Int32.le_iff_toInt_le.mp (htable i l)
  cases hidle : sd.idle conf with
  | true =>
    have hfits : GainFits conf w sd baseExp.toInt jobExp.toInt := by
      intro h
      rw [hidle] at h
      cases h
    refine ⟨fun _ => hfits, fun _ => ⟨fun fuel _ => ⟨w, sd, ?_, gainedWell_self⟩, ?_⟩⟩
    · unfold pcGainexp
      rw [if_pos hidle]
    · intro h
      rw [hidle] at h
      cases h
  | false =>
    rw [gainFits_iff hidle, and_comm]
    refine and_congr_right fun hexact => ?_
    obtain ⟨-, -, hbase, hjob⟩ := hexact hidle
    constructor
    · intro h
      obtain ⟨w', sd', hrun, hwell⟩ := h (maxLevel + 1) (Nat.lt_succ_self _)
      obtain ⟨w₁, sd₁, hrun₁, hiff⟩ :=
        pcGainexp_spec htable' hidle (Nat.lt_succ_self maxLevel) hbase hjob
      rw [hrun] at hrun₁
      obtain ⟨rfl, rfl⟩ := Prod.mk.inj (Option.some.inj hrun₁)
      exact hiff.mp hwell
    · intro h fuel hfuel
      obtain ⟨w', sd', hrun, hiff⟩ := pcGainexp_spec htable' hidle hfuel hbase hjob
      exact ⟨w', sd', hrun, hiff.mpr h⟩

end Whole

/-- Each level up to 99 takes 1000, and no guild takes anything. -/
def evenConf : GainConf where
  expTable _ l := if l.val < 98 then 1000 else 0
  guild := { accountOf := fun _ => 0, beyond := fun _ _ => 0 }

theorem pcGainexp_right_song :
    (∀ fuel, maxLevel < fuel → ∃ w' sd',
      pcGainexp evenConf fuel {} { accountId := 1, richmankim := some 5 } 500 300 =
        some (w', sd') ∧ GainedWell evenConf { accountId := 1, richmankim := some 5 } sd') ∧
      GainExact evenConf {} { accountId := 1, richmankim := some 5 } 500 300 := by
  refine (pcGainexp_right_iff _ _ _ _ _ fun i l => ?_).mpr fun _ => ⟨⟨?_, ?_, ?_, ?_⟩, ?_, ?_⟩
  · unfold evenConf
    dsimp only
    split <;> decide
  · rintro val1 ⟨⟩
    unfold ScaleFits IsLong
    decide
  · intro hid
    exact absurd hid (by decide)
  · decide
  · decide
  · exact .inl (by decide)
  · exact .inl (by decide)

/-- Who is at the highest level keeps what it gains, until the sum wraps round: all the experience
is gone, and no level is new. -/
theorem pcGainexp_wraps :
    ¬((∀ fuel, maxLevel < fuel → ∃ w' sd',
      pcGainexp evenConf fuel {} { accountId := 1, baseLevel := 99, baseExp := 2000000000 }
        200000000 0 = some (w', sd') ∧
      GainedWell evenConf { accountId := 1, baseLevel := 99, baseExp := 2000000000 } sd') ∧
      GainExact evenConf {} { accountId := 1, baseLevel := 99, baseExp := 2000000000 }
        200000000 0) := by
  rintro ⟨h, -⟩
  obtain ⟨w', sd', hrun, hwell⟩ := h (maxLevel + 1) (Nat.lt_succ_self _)
  have hgone : (pcGainexp evenConf (maxLevel + 1) {}
      { accountId := 1, baseLevel := 99, baseExp := 2000000000 } 200000000 0).map
        (fun r => (r.2.baseExp, r.2.baseLevel)) = some (0, 99) := by
    decide
  rw [hrun] at hgone
  obtain ⟨hexp, hlevel⟩ := Prod.mk.inj (Option.some.inj hgone)
  have hkept := hwell.baseExp
  rw [hexp, hlevel, consumed_self] at hkept
  exact absurd hkept (by decide)

end Nezumi
