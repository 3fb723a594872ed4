import Mathlib.Algebra.BigOperators.Group.List.Basic
import Nezumi.Map.GainExp

/-!
# The status points of a player (`map/pc.c`)

A new level brings points, which raise the six values one by one, each step at a higher price. An
item or an npc takes all of it back: the values are 1 again, and the points are those of a table.

* `statp`: the table, as it is generated. `db/statpoint.txt` has the same numbers.
* `pcNeedStatusPoint`, `pcStatusup`, `pcResetstate`, `pcResetlvl`: the functions of these names.
* `GainPlayer.used`: the points that are left, and what the values have cost.
* `statusStep_budgeted`: a step keeps that within what the table gives for the level.
* `statusRun_budget`: so does every run of a character that `make_new_char` has let pass.

The status that is calculated from the values and the packets are left out, of `pc_resetlvl` also
the skills, the option and what is worn.
-/

namespace Nezumi

/-! ## Prices -/

/-- `statp`, from the level 1. -/
def statp : ℕ → ℤ
  | 0 => 45 + 15 / 5
  | i + 1 => statp i + (i + 1 + 15) / 5

/-- What it costs to raise a value from 1 by `n`. -/
def spentBy : ℕ → ℤ
  | 0 => 0
  | n + 1 => spentBy n + ((n + 1 + 9) / 10 + 1)

def spent (v : Int16) : ℤ := spentBy (v.toInt - 1).toNat

theorem statp_mono {i j : ℕ} (h : i ≤ j) : statp i ≤ statp j := by
  induction j, h using Nat.le_induction with
  | base => exact le_refl _
  | succ j _ ih => grind [statp]

/-- The highest entry of the table. -/
theorem statp_le {i : ℕ} (h : i < maxLevel) : statp i ≤ 7185 :=
  (statp_mono (Nat.le_of_lt_succ h)).trans (by decide +kernel)

theorem statp_pos (i : ℕ) : 48 ≤ statp i :=
  (show 48 ≤ statp 0 by decide).trans (statp_mono i.zero_le)

theorem le_spentBy (n : ℕ) : (n : ℤ) ≤ spentBy n := by
  induction n with
  | zero => exact le_refl _
  | succ n ih => grind [spentBy]

theorem spent_nonneg (v : Int16) : 0 ≤ spent v := (Int.natCast_nonneg _).trans (le_spentBy _)

theorem le_spent {v : Int16} : v.toInt - 1 ≤ spent v :=
  (Int.self_le_toNat _).trans (le_spentBy _)

/-! ## The values -/

/-- `SP_STR` to `SP_LUK` -/
inductive Param
  | str | agi | vit | int_ | dex | luk
deriving DecidableEq

namespace Param

def all : List Param := [str, agi, vit, int_, dex, luk]

/-- The value of a `type`, of which `SP_STR` is 13. -/
def ofType (type : ℤ) : Option Param := if 13 ≤ type then all[(type - 13).toNat]? else none

end Param

namespace GainPlayer

def param (sd : GainPlayer) : Param → Int16
  | .str => sd.str
  | .agi => sd.agi
  | .vit => sd.vit
  | .int_ => sd.int_
  | .dex => sd.dex
  | .luk => sd.luk

def setParam (sd : GainPlayer) (v : Int16) : Param → GainPlayer
  | .str => { sd with str := v }
  | .agi => { sd with agi := v }
  | .vit => { sd with vit := v }
  | .int_ => { sd with int_ := v }
  | .dex => { sd with dex := v }
  | .luk => { sd with luk := v }

end GainPlayer

/-- A player with the kind of its class, `class_` in the source. -/
structure StatusPlayer extends GainPlayer where
  mapid : BitVec 32 := 0

/-- `class_ & JOBL_UPPER` -/
def StatusPlayer.upper (sd : StatusPlayer) : Bool := sd.mapid &&& 0x1000 ≠ 0

/-- `class_ & JOBL_BABY` -/
def StatusPlayer.baby (sd : StatusPlayer) : Bool := sd.mapid &&& 0x2000 ≠ 0

/-- `pc_need_status_point` -/
def pcNeedStatusPoint (sd : GainPlayer) (type : ℤ) : ℤ :=
  match Param.ofType type with
  | none => -1
  | some p => ((sd.param p).toInt + 9).tdiv 10 + 1

/-- The points after the value of one of the six is raised. -/
def GainPlayer.withPoints (conf : GainConf) (sd : GainPlayer) (points : Int16) : GainPlayer :=
  { sd with statusPoint := if sd.maxed conf then 0 else points }

/-- `pc_statusup` -/
def pcStatusup (conf : GainConf) (sd : StatusPlayer) (type : ℤ) : StatusPlayer :=
  let max := if sd.baby then 80 else conf.maxParameter.toInt
  let need := pcNeedStatusPoint sd.toGainPlayer type
  match Param.ofType type with
  | none => sd
  | some p =>
    if need < 0 ∨ sd.statusPoint.toInt < need ∨ max ≤ (sd.param p).toInt then sd
    else
      { sd with
        toGainPlayer := (sd.setParam (sd.param p + 1) p).withPoints conf
          (Int16.ofInt (sd.statusPoint.toInt - need)) }

/-- `pc_resetstate` -/
def pcResetstate (sd : StatusPlayer) : StatusPlayer :=
  let lv := min sd.baseLevel.toNat maxLevel
  let points := Int16.ofInt (statp (lv - 1))
  { sd with
    statusPoint := if sd.upper then points + 52 else points
    str := 1
    agi := 1
    vit := 1
    int_ := 1
    dex := 1
    luk := 1 }

/-- `pc_resetlvl` -/
def pcResetlvl (sd : StatusPlayer) (type : ℤ) : StatusPlayer :=
  if type = 1 then
    { sd with
      skillPoint := 0
      baseLevel := 1
      jobLevel := 1
      baseExp := 0
      jobExp := 0
      str := 1
      agi := 1
      vit := 1
      int_ := 1
      dex := 1
      luk := 1
      statusPoint := if sd.class_ = 4001 then 100 else sd.statusPoint }
  else if type = 2 then
    { sd with skillPoint := 0, baseLevel := 1, jobLevel := 1, baseExp := 0, jobExp := 0 }
  else if type = 3 then { sd with baseLevel := 1, baseExp := 0 }
  else if type = 4 then { sd with jobLevel := 1, jobExp := 0 }
  else sd

/-! ## Runs -/

/-- What happens to a player: it gains or loses experience, `pc_checkbaselevelup` and
`pc_checkjoblevelup` are called, a value is raised, an item or an npc resets the values or the
levels, the class changes. -/
inductive StatusEvent
  | exp (baseExp jobExp : Int32)
  | baseLevel
  | jobLevel
  | statusup (type : ℤ)
  | resetstate
  | resetlvl (type : ℤ)
  | jobchange (class_ : Int16) (mapid : BitVec 32)

def statusStep (conf : GainConf) (sd : StatusPlayer) : StatusEvent → StatusPlayer
  | .exp baseExp jobExp => { sd with baseExp := baseExp, jobExp := jobExp }
  | .baseLevel =>
    { sd with toGainPlayer := (pcCheckbaselevelup conf sd.toGainPlayer).getD sd.toGainPlayer }
  | .jobLevel =>
    { sd with toGainPlayer := (pcCheckjoblevelup conf sd.toGainPlayer).getD sd.toGainPlayer }
  | .statusup type => pcStatusup conf sd type
  | .resetstate => pcResetstate sd
  | .resetlvl type => pcResetlvl sd type
  | .jobchange class_ mapid => { sd with class_ := class_, mapid := mapid }

/-- The points that are left, and what the values have cost. -/
def GainPlayer.used (sd : GainPlayer) : ℤ :=
  sd.statusPoint.toInt + (Param.all.map fun p => spent (sd.param p)).sum

/-- What the table gives for the level and the class. -/
def StatusPlayer.budget (sd : StatusPlayer) : ℤ :=
  statp (sd.baseLevel.toNat - 1) + if sd.upper then 52 else 0

/-- The levels are reset for a new life as a high novice only, or the job level alone, and no class
change leads out of the higher classes. -/
def KeepsBudget (sd : StatusPlayer) : StatusEvent → Prop
  | .resetlvl type => type = 1 ∧ sd.class_ = 4001 ∧ sd.upper ∨ type ∉ [1, 2, 3]
  | .jobchange _ mapid => sd.upper → mapid &&& 0x1000 ≠ 0
  | _ => True

structure BudgetInv (sd : StatusPlayer) : Prop where
  level : 0 < sd.baseLevel.toNat
  points : 0 ≤ sd.statusPoint.toInt
  params : ∀ p, 1 ≤ (sd.param p).toInt
  used : sd.used ≤ sd.budget

section Steps

variable {conf : GainConf} {sd : StatusPlayer}

theorem baseLevel_lt (sd : StatusPlayer) : sd.baseLevel.toNat - 1 < maxLevel := by
  have := sd.baseLevel.toNat_lt
  unfold maxLevel
  omega

theorem StatusPlayer.budget_le (sd : StatusPlayer) : sd.budget ≤ 7237 := by
  have := statp_le (baseLevel_lt sd)
  unfold StatusPlayer.budget
  split <;> omega

theorem StatusPlayer.le_budget (sd : StatusPlayer) : 0 ≤ sd.budget := by
  have := statp_pos (sd.baseLevel.toNat - 1)
  unfold StatusPlayer.budget
  split <;> omega

theorem used_eq (sd : GainPlayer) :
    sd.used = sd.statusPoint.toInt + (spent sd.str + spent sd.agi + spent sd.vit + spent sd.int_ +
      spent sd.dex + spent sd.luk) := by
  simp only [GainPlayer.used, Param.all, List.map_cons, List.map_nil, List.sum_cons, List.sum_nil,
    GainPlayer.param]
  omega

theorem spent_le_used (sd : GainPlayer) (p : Param) :
    sd.statusPoint.toInt + spent (sd.param p) ≤ sd.used := by
  have hstr := spent_nonneg sd.str
  have hagi := spent_nonneg sd.agi
  have hvit := spent_nonneg sd.vit
  have hint := spent_nonneg sd.int_
  have hdex := spent_nonneg sd.dex
  have hluk := spent_nonneg sd.luk
  rw [used_eq]
  cases p <;> simp only [GainPlayer.param] <;> omega

theorem toInt_ofInt_small {x : ℤ} (hlo : 0 ≤ x) (hhi : x < 2 ^ 15) : (Int16.ofInt x).toInt = x :=
  Int16.toInt_ofInt_of_le (by omega) hhi

/-- A value that is raised by one. -/
theorem spent_add_one {v : Int16} (hlo : 1 ≤ v.toInt) (hhi : v.toInt < 2 ^ 15 - 1) :
    (v + 1).toInt = v.toInt + 1 ∧ spent (v + 1) = spent v + ((v.toInt + 9).tdiv 10 + 1) := by
  have hadd : (v + 1).toInt = v.toInt + 1 := by
    rw [Int16.toInt_add, show (1 : Int16).toInt = 1 from rfl,
      Int.bmod_eq_of_le (by omega) (by omega)]
  refine ⟨hadd, ?_⟩
  obtain ⟨n, hn⟩ : ∃ n : ℕ, v.toInt = n + 1 := ⟨(v.toInt - 1).toNat, by omega⟩
  unfold spent
  rw [hadd, hn, show ((n : ℤ) + 1 + 1 - 1).toNat = n + 1 by omega,
    show ((n : ℤ) + 1 - 1).toNat = n by omega, Int.tdiv_eq_ediv_of_nonneg (by omega)]
  rfl

theorem param_setParam (sd : GainPlayer) (v : Int16) (p q : Param) :
    (sd.setParam v p).param q = if q = p then v else sd.param q := by
  cases p <;> cases q <;> rfl

theorem used_setParam (sd : GainPlayer) (v : Int16) (p : Param) :
    (sd.setParam v p).used = sd.used - spent (sd.param p) + spent v := by
  rw [used_eq, used_eq]
  cases p <;> simp only [GainPlayer.setParam, GainPlayer.param] <;> omega

@[simp] theorem statusPoint_setParam (sd : GainPlayer) (v : Int16) (p : Param) :
    (sd.setParam v p).statusPoint = sd.statusPoint := by
  cases p <;> rfl

@[simp] theorem baseLevel_setParam (sd : GainPlayer) (v : Int16) (p : Param) :
    (sd.setParam v p).baseLevel = sd.baseLevel := by
  cases p <;> rfl

@[simp] theorem param_withPoints (conf : GainConf) (sd : GainPlayer) (v : Int16) (p : Param) :
    (sd.withPoints conf v).param p = sd.param p := by
  cases p <;> rfl

theorem toInt_withPoints (conf : GainConf) (sd : GainPlayer) (v : Int16) :
    (sd.withPoints conf v).statusPoint.toInt = if sd.maxed conf then 0 else v.toInt := by
  unfold GainPlayer.withPoints
  by_cases hmax : sd.maxed conf = true
  · rw [if_pos hmax, if_pos hmax]
    rfl
  · rw [if_neg hmax, if_neg hmax]

theorem used_withPoints (conf : GainConf) (sd : GainPlayer) (v : Int16) :
    (sd.withPoints conf v).used =
      sd.used - sd.statusPoint.toInt + if sd.maxed conf then 0 else v.toInt := by
  have hv := toInt_withPoints conf sd v
  rw [used_eq, used_eq, hv]
  simp only [GainPlayer.withPoints]
  omega

/-- What a new level does. -/
theorem pcCheckbaselevelup_cases (conf : GainConf) (sd : GainPlayer) :
    pcCheckbaselevelup conf sd = none ∨ sd.baseLevel.toNat < maxLevel ∧
      pcCheckbaselevelup conf sd = some
        { sd.withPoints conf
            (sd.statusPoint + Int16.ofNat (((sd.baseLevel + 1).toNat + 14) / 5)) with
          baseExp := sd.baseExp - pcNextbaseexp conf sd
          baseLevel := sd.baseLevel + 1 } := by
  unfold pcCheckbaselevelup
  extract_lets next level points
  split
  · rename_i hnext
    exact .inr ⟨level_lt hnext.2, rfl⟩
  · exact .inl rfl

/-- What raising a value does. -/
theorem pcStatusup_cases (conf : GainConf) (sd : StatusPlayer) (type : ℤ) :
    pcStatusup conf sd type = sd ∨ ∃ p need, need = ((sd.param p).toInt + 9).tdiv 10 + 1 ∧
      need ≤ sd.statusPoint.toInt ∧ pcStatusup conf sd type =
        { sd with
          toGainPlayer := (sd.setParam (sd.param p + 1) p).withPoints conf
            (Int16.ofInt (sd.statusPoint.toInt - need)) } := by
  unfold pcStatusup
  extract_lets max need
  split
  · exact .inl rfl
  · rename_i p hp
    split
    · exact .inl rfl
    · rename_i hneed
      refine .inr ⟨p, need, ?_, by omega, rfl⟩
      simp only [need, pcNeedStatusPoint, hp]

/-- The budget of the next level. -/
theorem statp_level {n : ℕ} (h : 0 < n) :
    statp (n + 1 - 1) = statp (n - 1) + ((n + 1 + 14) / 5 : ℕ) := by
  obtain ⟨k, rfl⟩ : ∃ k, n = k + 1 := ⟨n - 1, by omega⟩
  rw [show k + 1 + 1 - 1 = k + 1 by omega, show k + 1 - 1 = k by omega, statp]
  omega

/-- The invariant, and all of the budget used if it was and the step gives up nothing. -/
structure Budgeted (conf : GainConf) (sd sd' : StatusPlayer) : Prop where
  inv : BudgetInv sd'
  whole : sd'.maxed conf = false → sd'.upper = sd.upper → sd.used = sd.budget →
    sd'.used = sd'.budget

/-- Neither the next level nor its points wrap round. -/
theorem toInt_levelPoints (h : BudgetInv sd) (hlt : sd.baseLevel.toNat < maxLevel) :
    (sd.baseLevel + 1).toNat = sd.baseLevel.toNat + 1 ∧
    (sd.statusPoint + Int16.ofNat (((sd.baseLevel + 1).toNat + 14) / 5)).toInt =
      sd.statusPoint.toInt + ((sd.baseLevel.toNat + 1 + 14) / 5 : ℕ) := by
  unfold maxLevel at hlt
  have hnext : (sd.baseLevel + 1).toNat = sd.baseLevel.toNat + 1 := by
    rw [UInt8.toNat_add, show (1 : UInt8).toNat = 1 from rfl]
    omega
  have hgive : (Int16.ofNat (((sd.baseLevel + 1).toNat + 14) / 5)).toInt =
      ((sd.baseLevel.toNat + 1 + 14) / 5 : ℕ) := by
    rw [hnext]
    exact Int16.toInt_ofNat_of_lt (by omega)
  have hspent := spent_le_used sd.toGainPlayer .str
  have hcost := spent_nonneg (sd.param .str)
  have hle := h.used
  have hbudget := sd.budget_le
  have hpos := h.points
  refine ⟨hnext, ?_⟩
  rw [Int16.toInt_add, hgive, Int.bmod_eq_of_le (by omega) (by omega)]

theorem budgeted_baseLevel (h : BudgetInv sd) (conf : GainConf) :
    Budgeted conf sd (statusStep conf sd .baseLevel) := by
  obtain hnone | ⟨hlt, hsome⟩ := pcCheckbaselevelup_cases conf sd.toGainPlayer
  · have hsame : statusStep conf sd .baseLevel = sd := by
      simp only [statusStep, hnone, Option.getD_none]
    rw [hsame]
    exact ⟨h, fun _ _ he => he⟩
  · obtain ⟨sd', hsd'⟩ : ∃ sd', statusStep conf sd .baseLevel = sd' := ⟨_, rfl⟩
    obtain ⟨hnext, hadd⟩ := toInt_levelPoints h hlt
    have hused : sd'.used = sd.used - sd.statusPoint.toInt + if sd.maxed conf then 0 else
        sd.statusPoint.toInt + ((sd.baseLevel.toNat + 1 + 14) / 5 : ℕ) := by
      rw [← hadd, ← used_withPoints, ← hsd']
      simp only [statusStep, hsome]
      rfl
    have hbudget : sd'.budget = sd.budget + ((sd.baseLevel.toNat + 1 + 14) / 5 : ℕ) := by
      have hstatp := statp_level h.level
      rw [← hsd']
      simp only [statusStep, hsome, StatusPlayer.budget, Option.getD_some, hnext]
      rw [hstatp]
      exact add_right_comm _ _ _
    have hmaxed : sd'.maxed conf = sd.maxed conf := by
      rw [← hsd']
      simp only [statusStep, hsome]
      rfl
    have hle := h.used
    have hpos := h.points
    rw [hsd']
    refine ⟨⟨?_, ?_, ?_, ?_⟩, fun hm _ he => ?_⟩
    · rw [← hsd']
      simp only [statusStep, hsome, Option.getD_some, hnext]
      exact Nat.succ_pos _
    · have hpoint : sd'.statusPoint.toInt = if sd.maxed conf then 0 else
          sd.statusPoint.toInt + ((sd.baseLevel.toNat + 1 + 14) / 5 : ℕ) := by
        rw [← hadd, ← toInt_withPoints, ← hsd']
        simp only [statusStep, hsome]
        rfl
      rw [hpoint]
      split <;> omega
    · intro p
      rw [← hsd']
      have hparam := h.params p
      simp only [statusStep, hsome, Option.getD_some]
      cases p <;> exact hparam
    · rw [hused, hbudget]
      split <;> omega
    · rw [hmaxed] at hm
      rw [hused, hbudget, hm, if_neg Bool.false_ne_true]
      omega

/-- Raising a value costs what it needs, and nothing wraps round. -/
theorem raise_spec (h : BudgetInv sd) {p : Param} {need : ℤ}
    (hneed : need = ((sd.param p).toInt + 9).tdiv 10 + 1) (hle : need ≤ sd.statusPoint.toInt) :
    0 < need ∧ (sd.param p + 1).toInt = (sd.param p).toInt + 1 ∧
      spent (sd.param p + 1) = spent (sd.param p) + need ∧
      (Int16.ofInt (sd.statusPoint.toInt - need)).toInt = sd.statusPoint.toInt - need := by
  have hlo := h.params p
  have hpos := h.points
  have hused := h.used
  have hbudget := sd.budget_le
  have hspent := spent_le_used sd.toGainPlayer p
  have hcosts := spent_nonneg (sd.param p)
  have hvalue := le_spent (v := sd.param p)
  obtain ⟨hadd, hcost⟩ := spent_add_one (v := sd.param p) hlo (by omega)
  have hneed0 : 0 < need := by
    rw [hneed, Int.tdiv_eq_ediv_of_nonneg (by omega)]
    omega
  exact ⟨hneed0, hadd, hneed ▸ hcost, toInt_ofInt_small (by omega) (by omega)⟩

theorem budgeted_statusup (h : BudgetInv sd) (conf : GainConf) (type : ℤ) :
    Budgeted conf sd (pcStatusup conf sd type) := by
  obtain hsame | ⟨p, need, hneed, hle, hup⟩ := pcStatusup_cases conf sd type
  · rw [hsame]
    exact ⟨h, fun _ _ he => he⟩
  · obtain ⟨hneed0, hadd, hcost, hpoints⟩ := raise_spec h hneed hle
    have hlo := h.params p
    have hused := h.used
    have hafter : ∀ m, ((sd.setParam (sd.param p + 1) p).withPoints m
        (Int16.ofInt (sd.statusPoint.toInt - need))).used = sd.used + need - sd.statusPoint.toInt +
          if (sd.setParam (sd.param p + 1) p).maxed m then 0 else sd.statusPoint.toInt - need := by
      intro m
      rw [used_withPoints, used_setParam, hcost, hpoints, statusPoint_setParam]
      omega
    have hsame : sd.budget = ({ sd with
        toGainPlayer := (sd.setParam (sd.param p + 1) p).withPoints conf
          (Int16.ofInt (sd.statusPoint.toInt - need)) } : StatusPlayer).budget := by
      cases p <;> rfl
    rw [hup]
    refine ⟨⟨?_, ?_, ?_, ?_⟩, fun hm _ he => ?_⟩
    · have hlevel := h.level
      rw [← baseLevel_setParam sd.toGainPlayer (sd.param p + 1) p] at hlevel
      exact hlevel
    · refine (toInt_withPoints conf _ _).symm ▸ ?_
      rw [hpoints]
      split <;> omega
    · intro q
      have hq := h.params q
      refine (param_withPoints conf _ _ q).symm ▸ ?_
      rw [param_setParam]
      split
      · omega
      · exact hq
    · refine (hafter conf).trans_le (le_trans ?_ (hused.trans (le_of_eq hsame)))
      split <;> omega
    · refine (hafter conf).trans (Eq.trans ?_ (he.trans hsame))
      rw [show (sd.setParam (sd.param p + 1) p).maxed conf = false from hm,
        if_neg Bool.false_ne_true]
      omega

/-- A player whose values are 1 has used the points that it has left. -/
theorem used_of_ones {sd : GainPlayer} (h : ∀ p, sd.param p = 1) :
    sd.used = sd.statusPoint.toInt := by
  have hone : spent 1 = 0 := rfl
  unfold GainPlayer.used
  rw [List.map_congr_left (g := fun _ => (0 : ℤ)) fun p _ => by rw [h p, hone]]
  simp

theorem budgetInv_of_ones {sd : StatusPlayer} (hlevel : 0 < sd.baseLevel.toNat)
    (hones : ∀ p, sd.param p = 1) (hpoints : sd.statusPoint.toInt = sd.budget) :
    BudgetInv sd ∧ sd.used = sd.budget := by
  have hused := (used_of_ones hones).trans hpoints
  refine ⟨⟨hlevel, hpoints ▸ sd.le_budget, fun p => ?_, le_of_eq hused⟩, hused⟩
  rw [hones p]
  decide

theorem budgeted_resetstate (h : BudgetInv sd) (conf : GainConf) :
    Budgeted conf sd (pcResetstate sd) := by
  have hstatp := statp_le (baseLevel_lt sd)
  have hpos := statp_pos (sd.baseLevel.toNat - 1)
  have hmin : min sd.baseLevel.toNat maxLevel = sd.baseLevel.toNat := by
    have := sd.baseLevel.toNat_lt
    unfold maxLevel
    omega
  have hpoints : (pcResetstate sd).statusPoint.toInt = sd.budget := by
    have htable : (Int16.ofInt (statp (sd.baseLevel.toNat - 1))).toInt =
        statp (sd.baseLevel.toNat - 1) := toInt_ofInt_small (by omega) (by omega)
    unfold pcResetstate StatusPlayer.budget
    simp only [hmin]
    split
    · rw [Int16.toInt_add, htable, show (52 : Int16).toInt = 52 from rfl,
        Int.bmod_eq_of_le (by omega) (by omega)]
    · rw [htable, add_zero]
  have hall : BudgetInv (pcResetstate sd) ∧ (pcResetstate sd).used = (pcResetstate sd).budget :=
    budgetInv_of_ones h.level (fun p => by cases p <;> rfl) hpoints
  exact ⟨hall.1, fun _ _ _ => hall.2⟩

theorem budgeted_resetlvl (h : BudgetInv sd) {type : ℤ} (hok : KeepsBudget sd (.resetlvl type))
    (conf : GainConf) : Budgeted conf sd (pcResetlvl sd type) := by
  obtain ⟨rfl, hclass, hupper⟩ | hother := hok
  · have hlevel : (pcResetlvl sd 1).baseLevel = 1 := rfl
    have hpoint : (pcResetlvl sd 1).statusPoint = 100 := if_pos hclass
    have hup : (pcResetlvl sd 1).upper = true := hupper
    have hpoints : (pcResetlvl sd 1).statusPoint.toInt = (pcResetlvl sd 1).budget := by
      unfold StatusPlayer.budget
      rw [hpoint, hlevel, if_pos hup]
      decide
    have hall := budgetInv_of_ones (by rw [hlevel]; decide) (fun p => by cases p <;> rfl) hpoints
    exact ⟨hall.1, fun _ _ _ => hall.2⟩
  · simp only [List.mem_cons, List.not_mem_nil, or_false, not_or] at hother
    unfold pcResetlvl
    rw [if_neg hother.1, if_neg hother.2.1, if_neg hother.2.2]
    split
    · exact ⟨⟨h.level, h.points, h.params, h.used⟩, fun _ _ he => he⟩
    · exact ⟨h, fun _ _ he => he⟩

theorem budgeted_jobchange (h : BudgetInv sd) {class_ : Int16} {mapid : BitVec 32}
    (hok : KeepsBudget sd (.jobchange class_ mapid)) (conf : GainConf) :
    Budgeted conf sd { sd with class_ := class_, mapid := mapid } := by
  refine ⟨⟨h.level, h.points, h.params, h.used.trans ?_⟩, fun _ hupper he => he.trans ?_⟩
  · unfold StatusPlayer.budget
    refine Int.add_le_add_left ?_ _
    split
    · rename_i hupper
      rw [if_pos (show ({ sd with class_ := class_, mapid := mapid } : StatusPlayer).upper = true
        from decide_eq_true (hok hupper))]
    · split <;> decide
  · unfold StatusPlayer.budget
    rw [hupper]

/-- **The step lemma.** -/
theorem statusStep_budgeted (h : BudgetInv sd) (conf : GainConf) {e : StatusEvent}
    (hok : KeepsBudget sd e) : Budgeted conf sd (statusStep conf sd e) := by
  cases e with
  | exp baseExp jobExp => exact ⟨⟨h.level, h.points, h.params, h.used⟩, fun _ _ he => he⟩
  | baseLevel => exact budgeted_baseLevel h conf
  | jobLevel =>
    unfold statusStep pcCheckjoblevelup
    simp only []
    split
    · exact ⟨⟨h.level, h.points, h.params, h.used⟩, fun _ _ he => he⟩
    · exact ⟨h, fun _ _ he => he⟩
  | statusup type => exact budgeted_statusup h conf type
  | resetstate => exact budgeted_resetstate h conf
  | resetlvl type => exact budgeted_resetlvl h hok conf
  | jobchange class_ mapid => exact budgeted_jobchange h hok conf

end Steps

/-! ## The budget -/

/-- No step gives points up: not all values are at their highest, and the class stays as high. -/
def GivesUpNone (conf : GainConf) (sd : StatusPlayer) (e : StatusEvent) : Prop :=
  (statusStep conf sd e).maxed conf = false ∧ (statusStep conf sd e).upper = sd.upper

theorem statusRun_inv (conf : GainConf) {sd : StatusPlayer} (h : BudgetInv sd)
    {es : List StatusEvent} (hok : Run.Meets (statusStep conf) KeepsBudget sd es) :
    BudgetInv (Run.exec (statusStep conf) sd es) :=
  Run.inv_exec (I := BudgetInv) (fun _ _ h hok => (statusStep_budgeted h conf hok).inv) h hok

theorem statusRun_exact (conf : GainConf) {sd : StatusPlayer} (h : BudgetInv sd)
    (hused : sd.used = sd.budget) {es : List StatusEvent}
    (hok : Run.Meets (statusStep conf) KeepsBudget sd es)
    (hnone : Run.Meets (statusStep conf) (GivesUpNone conf) sd es) :
    (Run.exec (statusStep conf) sd es).used = (Run.exec (statusStep conf) sd es).budget :=
  (Run.inv_exec (I := fun sd => BudgetInv sd ∧ sd.used = sd.budget)
    (fun _ _ h hok =>
      have hstep := statusStep_budgeted h.1 conf hok.1
      ⟨hstep.inv, hstep.whole hok.2.1 hok.2.2 h.2⟩) ⟨h, hused⟩ (hok.and hnone)).2

/-- A character that `make_new_char` has let pass. -/
structure NewStatus (sd : StatusPlayer) : Prop where
  level : sd.baseLevel = 1
  points : sd.statusPoint = 0
  lower : sd.upper = false
  params : ∀ p, 1 ≤ (sd.param p).toInt ∧ (sd.param p).toInt ≤ 9
  sum : (Param.all.map fun p => (sd.param p).toInt).sum = 30

theorem spentBy_low {n : ℕ} (h : n ≤ 10) : spentBy n = 2 * n := by
  induction n with
  | zero => rfl
  | succ n ih =>
    rw [spentBy, ih (by omega)]
    omega

theorem spent_low {v : Int16} (h : 1 ≤ v.toInt ∧ v.toInt ≤ 9) : spent v = 2 * v.toInt - 2 := by
  unfold spent
  rw [spentBy_low (by omega)]
  omega

/-- The values of a new character are worth the points of the first level. -/
theorem NewStatus.inv {sd : StatusPlayer} (h : NewStatus sd) :
    BudgetInv sd ∧ sd.used = sd.budget := by
  have hsum := h.sum
  simp only [Param.all, List.map_cons, List.map_nil, List.sum_cons, List.sum_nil,
    GainPlayer.param] at hsum
  have hstr : spent sd.str = 2 * sd.str.toInt - 2 := spent_low (h.params .str)
  have hagi : spent sd.agi = 2 * sd.agi.toInt - 2 := spent_low (h.params .agi)
  have hvit : spent sd.vit = 2 * sd.vit.toInt - 2 := spent_low (h.params .vit)
  have hint : spent sd.int_ = 2 * sd.int_.toInt - 2 := spent_low (h.params .int_)
  have hdex : spent sd.dex = 2 * sd.dex.toInt - 2 := spent_low (h.params .dex)
  have hluk : spent sd.luk = 2 * sd.luk.toInt - 2 := spent_low (h.params .luk)
  have hfirst : sd.budget = 48 := by
    unfold StatusPlayer.budget
    rw [h.level, h.lower]
    decide
  have hused : sd.used = sd.budget := by
    rw [used_eq, hfirst, h.points, show (0 : Int16).toInt = 0 from rfl]
    omega
  refine ⟨⟨?_, ?_, fun p => (h.params p).1, le_of_eq hused⟩, hused⟩
  · rw [h.level]
    decide
  · rw [h.points]
    decide

/-- **The points of a player keep to its budget**: in every run from its creation, what a player
has left and what its values have cost is at most what the table gives for its level, so that a
reset of the values takes none of it. It is all of that as long as points are not given up. -/
theorem statusRun_budget (conf : GainConf) {sd : StatusPlayer} (hnew : NewStatus sd)
    {es : List StatusEvent} (hok : Run.Meets (statusStep conf) KeepsBudget sd es) :
    BudgetInv (Run.exec (statusStep conf) sd es) ∧
      (Run.Meets (statusStep conf) (GivesUpNone conf) sd es →
        (Run.exec (statusStep conf) sd es).used = (Run.exec (statusStep conf) sd es).budget) :=
  ⟨statusRun_inv conf hnew.inv.1 hok, statusRun_exact conf hnew.inv.1 hnew.inv.2 hok⟩

/-- A table with the same number for every level. -/
def flatConf : GainConf where
  expTable _ _ := 10
  guild := { accountOf := fun _ => 0, beyond := fun _ _ => 0 }

/-- A new level, a value that is raised, and a reset. -/
theorem statusRun_budget_raised :
    BudgetInv (Run.exec (statusStep flatConf) { accountId := 1, str := 9, dex := 9, luk := 9 }
      [.exp 10 0, .baseLevel, .statusup 15, .resetstate]) := by
  refine (statusRun_budget flatConf ?_ ?_).1
  · exact ⟨rfl, rfl, by decide, fun p => by cases p <;> decide, by decide⟩
  · exact ⟨trivial, trivial, trivial, trivial, trivial⟩

end Nezumi
