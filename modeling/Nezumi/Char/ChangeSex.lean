import Nezumi.Char.Char
import Nezumi.Char.CharText
import Mathlib.Algebra.BigOperators.Group.Finset.Basic

/-!
# A changed sex (`0x2723` in `parse_tologin`, `char/char.c`)

The login-server says that the sex of an account has changed. The char-server goes through its
characters and changes those of the account.

* `changeCharSex` is what happens to one record, `removeSkill` to one of its songs and dances.
* `changesexReply` is the handler, `changeSexLoop` its loop. It has no result when it writes outside
  of `auth_fifo`.
* `skillPoint_changeCharSex`: the points for the removed levels come back, up to what a `short`
  holds.
* `changesexReply_right_iff`: the handler does what it is for if and only if the entries of the
  account in `auth_fifo` are at the places of its records in `char_dat`, as far as they have not got
  the sex already.
-/

namespace Nezumi

/-- `struct mmo_charstatus`: a record with the sex, which is not saved. -/
structure MmoCharstatus extends CharRecord where
  sex : Fin 8 := 0

/-- The fields of `0x2723`, and of the packet that is sent on. -/
structure SexReply where
  accountId : Int32
  sex : UInt8
  gmAccountId : Int32
deriving DecidableEq

/-! ## One record -/

/-- The jobs that have a skill tree for each sex. -/
def songJob (jobclass : Int16) : Bool :=
  jobclass = 19 || jobclass = 20 || jobclass = 4020 || jobclass = 4021 || jobclass = 4042 ||
    jobclass = 4043

/-- The job of the other sex. -/
def changedJob (jobclass : Int16) (sex : UInt8) : Int16 :=
  if jobclass = 19 ∨ jobclass = 20 then if sex ≠ 0 then 19 else 20
  else if jobclass = 4020 ∨ jobclass = 4021 then if sex ≠ 0 then 4020 else 4021
  else if jobclass = 4042 ∨ jobclass = 4043 then if sex ≠ 0 then 4042 else 4043
  else jobclass

/-- One round of the loops over the skills. -/
def removeSkill (c : MmoCharstatus) (j : Fin maxSkill) : MmoCharstatus :=
  let s := c.skill j
  if 0 < s.id ∧ s.flag ≠ 1 ∧ s.flag ≠ 13 then
    if 2 ≤ s.flag then
      { c with skillPoint := c.skillPoint + (Int16.ofNat s.flag.toNat - 2)
               skill := Function.update c.skill j { s with flag := 1, lv := 1 } }
    else
      { c with skillPoint := c.skillPoint + Int16.ofNat s.lv.toNat
               skill := Function.update c.skill j { s with id := 0, lv := 0 } }
  else c

/-- Eight skills, from `first` on. -/
def skillRow (first : ℕ) (h : first + 8 ≤ maxSkill) : List (Fin maxSkill) :=
  (List.finRange 8).map fun k => ⟨first + k.val, by have := k.isLt; omega⟩

/-- The skills of the jobs 19, 4020 and 4042. -/
def songSkills : List (Fin maxSkill) := skillRow 315 (by decide)

/-- The skills of the jobs 20, 4021 and 4043. -/
def danceSkills : List (Fin maxSkill) := skillRow 323 (by decide)

/-- Equipment does not stay on. -/
def unequip (inventory : Fin maxInventory → Item) : Fin maxInventory → Item := fun j =>
  let it := inventory j
  if it.nameid ≠ 0 ∧ it.equip ≠ 0 then { it with equip := 0 } else it

/-- What the loop does with a record of the account. -/
def changeCharSex (sex : UInt8) (c : MmoCharstatus) : MmoCharstatus :=
  let jobclass := c.cls
  let c := { c with sex := Fin.ofNat 8 sex.toNat }
  let c := if songJob jobclass then
      let c := { c with cls := changedJob jobclass sex }
      let c := songSkills.foldl removeSkill c
      danceSkills.foldl removeSkill c
    else c
  { c with inventory := unequip c.inventory
           weapon := 0
           shield := 0
           headTop := 0
           headMid := 0
           headBottom := 0 }

/-! ## The handler -/

/-- `auth_fifo`, with as many entries as the connections need. -/
abbrev CharAuthFifo (n : ℕ) := Fin n → AuthEntry

/-- `auth_fifo[i].sex = sex`. There is no result outside of the table. -/
def setAuthSex {n : ℕ} (authFifo : CharAuthFifo n) (i : ℕ) (sex : UInt8) :
    Option (CharAuthFifo n) :=
  if h : i < n then
    some (Function.update authFifo ⟨i, h⟩ { authFifo ⟨i, h⟩ with sex := sex.toNat })
  else none

/-- The loop over `char_dat`, from the record `i` on. -/
def changeSexLoop {n : ℕ} (acc : Int32) (sex : UInt8) :
    (i : ℕ) → List MmoCharstatus → CharAuthFifo n → Option (List MmoCharstatus × CharAuthFifo n)
  | _, [], authFifo => some ([], authFifo)
  | i, c :: cs, authFifo =>
    if c.accountId = acc then
      (setAuthSex authFifo i sex).bind fun authFifo =>
        (changeSexLoop acc sex (i + 1) cs authFifo).map fun r => (changeCharSex sex c :: r.1, r.2)
    else (changeSexLoop acc sex (i + 1) cs authFifo).map fun r => (c :: r.1, r.2)

/-- What the handler leaves: the tables, the account for `disconnect_player` and the packet for the
map-servers. -/
structure SexChange (n : ℕ) where
  charDat : List MmoCharstatus
  authFifo : CharAuthFifo n
  disconnected : Option Int32
  sent : SexReply

/-- `0x2723`. The sex 255 says that it has not changed. -/
def changesexReply {n : ℕ} (charDat : List MmoCharstatus) (authFifo : CharAuthFifo n)
    (r : SexReply) : Option (SexChange n) :=
  if 0 < r.accountId ∧ r.sex ≠ 255 then
    (changeSexLoop r.accountId r.sex 0 charDat authFifo).map fun t =>
      ⟨t.1, t.2, some r.accountId, r⟩
  else some ⟨charDat, authFifo, none, r⟩

/-! ## What it is for -/

/-- The level of a skill that was bought with points. `flag`: 0 for a skill that was learned, 1 for
one that a card lends, 13 for a plagiarised one, and else the learned level and two. -/
def learnedLevel (s : SkillSlot) : ℕ :=
  if s.id = 0 ∨ s.flag = 1 ∨ s.flag = 13 then 0
  else if 2 ≤ s.flag then s.flag.toNat - 2
  else s.lv.toNat

/-- All levels of a record. -/
def learnedLevels (c : MmoCharstatus) : ℕ := ∑ j, learnedLevel (c.skill j)

/-- The levels of the songs and dances. -/
def songLevels (c : MmoCharstatus) : ℕ :=
  ((songSkills ++ danceSkills).map fun j => learnedLevel (c.skill j)).sum

/-- An entry that waits for a client or a map-server. -/
def AuthEntry.Waiting (accountId : Int32) (e : AuthEntry) : Prop :=
  e.accountId = accountId.toInt ∧ e.delflag ≠ 1

instance (accountId : Int32) (e : AuthEntry) : Decidable (e.Waiting accountId) :=
  inferInstanceAs (Decidable (_ ∧ _))

/-- The login-server says that the sex has changed. -/
def SexReply.Changes (r : SexReply) : Prop := 0 < r.accountId ∧ r.sex ≠ 255

instance (r : SexReply) : Decidable r.Changes := inferInstanceAs (Decidable (_ ∧ _))

/-- **What the handler is for.** -/
structure SexChanged {n : ℕ} (charDat : List MmoCharstatus) (authFifo : CharAuthFifo n)
    (r : SexReply) (t : SexChange n) : Prop where
  /-- Records of other accounts stay. -/
  records : t.charDat.length = charDat.length ∧
    ∀ (i : ℕ) (c : MmoCharstatus), charDat[i]? = some c → c.accountId ≠ r.accountId →
      t.charDat[i]? = some c
  /-- Only pending entries of the account change. -/
  entries : ∀ j, ¬ (authFifo j).Waiting r.accountId → t.authFifo j = authFifo j
  /-- They all get the sex. -/
  sex : r.Changes → ∀ j, (authFifo j).Waiting r.accountId → (t.authFifo j).sex = r.sex.toNat
  /-- Points come back for the levels that are taken away. -/
  points : ∀ (i : ℕ) (c c' : MmoCharstatus), charDat[i]? = some c → t.charDat[i]? = some c' →
    c'.skillPoint.toInt = c.skillPoint.toInt + ((learnedLevels c : ℤ) - learnedLevels c')

/-- The handler writes inside of its tables, and does what it is for. -/
def SexChangeRight {n : ℕ} (charDat : List MmoCharstatus) (authFifo : CharAuthFifo n)
    (r : SexReply) : Prop :=
  ∃ t, changesexReply charDat authFifo r = some t ∧ SexChanged charDat authFifo r t

/-! ## Levels and points -/

section Record

variable {c : MmoCharstatus} {j : Fin maxSkill} {js : List (Fin maxSkill)}

/-- What is left of a skill. -/
def removedSkill (s : SkillSlot) : SkillSlot :=
  if 0 < s.id ∧ s.flag ≠ 1 ∧ s.flag ≠ 13 then
    if 2 ≤ s.flag then { s with flag := 1, lv := 1 } else { s with id := 0, lv := 0 }
  else s

/-- No learned level is left. -/
theorem learnedLevel_removedSkill (s : SkillSlot) : learnedLevel (removedSkill s) = 0 := by
  unfold removedSkill
  split
  · split
    · simp [learnedLevel]
    · simp [learnedLevel]
  next h =>
    unfold learnedLevel
    rw [if_pos]
    by_contra hne
    simp only [not_or] at hne
    exact h ⟨UInt16.pos_iff_ne_zero.mpr hne.1, hne.2.1, hne.2.2⟩

theorem removeSkill_skill (c : MmoCharstatus) (j : Fin maxSkill) :
    (removeSkill c j).skill = Function.update c.skill j (removedSkill (c.skill j)) := by
  unfold removeSkill removedSkill
  by_cases h : 0 < (c.skill j).id ∧ (c.skill j).flag ≠ 1 ∧ (c.skill j).flag ≠ 13
  · rw [if_pos h, if_pos h]
    split <;> rfl
  · rw [if_neg h, if_neg h, Function.update_eq_self]

theorem removeSkill_skillPoint (c : MmoCharstatus) (j : Fin maxSkill) :
    (removeSkill c j).skillPoint = c.skillPoint + Int16.ofNat (learnedLevel (c.skill j)) := by
  unfold removeSkill learnedLevel
  by_cases h : 0 < (c.skill j).id ∧ (c.skill j).flag ≠ 1 ∧ (c.skill j).flag ≠ 13
  · have hnot : ¬ ((c.skill j).id = 0 ∨ (c.skill j).flag = 1 ∨ (c.skill j).flag = 13) := by
      simp only [not_or]
      exact ⟨UInt16.pos_iff_ne_zero.mp h.1, h.2.1, h.2.2⟩
    rw [if_pos h, if_neg hnot]
    split
    next hflag =>
      have hle : 2 ≤ (c.skill j).flag.toNat := UInt8.le_iff_toNat_le.mp hflag
      have heq : Int16.ofNat (c.skill j).flag.toNat - 2
          = Int16.ofNat ((c.skill j).flag.toNat - 2) := by
        conv => lhs; rw [show (c.skill j).flag.toNat = (c.skill j).flag.toNat - 2 + 2 by omega]
        rw [Int16.ofNat_add]
        exact Int16.add_sub_cancel _ _
      dsimp only
      rw [heq]
    next => rfl
  · have hzero : (c.skill j).id = 0 ∨ (c.skill j).flag = 1 ∨ (c.skill j).flag = 13 := by
      by_contra hne
      simp only [not_or] at hne
      exact h ⟨UInt16.pos_iff_ne_zero.mpr hne.1, hne.2.1, hne.2.2⟩
    rw [if_neg h, if_pos hzero]
    exact (Int16.add_zero _).symm

/-- The levels that are taken away. -/
theorem learnedLevels_removeSkill (c : MmoCharstatus) (j : Fin maxSkill) :
    learnedLevels (removeSkill c j) + learnedLevel (c.skill j) = learnedLevels c := by
  unfold learnedLevels
  rw [removeSkill_skill, ← Finset.add_sum_erase _ _ (Finset.mem_univ j),
    ← Finset.add_sum_erase _ (fun i => learnedLevel (c.skill i)) (Finset.mem_univ j),
    Function.update_self, learnedLevel_removedSkill]
  have hrest : ∑ i ∈ Finset.univ.erase j,
      learnedLevel (Function.update c.skill j (removedSkill (c.skill j)) i)
        = ∑ i ∈ Finset.univ.erase j, learnedLevel (c.skill i) := by
    refine Finset.sum_congr rfl fun i hi => ?_
    rw [Function.update_of_ne (Finset.ne_of_mem_erase hi)]
  rw [hrest]
  omega

/-- A pass over skills takes their levels away and gives the points for them. -/
theorem foldl_removeSkill (hjs : js.Nodup) :
    learnedLevels (js.foldl removeSkill c) + (js.map fun j => learnedLevel (c.skill j)).sum
        = learnedLevels c ∧
      (js.foldl removeSkill c).skillPoint
        = c.skillPoint + Int16.ofNat (js.map fun j => learnedLevel (c.skill j)).sum := by
  induction js generalizing c with
  | nil => exact ⟨Nat.add_zero _, (Int16.add_zero _).symm⟩
  | cons j js ih =>
    obtain ⟨hj, hjs⟩ := List.nodup_cons.mp hjs
    obtain ⟨hlevels, hpoints⟩ := ih (c := removeSkill c j) hjs
    have hsame : js.map (fun i => learnedLevel ((removeSkill c j).skill i))
        = js.map fun i => learnedLevel (c.skill i) := by
      refine List.map_congr_left fun i hi => ?_
      rw [removeSkill_skill, Function.update_of_ne]
      rintro rfl
      exact hj hi
    rw [hsame] at hlevels hpoints
    rw [List.foldl_cons, List.map_cons, List.sum_cons]
    constructor
    · have := learnedLevels_removeSkill c j
      omega
    · rw [hpoints, removeSkill_skillPoint, Int16.ofNat_add, Int16.add_assoc]

theorem nodup_songs : (songSkills ++ danceSkills).Nodup := by decide

/-- What a changed record has lost in levels and won in points. -/
theorem changeCharSex_levels (sex : UInt8) (c : MmoCharstatus) :
    learnedLevels (changeCharSex sex c) + (if songJob c.cls then songLevels c else 0)
        = learnedLevels c ∧
      (changeCharSex sex c).skillPoint
        = c.skillPoint + Int16.ofNat (if songJob c.cls then songLevels c else 0) := by
  cases hjob : songJob c.cls with
  | false =>
    have heq : (changeCharSex sex c).skill = c.skill ∧
        (changeCharSex sex c).skillPoint = c.skillPoint := by
      simp [changeCharSex, hjob]
    unfold learnedLevels
    rw [heq.1, heq.2]
    exact ⟨Nat.add_zero _, (Int16.add_zero _).symm⟩
  | true =>
    have heq : ∃ c' : MmoCharstatus, c'.skill = c.skill ∧ c'.skillPoint = c.skillPoint ∧
        (changeCharSex sex c).skill = ((songSkills ++ danceSkills).foldl removeSkill c').skill ∧
        (changeCharSex sex c).skillPoint
          = ((songSkills ++ danceSkills).foldl removeSkill c').skillPoint := by
      refine ⟨{ c with sex := Fin.ofNat 8 sex.toNat, cls := changedJob c.cls sex }, rfl, rfl, ?_⟩
      simp [changeCharSex, hjob, List.foldl_append]
    obtain ⟨c', hskill, hpoint, hskill', hpoint'⟩ := heq
    obtain ⟨hlevels, hpoints⟩ := foldl_removeSkill (c := c') nodup_songs
    rw [hskill] at hlevels hpoints
    unfold learnedLevels songLevels at *
    rw [hskill] at hlevels
    rw [hskill', hpoint', hpoints, hpoint]
    exact ⟨hlevels, rfl⟩

/-- A `short` grows by a number exactly if it has room. -/
theorem toInt_add_ofNat_iff (a : Int16) (m : ℕ) :
    (a + Int16.ofNat m).toInt = a.toInt + m ↔ a.toInt + m < 2 ^ 15 := by
  have hlt := (a + Int16.ofNat m).toInt_lt
  have hle := a.le_toInt
  constructor
  · intro h
    omega
  · intro h
    rw [Int16.toInt_add, Int16.toInt_ofNat', Int.add_bmod_bmod]
    have hsize : (Int16.size : ℤ) = 65536 := rfl
    exact Int.bmod_eq_of_le (by omega) (by omega)

/-- **The points of a changed record** are right as far as they fit. -/
theorem skillPoint_changeCharSex (sex : UInt8) (c : MmoCharstatus) :
    (changeCharSex sex c).skillPoint.toInt
        = c.skillPoint.toInt + ((learnedLevels c : ℤ) - learnedLevels (changeCharSex sex c)) ↔
      (songJob c.cls → c.skillPoint.toInt + songLevels c < 2 ^ 15) := by
  obtain ⟨hlevels, hpoints⟩ := changeCharSex_levels sex c
  have hlt := c.skillPoint.toInt_lt
  have hdiff : (learnedLevels c : ℤ) - learnedLevels (changeCharSex sex c)
      = (if songJob c.cls then songLevels c else 0 : ℕ) := by omega
  rw [hpoints, hdiff, toInt_add_ofNat_iff]
  cases songJob c.cls
  · simp only [Bool.false_eq_true, if_false, false_imp_iff, iff_true]
    omega
  · simp only [if_true, true_imp_iff]

end Record

/-! ## The loop -/

section Loop

variable {n : ℕ} {acc : Int32} {sex : UInt8} {cs cs' : List MmoCharstatus}
  {authFifo authFifo' : CharAuthFifo n}

/-- The place of a record of the account. -/
def RecordAt (acc : Int32) (cs : List MmoCharstatus) (k : ℕ) : Prop :=
  ∃ c ∈ cs[k]?, c.accountId = acc

instance (acc : Int32) (cs : List MmoCharstatus) (k : ℕ) : Decidable (RecordAt acc cs k) :=
  inferInstanceAs (Decidable (∃ _ ∈ _, _))

theorem recordAt_zero {c : MmoCharstatus} : RecordAt acc (c :: cs) 0 ↔ c.accountId = acc := by
  simp [RecordAt]

theorem recordAt_succ {c : MmoCharstatus} {k : ℕ} :
    RecordAt acc (c :: cs) (k + 1) ↔ RecordAt acc cs k := by
  simp [RecordAt]

/-- A loop that ends has written the sex to the places of the records. -/
theorem changeSexLoop_some {i : ℕ}
    (h : changeSexLoop acc sex i cs authFifo = some (cs', authFifo')) :
    cs' = cs.map (fun c => if c.accountId = acc then changeCharSex sex c else c) ∧
      (∀ k, RecordAt acc cs k → i + k < n) ∧
      ∀ j, authFifo' j = if i ≤ j.val ∧ RecordAt acc cs (j.val - i)
        then { authFifo j with sex := sex.toNat } else authFifo j := by
  induction cs generalizing i authFifo cs' with
  | nil =>
    obtain ⟨rfl, rfl⟩ : [] = cs' ∧ authFifo = authFifo' := by simpa [changeSexLoop] using h
    refine ⟨rfl, by simp [RecordAt], fun j => ?_⟩
    rw [if_neg (by simp [RecordAt])]
  | cons c cs ih =>
    unfold changeSexLoop at h
    split at h
    next hacc =>
      obtain ⟨fifo, hset, h⟩ := Option.bind_eq_some_iff.mp h
      obtain ⟨⟨rs, fifo'⟩, hloop, heq⟩ := Option.map_eq_some_iff.mp h
      obtain ⟨rfl, rfl⟩ : changeCharSex sex c :: rs = cs' ∧ fifo' = authFifo' := by simpa using heq
      obtain ⟨hrs, hplaces, hfifo⟩ := ih hloop
      unfold setAuthSex at hset
      split at hset
      next hi =>
        obtain rfl := Option.some.inj hset
        refine ⟨?_, ?_, fun j => ?_⟩
        · rw [hrs, List.map_cons, if_pos hacc]
        · rintro (_ | k) hk
          · exact hi
          · have := hplaces k (recordAt_succ.mp hk)
            omega
        · rw [hfifo j]
          rcases Nat.lt_trichotomy j.val i with hlt | heq | hgt
          · rw [if_neg (by omega), if_neg (by omega), Function.update_of_ne]
            rintro rfl
            exact lt_irrefl _ hlt
          · obtain rfl : j = ⟨i, hi⟩ := Fin.ext heq
            rw [if_neg (by omega), Function.update_self, if_pos]
            refine ⟨le_rfl, ?_⟩
            rw [Nat.sub_self]
            exact recordAt_zero.mpr hacc
          · rw [Function.update_of_ne (by rintro rfl; exact lt_irrefl _ hgt),
              show j.val - i = j.val - (i + 1) + 1 by omega]
            simp only [recordAt_succ, Nat.succ_le_of_lt hgt, hgt.le, true_and]
      next => cases hset
    next hacc =>
      obtain ⟨⟨rs, fifo'⟩, hloop, heq⟩ := Option.map_eq_some_iff.mp h
      obtain ⟨rfl, rfl⟩ : c :: rs = cs' ∧ fifo' = authFifo' := by simpa using heq
      obtain ⟨hrs, hplaces, hfifo⟩ := ih hloop
      refine ⟨?_, ?_, fun j => ?_⟩
      · rw [hrs, List.map_cons, if_neg hacc]
      · rintro (_ | k) hk
        · exact absurd (recordAt_zero.mp hk) hacc
        · have := hplaces k (recordAt_succ.mp hk)
          omega
      · rw [hfifo j]
        rcases Nat.lt_trichotomy j.val i with hlt | heq | hgt
        · rw [if_neg (by omega), if_neg (by omega)]
        · rw [if_neg (by omega), if_neg]
          rw [heq, Nat.sub_self, recordAt_zero]
          exact fun h => hacc h.2
        · rw [show j.val - i = j.val - (i + 1) + 1 by omega]
          simp only [recordAt_succ, Nat.succ_le_of_lt hgt, hgt.le, true_and]

/-- A loop that writes outside has a record at such a place. -/
theorem changeSexLoop_none {i : ℕ} (h : changeSexLoop acc sex i cs authFifo = none) :
    ∃ k, RecordAt acc cs k ∧ n ≤ i + k := by
  induction cs generalizing i authFifo with
  | nil => cases h
  | cons c cs ih =>
    have hnext : ∀ {fifo : CharAuthFifo n}, changeSexLoop acc sex (i + 1) cs fifo = none →
        ∃ k, RecordAt acc (c :: cs) k ∧ n ≤ i + k := by
      intro fifo hfifo
      obtain ⟨k, hk, hle⟩ := ih hfifo
      exact ⟨k + 1, recordAt_succ.mpr hk, by omega⟩
    unfold changeSexLoop at h
    split at h
    next hacc =>
      unfold setAuthSex at h
      split at h
      · exact hnext (Option.map_eq_none_iff.mp h)
      next hi => exact ⟨0, recordAt_zero.mpr hacc, by omega⟩
    next =>
      exact hnext (Option.map_eq_none_iff.mp h)

end Loop

/-! ## The handler does what it is for -/

section Handler

variable {n : ℕ} {charDat : List MmoCharstatus} {authFifo : CharAuthFifo n} {r : SexReply}

/-- The entries of the account are at the places of its records, as far as they have not got the sex
already, and the points fit. -/
structure SexPlaces (charDat : List MmoCharstatus) (authFifo : CharAuthFifo n) (r : SexReply) :
    Prop where
  records : ∀ k, RecordAt r.accountId charDat k → ∃ hk : k < n,
    (authFifo ⟨k, hk⟩).Waiting r.accountId ∨ (authFifo ⟨k, hk⟩).sex = r.sex.toNat
  entries : ∀ j, (authFifo j).Waiting r.accountId → (authFifo j).sex = r.sex.toNat ∨
    RecordAt r.accountId charDat j
  points : ∀ c ∈ charDat, c.accountId = r.accountId → songJob c.cls →
    c.skillPoint.toInt + songLevels c < 2 ^ 15

/-- A reply that changes nothing. -/
theorem sexChangeRight_of_unchanged (h : ¬ r.Changes) : SexChangeRight charDat authFifo r := by
  refine ⟨⟨charDat, authFifo, none, r⟩, if_neg h, ⟨rfl, fun _ _ hc _ => hc⟩, fun _ _ => rfl,
    fun hc => absurd hc h, fun i c c' hc hc' => ?_⟩
  obtain rfl := Option.some.inj (hc.symm.trans hc')
  omega

/-- An entry with another sex is another entry. -/
theorem sex_eq_of_eq {e : AuthEntry} {sex : ℕ} (h : { e with sex := sex } = e) : e.sex = sex :=
  (congrArg AuthEntry.sex h).symm

/-- A handler that does what it is for has its tables in this order. -/
theorem sexPlaces_of_right (hchanges : r.Changes) (h : SexChangeRight charDat authFifo r) :
    SexPlaces charDat authFifo r := by
  obtain ⟨t, ht, hright⟩ := h
  rw [changesexReply, if_pos (show 0 < r.accountId ∧ r.sex ≠ 255 from hchanges)] at ht
  obtain ⟨⟨cs, fifo⟩, hloop, rfl⟩ := Option.map_eq_some_iff.mp ht
  obtain ⟨rfl, hplaces, hfifo⟩ := changeSexLoop_some hloop
  have hwritten : ∀ j, fifo j = if RecordAt r.accountId charDat j
      then { authFifo j with sex := r.sex.toNat } else authFifo j := by
    intro j
    rw [hfifo j, Nat.sub_zero]
    simp only [Nat.zero_le, true_and]
  refine ⟨fun k hk => ?_, fun j hj => ?_, fun c hc hacc => ?_⟩
  · have hkn : k < n := by
      have := hplaces k hk
      omega
    refine ⟨hkn, ?_⟩
    by_cases hp : (authFifo ⟨k, hkn⟩).Waiting r.accountId
    · exact Or.inl hp
    · have hsame := hright.entries ⟨k, hkn⟩ hp
      have hnew := hwritten ⟨k, hkn⟩
      rw [if_pos hk] at hnew
      exact Or.inr (sex_eq_of_eq (hnew.symm.trans hsame))
  · by_cases hk : RecordAt r.accountId charDat j
    · exact Or.inr hk
    · have hsex := hright.sex hchanges j hj
      have hnew := hwritten j
      rw [if_neg hk] at hnew
      exact Or.inl (by rw [← hnew]; exact hsex)
  · obtain ⟨i, hi, rfl⟩ := List.getElem_of_mem hc
    refine (skillPoint_changeCharSex r.sex charDat[i]).mp ?_
    refine hright.points i charDat[i] _ (List.getElem?_eq_getElem hi) ?_
    show (charDat.map _)[i]? = _
    rw [List.getElem?_map, List.getElem?_eq_getElem hi, Option.map_some, if_pos hacc]

/-- Tables in this order get what the handler is for. -/
theorem right_of_sexPlaces (hchanges : r.Changes) (h : SexPlaces charDat authFifo r) :
    SexChangeRight charDat authFifo r := by
  cases hloop : changeSexLoop r.accountId r.sex 0 charDat authFifo with
  | none =>
    obtain ⟨k, hk, hle⟩ := changeSexLoop_none hloop
    obtain ⟨hkn, -⟩ := h.records k hk
    omega
  | some t =>
    obtain ⟨cs, fifo⟩ := t
    obtain ⟨rfl, -, hfifo⟩ := changeSexLoop_some hloop
    refine ⟨_, (if_pos hchanges).trans (Option.map_eq_some_iff.mpr ⟨_, hloop, rfl⟩), ?_⟩
    refine ⟨⟨List.length_map _, fun i c hc hacc => ?_⟩, fun j hj => ?_, fun _ j hj => ?_,
      fun i c c' hc hc' => ?_⟩
    · show (charDat.map _)[i]? = _
      rw [List.getElem?_map, hc, Option.map_some, if_neg hacc]
    · show fifo j = authFifo j
      rw [hfifo j]
      split
      next hk =>
        obtain ⟨hkn, hp | hsex⟩ := h.records _ hk.2
        · exact absurd hp hj
        · have heq : (authFifo j).sex = r.sex.toNat := hsex
          rw [← heq]
      next => rfl
    · show (fifo j).sex = r.sex.toNat
      rw [hfifo j]
      split
      next => rfl
      next hk =>
        rcases h.entries j hj with hsex | hat
        · exact hsex
        · exact absurd ⟨Nat.zero_le _, hat⟩ hk
    · have hmap : (charDat.map fun c =>
          if c.accountId = r.accountId then changeCharSex r.sex c else c)[i]? = some c' := hc'
      rw [List.getElem?_map, hc, Option.map_some] at hmap
      obtain rfl := Option.some.inj hmap
      split
      next hacc =>
        exact (skillPoint_changeCharSex r.sex c).mpr (h.points c (List.mem_of_getElem? hc) hacc)
      next => omega

/-- **A changed sex** reaches the records and the waiting entries of the account, and nothing else,
if and only if both are at the same places. -/
theorem changesexReply_right_iff (charDat : List MmoCharstatus) (authFifo : CharAuthFifo n)
    (r : SexReply) :
    SexChangeRight charDat authFifo r ↔ (r.Changes → SexPlaces charDat authFifo r) := by
  by_cases hchanges : r.Changes
  · exact ⟨fun h _ => sexPlaces_of_right hchanges h,
      fun h => right_of_sexPlaces hchanges (h hchanges)⟩
  · exact ⟨fun _ h => absurd h hchanges, fun _ => sexChangeRight_of_unchanged hchanges⟩

/-- The first record of the file and the first waiting entry belong to two accounts. -/
theorem changesexReply_wrong :
    ¬ SexChangeRight [{ accountId := 2000001, sex := 1 }]
      (fun j : Fin authFifoSize =>
        if j.val = 0 then { accountId := 2000002, sex := 1, delflag := 2 }
        else if j.val = 1 then { accountId := 2000001, sex := 1, delflag := 2 } else {})
      ⟨2000001, 0, -1⟩ := by
  intro h
  obtain ⟨hk, hp | hsex⟩ := (sexPlaces_of_right (by decide) h).records 0 (by decide)
  · have hother : AuthEntry.Waiting 2000001 { accountId := 2000002, sex := 1, delflag := 2 } := hp
    exact absurd hother (by decide)
  · have hsame : (1 : ℕ) = 0 := hsex
    cases hsame

end Handler

end Nezumi
