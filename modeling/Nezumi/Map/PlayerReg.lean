import Nezumi.Common.Mmo
import Nezumi.Lib.Run
import Nezumi.Lib.SwapRemove
import Mathlib.Data.List.Dedup
import Mathlib.Data.List.Perm.Subperm

/-!
# The variables of a player (`map/pc.c`)

A player has three tables of variables: his own, those of his account and those that the
login-server keeps. The functions of the three are the same code, but for what some names of the
first do.

* `readRegTable` and `setReg` are the code on one table, `pcReadglobalreg`, `pcSetglobalreg`,
  `pcReadaccountreg`, `pcSetaccountreg`, `pcReadaccountreg2` and `pcSetaccountreg2` the functions.
* `lastValue` is what a variable was set to last, in a list of all calls.
* `setReg_fine`: a table that has the last values keeps them if the name fits in its field.
* `regRun_right_iff`: in a run in which the tables have room, every step is right if and only if
  every name that gets a value has 32 bytes at most.
-/

namespace Nezumi

open Unordered

/-- The name of a variable in a script. -/
structure RegName where
  bytes : List UInt8
  nonempty : bytes ≠ []
  nonzero : ∀ c ∈ bytes, c ≠ 0

theorem RegName.bytes_inj {a b : RegName} : a.bytes = b.bytes ↔ a = b := by
  cases a
  cases b
  simp

instance : DecidableEq RegName := fun _ _ => decidable_of_iff _ RegName.bytes_inj

/-- A text as a name. -/
def RegName.ofText {n : ℕ} (s : CStr n) (h : s.bytes ≠ []) : RegName := ⟨s.bytes, h, s.ne⟩

/-- A table of variables. `dirty`: it must be saved. -/
structure RegTable where
  regs : List GlobalReg := []
  dirty : Bool := false
deriving DecidableEq

/-- `GLOBAL_REG_NUM`, `ACCOUNT_REG_NUM` and `ACCOUNT_REG2_NUM`. -/
def regMax : ℕ := 700

/-- The text that a name is compared with. -/
abbrev regKey (r : GlobalReg) : List UInt8 := r.str.bytes

/-- The loop of the readers. -/
def readRegTable (regs : List GlobalReg) (reg : RegName) : BitVec 32 :=
  match lookup regKey regs reg.bytes with
  | some r => r.value
  | none => 0

/-- The loops of the setters: an entry is deleted, changed or added. -/
def setReg (t : RegTable) (reg : RegName) (val : BitVec 32) : RegTable :=
  if val = 0 then
    match t.regs.findIdx? fun r => regKey r = reg.bytes with
    | some i => ⟨swapRemove t.regs i, true⟩
    | none => t
  else
    match t.regs.findIdx? fun r => regKey r = reg.bytes with
    | some i =>
      if (t.regs.getD i default).value ≠ val then
        ⟨t.regs.set i { t.regs.getD i default with value := val }, true⟩
      else t
    | none =>
      if t.regs.length < regMax then
        ⟨t.regs ++ [{ str := CStr.ofField 32 reg.bytes, value := val }], true⟩
      else t

/-- `global_reg`, `account_reg` and `account_reg2`. -/
inductive RegKind
  | globalReg
  | accountReg
  | accountReg2
deriving DecidableEq

/-- The tables, and what the setter of the first one looks at and changes besides. -/
structure RegPlayer where
  table : RegKind → RegTable := fun _ => {}
  dieCounter : BitVec 32 := 0
  eventDeath : Bool := false
  eventKill : Bool := false
  eventDisconnect : Bool := false
  job : ℤ := 0
  baseLevel : ℕ := 1

/-- The names of events in `script_config`. -/
structure EventNames where
  dieEventName : CStr 24 := cstr 24 "PCDieEvent"
  killEventName : CStr 24 := cstr 24 "PCKillEvent"
  logoutEventName : CStr 24 := cstr 24 "PCLogoutEvent"

def dieCounterName : RegName :=
  .ofText (cstr 32 "PC_DIE_COUNTER") (by decide)

def exstatName : RegName :=
  .ofText (cstr 32 "SN_EXSTAT") (by decide)

def finalbonusName : RegName :=
  .ofText (cstr 32 "SN_FINALBONUS") (by decide)

/-- A table is written. -/
def RegPlayer.store (sd : RegPlayer) (kind : RegKind) (reg : RegName) (val : BitVec 32) :
    RegPlayer :=
  { sd with table := Function.update sd.table kind (setReg (sd.table kind) reg val) }

def pcReadglobalreg (sd : RegPlayer) (reg : RegName) : BitVec 32 :=
  readRegTable (sd.table .globalReg).regs reg

def pcReadaccountreg (sd : RegPlayer) (reg : RegName) : BitVec 32 :=
  readRegTable (sd.table .accountReg).regs reg

def pcReadaccountreg2 (sd : RegPlayer) (reg : RegName) : BitVec 32 :=
  readRegTable (sd.table .accountReg2).regs reg

/-- `pc_setglobalreg` for a name that asks for no recalculation: some names are those of events. -/
def setEventReg (names : EventNames) (sd : RegPlayer) (reg : RegName) (val : BitVec 32) :
    RegPlayer :=
  let sd :=
    if reg.bytes = names.dieEventName.bytes then { sd with eventDeath := val.getLsbD 0 }
    else if reg.bytes = names.killEventName.bytes then { sd with eventKill := val.getLsbD 0 }
    else if reg.bytes = names.logoutEventName.bytes then
      { sd with eventDisconnect := val.getLsbD 0 }
    else sd
  sd.store .globalReg reg val

/-- The condition on which `status_calc_pc` sets a variable. -/
def RegPlayer.finalBonus (sd : RegPlayer) : Bool :=
  sd.job = 23 && sd.dieCounter = 0 && 99 ≤ sd.baseLevel && pcReadglobalreg sd exstatName = 0

/-- `status_calc_pc`, as far as it sets variables. -/
def statusCalcReg (names : EventNames) (sd : RegPlayer) : RegPlayer :=
  if sd.finalBonus then setEventReg names sd finalbonusName 1 else sd

def pcSetglobalreg (names : EventNames) (sd : RegPlayer) (reg : RegName) (val : BitVec 32) :
    RegPlayer :=
  if reg.bytes = [] then sd
  else if reg = dieCounterName ∧ sd.dieCounter ≠ val then
    (statusCalcReg names { sd with dieCounter := val }).store .globalReg reg val
  else setEventReg names sd reg val

def pcSetaccountreg (sd : RegPlayer) (reg : RegName) (val : BitVec 32) : RegPlayer :=
  sd.store .accountReg reg val

def pcSetaccountreg2 (sd : RegPlayer) (reg : RegName) (val : BitVec 32) : RegPlayer :=
  sd.store .accountReg2 reg val

/-! ## Runs -/

/-- What happens to a player: a variable is set, a table has been saved, or the values that
`status_calc_pc` looks at change. -/
inductive RegEvent
  | set (kind : RegKind) (reg : RegName) (val : BitVec 32)
  | saved (kind : RegKind)
  | player (job : ℤ) (baseLevel : ℕ) (dieCounter : BitVec 32)

/-- The player, and beside him all calls of the setters, the last one first. -/
structure RegWorld where
  sd : RegPlayer := {}
  calls : RegKind → List (RegName × BitVec 32) := fun _ => []

/-- One event for a player. -/
def regEvent (names : EventNames) (sd : RegPlayer) : RegEvent → RegPlayer
  | .set .globalReg reg val => pcSetglobalreg names sd reg val
  | .set .accountReg reg val => pcSetaccountreg sd reg val
  | .set .accountReg2 reg val => pcSetaccountreg2 sd reg val
  | .saved kind =>
    { sd with table := Function.update sd.table kind { sd.table kind with dirty := false } }
  | .player job baseLevel dieCounter =>
    { sd with job := job, baseLevel := baseLevel, dieCounter := dieCounter }

/-- The recalculation sets a variable before the call that asks for it does. -/
def RegPlayer.recalculates (sd : RegPlayer) (reg : RegName) (val : BitVec 32) : Bool :=
  reg = dieCounterName && sd.dieCounter ≠ val && { sd with dieCounter := val }.finalBonus

/-- The calls of the setters in an event, in order. -/
def callsOf (sd : RegPlayer) : RegEvent → List (RegKind × RegName × BitVec 32)
  | .set .globalReg reg val =>
    (if sd.recalculates reg val then [(.globalReg, finalbonusName, 1)] else [])
      ++ [(.globalReg, reg, val)]
  | .set .accountReg reg val => [(.accountReg, reg, val)]
  | .set .accountReg2 reg val => [(.accountReg2, reg, val)]
  | .saved _ => []
  | .player _ _ _ => []

/-- One more call. -/
def pushCall (calls : RegKind → List (RegName × BitVec 32)) (c : RegKind × RegName × BitVec 32) :
    RegKind → List (RegName × BitVec 32) :=
  Function.update calls c.1 (c.2 :: calls c.1)

def regStep (names : EventNames) (w : RegWorld) (e : RegEvent) : RegWorld where
  sd := regEvent names w.sd e
  calls := (callsOf w.sd e).foldl pushCall w.calls

/-- The value that a name was set to last, 0 if it never was. -/
def lastValue : List (RegName × BitVec 32) → RegName → BitVec 32
  | [], _ => 0
  | (reg, val) :: calls, n => if reg = n then val else lastValue calls n

/-- The names with a value. -/
def namesWithValue (calls : List (RegName × BitVec 32)) : List RegName :=
  (calls.map Prod.fst).dedup.filter fun n => lastValue calls n ≠ 0

/-- **What a step is for.** -/
structure RegStepRight (names : EventNames) (w : RegWorld) (e : RegEvent) : Prop where
  /-- What is read was set last. -/
  read : ∀ kind n, readRegTable ((regStep names w e).sd.table kind).regs n
    = lastValue ((regStep names w e).calls kind) n
  /-- No name is stored twice. -/
  once : ∀ kind, (((regStep names w e).sd.table kind).regs.map regKey).Nodup
  /-- A table that has changed must be saved. -/
  dirty : ∀ kind, ((regStep names w e).sd.table kind).regs ≠ (w.sd.table kind).regs →
    ((regStep names w e).sd.table kind).dirty = true

/-- No call gives more names a value than a table has room for. -/
def CallsFit : (RegKind → List (RegName × BitVec 32)) → List (RegKind × RegName × BitVec 32) → Prop
  | _, [] => True
  | calls, c :: cs =>
    (namesWithValue (pushCall calls c c.1)).length ≤ regMax ∧ CallsFit (pushCall calls c) cs

instance CallsFit.decidable : (calls : RegKind → List (RegName × BitVec 32)) →
    (cs : List (RegKind × RegName × BitVec 32)) → Decidable (CallsFit calls cs)
  | _, [] => .isTrue trivial
  | calls, c :: cs =>
    haveI : Decidable (CallsFit (pushCall calls c) cs) := CallsFit.decidable (pushCall calls c) cs
    inferInstanceAs (Decidable (_ ∧ _))

/-- The tables have room in a step. -/
def RegStepFits (w : RegWorld) (e : RegEvent) : Prop := CallsFit w.calls (callsOf w.sd e)

instance (w : RegWorld) (e : RegEvent) : Decidable (RegStepFits w e) :=
  CallsFit.decidable w.calls (callsOf w.sd e)

/-- A name that gets a value has 32 bytes at most. -/
def NameFits : RegEvent → Prop
  | .set _ reg val => val ≠ 0 → reg.bytes.length ≤ 32
  | .saved _ => True
  | .player _ _ _ => True

instance : (e : RegEvent) → Decidable (NameFits e)
  | .set _ _ _ => inferInstanceAs (Decidable (_ → _))
  | .saved _ => .isTrue trivial
  | .player _ _ _ => .isTrue trivial

/-! ## One table -/

section Table

variable {regs : List GlobalReg} {t : RegTable} {calls : List (RegName × BitVec 32)}
  {reg n : RegName} {val : BitVec 32}

/-- A table that has the values that were set last. -/
structure TableHolds (regs : List GlobalReg) (calls : List (RegName × BitVec 32)) : Prop where
  once : (regs.map regKey).Nodup
  nonempty : ∀ r ∈ regs, regKey r ≠ []
  nonzero : ∀ r ∈ regs, r.value ≠ 0
  read : ∀ n, readRegTable regs n = lastValue calls n

theorem regName_ext (h : reg.bytes = n.bytes) : reg = n := by
  cases reg
  cases n
  simpa using h

theorem lastValue_cons :
    lastValue ((reg, val) :: calls) n = if reg = n then val else lastValue calls n := rfl

theorem mem_namesWithValue : n ∈ namesWithValue calls ↔ lastValue calls n ≠ 0 := by
  unfold namesWithValue
  rw [List.mem_filter, List.mem_dedup, decide_eq_true_eq, and_iff_right_iff_imp]
  induction calls with
  | nil => exact fun h => absurd rfl h
  | cons c calls ih =>
    obtain ⟨reg, val⟩ := c
    intro h
    rw [lastValue_cons] at h
    split at h
    next heq => exact heq ▸ List.mem_cons_self
    next => exact List.mem_cons_of_mem _ (ih h)

/-- A long name is not in a table. -/
theorem readRegTable_long (h : 32 < n.bytes.length) : readRegTable regs n = 0 := by
  have hnone : lookup regKey regs n.bytes = none := by
    refine lookup_eq_none_iff.mpr fun r _ heq => ?_
    have hle : (regKey r).length ≤ 32 := r.str.le
    rw [← heq] at h
    omega
  unfold readRegTable
  rw [hnone]

/-- A name that fits is stored as it is. -/
theorem bytes_ofField_name (h : reg.bytes.length ≤ 32) :
    (CStr.ofField 32 reg.bytes).bytes = reg.bytes :=
  CStr.ofField_bytes ⟨reg.bytes, h, reg.nonzero⟩ le_rfl

theorem readRegTable_of_lookup {r : GlobalReg} (h : lookup regKey regs n.bytes = some r) :
    readRegTable regs n = r.value := by
  unfold readRegTable
  rw [h]

theorem readRegTable_of_none (h : lookup regKey regs n.bytes = none) : readRegTable regs n = 0 := by
  unfold readRegTable
  rw [h]

variable (regs reg) in
/-- Where the entry of one name changes, only that name is read in another way. -/
theorem readRegTable_of_lookup_eq {regs' : List GlobalReg} (o : Option GlobalReg)
    (h : ∀ k, lookup regKey regs' k = if reg.bytes = k then o else lookup regKey regs k) :
    readRegTable regs' n = if reg = n then o.elim 0 GlobalReg.value else readRegTable regs n := by
  unfold readRegTable
  rw [h]
  by_cases heq : reg = n
  · rw [if_pos (congrArg RegName.bytes heq), if_pos heq]
    cases o <;> rfl
  · rw [if_neg fun hb => heq (regName_ext hb), if_neg heq]

/-- What the first loop finds. -/
theorem findIdx_reg {i : ℕ} (h : regs.findIdx? (fun r => regKey r = reg.bytes) = some i) :
    ∃ r, regs[i]? = some r ∧ regKey r = reg.bytes ∧ regs.getD i default = r := by
  obtain ⟨hi, hr, -⟩ := List.findIdx?_eq_some_iff_getElem.mp h
  exact ⟨regs[i], List.getElem?_eq_getElem hi, by simpa using hr, by
    rw [List.getD_eq_getElem?_getD, List.getElem?_eq_getElem hi]
    rfl⟩

theorem findIdx_reg_none (h : regs.findIdx? (fun r => regKey r = reg.bytes) = none) :
    lookup regKey regs reg.bytes = none := by
  refine lookup_eq_none_iff.mpr fun r hr => ?_
  simpa using List.findIdx?_eq_none_iff.mp h r hr

/-- A table without a value for a name that gets one has room for it. -/
theorem TableHolds.length_lt (h : TableHolds regs calls)
    (hnew : lookup regKey regs reg.bytes = none) (hval : val ≠ 0)
    (hroom : (namesWithValue ((reg, val) :: calls)).length ≤ regMax) : regs.length < regMax := by
  have hnodup : (reg.bytes :: regs.map regKey).Nodup := by
    refine List.nodup_cons.mpr ⟨fun hin => ?_, h.once⟩
    obtain ⟨r, hr, hk⟩ := List.mem_map.mp hin
    exact lookup_eq_none_iff.mp hnew r hr hk
  have hsub : reg.bytes :: regs.map regKey
      ⊆ (namesWithValue ((reg, val) :: calls)).map RegName.bytes := by
    intro k hk
    rcases List.mem_cons.mp hk with rfl | hk
    · refine List.mem_map_of_mem (mem_namesWithValue.mpr ?_)
      rw [lastValue_cons, if_pos rfl]
      exact hval
    · obtain ⟨r, hr, rfl⟩ := List.mem_map.mp hk
      refine List.mem_map.mpr
        ⟨⟨regKey r, h.nonempty r hr, r.str.ne⟩, mem_namesWithValue.mpr ?_, rfl⟩
      rw [lastValue_cons, if_neg, ← h.read,
        readRegTable_of_lookup ((lookup_eq_some_iff h.once).mpr ⟨hr, rfl⟩)]
      · exact h.nonzero r hr
      · rintro rfl
        exact lookup_eq_none_iff.mp hnew r hr rfl
  have hle := (hnodup.subperm hsub).length_le
  rw [List.length_cons, List.length_map, List.length_map] at hle
  omega

/-- **One call** on a table with the last values, for a name that fits. -/
theorem setReg_holds (h : TableHolds t.regs calls)
    (hroom : (namesWithValue ((reg, val) :: calls)).length ≤ regMax)
    (hname : val ≠ 0 → reg.bytes.length ≤ 32) :
    TableHolds (setReg t reg val).regs ((reg, val) :: calls) := by
  unfold setReg
  by_cases hval : val = 0
  · rw [if_pos hval]
    split
    next i hi =>
      obtain ⟨r, hr, hk, -⟩ := findIdx_reg hi
      have hmem : ∀ b ∈ swapRemove t.regs i, b ∈ t.regs := fun b hb =>
        (swapRemove_perm hr).mem_iff.mp (List.mem_cons_of_mem r hb)
      refine ⟨(List.nodup_cons.mp (nodup_keys_swapRemove h.once hr)).2,
        fun b hb => h.nonempty b (hmem b hb), fun b hb => h.nonzero b (hmem b hb), fun n => ?_⟩
      have hlookup := fun k => (lookup_swapRemove (k := k) h.once hr).trans (by rw [hk])
      rw [readRegTable_of_lookup_eq t.regs reg none hlookup, lastValue_cons, hval, h.read]
      rfl
    next hi =>
      refine ⟨h.once, h.nonempty, h.nonzero, fun n => ?_⟩
      rw [lastValue_cons]
      split
      next heq =>
        rw [← heq, readRegTable_of_none (findIdx_reg_none hi), hval]
      next => exact h.read n
  · rw [if_neg hval]
    split
    next i hi =>
      obtain ⟨r, hr, hk, hget⟩ := findIdx_reg hi
      obtain ⟨hlt, hri⟩ := List.getElem?_eq_some_iff.mp hr
      have hin : r ∈ t.regs := hri ▸ List.getElem_mem hlt
      rw [hget]
      split
      next hne =>
        have hkey : regKey { r with value := val } = regKey r := rfl
        refine ⟨?_, fun b hb => ?_, fun b hb => ?_, fun n => ?_⟩
        · rw [map_set_keys hr hkey]
          exact h.once
        · rcases List.mem_or_eq_of_mem_set hb with hb | rfl
          · exact h.nonempty b hb
          · exact h.nonempty r hin
        · rcases List.mem_or_eq_of_mem_set hb with hb | rfl
          · exact h.nonzero b hb
          · exact hval
        · rw [readRegTable_of_lookup_eq t.regs reg (some { r with value := val }) fun k => by
              rw [lookup_set h.once hr hkey, hk], lastValue_cons, h.read]
          rfl
      next hsame =>
        refine ⟨h.once, h.nonempty, h.nonzero, fun n => ?_⟩
        rw [lastValue_cons]
        split
        next heq =>
          rw [← heq, readRegTable_of_lookup ((lookup_eq_some_iff h.once).mpr ⟨hin, hk⟩)]
          exact not_not.mp hsame
        next => exact h.read n
    next hi =>
      have hnone := findIdx_reg_none hi
      rw [if_pos (h.length_lt hnone hval hroom)]
      have hkey : regKey { str := CStr.ofField 32 reg.bytes, value := val } = reg.bytes :=
        bytes_ofField_name (hname hval)
      refine ⟨?_, fun b hb => ?_, fun b hb => ?_, fun n => ?_⟩
      · rw [List.map_append, List.nodup_append]
        refine ⟨h.once, List.nodup_singleton _, ?_⟩
        rintro k hk k' hk' rfl
        obtain ⟨r, hr, rfl⟩ := List.mem_map.mp hk
        rw [List.map_singleton, List.mem_singleton, hkey] at hk'
        exact lookup_eq_none_iff.mp hnone r hr hk'
      · rcases List.mem_append.mp hb with hb | hb
        · exact h.nonempty b hb
        · rw [List.mem_singleton.mp hb, hkey]
          exact reg.nonempty
      · rcases List.mem_append.mp hb with hb | hb
        · exact h.nonzero b hb
        · rw [List.mem_singleton.mp hb]
          exact hval
      · have hlookup := fun k => (lookup_concat (k := k) (hkey.symm ▸ hnone)).trans (by rw [hkey])
        rw [readRegTable_of_lookup_eq t.regs reg
          (some { str := CStr.ofField 32 reg.bytes, value := val }) hlookup, lastValue_cons,
          h.read]
        rfl

/-- A table that changes must be saved, and one that must be saved still must. -/
theorem setReg_dirty (t : RegTable) (reg : RegName) (val : BitVec 32) :
    ((setReg t reg val).regs ≠ t.regs → (setReg t reg val).dirty = true) ∧
      (t.dirty = true → (setReg t reg val).dirty = true) := by
  have hsame : (t.regs ≠ t.regs → t.dirty = true) ∧ (t.dirty = true → t.dirty = true) :=
    ⟨fun h => absurd rfl h, id⟩
  unfold setReg
  split
  · split
    · exact ⟨fun _ => rfl, fun _ => rfl⟩
    · exact hsame
  · split
    · split
      · exact ⟨fun _ => rfl, fun _ => rfl⟩
      · exact hsame
    · split
      · exact ⟨fun _ => rfl, fun _ => rfl⟩
      · exact hsame

end Table

/-! ## Steps -/

section Steps

variable {names : EventNames} {w : RegWorld} {kind : RegKind} {reg : RegName} {val : BitVec 32}

/-- The tables after one call. -/
def applyCall (table : RegKind → RegTable) (c : RegKind × RegName × BitVec 32) :
    RegKind → RegTable :=
  Function.update table c.1 (setReg (table c.1) c.2.1 c.2.2)

theorem table_setEventReg (sd : RegPlayer) :
    (setEventReg names sd reg val).table = applyCall sd.table (.globalReg, reg, val) := by
  have htable : ∀ sd' : RegPlayer, sd'.table = sd.table →
      (sd'.store .globalReg reg val).table = applyCall sd.table (.globalReg, reg, val) := by
    intro sd' h
    unfold RegPlayer.store applyCall
    rw [h]
  unfold setEventReg
  dsimp only
  apply htable
  split
  · rfl
  · split
    · rfl
    · split <;> rfl

/-- **The calls of an event** are all that it does to the tables. -/
theorem table_set (sd : RegPlayer) :
    (regEvent names sd (.set kind reg val)).table
      = (callsOf sd (.set kind reg val)).foldl applyCall sd.table := by
  cases kind with
  | accountReg => rfl
  | accountReg2 => rfl
  | globalReg =>
    show (pcSetglobalreg names sd reg val).table
      = ((if sd.recalculates reg val then [(RegKind.globalReg, finalbonusName, 1)] else [])
          ++ [(RegKind.globalReg, reg, val)]).foldl applyCall sd.table
    unfold pcSetglobalreg
    rw [if_neg reg.nonempty]
    by_cases hdie : reg = dieCounterName ∧ sd.dieCounter ≠ val
    · rw [if_pos hdie]
      unfold statusCalcReg
      cases hbonus : RegPlayer.finalBonus { sd with dieCounter := val } with
      | true =>
        have hrec : sd.recalculates reg val = true := by
          simp only [RegPlayer.recalculates, hbonus, Bool.and_true, Bool.and_eq_true,
            decide_eq_true_eq]
          exact hdie
        rw [hrec, if_pos rfl, if_pos rfl]
        unfold RegPlayer.store
        dsimp only
        rw [table_setEventReg]
        rfl
      | false =>
        have hrec : sd.recalculates reg val = false := by
          simp only [RegPlayer.recalculates, hbonus, Bool.and_false]
        rw [hrec, if_neg Bool.false_ne_true, if_neg Bool.false_ne_true]
        rfl
    · have hrec : sd.recalculates reg val = false := by
        by_contra h
        simp only [RegPlayer.recalculates, Bool.not_eq_false, Bool.and_eq_true,
          decide_eq_true_eq] at h
        exact hdie h.1
      rw [if_neg hdie, table_setEventReg, hrec, if_neg Bool.false_ne_true]
      rfl

/-- All tables have the last values. -/
def RegWorld.Holds (w : RegWorld) : Prop :=
  ∀ kind, TableHolds (w.sd.table kind).regs (w.calls kind)

/-- **Some calls** keep the tables, and those that change must be saved. -/
theorem calls_holds {cs : List (RegKind × RegName × BitVec 32)} {table : RegKind → RegTable}
    {calls : RegKind → List (RegName × BitVec 32)}
    (h : ∀ kind, TableHolds (table kind).regs (calls kind)) (hfit : CallsFit calls cs)
    (hnames : ∀ c ∈ cs, c.2.2 ≠ 0 → c.2.1.bytes.length ≤ 32) :
    ∀ kind, TableHolds (cs.foldl applyCall table kind).regs (cs.foldl pushCall calls kind) := by
  induction cs generalizing table calls with
  | nil => exact h
  | cons c cs ih =>
    obtain ⟨hroom, hfit⟩ := hfit
    refine ih (fun kind => ?_) hfit fun c' hc' => hnames c' (List.mem_cons_of_mem c hc')
    unfold applyCall pushCall at *
    by_cases hkind : kind = c.1
    · subst hkind
      rw [Function.update_self] at hroom
      rw [Function.update_self, Function.update_self]
      exact setReg_holds (h c.1) hroom (hnames c List.mem_cons_self)
    · rw [Function.update_of_ne hkind, Function.update_of_ne hkind]
      exact h kind

/-- A table that some calls change must be saved. -/
theorem calls_dirty (cs : List (RegKind × RegName × BitVec 32)) (table : RegKind → RegTable)
    (kind : RegKind) :
    ((cs.foldl applyCall table kind).regs ≠ (table kind).regs →
        (cs.foldl applyCall table kind).dirty = true) ∧
      ((table kind).dirty = true → (cs.foldl applyCall table kind).dirty = true) := by
  induction cs generalizing table with
  | nil => exact ⟨fun h => absurd rfl h, id⟩
  | cons c cs ih =>
    obtain ⟨hchanged, hkept⟩ := ih (applyCall table c)
    have hone : ((applyCall table c kind).regs ≠ (table kind).regs →
        (applyCall table c kind).dirty = true) ∧
        ((table kind).dirty = true → (applyCall table c kind).dirty = true) := by
      unfold applyCall
      by_cases hkind : kind = c.1
      · subst hkind
        rw [Function.update_self]
        exact setReg_dirty _ _ _
      · rw [Function.update_of_ne hkind]
        exact ⟨fun h => absurd rfl h, id⟩
    refine ⟨fun hne => ?_, fun hd => hkept (hone.2 hd)⟩
    by_cases hsame : (applyCall table c kind).regs = (table kind).regs
    · exact hchanged fun heq => hne (heq.trans hsame)
    · exact hkept (hone.1 hsame)

/-- The calls of an event that fits have names that fit. -/
theorem names_callsOf {sd : RegPlayer} {e : RegEvent} (hname : NameFits e) :
    ∀ c ∈ callsOf sd e, c.2.2 ≠ 0 → c.2.1.bytes.length ≤ 32 := by
  have hbonus : finalbonusName.bytes.length ≤ 32 := (cstr 32 "SN_FINALBONUS").le
  intro c hc hval
  match e with
  | .saved _ => cases hc
  | .player _ _ _ => cases hc
  | .set .accountReg reg val =>
    obtain rfl := List.mem_singleton.mp hc
    exact hname hval
  | .set .accountReg2 reg val =>
    obtain rfl := List.mem_singleton.mp hc
    exact hname hval
  | .set .globalReg reg val =>
    rcases List.mem_append.mp hc with hc | hc
    · split at hc
      · obtain rfl := List.mem_singleton.mp hc
        exact hbonus
      · cases hc
    · obtain rfl := List.mem_singleton.mp hc
      exact hname hval

/-- What a table has after an event. -/
theorem table_regStep (names : EventNames) (w : RegWorld) (e : RegEvent) (kind : RegKind) :
    ((regStep names w e).sd.table kind).regs
        = ((callsOf w.sd e).foldl applyCall w.sd.table kind).regs ∧
      (((callsOf w.sd e).foldl applyCall w.sd.table kind).regs ≠ (w.sd.table kind).regs →
        ((regStep names w e).sd.table kind).dirty = true) := by
  cases e with
  | set k reg val =>
    have htable : (regStep names w (.set k reg val)).sd.table
        = (callsOf w.sd (.set k reg val)).foldl applyCall w.sd.table := table_set w.sd
    rw [htable]
    exact ⟨rfl, (calls_dirty _ _ kind).1⟩
  | saved k =>
    refine ⟨?_, fun h => absurd rfl h⟩
    show (Function.update w.sd.table k { w.sd.table k with dirty := false } kind).regs
      = (w.sd.table kind).regs
    by_cases hk : kind = k
    · rw [hk, Function.update_self]
    · rw [Function.update_of_ne hk]
  | player job baseLevel dieCounter => exact ⟨rfl, fun h => absurd rfl h⟩

/-- A step with a name that fits keeps the tables. -/
theorem regStep_holds (h : w.Holds) {e : RegEvent} (hfit : RegStepFits w e) (hname : NameFits e) :
    (regStep names w e).Holds := by
  intro kind
  rw [(table_regStep names w e kind).1]
  exact calls_holds h hfit (names_callsOf hname) kind

/-- The last call of an event is that of its name. -/
theorem lastValue_callsOf (sd : RegPlayer) (calls : RegKind → List (RegName × BitVec 32)) :
    lastValue ((callsOf sd (.set kind reg val)).foldl pushCall calls kind) reg = val := by
  have hlast : ∀ calls : RegKind → List (RegName × BitVec 32),
      lastValue (pushCall calls (kind, reg, val) kind) reg = val := by
    intro calls
    unfold pushCall
    rw [Function.update_self, lastValue_cons, if_pos rfl]
  cases kind with
  | accountReg => exact hlast calls
  | accountReg2 => exact hlast calls
  | globalReg =>
    unfold callsOf
    rw [List.foldl_append]
    exact hlast _

/-- **A step is right** if and only if the name fits. -/
theorem regStepRight_iff (h : w.Holds) {e : RegEvent} (hfit : RegStepFits w e) :
    RegStepRight names w e ↔ NameFits e := by
  constructor
  · intro hright
    cases e with
    | saved k => trivial
    | player job baseLevel dieCounter => trivial
    | set kind reg val =>
      -- A longer name is never found again.
      intro hval
      by_contra hlong
      have hread := hright.read kind reg
      rw [readRegTable_long (by omega)] at hread
      exact hval ((lastValue_callsOf w.sd w.calls).symm.trans hread.symm)
  · intro hname
    have hholds : (regStep names w e).Holds := regStep_holds h hfit hname
    refine ⟨fun kind n => (hholds kind).read n, fun kind => (hholds kind).once, fun kind hne => ?_⟩
    obtain ⟨hregs, hdirty⟩ := table_regStep names w e kind
    rw [hregs] at hne
    exact hdirty hne

/-- **The variables are a finite map**: in a run in which the tables have room, every step is right
if and only if every name that gets a value has 32 bytes at most. -/
theorem regRun_right_iff (names : EventNames) {es : List RegEvent}
    (hfit : Run.Meets (regStep names) RegStepFits {} es) :
    Run.Meets (regStep names) (RegStepRight names) {} es ↔
      Run.Meets (regStep names) (fun _ => NameFits) {} es := by
  refine Run.meets_iff_of_assumed (I := RegWorld.Holds) ?_ ?_ ?_ hfit
  · exact fun w e h hfit hname => regStep_holds h hfit hname
  · exact fun w e h hfit => regStepRight_iff h hfit
  · intro kind
    exact ⟨List.nodup_nil, by simp, by simp, fun n => rfl⟩

/-- A Super Novice sets a variable, has it saved, and sets the counter of his deaths back. -/
theorem regRun_right_novice :
    Run.Meets (regStep {}) (RegStepRight {}) {}
      [.player 23 99 2, .set .globalReg (.ofText (cstr 32 "q1") (by decide)) 7,
        .saved .globalReg, .set .globalReg dieCounterName 0,
        .set .accountReg (.ofText (cstr 32 "#q") (by decide)) 4,
        .set .globalReg (.ofText (cstr 32 "q1") (by decide)) 0] :=
  (regRun_right_iff _ (by decide)).mpr (by decide)

/-- A name of 33 bytes. -/
def longName : RegName := .ofText (cstr 33 "#quests_of_the_first_day_in_town_") (by decide)

/-- A long name gets a value that is not read back. -/
theorem regRun_wrong :
    Run.Meets (regStep {}) RegStepFits {}
        [.set .accountReg longName 5] ∧
      ¬ Run.Meets (regStep {}) (RegStepRight {}) {}
        [.set .accountReg longName 5] := by
  refine ⟨⟨by decide, trivial⟩, fun h => ?_⟩
  have hread := h.1.read .accountReg longName
  rw [readRegTable_long (by decide)] at hread
  exact absurd hread (by decide)

end Steps

end Nezumi
