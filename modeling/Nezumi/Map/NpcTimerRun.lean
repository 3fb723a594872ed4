import Nezumi.Map.NpcTimer

/-!
# The timers of npcs follow a stopwatch (`map/npc.c`)

* `Delivered`: time does not go back, and a tick that is due is delivered before something else is
  done.
* `TimerFits`: what may go wrong does not. The value of a running timer is an `int`, and so is the
  time to the next label of a timer that is started; and the script of a label does not stop or set
  the timer while the next label is due already.
* `TimerInv`: the index, the timer that was added and the clock agree with the stopwatch.
* `npcTimer_right`: so they do in every run, and each label that the timer passes is called once.
-/

namespace Nezumi

open Scanf Alarms

/-- Time does not go back, and nothing is done while a tick is due. -/
def Delivered (x : NpcTimerRun) : TimerRunEvent → Prop
  | .wait now => x.now ≤ now
  | .op now _ => x.now ≤ now ∧ ¬(x.wait now).nd.Due (x.wait now).gettick
  | .tick now _ => x.now ≤ now ∧ (x.wait now).nd.Due (x.wait now).gettick

/-- The time to the next label of a timer that starts is an `int`. -/
def StartFits (te : List NpcTimereventList) (v : Int32) : Prop :=
  ∀ e ∈ te.find? (fun e => v < e.timer), e.timer.toInt - v.toInt < 2 ^ 31

def OpFits (x : NpcTimerRun) : TimerOp → Prop
  | .start _ => x.nd.nexttimer = none → StartFits x.nd.timerEvent x.nd.timer
  | .stop => ¬x.nd.Due x.gettick
  | .set newtimer => ¬x.nd.Due x.gettick ∧
      (x.nd.nexttimer ≠ none → StartFits x.nd.timerEvent newtimer)

/-- The value is an `int`, what starts the timer finds the next label in an `int`, and what stops or
sets it finds no label due. -/
def TimerFits (x : NpcTimerRun) : TimerRunEvent → Prop
  | .wait now => IsInt (x.wait now).watch.value
  | .op now o => IsInt (x.wait now).watch.value ∧ OpFits (x.wait now) o
  | .tick now script => IsInt (x.wait now).watch.value ∧
      Run.Meets NpcTimerRun.op OpFits (x.wait now).deliver script

instance (x : NpcTimerRun) : (e : TimerRunEvent) → Decidable (Delivered x e)
  | .wait _ => inferInstanceAs (Decidable (_ ≤ _))
  | .op _ _ => inferInstanceAs (Decidable (_ ∧ _))
  | .tick _ _ => inferInstanceAs (Decidable (_ ∧ _))

instance (te : List NpcTimereventList) (v : Int32) : Decidable (StartFits te v) :=
  inferInstanceAs (Decidable (∀ e ∈ te.find? _, _))

instance (x : NpcTimerRun) : (o : TimerOp) → Decidable (OpFits x o)
  | .start _ => inferInstanceAs (Decidable (_ → StartFits _ _))
  | .stop => inferInstanceAs (Decidable (¬_))
  | .set _ => inferInstanceAs (Decidable (_ ∧ (_ → StartFits _ _)))

instance (x : NpcTimerRun) : (e : TimerRunEvent) → Decidable (TimerFits x e)
  | .wait _ => inferInstanceAs (Decidable (IsInt _))
  | .op _ _ => inferInstanceAs (Decidable (IsInt _ ∧ OpFits _ _))
  | .tick _ _ => inferInstanceAs (Decidable (IsInt _ ∧ Run.Meets _ _ _ _))

/-- **The timer follows the stopwatch**: it has its value and runs when it does, and the labels that
were called are those that it has passed, but for those that are still due. -/
structure TimerRight (x : NpcTimerRun) : Prop where
  value : (npcGettimereventTick x.nd x.gettick).toInt = x.watch.value
  running : x.nd.nexttimer.isSome = x.watch.running
  called : ∃ due, x.watch.passed = x.called ++ due ∧ (¬x.nd.Due x.gettick → due = [])

/-! ## The labels -/

section Labels

variable {last : Option UInt8} {te : List NpcTimereventList} {lname : List UInt8} {pos : Int32}

theorem lt_timer_iff {e b : NpcTimereventList} : e.timer < b.timer ↔ e.time < b.time :=
  Int32.lt_iff_toInt_lt

theorem importLabel_eq : importLabel last te lname pos =
    match timerLabel last lname pos with
    | none => te
    | some e => insertAlarm NpcTimereventList.time e te := by
  unfold importLabel insertAlarm
  cases timerLabel last lname pos with
  | none => rfl
  | some e => simp only [lt_timer_iff]

theorem importLabel_rising (h : Rising NpcTimereventList.time te) :
    Rising NpcTimereventList.time (importLabel last te lname pos) := by
  rw [importLabel_eq]
  cases timerLabel last lname pos with
  | none => exact h
  | some e => exact h.insertAlarm

/-- The labels of a script, imported one after another. -/
def importLabels (last : Option UInt8) (labels : List (List UInt8 × Int32)) :
    List NpcTimereventList :=
  labels.foldl (fun te l => importLabel last te l.1 l.2) []

/-- **The table has the labels of the script, in the order of their times.** -/
theorem importLabels_spec (last : Option UInt8) (labels : List (List UInt8 × Int32)) :
    Rising NpcTimereventList.time (importLabels last labels) ∧
      (importLabels last labels).Perm (labels.filterMap fun l => timerLabel last l.1 l.2) := by
  induction labels using List.reverseRecOn with
  | nil => exact ⟨List.Pairwise.nil, List.Perm.refl _⟩
  | append_singleton labels l ih =>
    unfold importLabels at ih ⊢
    rw [List.foldl_append, List.filterMap_append]
    refine ⟨importLabel_rising ih.1, ?_⟩
    show (importLabel last _ l.1 l.2).Perm _
    rw [importLabel_eq, List.filterMap_cons]
    cases timerLabel last l.1 l.2 with
    | none => simpa using ih.2
    | some e =>
      exact insertAlarm_perm.trans ((ih.2.cons e).trans (List.perm_append_singleton e _).symm)

end Labels

/-! ## The numbers -/

section Numbers

/-- The difference of two readings of the clock, up to 2^32. -/
theorem toInt_sub_ofNat (a b : ℕ) :
    (BitVec.ofNat 32 a - BitVec.ofNat 32 b).toInt = ((a : ℤ) - b).bmod (2 ^ 32) := by
  rw [BitVec.toInt_sub, BitVec.toInt_ofNat', BitVec.toInt_ofNat', Int.bmod_sub_bmod,
    Int.sub_bmod_bmod]

/-- The value of a timer that has run from `T` on. -/
theorem toInt_timer_add (timer : Int32) {now T : ℕ} (hle : T ≤ now)
    (h : IsInt (timer.toInt + (now - T : ℕ))) :
    (timer + tickDiff (BitVec.ofNat 32 now) (BitVec.ofNat 32 T)).toInt =
      timer.toInt + (now - T : ℕ) := by
  obtain ⟨hlo, hhi⟩ := h
  unfold tickDiff
  rw [Int32.toInt_add, Int32.toInt_ofBitVec, toInt_sub_ofNat, Int.add_bmod_bmod,
    Int.bmod_eq_of_le (by omega) (by omega)]
  omega

/-- How far a tick is ahead, where it is less than 2^31 ms. -/
theorem diffTick_ofNat {a b : ℕ} (h : IsInt ((a : ℤ) - b)) :
    diffTick (BitVec.ofNat 32 a) (BitVec.ofNat 32 b) = (a : ℤ) - b := by
  obtain ⟨hlo, hhi⟩ := h
  unfold diffTick
  rw [toInt_sub_ofNat, Int.bmod_eq_of_le (by omega) (by omega)]

/-- The time from one value to a later one. -/
theorem toInt_next {e timer : Int32} (hle : timer.toInt ≤ e.toInt)
    (h : e.toInt - timer.toInt < 2 ^ 31) : (e - timer).toInt = e.toInt - timer.toInt := by
  rw [Int32.toInt_sub, Int.bmod_eq_of_le (by omega) (by omega)]

/-- A tick that is added for a time from `T` on. -/
theorem ofNat_add_next {next : Int32} (h : 0 ≤ next.toInt) (T : ℕ) :
    BitVec.ofNat 32 T + next.toBitVec = BitVec.ofNat 32 (T + next.toInt.toNat) := by
  have hnext : next.toBitVec = BitVec.ofNat 32 next.toInt.toNat := by
    have hlt := next.toInt_lt
    apply BitVec.eq_of_toInt_eq
    rw [BitVec.toInt_ofNat', Int.toNat_of_nonneg h]
    show next.toInt = _
    rw [Int.bmod_eq_of_le (by omega) (by omega)]
  rw [hnext, BitVec.ofNat_add]

end Numbers

/-! ## Where the timer stands -/

/-- A timer that does not run. -/
structure Stopped (x : NpcTimerRun) : Prop where
  running : x.watch.running = false
  nexttimer : x.nd.nexttimer = none
  timerid : x.nd.timerid = none
  value : x.watch.value = x.nd.timer.toInt
  passed : x.watch.passed = x.called

/-- The timer that is added at `T` for the label behind a value. -/
def addedAt (T : ℕ) (timer : Int32) (e : NpcTimereventList) : AddedTimer where
  tick := BitVec.ofNat 32 (T + (e.time - timer.toInt).toNat)
  data := e.timer - timer

/-- A timer that runs from `T` on, before label `j`. -/
structure RunsAt (x : NpcTimerRun) (j T : ℕ) : Prop where
  running : x.watch.running = true
  nexttimer : x.nd.nexttimer = some j
  timertick : x.nd.timertick = BitVec.ofNat 32 T
  le : T ≤ x.now
  value : x.watch.value = x.nd.timer.toInt + (x.now - T : ℕ)
  behind : ∀ e ∈ x.nd.timerEvent.take j, e.time ≤ x.nd.timer.toInt
  ahead : ∀ e ∈ x.nd.timerEvent.drop j, x.nd.timer.toInt ≤ e.time
  timerid : x.nd.timerid = x.nd.timerEvent[j]?.map (addedAt T x.nd.timer)
  fits : ∀ e ∈ x.nd.timerEvent[j]?, e.time - x.nd.timer.toInt < 2 ^ 31
  passed : x.watch.passed = x.called ++
    (x.nd.timerEvent.drop j).filter fun e => e.time ≤ x.watch.value

/-- **The index of the next label, the timer that was added and the clock agree** with the
stopwatch. -/
structure TimerInv (x : NpcTimerRun) : Prop where
  rising : Rising NpcTimereventList.time x.nd.timerEvent
  nonneg : ∀ e ∈ x.nd.timerEvent, 0 ≤ e.time
  isInt : IsInt x.watch.value
  stands : Stopped x ∨ ∃ j T, RunsAt x j T

section Steps

variable {x : NpcTimerRun} {now j T : ℕ} {te : List NpcTimereventList} {e : NpcTimereventList}

/-- The next label is due when the value has reached its time. -/
theorem RunsAt.due_iff (h : RunsAt x j T) (hx : TimerInv x) :
    x.nd.Due x.gettick ↔ ∃ e ∈ x.nd.timerEvent[j]?, e.time ≤ x.watch.value := by
  unfold NpcTimer.Due
  rw [h.timerid]
  cases he : x.nd.timerEvent[j]? with
  | none => simp
  | some e =>
    have hmem := List.mem_of_getElem? he
    have hnonneg := hx.nonneg e hmem
    have hfits := h.fits e he
    have hahead := h.ahead e (List.mem_of_getElem? (i := 0) (by rw [List.getElem?_drop]; exact he))
    have hvalue := h.value
    have hle := h.le
    obtain ⟨hlo, hhi⟩ := hx.isInt
    have hdiff : diffTick (addedAt T x.nd.timer e).tick x.gettick = e.time - x.watch.value := by
      unfold addedAt NpcTimerRun.gettick
      rw [diffTick_ofNat (by unfold IsInt; omega)]
      omega
    simp only [Option.map_some, Option.mem_def, Option.some.injEq, exists_eq_left', hdiff]
    omega

theorem timerInv_wait (h : TimerInv x) (hle : x.now ≤ now)
    (hfits : IsInt (x.wait now).watch.value) : TimerInv (x.wait now) := by
  refine ⟨h.rising, h.nonneg, hfits, ?_⟩
  rcases h.stands with hstop | ⟨j, T, hrun⟩
  · left
    have hwatch : (x.wait now).watch = x.watch := Watch.advance_of_stopped hstop.running
    exact
      { running := hwatch ▸ hstop.running
        nexttimer := hstop.nexttimer
        timerid := hstop.timerid
        value := hwatch ▸ hstop.value
        passed := hwatch ▸ hstop.passed }
  · right
    have hwatch : (x.wait now).watch = _ := Watch.advance_of_running hrun.running
    have hvalue := hrun.value
    have hfrom := hrun.le
    refine ⟨j, T, { hrun with running := ?_, le := hfrom.trans hle, value := ?_, passed := ?_ }⟩
    · rw [hwatch]
      exact hrun.running
    · rw [hwatch]
      show x.watch.value + ((now - x.now : ℕ) : ℤ) = x.nd.timer.toInt + (now - T : ℕ)
      omega
    · rw [hwatch]
      show x.watch.passed ++ between _ x.watch.value (x.watch.value + (now - x.now : ℕ))
        x.nd.timerEvent = x.called ++ _
      have hrising : Rising NpcTimereventList.time (x.nd.timerEvent.drop j) :=
        h.rising.sublist (List.drop_sublist _ _)
      rw [between_drop (j := j) fun e he => (hrun.behind e he).trans (by omega), hrun.passed,
        List.append_assoc, ← filter_le_append hrising (by omega)]
      rfl

theorem drop_of_getElem? {j : ℕ} (he : te[j]? = some e) : te.drop j = e :: te.drop (j + 1) := by
  obtain ⟨hlt, rfl⟩ := List.getElem?_eq_some_iff.mp he
  exact List.drop_eq_getElem_cons hlt

/-- What is added for the next label, in a table whose next label is not too far. -/
theorem added_eq {timer : Int32} (hle : timer.toInt ≤ e.time)
    (hfits : e.time - timer.toInt < 2 ^ 31) :
    (⟨BitVec.ofNat 32 T + (e.timer - timer).toBitVec, e.timer - timer⟩ : AddedTimer) =
      addedAt T timer e := by
  have hnext : (e.timer - timer).toInt = e.time - timer.toInt := toInt_next hle hfits
  unfold addedAt
  rw [ofNat_add_next (by omega), hnext]

/-- What is delivered to a timer that runs. -/
theorem RunsAt.deliver_eq (h : RunsAt x j T) (he : x.nd.timerEvent[j]? = some e) :
    x.deliver = { x with
      nd := { x.nd with
        timertick := BitVec.ofNat 32 (T + (e.time - x.nd.timer.toInt).toNat)
        timer := e.timer
        nexttimer := some (j + 1)
        timerid := x.nd.timerEvent[j + 1]?.map fun e' =>
          ⟨BitVec.ofNat 32 (T + (e.time - x.nd.timer.toInt).toNat) +
            (e'.timer - e.timer).toBitVec, e'.timer - e.timer⟩ }
      called := x.called ++ [e] } := by
  have hid : x.nd.timerid = some (addedAt T x.nd.timer e) := by rw [h.timerid, he, Option.map_some]
  have htimer : x.nd.timer + (e.timer - x.nd.timer) = e.timer := by
    rw [Int32.add_comm, Int32.sub_add_cancel]
  unfold NpcTimerRun.deliver
  rw [hid]
  unfold npcTimerevent
  simp only [h.nexttimer, he, addedAt, htimer, Option.toList_some]

/-- **A tick that is due calls the next label**, and the timer goes on to the one behind it. -/
theorem timerInv_deliver (h : TimerInv x) (hdue : x.nd.Due x.gettick) : TimerInv x.deliver := by
  rcases h.stands with hstop | ⟨j, T, hrun⟩
  · obtain ⟨t, ht, -⟩ := hdue
    rw [hstop.timerid] at ht
    cases ht
  · obtain ⟨e, he, hreached⟩ := (hrun.due_iff h).mp hdue
    have hdrop := drop_of_getElem? he
    have hle : x.nd.timer.toInt ≤ e.time := hrun.ahead e (by rw [hdrop]; exact List.mem_cons_self)
    have hrising : Rising NpcTimereventList.time (e :: x.nd.timerEvent.drop (j + 1)) := by
      rw [← hdrop]
      exact h.rising.sublist (List.drop_sublist _ _)
    have hvalue := hrun.value
    have hfrom := hrun.le
    have hnext : ∀ e' ∈ x.nd.timerEvent[j + 1]?, e.time ≤ e'.time ∧ e'.time - e.time < 2 ^ 31 :=
      fun e' he' => by
        have hmem : e' ∈ x.nd.timerEvent.drop (j + 1) :=
          List.mem_of_getElem? (i := 0) (by rw [List.getElem?_drop]; exact he')
        have hlt : e'.time < 2 ^ 31 := e'.timer.toInt_lt
        have hnonneg := h.nonneg e (List.mem_of_getElem? he)
        exact ⟨hrising.head_le hmem, by omega⟩
    rw [hrun.deliver_eq he]
    refine ⟨h.rising, h.nonneg, h.isInt, .inr ⟨j + 1, T + (e.time - x.nd.timer.toInt).toNat, ?_⟩⟩
    exact
      { running := hrun.running
        nexttimer := rfl
        timertick := rfl
        le := by show T + _ ≤ x.now; omega
        value := by
          show x.watch.value = e.time + (x.now - (T + (e.time - x.nd.timer.toInt).toNat) : ℕ)
          omega
        behind := fun e' he' => by
          show e'.time ≤ e.time
          rw [List.take_add_one, he, List.mem_append] at he'
          rcases he' with he' | he'
          · exact (hrun.behind e' he').trans hle
          · obtain rfl : e' = e := by simpa using he'
            exact le_refl _
        ahead := fun e' he' => hrising.head_le he'
        timerid := by
          show x.nd.timerEvent[j + 1]?.map _ = x.nd.timerEvent[j + 1]?.map _
          cases he' : x.nd.timerEvent[j + 1]? with
          | none => rfl
          | some e' =>
            obtain ⟨hge, hfits⟩ := hnext e' he'
            rw [Option.map_some, Option.map_some, added_eq hge hfits]
        fits := fun e' he' => (hnext e' he').2
        passed := by
          show x.watch.passed = x.called ++ [e] ++ _
          rw [hrun.passed, hdrop, List.filter_cons_of_pos (by simpa using hreached),
            List.append_assoc]
          rfl }

/-! ## What is done to the timer -/

/-- No label is due when the next one is not. -/
theorem RunsAt.none_due (hrun : RunsAt x j T) (h : TimerInv x) (hdue : ¬x.nd.Due x.gettick) :
    (x.nd.timerEvent.drop j).filter (fun e => decide (e.time ≤ x.watch.value)) = [] := by
  rw [hrun.due_iff h] at hdue
  cases he : x.nd.timerEvent[j]? with
  | none => rw [List.drop_eq_nil_of_le (List.getElem?_eq_none_iff.mp he), List.filter_nil]
  | some e =>
    have hlt : ¬e.time ≤ x.watch.value := fun hle => hdue ⟨e, he, hle⟩
    have hrising : Rising NpcTimereventList.time (e :: x.nd.timerEvent.drop (j + 1)) := by
      rw [← drop_of_getElem? he]
      exact h.rising.sublist (List.drop_sublist _ _)
    rw [drop_of_getElem? he, List.filter_cons_of_neg (by simpa using hlt)]
    refine List.filter_eq_nil_iff.mpr fun e' he' => ?_
    have hle := hrising.head_le he'
    simp only [decide_eq_true_eq]
    omega

/-- A timer that is stopped when no tick is due. -/
theorem stopped_stop (h : TimerInv x) (hdue : ¬x.nd.Due x.gettick) : Stopped (x.op .stop) := by
  rcases h.stands with hstop | ⟨j, T, hrun⟩
  · have hnd : npcTimereventStop x.nd x.gettick = x.nd := by
      unfold npcTimereventStop
      rw [hstop.nexttimer]
      rfl
    exact
      { running := rfl
        nexttimer := by
          show (npcTimereventStop x.nd x.gettick).nexttimer = none
          rw [hnd, hstop.nexttimer]
        timerid := by
          show (npcTimereventStop x.nd x.gettick).timerid = none
          rw [hnd, hstop.timerid]
        value := by
          show x.watch.value = (npcTimereventStop x.nd x.gettick).timer.toInt
          rw [hnd, hstop.value]
        passed := hstop.passed }
  · have hnd : npcTimereventStop x.nd x.gettick = { x.nd with
        nexttimer := none
        timer := x.nd.timer + tickDiff x.gettick x.nd.timertick
        timerid := none
        rid := 0 } := by
      unfold npcTimereventStop
      rw [hrun.nexttimer]
      rfl
    have hnone := hrun.none_due h hdue
    exact
      { running := rfl
        nexttimer := congrArg NpcTimer.nexttimer hnd
        timerid := congrArg NpcTimer.timerid hnd
        value := by
          show x.watch.value = (npcTimereventStop x.nd x.gettick).timer.toInt
          have hint := h.isInt
          rw [hrun.value] at hint ⊢
          rw [hnd, hrun.timertick]
          exact (toInt_timer_add x.nd.timer hrun.le hint).symm
        passed := by
          show x.watch.passed = x.called
          rw [hrun.passed, hnone, List.append_nil] }

theorem op_nd_timerEvent (x : NpcTimerRun) (o : TimerOp) :
    (x.op o).nd.timerEvent = x.nd.timerEvent := by
  have hstart : ∀ (nd : NpcTimer) (rid : Int32),
      (npcTimereventStart nd x.gettick rid).timerEvent = nd.timerEvent := fun nd rid => by
    unfold npcTimereventStart
    split
    · rfl
    · dsimp only
      split <;> rfl
  have hstop : (npcTimereventStop x.nd x.gettick).timerEvent = x.nd.timerEvent := by
    unfold npcTimereventStop
    split <;> rfl
  cases o with
  | start rid => exact hstart x.nd rid
  | stop => exact hstop
  | set v =>
    show (npcSettimereventTick x.nd x.gettick v).timerEvent = _
    unfold npcSettimereventTick
    dsimp only
    split
    · rw [hstart]
      exact hstop
    · exact hstop

/-- The index of the first label that is later than a value. -/
def firstLater (te : List NpcTimereventList) (v : Int32) : ℕ := te.findIdx fun e => v < e.timer

theorem lt_of_firstLater {v : Int32} (he : te[firstLater te v]? = some e) : v.toInt < e.time :=
  Int32.lt_iff_toInt_lt.mp (by simpa using List.findIdx_of_getElem?_eq_some he)

theorem le_of_mem_take_firstLater {v : Int32} (he : e ∈ te.take (firstLater te v)) :
    e.time ≤ v.toInt := by
  obtain ⟨i, hi, rfl⟩ := List.mem_take_iff_getElem.mp he
  have hnot := List.not_of_lt_findIdx (lt_of_lt_of_le hi (min_le_left _ _))
  exact Int32.le_iff_toInt_le.mp (Int32.not_lt.mp (by simpa using hnot))

/-- Without a later label, a start leaves the timer as it is. -/
theorem Stopped.start_none (h : Stopped x)
    (he : x.nd.timerEvent[firstLater x.nd.timerEvent x.nd.timer]? = none) (rid : Int32) :
    x.op (.start rid) = x := by
  have hnd : npcTimereventStart x.nd x.gettick rid = x.nd := by
    unfold npcTimereventStart
    unfold firstLater at he
    rw [h.nexttimer]
    simp only [he]
    rfl
  have hnone : (x.nd.timerEvent.any fun e => decide (x.watch.value < e.time)) = false := by
    rw [h.value, ← Bool.not_eq_true, List.any_eq_true]
    rintro ⟨e, hmem, hlt⟩
    have hlater : x.nd.timer < e.timer := Int32.lt_iff_toInt_lt.mpr (of_decide_eq_true hlt)
    have hfound := List.findIdx_lt_length_of_exists
      (p := fun e => decide (x.nd.timer < e.timer)) ⟨e, hmem, by simpa using hlater⟩
    unfold firstLater at he
    rw [List.getElem?_eq_none_iff] at he
    omega
  have hwatch : x.watch.start NpcTimereventList.time x.nd.timerEvent = x.watch := by
    unfold Watch.start
    rw [hnone, Bool.or_false]
  show { x with
    nd := npcTimereventStart x.nd x.gettick rid
    watch := x.watch.start NpcTimereventList.time x.nd.timerEvent } = x
  rw [hnd, hwatch]

/-- Before a later label, a start makes the timer wait for it. -/
theorem Stopped.start_some (h : Stopped x)
    (he : x.nd.timerEvent[firstLater x.nd.timerEvent x.nd.timer]? = some e) (rid : Int32) :
    x.op (.start rid) = { x with
      nd := { x.nd with
        nexttimer := some (firstLater x.nd.timerEvent x.nd.timer)
        timertick := x.gettick
        rid := if 0 ≤ rid then rid else x.nd.rid
        timerid := some ⟨x.gettick + (e.timer - x.nd.timer).toBitVec, e.timer - x.nd.timer⟩ }
      watch := { x.watch with running := true } } := by
  have hsome : (x.nd.timerEvent.any fun e => decide (x.watch.value < e.time)) = true := by
    rw [h.value, List.any_eq_true]
    exact ⟨e, List.mem_of_getElem? he, decide_eq_true (lt_of_firstLater he)⟩
  have hwatch : x.watch.start NpcTimereventList.time x.nd.timerEvent =
      { x.watch with running := true } := by
    unfold Watch.start
    rw [hsome, Bool.or_true]
  show { x with
    nd := npcTimereventStart x.nd x.gettick rid
    watch := x.watch.start NpcTimereventList.time x.nd.timerEvent } = _
  unfold firstLater at he ⊢
  rw [hwatch]
  unfold npcTimereventStart
  rw [h.nexttimer]
  simp only [he]
  rfl

/-- A timer that runs is not started again. -/
theorem RunsAt.start_eq (h : RunsAt x j T) (rid : Int32) : x.op (.start rid) = x := by
  have hnd : npcTimereventStart x.nd x.gettick rid = x.nd := by
    unfold npcTimereventStart
    rw [h.nexttimer]
    rfl
  have hwatch : x.watch.start NpcTimereventList.time x.nd.timerEvent = x.watch := by
    unfold Watch.start
    rw [h.running, Bool.true_or, ← h.running]
  show { x with
    nd := npcTimereventStart x.nd x.gettick rid
    watch := x.watch.start NpcTimereventList.time x.nd.timerEvent } = x
  rw [hnd, hwatch]

/-- A timer that starts waits for the first label that is later, if there is one. -/
theorem timerInv_start (h : TimerInv x) (hstop : Stopped x)
    (hfits : StartFits x.nd.timerEvent x.nd.timer) (rid : Int32) :
    TimerInv (x.op (.start rid)) := by
  cases he : x.nd.timerEvent[firstLater x.nd.timerEvent x.nd.timer]? with
  | none =>
    rw [hstop.start_none he]
    exact h
  | some e =>
    have hlater := lt_of_firstLater he
    have hnear : e.time - x.nd.timer.toInt < 2 ^ 31 := by
      rw [StartFits, List.find?_eq_getElem?_findIdx] at hfits
      exact hfits e he
    have hdrop := drop_of_getElem? he
    have hahead : ∀ e' ∈ x.nd.timerEvent.drop (firstLater x.nd.timerEvent x.nd.timer),
        x.nd.timer.toInt < e'.time := fun e' he' => by
      have hrising : Rising NpcTimereventList.time
          (x.nd.timerEvent.drop (firstLater x.nd.timerEvent x.nd.timer)) :=
        h.rising.sublist (List.drop_sublist _ _)
      rw [hdrop] at he' hrising
      rcases List.mem_cons.mp he' with rfl | he'
      · exact hlater
      · exact hlater.trans_le (hrising.head_le he')
    rw [hstop.start_some he]
    refine ⟨h.rising, h.nonneg, h.isInt, .inr ⟨firstLater x.nd.timerEvent x.nd.timer, x.now, ?_⟩⟩
    exact
      { running := rfl
        nexttimer := rfl
        timertick := rfl
        le := le_refl x.now
        value := by
          show x.watch.value = x.nd.timer.toInt + (x.now - x.now : ℕ)
          rw [hstop.value]
          simp
        behind := fun e' he' => le_of_mem_take_firstLater he'
        ahead := fun e' he' => (hahead e' he').le
        timerid := by
          show some (⟨BitVec.ofNat 32 x.now + _, _⟩ : AddedTimer) =
            Option.map (addedAt x.now x.nd.timer) x.nd.timerEvent[_]?
          rw [he, added_eq hlater.le hnear, Option.map_some]
        fits := fun e' he' => by
          obtain rfl : e = e' := Option.some.inj (he.symm.trans he')
          exact hnear
        passed := by
          show x.watch.passed = x.called ++ List.filter _ _
          rw [List.filter_eq_nil_iff.mpr fun e' he' => by
            have hlt := hahead e' he'
            rw [hstop.value]
            simp only [decide_eq_true_eq]
            omega, List.append_nil, hstop.passed] }

/-- The timer takes a value. -/
def NpcTimerRun.takes (x : NpcTimerRun) (v : Int32) : NpcTimerRun :=
  { x with nd := { x.nd with timer := v }, watch := { x.watch with value := v.toInt } }

theorem running_eq (h : TimerInv x) : x.nd.nexttimer.isSome = x.watch.running := by
  rcases h.stands with h | ⟨j, T, h⟩
  · rw [h.running, h.nexttimer]
    rfl
  · rw [h.running, h.nexttimer]
    rfl

/-- A timer is set by a stop and, if it was running, a start. -/
theorem op_set_eq (h : TimerInv x) (v : Int32) :
    x.op (.set v) = if x.nd.nexttimer.isSome then ((x.op .stop).takes v).op (.start (-1))
      else (x.op .stop).takes v := by
  have hrunning := running_eq h
  cases hsome : x.nd.nexttimer.isSome with
  | false =>
    rw [hsome] at hrunning
    simp [NpcTimerRun.op, NpcTimerRun.takes, npcSettimereventTick, hsome, ← hrunning, Watch.set,
      Watch.stop]
  | true =>
    have hte : (npcTimereventStop x.nd (BitVec.ofNat 32 x.now)).timerEvent = x.nd.timerEvent :=
      op_nd_timerEvent x .stop
    rw [hsome] at hrunning
    simp [NpcTimerRun.op, NpcTimerRun.takes, npcSettimereventTick, hsome, ← hrunning, Watch.set,
      Watch.stop, Watch.start, NpcTimerRun.gettick, hte]

theorem timerInv_stop (h : TimerInv x) (hdue : ¬x.nd.Due x.gettick) : TimerInv (x.op .stop) where
  rising := op_nd_timerEvent x .stop ▸ h.rising
  nonneg := op_nd_timerEvent x .stop ▸ h.nonneg
  isInt := h.isInt
  stands := .inl (stopped_stop h hdue)

theorem stopped_takes (h : Stopped x) (v : Int32) : Stopped (x.takes v) where
  running := h.running
  nexttimer := h.nexttimer
  timerid := h.timerid
  value := rfl
  passed := h.passed

theorem timerInv_takes (h : TimerInv x) (hstop : Stopped x) (v : Int32) :
    TimerInv (x.takes v) where
  rising := h.rising
  nonneg := h.nonneg
  isInt := ⟨v.le_toInt, v.toInt_lt⟩
  stands := .inl (stopped_takes hstop v)

/-- **What is done to a timer keeps it with the stopwatch.** -/
theorem timerInv_op (h : TimerInv x) (o : TimerOp) (hfits : OpFits x o) : TimerInv (x.op o) := by
  cases o with
  | start rid =>
    rcases h.stands with hstop | ⟨j, T, hrun⟩
    · exact timerInv_start h hstop (hfits hstop.nexttimer) rid
    · rw [hrun.start_eq]
      exact h
  | stop => exact timerInv_stop h hfits
  | set v =>
    obtain ⟨hdue, hstart⟩ := hfits
    have hstop := stopped_stop h hdue
    have htakes := timerInv_takes (timerInv_stop h hdue) hstop v
    rw [op_set_eq h]
    split
    · rename_i hsome
      refine timerInv_start htakes (stopped_takes hstop v) ?_ (-1)
      show StartFits (x.op .stop).nd.timerEvent v
      rw [op_nd_timerEvent]
      exact hstart (Option.ne_none_iff_isSome.mpr hsome)
    · exact htakes

/-- A called script keeps it as well. -/
theorem timerInv_script (h : TimerInv x) {script : List TimerOp}
    (hfits : Run.Meets NpcTimerRun.op OpFits x script) :
    TimerInv (Run.exec NpcTimerRun.op x script) :=
  Run.inv_exec (I := TimerInv) (fun _ o h hfits => timerInv_op h o hfits) h hfits

theorem timerInv_step (h : TimerInv x) (e : TimerRunEvent) (hd : Delivered x e)
    (hfits : TimerFits x e) : TimerInv (npcTimerStep x e) := by
  cases e with
  | wait now => exact timerInv_wait h hd hfits
  | op now o => exact timerInv_op (timerInv_wait h hd.1 hfits.1) o hfits.2
  | tick now script =>
    exact timerInv_script (timerInv_deliver (timerInv_wait h hd.1 hfits.1) hd.2) hfits.2

/-- What agrees with the stopwatch is right. -/
theorem timerRight_of_inv (h : TimerInv x) : TimerRight x := by
  refine ⟨?_, running_eq h, ?_⟩
  · unfold npcGettimereventTick
    rcases h.stands with hstop | ⟨j, T, hrun⟩
    · rw [hstop.nexttimer, hstop.value]
      rfl
    · have hint := h.isInt
      rw [hrun.value] at hint ⊢
      rw [hrun.nexttimer, hrun.timertick]
      exact toInt_timer_add x.nd.timer hrun.le hint
  · rcases h.stands with hstop | ⟨j, T, hrun⟩
    · exact ⟨[], by rw [hstop.passed, List.append_nil], fun _ => rfl⟩
    · refine ⟨_, hrun.passed, fun hdue => ?_⟩
      exact hrun.none_due h hdue

end Steps

/-! ## Whole runs -/

/-- An npc whose labels were imported, with its timer stopped at 0. -/
def importedAt (last : Option UInt8) (labels : List (List UInt8 × Int32)) (now : ℕ) :
    NpcTimerRun where
  nd := { timerEvent := importLabels last labels }
  now

theorem timerInv_importedAt {last : Option UInt8} {labels : List (List UInt8 × Int32)}
    (hlabels : ∀ l ∈ labels, ∀ e ∈ timerLabel last l.1 l.2, 0 ≤ e.timer) (now : ℕ) :
    TimerInv (importedAt last labels now) := by
  obtain ⟨hrising, hperm⟩ := importLabels_spec last labels
  refine ⟨hrising, fun e he => ?_, ?_, .inl ⟨rfl, rfl, rfl, rfl, rfl⟩⟩
  case refine_2 =>
    show IsInt 0
    decide
  obtain ⟨l, hl, hlabel⟩ := List.mem_filterMap.mp (hperm.mem_iff.mp he)
  exact Int32.le_iff_toInt_le.mp (hlabels l hl e hlabel)

/-- **The timer of an npc follows the stopwatch in every run**: it always has its value, and each
label that it passes is called once, in the order of the times. -/
theorem npcTimer_right (last : Option UInt8) (labels : List (List UInt8 × Int32)) (now : ℕ)
    (es : List TimerRunEvent)
    (hlabels : ∀ l ∈ labels, ∀ e ∈ timerLabel last l.1 l.2, 0 ≤ e.timer)
    (hd : Run.Meets npcTimerStep Delivered (importedAt last labels now) es)
    (hfits : Run.Meets npcTimerStep TimerFits (importedAt last labels now) es) :
    (Rising NpcTimereventList.time (importLabels last labels) ∧
      (importLabels last labels).Perm (labels.filterMap fun l => timerLabel last l.1 l.2)) ∧
    Run.Meets npcTimerStep (fun x e => TimerRight (npcTimerStep x e))
      (importedAt last labels now) es := by
  refine ⟨importLabels_spec last labels, ?_⟩
  have hstep : ∀ x e, TimerInv x → Delivered x e ∧ TimerFits x e → TimerInv (npcTimerStep x e) :=
    fun _ e h hok => timerInv_step h e hok.1 hok.2
  exact Run.meets_of_inv hstep (fun x e h hok => timerRight_of_inv (hstep x e h hok))
    (timerInv_importedAt hlabels now) (hd.and hfits)

/-- The name `OnTimer<text>:` of a label. -/
def timerName (text : String) : List UInt8 :=
  ("OnTimer" ++ text ++ ":").toList.map fun c => UInt8.ofNat c.toNat

theorem npcTimer_right_script :
    (Rising NpcTimereventList.time (importLabels (some 58)
        [(timerName "1000", 4), (timerName "250", 9), (timerName "3000", 20)]) ∧
      (importLabels (some 58)
        [(timerName "1000", 4), (timerName "250", 9), (timerName "3000", 20)]).Perm
        ([(timerName "1000", 4), (timerName "250", 9), (timerName "3000", 20)].filterMap fun l =>
          timerLabel (some 58) l.1 l.2)) ∧
    Run.Meets npcTimerStep (fun x e => TimerRight (npcTimerStep x e))
      (importedAt (some 58)
        [(timerName "1000", 4), (timerName "250", 9), (timerName "3000", 20)] 10)
      [.op 10 (.start 150000), .wait 200, .tick 265 [], .op 900 .stop, .op 5000 (.set 950),
        .op 5010 (.start (-1)), .tick 5060 [.set 100, .stop, .start 7], .tick 5210 [.set 2500],
        .tick 5710 [], .op 90000 .stop] :=
  npcTimer_right _ _ _ _ (by decide) (by decide) (by decide)

/-- A timer that is set far below 0 calls a label at once. And of two labels of one time, the second
is lost when the script of the first stops the timer. -/
theorem npcTimer_wrong :
    (Run.Meets npcTimerStep Delivered (importedAt (some 58) [(timerName "100", 4)] 10)
        [.op 10 (.set (-2147483648)), .op 10 (.start 7), .tick 10 []] ∧
      ¬Run.Meets npcTimerStep (fun x e => TimerRight (npcTimerStep x e))
        (importedAt (some 58) [(timerName "100", 4)] 10)
        [.op 10 (.set (-2147483648)), .op 10 (.start 7), .tick 10 []]) ∧
    (Run.Meets npcTimerStep Delivered
        (importedAt (some 58) [(timerName "100", 4), (timerName "0100", 9)] 10)
        [.op 10 (.start 7), .tick 110 [.stop, .start 7]] ∧
      ¬Run.Meets npcTimerStep (fun x e => TimerRight (npcTimerStep x e))
        (importedAt (some 58) [(timerName "100", 4), (timerName "0100", 9)] 10)
        [.op 10 (.start 7), .tick 110 [.stop, .start 7]]) := by
  refine ⟨⟨by decide, ?_⟩, ⟨by decide, ?_⟩⟩
  · rintro ⟨-, -, htick, -⟩
    obtain ⟨due, hpassed, hdue⟩ := htick.called
    have hnone := hdue (by decide)
    subst hnone
    revert hpassed
    decide
  · rintro ⟨-, htick, -⟩
    obtain ⟨due, hpassed, hdue⟩ := htick.called
    have hnone := hdue (by decide)
    subst hnone
    revert hpassed
    decide

end Nezumi
