import Nezumi.Common.TimerLemmas
import Nezumi.Lib.Run

/-!
# Runs of the timers (`common/timer.c`)

* `TimerWorld` is the timers, the calls of `do_timer` that have not returned, and what has happened:
  the slots that were handed out, which timer a slot holds, which timers were called.
* `timerStep` is one call of a timer function by the program, one look of `do_timer` at its queue,
  or the return of a callback. The program acts outside `do_timer` and inside of a callback.
* `TimersOk` is the invariant: the slots are in the queue, on the free list or being executed.
* `timerRun_partition`: each slot is in exactly one of these places at any time, a new timer gets no
  slot that is pending, and a timer that runs once is called at most once.
-/

namespace Nezumi

/-- A call of `do_timer` that has not returned. -/
structure Activation where
  /-- The slot whose callback runs; none at the head of the loop. -/
  calling : Option Nat := none
  /-- The number of callbacks called before it began. -/
  start : Nat
  /-- The callbacks it has called: the number of the call, and how far the tick was away. -/
  fired : List (Nat × Int) := []
  deriving DecidableEq

/-- The timers, the calls of `do_timer` from the innermost outwards, and what has happened. A timer
is known by the number of the call that added it. -/
structure TimerWorld where
  timers : Timers := {}
  activations : List Activation := []
  allocated : List Nat := []
  /-- The number of timers added. -/
  adds : Nat := 0
  /-- The timer that a slot was handed out to last. -/
  serial : Nat → Nat := fun _ => 0
  /-- The timers added by `add_timer`. -/
  once : List Nat := []
  /-- The timers whose callback was called, the latest call first. -/
  calls : List Nat := []
  /-- The number of calls when the slot was handed out. -/
  addedAt : Nat → Nat := fun _ => 0
  /-- The number of calls when the slot was handed out or moved to an earlier tick. -/
  setAt : Nat → Nat := fun _ => 0

inductive TimerEvent where
  | addTimer (tick : BitVec 32) (func : Option Nat) (id data : Int)
  | addTimerInterval (tick : BitVec 32) (func : Option Nat) (id data : Int) (interval : BitVec 32)
  | deleteTimer (id : Int) (func : Option Nat)
  | addtickTimer (tid : Int) (added : BitVec 32)
  /-- `gettick_nocache`, which only the main loop calls. -/
  | gettick (now : BitVec 32)
  | doTimer
  /-- `do_timer` looks at its queue. -/
  | look
  | callbackReturn
  deriving DecidableEq

namespace TimerWorld

/-- The program runs: no `do_timer` is active, or the innermost one is in a callback. -/
def runs (w : TimerWorld) : Bool := w.activations.head?.all fun a => a.calling.isSome

/-- The slots whose callbacks are running. -/
def executing (w : TimerWorld) : List Nat := w.activations.filterMap Activation.calling

/-- A timer has been added in the slot `newSlot`. -/
def added (w : TimerWorld) (runsOnce : Bool) (timers : Timers) : TimerWorld :=
  let i := w.timers.newSlot
  { w with
    timers
    allocated := w.allocated.insert i
    adds := w.adds + 1
    serial := Function.update w.serial i w.adds
    once := if runsOnce then w.adds :: w.once else w.once
    addedAt := Function.update w.addedAt i w.calls.length
    setAt := Function.update w.setAt i w.calls.length }

/-- The tick of a slot has been moved. -/
def moved (w : TimerWorld) (i : Nat) (timers : Timers) : TimerWorld :=
  { w with
    timers
    setAt :=
      if diffTick (timers.tick i) timers.gettickCache <
          diffTick (w.timers.tick i) w.timers.gettickCache then
        Function.update w.setAt i w.calls.length
      else w.setAt }

/-- The innermost `do_timer` calls the callback of slot `i`. -/
def called (w : TimerWorld) (a : Activation) (rest : List Activation) (i : Nat) : TimerWorld :=
  { w with
    timers := w.timers.popTimerHeap
    activations :=
      { a with
        calling := some i
        fired := (w.calls.length, diffTick (w.timers.tick i) w.timers.gettickCache) :: a.fired }
      :: rest
    calls := w.serial i :: w.calls }

/-- `do_timer` looks at its queue: it returns, drops a stub or calls a callback. -/
def looked (w : TimerWorld) (a : Activation) (rest : List Activation) : TimerWorld :=
  match w.timers.lookTimer with
  | .wait _ => { w with activations := rest }
  | .pop i =>
    if (w.timers.timerData i).func = none then
      { w with timers := w.timers.popTimerHeap.finishTimer i }
    else w.called a rest i

end TimerWorld

open TimerWorld

/-- What does not happen at a state leaves it as it is. -/
def timerStep (w : TimerWorld) : TimerEvent → TimerWorld
  | .addTimer tick func id data =>
    if w.runs then w.added true (w.timers.addTimer tick func id data) else w
  | .addTimerInterval tick func id data interval =>
    if w.runs then w.added false (w.timers.addTimerInterval tick func id data interval) else w
  | .deleteTimer id func => if w.runs then { w with timers := (w.timers.deleteTimer id func).1 } else w
  | .addtickTimer tid added =>
    if w.runs then w.moved tid.toNat (w.timers.addtickTimer tid added).1 else w
  | .gettick now =>
    if w.activations = [] then { w with timers := { w.timers with gettickCache := now } } else w
  | .doTimer =>
    if w.runs then { w with activations := { start := w.calls.length } :: w.activations } else w
  | .look =>
    match w.activations with
    | a :: rest => if a.calling = none then w.looked a rest else w
    | [] => w
  | .callbackReturn =>
    match w.activations with
    | a :: rest =>
      match a.calling with
      | some i =>
        { w with
          timers := w.timers.finishTimer i
          activations := { a with calling := none } :: rest }
      | none => w
    | [] => w

/-! ## The invariant -/

/-- Where the slots are and what they hold. -/
structure TimersOk (w : TimerWorld) : Prop where
  places : ∀ i, w.timers.timerHeap.count i + w.timers.freeTimerList.count i + w.executing.count i =
    if i ∈ w.allocated then 1 else 0
  lt_num : ∀ i ∈ w.allocated, i < w.timers.timerDataNum
  num_le : w.timers.timerDataNum ≤ w.timers.timerDataMax
  used : ∀ i ∈ w.timers.timerHeap ++ w.executing, (w.timers.timerData i).type ≠ .unused
  serial_lt : ∀ i ∈ w.allocated, w.serial i < w.adds
  serial_inj : ∀ i ∈ w.allocated, ∀ j ∈ w.allocated, w.serial i = w.serial j → i = j
  calls_lt : ∀ k ∈ w.calls, k < w.adds
  once_lt : ∀ k ∈ w.once, k < w.adds
  pending : ∀ i ∈ w.timers.timerHeap, w.serial i ∈ w.once → w.serial i ∉ w.calls
  once_type : ∀ i ∈ w.timers.timerHeap ++ w.executing, w.serial i ∈ w.once →
    (w.timers.timerData i).type ≠ .interval
  once_calls : ∀ k ∈ w.once, w.calls.count k ≤ 1

namespace TimersOk

variable {w : TimerWorld} {i : Nat}

theorem mem_allocated (h : TimersOk w) (hi : 0 < w.timers.timerHeap.count i +
    w.timers.freeTimerList.count i + w.executing.count i) : i ∈ w.allocated := by
  by_contra hn
  have := h.places i
  rw [if_neg hn] at this
  omega

theorem mem_free (h : TimersOk w) (hi : i ∈ w.timers.freeTimerList) : i ∈ w.allocated :=
  h.mem_allocated (by have := List.count_pos_iff.mpr hi; omega)

theorem mem_used (h : TimersOk w) (hi : i ∈ w.timers.timerHeap ++ w.executing) :
    i ∈ w.allocated := by
  refine h.mem_allocated ?_
  rcases List.mem_append.mp hi with hi | hi <;> have := List.count_pos_iff.mpr hi <;> omega

theorem mem_heap (h : TimersOk w) (hi : i ∈ w.timers.timerHeap) : i ∈ w.allocated :=
  h.mem_used (List.mem_append_left _ hi)

theorem lt_max (h : TimersOk w) (hi : i ∈ w.allocated) : i < w.timers.timerDataMax :=
  (h.lt_num i hi).trans_le h.num_le

/-- A slot is at most once in one of the three places. -/
theorem places_le (h : TimersOk w) (i : Nat) : w.timers.timerHeap.count i +
    w.timers.freeTimerList.count i + w.executing.count i ≤ 1 := by
  rw [h.places i]
  split <;> omega

theorem heap_nodup (h : TimersOk w) : w.timers.timerHeap.Nodup :=
  List.nodup_iff_count_le_one.mpr fun i => by have := h.places_le i; omega

theorem not_executing (h : TimersOk w) (hi : i ∈ w.timers.timerHeap) : i ∉ w.executing := by
  intro he
  have h1 := List.count_pos_iff.mpr hi
  have h2 := List.count_pos_iff.mpr he
  have := h.places_le i
  omega

/-- The slot of a new timer is neither pending nor executing. -/
theorem newSlot_fresh (h : TimersOk w) :
    w.timers.newSlot ∉ w.timers.timerHeap ++ w.executing := by
  intro hi
  rcases Timers.newSlot_cases (fun i hi => h.lt_num i (h.mem_free hi)) h.num_le with
    ⟨rest, hrest, -⟩ | ⟨-, -, hnum, -⟩
  · have hp := h.places_le w.timers.newSlot
    rw [hrest, List.count_cons_self] at hp
    rcases List.mem_append.mp hi with hi | hi <;> have := List.count_pos_iff.mpr hi <;> omega
  · have := h.lt_num _ (h.mem_used hi)
    omega

theorem newSlot_le_max (h : TimersOk w) : w.timers.newSlot ≤ w.timers.timerDataMax := by
  rcases Timers.newSlot_cases (fun i hi => h.lt_num i (h.mem_free hi)) h.num_le with
    ⟨rest, hrest, -⟩ | ⟨-, -, -, hle⟩
  · exact (h.lt_max (h.mem_free (hrest ▸ List.mem_cons_self))).le
  · exact hle

/-- The free list after `newSlot` has been taken from it. -/
theorem count_popFree (h : TimersOk w) (j : Nat) :
    (w.timers.newSlot :: w.timers.timerHeap).count j +
      (Timers.popFree w.timers.timerDataNum w.timers.freeTimerList).2.count j +
      w.executing.count j = if j ∈ w.allocated.insert w.timers.newSlot then 1 else 0 := by
  have hj := h.places j
  rcases Timers.newSlot_cases (fun i hi => h.lt_num i (h.mem_free hi)) h.num_le with
    ⟨rest, hrest, hpop⟩ | ⟨hempty, hpop, hnum, -⟩
  · have hmem : w.timers.newSlot ∈ w.allocated := h.mem_free (hrest ▸ List.mem_cons_self)
    rw [hrest] at hj
    rw [hpop, List.insert_of_mem hmem]
    rcases eq_or_ne j w.timers.newSlot with rfl | hne
    · rw [List.count_cons_self] at hj ⊢
      omega
    · rw [List.count_cons_of_ne hne.symm] at hj ⊢
      exact hj
  · have hnew : w.timers.newSlot ∉ w.allocated := fun hm => by
      have := h.lt_num _ hm
      omega
    rw [hempty] at hj
    rw [hpop, List.insert_of_not_mem hnew]
    rcases eq_or_ne j w.timers.newSlot with rfl | hne
    · rw [List.count_cons_self, if_pos List.mem_cons_self]
      rw [if_neg hnew] at hj
      omega
    · rw [List.count_cons_of_ne hne.symm]
      simpa [hne] using hj

theorem added (h : TimersOk w) {td : TimerData} {runsOnce : Bool}
    (hty : td.type = if runsOnce then .onceAutodel else .interval) :
    TimersOk (w.added runsOnce (w.timers.addSlot td)) := by
  have hfresh := h.newSlot_fresh
  have hheap : ∀ j, j ∈ (w.timers.addSlot td).timerHeap ↔
      j = w.timers.newSlot ∨ j ∈ w.timers.timerHeap := fun j => by
    rw [(Timers.addSlot_timerHeap_perm _ _).mem_iff, List.mem_cons]
  have hused : ∀ j, j ∈ (w.timers.addSlot td).timerHeap ++ w.executing ↔
      j = w.timers.newSlot ∨ j ∈ w.timers.timerHeap ++ w.executing := fun j => by
    rw [List.mem_append, List.mem_append, hheap, or_assoc]
  have hdata : ∀ j ∈ w.timers.timerHeap ++ w.executing,
      (w.timers.addSlot td).timerData j = w.timers.timerData j := fun j hj =>
    Timers.addSlot_ne (fun e => hfresh (e ▸ hj)) (h.lt_max (h.mem_used hj))
  have hserial : ∀ j ∈ w.timers.timerHeap ++ w.executing,
      Function.update w.serial w.timers.newSlot w.adds j = w.serial j := fun j hj => by
    rw [Function.update_of_ne]
    rintro rfl
    exact hfresh hj
  have honce : ∀ k, k < w.adds →
      (k ∈ (if runsOnce then w.adds :: w.once else w.once) ↔ k ∈ w.once) := fun k hk => by
    cases runsOnce
    · simp
    · simp [Nat.ne_of_lt hk]
  have hlt : ∀ j ∈ w.timers.timerHeap ++ w.executing, w.serial j < w.adds := fun j hj =>
    h.serial_lt j (h.mem_used hj)
  have halloc : ∀ j, j ∈ w.allocated.insert w.timers.newSlot ↔
      j = w.timers.newSlot ∨ j ∈ w.allocated := fun j => List.mem_insert_iff
  constructor
  case places =>
    intro j
    simp only [TimerWorld.added, Timers.addSlot_freeTimerList]
    rw [(Timers.addSlot_timerHeap_perm _ _).count_eq]
    exact h.count_popFree j
  case lt_num =>
    intro j hj
    simp only [TimerWorld.added, Timers.addSlot_timerDataNum]
    rcases (halloc j).mp hj with rfl | hj
    · omega
    · have := h.lt_num j hj
      omega
  case num_le => exact Timers.addSlot_timerDataNum_le h.num_le h.newSlot_le_max
  case used =>
    intro j hj
    rcases (hused j).mp hj with rfl | hj
    · simp only [TimerWorld.added, Timers.addSlot_self, hty]
      split <;> simp
    · simpa only [TimerWorld.added, hdata j hj] using h.used j hj
  case serial_lt =>
    intro j hj
    simp only [TimerWorld.added]
    rcases eq_or_ne j w.timers.newSlot with rfl | hne
    · simp
    · rw [Function.update_of_ne hne]
      have := h.serial_lt j (((halloc j).mp hj).resolve_left hne)
      omega
  case serial_inj =>
    intro j hj k hk he
    simp only [TimerWorld.added] at he
    have hold : ∀ m ∈ w.allocated.insert w.timers.newSlot, m ≠ w.timers.newSlot →
        m ∈ w.allocated := fun m hm hne => ((halloc m).mp hm).resolve_left hne
    rcases eq_or_ne j w.timers.newSlot with rfl | hj' <;>
      rcases eq_or_ne k w.timers.newSlot with rfl | hk'
    · rfl
    · rw [Function.update_self, Function.update_of_ne hk'] at he
      exact absurd (h.serial_lt k (hold k hk hk')) (by omega)
    · rw [Function.update_self, Function.update_of_ne hj'] at he
      exact absurd (h.serial_lt j (hold j hj hj')) (by omega)
    · rw [Function.update_of_ne hj', Function.update_of_ne hk'] at he
      exact h.serial_inj j (hold j hj hj') k (hold k hk hk') he
  case calls_lt => exact fun k hk => (h.calls_lt k hk).trans (Nat.lt_succ_self _)
  case once_lt =>
    intro k hk
    rcases Nat.lt_trichotomy k w.adds with hlt | heq | hgt
    · exact hlt.trans (Nat.lt_succ_self _)
    · exact heq ▸ Nat.lt_succ_self _
    · cases runsOnce
      · exact absurd (h.once_lt k hk) (by omega)
      · rcases List.mem_cons.mp hk with rfl | hk
        · omega
        · exact absurd (h.once_lt k hk) (by omega)
  case pending =>
    intro j hj hk hc
    rcases (hheap j).mp hj with rfl | hj
    · simp only [TimerWorld.added, Function.update_self] at hc
      exact absurd (h.calls_lt _ hc) (by omega)
    · have hj' := List.mem_append_left w.executing hj
      simp only [TimerWorld.added, hserial j hj'] at hk hc
      exact h.pending j hj ((honce _ (hlt j hj')).mp hk) hc
  case once_type =>
    intro j hj hk
    rcases (hused j).mp hj with rfl | hj
    · simp only [TimerWorld.added, Timers.addSlot_self, hty, Function.update_self] at hk ⊢
      cases runsOnce
      · exact absurd (h.once_lt _ hk) (by omega)
      · simp
    · simp only [TimerWorld.added, hserial j hj, hdata j hj] at hk ⊢
      exact h.once_type j hj ((honce _ (hlt j hj)).mp hk)
  case once_calls =>
    intro k hk
    rcases Nat.lt_or_ge k w.adds with hlt | hge
    · exact h.once_calls k ((honce k hlt).mp hk)
    · have : k ∉ w.calls := fun hc => absurd (h.calls_lt k hc) (by omega)
      exact (List.count_eq_zero_of_not_mem this).le.trans (Nat.zero_le _)

/-- Slots that stay where they are and keep their type, or become stubs. -/
theorem congr (h : TimersOk w) {t : Timers} {as : List Activation} (setAt : Nat → Nat)
    (hheap : t.timerHeap.Perm w.timers.timerHeap)
    (hfree : t.freeTimerList = w.timers.freeTimerList)
    (hnum : t.timerDataNum = w.timers.timerDataNum)
    (hmax : t.timerDataMax = w.timers.timerDataMax)
    (htype : ∀ i, (t.timerData i).type = (w.timers.timerData i).type ∨
      (t.timerData i).type = .onceAutodel)
    (has : as.filterMap Activation.calling = w.executing) :
    TimersOk { w with timers := t, activations := as, setAt } := by
  have hused : ∀ i, i ∈ t.timerHeap ++ as.filterMap Activation.calling →
      i ∈ w.timers.timerHeap ++ w.executing := fun i hi => by
    rwa [has, List.mem_append, hheap.mem_iff, ← List.mem_append] at hi
  refine { h with
    places := fun i => ?_
    lt_num := fun i hi => hnum ▸ h.lt_num i hi
    num_le := ?_
    used := fun i hi => ?_
    pending := fun i hi => h.pending i (hheap.subset hi)
    once_type := fun i hi hk => ?_ }
  · simp only [executing, hheap.count_eq, hfree, has]
    exact h.places i
  · simp only [hnum, hmax]
    exact h.num_le
  · rcases htype i with e | e
    · simp only [e]
      exact h.used i (hused i hi)
    · simp [e]
  · rcases htype i with e | e
    · simp only [e]
      exact h.once_type i (hused i hi) hk
    · simp [e]

theorem deleted (h : TimersOk w) (id : Int) (func : Option Nat) :
    TimersOk { w with timers := (w.timers.deleteTimer id func).1 } := by
  rcases Timers.deleteTimer_cases w.timers id func with e | e
  · rw [e]
    exact h
  · rw [e]
    refine h.congr w.setAt (.refl _) rfl rfl rfl (fun i => ?_) rfl
    rcases eq_or_ne i id.toNat with rfl | hne
    · exact .inr (by simp)
    · exact .inl (by rw [Timers.setSlot_ne hne])

theorem moved (h : TimersOk w) (tid : Int) (added : BitVec 32) :
    TimersOk (w.moved tid.toNat (w.timers.addtickTimer tid added).1) := by
  rcases Timers.addtickTimer_cases w.timers tid added with e | ⟨-, e⟩ | ⟨hmem, e⟩
  · exact h.congr _ (by rw [e]) (by rw [e]) (by rw [e]) (by rw [e])
      (fun i => .inl (by rw [e])) rfl
  · exact h.congr _ (by rw [e]; exact .refl _) (by rw [e]; rfl) (by rw [e]; rfl)
      (by rw [e]; rfl) (fun i => .inl (by rw [e, Timers.moveTick_type])) rfl
  · refine h.congr _ ?_ (by rw [e]; rfl) (by rw [e]; rfl) (by rw [e]; rfl)
      (fun i => .inl (by rw [e]; exact Timers.moveTick_type)) rfl
    rw [e]
    exact (Timers.pushTimerHeap_perm _ _).trans (List.perm_cons_erase hmem).symm

/-- The last slot of the queue is taken out and is executing. -/
theorem popped (h : TimersOk w) {a : Activation} {rest : List Activation}
    (fired : List (Nat × Int)) (ha : w.activations = a :: rest) (hnone : a.calling = none)
    (hheap : w.timers.timerHeap = w.timers.timerHeap.dropLast ++ [i]) :
    TimersOk { w with
      timers := w.timers.popTimerHeap
      activations := { a with calling := some i, fired } :: rest } := by
  have hexec : w.executing = rest.filterMap Activation.calling := by
    simp [executing, ha, hnone]
  have hused : ∀ j, j ∈ w.timers.timerHeap.dropLast ++ i :: rest.filterMap Activation.calling →
      j ∈ w.timers.timerHeap ++ w.executing := fun j hj => by
    rw [hheap, hexec]
    simp only [List.mem_append, List.mem_cons] at hj ⊢
    grind
  refine { h with
    places := fun j => ?_
    used := fun j hj => h.used j (hused j hj)
    pending := fun j hj => h.pending j (List.dropLast_subset _ hj)
    once_type := fun j hj => h.once_type j (hused j hj) }
  have hj := h.places j
  rw [hheap, List.count_append, hexec] at hj
  change w.timers.timerHeap.dropLast.count j + w.timers.freeTimerList.count j +
    (i :: rest.filterMap Activation.calling).count j = if j ∈ w.allocated then 1 else 0
  rw [List.count_cons]
  rw [List.count_singleton] at hj
  omega

/-- The call of the callback of an executing slot. -/
theorem recorded (h : TimersOk w) (hi : i ∈ w.executing)
    (hnew : w.serial i ∈ w.once → w.serial i ∉ w.calls) :
    TimersOk { w with calls := w.serial i :: w.calls } := by
  refine { h with
    calls_lt := fun k hk => ?_
    pending := fun j hj hk hc => ?_
    once_calls := fun k hk => ?_ }
  · rcases List.mem_cons.mp hk with rfl | hk
    · exact h.serial_lt i (h.mem_used (List.mem_append_right _ hi))
    · exact h.calls_lt k hk
  · rcases List.mem_cons.mp hc with he | hc
    · have hji : j = i :=
        h.serial_inj j (h.mem_heap hj) i (h.mem_used (List.mem_append_right _ hi)) he
      exact h.not_executing hj (hji ▸ hi)
    · exact h.pending j hj hk hc
  · rw [List.count_cons]
    split
    · rename_i he
      obtain rfl : w.serial i = k := by simpa using he
      rw [List.count_eq_zero_of_not_mem (hnew hk)]
    · exact h.once_calls k hk

/-- An executing slot goes back into the queue or onto the free list. -/
theorem finished (h : TimersOk w) {a : Activation} {rest : List Activation}
    (ha : w.activations = { a with calling := some i } :: rest) :
    TimersOk { w with
      timers := w.timers.finishTimer i
      activations := { a with calling := none } :: rest } := by
  have hexec : w.executing = i :: rest.filterMap Activation.calling := by
    simp [executing, ha]
  have hi : i ∈ w.timers.timerHeap ++ w.executing := by simp [hexec]
  have hother : ∀ j ∈ w.timers.timerHeap ++ rest.filterMap Activation.calling, j ≠ i := by
    rintro j hj rfl
    have hp := h.places_le j
    rw [hexec, List.count_cons_self] at hp
    rcases List.mem_append.mp hj with hj | hj <;> have := List.count_pos_iff.mpr hj <;> omega
  have hsub : ∀ j ∈ w.timers.timerHeap ++ rest.filterMap Activation.calling,
      j ∈ w.timers.timerHeap ++ w.executing := fun j hj => by
    rw [hexec]
    simp only [List.mem_append, List.mem_cons] at hj ⊢
    grind
  have hj := h.places
  rw [hexec] at hj
  rcases Timers.finishTimer_cases (.inr (h.used i hi)) with ⟨-, hty, e⟩ | ⟨-, e⟩
  · rw [e]
    have hperm := Timers.pushTimerHeap_perm
      (w.timers.setSlot i { w.timers.timerData i with tick := w.timers.nextTick i }) i
    have hused : ∀ j, j ∈ ((w.timers.setSlot i { w.timers.timerData i with
        tick := w.timers.nextTick i }).pushTimerHeap i).timerHeap ++
        rest.filterMap Activation.calling → j ∈ w.timers.timerHeap ++ w.executing := by
      intro j hj
      rw [List.mem_append, hperm.mem_iff, List.mem_cons, or_assoc] at hj
      rcases hj with rfl | hj
      · exact hi
      · exact hsub j (List.mem_append.mpr hj)
    have htype : ∀ j, ((w.timers.setSlot i { w.timers.timerData i with
        tick := w.timers.nextTick i }).timerData j).type = (w.timers.timerData j).type := by
      intro j
      rcases eq_or_ne j i with rfl | hne
      · simp
      · rw [Timers.setSlot_ne hne]
    refine { h with
      places := fun j => ?_
      used := fun j hj => ?_
      pending := fun j hj hk => ?_
      once_type := fun j hj hk => ?_ }
    · have := hj j
      simp only [executing, List.filterMap_cons_none, hperm.count_eq]
      rw [List.count_cons] at this ⊢
      simp only [Timers.setSlot_timerHeap, Timers.pushTimerHeap_freeTimerList,
        Timers.setSlot_freeTimerList]
      omega
    · simp only [Timers.pushTimerHeap_timerData, htype]
      exact h.used j (hused j hj)
    · rw [hperm.mem_iff, List.mem_cons] at hj
      rcases hj with rfl | hj
      · exact absurd hty (h.once_type j hi hk)
      · exact h.pending j hj hk
    · simp only [Timers.pushTimerHeap_timerData, htype]
      exact h.once_type j (hused j hj) hk
  · rw [e]
    have hdata : ∀ j ∈ w.timers.timerHeap ++ rest.filterMap Activation.calling,
        (w.timers.setSlot i { w.timers.timerData i with type := .unused }).timerData j =
          w.timers.timerData j := fun j hj => Timers.setSlot_ne (hother j hj)
    refine { h with
      places := fun j => ?_
      used := fun j hj => ?_
      once_type := fun j hj hk => ?_ }
    · have := hj j
      simp only [executing, List.filterMap_cons_none, Timers.setSlot_timerHeap]
      rw [List.count_cons] at this ⊢
      omega
    · simp only [hdata j hj]
      exact h.used j (hsub j hj)
    · simp only [hdata j hj]
      exact h.once_type j (hsub j hj) hk

end TimersOk

/-! ## Runs -/

theorem timersOk_looked {w : TimerWorld} (h : TimersOk w) {a : Activation} {rest : List Activation}
    (ha : w.activations = a :: rest) (hnone : a.calling = none) : TimersOk (w.looked a rest) := by
  unfold looked
  cases hl : w.timers.lookTimer with
  | wait ms =>
    exact h.congr w.setAt (.refl _) rfl rfl rfl (fun i => .inl rfl)
      (by simp [executing, ha, hnone])
  | pop i =>
    obtain ⟨hheap, -⟩ := Timers.lookTimer_pop hl
    have hi : i ∈ w.timers.timerHeap := hheap ▸ List.mem_append_right _ (List.mem_singleton.mpr rfl)
    dsimp only
    split
    · -- a stub goes the way of a slot whose callback has returned
      have h1 := (h.popped a.fired ha hnone hheap).finished rfl
      obtain ⟨calling, start, fired⟩ := a
      obtain rfl : calling = none := hnone
      rw [ha]
      exact h1
    · exact (h.popped _ ha hnone hheap).recorded (by simp [executing])
        (fun hk => h.pending i hi hk)

/-- **Every step keeps the invariant.** -/
theorem timersOk_step (w : TimerWorld) (e : TimerEvent) (h : TimersOk w) :
    TimersOk (timerStep w e) := by
  cases e with
  | addTimer tick func id data =>
    simp only [timerStep]
    split
    · exact h.added rfl
    · exact h
  | addTimerInterval tick func id data interval =>
    simp only [timerStep]
    split
    · exact h.added rfl
    · exact h
  | deleteTimer id func =>
    simp only [timerStep]
    split
    · exact h.deleted id func
    · exact h
  | addtickTimer tid added =>
    simp only [timerStep]
    split
    · exact h.moved tid added
    · exact h
  | gettick now =>
    simp only [timerStep]
    split
    · exact h.congr w.setAt (.refl _) rfl rfl rfl (fun i => .inl rfl) rfl
    · exact h
  | doTimer =>
    simp only [timerStep]
    split
    · exact h.congr w.setAt (.refl _) rfl rfl rfl (fun i => .inl rfl) rfl
    · exact h
  | look =>
    simp only [timerStep]
    split
    · rename_i a rest ha
      split
      · exact timersOk_looked h ha ‹_›
      · exact h
    · exact h
  | callbackReturn =>
    simp only [timerStep]
    split
    · rename_i a rest ha
      split
      · rename_i i hi
        exact h.finished (a := a) (by rw [ha, ← hi])
      · exact h
    · exact h

theorem timersOk_init (now : BitVec 32) : TimersOk { timers := { gettickCache := now } } := by
  constructor <;> simp [executing]

theorem timersOk_run (now : BitVec 32) (es : List TimerEvent) :
    TimersOk (Run.exec timerStep { timers := { gettickCache := now } } es) :=
  Run.inv_exec (fun w e h (_ : True) => timersOk_step w e h) (timersOk_init now)
    (Run.meets_of_forall (fun _ _ => trivial) _ _)

/-- **Where the slots are.** Whatever the program and its callbacks do with the timers, every slot
that was handed out is once in the queue, or once on the free list, or being executed. A new timer
gets no slot that is pending or executing; no slot is twice in the queue; and no timer added by
`add_timer` has its callback called twice. -/
theorem timerRun_partition (now : BitVec 32) (es : List TimerEvent) :
    let w := Run.exec timerStep { timers := { gettickCache := now } } es
    (∀ i ∈ w.allocated, w.timers.timerHeap.count i + w.timers.freeTimerList.count i +
      w.executing.count i = 1) ∧
    (∀ i ∈ w.timers.timerHeap ++ w.timers.freeTimerList ++ w.executing, i ∈ w.allocated) ∧
    w.timers.newSlot ∉ w.timers.timerHeap ++ w.executing ∧
    w.timers.timerHeap.Nodup ∧ ∀ k ∈ w.once, w.calls.count k ≤ 1 := by
  intro w
  have h : TimersOk w := timersOk_run now es
  refine ⟨fun i hi => ?_, fun i hi => ?_, h.newSlot_fresh, h.heap_nodup, h.once_calls⟩
  · rw [h.places, if_pos hi]
  · rw [List.mem_append, List.mem_append, or_assoc] at hi
    rcases hi with hi | hi | hi
    · exact h.mem_heap hi
    · exact h.mem_free hi
    · exact h.mem_used (List.mem_append_right _ hi)

end Nezumi
