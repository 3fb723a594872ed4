import Mathlib.Data.BitVec
import Mathlib.Data.List.Basic
import Mathlib.Logic.Function.Basic
import Nezumi.Lib.Search

/-!
# Timers (`common/timer.c`)

* `TimerData` is a slot of `timer_data`; `Timers` are the static variables of the file. The table is
  a function: the slots from `timer_data_max` on have not been allocated.
* `pushTimerHeap`, `addTimer`, `addTimerInterval`, `deleteTimer`, `addtickTimer` are the functions of
  the same names. `timer_heap` is a list in the order of the array: the last one is next.
* `do_timer` calls back into the program in the middle of its loop. `lookTimer` is its loop up to the
  call, `finishTimer` what it does after the call.
-/

namespace Nezumi

/-- `DIFF_TICK`: the signed difference of two ticks. -/
def diffTick (a b : BitVec 32) : Int := (a - b).toInt

/-- The `type` of a slot: `0`, `TIMER_ONCE_AUTODEL` or `TIMER_INTERVAL`. -/
inductive TimerType where
  | unused
  | onceAutodel
  | interval
  deriving DecidableEq, Repr

/-- `struct TimerData`. A callback is known by its address; `none` is `NULL`. -/
structure TimerData where
  tick : BitVec 32 := 0
  func : Option Nat := none
  id : Int := 0
  data : Int := 0
  type : TimerType := .unused
  interval : BitVec 32 := 0
  deriving DecidableEq, Repr

structure Timers where
  timerData : Nat → TimerData := fun _ => {}
  timerDataMax : Nat := 0
  timerDataNum : Nat := 0
  /-- `free_timer_list` below `free_timer_list_pos`, the last one first. -/
  freeTimerList : List Nat := []
  timerHeap : List Nat := []
  gettickCache : BitVec 32 := 0

namespace Timers

variable (t : Timers)

abbrev tick (i : Nat) : BitVec 32 := (t.timerData i).tick

/-- The tick of the slot at place `k` of the queue is later than `j`, as an unsigned number. -/
def later (j : BitVec 32) (k : Nat) : Bool := (t.timerHeap[k]?).any fun i => j < t.tick i

/-- The place at which `push_timer_heap` puts a slot with tick `j`. -/
def pushPlace (j : BitVec 32) : Nat :=
  let num := t.timerHeap.length
  if num < 4 then Search.scanDown (t.later j) num
  else if t.later j (num - 1) then num
  else Search.bisect (t.later j) (num - 1) 0 (num - 1)

def pushTimerHeap (idx : Nat) : Timers :=
  { t with timerHeap := Search.insertAt (t.pushPlace (t.tick idx)) idx t.timerHeap }

/-- `do i = free_timer_list[--pos]; while (i >= timer_data_num && pos > 0)`. -/
def popFree (num : Nat) : List Nat → Nat × List Nat
  | [] => (num, [])
  | i :: rest => if num ≤ i ∧ rest ≠ [] then popFree num rest else (i, rest)

/-- The first slot from `i` on whose type is `0`, or `timer_data_max`. -/
def firstUnused : (fuel : Nat) → (i : Nat) → Nat
  | 0, i => i
  | fuel + 1, i =>
    if i < t.timerDataMax ∧ (t.timerData i).type ≠ .unused then firstUnused fuel (i + 1) else i

/-- The slot that a new timer gets. -/
def newSlot : Nat :=
  let i := (popFree t.timerDataNum t.freeTimerList).1
  if t.timerDataNum ≤ i then t.firstUnused (t.timerDataMax - t.timerDataNum) t.timerDataNum else i

/-- `timer_data` with room for slot `i`: 256 more slots, set to zero, when it is full. -/
def reserve (i : Nat) : Timers :=
  if t.timerDataNum ≤ i ∧ t.timerDataMax ≤ i then
    { t with
      timerDataMax := t.timerDataMax + 256
      timerData := fun k =>
        if t.timerDataMax ≤ k ∧ k < t.timerDataMax + 256 then {} else t.timerData k }
  else t

/-- A slot is written. -/
def setSlot (i : Nat) (td : TimerData) : Timers :=
  { t with timerData := Function.update t.timerData i td }

/-- What `add_timer` and `add_timer_interval` have in common: the timer goes into `newSlot`. -/
def addSlot (td : TimerData) : Timers :=
  let i := t.newSlot
  let t := { t with freeTimerList := (popFree t.timerDataNum t.freeTimerList).2 }
  let t := ((t.reserve i).setSlot i td).pushTimerHeap i
  if t.timerDataNum ≤ i then { t with timerDataNum := i + 1 } else t

def addTimer (tick : BitVec 32) (func : Option Nat) (id data : Int) : Timers :=
  t.addSlot { tick, func, id, data, type := .onceAutodel, interval := 1000 }

def addTimerInterval (tick : BitVec 32) (func : Option Nat) (id data : Int)
    (interval : BitVec 32) : Timers :=
  t.addSlot { tick, func, id, data, type := .interval, interval }

/-- The slot is turned into a stub; it stays where it is. -/
def deleteTimer (id : Int) (func : Option Nat) : Timers × Int :=
  if id < 0 ∨ t.timerDataMax ≤ id then (t, -1)
  else if (t.timerData id.toNat).func ≠ func then (t, -2)
  else
    (t.setSlot id.toNat { t.timerData id.toNat with func := none, type := .onceAutodel }, 0)

/-- The tick of a slot moves on. -/
def moveTick (i : Nat) (added : BitVec 32) : Timers :=
  t.setSlot i { t.timerData i with tick := t.tick i + added }

/-- A slot that is not in the queue is being executed: only its tick moves. -/
def addtickTimer (tid : Int) (added : BitVec 32) : Timers × BitVec 32 :=
  if tid < 0 ∨ t.timerDataMax ≤ tid then (t, -1)
  else
    let i := tid.toNat
    let t :=
      if i ∈ t.timerHeap then
        (({ t with timerHeap := t.timerHeap.erase i }).moveTick i added).pushTimerHeap i
      else t.moveTick i added
    (t, t.tick i)

/-- What `do_timer` returns when the next timer is `nextmin` ms away. -/
def waitFor (nextmin : Int) : Int :=
  if nextmin < 50 then 50 else if 1000 < nextmin then 1000 else nextmin

/-- What an iteration of the loop of `do_timer` comes to before its callback. -/
inductive Look where
  /-- `do_timer` returns this time. -/
  | wait (ms : Int)
  /-- The slot is taken out of the queue. -/
  | pop (i : Nat)
  deriving DecidableEq, Repr

def lookTimer : Look :=
  match t.timerHeap.getLast? with
  | none => .wait 1000
  | some i =>
    let nextmin := diffTick (t.tick i) t.gettickCache
    if 0 < nextmin ∧ (t.timerData i).func ≠ none then .wait (waitFor nextmin) else .pop i

/-- The queue without its last slot. -/
def popTimerHeap : Timers := { t with timerHeap := t.timerHeap.dropLast }

/-- The arguments of the callback of a slot. A timer that is more than a second late is told the
time it is, and not the time it was due. -/
def callArgs (i : Nat) : Nat × BitVec 32 × Int × Int :=
  (i, if diffTick (t.tick i) t.gettickCache < -1000 then t.gettickCache else t.tick i,
    (t.timerData i).id, (t.timerData i).data)

/-- The tick of an interval timer for the next time. -/
def nextTick (i : Nat) : BitVec 32 :=
  if diffTick (t.tick i) t.gettickCache < -1000 then
    t.gettickCache + (t.timerData i).interval
  else t.tick i + (t.timerData i).interval

/-- The body of the loop after the callback: a slot without a callback counts as one that runs
once. -/
def finishTimer (i : Nat) : Timers :=
  let td := t.timerData i
  match if td.func = none then .onceAutodel else td.type with
  | .onceAutodel =>
    { t.setSlot i { td with type := .unused } with freeTimerList := i :: t.freeTimerList }
  | .interval => (t.setSlot i { td with tick := t.nextTick i }).pushTimerHeap i
  | .unused => t

end Timers

end Nezumi
