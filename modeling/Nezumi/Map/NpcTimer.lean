import Nezumi.Common.Timer
import Nezumi.Lib.Alarms
import Nezumi.Lib.Run
import Nezumi.Lib.Scanf

/-!
# The timers of npcs (`map/npc.c`)

A script has labels `OnTimer<ms>`. While the timer of its npc runs, the script is called at each of
these times. The npc keeps the value of its timer at a tick, and the index of the next label.

* `npcTimereventImport`, `npcTimerevent`, `npcTimereventStart`, `npcTimereventStop`,
  `npcGettimereventTick` and `npcSettimereventTick` are the functions of the same names. A timer
  that was added is its tick and its data.
* `NpcTimerRun`: an npc, the clock, the labels that were called, and the stopwatch that they should
  follow. `npcTimerStep`: the clock goes on, something starts, stops or sets the timer, or a tick is
  delivered and the script that it calls does so.
-/

namespace Nezumi

open Scanf Alarms

/-- `struct npc_timerevent_list` -/
structure NpcTimereventList where
  timer : Int32
  pos : Int32
  deriving DecidableEq

/-- The time of a label, as a number. -/
def NpcTimereventList.time (e : NpcTimereventList) : ℤ := e.timer.toInt

/-- A timer of an npc in `timer_data`. -/
structure AddedTimer where
  tick : BitVec 32
  data : Int32
  deriving DecidableEq

/-- The fields of an npc with a script that are about its timer. `none` is -1 as an index, and as
`timerid`, for which the timer itself stands. -/
structure NpcTimer where
  timer : Int32 := 0
  timertick : BitVec 32 := 0
  nexttimer : Option ℕ := none
  timerid : Option AddedTimer := none
  rid : Int32 := 0
  timerEvent : List NpcTimereventList := []

/-! ## The labels -/

/-- `"OnTimer%d%n"` -/
def timerFormat : List Directive :=
  [.lit 79, .lit 110, .lit 84, .lit 105, .lit 109, .lit 101, .lit 114, .int]

/-- The label of a time, if its name is one: behind the number comes `last`. -/
def timerLabel (last : Option UInt8) (lname : List UInt8) (pos : Int32) :
    Option NpcTimereventList :=
  match sscanf timerFormat lname with
  | ([.int t], some rest) => if rest.head? = last then some ⟨t, pos⟩ else none
  | _ => none

/-- Puts a label before the first that is later. `npc_parse_script` has a copy of
`npc_timerevent_import` for names that end behind the number. -/
def importLabel (last : Option UInt8) (te : List NpcTimereventList) (lname : List UInt8)
    (pos : Int32) : List NpcTimereventList :=
  match timerLabel last lname pos with
  | none => te
  | some e => te.takeWhile (fun b => ¬e.timer < b.timer) ++
      e :: te.dropWhile (fun b => ¬e.timer < b.timer)

/-- `npc_timerevent_import` -/
def npcTimereventImport (te : List NpcTimereventList) (lname : List UInt8) (pos : Int32) :
    List NpcTimereventList := importLabel (some 58) te lname pos

/-! ## The timer -/

section Timer

variable (nd : NpcTimer) (gettick : BitVec 32)

/-- The difference of two ticks as an `int`. -/
def tickDiff (a b : BitVec 32) : Int32 := Int32.ofBitVec (a - b)

/-- `npc_timerevent`, with the label whose place in the script is run. -/
def npcTimerevent (tick : BitVec 32) (data : Int32) : NpcTimer × Option NpcTimereventList :=
  match nd.nexttimer with
  | none => (nd, none)
  | some j =>
    let t := nd.timer + data
    let timerid := nd.timerEvent[j + 1]?.map fun e =>
      ⟨tick + (e.timer - t).toBitVec, e.timer - t⟩
    ({ nd with timertick := tick, timerid, timer := t, nexttimer := some (j + 1) },
      nd.timerEvent[j]?)

/-- `npc_timerevent_start` -/
def npcTimereventStart (rid : Int32) : NpcTimer :=
  if nd.nexttimer.isSome then nd
  else
    let j := nd.timerEvent.findIdx fun e => nd.timer < e.timer
    match nd.timerEvent[j]? with
    | none => nd
    | some e =>
      let next := e.timer - nd.timer
      { nd with
        nexttimer := some j
        timertick := gettick
        rid := if 0 ≤ rid then rid else nd.rid
        timerid := some ⟨gettick + next.toBitVec, next⟩ }

/-- `npc_timerevent_stop` -/
def npcTimereventStop : NpcTimer :=
  if nd.nexttimer.isSome then
    { nd with
      nexttimer := none
      timer := nd.timer + tickDiff gettick nd.timertick
      timerid := none
      rid := 0 }
  else nd

/-- `npc_gettimerevent_tick` -/
def npcGettimereventTick : Int32 :=
  if nd.nexttimer.isSome then nd.timer + tickDiff gettick nd.timertick else nd.timer

/-- `npc_settimerevent_tick` -/
def npcSettimereventTick (newtimer : Int32) : NpcTimer :=
  let flag := nd.nexttimer.isSome
  let nd := { npcTimereventStop nd gettick with timer := newtimer }
  if flag then npcTimereventStart nd gettick (-1) else nd

/-- The timer that was added for an npc is due. -/
def NpcTimer.Due : Prop := ∃ t ∈ nd.timerid, diffTick t.tick gettick ≤ 0

instance : Decidable (nd.Due gettick) := inferInstanceAs (Decidable (∃ t ∈ nd.timerid, _))

end Timer

/-! ## Runs -/

/-- What is done to the timer of an npc. -/
inductive TimerOp
  | start (rid : Int32)
  | stop
  | set (newtimer : Int32)

/-- An npc, the clock in milliseconds, the labels that were called, and the stopwatch. -/
structure NpcTimerRun where
  nd : NpcTimer := {}
  now : ℕ := 0
  called : List NpcTimereventList := []
  watch : Watch NpcTimereventList := {}

inductive TimerRunEvent
  /-- the clock goes on -/
  | wait (now : ℕ)
  | op (now : ℕ) (op : TimerOp)
  /-- the tick of the npc is delivered, and the script that is called does something -/
  | tick (now : ℕ) (script : List TimerOp)

namespace NpcTimerRun

variable (x : NpcTimerRun)

/-- `gettick_cache` -/
def gettick : BitVec 32 := BitVec.ofNat 32 x.now

def wait (now : ℕ) : NpcTimerRun :=
  { x with
    now
    watch := x.watch.advance NpcTimereventList.time x.nd.timerEvent (now - x.now) }

def op : TimerOp → NpcTimerRun
  | .start rid => { x with
      nd := npcTimereventStart x.nd x.gettick rid
      watch := x.watch.start NpcTimereventList.time x.nd.timerEvent }
  | .stop => { x with
      nd := npcTimereventStop x.nd x.gettick
      watch := x.watch.stop }
  | .set newtimer => { x with
      nd := npcSettimereventTick x.nd x.gettick newtimer
      watch := x.watch.set NpcTimereventList.time x.nd.timerEvent newtimer.toInt }

/-- The tick is delivered with the time for which it was added. -/
def deliver : NpcTimerRun :=
  match x.nd.timerid with
  | none => x
  | some t =>
    let (nd, e) := npcTimerevent x.nd t.tick t.data
    { x with nd, called := x.called ++ e.toList }

end NpcTimerRun

def npcTimerStep (x : NpcTimerRun) : TimerRunEvent → NpcTimerRun
  | .wait now => x.wait now
  | .op now o => (x.wait now).op o
  | .tick now script => script.foldl NpcTimerRun.op (x.wait now).deliver

end Nezumi
