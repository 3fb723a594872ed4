import Nezumi.Common.TimerLemmas

/-!
# The array of the timer queue (`common/timer.c`)

`Timers.timerHeap` is the queue as a list. Here it is the array with `timer_heap_num` and
`timer_heap_max`, and `push_timer_heap` as it moves the elements. A write outside of the array has
no result.

* `scan`, `shift`, `memmove`: the three ways in which the elements behind the place move up.
* `pushTimerHeap_eq`: on the queue the function is `Timers.pushTimerHeap`.
* `pushTimerHeap_sorted`: on a sorted queue it is the ordered insertion, and timers of one tick
  leave the queue in the order in which they came.
-/

namespace Nezumi

structure TimerHeap where
  timerHeap : ℕ → ℕ := fun _ => 0
  timerHeapMax : ℕ := 0
  timerHeapNum : ℕ := 0

namespace TimerHeap

variable (tick : ℕ → BitVec 32) (h : TimerHeap)

/-- The elements in their order. The last one is next. -/
def queue : List ℕ := (List.range h.timerHeapNum).map h.timerHeap

/-- A write to the array. -/
def store (i v : ℕ) : Option TimerHeap :=
  if i < h.timerHeapMax then some { h with timerHeap := Function.update h.timerHeap i v } else none

/-- 256 more elements, set to zero, when the array is full. -/
def grow : TimerHeap :=
  if h.timerHeapNum < h.timerHeapMax then h
  else
    { h with
      timerHeapMax := h.timerHeapMax + 256
      timerHeap := fun k =>
        if h.timerHeapMax ≤ k ∧ k < h.timerHeapMax + 256 then 0 else h.timerHeap k }

/-- The loop for short queues: the elements that are not later than `j` move up, from the end. -/
def scan (j : BitVec 32) : ℕ → TimerHeap → Option (TimerHeap × ℕ)
  | 0, h => some (h, 0)
  | i + 1, h =>
    if j < tick (h.timerHeap i) then some (h, i + 1)
    else (h.store (i + 1) (h.timerHeap i)).bind (scan j i)

/-- The loop that moves the elements from `min` on. -/
def shift (min : ℕ) : ℕ → TimerHeap → Option TimerHeap
  | 0, h => some h
  | i + 1, h =>
    if min < i + 1 then (h.store (i + 1) (h.timerHeap i)).bind (shift min i) else some h

/-- `memmove` of the elements from `min` on. -/
def memmove (min : ℕ) : Option TimerHeap :=
  if h.timerHeapNum < h.timerHeapMax then
    some { h with timerHeap := fun k =>
      if min < k ∧ k ≤ h.timerHeapNum then h.timerHeap (k - 1) else h.timerHeap k }
  else none

/-- `push_timer_heap` -/
def pushTimerHeap (idx : ℕ) : Option TimerHeap := do
  let h := h.grow
  let j := tick idx
  let num := h.timerHeapNum
  let h ←
    if num < 4 then do
      let (h, i) ← scan tick j num h
      h.store i idx
    else if j < tick (h.timerHeap (num - 1)) then h.store num idx
    else do
      let min := Search.bisect (fun k => j < tick (h.timerHeap k)) (num - 1) 0 (num - 1)
      let h ← if num - min < 5 then shift min num h else h.memmove min
      h.store min idx
  return { h with timerHeapNum := num + 1 }

/-! ## Moving the elements -/

section Moves

variable {tick h} {h' : TimerHeap} {i p v : ℕ} {j : BitVec 32}

/-- The elements from `p` up to `i` have moved up by one. -/
structure Moved (h h' : TimerHeap) (p i : ℕ) : Prop where
  max : h'.timerHeapMax = h.timerHeapMax
  num : h'.timerHeapNum = h.timerHeapNum
  at_ : ∀ k, h'.timerHeap k = if p < k ∧ k ≤ i then h.timerHeap (k - 1) else h.timerHeap k

theorem Moved.refl (h : TimerHeap) (p : ℕ) : Moved h h p p :=
  ⟨rfl, rfl, fun k => (if_neg (by omega)).symm⟩

/-- One more element moves before the others. -/
theorem Moved.step (hm : Moved
    { h with timerHeap := Function.update h.timerHeap (i + 1) (h.timerHeap i) } h' p i) (hp : p ≤ i) : Moved h h' p (i + 1) where
  max := hm.max
  num := hm.num
  at_ k := by
    rw [hm.at_]
    dsimp only
    rcases Nat.lt_trichotomy k (i + 1) with hlt | rfl | hgt
    · rw [Function.update_of_ne (by omega), Function.update_of_ne (by omega)]
      exact if_congr (by omega) rfl rfl
    · rw [if_neg (by omega), Function.update_self, if_pos (by omega), Nat.add_sub_cancel]
    · rw [if_neg (by omega), Function.update_of_ne (by omega), if_neg (by omega)]

theorem store_eq (hi : i < h.timerHeapMax) :
    h.store i v = some { h with timerHeap := Function.update h.timerHeap i v } := if_pos hi

/-- The loop of a short queue stops where the later elements begin. -/
theorem scan_moved (hi : i < h.timerHeapMax) : ∃ h',
    scan tick j i h = some (h', Search.scanDown (fun k => j < tick (h.timerHeap k)) i) ∧
      Moved h h' (Search.scanDown (fun k => j < tick (h.timerHeap k)) i) i := by
  induction i generalizing h with
  | zero => exact ⟨h, rfl, .refl h 0⟩
  | succ i ih =>
    unfold scan Search.scanDown
    by_cases hj : j < tick (h.timerHeap i)
    · rw [if_pos hj, if_pos (decide_eq_true hj)]
      exact ⟨h, rfl, .refl h (i + 1)⟩
    · rw [if_neg hj, if_neg (by simpa using hj), store_eq hi, Option.bind_some]
      set h₁ : TimerHeap :=
        { h with timerHeap := Function.update h.timerHeap (i + 1) (h.timerHeap i) }
      have hsame : Search.scanDown (fun k => j < tick (h₁.timerHeap k)) i =
          Search.scanDown (fun k => j < tick (h.timerHeap k)) i :=
        Search.scanDown_congr fun k hk =>
          congrArg (fun v => decide (j < tick v)) (Function.update_of_ne (by omega) _ _)
      obtain ⟨h', heq, hm⟩ := @ih h₁ (Nat.lt_of_succ_lt hi)
      rw [hsame] at heq hm
      exact ⟨h', heq, hm.step (Search.scanDown_le _ _)⟩

/-- The loop that moves the elements from `min` on. -/
theorem shift_moved {min : ℕ} (hmin : min ≤ i) (hi : i < h.timerHeapMax) : ∃ h',
    shift min i h = some h' ∧ Moved h h' min i := by
  induction i generalizing h with
  | zero =>
    obtain rfl := Nat.le_zero.mp hmin
    exact ⟨h, rfl, .refl h 0⟩
  | succ i ih =>
    unfold shift
    by_cases hlt : min < i + 1
    · rw [if_pos hlt, store_eq hi, Option.bind_some]
      obtain ⟨h', heq, hm⟩ := @ih
        { h with timerHeap := Function.update h.timerHeap (i + 1) (h.timerHeap i) }
        (Nat.le_of_lt_succ hlt) (Nat.lt_of_succ_lt hi)
      exact ⟨h', heq, hm.step (Nat.le_of_lt_succ hlt)⟩
    · obtain rfl : min = i + 1 := by omega
      rw [if_neg hlt]
      exact ⟨h, rfl, .refl h (i + 1)⟩

theorem memmove_moved (min : ℕ) (hnum : h.timerHeapNum < h.timerHeapMax) : ∃ h',
    h.memmove min = some h' ∧ Moved h h' min h.timerHeapNum :=
  ⟨_, if_pos hnum, rfl, rfl, fun _ => rfl⟩

/-- A new element at the place from which on the others have moved is put into the queue there. -/
theorem Moved.stored (hm : Moved h h' p h.timerHeapNum) (hp : p ≤ h.timerHeapNum)
    (hnum : h.timerHeapNum < h.timerHeapMax) : ∃ h₂, h'.store p v = some h₂ ∧
      h₂.timerHeapMax = h.timerHeapMax ∧ h₂.timerHeapNum = h.timerHeapNum ∧
      ({ h₂ with timerHeapNum := h.timerHeapNum + 1 } : TimerHeap).queue =
        Search.insertAt p v h.queue := by
  refine ⟨_, store_eq (by rw [hm.max]; omega), hm.max, hm.num, ?_⟩
  refine Search.insertAt_range hp (fun k hk => ?_) ?_ fun k hk hle => ?_
  · dsimp only
    rw [Function.update_of_ne (by omega), hm.at_, if_neg (by omega)]
  · exact Function.update_self ..
  · dsimp only
    rw [Function.update_of_ne (by omega), hm.at_, if_pos ⟨hk, hle⟩]

end Moves

/-! ## The whole function -/

section Push

variable {tick h} {idx : ℕ}

theorem grow_num (h : TimerHeap) : h.grow.timerHeapNum = h.timerHeapNum := by
  unfold grow
  split <;> rfl

/-- Room for one more. -/
theorem lt_grow (hok : h.timerHeapNum ≤ h.timerHeapMax) :
    h.grow.timerHeapNum < h.grow.timerHeapMax := by
  unfold grow
  split
  · assumption
  · dsimp only
    omega

theorem grow_queue (hok : h.timerHeapNum ≤ h.timerHeapMax) : h.grow.queue = h.queue := by
  unfold queue
  rw [grow_num]
  refine List.map_congr_left fun k hk => ?_
  have hlt := List.mem_range.mp hk
  unfold grow
  split
  · rfl
  · exact if_neg (by omega)

/-- The place at which the function puts a timer. -/
def place (tick : ℕ → BitVec 32) (j : BitVec 32) (h : TimerHeap) : ℕ :=
  let later := fun k => j < tick (h.timerHeap k)
  if h.timerHeapNum < 4 then Search.scanDown later h.timerHeapNum
  else if later (h.timerHeapNum - 1) then h.timerHeapNum
  else Search.bisect later (h.timerHeapNum - 1) 0 (h.timerHeapNum - 1)

theorem place_le (tick : ℕ → BitVec 32) (j : BitVec 32) (h : TimerHeap) :
    place tick j h ≤ h.timerHeapNum := by
  unfold place
  dsimp only
  split
  · exact Search.scanDown_le _ _
  · split
    · exact le_rfl
    · exact (Search.bisect_le _ _ (Nat.zero_le _)).trans (Nat.sub_le _ _)

/-- Whichever way the elements move, the timer is put in at its place. -/
theorem pushTimerHeap_place (hok : h.timerHeapNum ≤ h.timerHeapMax) : ∃ h',
    h.pushTimerHeap tick idx = some h' ∧ h'.timerHeapNum = h.timerHeapNum + 1 ∧
      h'.timerHeapNum ≤ h'.timerHeapMax ∧
      h'.queue = Search.insertAt (place tick (tick idx) h.grow) idx h.queue := by
  have hnum := lt_grow hok
  have hplace := place_le tick (tick idx) h.grow
  -- however the elements move, the place is free then
  have hmove : ∃ h', Moved h.grow h' (place tick (tick idx) h.grow) h.grow.timerHeapNum ∧
      h.pushTimerHeap tick idx = (h'.store (place tick (tick idx) h.grow) idx).map fun h' =>
        { h' with timerHeapNum := h.grow.timerHeapNum + 1 } := by
    unfold pushTimerHeap place
    dsimp only
    by_cases hshort : h.grow.timerHeapNum < 4
    · obtain ⟨h', heq, hm⟩ := @scan_moved tick h.grow _ (tick idx) hnum
      rw [if_pos hshort, if_pos hshort, heq]
      exact ⟨h', hm, by rw [Option.map_eq_bind]; rfl⟩
    · rw [if_neg hshort, if_neg hshort]
      by_cases hlast : tick idx < tick (h.grow.timerHeap (h.grow.timerHeapNum - 1))
      · rw [if_pos hlast, if_pos hlast]
        exact ⟨h.grow, .refl _ _, by rw [Option.map_eq_bind]; rfl⟩
      · rw [if_neg hlast, if_neg hlast]
        set min := Search.bisect (fun k => tick idx < tick (h.grow.timerHeap k))
          (h.grow.timerHeapNum - 1) 0 (h.grow.timerHeapNum - 1)
        have hmin : min ≤ h.grow.timerHeapNum :=
          (Search.bisect_le _ _ (Nat.zero_le _)).trans (Nat.sub_le _ _)
        by_cases hfew : h.grow.timerHeapNum - min < 5
        · obtain ⟨h', heq, hm⟩ := shift_moved hmin hnum
          rw [if_pos hfew, heq]
          exact ⟨h', hm, by rw [Option.map_eq_bind]; rfl⟩
        · obtain ⟨h', heq, hm⟩ := memmove_moved min hnum
          rw [if_neg hfew, heq]
          exact ⟨h', hm, by rw [Option.map_eq_bind]; rfl⟩
  obtain ⟨h', hm, hrun⟩ := hmove
  obtain ⟨h₂, hstore, hmax, -, hqueue⟩ := hm.stored hplace hnum
  refine ⟨_, by rw [hrun, hstore]; rfl, congrArg (· + 1) (grow_num h), ?_, ?_⟩
  · dsimp only
    omega
  · rw [hqueue, grow_queue hok]

/-- On the queue the function is that of the list. -/
theorem pushTimerHeap_eq (t : Timers) (idx : ℕ) (hok : h.timerHeapNum ≤ h.timerHeapMax)
    (hqueue : h.queue = t.timerHeap) : ∃ h',
      h.pushTimerHeap t.tick idx = some h' ∧ h'.timerHeapNum = h.timerHeapNum + 1 ∧
        h'.timerHeapNum ≤ h'.timerHeapMax ∧ h'.queue = (t.pushTimerHeap idx).timerHeap := by
  obtain ⟨h', hrun, hnum, hok', hq⟩ := @pushTimerHeap_place t.tick h idx hok
  refine ⟨h', hrun, hnum, hok', ?_⟩
  have hlen : t.timerHeap.length = h.grow.timerHeapNum := by
    rw [← hqueue, queue, List.length_map, List.length_range, grow_num]
  have hlater (k : ℕ) (hk : k < h.grow.timerHeapNum) :
      decide (t.tick idx < t.tick (h.grow.timerHeap k)) = t.later (t.tick idx) k := by
    unfold Timers.later
    rw [← hqueue, ← grow_queue hok, queue, List.getElem?_map, List.getElem?_range hk]
    rfl
  have hplace : place t.tick (t.tick idx) h.grow = t.pushPlace (t.tick idx) := by
    unfold place Timers.pushPlace
    dsimp only
    rw [hlen, Search.scanDown_congr hlater]
    by_cases hshort : h.grow.timerHeapNum < 4
    · rw [if_pos hshort, if_pos hshort]
    · have hbisect : Search.bisect (fun k => t.tick idx < t.tick (h.grow.timerHeap k))
          (h.grow.timerHeapNum - 1) 0 (h.grow.timerHeapNum - 1) =
            Search.bisect (t.later (t.tick idx)) (h.grow.timerHeapNum - 1) 0
              (h.grow.timerHeapNum - 1) :=
        Search.bisect_congr _ fun k hk => hlater k (by omega)
      rw [if_neg hshort, if_neg hshort, hbisect, ← hlater _ (by omega)]
      simp only [decide_eq_true_eq]
  rw [hq, hplace, hqueue]
  rfl

end Push

/-- **Plain sorted insertion.** On a sorted queue the timer goes in front of the first one that is
not later. The queue stays sorted, with one more element, and the timers of each tick leave it in
the order in which they came. -/
theorem pushTimerHeap_sorted (tick : ℕ → BitVec 32) (h : TimerHeap) (idx : ℕ)
    (hok : h.timerHeapNum ≤ h.timerHeapMax)
    (hsorted : Search.Falling (fun i => (tick i).toNat) h.queue) : ∃ h',
      h.pushTimerHeap tick idx = some h' ∧ h'.timerHeapNum ≤ h'.timerHeapMax ∧
        h'.queue = h.queue.orderedInsert (fun a b => (tick b).toNat ≤ (tick a).toNat) idx ∧
        Search.Falling (fun i => (tick i).toNat) h'.queue ∧ h'.queue.Perm (idx :: h.queue) ∧
        ∀ j, h'.queue.reverse.filter (fun i => tick i = j) =
          h.queue.reverse.filter (fun i => tick i = j) ++ if tick idx = j then [idx] else [] := by
  let t : Timers := { timerData := fun i => { tick := tick i }, timerHeap := h.queue }
  obtain ⟨h', hrun, -, hok', hq⟩ := pushTimerHeap_eq t idx hok rfl
  have hcut : Search.Cut (fun k => (h.queue[k]?).any fun i => (tick idx).toNat < (tick i).toNat)
      h.queue.length (t.pushPlace (tick idx)) := @Timers.pushPlace_cut t hsorted (tick idx)
  have hq' : h'.queue = Search.insertAt (t.pushPlace (tick idx)) idx h.queue := hq
  refine ⟨h', hrun, hok', ?_, ?_, ?_, fun j => ?_⟩
  · rw [hq']
    exact @Search.insertAt_eq_orderedInsert _ _ _ (fun i => (tick i).toNat) _ _ _ hcut
  · rw [hq']
    exact Search.pairwise_insertAt hsorted hcut
  · rw [hq']
    exact Search.perm_insertAt ..
  · rw [hq', List.filter_reverse, List.filter_reverse]
    have hfilter := @Search.filter_insertAt _ _ _ (fun i => (tick i).toNat) _ _ _ j.toNat hcut
    simp only [BitVec.toNat_inj] at hfilter
    rw [hfilter, List.reverse_append]
    congr 1
    split <;> rfl

/-- Six timers, and a seventh with the tick of the fourth one. -/
def sixTimers : TimerHeap := { timerHeap := fun k => k, timerHeapMax := 256, timerHeapNum := 6 }

def sixTicks (i : ℕ) : BitVec 32 := if i = 6 then 17 else BitVec.ofNat 32 (20 - i)

theorem pushTimerHeap_sixTimers : ∃ h', sixTimers.pushTimerHeap sixTicks 6 = some h' ∧
    h'.queue = [0, 1, 2, 6, 3, 4, 5] := by
  obtain ⟨h', hrun, -, hq, -⟩ := pushTimerHeap_sorted sixTicks sixTimers 6 (by decide)
    (by unfold Search.Falling; decide)
  exact ⟨h', hrun, hq.trans (by decide)⟩

end TimerHeap

end Nezumi
