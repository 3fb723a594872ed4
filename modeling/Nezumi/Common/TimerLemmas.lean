import Nezumi.Common.Timer

/-!
# What the timer functions do to the queue, the free list and the slots

* `newSlot_cases`: a new timer gets the top of the free list or a slot that was never handed out.
* `addSlot_*`, `finishTimer_cases`: what becomes of the lists and of the slots.
* `pushTimerHeap_falling`: the queue stays in the order of the unsigned ticks.
-/

namespace Nezumi

namespace Timers

variable {t : Timers} {i k : Nat} {td : TimerData}

@[simp] theorem setSlot_self : (t.setSlot i td).timerData i = td := by simp [setSlot]

theorem setSlot_ne (h : k ≠ i) : (t.setSlot i td).timerData k = t.timerData k := by
  simp [setSlot, h]

@[simp] theorem setSlot_timerHeap : (t.setSlot i td).timerHeap = t.timerHeap := rfl
@[simp] theorem setSlot_freeTimerList : (t.setSlot i td).freeTimerList = t.freeTimerList := rfl
@[simp] theorem setSlot_timerDataNum : (t.setSlot i td).timerDataNum = t.timerDataNum := rfl
@[simp] theorem setSlot_timerDataMax : (t.setSlot i td).timerDataMax = t.timerDataMax := rfl
@[simp] theorem setSlot_gettickCache : (t.setSlot i td).gettickCache = t.gettickCache := rfl

@[simp] theorem pushTimerHeap_timerData : (t.pushTimerHeap i).timerData = t.timerData := rfl
@[simp] theorem pushTimerHeap_freeTimerList :
    (t.pushTimerHeap i).freeTimerList = t.freeTimerList := rfl
@[simp] theorem pushTimerHeap_timerDataNum :
    (t.pushTimerHeap i).timerDataNum = t.timerDataNum := rfl
@[simp] theorem pushTimerHeap_timerDataMax :
    (t.pushTimerHeap i).timerDataMax = t.timerDataMax := rfl
@[simp] theorem pushTimerHeap_gettickCache :
    (t.pushTimerHeap i).gettickCache = t.gettickCache := rfl

theorem pushTimerHeap_perm (t : Timers) (i : Nat) :
    (t.pushTimerHeap i).timerHeap.Perm (i :: t.timerHeap) := Search.perm_insertAt ..

@[simp] theorem reserve_timerHeap : (t.reserve i).timerHeap = t.timerHeap := by
  unfold reserve; split <;> rfl
@[simp] theorem reserve_freeTimerList : (t.reserve i).freeTimerList = t.freeTimerList := by
  unfold reserve; split <;> rfl
@[simp] theorem reserve_timerDataNum : (t.reserve i).timerDataNum = t.timerDataNum := by
  unfold reserve; split <;> rfl
@[simp] theorem reserve_gettickCache : (t.reserve i).gettickCache = t.gettickCache := by
  unfold reserve; split <;> rfl

theorem reserve_timerData (h : k < t.timerDataMax) :
    (t.reserve i).timerData k = t.timerData k := by
  unfold reserve
  split
  · exact if_neg (by omega)
  · rfl

theorem lt_reserve (hi : i ≤ t.timerDataMax) (h : t.timerDataNum ≤ t.timerDataMax) :
    i < (t.reserve i).timerDataMax := by
  unfold reserve
  split
  · change i < t.timerDataMax + 256
    omega
  · omega

theorem le_reserve : t.timerDataMax ≤ (t.reserve i).timerDataMax := by
  unfold reserve
  split
  · exact Nat.le_add_right _ _
  · exact le_rfl

theorem setType_tick {ty : TimerType} :
    (t.setSlot i { t.timerData i with type := ty }).tick k = t.tick k := by
  rcases eq_or_ne k i with rfl | hne
  · simp [tick]
  · rw [tick, setSlot_ne hne]

theorem setType_func {ty : TimerType} :
    ((t.setSlot i { t.timerData i with type := ty }).timerData k).func =
      (t.timerData k).func := by
  rcases eq_or_ne k i with rfl | hne
  · simp
  · rw [setSlot_ne hne]

/-! ## The slot of a new timer -/

theorem firstUnused_le (fuel : Nat) : t.firstUnused fuel i ≤ max i t.timerDataMax := by
  induction fuel generalizing i with
  | zero => exact Nat.le_max_left ..
  | succ fuel ih =>
    unfold firstUnused
    split
    · have := ih (i := i + 1)
      omega
    · exact Nat.le_max_left ..

theorem le_firstUnused (fuel : Nat) : i ≤ t.firstUnused fuel i := by
  induction fuel generalizing i with
  | zero => exact le_rfl
  | succ fuel ih =>
    unfold firstUnused
    split
    · exact (Nat.le_succ i).trans ih
    · exact le_rfl

/-- Where the free list holds only slots that were handed out, a new timer gets its top, and with an
empty list a slot that was not handed out before. -/
theorem newSlot_cases (hfree : ∀ i ∈ t.freeTimerList, i < t.timerDataNum)
    (hle : t.timerDataNum ≤ t.timerDataMax) :
    (∃ rest, t.freeTimerList = t.newSlot :: rest ∧
      (popFree t.timerDataNum t.freeTimerList).2 = rest) ∨
    (t.freeTimerList = [] ∧ (popFree t.timerDataNum t.freeTimerList).2 = [] ∧
      t.timerDataNum ≤ t.newSlot ∧ t.newSlot ≤ t.timerDataMax) := by
  cases hf : t.freeTimerList with
  | nil =>
    have hs : t.newSlot = t.firstUnused (t.timerDataMax - t.timerDataNum) t.timerDataNum := by
      simp [newSlot, hf, popFree]
    refine .inr ⟨rfl, rfl, hs ▸ le_firstUnused _, ?_⟩
    have := firstUnused_le (t := t) (i := t.timerDataNum) (t.timerDataMax - t.timerDataNum)
    rw [hs]
    omega
  | cons j rest =>
    have hj : ¬ t.timerDataNum ≤ j := Nat.not_le.mpr (hfree j (by simp [hf]))
    have hp : popFree t.timerDataNum (j :: rest) = (j, rest) := by
      simp [popFree, hj]
    have hs : t.newSlot = j := by
      simp only [newSlot, hf, hp, if_neg hj]
    exact .inl ⟨rest, by rw [hs], by rw [hp]⟩

theorem addSlot_timerHeap_perm (t : Timers) (td : TimerData) :
    (t.addSlot td).timerHeap.Perm (t.newSlot :: t.timerHeap) := by
  have h : ∀ u : Timers, u.timerHeap = t.timerHeap →
      (((u.reserve t.newSlot).setSlot t.newSlot td).pushTimerHeap t.newSlot).timerHeap.Perm
        (t.newSlot :: t.timerHeap) := by
    intro u hu
    rw [← hu, ← reserve_timerHeap (t := u) (i := t.newSlot)]
    exact pushTimerHeap_perm _ _
  unfold addSlot
  dsimp only
  split <;> exact h _ rfl

theorem addSlot_freeTimerList :
    (t.addSlot td).freeTimerList = (popFree t.timerDataNum t.freeTimerList).2 := by
  unfold addSlot
  dsimp only
  split <;> simp

theorem addSlot_gettickCache : (t.addSlot td).gettickCache = t.gettickCache := by
  unfold addSlot
  dsimp only
  split <;> simp

theorem addSlot_timerDataNum :
    (t.addSlot td).timerDataNum = max t.timerDataNum (t.newSlot + 1) := by
  unfold addSlot
  dsimp only
  split
  case isTrue h =>
    simp only [pushTimerHeap_timerDataNum, setSlot_timerDataNum, reserve_timerDataNum] at h
    change t.newSlot + 1 = _
    omega
  case isFalse h =>
    simp only [pushTimerHeap_timerDataNum, setSlot_timerDataNum, reserve_timerDataNum] at h ⊢
    omega

theorem addSlot_timerDataNum_le (hle : t.timerDataNum ≤ t.timerDataMax)
    (hnew : t.newSlot ≤ t.timerDataMax) :
    (t.addSlot td).timerDataNum ≤ (t.addSlot td).timerDataMax := by
  have h1 : t.newSlot < (t.reserve t.newSlot).timerDataMax :=
    lt_reserve hnew hle
  have h2 : t.timerDataMax ≤ (t.reserve t.newSlot).timerDataMax := le_reserve
  have hmax : (t.addSlot td).timerDataMax = (t.reserve t.newSlot).timerDataMax := by
    have h : ∀ u : Timers, u.timerDataMax = t.timerDataMax → u.timerDataNum = t.timerDataNum →
        (u.reserve t.newSlot).timerDataMax = (t.reserve t.newSlot).timerDataMax := by
      intro u hm hn
      unfold reserve
      rw [hm, hn]
      split <;> simp [*]
    unfold addSlot
    dsimp only
    split <;> exact h _ rfl rfl
  rw [addSlot_timerDataNum, hmax]
  omega

@[simp] theorem addSlot_self : (t.addSlot td).timerData t.newSlot = td := by
  unfold addSlot
  dsimp only
  split <;> simp

theorem addSlot_ne (hk : k ≠ t.newSlot) (hlt : k < t.timerDataMax) :
    (t.addSlot td).timerData k = t.timerData k := by
  have h : ∀ u : Timers, u.timerDataMax = t.timerDataMax → u.timerData = t.timerData →
      ((u.reserve t.newSlot).setSlot t.newSlot td).timerData k = t.timerData k := by
    intro u hm hd
    rw [setSlot_ne hk, reserve_timerData (by omega), hd]
  unfold addSlot
  dsimp only
  split <;> exact h _ rfl rfl

/-! ## The other functions -/

@[simp] theorem moveTick_timerHeap {a : BitVec 32} : (t.moveTick i a).timerHeap = t.timerHeap := rfl

theorem moveTick_ne {a : BitVec 32} (h : k ≠ i) : (t.moveTick i a).timerData k = t.timerData k :=
  setSlot_ne h

theorem moveTick_type {a : BitVec 32} :
    ((t.moveTick i a).timerData k).type = (t.timerData k).type := by
  rcases eq_or_ne k i with rfl | hne
  · simp [moveTick]
  · rw [moveTick_ne hne]

theorem moveTick_func {a : BitVec 32} :
    ((t.moveTick i a).timerData k).func = (t.timerData k).func := by
  rcases eq_or_ne k i with rfl | hne
  · simp [moveTick]
  · rw [moveTick_ne hne]

/-- What `delete_timer` does: nothing, or a slot becomes a stub. -/
theorem deleteTimer_cases (t : Timers) (id : Int) (func : Option Nat) :
    (t.deleteTimer id func).1 = t ∨
    (t.deleteTimer id func).1 =
      t.setSlot id.toNat { t.timerData id.toNat with func := none, type := .onceAutodel } := by
  unfold deleteTimer
  split
  · exact .inl rfl
  · split
    · exact .inl rfl
    · exact .inr rfl

/-- What `addtick_timer` does: nothing, or the tick of a slot moves, in the queue or out of it. -/
theorem addtickTimer_cases (t : Timers) (tid : Int) (added : BitVec 32) :
    (t.addtickTimer tid added).1 = t ∨
    (tid.toNat ∉ t.timerHeap ∧ (t.addtickTimer tid added).1 = t.moveTick tid.toNat added) ∨
    (tid.toNat ∈ t.timerHeap ∧ (t.addtickTimer tid added).1 =
      (({ t with timerHeap := t.timerHeap.erase tid.toNat }).moveTick tid.toNat
        added).pushTimerHeap tid.toNat) := by
  unfold addtickTimer
  split
  · exact .inl rfl
  · by_cases h : tid.toNat ∈ t.timerHeap
    · exact .inr (.inr ⟨h, by simp [h]⟩)
    · exact .inr (.inl ⟨h, by simp [h]⟩)

/-- What `do_timer` does with a slot after the callback: an interval timer that has not been deleted
goes back into the queue, and any other slot onto the free list. -/
theorem finishTimer_cases (hused : (t.timerData i).func = none ∨ (t.timerData i).type ≠ .unused) :
    ((t.timerData i).func ≠ none ∧ (t.timerData i).type = .interval ∧
      t.finishTimer i =
        (t.setSlot i { t.timerData i with tick := t.nextTick i }).pushTimerHeap i) ∨
    (((t.timerData i).func = none ∨ (t.timerData i).type = .onceAutodel) ∧ t.finishTimer i =
      { t.setSlot i { t.timerData i with type := .unused } with
        freeTimerList := i :: t.freeTimerList }) := by
  unfold finishTimer
  by_cases hf : (t.timerData i).func = none
  · exact .inr ⟨.inl hf, by simp [hf]⟩
  · cases hty : (t.timerData i).type with
    | unused => exact absurd hty (hused.resolve_left hf)
    | onceAutodel => exact .inr ⟨.inr rfl, by simp [hf, hty]⟩
    | interval => exact .inl ⟨hf, rfl, by simp [hf, hty]⟩

theorem lookTimer_pop (h : t.lookTimer = .pop i) :
    t.timerHeap = t.timerHeap.dropLast ++ [i] ∧
      (diffTick (t.tick i) t.gettickCache ≤ 0 ∨ (t.timerData i).func = none) := by
  unfold lookTimer at h
  split at h
  · cases h
  · rename_i j hj
    dsimp only at h
    split at h
    · cases h
    · rename_i hn
      cases h
      refine ⟨(List.dropLast_append_getLast? _ hj).symm, ?_⟩
      by_contra hc
      push Not at hc
      exact hn hc

/-- `do_timer` returns with an empty queue, or in front of a timer that is not due. -/
theorem lookTimer_wait {ms : Int} (h : t.lookTimer = .wait ms) :
    t.timerHeap = [] ∨ ∃ i, t.timerHeap = t.timerHeap.dropLast ++ [i] ∧
      0 < diffTick (t.tick i) t.gettickCache ∧ (t.timerData i).func ≠ none := by
  unfold lookTimer at h
  split at h
  · rename_i hn
    exact .inl (List.getLast?_eq_none_iff.mp hn)
  · rename_i j hj
    dsimp only at h
    split at h
    · rename_i hc
      exact .inr ⟨j, (List.dropLast_append_getLast? _ hj).symm, hc⟩
    · cases h

/-! ## The order of the queue -/

/-- `timer_heap` is in the order of the unsigned ticks, the earliest last. -/
def Falling (t : Timers) : Prop := Search.Falling (fun i => (t.tick i).toNat) t.timerHeap

theorem later_eq (t : Timers) (j : BitVec 32) :
    t.later j = fun k => (t.timerHeap[k]?).any fun i => j.toNat < (t.tick i).toNat := rfl

theorem pushPlace_cut (h : t.Falling) (j : BitVec 32) :
    Search.Cut (t.later j) t.timerHeap.length (t.pushPlace j) := by
  have hd : Search.Descends (t.later j) t.timerHeap.length := by
    rw [later_eq]
    exact h.descends j.toNat
  unfold pushPlace
  dsimp only
  split
  · exact Search.scanDown_cut hd
  · rename_i hlen
    split
    · rename_i hlast
      refine ⟨le_rfl, fun k hk => ?_, fun k h1 h2 => by omega⟩
      exact hd k (t.timerHeap.length - 1) (by omega) (by omega) hlast
    · rename_i hlast
      refine Search.bisect_cut hd _ (Nat.zero_le _) (by omega) (by omega) (by simp) ?_
      intro k h1 h2
      obtain rfl : k = t.timerHeap.length - 1 := by omega
      simpa using hlast

theorem pushTimerHeap_falling (h : t.Falling) (i : Nat) : (t.pushTimerHeap i).Falling := by
  have hcut := pushPlace_cut h (t.tick i)
  rw [later_eq] at hcut
  exact Search.pairwise_insertAt h hcut

/-- The order only depends on the ticks of the slots in the queue. -/
theorem Falling.congr {u : Timers} (h : t.Falling) (hheap : u.timerHeap = t.timerHeap)
    (htick : ∀ k ∈ t.timerHeap, u.tick k = t.tick k) : u.Falling := by
  unfold Falling
  rw [hheap]
  exact Search.Falling.congr h fun a ha => by rw [htick a ha]

theorem addSlot_falling (h : t.Falling) (hfresh : t.newSlot ∉ t.timerHeap)
    (hlt : ∀ i ∈ t.timerHeap, i < t.timerDataMax) : (t.addSlot td).Falling := by
  have hplaced : ∀ u : Timers, u.timerHeap = t.timerHeap → u.timerData = t.timerData →
      u.timerDataMax = t.timerDataMax →
      (((u.reserve t.newSlot).setSlot t.newSlot td).pushTimerHeap t.newSlot).Falling := by
    intro u hheap hdata hmax
    refine pushTimerHeap_falling (h.congr (by simp [hheap]) fun k hk => ?_) _
    rw [tick, setSlot_ne (by rintro rfl; exact hfresh hk), reserve_timerData (hmax ▸ hlt k hk),
      hdata]
  unfold addSlot
  dsimp only
  split <;> exact hplaced _ rfl rfl rfl

theorem moveTick_falling {a : BitVec 32} (h : t.Falling) (hi : i ∉ t.timerHeap) :
    (t.moveTick i a).Falling := by
  refine h.congr rfl fun k hk => ?_
  rw [tick, moveTick_ne (by rintro rfl; exact hi hk)]

/-- What `addtick_timer` leaves as it is. -/
theorem addtickTimer_frame (t : Timers) (tid : Int) (added : BitVec 32) :
    (t.addtickTimer tid added).1.timerHeap.Perm t.timerHeap ∧
    (t.addtickTimer tid added).1.gettickCache = t.gettickCache ∧
    (∀ k, ((t.addtickTimer tid added).1.timerData k).func = (t.timerData k).func) ∧
    (∀ k, k ≠ tid.toNat → (t.addtickTimer tid added).1.tick k = t.tick k) ∧
    (t.Falling → t.timerHeap.Nodup → (t.addtickTimer tid added).1.Falling) := by
  rcases addtickTimer_cases t tid added with e | ⟨hnot, e⟩ | ⟨hmem, e⟩
  · rw [e]
    exact ⟨.refl _, rfl, fun _ => rfl, fun _ _ => rfl, fun h _ => h⟩
  · rw [e]
    exact ⟨.refl _, rfl, fun _ => moveTick_func, fun k hk => by rw [tick, moveTick_ne hk],
      fun h _ => moveTick_falling h hnot⟩
  · rw [e]
    refine ⟨(pushTimerHeap_perm _ _).trans (List.perm_cons_erase hmem).symm, rfl,
      fun _ => moveTick_func, fun k hk => by rw [tick, pushTimerHeap_timerData, moveTick_ne hk],
      fun h hnodup => pushTimerHeap_falling (moveTick_falling ?_ ?_) _⟩
    · exact List.Pairwise.sublist List.erase_sublist h
    · exact hnodup.not_mem_erase

end Timers

end Nezumi
