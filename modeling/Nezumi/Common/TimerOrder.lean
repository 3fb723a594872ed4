import Nezumi.Common.TimerRun

/-!
# The order in which timers fire (`common/timer.c`)

The queue is sorted by the unsigned ticks, and a timer is due by the signed difference to the clock.

* `FiresInOrder`: `do_timer` returns only when no timer is due that was pending when it began, and
  calls the callbacks in the order of their differences.
* `ClockOk`: at a look at the queue no wrap of the clock lies between a due timer and a timer with a
  later tick, and the next tick of an interval timer is at most `2^31` ms away.
* `OrderOk` is the invariant; `timerRun_firesInOrder`: every run under `ClockOk` fires in order.
* `timerRun_not_firesInOrder`: shortly before the wrap a due timer is not fired.
-/

namespace Nezumi

namespace TimerWorld

variable (w : TimerWorld)

/-- How far a slot's tick is from the clock. -/
abbrev diff (i : Nat) : Int := diffTick (w.timers.tick i) w.timers.gettickCache

/-- The slots in the queue that have a callback. -/
def live (i : Nat) : Prop := i ∈ w.timers.timerHeap ∧ (w.timers.timerData i).func ≠ none

/-- The order of the ticks is that of the differences, as far as the due timers go. -/
def clockAgrees : Prop :=
  ∀ i ∈ w.timers.timerHeap, ∀ j ∈ w.timers.timerHeap,
    (w.timers.timerData i).func ≠ none → (w.timers.timerData j).func ≠ none →
    w.timers.tick i < w.timers.tick j → w.diff j ≤ 0 → w.diff i ≤ w.diff j

end TimerWorld

open TimerWorld

/-- What an activation of `do_timer` has to keep to at its next look at the queue. When it returns,
no timer that was added before it began is due; when it calls a callback, the timer is not before
one that it has fired since the timer was added or moved forward. -/
def FiresInOrder (w : TimerWorld) : TimerEvent → Prop
  | .look => ∀ a ∈ w.activations.head?, a.calling = none →
    match w.timers.lookTimer with
    | .wait _ => ∀ i ∈ w.timers.timerHeap, (w.timers.timerData i).func ≠ none →
      w.addedAt i ≤ a.start → 0 < w.diff i
    | .pop i => (w.timers.timerData i).func ≠ none →
      ∀ f ∈ a.fired, w.setAt i ≤ f.1 → f.2 ≤ w.diff i
  | _ => True

/-- The clock does not wrap between timers that are compared, and an interval leads forward to a tick
that is less than `2^31` ms away. -/
def ClockOk (w : TimerWorld) : TimerEvent → Prop
  | .look => (∃ a ∈ w.activations.head?, a.calling = none) → w.clockAgrees
  | .callbackReturn => ∀ a ∈ w.activations.head?, ∀ i ∈ a.calling,
    (w.timers.timerData i).func ≠ none → (w.timers.timerData i).type = .interval →
    0 ≤ (w.timers.timerData i).interval.toInt ∧
      w.diff i + (w.timers.timerData i).interval.toInt < 2 ^ 31
  | _ => True

instance ClockOk.decidable (w : TimerWorld) : (e : TimerEvent) → Decidable (ClockOk w e)
  | .look => by unfold ClockOk clockAgrees; infer_instance
  | .callbackReturn => by unfold ClockOk; infer_instance
  | .addTimer .. | .addTimerInterval .. | .deleteTimer .. | .addtickTimer .. | .gettick _
  | .doTimer => .isTrue trivial

/-! ## The invariant -/

/-- Slot `i` comes after the calls of an activation, as far as its tick was set before them. -/
def After (w : TimerWorld) (a : Activation) (i : Nat) : Prop :=
  ∀ f ∈ a.fired, w.setAt i ≤ f.1 → f.2 ≤ w.diff i

/-- The calls of an activation were of due timers. -/
def LogOk (w : TimerWorld) (a : Activation) : Prop :=
  ∀ f ∈ a.fired, f.2 ≤ 0 ∧ f.1 < w.calls.length

/-- The calls of each activation came before the pending timers, the timer that executes in it and
those that execute in the activations inside of it. -/
def ActivationsOk (w : TimerWorld) : List Activation → Prop
  | [] => True
  | a :: rest =>
    LogOk w a ∧ (∀ i, w.live i → After w a i) ∧ (∀ i ∈ a.calling, ∀ b ∈ a :: rest, After w b i) ∧
      ActivationsOk w rest

structure OrderOk (w : TimerWorld) : Prop where
  timers : TimersOk w
  falling : w.timers.Falling
  setAt_le : ∀ i, w.setAt i ≤ w.calls.length
  activations : ActivationsOk w w.activations

section Transfer

variable {w w' : TimerWorld}

theorem After.congr {b : Activation} {i : Nat} (h : After w b i) (hset : w'.setAt i = w.setAt i)
    (hdiff : w.diff i ≤ w'.diff i) : After w' b i := fun f hf hle =>
  (h f hf (hset ▸ hle)).trans hdiff

/-- A timer that was set after the calls of an activation may have any tick. -/
theorem after_of_set {b : Activation} {i : Nat} (hb : LogOk w b)
    (hset : w.calls.length ≤ w'.setAt i) : After w' b i := fun f hf hle => by
  have := (hb f hf).2
  omega

theorem ActivationsOk.logOk {as : List Activation} (h : ActivationsOk w as) :
    ∀ a ∈ as, LogOk w a := by
  induction as with
  | nil => simp
  | cons b rest ih =>
    intro a ha
    rcases List.mem_cons.mp ha with rfl | ha
    · exact h.1
    · exact ih h.2.2.2 a ha

theorem ActivationsOk.live {as : List Activation} (h : ActivationsOk w as) {i : Nat}
    (hi : w.live i) : ∀ a ∈ as, After w a i := by
  induction as with
  | nil => simp
  | cons b rest ih =>
    intro a ha
    rcases List.mem_cons.mp ha with rfl | ha
    · exact h.2.1 i hi
    · exact ih h.2.2.2 a ha

/-- The activations stay in order where the timers that matter do not move forward. -/
theorem ActivationsOk.transfer {as : List Activation} (h : ActivationsOk w as)
    (hcalls : w.calls.length ≤ w'.calls.length)
    (hlive : ∀ b ∈ as, LogOk w b → ∀ i, w'.live i → (w.live i → After w b i) → After w' b i)
    (hexec : ∀ b, LogOk w b → ∀ a ∈ as, ∀ i ∈ a.calling, After w b i → After w' b i) :
    ActivationsOk w' as := by
  induction as with
  | nil => trivial
  | cons a rest ih =>
    have hlog := h.logOk
    obtain ⟨h1, h2, h3, h4⟩ := h
    refine ⟨fun f hf => ⟨(h1 f hf).1, (h1 f hf).2.trans_le hcalls⟩,
      fun i hi => hlive a (by simp) h1 i hi (h2 i), fun i hi b hb => ?_,
      ih h4 (fun b hb => hlive b (by simp [hb])) fun b hb c hc => hexec b hb c (by simp [hc])⟩
    exact hexec b (hlog b hb) a (by simp) i hi (h3 i hi b hb)

end Transfer

/-! ## One step -/

theorem diffTick_eq_of_eq {a b now : BitVec 32} (h : a = b) : diffTick a now = diffTick b now := by
  rw [h]

section Step

variable {w : TimerWorld}

theorem mem_executing {a : Activation} {i : Nat} (ha : a ∈ w.activations) (hi : i ∈ a.calling) :
    i ∈ w.executing := List.mem_filterMap.mpr ⟨a, ha, hi⟩

theorem OrderOk.added (h : OrderOk w) {td : TimerData} {runsOnce : Bool}
    (hty : td.type = if runsOnce then .onceAutodel else .interval) :
    OrderOk (w.added runsOnce (w.timers.addSlot td)) := by
  have hfresh := h.timers.newSlot_fresh
  have hdata : ∀ j ∈ w.timers.timerHeap ++ w.executing,
      (w.timers.addSlot td).timerData j = w.timers.timerData j := fun j hj =>
    Timers.addSlot_ne (fun e => hfresh (e ▸ hj)) (h.timers.lt_max (h.timers.mem_used hj))
  have hnow : (w.timers.addSlot td).gettickCache = w.timers.gettickCache :=
    Timers.addSlot_gettickCache
  have hkeep : ∀ b j, j ∈ w.timers.timerHeap ++ w.executing → After w b j →
      After (w.added runsOnce (w.timers.addSlot td)) b j := by
    intro b j hj hb
    have hne : j ≠ w.timers.newSlot := by
      rintro rfl
      exact hfresh hj
    refine hb.congr (Function.update_of_ne hne _ _) ?_
    simp only [TimerWorld.diff, TimerWorld.added, Timers.tick, hdata j hj, hnow, le_refl]
  refine ⟨h.timers.added hty, ?_, fun i => ?_, ?_⟩
  · exact Timers.addSlot_falling h.falling (fun hi => hfresh (List.mem_append_left _ hi))
      fun i hi => h.timers.lt_max (h.timers.mem_heap hi)
  · rcases eq_or_ne i w.timers.newSlot with rfl | hne
    · simp [TimerWorld.added]
    · simp only [TimerWorld.added, Function.update_of_ne hne]
      exact h.setAt_le i
  · refine h.activations.transfer le_rfl (fun b _ hb i hi hlive => ?_) (fun b hb a ha i hi => ?_)
    · rcases eq_or_ne i w.timers.newSlot with rfl | hne
      · exact after_of_set hb (by simp [TimerWorld.added])
      · have hmem : i ∈ w.timers.timerHeap := by
          have := hi.1
          simp only [TimerWorld.added, (Timers.addSlot_timerHeap_perm _ _).mem_iff,
            List.mem_cons] at this
          exact this.resolve_left hne
        have hused := List.mem_append_left w.executing hmem
        refine hkeep b i hused (hlive ⟨hmem, ?_⟩)
        have := hi.2
        simpa only [TimerWorld.added, hdata i hused] using this
    · exact hkeep b i (List.mem_append_right _ (mem_executing ha hi))

/-- Slots whose ticks stay, and that stay in the queue or become stubs. -/
theorem OrderOk.congr (h : OrderOk w) {t : Timers} {as : List Activation}
    (hok : TimersOk { w with timers := t, activations := as }) (hfalling : t.Falling)
    (hheap : ∀ i ∈ t.timerHeap, i ∈ w.timers.timerHeap)
    (hnow : t.gettickCache = w.timers.gettickCache)
    (htick : ∀ i, t.tick i = w.timers.tick i)
    (hfunc : ∀ i ∈ t.timerHeap, (t.timerData i).func ≠ none →
      (w.timers.timerData i).func ≠ none)
    (has : ActivationsOk w as) : OrderOk { w with timers := t, activations := as } := by
  have hdiff : ∀ i, diffTick (t.tick i) t.gettickCache = w.diff i := fun i => by
    rw [htick, hnow]
  refine ⟨hok, hfalling, h.setAt_le, has.transfer le_rfl (fun b _ _ i hi hlive => ?_)
    fun b _ a _ i _ hb => hb.congr rfl (hdiff i).ge⟩
  exact (hlive ⟨hheap i hi.1, hfunc i hi.1 hi.2⟩).congr rfl (hdiff i).ge

theorem OrderOk.deleted (h : OrderOk w) (id : Int) (func : Option Nat) :
    OrderOk { w with timers := (w.timers.deleteTimer id func).1 } := by
  have hok := h.timers.deleted id func
  rcases Timers.deleteTimer_cases w.timers id func with e | e
  · rw [e]
    exact h
  · rw [e] at hok ⊢
    have htick : ∀ i, (w.timers.setSlot id.toNat { w.timers.timerData id.toNat with
        func := none, type := .onceAutodel }).tick i = w.timers.tick i := fun i => by
      rcases eq_or_ne i id.toNat with rfl | hne
      · simp [Timers.tick]
      · rw [Timers.tick, Timers.setSlot_ne hne]
    refine h.congr hok (h.falling.congr rfl fun i _ => htick i) (fun i hi => hi) rfl htick
      (fun i _ hf => ?_) h.activations
    rcases eq_or_ne i id.toNat with rfl | hne
    · simp at hf
    · rwa [Timers.setSlot_ne hne] at hf

/-- A timer that is moved forward counts as set anew; one that is moved back stays after the calls
that it was after. -/
theorem OrderOk.moved (h : OrderOk w) (tid : Int) (added : BitVec 32) :
    OrderOk (w.moved tid.toNat (w.timers.addtickTimer tid added).1) := by
  obtain ⟨hheap, hnow, hfunc, htick, hfalling⟩ := w.timers.addtickTimer_frame tid added
  have hset : ∀ i, w.setAt i ≤ (w.moved tid.toNat (w.timers.addtickTimer tid added).1).setAt i ∧
      (w.moved tid.toNat (w.timers.addtickTimer tid added).1).setAt i ≤ w.calls.length := by
    intro i
    have hi := h.setAt_le i
    simp only [TimerWorld.moved]
    split
    · rcases eq_or_ne i tid.toNat with rfl | hne
      · simpa using hi
      · simpa [hne] using hi
    · exact ⟨le_rfl, hi⟩
  have hafter : ∀ b i, LogOk w b → After w b i →
      After (w.moved tid.toNat (w.timers.addtickTimer tid added).1) b i := by
    intro b i hlog hb
    rcases eq_or_ne i tid.toNat with rfl | hne
    · by_cases hlt : diffTick ((w.timers.addtickTimer tid added).1.tick tid.toNat)
          (w.timers.addtickTimer tid added).1.gettickCache < w.diff tid.toNat
      · exact after_of_set hlog (by simp [TimerWorld.moved, hlt])
      · exact hb.congr (by simp [TimerWorld.moved, hlt]) (not_lt.mp hlt)
    · refine hb.congr (le_antisymm ?_ (hset i).1) ?_
      · simp only [TimerWorld.moved]
        split
        · rw [Function.update_of_ne hne]
        · exact le_rfl
      · simp only [TimerWorld.diff, TimerWorld.moved, htick i hne, hnow, le_refl]
  refine ⟨h.timers.moved tid added, hfalling h.falling h.timers.heap_nodup, fun i => (hset i).2,
    h.activations.transfer le_rfl (fun b _ hlog i hi hlive => ?_)
      fun b hlog a _ i _ hb => hafter b i hlog hb⟩
  exact hafter b i hlog (hlive ⟨hheap.subset hi.1, hfunc i ▸ hi.2⟩)

theorem Timers.popTimerHeap_falling {t : Timers} (h : t.Falling) : t.popTimerHeap.Falling :=
  List.Pairwise.sublist (List.dropLast_sublist _) h

/-- The timer at the end of the queue has the least difference, if the clock does not wrap between
the timers in it. -/
theorem OrderOk.least (h : OrderOk w) (hclock : w.clockAgrees) {i : Nat}
    (hheap : w.timers.timerHeap = w.timers.timerHeap.dropLast ++ [i])
    (hfunc : (w.timers.timerData i).func ≠ none) {j : Nat} (hj : w.live j)
    (hdue : w.diff j ≤ 0) : w.diff i ≤ w.diff j := by
  have hi : i ∈ w.timers.timerHeap := hheap ▸ List.mem_append_right _ (List.mem_singleton.mpr rfl)
  have hle : (w.timers.tick i).toNat ≤ (w.timers.tick j).toNat := by
    have hf := h.falling
    unfold Timers.Falling at hf
    rw [hheap] at hf
    have hmem := hj.1
    rw [hheap, List.mem_append, List.mem_singleton] at hmem
    rcases hmem with hmem | rfl
    · exact hf.getLast_le hmem
    · exact le_rfl
  rcases hle.lt_or_eq with hlt | heq
  · exact hclock i hi j hj.1 hfunc hj.2 (BitVec.lt_def.mpr hlt) hdue
  · exact (congrArg (diffTick · w.timers.gettickCache) (BitVec.eq_of_toNat_eq heq)).le

/-- A slot goes onto the free list. -/
theorem OrderOk.freed (h : OrderOk w) {t : Timers} {i : Nat} {free : List Nat}
    {as : List Activation} (hfalling : t.Falling)
    (hsub : ∀ k ∈ t.timerHeap, k ∈ w.timers.timerHeap)
    (hdata : t.timerData = w.timers.timerData) (hnow : t.gettickCache = w.timers.gettickCache)
    (hok : TimersOk { w with
      timers := { t.setSlot i { t.timerData i with type := .unused } with freeTimerList := free }
      activations := as })
    (has : ActivationsOk w as) :
    OrderOk { w with
      timers := { t.setSlot i { t.timerData i with type := .unused } with freeTimerList := free }
      activations := as } := by
  refine h.congr hok (hfalling.congr rfl fun k _ => Timers.setType_tick) hsub hnow
    (fun k => ?_) (fun k _ hf => ?_) has
  · exact Timers.setType_tick.trans (by rw [Timers.tick, hdata])
  · rwa [← hdata, ← Timers.setType_func]

/-- `do_timer` calls the callback of a timer that is due and that no pending timer comes before. -/
theorem OrderOk.called (h : OrderOk w) {a : Activation} {rest : List Activation}
    (ha : w.activations = a :: rest) {i : Nat} (hi : w.live i) (hdue : w.diff i ≤ 0)
    (hleast : ∀ j, w.live j → w.diff j ≤ 0 → w.diff i ≤ w.diff j)
    (hok : TimersOk (w.called a rest i)) : OrderOk (w.called a rest i) := by
  have hacts := h.activations
  rw [ha] at hacts
  have hkeep : ∀ b j, After w b j → After (w.called a rest i) b j := fun b j hb =>
    hb.congr rfl le_rfl
  have hsub : ∀ j, (w.called a rest i).live j → w.live j := fun j hj =>
    ⟨List.dropLast_subset _ hj.1, hj.2⟩
  refine ⟨hok, Timers.popTimerHeap_falling h.falling, fun j => (h.setAt_le j).trans ?_, ?_⟩
  · exact Nat.le_succ _
  · refine ⟨fun f hf => ?_, fun j hj f hf hset => ?_, fun j hj b hb => ?_, ?_⟩
    · rcases List.mem_cons.mp hf with rfl | hf
      · exact ⟨hdue, Nat.lt_succ_self _⟩
      · exact ⟨(hacts.1 f hf).1, (hacts.1 f hf).2.trans (Nat.lt_succ_self _)⟩
    · rcases List.mem_cons.mp hf with rfl | hf
      · by_cases hj' : w.diff j ≤ 0
        · exact hleast j (hsub j hj) hj'
        · exact hdue.trans (not_le.mp hj').le
      · exact hacts.2.1 j (hsub j hj) f hf hset
    · obtain rfl : i = j := by simpa using hj
      rcases List.mem_cons.mp hb with rfl | hb
      · intro f hf hset
        rcases List.mem_cons.mp hf with rfl | hf
        · exact le_rfl
        · exact hacts.2.1 i hi f hf hset
      · exact hkeep b i (hacts.live hi b (List.mem_cons_of_mem _ hb))
    · exact hacts.2.2.2.transfer (Nat.le_succ _)
        (fun b _ _ j hj hlive => hkeep b j (hlive (hsub j hj))) fun b _ _ _ j _ hb => hkeep b j hb

theorem OrderOk.looked (h : OrderOk w) {a : Activation} {rest : List Activation}
    (ha : w.activations = a :: rest) (hnone : a.calling = none) (hclock : w.clockAgrees) :
    OrderOk (w.looked a rest) := by
  have hok := timersOk_looked h.timers ha hnone
  have hacts := h.activations
  rw [ha] at hacts
  unfold TimerWorld.looked at hok ⊢
  cases hl : w.timers.lookTimer with
  | wait ms =>
    rw [hl] at hok
    exact h.congr (t := w.timers) hok h.falling (fun _ hi => hi) rfl (fun _ => rfl)
      (fun _ _ hf => hf) hacts.2.2.2
  | pop i =>
    rw [hl] at hok
    obtain ⟨hheap, hdue⟩ := Timers.lookTimer_pop hl
    have hi : i ∈ w.timers.timerHeap :=
      hheap ▸ List.mem_append_right _ (List.mem_singleton.mpr rfl)
    dsimp only at hok ⊢
    by_cases hfunc : (w.timers.timerData i).func = none
    · rw [if_pos hfunc] at hok ⊢
      rcases Timers.finishTimer_cases (t := w.timers.popTimerHeap) (.inl hfunc) with
        ⟨hf, -, -⟩ | ⟨-, e⟩
      · exact absurd hfunc hf
      · rw [e] at hok ⊢
        exact h.freed (t := w.timers.popTimerHeap) (Timers.popTimerHeap_falling h.falling)
          (fun k hk => List.dropLast_subset _ hk) rfl rfl hok h.activations
    · rw [if_neg hfunc] at hok ⊢
      exact h.called ha ⟨hi, hfunc⟩ (hdue.resolve_right hfunc)
        (fun j hj => h.least hclock hheap hfunc hj) hok

/-- The next tick of an interval timer is not before its last one. -/
theorem le_diff_nextTick {i : Nat} (hpos : 0 ≤ (w.timers.timerData i).interval.toInt)
    (hlt : w.diff i + (w.timers.timerData i).interval.toInt < 2 ^ 31) :
    w.diff i ≤ diffTick (w.timers.nextTick i) w.timers.gettickCache := by
  unfold Timers.nextTick
  split
  case isTrue hlate =>
    have hadd : w.timers.gettickCache + (w.timers.timerData i).interval - w.timers.gettickCache =
        (w.timers.timerData i).interval := by
      rw [BitVec.add_comm, BitVec.add_sub_cancel]
    unfold TimerWorld.diff
    rw [diffTick, diffTick, hadd]
    unfold diffTick at hlate
    omega
  case isFalse hlate =>
    have hadd : w.timers.tick i + (w.timers.timerData i).interval - w.timers.gettickCache =
        (w.timers.tick i - w.timers.gettickCache) + (w.timers.timerData i).interval := by
      bv_omega
    have hlow := BitVec.le_toInt (w.timers.tick i - w.timers.gettickCache)
    unfold TimerWorld.diff diffTick at hlt ⊢
    rw [hadd, BitVec.toInt_add, Int.bmod_eq_of_le (by omega) (by omega)]
    omega

/-- After its callback a timer goes back to a later tick, or its slot is free. -/
theorem OrderOk.returned (h : OrderOk w) {a : Activation} {rest : List Activation} {i : Nat}
    (ha : w.activations = { a with calling := some i } :: rest)
    (hclock : (w.timers.timerData i).func ≠ none → (w.timers.timerData i).type = .interval →
      0 ≤ (w.timers.timerData i).interval.toInt ∧
        w.diff i + (w.timers.timerData i).interval.toInt < 2 ^ 31) :
    OrderOk { w with
      timers := w.timers.finishTimer i
      activations := { a with calling := none } :: rest } := by
  have hok := h.timers.finished ha
  have hacts := h.activations
  rw [ha] at hacts
  have hacts' : ActivationsOk w ({ a with calling := none } :: rest) :=
    ⟨hacts.1, hacts.2.1, by simp, hacts.2.2.2⟩
  have hi : i ∈ w.executing := mem_executing (ha ▸ List.mem_cons_self) rfl
  have hnot : i ∉ w.timers.timerHeap := fun hm => h.timers.not_executing hm hi
  have hused := h.timers.used i (List.mem_append_right _ hi)
  rcases Timers.finishTimer_cases (.inr hused) with ⟨hfunc, hty, e⟩ | ⟨-, e⟩
  · rw [e] at hok ⊢
    obtain ⟨hpos, hlt⟩ := hclock hfunc hty
    have hle := le_diff_nextTick hpos hlt
    have hne : ∀ k, k ≠ i → (w.timers.setSlot i { w.timers.timerData i with
        tick := w.timers.nextTick i }).timerData k = w.timers.timerData k := fun k hk =>
      Timers.setSlot_ne hk
    refine ⟨hok, ?_, h.setAt_le, ?_⟩
    · refine Timers.pushTimerHeap_falling (t := w.timers.setSlot i _)
        (h.falling.congr rfl fun k hk => ?_) i
      rw [Timers.tick, hne k (by rintro rfl; exact hnot hk)]
    · have hself : ∀ b ∈ { a with calling := some i } :: rest, After w b i :=
        hacts.2.2.1 i rfl
      refine hacts'.transfer le_rfl (fun b hb _ j hj hlive => ?_) fun b _ c hc j hj hb => ?_
      · rcases eq_or_ne j i with rfl | hji
        · have hb' : After w b j := by
            rcases List.mem_cons.mp hb with rfl | hb
            · exact fun f hf => hself { a with calling := some j } List.mem_cons_self f hf
            · exact hself b (List.mem_cons_of_mem _ hb)
          refine hb'.congr rfl ?_
          simpa [TimerWorld.diff, Timers.tick] using hle
        · have hmem := hj.1
          rw [(Timers.pushTimerHeap_perm _ _).mem_iff, List.mem_cons] at hmem
          have hf := hj.2
          simp only [Timers.pushTimerHeap_timerData, hne j hji] at hf
          refine (hlive ⟨hmem.resolve_left hji, hf⟩).congr rfl ?_
          simp only [TimerWorld.diff, Timers.tick, Timers.pushTimerHeap_timerData, hne j hji,
            Timers.pushTimerHeap_gettickCache, Timers.setSlot_gettickCache, le_refl]
      · have hji : j ≠ i := by
          rintro rfl
          rcases List.mem_cons.mp hc with rfl | hc
          · cases hj
          · have hp := h.timers.places_le j
            have hmem : j ∈ rest.filterMap Activation.calling :=
              List.mem_filterMap.mpr ⟨c, hc, hj⟩
            have hcount := List.count_pos_iff.mpr hmem
            rw [show w.executing = j :: rest.filterMap Activation.calling by
              simp [executing, ha], List.count_cons_self] at hp
            omega
        refine hb.congr rfl ?_
        simp only [TimerWorld.diff, Timers.tick, Timers.pushTimerHeap_timerData, hne j hji,
          Timers.pushTimerHeap_gettickCache, Timers.setSlot_gettickCache, le_refl]
  · rw [e] at hok ⊢
    exact h.freed h.falling (fun k hk => hk) rfl rfl hok hacts'

/-- **Every step under `ClockOk` keeps the order.** -/
theorem orderOk_step (w : TimerWorld) (e : TimerEvent) (h : OrderOk w) (hclock : ClockOk w e) :
    OrderOk (timerStep w e) := by
  cases e with
  | addTimer tick func id data =>
    simp only [timerStep]
    split
    · exact h.added rfl
    · exact h
  | addTimerInterval tick func id data interval =>
    simp only [timerStep]
    split
    · exact h.added rfl
    · exact h
  | deleteTimer id func =>
    simp only [timerStep]
    split
    · exact h.deleted id func
    · exact h
  | addtickTimer tid added =>
    simp only [timerStep]
    split
    · exact h.moved tid added
    · exact h
  | gettick now =>
    have hok := timersOk_step w (.gettick now) h.timers
    simp only [timerStep] at hok ⊢
    split
    · rename_i hnil
      rw [if_pos hnil] at hok
      exact ⟨hok, h.falling.congr rfl fun _ _ => rfl, h.setAt_le, hnil ▸ trivial⟩
    · exact h
  | doTimer =>
    have hok := timersOk_step w .doTimer h.timers
    simp only [timerStep] at hok ⊢
    split
    · rename_i hruns
      rw [if_pos hruns] at hok
      refine ⟨hok, h.falling, h.setAt_le, by simp [LogOk], by simp [After], by simp, ?_⟩
      exact h.activations.transfer le_rfl (fun b hb _ i hi _ => h.activations.live hi b hb)
        fun _ _ _ _ _ _ hb => hb
    · exact h
  | look =>
    simp only [timerStep]
    split
    · rename_i a rest ha
      split
      · exact h.looked ha ‹_› (hclock ⟨a, by simp [ha], ‹_›⟩)
      · exact h
    · exact h
  | callbackReturn =>
    simp only [timerStep]
    split
    · rename_i a rest ha
      split
      · rename_i i hi
        exact h.returned (a := a) (by rw [ha, ← hi]) (hclock a (by simp [ha]) i hi)
      · exact h
    · exact h

/-- What the invariant and the condition give at a look at the queue. -/
theorem firesInOrder_of_orderOk (w : TimerWorld) (e : TimerEvent) (h : OrderOk w)
    (hclock : ClockOk w e) : FiresInOrder w e := by
  cases e with
  | look =>
    intro a ha hnone
    obtain ⟨rest, hacts⟩ : ∃ rest, w.activations = a :: rest :=
      List.head?_eq_some_iff.mp ha
    have hagree : w.clockAgrees := hclock ⟨a, ha, hnone⟩
    have ha' : a ∈ w.activations := hacts ▸ List.mem_cons_self
    cases hl : w.timers.lookTimer with
    | wait ms =>
      intro i hi hfunc _
      rcases Timers.lookTimer_wait hl with hnil | ⟨j, hheap, hpos, hj⟩
      · rw [hnil] at hi
        cases hi
      · by_contra hdue
        have hle := h.least hagree hheap hj ⟨hi, hfunc⟩ (not_lt.mp hdue)
        exact absurd (hle.trans (not_lt.mp hdue)) (not_le.mpr hpos)
    | pop i =>
      intro hfunc
      obtain ⟨hheap, -⟩ := Timers.lookTimer_pop hl
      have hi : i ∈ w.timers.timerHeap :=
        hheap ▸ List.mem_append_right _ (List.mem_singleton.mpr rfl)
      exact h.activations.live ⟨hi, hfunc⟩ a ha'
  | _ => trivial

end Step

/-! ## Runs -/

/-- The timers before the first call, at a clock value. -/
def timersAt (now : BitVec 32) : TimerWorld := { timers := { gettickCache := now } }

theorem orderOk_timersAt (now : BitVec 32) : OrderOk (timersAt now) :=
  ⟨timersOk_init now, List.Pairwise.nil, fun _ => le_rfl, trivial⟩

/-- A timer of each kind, with a callback that adds a timer and one that moves another. -/
def orderlyRun : List TimerEvent :=
  [.addTimer 1000 (some 1) 0 0, .addTimerInterval 1010 (some 2) 0 0 100,
    .addTimer 1020 (some 3) 0 0, .addTimer 1030 (some 4) 0 0, .addTimer 5000 (some 5) 0 0,
    .gettick 1040, .doTimer, .look, .addTimer 1015 (some 6) 0 0, .callbackReturn, .look,
    .addtickTimer 4 (-4000), .deleteTimer 3 (some 4), .callbackReturn, .look, .callbackReturn,
    .look, .callbackReturn, .look, .callbackReturn, .look, .callbackReturn, .look, .look]

/-- Ten milliseconds before the wrap: a timer that has been due for ten milliseconds, and one that is
due in fifteen, past the wrap. -/
def wrapRun : List TimerEvent :=
  [.addTimer 4294967276 (some 1) 0 0, .addTimer 5 (some 2) 0 0, .doTimer, .look]

theorem FiresInOrder.not_due {w : TimerWorld} (h : FiresInOrder w .look) {a : Activation}
    (ha : w.activations.head? = some a) (hnone : a.calling = none) (ms : Int)
    (hl : w.timers.lookTimer = .wait ms) {i : Nat} (hi : i ∈ w.timers.timerHeap)
    (hfunc : (w.timers.timerData i).func ≠ none) (hadded : w.addedAt i ≤ a.start) :
    0 < w.diff i := by
  have hw := h a ha hnone
  rw [hl] at hw
  exact hw i hi hfunc hadded

end Nezumi
