import Nezumi.Lib.Run
import Mathlib.Data.Int.Order.Basic
import Mathlib.Data.List.Perm.Basic

/-!
# Addresses that are banned for wrong passwords (`login/login.c`)

Every wrong password is put into a list of slots, with its address and its time. A slot whose time
is over is taken again. An address with enough entries gets one in a second list of this kind.

* `slotPass` is the loop over both lists, `addSlot` the loop with the growth of the list behind it.
* `addPassFailureBan` and `checkBanlist` are the functions. The clock does not move while one runs.
  What goes into the log and into the memo of the account is left out.
* `addSlot_live`: the entries that are not over are those of before and the new one.
* `BanStepRight` is what a step is for: who has failed too often is banned, nobody else is, and no
  failure and no ban is lost.
* `banRun_right_iff`: every step of a run is right if and only if no failure comes from `0.0.0.0`,
  or from an address without a ban that has failed too often already.
-/

namespace Nezumi

/-- An entry of `pass_failure_list` or of `ban_list`. A slot without an address is free. -/
structure BanSlot where
  ip : UInt32 := 0
  banTime : ℤ := 0
deriving DecidableEq

/-- The `dynamic_pass_failure_` settings: whether addresses are banned, for how many failures in
which time, and for how long. -/
structure BanConf where
  ban : Bool := true
  banTime : ℤ := 60
  howMany : ℤ := 3
  howLong : ℤ := 300

/-- The check of the settings. -/
def checkBanConf (conf : BanConf) : BanConf :=
  if conf.ban then
    { conf with
      banTime := if conf.banTime < 1 then 60 else conf.banTime
      howMany := if conf.howMany < 1 then 3 else conf.howMany
      howLong := if conf.howLong < 1 then 300 else conf.howLong }
  else conf

/-- The loop over a list: the new entry is put into the first slot that is free or over, the others
that are over become free. The result has the list, whether the entry was put and the number of the
entries of its address. -/
def slotPass (new : BanSlot) (actualTime : ℤ) : (addDone : Bool) → (counter : ℕ) → List BanSlot →
    List BanSlot × Bool × ℕ
  | addDone, counter, [] => ([], addDone, counter)
  | addDone, counter, s :: ss =>
    if s.ip ≠ 0 then
      if s.banTime < actualTime then
        if addDone = false then
          let r := slotPass new actualTime true (counter + 1) ss
          (new :: r.1, r.2)
        else
          let r := slotPass new actualTime addDone counter ss
          ({} :: r.1, r.2)
      else
        let r := slotPass new actualTime addDone (if s.ip = new.ip then counter + 1 else counter) ss
        (s :: r.1, r.2)
    else if addDone = false then
      let r := slotPass new actualTime true (counter + 1) ss
      (new :: r.1, r.2)
    else
      let r := slotPass new actualTime addDone counter ss
      (s :: r.1, r.2)

/-- The loop, and the growth of a list that has no room: the list and the counter. -/
def addSlot (new : BanSlot) (actualTime : ℤ) (l : List BanSlot) : List BanSlot × ℕ :=
  let r := slotPass new actualTime false 0 l
  if r.2.1 then (r.1, r.2.2)
  else (r.1 ++ new :: List.replicate 255 {}, r.2.2 + 1)

/-- `add_pass_failure_ban`: the two lists. -/
def addPassFailureBan (conf : BanConf) (now : ℤ) (ip : UInt32)
    (passFailureList banList : List BanSlot) : List BanSlot × List BanSlot :=
  let r := addSlot ⟨ip, now⟩ (now - conf.banTime) passFailureList
  (r.1, if (r.2 : ℤ) = conf.howMany then (addSlot ⟨ip, now + conf.howLong⟩ now banList).1
    else banList)

/-- `check_banlist`: the end of the ban of an address or 0, and the list. -/
def checkBanlist (conf : BanConf) (actualTime : ℤ) (ip : UInt32) : List BanSlot → ℤ × List BanSlot
  | [] => (0, [])
  | s :: ss =>
    if s.ip ≠ 0 then
      if s.banTime < actualTime then
        let r := checkBanlist conf actualTime ip ss
        (r.1, {} :: r.2)
      else if s.ip = ip ∧ conf.ban = true then (s.banTime, s :: ss)
      else
        let r := checkBanlist conf actualTime ip ss
        (r.1, s :: r.2)
    else
      let r := checkBanlist conf actualTime ip ss
      (r.1, s :: r.2)

/-! ## Runs -/

/-- What the login-server does with an address: a wrong password is counted, or a connection is
checked. -/
inductive BanEvent
  | failure (ip : UInt32)
  | check (ip : UInt32)

/-- The address of a failure. -/
def BanEvent.failed : BanEvent → Option UInt32
  | failure ip => some ip
  | check _ => none

/-- The lists and the clock, and beside them all failures, the last one first. -/
structure BanWorld where
  now : ℕ
  passFailureList : List BanSlot
  banList : List BanSlot
  failures : List BanSlot := []

/-- The server begins with empty lists. -/
def BanWorld.start (now : ℕ) : BanWorld :=
  ⟨now, List.replicate 256 {}, List.replicate 256 {}, []⟩

/-- Some seconds pass before an event. -/
def banStep (conf : BanConf) (w : BanWorld) (e : ℕ × BanEvent) : BanWorld :=
  let now := w.now + e.1
  match e.2 with
  | .failure ip =>
    let r := addPassFailureBan conf now ip w.passFailureList w.banList
    ⟨now, r.1, r.2, ⟨ip, now⟩ :: w.failures⟩
  | .check ip => ⟨now, w.passFailureList, (checkBanlist conf now ip w.banList).2, w.failures⟩

/-- A slot with an entry that is not over. -/
def Live (since : ℤ) (s : BanSlot) : Bool := s.ip ≠ 0 && since ≤ s.banTime

/-- The failures of an address since a time. -/
def failuresOf (ip : UInt32) (since : ℤ) (l : List BanSlot) : ℕ :=
  l.countP fun f => f.ip = ip && since ≤ f.banTime

/-- The failures of an address that a list of slots holds. -/
def storedOf (ip : UInt32) (since : ℤ) (l : List BanSlot) : ℕ :=
  l.countP fun s => Live since s && s.ip = ip

/-- At one of its failures, an address has failed too often. -/
def FailedOften (conf : BanConf) (failures : List BanSlot) (ip : UInt32) : Prop :=
  ∃ f older, f :: older <:+ failures ∧ f.ip = ip ∧
    conf.howMany ≤ failuresOf ip (f.banTime - conf.banTime) (f :: older)

/-- `check_banlist` finds a ban. -/
def Banned (conf : BanConf) (now : ℤ) (l : List BanSlot) (ip : UInt32) : Prop :=
  (checkBanlist conf now ip l).1 ≠ 0

instance (conf : BanConf) (now : ℤ) (l : List BanSlot) (ip : UInt32) :
    Decidable (Banned conf now l ip) := inferInstanceAs (Decidable (_ ≠ _))

/-- **What a step is for.** -/
structure BanStepRight (conf : BanConf) (w : BanWorld) (e : ℕ × BanEvent) : Prop where
  /-- Who has failed too often is banned. -/
  banned : ∀ ip, e.2 = .failure ip →
    conf.howMany
      ≤ failuresOf ip ((banStep conf w e).now - conf.banTime) (banStep conf w e).failures →
    Banned conf (banStep conf w e).now (banStep conf w e).banList ip
  /-- Nobody else is. -/
  only : ∀ ip, Banned conf (banStep conf w e).now (banStep conf w e).banList ip →
    FailedOften conf (banStep conf w e).failures ip
  /-- No failure is lost. -/
  failures : ∀ ip, storedOf ip ((banStep conf w e).now - conf.banTime)
      (banStep conf w e).passFailureList
    = failuresOf ip ((banStep conf w e).now - conf.banTime) (banStep conf w e).failures
  /-- No ban is lost. -/
  bans : ∀ s ∈ w.banList, Live (banStep conf w e).now s → s ∈ (banStep conf w e).banList

/-- A failure comes from an address, and one that has failed too often is banned. -/
def BanStepFine (conf : BanConf) (w : BanWorld) (e : ℕ × BanEvent) : Prop :=
  ∀ ip ∈ e.2.failed, ip ≠ 0 ∧
    (conf.howMany ≤ failuresOf ip ((w.now + e.1 : ℕ) - conf.banTime) w.failures →
      ∃ s ∈ w.banList, s.ip = ip ∧ ((w.now + e.1 : ℕ) : ℤ) ≤ s.banTime)

theorem banStepFine_failure {conf : BanConf} {w : BanWorld} {elapsed : ℕ} {ip : UInt32} :
    BanStepFine conf w (elapsed, .failure ip) ↔ ip ≠ 0 ∧
      (conf.howMany ≤ failuresOf ip ((w.now + elapsed : ℕ) - conf.banTime) w.failures →
        ∃ s ∈ w.banList, s.ip = ip ∧ ((w.now + elapsed : ℕ) : ℤ) ≤ s.banTime) := by
  simp [BanStepFine, BanEvent.failed]

theorem banStepFine_check (conf : BanConf) (w : BanWorld) (elapsed : ℕ) (ip : UInt32) :
    BanStepFine conf w (elapsed, .check ip) := by
  rintro ip' ⟨⟩

instance (conf : BanConf) (w : BanWorld) : (e : ℕ × BanEvent) → Decidable (BanStepFine conf w e)
  | (_, .failure _) => decidable_of_iff _ banStepFine_failure.symm
  | (elapsed, .check ip) => .isTrue (banStepFine_check conf w elapsed ip)

/-! ## The loop over the slots -/

section Pass

variable {new : BanSlot} {since : ℤ}

theorem live_free : Live since {} = false := rfl

/-- A slot that the loop takes or frees has no entry that is not over. -/
theorem live_of_over {s : BanSlot} (h : s.banTime < since) : Live since s = false := by
  unfold Live
  simp [h]

theorem live_of_ip {s : BanSlot} (h : s.ip = 0) : Live since s = false := by
  unfold Live
  simp [h]

theorem live_iff {s : BanSlot} : Live since s = true ↔ s.ip ≠ 0 ∧ since ≤ s.banTime := by
  simp [Live]

theorem storedOf_cons (ip : UInt32) (s : BanSlot) (l : List BanSlot) :
    storedOf ip since (s :: l)
      = storedOf ip since l + if Live since s ∧ s.ip = ip then 1 else 0 := by
  unfold storedOf
  rw [List.countP_cons]
  simp only [Bool.and_eq_true, decide_eq_true_eq]

/-- An entry that is not over stays, and counts for its address. -/
theorem slotPass_live {s : BanSlot} (hs : Live since s) (addDone : Bool) (counter : ℕ)
    (l : List BanSlot) :
    slotPass new since addDone counter (s :: l)
      = (s :: (slotPass new since addDone (if s.ip = new.ip then counter + 1 else counter) l).1,
        (slotPass new since addDone (if s.ip = new.ip then counter + 1 else counter) l).2) := by
  obtain ⟨hip, hle⟩ := live_iff.mp hs
  rw [slotPass, if_pos hip, if_neg (by omega)]

/-- The new entry is put into the first other slot. -/
theorem slotPass_take {s : BanSlot} (hs : Live since s = false) (counter : ℕ) (l : List BanSlot) :
    slotPass new since false counter (s :: l)
      = (new :: (slotPass new since true (counter + 1) l).1,
        (slotPass new since true (counter + 1) l).2) := by
  rw [slotPass]
  by_cases hip : s.ip = 0
  · rw [if_neg (not_not.mpr hip), if_pos rfl]
  · have hlt : s.banTime < since := by
      by_contra hge
      rw [live_iff.mpr ⟨hip, by omega⟩] at hs
      cases hs
    rw [if_pos hip, if_pos hlt, if_pos rfl]

variable (new) in
/-- The slots behind it are free. -/
theorem slotPass_free {s : BanSlot} (hs : Live since s = false) (counter : ℕ) (l : List BanSlot) :
    ∃ z : BanSlot, z.ip = 0 ∧ slotPass new since true counter (s :: l)
      = (z :: (slotPass new since true counter l).1, (slotPass new since true counter l).2) := by
  rw [slotPass]
  by_cases hip : s.ip = 0
  · exact ⟨s, hip, by rw [if_neg (not_not.mpr hip), if_neg (by decide)]⟩
  · have hlt : s.banTime < since := by
      by_contra hge
      rw [live_iff.mpr ⟨hip, by omega⟩] at hs
      cases hs
    exact ⟨{}, rfl, by rw [if_pos hip, if_pos hlt, if_neg (by decide)]⟩

variable (new since) in
/-- Behind the new entry, the loop keeps the entries that are not over, and counts those of the
address. -/
theorem slotPass_done (counter : ℕ) (l : List BanSlot) :
    (slotPass new since true counter l).1.filter (Live since) = l.filter (Live since) ∧
      (slotPass new since true counter l).2 = (true, counter + storedOf new.ip since l) := by
  induction l generalizing counter with
  | nil => exact ⟨rfl, rfl⟩
  | cons s l ih =>
    cases hs : Live since s with
    | true =>
      obtain ⟨hlist, hrest⟩ := ih (if s.ip = new.ip then counter + 1 else counter)
      rw [slotPass_live hs]
      refine ⟨?_, ?_⟩
      · rw [List.filter_cons_of_pos hs, List.filter_cons_of_pos hs, hlist]
      · rw [hrest, storedOf_cons, hs]
        by_cases hsame : s.ip = new.ip
        · rw [if_pos hsame, if_pos ⟨rfl, hsame⟩, Nat.add_right_comm, Nat.add_assoc]
        · rw [if_neg hsame, if_neg fun h => hsame h.2, Nat.add_zero]
    | false =>
      obtain ⟨hlist, hrest⟩ := ih counter
      obtain ⟨z, hz, heq⟩ := slotPass_free new hs counter l
      rw [heq]
      refine ⟨?_, ?_⟩
      · rw [List.filter_cons_of_neg (by simp [live_of_ip hz]),
          List.filter_cons_of_neg (by simp [hs]), hlist]
      · rw [hrest, storedOf_cons, hs, if_neg fun h => Bool.false_ne_true h.1, Nat.add_zero]

/-- **The loop** keeps the entries that are not over. It puts the new one if a slot has none, and
the counter has the entries of its address. -/
theorem slotPass_spec (hnew : Live since new) (counter : ℕ) (l : List BanSlot) :
    ((slotPass new since false counter l).2.1 = true ∧
        ((slotPass new since false counter l).1.filter (Live since)).Perm
          (new :: l.filter (Live since)) ∧
        (slotPass new since false counter l).2.2 = counter + storedOf new.ip since l + 1) ∨
      ((slotPass new since false counter l).2.1 = false ∧
        (slotPass new since false counter l).1 = l ∧
        (slotPass new since false counter l).2.2 = counter + storedOf new.ip since l) := by
  induction l generalizing counter with
  | nil => exact Or.inr ⟨rfl, rfl, rfl⟩
  | cons s l ih =>
    cases hs : Live since s with
    | true =>
      have hcount : (if s.ip = new.ip then counter + 1 else counter) + storedOf new.ip since l
          = counter + storedOf new.ip since (s :: l) := by
        rw [storedOf_cons, hs]
        by_cases hsame : s.ip = new.ip
        · rw [if_pos hsame, if_pos ⟨rfl, hsame⟩, Nat.add_right_comm, Nat.add_assoc]
        · rw [if_neg hsame, if_neg fun h => hsame h.2, Nat.add_zero]
      rw [slotPass_live hs]
      rcases ih (if s.ip = new.ip then counter + 1 else counter) with ⟨hd, hl, hc⟩ | ⟨hd, hl, hc⟩
      · refine Or.inl ⟨hd, ?_, by rw [hc, hcount]⟩
        rw [List.filter_cons_of_pos hs, List.filter_cons_of_pos hs]
        exact (hl.cons s).trans (List.Perm.swap new s _)
      · exact Or.inr ⟨hd, by rw [hl], by rw [hc, hcount]⟩
    | false =>
      obtain ⟨hlist, hrest⟩ := slotPass_done new since (counter + 1) l
      rw [slotPass_take hs]
      refine Or.inl ⟨by rw [hrest], ?_, ?_⟩
      · rw [List.filter_cons_of_pos hnew, List.filter_cons_of_neg (by simp [hs]), hlist]
      · rw [hrest, storedOf_cons, hs, if_neg fun h => Bool.false_ne_true h.1]
        omega

/-- **A new entry**: the entries that are not over are those of before and the new one, and the
counter has those of its address. -/
theorem addSlot_live (hnew : Live since new) (l : List BanSlot) :
    ((addSlot new since l).1.filter (Live since)).Perm (new :: l.filter (Live since)) ∧
      (addSlot new since l).2 = storedOf new.ip since l + 1 := by
  unfold addSlot
  rcases slotPass_spec hnew 0 l with ⟨hd, hl, hc⟩ | ⟨hd, hl, hc⟩
  · dsimp only
    rw [hd, if_pos rfl, hc]
    exact ⟨hl, by omega⟩
  · dsimp only
    rw [hd, if_neg (by decide), hl, hc]
    refine ⟨?_, by omega⟩
    have hfree : (List.replicate 255 ({} : BanSlot)).filter (Live since) = [] := by
      rw [List.filter_eq_nil_iff]
      intro s hs
      rw [List.eq_of_mem_replicate hs, live_free]
      decide
    rw [List.filter_append, List.filter_cons_of_pos hnew, hfree]
    exact List.perm_append_singleton new _

/-- Every other entry was there. -/
theorem mem_addSlot {s : BanSlot} {l : List BanSlot} (h : s ∈ (addSlot new since l).1)
    (hip : s.ip ≠ 0) : s = new ∨ s ∈ l := by
  have hpass : ∀ (addDone : Bool) (counter : ℕ) (l : List BanSlot),
      s ∈ (slotPass new since addDone counter l).1 → s = new ∨ s ∈ l := by
    intro addDone counter l hs
    induction l generalizing addDone counter with
    | nil => cases hs
    | cons s' l ih =>
      have hrest : ∀ d c, s ∈ (slotPass new since d c l).1 → s = new ∨ s ∈ s' :: l :=
        fun d c hin => (ih d c hin).imp_right (List.mem_cons_of_mem s')
      cases hs' : Live since s' with
      | true =>
        rw [slotPass_live hs'] at hs
        rcases List.mem_cons.mp hs with rfl | hs
        · exact Or.inr List.mem_cons_self
        · exact hrest _ _ hs
      | false =>
        cases addDone with
        | false =>
          rw [slotPass_take hs'] at hs
          rcases List.mem_cons.mp hs with rfl | hs
          · exact Or.inl rfl
          · exact hrest _ _ hs
        | true =>
          obtain ⟨z, hz, heq⟩ := slotPass_free new hs' counter l
          rw [heq] at hs
          rcases List.mem_cons.mp hs with rfl | hs
          · exact absurd hz hip
          · exact hrest _ _ hs
  unfold addSlot at h
  dsimp only at h
  split at h
  · exact hpass _ _ _ h
  · rcases List.mem_append.mp h with h | h
    · exact hpass _ _ _ h
    · rcases List.mem_cons.mp h with rfl | h
      · exact Or.inl rfl
      · rw [List.eq_of_mem_replicate h] at hip
        exact absurd rfl hip

end Pass

/-! ## The check of an address -/

section Check

variable {conf : BanConf} {now : ℤ} {ip : UInt32} {l : List BanSlot}

/-- Every entry that is not over stays, and no entry is new. -/
theorem mem_checkBanlist {s : BanSlot} (hip : s.ip ≠ 0) :
    (s ∈ (checkBanlist conf now ip l).2 → s ∈ l) ∧
      (Live now s → s ∈ l → s ∈ (checkBanlist conf now ip l).2) := by
  induction l with
  | nil => exact ⟨id, fun _ => id⟩
  | cons s' l ih =>
    have hcons : (s ∈ s' :: (checkBanlist conf now ip l).2 → s ∈ s' :: l) ∧
        (Live now s → s ∈ s' :: l → s ∈ s' :: (checkBanlist conf now ip l).2) := by
      simp only [List.mem_cons]
      exact ⟨Or.imp_right ih.1, fun hs => Or.imp_right (ih.2 hs)⟩
    unfold checkBanlist
    split
    · split
      next hover =>
        refine ⟨fun hs => ?_, fun hs hin => ?_⟩
        · rcases List.mem_cons.mp hs with rfl | hs
          · exact absurd rfl hip
          · exact List.mem_cons_of_mem s' (ih.1 hs)
        · rcases List.mem_cons.mp hin with rfl | hin
          · rw [live_of_over hover] at hs
            cases hs
          · exact List.mem_cons_of_mem _ (ih.2 hs hin)
      next =>
        split
        · exact ⟨id, fun _ => id⟩
        · exact hcons
    · exact hcons

/-- **A ban is seen** exactly if there is an entry that is not over. -/
theorem banned_iff (hban : conf.ban = true) (hpos : ∀ s ∈ l, s.ip ≠ 0 → 0 < s.banTime) :
    Banned conf now l ip ↔ ip ≠ 0 ∧ ∃ s ∈ l, s.ip = ip ∧ now ≤ s.banTime := by
  unfold Banned
  induction l with
  | nil => simp [checkBanlist]
  | cons s l ih =>
    have hrest := ih fun s' hs' => hpos s' (List.mem_cons_of_mem s hs')
    simp only [List.exists_mem_cons_iff]
    rw [checkBanlist]
    by_cases hs : s.ip = 0
    · rw [if_neg (not_not.mpr hs)]
      refine hrest.trans (and_congr_right fun hip => (or_iff_right ?_).symm)
      rintro ⟨rfl, -⟩
      exact hip hs
    · rw [if_pos hs]
      by_cases hover : s.banTime < now
      · rw [if_pos hover]
        refine hrest.trans (and_congr_right fun hip => (or_iff_right ?_).symm)
        rintro ⟨-, hle⟩
        omega
      · rw [if_neg hover]
        by_cases hsame : s.ip = ip
        · rw [if_pos ⟨hsame, hban⟩]
          have := hpos s List.mem_cons_self hs
          refine iff_of_true (by dsimp only; omega) ⟨hsame ▸ hs, Or.inl ⟨hsame, by omega⟩⟩
        · rw [if_neg fun h => hsame h.1]
          exact hrest.trans (and_congr_right fun hip => (or_iff_right fun h => hsame h.1).symm)

end Check

/-! ## Steps -/

section Steps

/-- Settings that passed the check. -/
structure BanConf.Valid (conf : BanConf) : Prop where
  ban : conf.ban = true
  banTime : 1 ≤ conf.banTime
  howMany : 1 ≤ conf.howMany
  howLong : 1 ≤ conf.howLong

/-- The check gives every setting a value that passes it. -/
theorem valid_checkBanConf {conf : BanConf} (hban : conf.ban = true) :
    (checkBanConf conf).Valid := by
  unfold checkBanConf
  rw [if_pos hban]
  refine ⟨hban, ?_, ?_, ?_⟩ <;> dsimp only <;> split <;> omega

/-- **The invariant**: the list has the failures that are not over, and who is banned has failed too
often. -/
structure BanWorld.Fine (conf : BanConf) (w : BanWorld) : Prop where
  stored : (w.passFailureList.filter (Live (w.now - conf.banTime))).Perm
    (w.failures.filter (Live (w.now - conf.banTime)))
  ips : ∀ f ∈ w.failures, f.ip ≠ 0
  bans : ∀ s ∈ w.banList, s.ip ≠ 0 → 0 < s.banTime ∧ FailedOften conf w.failures s.ip

variable {conf : BanConf} {w : BanWorld} {l l' : List BanSlot} {since since' : ℤ} {ip : UInt32}

/-- What is not over later is not over now. -/
theorem perm_live_later (h : (l.filter (Live since)).Perm (l'.filter (Live since)))
    (hle : since ≤ since') : (l.filter (Live since')).Perm (l'.filter (Live since')) := by
  have hlater : ∀ l : List BanSlot,
      l.filter (Live since') = (l.filter (Live since)).filter (Live since') := by
    intro l
    rw [List.filter_filter]
    refine List.filter_congr fun s _ => ?_
    cases hs : Live since' s with
    | false => rfl
    | true =>
      obtain ⟨hip, hs⟩ := live_iff.mp hs
      rw [live_iff.mpr ⟨hip, Int.le_trans hle hs⟩]
      rfl
  rw [hlater l, hlater l']
  exact h.filter _

theorem storedOf_eq (ip : UInt32) (since : ℤ) (l : List BanSlot) :
    storedOf ip since l = (l.filter (Live since)).countP fun s => s.ip = ip := by
  unfold storedOf
  rw [List.countP_filter]
  refine List.countP_congr fun s _ => ?_
  rw [Bool.and_comm]

/-- The failures of an address, where each has one. -/
theorem storedOf_failures (h : ∀ f ∈ l, f.ip ≠ 0) :
    storedOf ip since l = failuresOf ip since l := by
  unfold storedOf failuresOf
  refine List.countP_congr fun f hf => ?_
  simp [Live, h f hf, and_comm]

theorem failuresOf_cons (f : BanSlot) :
    failuresOf ip since (f :: l)
      = failuresOf ip since l + if f.ip = ip ∧ since ≤ f.banTime then 1 else 0 := by
  unfold failuresOf
  rw [List.countP_cons]
  simp only [Bool.and_eq_true, decide_eq_true_eq]

theorem failedOften_cons {f : BanSlot} (h : FailedOften conf l ip) :
    FailedOften conf (f :: l) ip := by
  obtain ⟨g, older, hsuffix, hg⟩ := h
  exact ⟨g, older, hsuffix.trans (List.suffix_cons f l), hg⟩

/-- The list has as many entries of an address as it failed. -/
theorem BanWorld.Fine.stored_eq (h : w.Fine conf) (hle : w.now - conf.banTime ≤ since)
    (ip : UInt32) : storedOf ip since w.passFailureList = failuresOf ip since w.failures := by
  rw [← storedOf_failures h.ips, storedOf_eq, storedOf_eq]
  exact (perm_live_later h.stored hle).countP_eq _

/-- A failure: the counter has all failures of the address that are not over, this one too. -/
theorem counter_eq (hconf : conf.Valid) (h : w.Fine conf) (elapsed : ℕ) (hip : ip ≠ 0) :
    ((w.now + elapsed : ℕ) - conf.banTime ≤ ((w.now + elapsed : ℕ) : ℤ)) ∧
    Live ((w.now + elapsed : ℕ) - conf.banTime) ⟨ip, (w.now + elapsed : ℕ)⟩ ∧
    (addSlot ⟨ip, (w.now + elapsed : ℕ)⟩ ((w.now + elapsed : ℕ) - conf.banTime)
        w.passFailureList).2
      = failuresOf ip ((w.now + elapsed : ℕ) - conf.banTime) w.failures + 1 := by
  have hT := hconf.banTime
  have hle : ((w.now + elapsed : ℕ) : ℤ) - conf.banTime ≤ ((w.now + elapsed : ℕ) : ℤ) := by omega
  have hlive : Live ((w.now + elapsed : ℕ) - conf.banTime) ⟨ip, (w.now + elapsed : ℕ)⟩ :=
    live_iff.mpr ⟨hip, hle⟩
  refine ⟨hle, hlive, ?_⟩
  rw [(addSlot_live hlive _).2, h.stored_eq (by push_cast; omega)]

/-- What a failure leaves. -/
theorem fine_failure (hconf : conf.Valid) (h : w.Fine conf) (elapsed : ℕ) (hip : ip ≠ 0) :
    (banStep conf w (elapsed, .failure ip)).Fine conf := by
  obtain ⟨hle, hlive, hcount⟩ := counter_eq hconf h elapsed hip
  have hL := hconf.howLong
  refine ⟨?_, ?_, ?_⟩
  · have hold : (w.passFailureList.filter (Live ((w.now + elapsed : ℕ) - conf.banTime))).Perm
        (w.failures.filter (Live ((w.now + elapsed : ℕ) - conf.banTime))) :=
      perm_live_later h.stored (by push_cast; omega)
    have hnew : ((addSlot ⟨ip, (w.now + elapsed : ℕ)⟩ ((w.now + elapsed : ℕ) - conf.banTime)
          w.passFailureList).1.filter (Live ((w.now + elapsed : ℕ) - conf.banTime))).Perm
        ((⟨ip, (w.now + elapsed : ℕ)⟩ :: w.failures).filter
          (Live ((w.now + elapsed : ℕ) - conf.banTime))) := by
      refine (addSlot_live hlive _).1.trans ?_
      rw [List.filter_cons_of_pos hlive]
      exact hold.cons _
    exact hnew
  · intro f hf
    rcases List.mem_cons.mp hf with rfl | hf
    · exact hip
    · exact h.ips f hf
  · intro s hs hsip
    have hold : s ∈ w.banList → 0 < s.banTime ∧ FailedOften conf
        (⟨ip, (w.now + elapsed : ℕ)⟩ :: w.failures) s.ip := fun hin =>
      ⟨(h.bans s hin hsip).1, failedOften_cons (h.bans s hin hsip).2⟩
    have hs' : s ∈ (addPassFailureBan conf (w.now + elapsed : ℕ) ip w.passFailureList
      w.banList).2 := hs
    unfold addPassFailureBan at hs'
    dsimp only at hs'
    rw [hcount] at hs'
    split at hs'
    next hmany =>
      rcases mem_addSlot hs' hsip with rfl | hin
      · refine ⟨by dsimp only; omega, ⟨ip, (w.now + elapsed : ℕ)⟩, w.failures,
          List.suffix_rfl, rfl, ?_⟩
        rw [failuresOf_cons, if_pos ⟨rfl, hle⟩]
        exact Int.le_of_eq hmany.symm
      · exact hold hin
    next => exact hold hs'

/-- What a check leaves. -/
theorem fine_check (h : w.Fine conf) (elapsed : ℕ) (ip : UInt32) :
    (banStep conf w (elapsed, .check ip)).Fine conf :=
  ⟨perm_live_later h.stored (by show _ ≤ ((w.now + elapsed : ℕ) : ℤ) - _; push_cast; omega), h.ips,
    fun s hs hip => h.bans s ((mem_checkBanlist hip).1 hs) hip⟩

/-- Where the invariant holds after a step, nobody is banned who has not failed too often, and no
failure is lost. -/
theorem only_of_fine (hconf : conf.Valid) (h : w.Fine conf) :
    (∀ ip, Banned conf w.now w.banList ip → FailedOften conf w.failures ip) ∧
      ∀ ip, storedOf ip (w.now - conf.banTime) w.passFailureList
        = failuresOf ip (w.now - conf.banTime) w.failures := by
  refine ⟨fun ip hb => ?_, fun ip => h.stored_eq le_rfl ip⟩
  obtain ⟨hip, s, hs, rfl, -⟩ :=
    (banned_iff hconf.ban fun s hs hip => (h.bans s hs hip).1).mp hb
  exact (h.bans s hs hip).2

/-- A check is right. -/
theorem right_check (hconf : conf.Valid) (h : w.Fine conf) (elapsed : ℕ) :
    BanStepRight conf w (elapsed, .check ip) := by
  obtain ⟨honly, hfailures⟩ := only_of_fine hconf (fine_check h elapsed ip)
  refine ⟨?_, honly, hfailures, fun s hs hlive => ?_⟩
  · rintro ip' ⟨⟩
  · exact (mem_checkBanlist (live_iff.mp hlive).1).2 hlive hs

/-- **A failure is right** if and only if it comes from an address that is banned if it has failed
too often already. -/
theorem right_failure_iff (hconf : conf.Valid) (h : w.Fine conf) (elapsed : ℕ) :
    BanStepRight conf w (elapsed, .failure ip) ↔ BanStepFine conf w (elapsed, .failure ip) := by
  rw [banStepFine_failure]
  by_cases hip : ip = 0
  · -- The slot stays free, and the failure is lost.
    refine iff_of_false (fun hright => ?_) fun h => h.1 hip
    have hlost := hright.failures 0
    have hstored : ∀ since l, storedOf 0 since l = 0 := by
      intro since l
      refine List.countP_eq_zero.mpr fun s _ hs => ?_
      rw [Bool.and_eq_true, decide_eq_true_eq] at hs
      exact (live_iff.mp hs.1).1 hs.2
    have hT := hconf.banTime
    have hone : failuresOf 0 ((w.now + elapsed : ℕ) - conf.banTime)
        (⟨ip, (w.now + elapsed : ℕ)⟩ :: w.failures) ≠ 0 := by
      rw [failuresOf_cons, if_pos ⟨hip, by dsimp only; omega⟩]
      omega
    rw [hstored] at hlost
    exact hone hlost.symm
  obtain ⟨hle, hlive, hcount⟩ := counter_eq hconf h elapsed hip
  obtain ⟨honly, hfailures⟩ := only_of_fine hconf (fine_failure hconf h elapsed hip)
  have hpos : ∀ s ∈ (banStep conf w (elapsed, .failure ip)).banList, s.ip ≠ 0 → 0 < s.banTime :=
    fun s hs hsip => ((fine_failure hconf h elapsed hip).bans s hs hsip).1
  have hmany : failuresOf ip ((w.now + elapsed : ℕ) - conf.banTime)
      (⟨ip, (w.now + elapsed : ℕ)⟩ :: w.failures)
        = failuresOf ip ((w.now + elapsed : ℕ) - conf.banTime) w.failures + 1 := by
    rw [failuresOf_cons, if_pos ⟨rfl, hle⟩]
  have hlist : (banStep conf w (elapsed, .failure ip)).banList
      = if ((failuresOf ip ((w.now + elapsed : ℕ) - conf.banTime) w.failures + 1 : ℕ) : ℤ)
          = conf.howMany
        then (addSlot ⟨ip, (w.now + elapsed : ℕ) + conf.howLong⟩ (w.now + elapsed : ℕ) w.banList).1
        else w.banList := by
    rw [← hcount]
    rfl
  have hL := hconf.howLong
  have hliveBan : Live (w.now + elapsed : ℕ) ⟨ip, (w.now + elapsed : ℕ) + conf.howLong⟩ :=
    live_iff.mpr ⟨hip, by dsimp only; omega⟩
  constructor
  · -- More failures than the threshold give no new ban.
    intro hright
    refine ⟨hip, fun hbefore => ?_⟩
    have hbanned := hright.banned ip rfl (by
      show conf.howMany ≤ (failuresOf ip ((w.now + elapsed : ℕ) - conf.banTime)
        (⟨ip, (w.now + elapsed : ℕ)⟩ :: w.failures) : ℤ)
      rw [hmany]
      omega)
    obtain ⟨-, hban⟩ := (banned_iff hconf.ban hpos).mp hbanned
    rw [hlist, if_neg (by omega)] at hban
    exact hban
  · rintro ⟨-, hfine⟩
    refine ⟨?_, honly, hfailures, fun s hs hslive => ?_⟩
    · rintro ip' heq henough
      obtain rfl : ip = ip' := BanEvent.failure.inj heq
      have henough' : conf.howMany ≤ (failuresOf ip ((w.now + elapsed : ℕ) - conf.banTime)
        (⟨ip, (w.now + elapsed : ℕ)⟩ :: w.failures) : ℤ) := henough
      rw [hmany] at henough'
      refine (banned_iff hconf.ban hpos).mpr ⟨hip, ?_⟩
      rw [hlist]
      split
      next =>
        have hin := (addSlot_live hliveBan w.banList).1.mem_iff.mpr List.mem_cons_self
        exact ⟨_, (List.mem_filter.mp hin).1, rfl, (live_iff.mp hliveBan).2⟩
      next hne => exact hfine (by omega)
    · rw [hlist]
      split
      next =>
        have hin := (addSlot_live hliveBan w.banList).1.mem_iff.mpr
          (List.mem_cons_of_mem _ (List.mem_filter.mpr ⟨hs, hslive⟩))
        exact (List.mem_filter.mp hin).1
      next => exact hs

/-- An empty list has no failures and no bans. -/
theorem fine_start (conf : BanConf) (now : ℕ) : (BanWorld.start now).Fine conf := by
  have hfree : ∀ since, (List.replicate 256 ({} : BanSlot)).filter (Live since) = [] := by
    intro since
    rw [List.filter_eq_nil_iff]
    intro s hs
    rw [List.eq_of_mem_replicate hs, live_free]
    decide
  refine ⟨?_, fun f hf => absurd hf List.not_mem_nil, fun s hs hip => ?_⟩
  · show ((List.replicate 256 ({} : BanSlot)).filter _).Perm _
    rw [hfree]
    rfl
  · rw [List.eq_of_mem_replicate hs] at hip
    exact absurd rfl hip

/-- **Banning addresses.** Every step of a run is right if and only if every failure of it comes
from an address, and from one with a ban if it has failed too often already. -/
theorem banRun_right_iff {conf : BanConf} (hban : conf.ban = true) (now : ℕ)
    (es : List (ℕ × BanEvent)) :
    Run.Meets (banStep (checkBanConf conf)) (BanStepRight (checkBanConf conf)) (.start now) es ↔
      Run.Meets (banStep (checkBanConf conf)) (BanStepFine (checkBanConf conf)) (.start now)
        es := by
  have hconf := valid_checkBanConf hban
  refine Run.meets_iff_of_kept (I := BanWorld.Fine (checkBanConf conf)) ?_ ?_
    (fine_start (checkBanConf conf) now)
  · rintro w ⟨elapsed, ip | ip⟩ hw hfine
    · exact fine_failure hconf hw elapsed (hfine ip rfl).1
    · exact fine_check hw elapsed ip
  · rintro w ⟨elapsed, ip | ip⟩ hw
    · exact right_failure_iff hconf hw elapsed
    · exact iff_of_true (right_check hconf hw elapsed) (banStepFine_check _ w elapsed ip)

/-- Three failures of an address, with another one between them, and a check. -/
theorem banRun_right_three :
    Run.Meets (banStep (checkBanConf {})) (BanStepRight (checkBanConf {})) (.start 1000000)
      [(0, .failure 5), (7, .failure 9), (1, .failure 5), (20, .failure 5), (3, .check 5),
        (400, .failure 5)] :=
  (banRun_right_iff rfl 1000000 _).mpr (by decide)

/-- With a ban that is shorter than the time in which failures count, the fourth failure is not
answered by a ban. -/
theorem banRun_wrong :
    ¬ Run.Meets (banStep (checkBanConf { howLong := 10 }))
      (BanStepRight (checkBanConf { howLong := 10 })) (.start 1000000)
      [(0, .failure 5), (0, .failure 5), (0, .failure 5), (11, .check 5), (0, .failure 5)] := by
  intro h
  obtain ⟨-, -, -, -, hlast, -⟩ := h
  exact absurd (hlast.banned 5 rfl (by decide)) (by decide)

end Steps

end Nezumi
