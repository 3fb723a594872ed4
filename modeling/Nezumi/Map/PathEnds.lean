import Mathlib.Algebra.BigOperators.Group.Finset.Basic
import Mathlib.Algebra.Order.BigOperators.Group.Finset
import Nezumi.Map.PathTracked

/-!
# The path search ends (`map/path.c`)

* `potential`: twice the distances of all entries and the number of entries in the heap. An entry
  that is written lowers it, whether it is new or opened again, and so does an entry that is taken.
* `searchGoal_ends`: a search has at most that many rounds.
* `exists_iterate_eq`: links to lower ranks lead to their root and meet no node twice.
* `pathSearch_terminates`: `path_search` ends, and the links from the goal lead to the start.
-/

namespace Nezumi

/-! ## The potential -/

/-- What the distance of an entry may still lose. An entry that has none may get any. -/
def slack (p : TmpPath) : Nat := if p.dist = 0 then 2 ^ 15 else p.dist.toNat

def potential (s : PathState) : Nat := 2 * ∑ i ∈ Finset.range 1024, slack (s.tp i) + s.heap 0

section Potential

variable {tp tp' : Nat → TmpPath} {i rp : Nat} {s s' : PathState}

/-- An entry that is written loses. -/
theorem Written.slack_lt {x y dist : Int} {dir before : Nat}
    (hw : Written tp tp' i x y dist dir before) (hi : i < 1024) (h0 : 0 < dist)
    (hle : dist ≤ 14 * 1024 + 14) (hu : (tp i).x = 0 → (tp i).y = 0 → (tp i).dist = 0) :
    ∑ j ∈ Finset.range 1024, slack (tp' j) < ∑ j ∈ Finset.range 1024, slack (tp j) := by
  obtain ⟨⟨p, rfl, -, -, rfl, -⟩, hlower⟩ := hw
  have hlt : slack p < slack (tp i) := by
    unfold slack
    split_ifs <;> omega
  refine Finset.sum_lt_sum (fun j _ => ?_) ⟨i, Finset.mem_range.2 hi, ?_⟩
  · rcases eq_or_ne j i with rfl | hne
    · rw [Function.update_self]
      exact hlt.le
    · rw [Function.update_of_ne hne]
  · rwa [Function.update_self]

theorem Added.potential_le {start : Nat} (h : Added start rp s s')
    (hu : ∀ i, (s.tp i).x = 0 → (s.tp i).y = 0 → (s.tp i).dist = 0) :
    potential s' ≤ potential s := by
  rcases h.wrote with rfl | ⟨hle, -, i, x, y, dist, dir, hi, h0, hmax, hw⟩
  · exact le_rfl
  · have hlt := hw.slack_lt hi h0 hmax (hu i)
    unfold potential
    omega

/-- The flag of an entry does not count. -/
theorem potential_flag (s : PathState) (rp : Nat) :
    potential { s with tp := Function.update s.tp rp { s.tp rp with flag := true } } =
      potential s := by
  unfold potential
  refine congrArg (2 * · + s.heap 0) (Finset.sum_congr rfl fun j _ => ?_)
  rcases eq_or_ne j rp with rfl | hne
  · dsimp only
    rw [Function.update_self]
    rfl
  · dsimp only
    rw [Function.update_of_ne hne]

end Potential

/-! ## The rounds -/

section Rounds

variable {m : MapData} {flag : BitVec 32} {x0 y0 x1 y1 x y : Int} {s s' : PathState} {rp : Nat}

/-- Looking at the neighbours does not raise the potential. -/
theorem addNeighbours_potential (dirs : List (Nat × Int)) {e e' : Nat}
    (h : Reaches m flag x0 y0 x1 y1 (.expands rp x y dirs e) s)
    (he : addNeighbours m flag x1 y1 rp x y dirs (s, e) = some (s', e')) :
    potential s' ≤ potential s := by
  induction dirs generalizing s e with
  | nil =>
    obtain ⟨rfl, -⟩ := Prod.mk.inj (Option.some.inj he)
    exact le_rfl
  | cons d rest ih =>
    unfold addNeighbours at he
    by_cases hmove : canMove m x y (x + dirx d.1) (y + diry d.1) flag = true
    · obtain ⟨s₁, e₁, hadd, hadded⟩ := h.addPath hmove
      rw [if_pos hmove, hadd, Option.bind_some] at he
      exact (ih (h.add hmove hadd) he).trans (hadded.potential_le h.holds.1.1.unused)
    · rw [if_neg hmove] at he
      exact ih (h.blocked (by simpa using hmove)) he

/-- A round ends the search, or goes on with a lower potential. -/
theorem searchGoal_round (h : Reaches m flag x0 y0 x1 y1 .loop s) :
    (∃ r, r ≠ .outOfFuel ∧ ∀ fuel, searchGoal m x1 y1 flag (fuel + 1) s = r) ∨
      ∃ s', Reaches m flag x0 y0 x1 y1 .loop s' ∧ potential s' < potential s ∧
        ∀ fuel, searchGoal m x1 y1 flag (fuel + 1) s = searchGoal m x1 y1 flag fuel s' := by
  by_cases hpos : s.heap 0 = 0
  · exact .inl ⟨.noPath, by simp, fun fuel => by rw [searchGoal, if_pos hpos]⟩
  · obtain ⟨rp, heap, hpop⟩ : ∃ rp heap, popHeapPath s.heap s.tp = (rp, heap) := ⟨_, _, rfl⟩
    obtain ⟨-, -, hzero, -, -⟩ := h.tracked.1.pop hpos hpop
    have hpopped : potential { s with heap } < potential s := by
      unfold potential
      dsimp only
      omega
    obtain ⟨s', e', he, h'⟩ := addNeighbours_reaches neighbours (h.pop hpos hpop)
    have hadded := addNeighbours_potential neighbours (h.pop hpos hpop) he
    by_cases hgoal : (s.tp rp).x = x1 ∧ (s.tp rp).y = y1
    · refine .inl ⟨.goal s.tp rp, by simp, fun fuel => ?_⟩
      rw [searchGoal, if_neg hpos, hpop]
      exact if_pos hgoal
    · have hround : ∀ fuel, searchGoal m x1 y1 flag (fuel + 1) s =
          if e' ≠ 0 ∨ maxHeap - 5 ≤ s'.heap 0 then .noPath
          else searchGoal m x1 y1 flag fuel
            { s' with tp := Function.update s'.tp rp { s'.tp rp with flag := true } } := by
        intro fuel
        rw [searchGoal, if_neg hpos, hpop]
        dsimp only
        rw [if_neg hgoal, he]
      by_cases hend : e' ≠ 0 ∨ maxHeap - 5 ≤ s'.heap 0
      · exact .inl ⟨.noPath, by simp, fun fuel => by rw [hround, if_pos hend]⟩
      · refine .inr ⟨_, ?_, ?_, fun fuel => by rw [hround, if_neg hend]⟩
        · push Not at hend
          obtain rfl : e' = 0 := hend.1
          exact h'.expanded hend.2
        · rw [potential_flag]
          exact hadded.trans_lt hpopped

/-- **The loop of the search ends** after at most as many rounds as the potential says, and more
rounds than that change nothing. -/
theorem searchGoal_ends (fuel : Nat) (h : Reaches m flag x0 y0 x1 y1 .loop s)
    (hlt : potential s < fuel) :
    searchGoal m x1 y1 flag fuel s ≠ .outOfFuel ∧
      ∀ k, searchGoal m x1 y1 flag (fuel + k) s = searchGoal m x1 y1 flag fuel s := by
  induction fuel generalizing s with
  | zero => omega
  | succ fuel ih =>
    have hadd : ∀ k, fuel + 1 + k = fuel + k + 1 := fun k => by omega
    rcases searchGoal_round h with ⟨r, hr, hround⟩ | ⟨s', h', hless, hround⟩
    · rw [hround]
      exact ⟨hr, fun k => by rw [hadd, hround]⟩
    · rw [hround]
      obtain ⟨hends, hmore⟩ := ih h' (by omega)
      exact ⟨hends, fun k => by rw [hadd, hround, hmore]⟩

end Rounds

/-! ## The links back -/

section Links

/-- Links that lead to a lower rank or to the root lead to the root, and meet no node twice before.
-/
theorem exists_iterate_eq {α : Type*} {P : α → Prop} (f : α → α) (rank : α → ℕ) (root : α)
    (hf : ∀ a, P a → a ≠ root → P (f a) ∧ (f a = root ∨ rank (f a) < rank a)) {a : α} (ha : P a) :
    ∃ k, f^[k] a = root ∧ (∀ i, i ≤ k → P (f^[i] a)) ∧
      ∀ i j, i < j → j ≤ k → f^[i] a ≠ f^[j] a := by
  classical
  have hex : ∀ n a, P a → rank a = n → ∃ k, f^[k] a = root := by
    intro n
    induction n using Nat.strong_induction_on with
    | _ n ih =>
      rintro a ha rfl
      by_cases hroot : a = root
      · exact ⟨0, hroot⟩
      · obtain ⟨hfa, hnext⟩ := hf a ha hroot
        rcases hnext with hnext | hless
        · exact ⟨1, hnext⟩
        · obtain ⟨k, hk⟩ := ih _ hless _ hfa rfl
          exact ⟨k + 1, hk⟩
  have hk := hex _ a ha rfl
  refine ⟨Nat.find hk, Nat.find_spec hk, fun i hi => ?_, fun i j hij hj heq => ?_⟩
  · induction i with
    | zero => exact ha
    | succ i ih =>
      rw [Function.iterate_succ_apply']
      exact (hf _ (ih (by omega)) (Nat.find_min hk (by omega))).1
  · -- the rest of the way from the second visit would lead from the first one, too
    refine Nat.find_min hk (m := i + (Nat.find hk - j)) (by omega) ?_
    rw [Nat.add_comm, Function.iterate_add_apply, heq, ← Function.iterate_add_apply,
      Nat.sub_add_cancel hj]
    exact Nat.find_spec hk

variable {start : Nat} {rp : Option Nat} {s : PathState} {i k : Nat}

/-- The link of an entry in use leads to the start, or to another one that is nearer to it. -/
theorem Tracked.before (h : Tracked start rp s) (hi : InUse start s.tp i) (hne : i ≠ start) :
    InUse start s.tp (s.tp i).before ∧ ((s.tp i).before = start ∨
      (s.tp (s.tp i).before).dist.toNat < (s.tp i).dist.toNat) := by
  have hpos := hi.resolve_left hne
  obtain ⟨-, a, b, -, -, hlink⟩ := h.link i hpos
  rcases hlink with ⟨-, -, hb⟩ | ⟨-, -, hq, hqd⟩
  · exact ⟨.inl hb, .inl hb⟩
  · exact ⟨hq, .inr (by omega)⟩

/-- The first loop of the way back counts the links up to the start, if there are not too many. -/
theorem countBack_eq {tp : Nat → TmpPath} (hk : (fun i => (tp i).before)^[k] i = start)
    (hmin : ∀ j, j < k → (fun i => (tp i).before)^[j] i ≠ start) (bound : Nat) :
    countBack tp start bound i = min k bound := by
  induction bound generalizing i k with
  | zero => exact (Nat.min_zero k).symm
  | succ bound ih =>
    unfold countBack
    cases k with
    | zero =>
      have hroot : i = start := hk
      rw [if_pos hroot]
      exact (Nat.zero_min _).symm
    | succ k =>
      have hroot : i ≠ start := hmin 0 (by omega)
      rw [if_neg hroot, ih (k := k) hk fun j hj => hmin (j + 1) (by omega)]
      omega

end Links

/-! ## The whole search -/

/-- As many rounds as a search can have. -/
def searchRounds : Nat := 2 * (1024 * 2 ^ 15) + 2

/-- The search ends, and more rounds give nothing else. The links from the goal that it has found
lead to the start without meeting an entry twice, and the way back follows them up to there. -/
structure PathSearchEnds (m : MapData) (x0 y0 x1 y1 : Int) (flag : BitVec 32) : Prop where
  ends : pathSearch m searchRounds x0 y0 x1 y1 flag ≠ .outOfFuel
  enough : ∀ fuel, searchRounds ≤ fuel →
    pathSearch m fuel x0 y0 x1 y1 flag = pathSearch m searchRounds x0 y0 x1 y1 flag
  back : ∀ fuel tp rp, findPath m fuel x0 y0 x1 y1 flag = .goal tp rp → ∃ k < 1024,
    (fun i => (tp i).before)^[k] rp = calcIndex x0 y0 ∧
      (∀ i j, i < j → j ≤ k → (fun i => (tp i).before)^[i] rp ≠ (fun i => (tp i).before)^[j] rp) ∧
      ∀ bound, countBack tp (calcIndex x0 y0) bound rp = min k bound

section Whole

variable {m : MapData} {flag : BitVec 32} {x0 y0 x1 y1 : Int}

theorem potential_searchStart (x0 y0 x1 y1 : Int) :
    potential (searchStart x0 y0 x1 y1) < searchRounds := by
  have hheap : (searchStart x0 y0 x1 y1).heap 0 = 1 :=
    (entries_push (fun _ => 0) (searchStart x0 y0 x1 y1).tp (calcIndex x0 y0)).2.1
  have hslack : ∀ i ∈ Finset.range 1024, slack ((searchStart x0 y0 x1 y1).tp i) = 2 ^ 15 :=
    fun i _ => if_pos (searchStart_dist x0 y0 x1 y1 i).1
  unfold potential searchRounds
  rw [Finset.sum_const_nat hslack, Finset.card_range, hheap]
  omega

/-- The links back from an entry in use. -/
theorem Tracked.back {start rp : Nat} {top : Option Nat} {s : PathState} (h : Tracked start top s)
    (hrp : InUse start s.tp rp) : ∃ k < 1024, (fun i => (s.tp i).before)^[k] rp = start ∧
      ∀ i j, i < j → j ≤ k →
        (fun i => (s.tp i).before)^[i] rp ≠ (fun i => (s.tp i).before)^[j] rp := by
  obtain ⟨k, hk, huse, hne⟩ := exists_iterate_eq (P := InUse start s.tp)
    (fun i => (s.tp i).before) (fun i => (s.tp i).dist.toNat) start
    (fun i hi hroot => h.before hi hroot) hrp
  refine ⟨k, ?_, hk, hne⟩
  have hcard : (Finset.range (k + 1)).card ≤ (Finset.range 1024).card := by
    refine Finset.card_le_card_of_injOn (fun i => (fun i => (s.tp i).before)^[i] rp) ?_ ?_
    · intro i hi
      have hle : i < k + 1 := by simpa using hi
      have hidx := h.index _ (huse i (by omega))
      dsimp only
      rw [← hidx]
      exact Finset.mem_coe.2 (Finset.mem_range.2 (calcIndex_lt ..))
    · intro i hi j hj heq
      have hik : i < k + 1 := by simpa using hi
      have hjk : j < k + 1 := by simpa using hj
      rcases Nat.lt_trichotomy i j with hlt | rfl | hlt
      · exact absurd heq (hne i j hlt (by omega))
      · rfl
      · exact absurd heq.symm (hne j i hlt (by omega))
  rw [Finset.card_range, Finset.card_range] at hcard
  omega

/-- **The path search terminates**, and its links lead back. -/
theorem pathSearch_terminates (m : MapData) (x0 y0 x1 y1 : Int) (flag : BitVec 32) :
    PathSearchEnds m x0 y0 x1 y1 flag := by
  have hstart : Reaches m flag x0 y0 x1 y1 .loop (searchStart x0 y0 x1 y1) := Reaches.start
  obtain ⟨hends, hmore⟩ := searchGoal_ends searchRounds hstart (potential_searchStart x0 y0 x1 y1)
  refine ⟨?_, fun fuel hle => ?_, fun fuel tp rp hgoal => ?_⟩
  · unfold pathSearch
    rcases findPath_cases m x0 y0 x1 y1 flag with h | ⟨path, h⟩ | h
    · rw [h]
      simp
    · rw [h]
      simp
    · rw [h]
      cases hend : searchGoal m x1 y1 flag searchRounds (searchStart x0 y0 x1 y1) with
      | goal tp rp => rcases pathBack_cases tp rp x0 y0 with hback | ⟨path, hback⟩ <;> simp [hback]
      | outOfFuel => exact absurd hend hends
      | _ => simp
  · obtain ⟨k, rfl⟩ := Nat.exists_eq_add_of_le hle
    have hfind : findPath m (searchRounds + k) x0 y0 x1 y1 flag =
        findPath m searchRounds x0 y0 x1 y1 flag := by
      rcases findPath_cases m x0 y0 x1 y1 flag with h | ⟨path, h⟩ | h
      · rw [h, h]
      · rw [h, h]
      · rw [h, h, hmore]
    unfold pathSearch
    rw [hfind]
  · rcases findPath_cases m x0 y0 x1 y1 flag with h | ⟨path, h⟩ | h
    · simp [h] at hgoal
    · simp [h] at hgoal
    · rw [h] at hgoal
      obtain ⟨s, heap, hs, hpos, rfl, hpop⟩ := (searchGoal_reaches fuel hstart).2 tp rp hgoal
      obtain ⟨-, huse, -⟩ := hs.tracked.1.pop hpos hpop
      obtain ⟨k, hlt, hk, hne⟩ := hs.tracked.1.back huse
      refine ⟨k, hlt, hk, hne, countBack_eq hk fun j hj heq => ?_⟩
      exact hne j k hj le_rfl (heq.trans hk.symm)

end Whole

end Nezumi
