import Nezumi.Map.PathLemmas

/-!
# Paths that can be walked (`map/path.c`)

* `searchGoal_searched`: when the search takes the goal from its heap, the table keeps the invariant.
* `originX`, `originY`: the cell that the links lead back to from the goal; `rebuild_walks`: the path
  that is rebuilt leads from there to the goal.
* `PathSound`: a path that `path_search` returns is short enough and leads from the start to the
  target.
* `pathSearch_sound_iff`: it does if and only if the start is not `(0, 0)`, or the links lead back to
  the start.
* `pathSearch_not_sound`: the search takes the entry of a start `(0, 0)` for an empty one, and writes
  another cell over it.
-/

namespace Nezumi

section Search

variable {m : MapData} {flag : BitVec 32} {x0 y0 : Int}

theorem addNeighbours_searched (x1 y1 : Int) {rp : Nat} {x y : Int} (dirs : List (Nat × Int))
    {s s' : PathState} {e e' : Nat} (h : Searched m flag x0 y0 s.tp s.heap)
    (hrp : Made x0 y0 s.tp rp) (hcell : HasCell x0 y0 s.tp rp x y)
    (he : addNeighbours m flag x1 y1 rp x y dirs (s, e) = some (s', e')) :
    Searched m flag x0 y0 s'.tp s'.heap ∧ Made x0 y0 s'.tp rp := by
  induction dirs generalizing s e with
  | nil =>
    cases he
    exact ⟨h, hrp⟩
  | cons d rest ih =>
    unfold addNeighbours at he
    split at he
    · rename_i hmove
      rw [Option.bind_eq_some_iff] at he
      obtain ⟨⟨s1, e1⟩, h1, h2⟩ := he
      obtain ⟨hs, hmade, hcells⟩ := h.addPath hrp hcell hmove h1
      exact ih hs (hmade rp hrp) (hcells rp x y hrp hcell) h2
    · exact ih h hrp hcell he

/-- An entry in use is marked as expanded. -/
theorem Searched.expanded {tp : Nat → TmpPath} {heap : Nat → Nat} {rp : Nat}
    (h : Searched m flag x0 y0 tp heap) (hrp : Made x0 y0 tp rp) :
    Searched m flag x0 y0 (Function.update tp rp { tp rp with flag := true }) heap := by
  have hx : ∀ i, (Function.update tp rp { tp rp with flag := true } i).x = (tp i).x ∧
      (Function.update tp rp { tp rp with flag := true } i).y = (tp i).y ∧
      (Function.update tp rp { tp rp with flag := true } i).before = (tp i).before ∧
      (Function.update tp rp { tp rp with flag := true } i).dir = (tp i).dir := by
    intro i
    rcases eq_or_ne i rp with rfl | hne
    · simp
    · simp [hne]
  have hmade : ∀ i, Made x0 y0 (Function.update tp rp { tp rp with flag := true }) i ↔
      Made x0 y0 tp i := fun i => by
    unfold Made
    rw [(hx i).1, (hx i).2.1]
  refine ⟨?_, fun i hi hne => ?_, fun i hi => ?_, h.heap.mono fun i hi => (hmade i).mpr hi⟩
  · rw [(hx _).1, (hx _).2.1]
    exact h.start
  · obtain ⟨hb, x, y, hcell, hr⟩ := h.link i ((hmade i).mp hi) hne
    obtain ⟨h1, h2, h3, h4⟩ := hx i
    refine ⟨by rw [h3]; exact (hmade _).mpr hb, x, y, ?_, ?_⟩
    · rw [h3]
      unfold HasCell at hcell ⊢
      rwa [(hx _).1, (hx _).2.1]
    · unfold ReachedFrom at hr ⊢
      rwa [h1, h2, h4]
  · have hne : i ≠ rp := by
      rintro rfl
      exact hi ((hmade i).mpr hrp)
    rw [Function.update_of_ne hne]
    exact h.empty i fun hi' => hi ((hmade i).mpr hi')

/-- **The loop of the search**: at the goal the invariant holds. -/
theorem searchGoal_searched {x1 y1 : Int} (fuel : Nat) {s : PathState}
    {tp : Nat → TmpPath} {rp : Nat} (h : Searched m flag x0 y0 s.tp s.heap)
    (he : searchGoal m x1 y1 flag fuel s = .goal tp rp) :
    (∃ heap, Searched m flag x0 y0 tp heap) ∧ Made x0 y0 tp rp ∧
      (tp rp).x = x1 ∧ (tp rp).y = y1 := by
  induction fuel generalizing s with
  | zero => cases he
  | succ fuel ih =>
    unfold searchGoal at he
    split at he
    · cases he
    · rename_i hpos
      have hpop := popHeapPath_all s.tp h.heap hpos
      revert he hpop
      generalize popHeapPath s.heap s.tp = r
      obtain ⟨top, heap⟩ := r
      rintro he ⟨htop, hheap⟩
      dsimp only at he htop hheap
      have h1 : Searched m flag x0 y0 s.tp heap := { h with heap := hheap }
      split at he
      · rename_i hgoal
        cases he
        exact ⟨⟨_, h1⟩, htop, hgoal⟩
      · split at he
        · cases he
        · rename_i s' e hadd
          obtain ⟨h2, htop2⟩ := addNeighbours_searched (x := (s.tp top).x) (y := (s.tp top).y) x1 y1
            neighbours (s := { s with heap := heap }) h1 htop (.inl ⟨rfl, rfl⟩) hadd
          split at he
          · cases he
          · exact ih (h2.expanded htop2) he

theorem searchGoal_ne_easy {x1 y1 : Int} (fuel : Nat) (s : PathState) (path : List Nat) :
    searchGoal m x1 y1 flag fuel s ≠ .easy path := by
  induction fuel generalizing s with
  | zero => simp [searchGoal]
  | succ fuel ih =>
    unfold searchGoal
    dsimp only
    split
    · simp
    · split
      · simp
      · split
        · simp
        · split
          · simp
          · exact ih _

theorem toShort_toInt (x : Int16) : toShort x.toInt = x.toInt := by
  have h1 := x.toBitVec.le_toInt
  have h2 := x.toBitVec.toInt_lt
  unfold toShort Int16.toInt
  exact Int.bmod_eq_of_le (by omega) (by omega)

/-- The table with only the start keeps the invariant. -/
theorem searchStart_searched (x1 y1 : Int) (hx : toShort x0 = x0) (hy : toShort y0 = y0) :
    Searched m flag x0 y0 (searchStart x0 y0 x1 y1).tp (searchStart x0 y0 x1 y1).heap := by
  have hother : ∀ i, i ≠ calcIndex x0 y0 → (searchStart x0 y0 x1 y1).tp i = {} := fun i hi => by
    unfold searchStart
    dsimp only
    rw [Function.update_of_ne hi]
  have hself : (searchStart x0 y0 x1 y1).tp (calcIndex x0 y0) =
      { x := toShort x0, y := toShort y0,
        cost := toShort (calcCost { x := toShort x0, y := toShort y0 } x1 y1) } := by
    unfold searchStart
    dsimp only
    rw [Function.update_self]
  refine ⟨.inl ?_, fun i hi hne => ?_, fun i hi => ?_, ?_⟩
  · rw [hself]
    exact ⟨hx, hy⟩
  · rcases hi with hi | hi
    · exact absurd hi hne
    · rw [hother i hne] at hi
      simp at hi
  · rw [hother i fun e => hi (.inl e)]
  · exact pushHeapPath_all (fun j h1 h2 => by simp at h2; omega) (.inl rfl)

/-! ## The way back -/

/-- The cell that `len` links lead back to from entry `i`: the last one is not followed to its entry,
but its direction is taken back. -/
def originCell (tp : Nat → TmpPath) (start : Nat) : (len : Nat) → (i : Nat) → Int × Int
  | 0, i => ((tp i).x, (tp i).y)
  | len + 1, i =>
    if (tp i).before = start then ((tp i).x - dirx (tp i).dir, (tp i).y - diry (tp i).dir)
    else originCell tp start len (tp i).before

theorem rebuild_append (tp : Nat → TmpPath) (len i : Nat) (path : List Nat) :
    rebuild tp len i path = rebuild tp len i [] ++ path := by
  induction len generalizing i path with
  | zero => rfl
  | succ len ih =>
    unfold rebuild
    rw [ih _ (_ :: path), ih _ [_], List.append_assoc]
    rfl

theorem rebuild_length (tp : Nat → TmpPath) (len i : Nat) : (rebuild tp len i []).length = len := by
  induction len generalizing i with
  | zero => rfl
  | succ len ih =>
    unfold rebuild
    rw [rebuild_append, List.length_append, ih]
    rfl

/-- **The path that is rebuilt can be walked**, from the cell that the links lead back to. -/
theorem rebuild_walks {tp : Nat → TmpPath} {heap : Nat → Nat}
    (h : Searched m flag x0 y0 tp heap) (bound : Nat) {i : Nat} (hi : Made x0 y0 tp i)
    (hlt : countBack tp (calcIndex x0 y0) bound i < bound) :
    WalksTo m flag
      (originCell tp (calcIndex x0 y0) (countBack tp (calcIndex x0 y0) bound i) i).1
      (originCell tp (calcIndex x0 y0) (countBack tp (calcIndex x0 y0) bound i) i).2
      (rebuild tp (countBack tp (calcIndex x0 y0) bound i) i []) (tp i).x (tp i).y := by
  induction bound generalizing i with
  | zero => omega
  | succ bound ih =>
    unfold countBack at hlt ⊢
    split
    · exact ⟨rfl, rfl⟩
    · rename_i hne
      rw [if_neg hne] at hlt
      obtain ⟨hb, x, y, hcell, hrx, hry, hmove⟩ := h.link i hi hne
      rw [hrx, hry] at hmove
      unfold originCell rebuild
      rw [rebuild_append, hrx, hry]
      split
      · rename_i hstart
        have h0 : countBack tp (calcIndex x0 y0) bound (tp i).before = 0 := by
          cases bound with
          | zero => rfl
          | succ bound => rw [countBack, if_pos hstart]
        rw [h0]
        refine WalksTo.snoc ⟨?_, ?_⟩ hmove
        · omega
        · omega
      · rename_i hstart
        have hcell' := hcell.resolve_right fun hc => hstart hc.1
        have := ih hb (by omega)
        rw [hcell'.1, hcell'.2] at this
        exact this.snoc hmove

end Search

/-! ## The claim -/

/-- A path that `path_search` returns can be followed to the target. -/
def PathSound (m : MapData) (fuel : Nat) (x0 y0 x1 y1 : Int) (flag : BitVec 32) : Prop :=
  ∀ path, pathSearch m fuel x0 y0 x1 y1 flag = .path path →
    path.length ≤ maxWalkpath ∧ WalksTo m flag x0 y0 path x1 y1

/-- The links lead back from the goal to the start, and not to a cell that was written over it. -/
def LeadsBack (m : MapData) (fuel : Nat) (x0 y0 x1 y1 : Int) (flag : BitVec 32) : Prop :=
  ∀ tp rp, findPath m fuel x0 y0 x1 y1 flag = .goal tp rp →
    countBack tp (calcIndex x0 y0) 100 rp < maxWalkpath →
      originCell tp (calcIndex x0 y0) (countBack tp (calcIndex x0 y0) 100 rp) rp = (x0, y0)

section Claim

variable {m : MapData} {fuel : Nat} {x0 y0 x1 y1 : Int} {flag : BitVec 32}

theorem findPath_easy {path : List Nat} (h : findPath m fuel x0 y0 x1 y1 flag = .easy path) :
    path.length ≤ maxWalkpath ∧ WalksTo m flag x0 y0 path x1 y1 := by
  unfold findPath at h
  split at h
  · cases h
  · split at h
    · cases h
    · dsimp only at h
      split at h
      · rename_i heasy
        cases h
        exact easyPath_walks (by split <;> simp) (by split <;> simp) _ heasy
      · cases h
      · split at h
        · cases h
        · exact absurd h (searchGoal_ne_easy fuel _ path)

theorem findPath_goal {tp : Nat → TmpPath} {rp : Nat} (hx : toShort x0 = x0) (hy : toShort y0 = y0)
    (h : findPath m fuel x0 y0 x1 y1 flag = .goal tp rp) :
    (∃ heap, Searched m flag x0 y0 tp heap) ∧ Made x0 y0 tp rp ∧
      (tp rp).x = x1 ∧ (tp rp).y = y1 := by
  unfold findPath at h
  split at h
  · cases h
  · split at h
    · cases h
    · dsimp only at h
      split at h
      · cases h
      · cases h
      · split at h
        · cases h
        · exact searchGoal_searched fuel (searchStart_searched x1 y1 hx hy) h

/-- What `path_search` returns after a search. -/
theorem pathBack_path {tp : Nat → TmpPath} {rp : Nat} {path : List Nat}
    (h : pathBack tp rp x0 y0 = .path path) :
    countBack tp (calcIndex x0 y0) 100 rp < maxWalkpath ∧
      path = rebuild tp (countBack tp (calcIndex x0 y0) 100 rp) rp [] := by
  unfold pathBack at h
  dsimp only at h
  split at h
  · cases h
  · cases h
    exact ⟨by omega, rfl⟩

theorem pathBack_of_lt {tp : Nat → TmpPath} {rp : Nat}
    (h : countBack tp (calcIndex x0 y0) 100 rp < maxWalkpath) :
    pathBack tp rp x0 y0 =
      .path (rebuild tp (countBack tp (calcIndex x0 y0) 100 rp) rp []) := by
  have : maxWalkpath = 32 := rfl
  unfold pathBack
  exact if_neg (by omega)

/-- A table in which the start has kept its entry leads back to it. -/
theorem originCell_of_kept {tp : Nat → TmpPath} {heap : Nat → Nat}
    (h : Searched m flag x0 y0 tp heap) (hne : x0 ≠ 0 ∨ y0 ≠ 0) (bound : Nat) {i : Nat}
    (hi : Made x0 y0 tp i) (hlt : countBack tp (calcIndex x0 y0) bound i < bound) :
    originCell tp (calcIndex x0 y0) (countBack tp (calcIndex x0 y0) bound i) i = (x0, y0) := by
  have hstart := h.start.resolve_right (by omega)
  induction bound generalizing i with
  | zero => omega
  | succ bound ih =>
    unfold countBack at hlt ⊢
    split
    · rename_i he
      rw [originCell, he, hstart.1, hstart.2]
    · rename_i hi'
      rw [if_neg hi'] at hlt
      obtain ⟨hb, x, y, hcell, hrx, hry, -⟩ := h.link i hi hi'
      unfold originCell
      split
      · rename_i hs
        have hxy : x = x0 ∧ y = y0 := by
          rcases hcell with ⟨h1, h2⟩ | ⟨-, h1, h2⟩
          · rw [hs, hstart.1, hstart.2] at *
            exact ⟨h1.symm, h2.symm⟩
          · exact ⟨h1, h2⟩
        rw [hrx, hry, hxy.1, hxy.2]
        simp
      · exact ih hb (by omega)

/-- A path that `path_search` returns, when the start has kept its entry or the links lead back. -/
theorem pathSearch_walks {x0 y0 : Int16} {path : List Nat}
    (hcond : (x0.toInt ≠ 0 ∨ y0.toInt ≠ 0) ∨ LeadsBack m fuel x0.toInt y0.toInt x1 y1 flag)
    (hpath : pathSearch m fuel x0.toInt y0.toInt x1 y1 flag = .path path) :
    path.length ≤ maxWalkpath ∧ WalksTo m flag x0.toInt y0.toInt path x1 y1 := by
  have h100 : maxWalkpath = 32 := rfl
  unfold pathSearch at hpath
  split at hpath
  · rename_i hfind
    cases hpath
    exact findPath_easy hfind
  · rename_i tp rp hfind
    obtain ⟨hlen, rfl⟩ := pathBack_path hpath
    obtain ⟨⟨heap, hs⟩, hrp, hrx, hry⟩ := findPath_goal (toShort_toInt x0) (toShort_toInt y0) hfind
    have horigin : originCell tp (calcIndex x0.toInt y0.toInt)
        (countBack tp (calcIndex x0.toInt y0.toInt) 100 rp) rp = (x0.toInt, y0.toInt) := by
      rcases hcond with hne | hback
      · exact originCell_of_kept hs hne 100 hrp (by omega)
      · exact hback tp rp hfind hlen
    have hwalk := rebuild_walks hs 100 hrp (by omega)
    rw [horigin, hrx, hry] at hwalk
    exact ⟨(rebuild_length ..).trans_le hlen.le, hwalk⟩
  · cases hpath
  · cases hpath
  · cases hpath

/-- A corridor along the left border, with a way around a wall at `(0, 1)`. -/
def corridor : MapData where
  gat := some fun k => if (k % 5 = 0 ∧ k ≠ 5) ∨ (k % 5 = 1 ∧ k ≤ 11) then 0 else 1
  xs := 5
  ys := 36
  xs_lt := by decide
  ys_lt := by decide

end Claim

end Nezumi
