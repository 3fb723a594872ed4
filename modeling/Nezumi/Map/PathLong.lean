import Nezumi.Lib.Line
import Nezumi.Map.Path

/-!
# The line between two cells (`map/path.c`)

`path_search_long` asks whether one can shoot from one cell to the other: it looks for walls along a
line. The ends are exchanged so that it goes to the right. Both coordinates accumulate an error.

* `LongSearch` is what a search finds, the cells at which it has looked and those of its steps.
* `pathSearchLong`: the function. Its loop has no result when it takes more rounds than the fuel.
* `pathSearchLong_line`: the loop ends, after as many single steps as the longer side of the box of the
  two cells is long if no cell is a wall. It looks at cells of the box only, and finds the same from the
  other end.
-/

namespace Nezumi

open Line

/-- `CELL_CHKWALL`. The cells outside of the map have type `0`. -/
def chkWall (m : MapData) (c : ℤ × ℤ) : Bool := mapGetcellp m c.1 c.2 .getType = 1

structure LongSearch where
  result : Bool
  looked : List (ℤ × ℤ) := []
  walked : List (ℤ × ℤ) := []

/-- The error and the coordinate after a step to the right. -/
def stepRight (dx weight wx x0 : ℤ) : ℤ × ℤ :=
  if weight ≤ wx + dx then (wx + dx - weight, x0 + 1) else (wx + dx, x0)

/-- The error and the coordinate after a step up or down. -/
def stepAlong (dy weight wy y0 : ℤ) : ℤ × ℤ :=
  if weight ≤ wy + dy then (wy + dy - weight, y0 + 1)
  else if wy + dy < 0 then (wy + dy + weight, y0 - 1)
  else (wy + dy, y0)

/-- The loop of `path_search_long`. -/
def longLoop (m : MapData) (x1 y1 dx dy weight : ℤ) : ℕ → ℤ → ℤ → ℤ → ℤ → Option LongSearch
  | 0, _, _, _, _ => none
  | f + 1, x0, y0, wx, wy =>
    if x0 ≠ x1 ∨ y0 ≠ y1 then
      if chkWall m (x0, y0) then some { result := false, looked := [(x0, y0)] }
      else
        let x := stepRight dx weight wx x0
        let y := stepAlong dy weight wy y0
        (longLoop m x1 y1 dx dy weight f x.2 y.2 x.1 y.1).map fun r =>
          { r with looked := (x0, y0) :: r.looked, walked := (x.2, y.2) :: r.walked }
    else some { result := true }

/-- `path_search_long` from the left to the right. -/
def searchRight (m : MapData) (fuel : ℕ) (x0 y0 x1 y1 : ℤ) : Option LongSearch :=
  let dx := x1 - x0
  let dy := y1 - y0
  if chkWall m (x1, y1) then some { result := false, looked := [(x1, y1)] }
  else
    let weight := if |dy| < dx then dx else |y1 - y0|
    (longLoop m x1 y1 dx dy weight fuel x0 y0 0 0).map fun r =>
      { r with looked := (x1, y1) :: r.looked }

/-- `path_search_long` -/
def pathSearchLong (m : MapData) (fuel : ℕ) (x0 y0 x1 y1 : ℤ) : Option LongSearch :=
  if m.gat = none then some { result := false }
  else if x1 - x0 < 0 then searchRight m fuel x1 y1 x0 y0
  else searchRight m fuel x0 y0 x1 y1

/-! ## The loop -/

section Loop

variable {m : MapData} {a d : ℤ × ℤ} {w : ℤ}

theorem stepRight_eq {dx weight wx x0 : ℤ} (h : 0 ≤ wx + dx) :
    stepRight dx weight wx x0 = (advance dx weight (x0, wx)).swap := by
  unfold stepRight advance
  dsimp only
  split
  · rfl
  · rw [if_neg (by omega)]
    rfl

theorem stepAlong_eq (dy weight wy y0 : ℤ) :
    stepAlong dy weight wy y0 = (advance dy weight (y0, wy)).swap := by
  unfold stepAlong advance
  dsimp only
  split
  · rfl
  · split <;> rfl

/-- What the loop finds from step `k` on. -/
structure LoopFinds (m : MapData) (a d : ℤ × ℤ) (w k : ℤ) (r : LongSearch) : Prop where
  result : r.result = true ↔ ∀ i, k ≤ i → i < w → chkWall m (point a d w i) = false
  looked : ∀ c ∈ r.looked, ∃ i, k ≤ i ∧ i < w ∧ c = point a d w i
  walked : ∀ c ∈ r.walked, ∃ i, k < i ∧ i ≤ w ∧ c = point a d w i
  steps : r.result = true → r.walked.length = (w - k).toNat ∧
    List.IsChain UnitStep (point a d w k :: r.walked) ∧
    (point a d w k :: r.walked).getLast? = some (point a d w w)
  blocked : r.result = false → ∃ c ∈ r.looked, chkWall m c = true

/-- The loop is at the end of the line. -/
theorem loopFinds_end : LoopFinds m a d w w { result := true } where
  result := iff_of_true rfl fun i hi hw => absurd hw (not_lt.mpr hi)
  looked _ hc := absurd hc List.not_mem_nil
  walked _ hc := absurd hc List.not_mem_nil
  steps _ := ⟨by simp, List.isChain_singleton _, rfl⟩
  blocked h := nomatch h

/-- The cell is a wall. -/
theorem loopFinds_wall {k : ℤ} (hk : k < w) (hwall : chkWall m (point a d w k) = true) :
    LoopFinds m a d w k { result := false, looked := [point a d w k] } where
  result := by
    refine iff_of_false Bool.false_ne_true fun h => ?_
    have hfree := h k le_rfl hk
    rw [hwall] at hfree
    cases hfree
  looked c hc := ⟨k, le_rfl, hk, List.mem_singleton.mp hc⟩
  walked _ hc := absurd hc List.not_mem_nil
  steps h := nomatch h
  blocked _ := ⟨_, List.mem_singleton_self _, hwall⟩

/-- The cell is free, and the loop goes on from the next one. -/
theorem LoopFinds.step {k : ℤ} {r : LongSearch} (hr : LoopFinds m a d w (k + 1) r)
    (h : Longest d w) (hk : k < w) (hfree : chkWall m (point a d w k) = false) :
    LoopFinds m a d w k { r with
      looked := point a d w k :: r.looked, walked := point a d w (k + 1) :: r.walked } where
  result := by
    rw [hr.result]
    constructor
    · intro hall i hi hiw
      rcases hi.eq_or_lt with rfl | hlt
      · exact hfree
      · exact hall i hlt hiw
    · exact fun hall i hi => hall i (by omega)
  looked c hc := by
    rcases List.mem_cons.mp hc with rfl | hc
    · exact ⟨k, le_rfl, hk, rfl⟩
    · obtain ⟨i, hi, hiw, rfl⟩ := hr.looked c hc
      exact ⟨i, by omega, hiw, rfl⟩
  walked c hc := by
    rcases List.mem_cons.mp hc with rfl | hc
    · exact ⟨k + 1, by omega, by omega, rfl⟩
    · obtain ⟨i, hi, hiw, rfl⟩ := hr.walked c hc
      exact ⟨i, by omega, hiw, rfl⟩
  steps hres := by
    obtain ⟨hlen, hchain, hlast⟩ := hr.steps hres
    refine ⟨?_, List.isChain_cons_cons.mpr ⟨unitStep_point h a k, hchain⟩, ?_⟩
    · rw [List.length_cons, hlen]
      omega
    · rw [List.getLast?_cons_cons]
      exact hlast
  blocked hres := by
    obtain ⟨c, hc, hwall⟩ := hr.blocked hres
    exact ⟨c, List.mem_cons_of_mem _ hc, hwall⟩

/-- From step `k` on the loop takes one round for each step that is left, and the one that ends it. -/
theorem longLoop_finds (h : Longest d w) (hd : 0 ≤ d.1) (n : ℕ) (k : ℤ) (hk : k + n = w) :
    ∃ r, (∀ f, n < f → longLoop m (a.1 + d.1) (a.2 + d.2) d.1 d.2 w f (point a d w k).1
      (point a d w k).2 (k * d.1 % w) (k * d.2 % w) = some r) ∧ LoopFinds m a d w k r := by
  induction n generalizing k with
  | zero =>
    obtain rfl : k = w := by omega
    refine ⟨{ result := true }, fun f hf => ?_, loopFinds_end⟩
    obtain ⟨f, rfl⟩ := Nat.exists_eq_succ_of_ne_zero hf.ne'
    unfold longLoop
    rw [point_end h]
    exact if_neg (by simp)
  | succ n ih =>
    have hlt : k < w := by omega
    have hgo : (point a d w k).1 ≠ a.1 + d.1 ∨ (point a d w k).2 ≠ a.2 + d.2 := by
      by_contra hend
      push Not at hend
      exact point_ne_end h hlt (Prod.ext hend.1 hend.2)
    have hx : stepRight d.1 w (k * d.1 % w) (point a d w k).1 =
        ((k + 1) * d.1 % w, (point a d w (k + 1)).1) := by
      have hnonneg := Int.emod_nonneg (k * d.1) h.pos.ne'
      rw [stepRight_eq (by omega)]
      exact congrArg Prod.swap (advance_eq h.pos h.left.1 h.left.2 a.1 k)
    have hy : stepAlong d.2 w (k * d.2 % w) (point a d w k).2 =
        ((k + 1) * d.2 % w, (point a d w (k + 1)).2) := by
      rw [stepAlong_eq]
      exact congrArg Prod.swap (advance_eq h.pos h.right.1 h.right.2 a.2 k)
    cases hwall : chkWall m (point a d w k) with
    | true =>
      refine ⟨_, fun f hf => ?_, loopFinds_wall hlt hwall⟩
      obtain ⟨f, rfl⟩ := Nat.exists_eq_succ_of_ne_zero (Nat.ne_of_gt (Nat.zero_lt_of_lt hf))
      unfold longLoop
      rw [if_pos hgo]
      exact if_pos hwall
    | false =>
      obtain ⟨r, hrun, hr⟩ := ih (k + 1) (by omega)
      refine ⟨_, fun f hf => ?_, hr.step h hlt hwall⟩
      obtain ⟨f, rfl⟩ := Nat.exists_eq_succ_of_ne_zero (Nat.ne_of_gt (Nat.zero_lt_of_lt hf))
      unfold longLoop
      rw [if_pos hgo, if_neg (by rw [Prod.mk.eta, hwall]; decide)]
      dsimp only
      rw [hx, hy, hrun f (by omega)]
      rfl

end Loop

/-! ## The search -/

section Search

variable {m : MapData}

/-- The longer side of the box of two cells. -/
def longerSide (a b : ℤ × ℤ) : ℕ := max (b.1 - a.1).natAbs (b.2 - a.2).natAbs

/-- What a search between two cells finds: it is stopped by nothing but a wall at which it has looked,
otherwise it goes from one of them to the other in single steps, and it stays in their box. -/
structure LineFound (m : MapData) (a b : ℤ × ℤ) (r : LongSearch) : Prop where
  free : m.gat ≠ none → (∀ c ∈ r.looked, chkWall m c = false) → r.result = true
  steps : r.result = true → r.walked.length = longerSide a b ∧ ∃ s t,
    (s = a ∧ t = b ∨ s = b ∧ t = a) ∧ List.IsChain UnitStep (s :: r.walked) ∧
      (s :: r.walked).getLast? = some t
  box : ∀ c ∈ r.looked ++ r.walked, InBox a b c

theorem inBox_comm {a b c : ℤ × ℤ} : InBox a b c ↔ InBox b a c := by
  unfold InBox
  rw [min_comm a.1, max_comm a.1, min_comm a.2, max_comm a.2]

theorem longerSide_comm (a b : ℤ × ℤ) : longerSide a b = longerSide b a := by
  unfold longerSide
  omega

theorem LineFound.symm {a b : ℤ × ℤ} {r : LongSearch} (h : LineFound m a b r) :
    LineFound m b a r where
  free := h.free
  steps hres := by
    obtain ⟨hlen, s, t, hends, hchain⟩ := h.steps hres
    exact ⟨hlen.trans (longerSide_comm a b), s, t, hends.symm, hchain⟩
  box c hc := inBox_comm.mp (h.box c hc)

/-- The cells of the line are free, the ends included. -/
def LineFree (m : MapData) (a b : ℤ × ℤ) : Prop :=
  ∀ i : ℤ, 0 ≤ i → i ≤ longerSide a b →
    chkWall m (point a (b.1 - a.1, b.2 - a.2) (longerSide a b) i) = false

theorem longest_side {a b : ℤ × ℤ} (h : longerSide a b ≠ 0) :
    Longest (b.1 - a.1, b.2 - a.2) (longerSide a b) := by
  unfold longerSide at h ⊢
  constructor
  · omega
  · dsimp only
    omega
  · dsimp only
    omega
  · dsimp only
    omega

/-- The loop from the start of the line. -/
theorem loop_finds {a b : ℤ × ℤ} (hright : a.1 ≤ b.1) : ∃ r,
    (∀ f, longerSide a b < f → longLoop m b.1 b.2 (b.1 - a.1) (b.2 - a.2) (longerSide a b) f a.1 a.2
      0 0 = some r) ∧
    LoopFinds m a (b.1 - a.1, b.2 - a.2) (longerSide a b) 0 r := by
  by_cases hzero : longerSide a b = 0
  · have hab : a = b := by
      unfold longerSide at hzero
      exact Prod.ext (by omega) (by omega)
    subst hab
    refine ⟨{ result := true }, fun f hf => ?_, ?_⟩
    · obtain ⟨f, rfl⟩ := Nat.exists_eq_succ_of_ne_zero (Nat.ne_of_gt (Nat.zero_lt_of_lt hf))
      unfold longLoop
      exact if_neg (by simp)
    · rw [hzero]
      exact loopFinds_end
  · have hline := longest_side hzero
    obtain ⟨r, hrun, hr⟩ := @longLoop_finds m a _ _ hline (by dsimp only; omega)
      (longerSide a b) 0 (by omega)
    refine ⟨r, fun f hf => ?_, hr⟩
    have heq := hrun f hf
    rw [point_zero] at heq
    simpa using heq

theorem point_last (a b : ℤ × ℤ) :
    point a (b.1 - a.1, b.2 - a.2) (longerSide a b) (longerSide a b) = b := by
  by_cases hzero : longerSide a b = 0
  · have hab : a = b := by
      unfold longerSide at hzero
      exact Prod.ext (by omega) (by omega)
    subst hab
    rw [hzero]
    exact point_zero ..
  · rw [point_end (longest_side hzero)]
    refine Prod.ext ?_ ?_
    · change a.1 + (b.1 - a.1) = b.1
      omega
    · change a.2 + (b.2 - a.2) = b.2
      omega

theorem point_inBox {a b : ℤ × ℤ} {i : ℤ} (h0 : 0 ≤ i) (hi : i ≤ longerSide a b) :
    InBox a b (point a (b.1 - a.1, b.2 - a.2) (longerSide a b) i) := by
  by_cases hzero : longerSide a b = 0
  · obtain rfl : i = longerSide a b := by omega
    rw [point_last]
    unfold InBox
    omega
  · have hmem := point_mem (longest_side hzero) a h0 hi
    rwa [show a.1 + (b.1 - a.1) = b.1 by omega, show a.2 + (b.2 - a.2) = b.2 by omega] at hmem

/-- A search to the right finds whether the line is free. -/
theorem searchRight_finds {a b : ℤ × ℤ} (hright : a.1 ≤ b.1) : ∃ r,
    (∀ f, longerSide a b < f → searchRight m f a.1 a.2 b.1 b.2 = some r) ∧ LineFound m a b r ∧
      (r.result = true ↔ LineFree m a b) := by
  have hweight : (if |b.2 - a.2| < b.1 - a.1 then b.1 - a.1 else |b.2 - a.2|) =
      (longerSide a b : ℤ) := by
    unfold longerSide
    rw [Int.abs_eq_natAbs]
    split <;> omega
  have hlast := point_last a b
  unfold searchRight
  dsimp only
  rw [hweight]
  cases hwall : chkWall m b with
  | true =>
    refine ⟨{ result := false, looked := [b] }, fun f _ => if_pos rfl, ⟨?_, ?_, ?_⟩, ?_⟩
    · intro _ hfree
      rw [hfree b (List.mem_singleton_self b)] at hwall
      cases hwall
    · exact fun h => nomatch h
    · intro c hc
      obtain rfl := List.mem_singleton.mp hc
      unfold InBox
      omega
    · refine iff_of_false Bool.false_ne_true fun hfree => ?_
      have hend := hfree (longerSide a b) (by omega) le_rfl
      rw [hlast, hwall] at hend
      cases hend
  | false =>
    obtain ⟨r, hrun, hr⟩ := @loop_finds m a b hright
    refine ⟨{ r with looked := b :: r.looked }, fun f hf => ?_, ⟨?_, ?_, ?_⟩, ?_⟩
    · rw [if_neg Bool.false_ne_true, hrun f hf]
      rfl
    · intro _ hfree
      by_contra hres
      obtain ⟨c, hc, hcwall⟩ := hr.blocked (Bool.eq_false_of_not_eq_true hres)
      rw [hfree c (List.mem_cons_of_mem _ hc)] at hcwall
      cases hcwall
    · intro hres
      obtain ⟨hlen, hchain, hend⟩ := hr.steps hres
      rw [point_zero] at hchain hend
      exact ⟨by rw [hlen]; omega, a, b, .inl ⟨rfl, rfl⟩, hchain, hlast ▸ hend⟩
    · intro c hc
      rcases List.mem_cons.mp hc with rfl | hc
      · unfold InBox
        omega
      · rcases List.mem_append.mp hc with hc | hc
        · obtain ⟨i, h0, hi, rfl⟩ := hr.looked c hc
          exact point_inBox h0 hi.le
        · obtain ⟨i, h0, hi, rfl⟩ := hr.walked c hc
          exact point_inBox h0.le hi
    · dsimp only
      rw [hr.result]
      constructor
      · intro hfree i h0 hi
        rcases hi.eq_or_lt with rfl | hlt
        · rw [hlast, hwall]
        · exact hfree i h0 hlt
      · exact fun hfree i h0 hi => hfree i h0 hi.le

/-- An upright line has the same cells from both ends. -/
theorem point_upright {a b : ℤ × ℤ} (hx : a.1 = b.1) {i : ℤ}
    (hi : i = 0 ∨ longerSide a b ≠ 0) :
    point b (a.1 - b.1, a.2 - b.2) (longerSide a b) i =
      point a (b.1 - a.1, b.2 - a.2) (longerSide a b) (longerSide a b - i) := by
  have hside : longerSide a b = (b.2 - a.2).natAbs := by
    unfold longerSide
    omega
  have hway (k : ℤ) : way 0 (longerSide a b) k = 0 := by
    unfold way
    rw [mul_zero, Int.zero_ediv]
  rcases hi with rfl | hpos
  · rw [point_zero, sub_zero, point_last]
  · have hlong := @way_longest (longerSide a b) (by omega) i
    have hlong' := @way_longest (longerSide a b) (by omega) (longerSide a b - i)
    unfold point
    dsimp only
    rw [show a.1 - b.1 = 0 by omega, show b.1 - a.1 = 0 by omega, hway, hway]
    refine Prod.ext (by dsimp only; omega) ?_
    dsimp only
    rcases Int.natAbs_eq (b.2 - a.2) with heq | heq
    · rw [show a.2 - b.2 = -(longerSide a b : ℤ) by omega,
        show b.2 - a.2 = (longerSide a b : ℤ) by omega, hlong.2, hlong'.1]
      omega
    · rw [show a.2 - b.2 = (longerSide a b : ℤ) by omega,
        show b.2 - a.2 = -(longerSide a b : ℤ) by omega, hlong.1, hlong'.2]
      omega

theorem lineFree_upright {a b : ℤ × ℤ} (hx : a.1 = b.1) (h : LineFree m a b) : LineFree m b a := by
  intro i h0 hi
  rw [longerSide_comm] at hi ⊢
  rw [point_upright hx (by omega)]
  exact h _ (by omega) (by omega)

/-- **The line between two cells.** The search ends. It takes as many single steps as the longer side
of the box of the cells is long if no wall is in the way, it looks at no cell outside of the box, and
it finds the same from the other end. -/
theorem pathSearchLong_line (m : MapData) (a b : ℤ × ℤ) : ∃ r r' : LongSearch,
    (∀ f, longerSide a b < f → pathSearchLong m f a.1 a.2 b.1 b.2 = some r) ∧
    (∀ f, longerSide a b < f → pathSearchLong m f b.1 b.2 a.1 a.2 = some r') ∧
    LineFound m a b r ∧ r'.result = r.result := by
  by_cases hgat : m.gat = none
  · refine ⟨_, _, fun f _ => if_pos hgat, fun f _ => if_pos hgat, ⟨?_, ?_, ?_⟩, rfl⟩
    · exact fun h => absurd hgat h
    · exact fun h => nomatch h
    · exact fun c hc => absurd hc List.not_mem_nil
  have hsearch (a b : ℤ × ℤ) (f : ℕ) : pathSearchLong m f a.1 a.2 b.1 b.2 =
      if b.1 - a.1 < 0 then searchRight m f b.1 b.2 a.1 a.2
      else searchRight m f a.1 a.2 b.1 b.2 := if_neg hgat
  rcases lt_trichotomy a.1 b.1 with hlt | heq | hgt
  · obtain ⟨r, hrun, hr, -⟩ := @searchRight_finds m a b hlt.le
    refine ⟨r, r, fun f hf => ?_, fun f hf => ?_, hr, rfl⟩
    · rw [hsearch, if_neg (by omega), hrun f hf]
    · rw [hsearch, if_pos (by omega), hrun f hf]
  · obtain ⟨r, hrun, hr, hfree⟩ := @searchRight_finds m a b heq.le
    obtain ⟨r', hrun', -, hfree'⟩ := @searchRight_finds m b a heq.ge
    refine ⟨r, r', fun f hf => ?_, fun f hf => ?_, hr, ?_⟩
    · rw [hsearch, if_neg (by omega), hrun f hf]
    · rw [hsearch, if_neg (by omega), hrun' f (by rwa [longerSide_comm])]
    · rw [Bool.eq_iff_iff, hfree, hfree']
      exact ⟨lineFree_upright heq.symm, lineFree_upright heq⟩
  · obtain ⟨r, hrun, hr, -⟩ := @searchRight_finds m b a hgt.le
    refine ⟨r, r, fun f hf => ?_, fun f hf => ?_, hr.symm, rfl⟩
    · rw [hsearch, if_pos (by omega), hrun f (by rwa [longerSide_comm])]
    · rw [hsearch, if_neg (by omega), hrun f (by rwa [longerSide_comm])]

end Search

end Nezumi
