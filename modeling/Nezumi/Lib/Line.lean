import Mathlib.Algebra.Order.Ring.Int
import Mathlib.Data.List.Chain
import Mathlib.Tactic.Common
import Mathlib.Tactic.Linarith
import Mathlib.Tactic.Ring

/-!
# Digital lines by an accumulated error

A coordinate moves by `d` in `w` steps. Each step adds `d` to an error and takes `w` from it, or adds
it, when it leaves the range from `0` up to `w`; then the coordinate moves by one.

* `advance`: one step of a coordinate and its error.
* `advance_eq`: after `k` steps the coordinate is the whole part of `k * d / w` away from its start,
  and the error is the rest.
* `point`: the cells of a line. `point_zero`, `point_end`, `unitStep_point` and `point_mem` say where
  it begins and ends, that it moves by single steps and where it stays.
-/

namespace Line

/-- A coordinate and its error after one more step. -/
def advance (d w : ℤ) (s : ℤ × ℤ) : ℤ × ℤ :=
  if w ≤ s.2 + d then (s.1 + 1, s.2 + d - w)
  else if s.2 + d < 0 then (s.1 - 1, s.2 + d + w)
  else (s.1, s.2 + d)

/-- The way of a coordinate in `k` steps. -/
def way (d w k : ℤ) : ℤ := k * d / w

section Way

variable {d w k p : ℤ}

/-- What one step adds, and the error before and after it. -/
theorem way_succ (hw : 0 < w) (hd : -w ≤ d) (hd' : d ≤ w) (k : ℤ) :
    (w ≤ k * d % w + d ∧ way d w (k + 1) = way d w k + 1 ∧ (k + 1) * d % w = k * d % w + d - w) ∨
    (k * d % w + d < 0 ∧ way d w (k + 1) = way d w k - 1 ∧ (k + 1) * d % w = k * d % w + d + w) ∨
    (0 ≤ k * d % w + d ∧ k * d % w + d < w ∧ way d w (k + 1) = way d w k ∧
      (k + 1) * d % w = k * d % w + d) := by
  have hlo := Int.emod_nonneg (k * d) hw.ne'
  have hhi := Int.emod_lt_of_pos (k * d) hw
  have hsplit := Int.mul_ediv_add_emod (k * d) w
  have hnext : (k + 1) * d = w * (k * d / w) + (k * d % w + d) := by
    rw [add_mul, one_mul]
    omega
  unfold way
  rcases lt_or_ge (k * d % w + d) 0 with hneg | hnonneg
  · have heq : (k + 1) * d = (k * d % w + d + w) + w * (k * d / w - 1) := by
      rw [hnext]
      ring
    refine .inr (.inl ⟨hneg, ?_, ?_⟩)
    · rw [heq, Int.add_mul_ediv_left _ _ hw.ne', Int.ediv_eq_zero_of_lt (by omega) (by omega)]
      omega
    · rw [heq, Int.add_mul_emod_self_left, Int.emod_eq_of_lt (by omega) (by omega)]
  · rcases lt_or_ge (k * d % w + d) w with hlt | hge
    · have heq : (k + 1) * d = (k * d % w + d) + w * (k * d / w) := by
        rw [hnext]
        ring
      refine .inr (.inr ⟨hnonneg, hlt, ?_, ?_⟩)
      · rw [heq, Int.add_mul_ediv_left _ _ hw.ne', Int.ediv_eq_zero_of_lt hnonneg hlt]
        omega
      · rw [heq, Int.add_mul_emod_self_left, Int.emod_eq_of_lt hnonneg hlt]
    · have heq : (k + 1) * d = (k * d % w + d - w) + w * (k * d / w + 1) := by
        rw [hnext]
        ring
      refine .inl ⟨hge, ?_, ?_⟩
      · rw [heq, Int.add_mul_ediv_left _ _ hw.ne', Int.ediv_eq_zero_of_lt (by omega) (by omega)]
        omega
      · rw [heq, Int.add_mul_emod_self_left, Int.emod_eq_of_lt (by omega) (by omega)]

/-- One step of the accumulated error. -/
theorem advance_eq (hw : 0 < w) (hd : -w ≤ d) (hd' : d ≤ w) (p k : ℤ) :
    advance d w (p + way d w k, k * d % w) = (p + way d w (k + 1), (k + 1) * d % w) := by
  unfold advance
  dsimp only
  rcases way_succ hw hd hd' k with ⟨h, hway, herr⟩ | ⟨h, hway, herr⟩ | ⟨h, h', hway, herr⟩
  · rw [if_pos h, hway, herr, Int.add_assoc]
  · rw [if_neg (by omega), if_pos h, hway, herr, Int.add_sub_assoc]
  · rw [if_neg (by omega), if_neg (by omega), hway, herr]

theorem way_zero (d w : ℤ) : way d w 0 = 0 := by
  unfold way
  rw [zero_mul, Int.zero_ediv]

theorem way_end (hw : 0 < w) (d : ℤ) : way d w w = d := Int.mul_ediv_cancel_left d hw.ne'

/-- A coordinate whose way is as long as the line moves in every step. -/
theorem way_longest (hw : 0 < w) (k : ℤ) : way w w k = k ∧ way (-w) w k = -k := by
  unfold way
  refine ⟨Int.mul_ediv_cancel k hw.ne', ?_⟩
  rw [mul_neg, ← neg_mul]
  exact Int.mul_ediv_cancel (-k) hw.ne'

/-- The coordinate stays between its ends. -/
theorem way_between (hw : 0 < w) (hk : 0 ≤ k) (hkw : k ≤ w) :
    min 0 d ≤ way d w k ∧ way d w k ≤ max 0 d := by
  unfold way
  rcases le_total 0 d with hd | hd
  · rw [min_eq_left hd, max_eq_right hd]
    refine ⟨Int.ediv_nonneg (mul_nonneg hk hd) hw.le, ?_⟩
    exact (Int.ediv_le_ediv hw (mul_le_mul_of_nonneg_right hkw hd)).trans_eq (way_end hw d)
  · rw [min_eq_right hd, max_eq_left hd]
    refine ⟨(way_end hw d).symm.trans_le
      (Int.ediv_le_ediv hw (mul_le_mul_of_nonpos_right hkw hd)), ?_⟩
    exact (Int.ediv_le_ediv hw (mul_nonpos_of_nonneg_of_nonpos hk hd)).trans_eq (Int.zero_ediv w)

end Way

/-! ## Cells -/

/-- The cell after `k` steps from `a` towards the cell that is `d` away. -/
def point (a d : ℤ × ℤ) (w k : ℤ) : ℤ × ℤ := (a.1 + way d.1 w k, a.2 + way d.2 w k)

/-- To another cell, by at most one in each coordinate. -/
def UnitStep (a b : ℤ × ℤ) : Prop :=
  a ≠ b ∧ (b.1 - a.1).natAbs ≤ 1 ∧ (b.2 - a.2).natAbs ≤ 1

/-- A cell of the smallest box with two corners. -/
def InBox (a b c : ℤ × ℤ) : Prop :=
  min a.1 b.1 ≤ c.1 ∧ c.1 ≤ max a.1 b.1 ∧ min a.2 b.2 ≤ c.2 ∧ c.2 ≤ max a.2 b.2

/-- A line in `w` steps: no coordinate moves by more, and one of them by as much. -/
structure Longest (d : ℤ × ℤ) (w : ℤ) : Prop where
  pos : 0 < w
  left : -w ≤ d.1 ∧ d.1 ≤ w
  right : -w ≤ d.2 ∧ d.2 ≤ w
  eq : d.1 = w ∨ d.1 = -w ∨ d.2 = w ∨ d.2 = -w

section Points

variable {a d : ℤ × ℤ} {w k : ℤ}

theorem point_zero (a d : ℤ × ℤ) (w : ℤ) : point a d w 0 = a := by
  unfold point
  rw [way_zero, way_zero, add_zero, add_zero]

theorem point_end (h : Longest d w) : point a d w w = (a.1 + d.1, a.2 + d.2) := by
  unfold point
  rw [way_end h.pos, way_end h.pos]

/-- A line does not come to its end before its last step. -/
theorem point_ne_end (h : Longest d w) (hk : k < w) : point a d w k ≠ (a.1 + d.1, a.2 + d.2) := by
  intro heq
  obtain ⟨h1, h2⟩ := Prod.mk.inj heq
  have hlong := way_longest h.pos k
  rcases h.eq with he | he | he | he
  · rw [he, hlong.1] at h1
    omega
  · rw [he, hlong.2] at h1
    omega
  · rw [he, hlong.1] at h2
    omega
  · rw [he, hlong.2] at h2
    omega

theorem unitStep_point (h : Longest d w) (a : ℤ × ℤ) (k : ℤ) :
    UnitStep (point a d w k) (point a d w (k + 1)) := by
  have hx := way_succ h.pos h.left.1 h.left.2 k
  have hy := way_succ h.pos h.right.1 h.right.2 k
  have hlong := way_longest h.pos k
  have hlong' := way_longest h.pos (k + 1)
  refine ⟨fun heq => ?_, ?_, ?_⟩
  · obtain ⟨h1, h2⟩ := Prod.mk.inj heq
    rcases h.eq with he | he | he | he
    · rw [he, hlong.1, hlong'.1] at h1
      omega
    · rw [he, hlong.2, hlong'.2] at h1
      omega
    · rw [he, hlong.1, hlong'.1] at h2
      omega
    · rw [he, hlong.2, hlong'.2] at h2
      omega
  · unfold point
    dsimp only
    omega
  · unfold point
    dsimp only
    omega

theorem point_mem (h : Longest d w) (a : ℤ × ℤ) (hk : 0 ≤ k) (hkw : k ≤ w) :
    InBox a (a.1 + d.1, a.2 + d.2) (point a d w k) := by
  have hx := @way_between d.1 w k h.pos hk hkw
  have hy := @way_between d.2 w k h.pos hk hkw
  unfold InBox point
  dsimp only
  omega

end Points

end Line
