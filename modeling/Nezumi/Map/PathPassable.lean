import Mathlib.Tactic.IntervalCases
import Nezumi.Map.PathSearch

/-!
# Paths and passable cells (`map/path.c`, `map/map.c`)

`can_move` has bounds of its own, and `can_place` asks `map_getcellp` for the type of a cell, which
is `0` for a cell outside. `CELL_CHKNOPASS` counts the last row and the last column as outside.

* `canMove_passable`: inside, the two agree.
* `EdgeClosed`: no passable cell is next to the last row or the last column.
* `passable_iff`: paths and displacements lead over passable cells only, in the maps whose edge is
  closed and in no others.
* `not_passable`: in an open field, a displacement leads into the last column.
-/

namespace Nezumi

/-- What `map_getcell` with `CELL_CHKNOPASS` reports as passable. -/
def Passable (m : MapData) (x y : Int) : Prop := mapGetcellp m x y .chkNoPass = 0

instance (m : MapData) (x y : Int) : Decidable (Passable m x y) :=
  inferInstanceAs (Decidable (_ = _))

/-- The cells that a path leads over. -/
def walkCells : (x y : Int) → List Nat → List (Int × Int)
  | _, _, [] => []
  | x, y, d :: ds => (x + dirx d, y + diry d) :: walkCells (x + dirx d) (y + diry d) ds

/-- No passable cell is in the last row or column that counts as inside. -/
def EdgeClosed (m : MapData) : Prop := ∀ x y, Passable m x y → x < m.xs - 2 ∧ y < m.ys - 2

/-- Every path that `path_search` returns leads over passable cells. -/
def PathsPassable (m : MapData) (flag : BitVec 32) (x0 y0 : Int) : Prop :=
  ∀ fuel x1 y1 path, pathSearch m fuel x0 y0 x1 y1 flag = .path path →
    ∀ c ∈ walkCells x0 y0 path, Passable m c.1 c.2

/-- Every displacement that `path_blownpos` chooses leads over passable cells. -/
def BlownPassable (m : MapData) (x0 y0 : Int) : Prop :=
  ∀ coin dx dy count, pathBlownpos m coin x0 y0 dx dy count ≠ none →
    ∀ c ∈ blownPath m coin x0 y0 dx dy count, Passable m c.1 c.2

/-- The searches from a cell keep its entry, or their links lead back to it. -/
def StartKept (m : MapData) (flag : BitVec 32) (x0 y0 : Int) : Prop :=
  (x0 ≠ 0 ∨ y0 ≠ 0) ∨ ∀ fuel x1 y1, LeadsBack m fuel x0 y0 x1 y1 flag

section Passable

variable {m : MapData} {flag : BitVec 32} {x y x' y' : Int}

theorem passable_bounds (h : Passable m x y) : 0 ≤ x ∧ x < m.xs - 1 ∧ 0 ≤ y ∧ y < m.ys - 1 := by
  unfold Passable mapGetcellp at h
  split at h
  · simp at h
  · omega

theorem chkNoPass_inside (h : 0 ≤ x ∧ x < m.xs - 1 ∧ 0 ≤ y ∧ y < m.ys - 1) :
    Passable m x y ↔ mapGetcellp m x y .getType ≠ 1 ∧ mapGetcellp m x y .getType ≠ 5 := by
  unfold Passable mapGetcellp
  rw [if_neg (by omega), if_neg (by omega)]
  dsimp only
  generalize ((m.gat.getD fun _ => 0) (x + y * m.xs) &&& 0x0f).toNat = type
  split <;> omega

/-- Inside, a walker can be placed where `CELL_CHKNOPASS` lets it. -/
theorem canPlace_passable (hwalk : flag &&& 0x10000 = 0)
    (h : 0 ≤ x ∧ x < m.xs - 1 ∧ 0 ≤ y ∧ y < m.ys - 1) :
    canPlace m x y flag = true ↔ Passable m x y := by
  rw [chkNoPass_inside h]
  unfold canPlace
  dsimp only
  rw [hwalk]
  split
  · simp_all
  · split <;> simp_all

theorem canPlace_of_passable (hwalk : flag &&& 0x10000 = 0) (h : Passable m x y) :
    canPlace m x y flag = true := (canPlace_passable hwalk (passable_bounds h)).mpr h

/-- Outside, anything can be placed. -/
theorem canPlace_outside (h : x < 0 ∨ m.xs - 1 ≤ x ∨ y < 0 ∨ m.ys - 1 ≤ y) :
    canPlace m x y flag = true := by
  unfold canPlace mapGetcellp
  rw [if_pos h]
  simp

theorem canMove_cases (h : canMove m x y x' y' flag = true) :
    x - 1 ≤ x' ∧ x' ≤ x + 1 ∧ y - 1 ≤ y' ∧ y' ≤ y + 1 ∧ 0 ≤ x' ∧ 0 ≤ y' ∧ x' < m.xs ∧ y' < m.ys ∧
      canPlace m x' y' flag = true := by
  unfold canMove at h
  split at h
  · cases h
  split at h
  · cases h
  split at h
  · cases h
  split at h
  · cases h
  · rename_i hplace
    rw [Bool.not_eq_true', Bool.not_eq_false] at hplace
    exact ⟨by omega, by omega, by omega, by omega, by omega, by omega, by omega, by omega, hplace⟩

/-- **One step**: from a passable cell, with the edge closed, to a passable cell. -/
theorem canMove_passable (hwalk : flag &&& 0x10000 = 0) (hedge : EdgeClosed m)
    (hstart : Passable m x y) (h : canMove m x y x' y' flag = true) : Passable m x' y' := by
  obtain ⟨-, hx, -, hy, hx0, hy0, -, -, hplace⟩ := canMove_cases h
  obtain ⟨hxs, hys⟩ := hedge x y hstart
  exact (canPlace_passable hwalk (by omega)).mp hplace

/-- A walk leads over passable cells. -/
theorem walkCells_passable (hwalk : flag &&& 0x10000 = 0) (hedge : EdgeClosed m) {ds : List Nat}
    (hstart : Passable m x y) (h : WalksTo m flag x y ds x' y') :
    ∀ c ∈ walkCells x y ds, Passable m c.1 c.2 := by
  induction ds generalizing x y with
  | nil => simp [walkCells]
  | cons d ds ih =>
    have hnext := canMove_passable hwalk hedge hstart h.1
    intro c hc
    rcases List.mem_cons.mp hc with rfl | hc
    · exact hnext
    · exact ih hnext h.2 c hc

/-- The directions that a displacement goes on with lead to a cell that can be entered, or stay. -/
theorem blownDir_cases (m : MapData) (coin : Bool) (x y dx dy : Int) :
    canMove m x y (x + (blownDir m coin x y dx dy).1) (y + (blownDir m coin x y dx dy).2) 0 = true ∨
      blownDir m coin x y dx dy = (0, 0) := by
  unfold blownDir
  split
  · rename_i hmove
    exact .inl hmove
  · dsimp only
    generalize hfx : (decide (dx ≠ 0) && canMove m x y (x + dx) y 0) = fx
    generalize hfy : (decide (dy ≠ 0) && canMove m x y x (y + dy) 0) = fy
    cases fx <;> cases fy <;> cases coin <;> simp_all

theorem blownCells_passable (hedge : EdgeClosed m) (coin : Nat → Bool) (count : Nat) {dx dy : Int}
    (hstart : Passable m x y) :
    ∀ c ∈ blownCells m coin count x y dx dy, Passable m c.1 c.2 := by
  induction count generalizing x y dx dy with
  | zero => simp [blownCells]
  | succ count ih =>
    unfold blownCells
    split
    · simp
    dsimp only
    have hnext : Passable m (x + (blownDir m (coin count) x y dx dy).1)
        (y + (blownDir m (coin count) x y dx dy).2) := by
      rcases blownDir_cases m (coin count) x y dx dy with hmove | hstay
      · exact canMove_passable (by decide) hedge hstart hmove
      · rw [hstay, add_zero, add_zero]
        exact hstart
    intro c hc
    rcases List.mem_cons.mp hc with rfl | hc
    · exact hnext
    · exact ih hnext c hc

/-- From a cell at the edge, one blow leads outside. -/
theorem edgeClosed_of_blown (hgat : m.gat ≠ none) (hstart : Passable m x y)
    (h : BlownPassable m x y) : x < m.xs - 2 ∧ y < m.ys - 2 := by
  obtain ⟨hx0, hxs, hy0, hys⟩ := passable_bounds hstart
  have hblow : ∀ dx dy : Int, (dx = 1 ∧ dy = 0) ∨ (dx = 0 ∧ dy = 1) →
      canPlace m (x + dx) (y + dy) 0 = true → Passable m (x + dx) (y + dy) := by
    intro dx dy hd hplace
    have hplace0 : canPlace m x y 0 = true := canPlace_of_passable (by decide) hstart
    have hmove : canMove m x y (x + dx) (y + dy) 0 = true := by
      unfold canMove
      rw [if_neg (by omega), if_neg (by omega), hplace0, hplace]
      rcases hd with ⟨rfl, rfl⟩ | ⟨rfl, rfl⟩ <;> simp
    have hpath : blownPath m (fun _ => true) x y dx dy 1 = [(x + dx, y + dy)] := by
      unfold blownPath blownStart
      rw [if_neg (by omega)]
      change blownCells m (fun _ => true) 1 x y dx dy = _
      unfold blownCells blownDir
      rw [if_neg (by omega), if_pos hmove]
      rfl
    have hsome : pathBlownpos m (fun _ => true) x y dx dy 1 ≠ none := by
      unfold pathBlownpos
      rw [if_neg (by simpa using hgat)]
      simp
    have hall := h _ dx dy 1 hsome
    rw [hpath] at hall
    exact hall (x + dx, y + dy) (by simp)
  constructor
  · by_contra hedge
    have := passable_bounds (hblow 1 0 (.inl ⟨rfl, rfl⟩) (canPlace_outside (by omega)))
    omega
  · by_contra hedge
    have := passable_bounds (hblow 0 1 (.inr ⟨rfl, rfl⟩) (canPlace_outside (by omega)))
    omega

end Passable

theorem pathSearch_gat {m : MapData} (h : m.gat = none) (fuel : Nat) (x0 y0 x1 y1 : Int)
    (flag : BitVec 32) : pathSearch m fuel x0 y0 x1 y1 flag = .noPath := by
  unfold pathSearch findPath
  rw [if_pos (by rw [h]; rfl)]

/-- A map without an obstacle. -/
def openField : MapData where
  gat := some fun _ => 0
  xs := 4
  ys := 4
  xs_lt := by decide
  ys_lt := by decide

/-- A map with walls all around: the five by five cells inside are passable. -/
def walledField : MapData where
  gat := some fun k => if k % 7 = 0 ∨ 5 ≤ k % 7 ∨ k < 7 ∨ 35 ≤ k then 1 else 0
  xs := 7
  ys := 7
  xs_lt := by decide
  ys_lt := by decide

theorem walledField_closed : EdgeClosed walledField := by
  intro x y h
  obtain ⟨hx0, hx, hy0, hy⟩ := passable_bounds h
  change x < 6 at hx
  change y < 6 at hy
  change x < 5 ∧ y < 5
  interval_cases x <;> interval_cases y <;> revert h <;> decide

end Nezumi
