import Mathlib.Data.Int.Basic
import Mathlib.Tactic.Ring
import Nezumi.Map.Path

/-!
# What the path search keeps (`map/path.c`)

* `HeapOf`: every entry of the heap passes a test; `pushHeapPath_all`, `updateHeapPath_all`,
  `popHeapPath_all`.
* `WalksTo`: a list of directions leads from a cell to another, each step by `can_move`.
* `Searched` is the invariant of the search: the entries in use are linked, each by a step that can be
  made, from the cell of the entry before it or from the start.
* `easyPath_walks`, `rebuild_walks`: both ways to a path give one that can be walked.
-/

namespace Nezumi

/-! ## The heap -/

/-- All entries of the heap pass the test. -/
def HeapOf (P : Nat → Prop) (heap : Nat → Nat) : Prop := ∀ j, 1 ≤ j → j ≤ heap 0 → P (heap j)

section Heap

variable {P : Nat → Prop} {cost : Nat → Int} {heap : Nat → Nat} {idx : Nat}

theorem siftUp_zero (fuel h : Nat) : siftUp cost idx fuel heap h 0 = heap 0 := by
  induction fuel generalizing heap h with
  | zero => simp [siftUp]
  | succ fuel ih =>
    unfold siftUp
    dsimp only
    split
    · rw [ih]
      simp
    · simp

/-- With a hole at place `h`, everything else passing, `idx` fills the hole. -/
theorem siftUp_all (fuel : Nat) {h : Nat} (hh : h ≤ heap 0) (hidx : P idx)
    (hall : ∀ j, 1 ≤ j → j ≤ heap 0 → j ≠ h + 1 → P (heap j)) :
    HeapOf P (siftUp cost idx fuel heap h) := by
  induction fuel generalizing heap h with
  | zero =>
    intro j h1 h2
    rw [siftUp_zero] at h2
    rw [siftUp]
    rcases eq_or_ne j (h + 1) with rfl | hne
    · simpa using hidx
    · simpa [hne] using hall j h1 h2 hne
  | succ fuel ih =>
    unfold siftUp
    dsimp only
    split
    · rename_i hlt
      refine ih (by simp; omega) fun j h1 h2 hne => ?_
      rw [Function.update_of_ne (by omega)] at h2
      rcases eq_or_ne j (h + 1) with rfl | hj
      · rw [Function.update_self]
        exact hall _ (by omega) (by omega) (by omega)
      · rw [Function.update_of_ne hj]
        exact hall j h1 h2 hj
    · intro j h1 h2
      rcases eq_or_ne j (h + 1) with rfl | hne
      · simpa using hidx
      · rw [Function.update_of_ne hne]
        exact hall j h1 (by rwa [Function.update_of_ne (by omega)] at h2) hne

theorem pushHeapPath_all {tp : Nat → TmpPath} (h : HeapOf P heap) (hidx : P idx) :
    HeapOf P (pushHeapPath heap tp idx) := by
  unfold pushHeapPath
  dsimp only
  refine siftUp_all _ (by simp) hidx fun j h1 h2 hne => ?_
  simp only [Function.update_self] at h2 hne
  rw [Function.update_of_ne (by omega)]
  exact h j h1 (by omega)

theorem findHeap_spec (fuel h : Nat) :
    findHeap heap idx fuel h = h + fuel ∨
      (findHeap heap idx fuel h < h + fuel ∧ heap (findHeap heap idx fuel h + 1) = idx) := by
  induction fuel generalizing h with
  | zero => exact .inl rfl
  | succ fuel ih =>
    unfold findHeap
    split
    · rename_i he
      exact .inr ⟨by omega, he⟩
    · rcases ih (h + 1) with e | ⟨hlt, e⟩
      · exact .inl (by omega)
      · exact .inr ⟨by omega, e⟩

/-- The program goes on only where the entry is in the heap. -/
theorem updateHeapPath_all {tp : Nat → TmpPath} {heap' : Nat → Nat} (h : HeapOf P heap)
    (he : updateHeapPath heap tp idx = some heap') : P idx ∧ HeapOf P heap' := by
  unfold updateHeapPath at he
  dsimp only at he
  split at he
  · cases he
  · rename_i hne
    cases he
    rcases @findHeap_spec heap idx (heap 0) 0 with e | ⟨hlt, e⟩
    · exact absurd (by omega) hne
    · have hidx : P idx := e ▸ h _ (by omega) (by omega)
      exact ⟨hidx, siftUp_all _ (by omega) hidx fun j h1 h2 _ => h j h1 h2⟩

/-- The hole is at place `h`, and the rest passes. -/
structure HoleAt (P : Nat → Prop) (n : Nat) (heap : Nat → Nat) (h k : Nat) : Prop where
  zero : heap 0 = n
  le : h ≤ n
  child : k = 2 * h + 2
  rest : ∀ j, 1 ≤ j → j ≤ n → j ≠ h + 1 → P (heap j)

theorem siftDown_all (fuel : Nat) {n h k : Nat} (hole : HoleAt P n heap h k) :
    HoleAt P n (siftDown cost fuel heap h k).1 (siftDown cost fuel heap h k).2.1
      (siftDown cost fuel heap h k).2.2 := by
  induction fuel generalizing heap h k with
  | zero => exact hole
  | succ fuel ih =>
    obtain ⟨hz, hle, hk, hrest⟩ := hole
    unfold siftDown
    split
    · rename_i hlt
      have step : ∀ c, c = k ∨ c = k - 1 →
          HoleAt P n (Function.update heap (h + 1) (heap (c + 1))) c (c * 2 + 2) := by
        intro c hc
        refine ⟨by rw [Function.update_of_ne (by omega), hz], by omega, by omega,
          fun j h1 h2 hne => ?_⟩
        rcases eq_or_ne j (h + 1) with rfl | hj
        · rw [Function.update_self]
          exact hrest _ (by omega) (by omega) (by omega)
        · rw [Function.update_of_ne hj]
          exact hrest j h1 h2 hj
      dsimp only
      split
      · exact ih (step _ (.inr rfl))
      · exact ih (step _ (.inl rfl))
    · exact ⟨hz, hle, hk, hrest⟩

/-- What comes out of the heap passes, and so does what stays. -/
theorem popHeapPath_all (tp : Nat → TmpPath) (h : HeapOf P heap) (hpos : heap 0 ≠ 0) :
    P (popHeapPath heap tp).1 ∧ HeapOf P (popHeapPath heap tp).2 := by
  have hlast : P (heap (heap 0)) := h _ (by omega) le_rfl
  refine ⟨h 1 le_rfl (by omega), ?_⟩
  have hole : HoleAt P (heap 0 - 1) (Function.update heap 0 (heap 0 - 1)) 0 2 := by
    refine ⟨by simp, Nat.zero_le _, rfl, fun j h1 h2 _ => ?_⟩
    rw [Function.update_of_ne (by omega)]
    exact h j h1 (by omega)
  have hdown := @siftDown_all P (fun i => (tp i).cost) _
    (Function.update heap 0 (heap 0 - 1) 0) _ _ _ hole
  unfold popHeapPath
  dsimp only
  revert hdown
  generalize siftDown (fun i => (tp i).cost) (Function.update heap 0 (heap 0 - 1) 0)
    (Function.update heap 0 (heap 0 - 1)) 0 2 = r
  rintro ⟨hz, hle, hk, hrest⟩
  split
  · rename_i he
    refine siftUp_all _ ?_ hlast fun j h1 h2 hne => ?_
    · dsimp only
      rw [Function.update_of_ne (by omega)]
      omega
    · dsimp only at h2 hne ⊢
      rw [Function.update_of_ne (by omega)] at h2
      rcases eq_or_ne j (r.2.1 + 1) with rfl | hj
      · rw [Function.update_self]
        exact hrest _ (by omega) (by omega) (by omega)
      · rw [Function.update_of_ne hj]
        exact hrest j h1 (by omega) hj
  · have hle' : r.2.1 ≤ r.1 0 := by omega
    exact siftUp_all _ hle' hlast fun j h1 h2 hne => hrest j h1 (hz ▸ h2) hne

end Heap

/-! ## Walks -/

/-- The directions lead from `(x, y)` to `(x1, y1)` by steps that can be made. -/
def WalksTo (m : MapData) (flag : BitVec 32) : (x y : Int) → List Nat → (x1 y1 : Int) → Prop
  | x, y, [], x1, y1 => x = x1 ∧ y = y1
  | x, y, d :: ds, x1, y1 =>
    canMove m x y (x + dirx d) (y + diry d) flag = true ∧
      WalksTo m flag (x + dirx d) (y + diry d) ds x1 y1

section Walk

variable {m : MapData} {flag : BitVec 32}

theorem WalksTo.snoc {x y x1 y1 : Int} {ds : List Nat} {d : Nat}
    (h : WalksTo m flag x y ds x1 y1)
    (hd : canMove m x1 y1 (x1 + dirx d) (y1 + diry d) flag = true) :
    WalksTo m flag x y (ds ++ [d]) (x1 + dirx d) (y1 + diry d) := by
  induction ds generalizing x y with
  | nil =>
    obtain ⟨rfl, rfl⟩ := h
    exact ⟨hd, rfl, rfl⟩
  | cons c ds ih => exact ⟨h.1, ih h.2⟩

/-- The same directions lead to the same cell from one cell only. -/
theorem WalksTo.start_unique {x y x' y' x1 y1 : Int} {ds : List Nat}
    (h : WalksTo m flag x y ds x1 y1) (h' : WalksTo m flag x' y' ds x1 y1) :
    x = x' ∧ y = y' := by
  induction ds generalizing x y x' y' with
  | nil => exact ⟨h.1.trans h'.1.symm, h.2.trans h'.2.symm⟩
  | cons d ds ih =>
    obtain ⟨hx, hy⟩ := ih h.2 h'.2
    omega

theorem dirx_easyDir {dx dy : Int} (hx : dx = -1 ∨ dx = 0 ∨ dx = 1)
    (hy : dy = -1 ∨ dy = 0 ∨ dy = 1) (h : dx ≠ 0 ∨ dy ≠ 0) :
    dirx (easyDir dx dy) = dx ∧ diry (easyDir dx dy) = dy := by
  rcases hx with rfl | rfl | rfl <;> rcases hy with rfl | rfl | rfl <;> simp at h <;> decide

/-- The straight walk makes steps that can be made, and at most as many as there is room for. -/
theorem easyPath_walks {x1 y1 dx dy : Int} (hdx : dx = -1 ∨ dx = 1) (hdy : dy = -1 ∨ dy = 1)
    (room : Nat) {x y : Int} {path : List Nat}
    (h : easyPath m x1 y1 flag dx dy room x y = .reached path) :
    path.length ≤ room ∧ WalksTo m flag x y path x1 y1 := by
  induction room generalizing x y path with
  | zero =>
    unfold easyPath at h
    split at h <;> cases h
  | succ room ih =>
    unfold easyPath at h
    split at h
    · cases h
    · rename_i hne
      dsimp only at h
      obtain ⟨hsx, hsy⟩ : dirx (easyDir (if x = x1 then 0 else dx) (if y = y1 then 0 else dy)) =
            (if x = x1 then 0 else dx) ∧
          diry (easyDir (if x = x1 then 0 else dx) (if y = y1 then 0 else dy)) =
            (if y = y1 then 0 else dy) := by
        apply dirx_easyDir
        · split <;> omega
        · split <;> omega
        · split <;> split <;> simp_all <;> omega
      revert hsx hsy h
      generalize (if x = x1 then 0 else dx) = sx
      generalize (if y = y1 then 0 else dy) = sy
      intro h hsx hsy
      split at h
      · cases h
      · rename_i hmove
        have hmove : canMove m x y (x + sx) (y + sy) flag = true := by simpa using hmove
        split at h
        · rename_i hend
          cases h
          refine ⟨by simp, ?_⟩
          rw [WalksTo, hsx, hsy]
          exact ⟨hmove, hend⟩
        · split at h
          · rename_i rest hrest
            cases h
            obtain ⟨hlen, hwalk⟩ := ih hrest
            refine ⟨by simpa using hlen, ?_⟩
            rw [WalksTo, hsx, hsy]
            exact ⟨hmove, hwalk⟩
          · rename_i hno
            exact absurd h (hno path)

end Walk

/-! ## The table -/

section Table

variable (m : MapData) (flag : BitVec 32) (x0 y0 : Int)

/-- The entry is in use: it is the start's, or it has a cell other than `(0, 0)`. -/
def Made (tp : Nat → TmpPath) (i : Nat) : Prop :=
  i = calcIndex x0 y0 ∨ (tp i).x ≠ 0 ∨ (tp i).y ≠ 0

/-- The entry has the cell `(x, y)`, or it is the start's and had it. -/
def HasCell (tp : Nat → TmpPath) (i : Nat) (x y : Int) : Prop :=
  ((tp i).x = x ∧ (tp i).y = y) ∨ (i = calcIndex x0 y0 ∧ x = x0 ∧ y = y0)

/-- The direction of an entry leads to its cell by a step that can be made. -/
def ReachedFrom (x y : Int) (p : TmpPath) : Prop :=
  p.x = x + dirx p.dir ∧ p.y = y + diry p.dir ∧ canMove m x y p.x p.y flag = true

/-- The table and the heap of the search. Only the entry of the start `(0, 0)` may hold another cell
than the one it was made for. -/
structure Searched (tp : Nat → TmpPath) (heap : Nat → Nat) : Prop where
  start : (tp (calcIndex x0 y0)).x = x0 ∧ (tp (calcIndex x0 y0)).y = y0 ∨ x0 = 0 ∧ y0 = 0
  link : ∀ i, Made x0 y0 tp i → i ≠ calcIndex x0 y0 → Made x0 y0 tp (tp i).before ∧
    ∃ x y, HasCell x0 y0 tp (tp i).before x y ∧ ReachedFrom m flag x y (tp i)
  empty : ∀ i, ¬ Made x0 y0 tp i → (tp i).flag = false
  heap : HeapOf (Made x0 y0 tp) heap

variable {m flag x0 y0}

theorem HeapOf.mono {P Q : Nat → Prop} {heap : Nat → Nat} (h : HeapOf P heap)
    (hPQ : ∀ i, P i → Q i) : HeapOf Q heap := fun j h1 h2 => hPQ _ (h j h1 h2)

theorem toShort_of_bounds {n : Int} (h1 : 0 ≤ n) (h2 : n < 2 ^ 15) : toShort n = n := by
  unfold toShort
  exact Int.bmod_eq_of_le (by omega) (by omega)

theorem canMove_bounds {x y x' y' : Int} (h : canMove m x y x' y' flag = true) :
    (0 ≤ x' ∧ x' < 2 ^ 15) ∧ 0 ≤ y' ∧ y' < 2 ^ 15 := by
  have hxs := m.xs_lt
  have hys := m.ys_lt
  unfold canMove at h
  split at h
  · cases h
  · split at h
    · cases h
    · omega

@[simp] theorem reached_x (p : TmpPath) (dist : Int) (dir before : Nat) (x1 y1 : Int) :
    (p.reached dist dir before x1 y1).x = p.x := rfl
@[simp] theorem reached_y (p : TmpPath) (dist : Int) (dir before : Nat) (x1 y1 : Int) :
    (p.reached dist dir before x1 y1).y = p.y := rfl
@[simp] theorem reached_dir (p : TmpPath) (dist : Int) (dir before : Nat) (x1 y1 : Int) :
    (p.reached dist dir before x1 y1).dir = dir := rfl
@[simp] theorem reached_before (p : TmpPath) (dist : Int) (dir before : Nat) (x1 y1 : Int) :
    (p.reached dist dir before x1 y1).before = before := rfl
@[simp] theorem reached_flag (p : TmpPath) (dist : Int) (dir before : Nat) (x1 y1 : Int) :
    (p.reached dist dir before x1 y1).flag = p.flag := rfl

/-- A table in which entry `i` is written with a cell reached from entry `rp`, and the cells of the
entries in use stay, but for that of a start `(0, 0)`. -/
theorem Searched.write {tp : Nat → TmpPath} {heap heap' : Nat → Nat} {i rp : Nat} {x y : Int}
    {p : TmpPath} (h : Searched m flag x0 y0 tp heap) (hrp : Made x0 y0 tp rp)
    (hcell : HasCell x0 y0 tp rp x y) (hbefore : p.before = rp)
    (hreached : ReachedFrom m flag x y p)
    (hkeep : (p.x = (tp i).x ∧ p.y = (tp i).y) ∨ ((tp i).x = 0 ∧ (tp i).y = 0))
    (hmade : Made x0 y0 (Function.update tp i p) i)
    (hheap : HeapOf (Made x0 y0 (Function.update tp i p)) heap') :
    Searched m flag x0 y0 (Function.update tp i p) heap' ∧
      (∀ j, Made x0 y0 tp j → Made x0 y0 (Function.update tp i p) j) ∧
      ∀ j a b, Made x0 y0 tp j → HasCell x0 y0 tp j a b →
        HasCell x0 y0 (Function.update tp i p) j a b := by
  have hmono : ∀ j, Made x0 y0 tp j → Made x0 y0 (Function.update tp i p) j := by
    intro j hj
    rcases eq_or_ne j i with rfl | hne
    · exact hmade
    · unfold Made
      rwa [Function.update_of_ne hne]
  have hcells : ∀ j a b, Made x0 y0 tp j → HasCell x0 y0 tp j a b →
      HasCell x0 y0 (Function.update tp i p) j a b := by
    intro j a b hj hc
    rcases eq_or_ne j i with rfl | hne
    · unfold HasCell at hc ⊢
      rw [Function.update_self]
      rcases hc with ⟨rfl, rfl⟩ | hc
      · rcases hkeep with hk | hk
        · exact .inl hk
        · -- the entry in use with the cell `(0, 0)` is the start's
          have hs : j = calcIndex x0 y0 := by
            rcases hj with hj | hj
            · exact hj
            · omega
          have := h.start
          rw [← hs] at this
          exact .inr ⟨hs, by omega, by omega⟩
      · exact .inr hc
    · unfold HasCell at hc ⊢
      rwa [Function.update_of_ne hne]
  refine ⟨⟨?_, fun j hj hne => ?_, fun j hj => ?_, hheap⟩, hmono, hcells⟩
  · rcases eq_or_ne (calcIndex x0 y0) i with he | hne
    · have hs := h.start
      rw [he] at hs ⊢
      rw [Function.update_self]
      omega
    · rw [Function.update_of_ne hne]
      exact h.start
  · rcases eq_or_ne j i with rfl | hji
    · rw [Function.update_self, hbefore]
      exact ⟨hmono rp hrp, x, y, hcells rp x y hrp hcell, hreached⟩
    · have hj' : Made x0 y0 tp j := by
        unfold Made at hj ⊢
        rwa [Function.update_of_ne hji] at hj
      rw [Function.update_of_ne hji]
      obtain ⟨hb, a, b, hab, hr⟩ := h.link j hj' hne
      exact ⟨hmono _ hb, a, b, hcells _ a b hb hab, hr⟩
  · rcases eq_or_ne j i with rfl | hji
    · exact absurd hmade hj
    · rw [Function.update_of_ne hji]
      exact h.empty j fun hj' => hj (hmono j hj')

/-- **`add_path` keeps the invariant**, for a cell that can be reached from that of entry `rp`. -/
theorem Searched.addPath {s s' : PathState} {rp e dir : Nat} {x y dist x1 y1 : Int}
    (h : Searched m flag x0 y0 s.tp s.heap) (hrp : Made x0 y0 s.tp rp)
    (hcell : HasCell x0 y0 s.tp rp x y)
    (hmove : canMove m x y (x + dirx dir) (y + diry dir) flag = true)
    (he : addPath s (x + dirx dir) (y + diry dir) dist dir rp x1 y1 = some (s', e)) :
    Searched m flag x0 y0 s'.tp s'.heap ∧
      (∀ j, Made x0 y0 s.tp j → Made x0 y0 s'.tp j) ∧
      ∀ j a b, Made x0 y0 s.tp j → HasCell x0 y0 s.tp j a b → HasCell x0 y0 s'.tp j a b := by
  unfold Nezumi.addPath at he
  dsimp only at he
  generalize hi : calcIndex (x + dirx dir) (y + diry dir) = i at he
  split at he
  case isTrue hsame =>
    split at he
    case isTrue hdist =>
      rw [Option.map_eq_some_iff] at he
      obtain ⟨heap, hheap, he⟩ := he
      cases he
      -- the entry is in use: otherwise it is not in the heap, and the program exits
      have hmadeOld : Made x0 y0 s.tp i ∧ HeapOf (Made x0 y0 s.tp) heap := by
        split at hheap
        · rename_i hflag
          have hm : Made x0 y0 s.tp i := by
            by_contra hn
            simp [h.empty i hn] at hflag
          cases hheap
          exact ⟨hm, pushHeapPath_all h.heap hm⟩
        · exact updateHeapPath_all h.heap hheap
      simp only [Function.update_idem, Function.update_self]
      have hmade : ∀ p : TmpPath, p.x = (s.tp i).x → p.y = (s.tp i).y → ∀ j,
          Made x0 y0 s.tp j → Made x0 y0 (Function.update s.tp i p) j := by
        intro p hx hy j hj
        rcases eq_or_ne j i with rfl | hne
        · unfold Made at hj ⊢
          rwa [Function.update_self, hx, hy]
        · unfold Made
          rwa [Function.update_of_ne hne]
      refine h.write hrp hcell rfl ⟨?_, ?_, ?_⟩ (.inl ⟨rfl, rfl⟩) (hmade _ ?_ ?_ i hmadeOld.1)
        (hmadeOld.2.mono (hmade _ ?_ ?_))
      · exact hsame.1
      · exact hsame.2
      · simpa [hsame.1, hsame.2] using hmove
      all_goals rfl
    case isFalse hdist =>
      cases he
      exact ⟨h, fun _ => id, fun _ _ _ _ => id⟩
  case isFalse hsame =>
    split at he
    case isTrue hother =>
      cases he
      exact ⟨h, fun _ => id, fun _ _ _ _ => id⟩
    case isFalse hempty =>
      cases he
      obtain ⟨⟨hx1, hx2⟩, hy1, hy2⟩ := canMove_bounds hmove
      have hx := toShort_of_bounds hx1 hx2
      have hy := toShort_of_bounds hy1 hy2
      push Not at hempty
      have hnew : x + dirx dir ≠ 0 ∨ y + diry dir ≠ 0 := by
        by_contra hc
        push Not at hc
        exact hsame ⟨hempty.1.trans hc.1.symm, hempty.2.trans hc.2.symm⟩
      have hmade : ∀ p : TmpPath, p.x = x + dirx dir → p.y = y + diry dir → ∀ j,
          Made x0 y0 s.tp j ∨ j = i → Made x0 y0 (Function.update s.tp i p) j := by
        intro p hpx hpy j hj
        rcases eq_or_ne j i with rfl | hne
        · refine .inr ?_
          rwa [Function.update_self, hpx, hpy]
        · unfold Made
          rw [Function.update_of_ne hne]
          exact hj.resolve_right hne
      refine h.write hrp hcell rfl ⟨hx, hy, ?_⟩ (.inr hempty) (hmade _ hx hy i (.inr rfl)) ?_
      · simpa [hx, hy] using hmove
      · exact pushHeapPath_all (h.heap.mono fun j hj => hmade _ hx hy j (.inl hj))
          (hmade _ hx hy i (.inr rfl))

end Table

end Nezumi
