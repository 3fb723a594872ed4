import Mathlib.Data.Finset.Card
import Mathlib.Tactic.IntervalCases
import Nezumi.Map.PathHeap

/-!
# What the entries of the path search are in the heap for (`map/path.c`)

* `SearchPoint`, `Reaches`: the points of the loop of `path_search` and the states that a search
  reaches there, one step for each neighbour that is looked at.
* `Tracked` is what holds of them: an entry in use is in the heap exactly once if its flag is 0, and
  not at all otherwise; only the entry that is being expanded is neither. The entry that a cell was
  reached from is nearer to the start.
* `addPath_cases`: what `add_path` can do. `Tracked.addPath`: it keeps this, and the program does
  not exit.
* `heapKept_all`: the heap never has more than `MAX_HEAP` entries.
-/

namespace Nezumi

/-! ## The states of a search -/

/-- Where the loop of `path_search` is: before an entry is taken from the heap, or where the
neighbours `rest` of the entry `rp` with the cell `(x, y)` still have to be looked at, with `e`
errors so far. -/
inductive SearchPoint
  | loop
  | expands (rp : Nat) (x y : Int) (rest : List (Nat × Int)) (e : Nat)

/-- The states of a search from `(x0, y0)` to `(x1, y1)`. -/
inductive Reaches (m : MapData) (flag : BitVec 32) (x0 y0 x1 y1 : Int) :
    SearchPoint → PathState → Prop
  | start : Reaches m flag x0 y0 x1 y1 .loop (searchStart x0 y0 x1 y1)
  | pop {s rp heap} : Reaches m flag x0 y0 x1 y1 .loop s → s.heap 0 ≠ 0 →
      popHeapPath s.heap s.tp = (rp, heap) →
      Reaches m flag x0 y0 x1 y1 (.expands rp (s.tp rp).x (s.tp rp).y neighbours 0)
        { s with heap }
  | blocked {rp x y d rest e s} : Reaches m flag x0 y0 x1 y1 (.expands rp x y (d :: rest) e) s →
      canMove m x y (x + dirx d.1) (y + diry d.1) flag = false →
      Reaches m flag x0 y0 x1 y1 (.expands rp x y rest e) s
  | add {rp x y d rest e s s' e'} : Reaches m flag x0 y0 x1 y1 (.expands rp x y (d :: rest) e) s →
      canMove m x y (x + dirx d.1) (y + diry d.1) flag = true →
      addPath s (x + dirx d.1) (y + diry d.1) ((s.tp rp).dist + d.2) d.1 rp x1 y1 = some (s', e') →
      Reaches m flag x0 y0 x1 y1 (.expands rp x y rest (e + e')) s'
  | expanded {rp x y s} : Reaches m flag x0 y0 x1 y1 (.expands rp x y [] 0) s →
      s.heap 0 < maxHeap - 5 →
      Reaches m flag x0 y0 x1 y1 .loop
        { s with tp := Function.update s.tp rp { s.tp rp with flag := true } }

/-! ## The invariant -/

/-- The number of entries that have been reached from another one. -/
def reachedCount (tp : Nat → TmpPath) : Nat :=
  ((Finset.range 1024).filter fun i => 0 < (tp i).dist).card

/-- The cell of entry `i` is next to that of the entry it was reached from, which is nearer to the
start. The start `(0, 0)` may have lost its entry to another cell. -/
def LinkedBack (start : Nat) (tp : Nat → TmpPath) (i : Nat) : Prop :=
  (tp i).dir < 8 ∧ ∃ a b : Int, (tp i).x = a + dirx (tp i).dir ∧ (tp i).y = b + diry (tp i).dir ∧
    (a = 0 ∧ b = 0 ∧ (tp i).before = start ∨
      (tp (tp i).before).x = a ∧ (tp (tp i).before).y = b ∧
        ((tp i).before = start ∨ 0 < (tp (tp i).before).dist) ∧
        (tp (tp i).before).dist + 10 ≤ (tp i).dist)

/-- An entry in use: that of the start, or one that has been reached. -/
def InUse (start : Nat) (tp : Nat → TmpPath) (i : Nat) : Prop := i = start ∨ 0 < (tp i).dist

/-- What holds of the table and the heap while the entry `rp` is expanded. -/
structure Tracked (start : Nat) (rp : Option Nat) (s : PathState) : Prop where
  once : ∀ i, InUse start s.tp i → (s.tp i).flag = false → some i ≠ rp →
    (entries s.heap).count i = 1
  absent : ∀ i, ¬ (InUse start s.tp i ∧ (s.tp i).flag = false ∧ some i ≠ rp) → i ∉ entries s.heap
  -- the start comes into the heap once, and then another entry may take its place
  origin : (s.tp start).dist = 0 → (s.tp start).flag = true ∨ rp = some start ∨
    rp = none ∧ s.heap 0 = 1
  unused : ∀ i, (s.tp i).x = 0 → (s.tp i).y = 0 → (s.tp i).dist = 0
  cell : ∀ i, i ≠ start → (s.tp i).dist = 0 → (s.tp i).x = 0 ∧ (s.tp i).y = 0
  index : ∀ i, InUse start s.tp i → calcIndex (s.tp i).x (s.tp i).y = i
  dist : ∀ i, 0 ≤ (s.tp i).dist ∧ (s.tp i).dist ≤ 14 * reachedCount s.tp
  link : ∀ i, 0 < (s.tp i).dist → LinkedBack start s.tp i

/-! ## `add_path` -/

section Add

variable {start rp dir before : Nat} {s s' : PathState} {x y dist x1 y1 : Int}

/-- The entry `i` of the cell `(x, y)` is written, which was empty or had a greater distance. -/
structure Written (tp tp' : Nat → TmpPath) (i : Nat) (x y dist : Int) (dir before : Nat) :
    Prop where
  eq : ∃ p : TmpPath, tp' = Function.update tp i p ∧ p.x = x ∧ p.y = y ∧ p.dist = dist ∧
    p.dir = dir ∧ p.before = before ∧ p.flag = false
  lower : (tp i).x = 0 ∧ (tp i).y = 0 ∧ (x ≠ 0 ∨ y ≠ 0) ∨
    (tp i).x = x ∧ (tp i).y = y ∧ dist < (tp i).dist

/-- `add_path` changes nothing, adds a new entry to the heap or an old one again, or moves an entry
that is in the heap. -/
theorem addPath_cases (s : PathState) (dir before : Nat) (x1 y1 : Int)
    (hx : toShort x = x) (hy : toShort y = y) (hd : toShort dist = dist) (h0 : 0 ≤ dist)
    (hu : ∀ i, (s.tp i).x = 0 → (s.tp i).y = 0 → (s.tp i).dist = 0) :
    (∃ e, addPath s x y dist dir before x1 y1 = some (s, e)) ∨
    ∃ tp tp', Written s.tp tp (calcIndex x y) x y dist dir before ∧
      (((s.tp (calcIndex x y)).dist = 0 ∨ (s.tp (calcIndex x y)).flag = true) ∧
        addPath s x y dist dir before x1 y1 =
          some ({ tp, heap := pushHeapPath s.heap tp' (calcIndex x y) }, 0) ∨
      0 < (s.tp (calcIndex x y)).dist ∧ (s.tp (calcIndex x y)).flag = false ∧
        addPath s x y dist dir before x1 y1 =
          (updateHeapPath s.heap tp' (calcIndex x y)).map fun heap => ({ tp, heap }, 0)) := by
  unfold addPath
  dsimp only
  generalize calcIndex x y = i
  have hw : ∀ p : TmpPath, p.x = x → p.y = y →
      let q : TmpPath := { p.reached dist dir before x1 y1 with flag := false }
      q.x = x ∧ q.y = y ∧ q.dist = dist ∧ q.dir = dir ∧ q.before = before ∧ q.flag = false := by
    rintro p rfl rfl
    exact ⟨rfl, rfl, hd, rfl, rfl, rfl⟩
  split_ifs with hsame hless hflag hother
  · refine .inr ⟨_, _, ⟨⟨_, ?_, hw _ hsame.1 hsame.2⟩, .inr ⟨hsame.1, hsame.2, hless⟩⟩,
      .inl ⟨.inr hflag, rfl⟩⟩
    rw [Function.update_idem, Function.update_self]
  · refine .inr ⟨_, _, ⟨⟨_, ?_, hw _ hsame.1 hsame.2⟩, .inr ⟨hsame.1, hsame.2, hless⟩⟩,
      .inr ⟨by omega, by simpa using hflag, rfl⟩⟩
    rw [Function.update_idem, Function.update_self]
  · exact .inl ⟨_, rfl⟩
  · exact .inl ⟨_, rfl⟩
  · push Not at hother
    refine .inr ⟨_, _, ⟨⟨_, rfl, hw { s.tp i with x := toShort x, y := toShort y } hx hy⟩,
      .inl ⟨hother.1, hother.2, ?_⟩⟩, .inl ⟨.inl (hu i hother.1 hother.2), rfl⟩⟩
    by_contra hzero
    push Not at hzero
    exact hsame ⟨hother.1.trans hzero.1.symm, hother.2.trans hzero.2.symm⟩

theorem calcIndex_lt (x y : Int) : calcIndex x y < 1024 := by
  unfold calcIndex maxWalkpath
  omega

/-- The cells next to a cell have other entries. -/
theorem calcIndex_ne (hdir : dir < 8) :
    calcIndex (x + dirx dir) (y + diry dir) ≠ calcIndex x y := by
  unfold calcIndex maxWalkpath
  interval_cases dir <;> simp only [dirx, diry] <;> omega

/-- A written entry counts as reached. -/
theorem Written.reachedCount {tp tp' : Nat → TmpPath} {i : Nat}
    (hw : Written tp tp' i x y dist dir before) (hi : i < 1024) (h0 : 0 < dist) :
    reachedCount tp ≤ reachedCount tp' ∧
      ((tp i).dist = 0 → reachedCount tp' = reachedCount tp + 1) := by
  obtain ⟨⟨p, rfl, -, -, rfl, -⟩, -⟩ := hw
  unfold Nezumi.reachedCount
  constructor
  · refine Finset.card_le_card fun j hj => ?_
    obtain ⟨hj1, hj2⟩ := Finset.mem_filter.1 hj
    refine Finset.mem_filter.2 ⟨hj1, ?_⟩
    rcases eq_or_ne j i with rfl | hne
    · rwa [Function.update_self]
    · rwa [Function.update_of_ne hne]
  · intro hzero
    rw [← Finset.card_insert_of_notMem (a := i) (by simp [hzero])]
    refine congrArg _ (Finset.ext fun j => ?_)
    rw [Finset.mem_insert, Finset.mem_filter, Finset.mem_filter]
    rcases eq_or_ne j i with rfl | hne
    · rw [Function.update_self]
      exact ⟨fun _ => .inl rfl, fun _ => ⟨Finset.mem_range.2 hi, h0⟩⟩
    · rw [Function.update_of_ne hne]
      exact ⟨.inr, fun h => h.resolve_left hne⟩

/-- **A written entry**, when it is in the heap once and the others are as before. -/
theorem Tracked.write {i : Nat} {tp : Nat → TmpPath} {heap : Nat → Nat}
    (h : Tracked start (some rp) s) (hrp : InUse start s.tp rp)
    (hw : Written s.tp tp i ((s.tp rp).x + dirx dir) ((s.tp rp).y + diry dir) dist dir rp)
    (hi : calcIndex ((s.tp rp).x + dirx dir) ((s.tp rp).y + diry dir) = i) (hdir : dir < 8)
    (hge : (s.tp rp).dist + 10 ≤ dist) (hle : dist ≤ (s.tp rp).dist + 14)
    (hcount : (entries heap).count i = 1)
    (hother : ∀ j, j ≠ i → (entries heap).count j = (entries s.heap).count j) :
    Tracked start (some rp) { tp, heap } := by
  have hrp0 := h.dist rp
  have hirp : i ≠ rp := by
    have hne := calcIndex_ne (x := (s.tp rp).x) (y := (s.tp rp).y) hdir
    rwa [hi, h.index rp hrp] at hne
  have hreached := hw.reachedCount (hi ▸ calcIndex_lt ..) (by omega)
  obtain ⟨⟨p, rfl, hpx, hpy, rfl, rfl, hpb, hpf⟩, hlower⟩ := hw
  have hself : Function.update s.tp i p i = p := Function.update_self ..
  have hne : ∀ j, j ≠ i → Function.update s.tp i p j = s.tp j := fun j hj =>
    Function.update_of_ne hj ..
  have huse : ∀ j, j ≠ i → (InUse start (Function.update s.tp i p) j ↔ InUse start s.tp j) := by
    intro j hj
    rw [InUse, hne j hj, InUse]
  refine ⟨fun j hj hf hjr => ?_, fun j hj => ?_, fun hd => ?_, fun j hx hy => ?_,
    fun j hj hd => ?_, fun j hj => ?_, fun j => ?_, fun j hj => ?_⟩
  · rcases eq_or_ne j i with rfl | hji
    · exact hcount
    · dsimp only at hj hf ⊢
      rw [huse j hji] at hj
      rw [hne j hji] at hf
      rw [hother j hji, h.once j hj hf hjr]
  · rcases eq_or_ne j i with rfl | hji
    · refine absurd ⟨.inr ?_, ?_, ?_⟩ hj
      · dsimp only
        rw [hself]
        exact (show 0 < p.dist by omega)
      · dsimp only
        rw [hself, hpf]
      · simpa using hirp
    · dsimp only at hj ⊢
      rw [huse j hji, hne j hji] at hj
      rw [← Multiset.count_eq_zero, hother j hji, Multiset.count_eq_zero]
      exact h.absent j hj
  · dsimp only at hd ⊢
    rcases eq_or_ne start i with rfl | hsi
    · rw [hself] at hd
      exact absurd hd (show p.dist ≠ 0 by omega)
    · rw [hne _ hsi] at hd ⊢
      exact (h.origin hd).imp_right fun ho => .inl (ho.resolve_right (by simp))
  · dsimp only at hx hy ⊢
    rcases eq_or_ne j i with rfl | hji
    · rw [hself] at hx hy
      have hold := h.unused j
      omega
    · rw [hne j hji] at hx hy ⊢
      exact h.unused j hx hy
  · dsimp only at hd ⊢
    rcases eq_or_ne j i with rfl | hji
    · rw [hself] at hd
      exact absurd hd (show p.dist ≠ 0 by omega)
    · rw [hne j hji] at hd ⊢
      exact h.cell j hj hd
  · dsimp only at hj ⊢
    rcases eq_or_ne j i with rfl | hji
    · rw [hself, hpx, hpy]
      exact hi
    · rw [huse j hji] at hj
      rw [hne j hji]
      exact h.index j hj
  · dsimp only
    have hj := h.dist j
    rcases eq_or_ne j i with rfl | hji
    · rw [hself]
      have hold := h.unused j
      omega
    · rw [hne j hji]
      omega
  · dsimp only at hj ⊢
    rcases eq_or_ne j i with rfl | hji
    · rw [LinkedBack, hself, hpb, hne rp (Ne.symm hirp)]
      exact ⟨hdir, _, _, hpx, hpy, .inr ⟨rfl, rfl, hrp, hge⟩⟩
    · rw [hne j hji] at hj
      obtain ⟨hd8, a, b, hxa, hyb, hlink⟩ := h.link j hj
      rw [LinkedBack, hne j hji]
      refine ⟨hd8, a, b, hxa, hyb, ?_⟩
      rcases hlink with hl | ⟨hqa, hqb, hq, hqd⟩
      · exact .inl hl
      · rcases eq_or_ne (s.tp j).before i with hqi | hqi
        · rw [hqi] at hqa hqb hq hqd ⊢
          rcases hlower with ⟨hx0, hy0, -⟩ | ⟨hx, hy, hlt⟩
          · -- only the entry of the start `(0, 0)` is in use and taken over by another cell
            have hold := h.unused i hx0 hy0
            exact .inl ⟨hqa ▸ hx0, hqb ▸ hy0, hq.resolve_right (by omega)⟩
          · rw [hself]
            exact .inr ⟨by omega, by omega, .inr (by omega), by omega⟩
        · rw [hne _ hqi]
          exact .inr ⟨hqa, hqb, hq, hqd⟩

/-- What looking at a neighbour of the entry `rp` does. -/
structure Added (start rp : Nat) (s s' : PathState) : Prop where
  tracked : Tracked start (some rp) s'
  top : s'.tp rp = s.tp rp
  wrote : s' = s ∨ s'.heap 0 ≤ s.heap 0 + 1 ∧ (∀ j, s'.heap 0 < j → s'.heap j = s.heap j) ∧
    ∃ i x y dist dir, i < 1024 ∧ 0 < dist ∧ dist ≤ 14 * 1024 + 14 ∧
      Written s.tp s'.tp i x y dist dir rp

theorem reachedCount_le (tp : Nat → TmpPath) : reachedCount tp ≤ 1024 := by
  unfold reachedCount
  exact (Finset.card_filter_le ..).trans_eq (Finset.card_range _)

theorem mem_neighbours {d : Nat × Int} (hd : d ∈ neighbours) :
    d.1 < 8 ∧ 10 ≤ d.2 ∧ d.2 ≤ 14 := by
  revert d
  decide

/-- **`add_path` keeps the invariant**, and the program does not exit. -/
theorem Tracked.addPath {m : MapData} {flag : BitVec 32} {d : Nat × Int}
    (h : Tracked start (some rp) s) (x1 y1 : Int) (hrp : InUse start s.tp rp) (hd : d ∈ neighbours)
    (hx : (s.tp rp).x = x) (hy : (s.tp rp).y = y)
    (hmove : canMove m x y (x + dirx d.1) (y + diry d.1) flag = true) :
    ∃ s' e, addPath s (x + dirx d.1) (y + diry d.1) ((s.tp rp).dist + d.2) d.1 rp x1 y1 =
      some (s', e) ∧ Added start rp s s' := by
  subst hx hy
  obtain ⟨hdir, hlen10, hlen14⟩ := mem_neighbours hd
  obtain ⟨⟨hx1, hx2⟩, hy1, hy2⟩ := canMove_bounds hmove
  have hrp0 := h.dist rp
  have hcnt := reachedCount_le s.tp
  have hne := calcIndex_ne (x := (s.tp rp).x) (y := (s.tp rp).y) hdir
  rw [h.index rp hrp] at hne
  rcases addPath_cases s d.1 rp x1 y1 (toShort_of_bounds hx1 hx2) (toShort_of_bounds hy1 hy2)
    (toShort_of_bounds (n := (s.tp rp).dist + d.2) (by omega) (by omega)) (by omega) h.unused with
    ⟨e, he⟩ | ⟨tp, tp', hw, hcase⟩
  · exact ⟨s, e, he, h, rfl, .inl rfl⟩
  · generalize hi : calcIndex ((s.tp rp).x + dirx d.1) ((s.tp rp).y + diry d.1) = i at hne hw hcase
    have hilt : i < 1024 := hi ▸ calcIndex_lt ..
    have htop : tp rp = s.tp rp := by
      obtain ⟨⟨p, rfl, -⟩, -⟩ := hw
      exact Function.update_of_ne (Ne.symm hne) ..
    rcases hcase with ⟨hout, he⟩ | ⟨hpos, hflag, he⟩
    · have habsent : i ∉ entries s.heap := by
        refine h.absent i fun ⟨huse, hflag, _⟩ => ?_
        rcases hout with hzero | hout
        · obtain rfl : i = start := huse.resolve_right (by omega)
          rcases h.origin hzero with ho | ho | ho
          · simp [ho] at hflag
          · exact hne (Option.some.inj ho).symm
          · exact absurd ho.1 (by simp)
        · simp [hout] at hflag
      obtain ⟨hentries, hzero, hframe⟩ := entries_push s.heap tp' i
      refine ⟨_, _, he, ?_, htop, .inr ⟨hzero.le, fun j hj => hframe j (hzero ▸ hj), _, _, _, _, _,
        hilt, by omega, by omega, hw⟩⟩
      refine h.write hrp hw hi hdir (by omega) (by omega) ?_ fun j hj => ?_
      · rw [hentries, Multiset.count_cons_self, Multiset.count_eq_zero.2 habsent]
      · rw [hentries, Multiset.count_cons_of_ne hj]
    · have hone := h.once i (.inr hpos) hflag (by simpa using hne)
      have hmem : i ∈ entries s.heap := Multiset.one_le_count_iff_mem.1 hone.ge
      obtain ⟨heap', hup, hentries, hzero, hframe⟩ := entries_update tp' hmem
      rw [hup, Option.map_some] at he
      refine ⟨_, _, he, ?_, htop, .inr ⟨by dsimp only; omega, fun j hj => hframe j (hzero ▸ hj),
        _, _, _, _, _, hilt, by omega, by omega, hw⟩⟩
      refine h.write hrp hw hi hdir (by omega) (by omega) ?_ fun j hj => ?_
      · rw [hentries, hone]
      · rw [hentries]

/-- The direction back. -/
def backDir (dir : Nat) : Nat := (dir + 4) % 8

theorem dirx_backDir (hdir : dir < 8) :
    dirx (backDir dir) = -dirx dir ∧ diry (backDir dir) = -diry dir := by
  interval_cases dir <;> decide

/-- **The cell that an entry was reached from is not added.** Its entry is nearer to the start, or
another cell has it; and no cell has the distance of an empty entry or of the start. -/
theorem Tracked.addPath_back (h : Tracked start (some rp) s) (dir before : Nat) (x1 y1 : Int)
    {len : Int} (hpos : 0 < (s.tp rp).dist) (hlen : 0 ≤ len) :
    ∃ e, Nezumi.addPath s ((s.tp rp).x + dirx (backDir (s.tp rp).dir))
      ((s.tp rp).y + diry (backDir (s.tp rp).dir)) ((s.tp rp).dist + len) dir before x1 y1 =
        some (s, e) := by
  obtain ⟨hdir, a, b, hx, hy, hlink⟩ := h.link rp hpos
  obtain ⟨hbx, hby⟩ := dirx_backDir hdir
  rw [show (s.tp rp).x + dirx (backDir (s.tp rp).dir) = a by omega,
    show (s.tp rp).y + diry (backDir (s.tp rp).dir) = b by omega]
  obtain ⟨hless, hother⟩ : ((s.tp (calcIndex a b)).x = a → (s.tp (calcIndex a b)).y = b →
        ¬ (s.tp rp).dist + len < (s.tp (calcIndex a b)).dist) ∧
      (¬ ((s.tp (calcIndex a b)).x = a ∧ (s.tp (calcIndex a b)).y = b) →
        (s.tp (calcIndex a b)).x ≠ 0 ∨ (s.tp (calcIndex a b)).y ≠ 0) := by
    rcases hlink with ⟨rfl, rfl, -⟩ | ⟨hqa, hqb, hq, hqd⟩
    · have hzero := h.unused (calcIndex 0 0)
      exact ⟨fun hxa hyb => by have := hzero hxa hyb; omega, fun hne => by omega⟩
    · have hidx := h.index _ hq
      rw [hqa, hqb] at hidx
      rw [hidx]
      exact ⟨fun _ _ => by omega, fun hne => absurd ⟨hqa, hqb⟩ hne⟩
  unfold Nezumi.addPath
  dsimp only
  split_ifs with hsame hlt hflag ho
  · exact absurd hlt (hless hsame.1 hsame.2)
  · exact absurd hlt (hless hsame.1 hsame.2)
  · exact ⟨_, rfl⟩
  · exact ⟨_, rfl⟩
  · exact absurd (hother hsame) ho

end Add

/-! ## The points of the loop -/

section Points

variable {start rp : Nat} {s s' : PathState}

theorem card_entries (heap : Nat → Nat) : (entries heap).card = heap 0 := by
  unfold entries Rearrange.values
  rw [Multiset.card_map, Finset.card_val, Nat.card_Icc, Nat.add_sub_cancel]

/-- **An entry is taken** from the heap: it is in use, and nothing is left if it is the start. -/
theorem Tracked.pop {heap : Nat → Nat} (h : Tracked start none s) (hpos : s.heap 0 ≠ 0)
    (hpop : popHeapPath s.heap s.tp = (rp, heap)) :
    Tracked start (some rp) { s with heap } ∧ InUse start s.tp rp ∧ heap 0 = s.heap 0 - 1 ∧
      ((s.tp rp).dist = 0 → heap 0 = 0) ∧ ∀ j, s.heap 0 < j → heap j = s.heap j := by
  obtain ⟨hentries, hzero, hframe⟩ := entries_pop s.heap s.tp hpos
  rw [hpop] at hentries hzero hframe
  dsimp only at hentries hzero hframe
  have hmem : rp ∈ entries s.heap := hentries ▸ Multiset.mem_cons_self ..
  obtain ⟨huse, hflag⟩ : InUse start s.tp rp ∧ (s.tp rp).flag = false := by
    by_contra hn
    exact h.absent rp (fun hc => hn ⟨hc.1, hc.2.1⟩) hmem
  have hone := h.once rp huse hflag (by simp)
  have hgone : rp ∉ entries heap := by
    rw [← hentries, Multiset.count_cons_self] at hone
    exact Multiset.count_eq_zero.1 (by omega)
  have hcount : ∀ j, j ≠ rp → (entries heap).count j = (entries s.heap).count j := fun j hj => by
    rw [← hentries, Multiset.count_cons_of_ne hj]
  refine ⟨⟨fun i hi hf hne => ?_, fun i hi => ?_, fun hd => ?_, h.unused, h.cell, h.index, h.dist,
    h.link⟩, huse, hzero, fun hd => ?_, hframe⟩
  · have hne' : i ≠ rp := by simpa using hne
    exact (hcount i hne').trans (h.once i hi hf (by simp))
  · rcases eq_or_ne i rp with rfl | hne
    · exact hgone
    · dsimp only at hi ⊢
      rw [← Multiset.count_eq_zero, hcount i hne, Multiset.count_eq_zero]
      exact h.absent i fun hc => hi ⟨hc.1, hc.2.1, by simpa using hne⟩
  · rcases h.origin hd with ho | ho | ⟨-, ho⟩
    · exact .inl ho
    · exact absurd ho (by simp)
    · by_cases hf : (s.tp start).flag = true
      · exact .inl hf
      · have hstart : start ∈ entries s.heap := Multiset.one_le_count_iff_mem.1
          (h.once start (.inl rfl) (by simpa using hf) (by simp)).ge
        have hempty : entries heap = 0 := Multiset.card_eq_zero.1 (by rw [card_entries]; omega)
        rw [← hentries, hempty] at hstart
        exact .inr (.inl (congrArg some (by simpa [eq_comm] using hstart)))
  · obtain rfl : rp = start := huse.resolve_right (by omega)
    rcases h.origin hd with ho | ho | ⟨-, ho⟩
    · simp [ho] at hflag
    · exact absurd ho (by simp)
    · omega

/-- **The expanded entry** gets its flag. -/
theorem Tracked.expanded (h : Tracked start (some rp) s) :
    Tracked start none
      { s with tp := Function.update s.tp rp { s.tp rp with flag := true } } := by
  generalize htp : Function.update s.tp rp { s.tp rp with flag := true } = tp
  have hsame : ∀ i, (tp i).x = (s.tp i).x ∧ (tp i).y = (s.tp i).y ∧ (tp i).dist = (s.tp i).dist ∧
      (tp i).dir = (s.tp i).dir ∧ (tp i).before = (s.tp i).before := by
    intro i
    rw [← htp]
    rcases eq_or_ne i rp with rfl | hne
    · simp
    · simp [hne]
  have hflag : ∀ i, (tp i).flag = false ↔ (s.tp i).flag = false ∧ i ≠ rp := by
    intro i
    rw [← htp]
    rcases eq_or_ne i rp with rfl | hne
    · simp
    · simp [hne]
  have huse : ∀ i, InUse start tp i ↔ InUse start s.tp i := fun i => by
    rw [InUse, (hsame i).2.2.1, InUse]
  have hreached : reachedCount tp = reachedCount s.tp := by
    unfold reachedCount
    simp only [(hsame _).2.2.1]
  refine ⟨fun i hi hf _ => ?_, fun i hi => ?_, fun hd => ?_, fun i => ?_, fun i => ?_, fun i => ?_,
    fun i => ?_, fun i => ?_⟩
  · obtain ⟨hf, hne⟩ := (hflag i).1 hf
    exact h.once i ((huse i).1 hi) hf (by simpa using hne)
  · exact h.absent i fun ⟨hu, hf, hne⟩ =>
      hi ⟨(huse i).2 hu, (hflag i).2 ⟨hf, by simpa using hne⟩, by simp⟩
  · dsimp only at hd ⊢
    rw [(hsame start).2.2.1] at hd
    refine .inl ?_
    by_contra hf
    obtain ⟨hf, hne⟩ := (hflag start).1 (by simpa using hf)
    rcases h.origin hd with ho | ho | ho
    · simp [ho] at hf
    · exact hne (Option.some.inj ho).symm
    · exact absurd ho.1 (by simp)
  · dsimp only
    rw [(hsame i).1, (hsame i).2.1, (hsame i).2.2.1]
    exact h.unused i
  · dsimp only
    rw [(hsame i).1, (hsame i).2.1, (hsame i).2.2.1]
    exact h.cell i
  · dsimp only
    rw [(hsame i).1, (hsame i).2.1, huse]
    exact h.index i
  · dsimp only
    rw [(hsame i).2.2.1, hreached]
    exact h.dist i
  · dsimp only
    rw [(hsame i).2.2.1]
    intro hpos
    obtain ⟨hx, hy, hd, hdir, hb⟩ := hsame i
    obtain ⟨hqx, hqy, hqd, -, -⟩ := hsame (s.tp i).before
    rw [LinkedBack, hx, hy, hd, hdir, hb, hqx, hqy, hqd]
    exact h.link i hpos

/-- How many more entries the heap may get while `rest` is looked at: at the beginning it is empty,
and later the cell that `rp` was reached from is not added. -/
def Room (tp : Nat → TmpPath) (rp used : Nat) (rest : List (Nat × Int)) : Prop :=
  used + rest.length ≤ maxHeap ∨
    0 < (tp rp).dist ∧ used + (rest.filter fun d => d.1 ≠ backDir (tp rp).dir).length ≤ maxHeap

/-- What holds at a point of the loop. -/
def HoldsAt (start : Nat) : SearchPoint → PathState → Prop
  | .loop, s => Tracked start none s ∧ s.heap 0 < maxHeap - 5
  | .expands rp x y rest _, s => Tracked start (some rp) s ∧ InUse start s.tp rp ∧
      ((s.tp rp).x = x ∧ (s.tp rp).y = y) ∧ (∀ d ∈ rest, d ∈ neighbours) ∧
      Room s.tp rp (s.heap 0) rest

variable {m : MapData} {flag : BitVec 32} {x0 y0 x1 y1 x y : Int} {d : Nat × Int}
  {rest : List (Nat × Int)} {e : Nat}

theorem calcIndex_toShort (x y : Int) : calcIndex (toShort x) (toShort y) = calcIndex x y := by
  have hx := Int.bmod_eq_self_sub_mul_bdiv x (2 ^ 16)
  have hy := Int.bmod_eq_self_sub_mul_bdiv y (2 ^ 16)
  unfold calcIndex maxWalkpath toShort
  omega

theorem searchStart_self (x0 y0 x1 y1 : Int) :
    (searchStart x0 y0 x1 y1).tp (calcIndex x0 y0) =
      { x := toShort x0, y := toShort y0,
        cost := toShort (calcCost { x := toShort x0, y := toShort y0 } x1 y1) } := by
  unfold searchStart
  dsimp only
  rw [Function.update_self]

theorem searchStart_of_ne (x0 y0 x1 y1 : Int) {i : Nat} (hi : i ≠ calcIndex x0 y0) :
    (searchStart x0 y0 x1 y1).tp i = {} := by
  unfold searchStart
  dsimp only
  rw [Function.update_of_ne hi]

theorem searchStart_dist (x0 y0 x1 y1 : Int) (i : Nat) :
    ((searchStart x0 y0 x1 y1).tp i).dist = 0 ∧ ((searchStart x0 y0 x1 y1).tp i).flag = false := by
  rcases eq_or_ne i (calcIndex x0 y0) with rfl | hne
  · rw [searchStart_self]
    exact ⟨rfl, rfl⟩
  · rw [searchStart_of_ne x0 y0 x1 y1 hne]
    exact ⟨rfl, rfl⟩

/-- **The beginning**: only the start is in the heap. -/
theorem searchStart_holds (x0 y0 x1 y1 : Int) :
    HoldsAt (calcIndex x0 y0) .loop (searchStart x0 y0 x1 y1) ∧
      ∀ j, 1 < j → (searchStart x0 y0 x1 y1).heap j = 0 := by
  obtain ⟨hentries, hzero, hframe⟩ := entries_push (fun _ => 0) (searchStart x0 y0 x1 y1).tp
    (calcIndex x0 y0)
  have hheap : (searchStart x0 y0 x1 y1).heap =
    pushHeapPath (fun _ => 0) (searchStart x0 y0 x1 y1).tp (calcIndex x0 y0) := rfl
  rw [← hheap] at hentries hzero hframe
  have huse : ∀ i, InUse (calcIndex x0 y0) (searchStart x0 y0 x1 y1).tp i → i = calcIndex x0 y0 :=
    fun i hi => hi.resolve_right (by rw [(searchStart_dist x0 y0 x1 y1 i).1]; omega)
  have hempty : entries (fun _ => 0) = 0 := rfl
  rw [hempty] at hentries
  refine ⟨⟨⟨fun i hi _ _ => ?_, fun i hi => ?_, fun _ => .inr (.inr ⟨rfl, hzero⟩), fun i _ _ => ?_,
    fun i hi _ => ?_, fun i hi => ?_, fun i => ?_, fun i hi => ?_⟩, ?_⟩, hframe⟩
  · rw [huse i hi, hentries, Multiset.count_cons_self, Multiset.count_zero]
  · rw [hentries]
    intro hmem
    obtain rfl : i = calcIndex x0 y0 := by simpa using hmem
    exact hi ⟨.inl rfl, (searchStart_dist ..).2, by simp⟩
  · exact (searchStart_dist ..).1
  · rw [searchStart_of_ne x0 y0 x1 y1 hi]
    exact ⟨rfl, rfl⟩
  · rw [huse i hi, searchStart_self]
    exact calcIndex_toShort x0 y0
  · rw [(searchStart_dist x0 y0 x1 y1 i).1]
    omega
  · rw [(searchStart_dist x0 y0 x1 y1 i).1] at hi
    omega
  · unfold maxHeap
    omega

/-- The room after a neighbour has been looked at, which is added only if it is not the cell back.
-/
theorem Room.next {tp : Nat → TmpPath} {used used' : Nat} (h : Room tp rp used (d :: rest))
    (hback : 0 < (tp rp).dist → d.1 = backDir (tp rp).dir → used' = used) (hle : used' ≤ used + 1) :
    Room tp rp used' rest := by
  rcases h with h | ⟨hpos, h⟩
  · rw [List.length_cons] at h
    exact .inl (by omega)
  · refine .inr ⟨hpos, ?_⟩
    rw [List.filter_cons] at h
    split_ifs at h with hd
    · rw [List.length_cons] at h
      omega
    · have := hback hpos (by simpa using hd)
      omega

theorem Room.le {tp : Nat → TmpPath} {used : Nat} (h : Room tp rp used rest) : used ≤ maxHeap := by
  rcases h with h | ⟨-, h⟩ <;> omega

/-- All but one of the neighbours. -/
theorem neighbours_filter (dir : Nat) :
    (neighbours.filter fun d => d.1 ≠ backDir dir).length = 7 := by
  have hlt : backDir dir < 8 := Nat.mod_lt _ (by decide)
  generalize backDir dir = k at hlt
  interval_cases k <;> decide

/-- **The states of the search** at the points of its loop. -/
theorem Reaches.holds {pt : SearchPoint} (h : Reaches m flag x0 y0 x1 y1 pt s) :
    HoldsAt (calcIndex x0 y0) pt s ∧ ∀ j, maxHeap < j → s.heap j = 0 := by
  induction h with
  | start =>
    obtain ⟨h, hframe⟩ := searchStart_holds x0 y0 x1 y1
    exact ⟨h, fun j hj => hframe j (by unfold maxHeap at hj; omega)⟩
  | @pop s rp heap _ hpos hpop ih =>
    obtain ⟨⟨h, hlt⟩, hframe⟩ := ih
    obtain ⟨h', huse, hzero, hstart, hkeep⟩ := h.pop hpos hpop
    unfold maxHeap at hlt hframe ⊢
    refine ⟨⟨h', huse, ⟨rfl, rfl⟩, fun _ => id, ?_⟩, fun j hj => ?_⟩
    · rcases (h.dist rp).1.eq_or_lt with hd | hd
      · have hnone := hstart hd.symm
        exact .inl (by dsimp only; rw [hnone]; decide)
      · refine .inr ⟨hd, ?_⟩
        rw [neighbours_filter]
        unfold maxHeap
        dsimp only
        omega
    · exact (hkeep j (by omega)).trans (hframe j hj)
  | blocked _ _ ih =>
    obtain ⟨⟨h, huse, hcell, hmem, hroom⟩, hframe⟩ := ih
    exact ⟨⟨h, huse, hcell, fun d hd => hmem d (List.mem_cons_of_mem _ hd),
      hroom.next (fun _ _ => rfl) (by omega)⟩, hframe⟩
  | @add rp x y d rest e s s' e' _ hmove hadd ih =>
    obtain ⟨⟨h, huse, ⟨rfl, rfl⟩, hmem, hroom⟩, hframe⟩ := ih
    obtain ⟨s₂, e₂, hadd', h', htop, hwrote⟩ := h.addPath x1 y1 huse
      (hmem d List.mem_cons_self) rfl rfl hmove
    obtain ⟨rfl, rfl⟩ := Prod.mk.inj (Option.some.inj (hadd.symm.trans hadd'))
    have hnext : Room s.tp rp (s'.heap 0) rest := by
      refine hroom.next (fun hpos hback => ?_) ?_
      · obtain ⟨hdir, hlen, -⟩ := mem_neighbours (hmem d List.mem_cons_self)
        obtain ⟨e₂, he₂⟩ := @Tracked.addPath_back _ _ _ h d.1 rp x1 y1 d.2 hpos (by omega)
        rw [← hback, hadd] at he₂
        rw [(Prod.mk.inj (Option.some.inj he₂)).1]
      · rcases hwrote with rfl | ⟨hle, -⟩
        · omega
        · exact hle
    refine ⟨⟨h', ?_, ?_, fun d hd => hmem d (List.mem_cons_of_mem _ hd), ?_⟩, fun j hj => ?_⟩
    · rwa [InUse, htop]
    · rw [htop]
      exact ⟨rfl, rfl⟩
    · rwa [Room, htop]
    · rcases hwrote with rfl | ⟨-, hkeep, -⟩
      · exact hframe j hj
      · exact (hkeep j (by have := hnext.le; omega)).trans (hframe j hj)
  | expanded _ hlt ih =>
    obtain ⟨⟨h, -⟩, hframe⟩ := ih
    exact ⟨⟨h.expanded, hlt⟩, hframe⟩

end Points

/-! ## The run of the search -/

section Run

variable {m : MapData} {flag : BitVec 32} {x0 y0 x1 y1 x y : Int} {s : PathState} {rp : Nat}

/-- The program does not exit where a neighbour is looked at. -/
theorem Reaches.addPath {d : Nat × Int} {rest : List (Nat × Int)} {e : Nat}
    (h : Reaches m flag x0 y0 x1 y1 (.expands rp x y (d :: rest) e) s)
    (hmove : canMove m x y (x + dirx d.1) (y + diry d.1) flag = true) :
    ∃ s' e', Nezumi.addPath s (x + dirx d.1) (y + diry d.1) ((s.tp rp).dist + d.2) d.1 rp x1 y1 =
      some (s', e') ∧ Added (calcIndex x0 y0) rp s s' := by
  obtain ⟨⟨h, huse, ⟨hx, hy⟩, hmem, -⟩, -⟩ := h.holds
  exact h.addPath x1 y1 huse (hmem d List.mem_cons_self) hx hy hmove

theorem addNeighbours_reaches (dirs : List (Nat × Int)) {e : Nat}
    (h : Reaches m flag x0 y0 x1 y1 (.expands rp x y dirs e) s) :
    ∃ s' e', addNeighbours m flag x1 y1 rp x y dirs (s, e) = some (s', e') ∧
      Reaches m flag x0 y0 x1 y1 (.expands rp x y [] e') s' := by
  induction dirs generalizing s e with
  | nil => exact ⟨s, e, rfl, h⟩
  | cons d rest ih =>
    unfold addNeighbours
    by_cases hmove : canMove m x y (x + dirx d.1) (y + diry d.1) flag = true
    · obtain ⟨s', e', he, -⟩ := h.addPath hmove
      rw [if_pos hmove, he, Option.bind_some]
      exact ih (h.add hmove he)
    · rw [if_neg hmove]
      exact ih (h.blocked (by simpa using hmove))

/-- The loop of the search goes through these states. It does not exit, and it finds the goal at the
top of the heap of one of them. -/
theorem searchGoal_reaches (fuel : Nat) (h : Reaches m flag x0 y0 x1 y1 .loop s) :
    searchGoal m x1 y1 flag fuel s ≠ .exits ∧
      ∀ tp rp, searchGoal m x1 y1 flag fuel s = .goal tp rp →
        ∃ s heap, Reaches m flag x0 y0 x1 y1 .loop s ∧ s.heap 0 ≠ 0 ∧ s.tp = tp ∧
          popHeapPath s.heap s.tp = (rp, heap) := by
  induction fuel generalizing s with
  | zero => exact ⟨by simp [searchGoal], fun tp rp he => by simp [searchGoal] at he⟩
  | succ fuel ih =>
    unfold searchGoal
    by_cases hpos : s.heap 0 = 0
    · rw [if_pos hpos]
      exact ⟨by simp, fun tp rp he => by simp at he⟩
    · obtain ⟨top, heap, hpop⟩ : ∃ top heap, popHeapPath s.heap s.tp = (top, heap) := ⟨_, _, rfl⟩
      rw [if_neg hpos, hpop]
      dsimp only
      split_ifs with hgoal
      · refine ⟨by simp, fun tp rp he => ?_⟩
        obtain ⟨rfl, rfl⟩ := SearchEnd.goal.inj he
        exact ⟨s, _, h, hpos, rfl, hpop⟩
      · obtain ⟨s', e', he, h'⟩ := addNeighbours_reaches neighbours (h.pop hpos hpop)
        rw [he]
        dsimp only
        split_ifs with hend
        · exact ⟨by simp, fun tp rp he => by simp at he⟩
        · push Not at hend
          obtain rfl : e' = 0 := hend.1
          exact ih (h'.expanded hend.2)

/-- The search goes on where the map is there and the goal can be walked on. -/
theorem findPath_found {m : MapData} {x1 y1 : Int} (x0 y0 : Int) (flag : BitVec 32) (fuel : ℕ)
    (hmap : ¬ m.gat.isNone)
    (htarget : ¬ (x1 < 0 ∨ y1 < 0 ∨ m.xs ≤ x1 ∨ m.ys ≤ y1 ∨ mapGetcellp m x1 y1 .chkNoPass ≠ 0)) :
    findPath m fuel x0 y0 x1 y1 flag =
      match easyPath m x1 y1 flag (if x1 - x0 < 0 then -1 else 1)
        (if y1 - y0 < 0 then -1 else 1) maxWalkpath x0 y0 with
      | .reached path => .easy path
      | .tooLong => .noPath
      | .blocked =>
        if flag &&& 1 ≠ 0 then .noPath
        else searchGoal m x1 y1 flag fuel (searchStart x0 y0 x1 y1) :=
  (if_neg hmap).trans (if_neg htarget)

/-- Before the search there is no loop that could go on forever or exit. -/
theorem findPath_cases (m : MapData) (x0 y0 x1 y1 : Int) (flag : BitVec 32) :
    (∀ fuel, findPath m fuel x0 y0 x1 y1 flag = .noPath) ∨
      (∃ path, ∀ fuel, findPath m fuel x0 y0 x1 y1 flag = .easy path) ∨
      ∀ fuel, findPath m fuel x0 y0 x1 y1 flag =
        searchGoal m x1 y1 flag fuel (searchStart x0 y0 x1 y1) := by
  by_cases hmap : m.gat.isNone
  · exact .inl fun fuel => by rw [findPath, if_pos hmap]
  · by_cases htarget : x1 < 0 ∨ y1 < 0 ∨ m.xs ≤ x1 ∨ m.ys ≤ y1 ∨ mapGetcellp m x1 y1 .chkNoPass ≠ 0
    · exact .inl fun fuel => by rw [findPath, if_neg hmap, if_pos htarget]
    · have hfind := fun fuel => findPath_found x0 y0 flag fuel hmap htarget
      revert hfind
      generalize easyPath m x1 y1 flag (if x1 - x0 < 0 then -1 else 1)
        (if y1 - y0 < 0 then -1 else 1) maxWalkpath x0 y0 = r
      intro hfind
      cases r with
      | reached path => exact .inr (.inl ⟨path, hfind⟩)
      | tooLong => exact .inl hfind
      | blocked =>
        by_cases hflag : flag &&& 1 ≠ 0
        · exact .inl fun fuel => (hfind fuel).trans (if_pos hflag)
        · exact .inr (.inr fun fuel => (hfind fuel).trans (if_neg hflag))

theorem pathBack_cases (tp : Nat → TmpPath) (rp : Nat) (x0 y0 : Int) :
    pathBack tp rp x0 y0 = .noPath ∨ ∃ path, pathBack tp rp x0 y0 = .path path := by
  unfold pathBack
  dsimp only
  split
  · exact .inl rfl
  · exact .inr ⟨_, rfl⟩

theorem pathSearch_ne_exits (m : MapData) (fuel : Nat) (x0 y0 x1 y1 : Int) (flag : BitVec 32) :
    pathSearch m fuel x0 y0 x1 y1 flag ≠ .exits := by
  unfold pathSearch
  rcases findPath_cases m x0 y0 x1 y1 flag with h | ⟨path, h⟩ | h
  · rw [h]
    simp
  · rw [h]
    simp
  · obtain ⟨hexits, -⟩ := searchGoal_reaches fuel (@Reaches.start m flag x0 y0 x1 y1)
    rw [h]
    cases hend : searchGoal m x1 y1 flag fuel (searchStart x0 y0 x1 y1) with
    | goal tp rp => rcases pathBack_cases tp rp x0 y0 with hback | ⟨path, hback⟩ <;> simp [hback]
    | exits => exact absurd hend hexits
    | _ => simp

end Run

/-! ## The heap of a search -/

/-- The entry that is being expanded. -/
def SearchPoint.top : SearchPoint → Option Nat
  | .loop => none
  | .expands rp .. => some rp

/-- The heap stays in its array. An entry of the table that is in use is in the heap once if it has
the flag 0, and not at all otherwise; only the entry that is being expanded has the flag 0 and is
not in the heap. So every entry that has to be moved in the heap is found. -/
structure HeapKept (m : MapData) (x0 y0 x1 y1 : Int) (flag : BitVec 32) : Prop where
  le : ∀ pt s, Reaches m flag x0 y0 x1 y1 pt s → s.heap 0 ≤ maxHeap
  behind : ∀ pt s, Reaches m flag x0 y0 x1 y1 pt s → ∀ j, maxHeap < j → s.heap j = 0
  once : ∀ pt s, Reaches m flag x0 y0 x1 y1 pt s → ∀ i, Made x0 y0 s.tp i → pt.top ≠ some i →
    ((s.tp i).flag = false ↔ (entries s.heap).count i = 1) ∧
      ((s.tp i).flag = true ↔ (entries s.heap).count i = 0)
  absent : ∀ pt s, Reaches m flag x0 y0 x1 y1 pt s → ∀ i,
    ¬ Made x0 y0 s.tp i ∨ pt.top = some i → (entries s.heap).count i = 0
  found : ∀ rp x y d rest e s, Reaches m flag x0 y0 x1 y1 (.expands rp x y (d :: rest) e) s →
    canMove m x y (x + dirx d.1) (y + diry d.1) flag = true →
    addPath s (x + dirx d.1) (y + diry d.1) ((s.tp rp).dist + d.2) d.1 rp x1 y1 ≠ none
  goesOn : ∀ fuel, pathSearch m fuel x0 y0 x1 y1 flag ≠ .exits

theorem inUse_iff_made {x0 y0 : Int} {rp : Option Nat} {s : PathState}
    (h : Tracked (calcIndex x0 y0) rp s) (i : Nat) :
    InUse (calcIndex x0 y0) s.tp i ↔ Made x0 y0 s.tp i := by
  have hdist := h.dist i
  have hunused := h.unused i
  have hcell := h.cell i
  unfold InUse Made
  constructor
  · rintro (hs | hpos)
    · exact .inl hs
    · exact .inr (by omega)
  · intro hm
    by_cases hs : i = calcIndex x0 y0
    · exact .inl hs
    · have hxy := hm.resolve_left hs
      exact .inr (by omega)

theorem Reaches.tracked {m : MapData} {x0 y0 x1 y1 : Int} {flag : BitVec 32} {pt : SearchPoint}
    {s : PathState} (h : Reaches m flag x0 y0 x1 y1 pt s) :
    Tracked (calcIndex x0 y0) pt.top s ∧ s.heap 0 ≤ maxHeap := by
  have hholds := h.holds.1
  cases pt with
  | loop => exact ⟨hholds.1, by have := hholds.2; omega⟩
  | expands => exact ⟨hholds.1, hholds.2.2.2.2.le⟩

/-- **The heap of every search stays in its array**, and the program does not exit. -/
theorem heapKept_all (m : MapData) (x0 y0 x1 y1 : Int) (flag : BitVec 32) :
    HeapKept m x0 y0 x1 y1 flag := by
  refine ⟨fun pt s h => h.tracked.2, fun pt s h => h.holds.2, fun pt s h i hmade htop => ?_,
    fun pt s h i hi => ?_, fun rp x y d rest e s h hmove => ?_,
    fun fuel => pathSearch_ne_exits m fuel x0 y0 x1 y1 flag⟩
  · have ht := h.tracked.1
    rw [← inUse_iff_made ht] at hmade
    by_cases hf : (s.tp i).flag = false
    · have hone := ht.once i hmade hf fun heq => htop heq.symm
      simp [hf, hone]
    · have hzero := Multiset.count_eq_zero.2 (ht.absent i fun hc => hf hc.2.1)
      simp [hf, hzero]
  · have ht := h.tracked.1
    rw [← inUse_iff_made ht] at hi
    refine Multiset.count_eq_zero.2 (ht.absent i fun hc => ?_)
    rcases hi with hi | hi
    · exact hi hc.1
    · exact hc.2.2 hi.symm
  · obtain ⟨s', e', he, -⟩ := h.addPath hmove
    rw [he]
    simp

end Nezumi
