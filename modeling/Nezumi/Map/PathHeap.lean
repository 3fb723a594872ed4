import Mathlib.Order.Interval.Finset.Nat
import Nezumi.Lib.Rearrange
import Nezumi.Map.PathLemmas

/-!
# The heap of the path search (`map/path.c`)

* `entries`: the entries of the heap, in any order.
* `siftUp_rearranges`, `siftDown_rearranges`: the loops only move a hole.
* `entries_push`, `entries_update`, `entries_pop`: what the functions do with the entries. Places
  behind the heap stay as they are.
-/

namespace Nezumi

open Rearrange

section Heap

variable {cost : Nat → Int} {heap : Nat → Nat} {tp : Nat → TmpPath} {idx n : Nat}

/-- The entries of the heap. -/
def entries (heap : Nat → Nat) : Multiset Nat := Rearrange.values (Finset.Icc 1 (heap 0)) heap

theorem siftUp_rearranges (cost : Nat → Int) (heap : Nat → Nat) (idx fuel : Nat) {h : Nat}
    (hh : h < n) :
    Rearranges (Finset.Icc 1 n) (Function.update heap (h + 1) idx)
      (siftUp cost idx fuel heap h) := by
  induction fuel generalizing heap h with
  | zero => exact Rearranges.refl _ _
  | succ fuel ih =>
    unfold siftUp
    dsimp only
    split_ifs with hlt
    · refine (Rearranges.hole (b := (h - 1) / 2 + 1) ?_ ?_ heap idx).trans (ih _ (by omega))
      · exact Finset.mem_Icc.2 (by omega)
      · exact Finset.mem_Icc.2 (by omega)
    · exact Rearranges.refl _ _

/-- The loop that moves the hole down, with any value in the hole. -/
theorem siftDown_rearranges (cost : Nat → Int) (heap : Nat → Nat) (fuel : Nat) {h k : Nat}
    (hn : heap 0 = n) (hh : h < n) (hk : k = 2 * h + 2) (x : Nat) :
    let r := siftDown cost fuel heap h k
    Rearranges (Finset.Icc 1 n) (Function.update heap (h + 1) x)
        (Function.update r.1 (r.2.1 + 1) x) ∧
      r.2.1 < n ∧ r.2.2 = 2 * r.2.1 + 2 ∧ r.1 0 = n := by
  induction fuel generalizing heap h k with
  | zero => exact ⟨Rearranges.refl _ _, hh, hk, hn⟩
  | succ fuel ih =>
    have step : ∀ c, c = k ∨ c = k - 1 → k < n →
        let r := siftDown cost fuel (Function.update heap (h + 1) (heap (c + 1))) c (c * 2 + 2)
        Rearranges (Finset.Icc 1 n) (Function.update heap (h + 1) x)
            (Function.update r.1 (r.2.1 + 1) x) ∧
          r.2.1 < n ∧ r.2.2 = 2 * r.2.1 + 2 ∧ r.1 0 = n := by
      intro c hc hlt
      obtain ⟨hr, hrest⟩ := @ih (Function.update heap (h + 1) (heap (c + 1))) c (c * 2 + 2)
        (by rw [Function.update_of_ne (by omega), hn]) (by omega) (by omega)
      refine ⟨(Rearranges.hole (b := c + 1) ?_ ?_ heap x).trans hr, hrest⟩
      · exact Finset.mem_Icc.2 (by omega)
      · exact Finset.mem_Icc.2 (by omega)
    unfold siftDown
    dsimp only
    by_cases hlt : k < heap 0
    · rw [if_pos hlt]
      by_cases hcost : cost (heap k) < cost (heap (k + 1))
      · rw [if_pos hcost]
        exact step _ (.inr rfl) (by omega)
      · rw [if_neg hcost]
        exact step _ (.inl rfl) (by omega)
    · rw [if_neg hlt]
      exact ⟨Rearranges.refl _ _, hh, hk, hn⟩

/-! ## The functions -/

theorem Icc_one (hn : 1 ≤ n) : Finset.Icc 1 n = insert 1 (Finset.Icc 2 n) := by
  ext i
  rw [Finset.mem_insert, Finset.mem_Icc, Finset.mem_Icc]
  omega

theorem Icc_succ (n : Nat) : Finset.Icc 1 (n + 1) = insert (n + 1) (Finset.Icc 1 n) := by
  ext i
  rw [Finset.mem_insert, Finset.mem_Icc, Finset.mem_Icc]
  omega

/-- A new entry is added, and only the place behind the heap is taken. -/
theorem entries_push (heap : Nat → Nat) (tp : Nat → TmpPath) (idx : Nat) :
    entries (pushHeapPath heap tp idx) = idx ::ₘ entries heap ∧
      pushHeapPath heap tp idx 0 = heap 0 + 1 ∧
      ∀ j, heap 0 + 1 < j → pushHeapPath heap tp idx j = heap j := by
  have hr := siftUp_rearranges (fun i => (tp i).cost) (Function.update heap 0 (heap 0 + 1)) idx
    (heap 0) (Nat.lt_succ_self (heap 0))
  have hpush : pushHeapPath heap tp idx = siftUp (fun i => (tp i).cost) idx (heap 0)
      (Function.update heap 0 (heap 0 + 1)) (heap 0) := by
    unfold pushHeapPath
    dsimp only
    rw [Function.update_self, Nat.add_sub_cancel]
  rw [← hpush] at hr
  have hzero : pushHeapPath heap tp idx 0 = heap 0 + 1 := by
    rw [hr.eq_of_notMem (by simp), Function.update_of_ne (by omega), Function.update_self]
  refine ⟨?_, hzero, fun j hj => ?_⟩
  · unfold entries
    rw [hzero, hr.values_eq, Icc_succ, values_insert (by simp), Function.update_self]
    refine congrArg _ (values_congr fun i hi => ?_)
    rw [Finset.mem_Icc] at hi
    rw [Function.update_of_ne (by omega), Function.update_of_ne (by omega)]
  · rw [hr.eq_of_notMem (by simp; omega), Function.update_of_ne (by omega),
      Function.update_of_ne (by omega)]

/-- An entry of the heap is found. -/
theorem findHeap_of_mem (fuel h : Nat) {j : Nat} (hj : h < j) (hle : j ≤ h + fuel)
    (hat : heap j = idx) :
    findHeap heap idx fuel h < h + fuel := by
  induction fuel generalizing h with
  | zero => omega
  | succ fuel ih =>
    unfold findHeap
    split_ifs with he
    · omega
    · rcases eq_or_ne j (h + 1) with rfl | hne
      · exact absurd hat he
      · have := ih (h + 1) (by omega) (by omega)
        omega

/-- An entry of the heap is moved in it. -/
theorem entries_update (tp : Nat → TmpPath) (hmem : idx ∈ entries heap) :
    ∃ heap', updateHeapPath heap tp idx = some heap' ∧ entries heap' = entries heap ∧
      heap' 0 = heap 0 ∧ ∀ j, heap 0 < j → heap' j = heap j := by
  obtain ⟨j, hj, hat⟩ := mem_values.1 hmem
  obtain ⟨h1, h2⟩ := Finset.mem_Icc.1 hj
  have hlt := findHeap_of_mem (heap 0) 0 h1 (by omega) hat
  rw [Nat.zero_add] at hlt
  have hidx := (@findHeap_spec heap idx (heap 0) 0).resolve_left (by omega)
  unfold updateHeapPath
  dsimp only
  rw [if_neg (by omega)]
  have hr := siftUp_rearranges (fun i => (tp i).cost) heap idx (findHeap heap idx (heap 0) 0) hlt
  have hsame : Function.update heap (findHeap heap idx (heap 0) 0 + 1) idx = heap := by
    rw [Function.update_eq_self_iff, hidx.2]
  rw [hsame] at hr
  have hzero := hr.eq_of_notMem (a := 0) (by simp)
  refine ⟨_, rfl, ?_, hzero, fun j hj => hr.eq_of_notMem (by simp; omega)⟩
  unfold entries
  rw [hzero, hr.values_eq]

/-- The hole of the first place filled with the last entry. -/
theorem popHeapPath_rearranges (heap : Nat → Nat) (tp : Nat → TmpPath) (hn : heap 0 = n + 1) :
    Rearranges (Finset.Icc 1 (max 1 n))
      (Function.update (Function.update heap 0 n) 1 (heap (n + 1))) (popHeapPath heap tp).2 := by
  unfold popHeapPath
  dsimp only
  rw [hn, Nat.add_sub_cancel]
  rcases Nat.eq_zero_or_pos n with rfl | hpos
  · rw [if_neg (by simp [siftDown])]
    exact Rearranges.refl _ _
  · obtain ⟨hdown, hlt, hk, hz⟩ := @siftDown_rearranges n (fun i => (tp i).cost)
      (Function.update heap 0 n) (Function.update heap 0 n 0) 0 2 (Function.update_self ..) hpos rfl
      (heap (n + 1))
    rw [Nat.max_eq_right hpos]
    refine hdown.trans ?_
    revert hlt hk hz
    generalize siftDown (fun i => (tp i).cost) (Function.update heap 0 n 0)
      (Function.update heap 0 n) 0 2 = r
    intro hlt hk hz
    split_ifs with hlast
    · have hkn : r.2.2 = n := hlast.trans hz
      have hup := @siftUp_rearranges n (fun i => (tp i).cost)
        (Function.update r.1 (r.2.1 + 1) (r.1 r.2.2)) (heap (n + 1)) (r.2.2 - 1) (r.2.2 - 1)
        (by omega)
      rw [Nat.sub_add_cancel (by omega)] at hup
      refine (Rearranges.hole ?_ ?_ r.1 (heap (n + 1))).trans hup
      · exact Finset.mem_Icc.2 (by omega)
      · exact Finset.mem_Icc.2 (by omega)
    · exact siftUp_rearranges _ _ _ _ hlt

/-- The first entry is taken out. -/
theorem entries_pop (heap : Nat → Nat) (tp : Nat → TmpPath) (hpos : heap 0 ≠ 0) :
    (popHeapPath heap tp).1 ::ₘ entries (popHeapPath heap tp).2 = entries heap ∧
      (popHeapPath heap tp).2 0 = heap 0 - 1 ∧
      ∀ j, heap 0 < j → (popHeapPath heap tp).2 j = heap j := by
  obtain ⟨n, hn⟩ := Nat.exists_eq_add_one_of_ne_zero hpos
  have hr := popHeapPath_rearranges heap tp hn
  have hzero : (popHeapPath heap tp).2 0 = n := by
    rw [hr.eq_of_notMem (by simp), Function.update_of_ne (by omega), Function.update_self]
  refine ⟨?_, by omega, fun j hj => ?_⟩
  · have htop : (popHeapPath heap tp).1 = heap 1 := rfl
    unfold entries
    rw [hzero, htop, hn]
    rcases Nat.eq_zero_or_pos n with rfl | hn1
    · rfl
    · rw [Nat.max_eq_right hn1] at hr
      rw [hr.values_eq, Icc_succ, values_insert (by simp), Icc_one hn1, values_insert (by simp),
        values_insert (by simp), Function.update_self, Multiset.cons_swap]
      refine congrArg _ (congrArg _ (values_congr fun i hi => ?_))
      rw [Finset.mem_Icc] at hi
      rw [Function.update_of_ne (by omega), Function.update_of_ne (by omega)]
  · rw [hr.eq_of_notMem (by simp; omega), Function.update_of_ne (by omega),
      Function.update_of_ne (by omega)]

end Heap

end Nezumi
