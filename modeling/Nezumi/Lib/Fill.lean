import Nezumi.Lib.Slots
import Mathlib.Data.List.OfFn

/-!
# Filling a table from an index on

A loop that reads entries and stores each behind the one before fills a part of a table.

* `putAt`: one entry is stored, if the table has the index.
* `fill`: a list is stored from an index on. `fill_putAt` is a round of the loop.
* `fill_ofFn`: all entries of a table, stored from its start.
* `filter_fill`: the entries of a kind that were stored are those of the list.
* `countP_ofFn`: the number of the entries of a kind, as a sum over the table.
* `Packed`: the entries of a kind stand at the front. `fill_filter` says that they come back where
  they were.
-/

namespace Slots

variable {n : ℕ} {α : Type*}

/-- One entry is stored. -/
def putAt (t : Fin n → α) (i : ℕ) (v : α) : Fin n → α := fun j => if j.val = i then v else t j

/-- The entries of a list are stored from an index on. -/
def fill (t : Fin n → α) (i : ℕ) (vs : List α) : Fin n → α := fun j =>
  if i ≤ j.val then vs[j.val - i]?.getD (t j) else t j

/-- The entries of a kind stand before all others. -/
def Packed (p : α → Bool) (t : Fin n → α) : Prop := ∀ i j, i < j → p (t j) → p (t i)

instance (p : α → Bool) (t : Fin n → α) : Decidable (Packed p t) :=
  inferInstanceAs (Decidable (∀ _ _, _ → _ → _))

/-- The entries of the kind are the first `m`. -/
theorem packed_of_lt {p : α → Bool} {t : Fin n → α} {m : ℕ} (h : ∀ i, p (t i) ↔ i.val < m) :
    Packed p t :=
  fun i j hij hj => (h i).mpr (Nat.lt_trans hij ((h j).mp hj))

section Fill

variable {t u : Fin n → α} {i : ℕ} {v : α} {vs : List α} {p : α → Bool}

@[simp] theorem fill_nil : fill t i [] = t := by
  funext j
  simp [fill]

theorem fill_putAt : fill (putAt t i v) (i + 1) vs = fill t i (v :: vs) := by
  funext j
  unfold fill putAt
  rcases Nat.lt_trichotomy j.val i with hlt | heq | hgt
  · rw [if_neg (by omega), if_neg (by omega), if_neg (by omega)]
  · rw [if_neg (by omega), if_pos heq, if_pos (by omega), heq, Nat.sub_self]
    rfl
  · obtain ⟨k, hk⟩ : ∃ k, j.val - i = k + 1 := ⟨j.val - i - 1, by omega⟩
    rw [if_pos (by omega), if_neg (by omega), if_pos (by omega), hk, List.getElem?_cons_succ,
      show j.val - (i + 1) = k by omega]

theorem fill_apply {j : Fin n} (h : j.val < vs.length) : fill t 0 vs j = vs.get ⟨j.val, h⟩ := by
  unfold fill
  rw [if_pos (Nat.zero_le _), Nat.sub_zero, List.getElem?_eq_getElem h]
  rfl

theorem fill_apply_of_ge {j : Fin n} (h : vs.length ≤ j.val) : fill t 0 vs j = t j := by
  unfold fill
  rw [if_pos (Nat.zero_le _), Nat.sub_zero, List.getElem?_eq_none h]
  rfl

/-- All entries of a table, stored from the start. -/
@[simp] theorem fill_ofFn : fill t 0 (List.ofFn u) = u := by
  funext j
  rw [fill_apply (by simp)]
  simp

/-- **What has been stored** is what there is of its kind. -/
theorem filter_fill (hlen : vs.length ≤ n) (hvs : ∀ v ∈ vs, p v) (ht : ∀ j, p (t j) = false) :
    (List.ofFn (fill t 0 vs)).filter p = vs := by
  have hsplit : List.ofFn (fill t 0 vs) = vs ++ (List.ofFn t).drop vs.length := by
    apply List.ext_getElem
    · simp [hlen]
    · intro k h1 h2
      rw [List.getElem_ofFn]
      rcases Nat.lt_or_ge k vs.length with hk | hk
      · rw [fill_apply (j := ⟨k, by simpa using h1⟩) hk, List.getElem_append_left hk]
        rfl
      · rw [fill_apply_of_ge (j := ⟨k, by simpa using h1⟩) hk, List.getElem_append_right hk]
        simp only [List.getElem_drop, List.getElem_ofFn]
        congr 1
        ext
        dsimp only
        omega
  rw [hsplit, List.filter_append, List.filter_eq_self.mpr hvs, List.filter_eq_nil_iff.mpr,
    List.append_nil]
  intro v hv
  obtain ⟨j, rfl⟩ := (List.mem_ofFn' _ _).mp (List.mem_of_mem_drop hv)
  simp [ht j]

/-- The entries of a kind that stand at the front are a first part of the table. -/
theorem Packed.filter_eq (h : Packed p t) :
    ∃ k ≤ n, (List.ofFn t).filter p = (List.ofFn t).take k ∧ ∀ j, p (t j) ↔ j.val < k := by
  induction n with
  | zero => exact ⟨0, le_rfl, rfl, fun j => j.elim0⟩
  | succ n ih =>
    have hrest : Packed p fun j : Fin n => t j.succ := fun i j hij => h i.succ j.succ (by simpa)
    obtain ⟨k, hk, hfilter, hiff⟩ := ih hrest
    rw [List.ofFn_succ]
    cases h0 : p (t 0) with
    | true =>
      refine ⟨k + 1, by omega, ?_, fun j => ?_⟩
      · rw [List.filter_cons_of_pos h0, hfilter, List.take_succ_cons]
      · refine Fin.cases ?_ (fun j => ?_) j
        · simp [h0]
        · rw [hiff j]
          simp
    | false =>
      -- A table whose first entry is of another kind has none.
      have hnone (j : Fin (n + 1)) : p (t j) = false := by
        refine Fin.cases h0 (fun j => ?_) j
        by_contra hj
        have := h 0 j.succ (Fin.succ_pos j) (by simpa using hj)
        simp [h0] at this
      refine ⟨0, by omega, ?_, fun j => by simp [hnone j]⟩
      rw [List.take_zero, List.filter_eq_nil_iff]
      intro v hv
      rw [← List.ofFn_succ] at hv
      obtain ⟨j, rfl⟩ := (List.mem_ofFn' _ _).mp hv
      simp [hnone j]

/-- **Entries at the front come back** where they were. -/
theorem fill_filter (h : Packed p u) (j : Fin n) :
    fill t 0 ((List.ofFn u).filter p) j = if p (u j) then u j else t j := by
  obtain ⟨k, hk, hfilter, hiff⟩ := h.filter_eq
  rw [hfilter]
  have hlen : ((List.ofFn u).take k).length = k := by simp [hk]
  by_cases hj : j.val < k
  · rw [if_pos ((hiff j).mpr hj), fill_apply (by omega)]
    simp
  · rw [if_neg fun hp => hj ((hiff j).mp hp), fill_apply_of_ge (by omega)]

/-- The number of the entries of a kind. -/
theorem countP_ofFn (p : α → Bool) (t : Fin n → α) :
    ((List.ofFn t).countP p : ℤ) = ∑ i, if p (t i) then 1 else 0 := by
  induction n with
  | zero => rfl
  | succ n ih =>
    rw [List.ofFn_succ, List.countP_cons, Fin.sum_univ_succ]
    push_cast
    rw [ih, add_comm]

end Fill

end Slots
