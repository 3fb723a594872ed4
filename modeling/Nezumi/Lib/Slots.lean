import Mathlib.Algebra.BigOperators.Group.Finset.Piecewise
import Mathlib.Algebra.BigOperators.Fin
import Mathlib.Data.List.FinRange
import Mathlib.Tactic.Abel

/-!
# Slot tables

A slot table is a function `Fin n → α`: an array of fixed size whose every index is valid. A
linear search from index `0` is `first`; a quantity summed over the slots is `total`.

* `first_eq_some_iff`/`first_eq_none_iff`: what a search finds, and when it finds nothing.
* `foldl_finRange`: the invariant of a loop over the slots.
* `first_update_of_eq`: a write that does not change the test's verdict on its slot does not
  change what the search finds.
* `total_update`: a write changes a total by the difference of the written slot's weights.
* `card_update`: a write changes the number of slots that pass a test by that slot's verdict.
-/

namespace Slots

variable {n : ℕ} {α : Type*}

/-- The first slot, in index order, whose content passes the test. -/
def first (p : α → Bool) (t : Fin n → α) : Option (Fin n) :=
  (List.finRange n).find? fun i => p (t i)

theorem first_eq_none_iff {p : α → Bool} {t : Fin n → α} :
    first p t = none ↔ ∀ i, p (t i) = false := by
  simp [first, List.find?_eq_none]

theorem first_eq_some_iff {p : α → Bool} {t : Fin n → α} {i : Fin n} :
    first p t = some i ↔ p (t i) = true ∧ ∀ j < i, p (t j) = false := by
  unfold first
  rw [List.find?_eq_some_iff_getElem]
  constructor
  · rintro ⟨hp, k, hk, rfl, hlt⟩
    refine ⟨hp, fun j hj => ?_⟩
    have := hlt j.1 (by simpa [Fin.lt_def] using hj)
    simpa using this
  · rintro ⟨hp, hlt⟩
    refine ⟨hp, i.1, by simp, by simp, fun j hj => ?_⟩
    simpa using hlt ⟨j, by omega⟩ (by simpa [Fin.lt_def] using hj)

theorem first_some {p : α → Bool} {t : Fin n → α} {i : Fin n} (h : first p t = some i) :
    p (t i) = true := (first_eq_some_iff.mp h).1

/-- A search depends only on the verdicts. -/
theorem first_congr {β : Type*} {p : α → Bool} {q : β → Bool} {t : Fin n → α} {u : Fin n → β}
    (h : ∀ i, p (t i) = q (u i)) : first p t = first q u := by
  unfold first
  simp only [h]

theorem first_update_of_eq {p : α → Bool} {t : Fin n → α} {i : Fin n} {v : α}
    (h : p v = p (t i)) : first p (Function.update t i v) = first p t := by
  apply first_congr
  intro j
  rcases eq_or_ne j i with rfl | hj
  · simpa using h
  · rw [Function.update_of_ne hj]

/-- The first slot that passes the test stays the first when a slot after or at it is written. -/
theorem first_update_fresh {p : α → Bool} {t : Fin n → α} {i : Fin n} {v : α}
    (hnone : first p t = none) (hv : p v = true) :
    first p (Function.update t i v) = some i := by
  rw [first_eq_none_iff] at hnone
  rw [first_eq_some_iff]
  refine ⟨by simpa using hv, fun j hj => ?_⟩
  rw [Function.update_of_ne hj.ne]
  exact hnone j

/-- **A loop over the slots**, with an invariant of the slots that are done. -/
theorem foldl_finRange {β : Type*} {P : ℕ → β → Prop} {f : β → Fin n → β} {b : β} (h0 : P 0 b)
    (hstep : ∀ (i : Fin n) b, P i b → P (i + 1) (f b i)) : P n ((List.finRange n).foldl f b) := by
  suffices h : ∀ (l done : List (Fin n)) (b : β), done ++ l = List.finRange n → P done.length b →
      P n (l.foldl f b) from h (List.finRange n) [] b rfl h0
  intro l
  induction l with
  | nil =>
    intro done b hl hb
    rw [List.append_nil] at hl
    rwa [hl, List.length_finRange] at hb
  | cons i l ih =>
    intro done b hl hb
    have hi : i.val = done.length := by
      have hget : (List.finRange n)[done.length]? = some i := by
        rw [← hl, List.getElem?_append_right (le_refl _), Nat.sub_self]
        rfl
      obtain ⟨hlt, hget⟩ := List.getElem?_eq_some_iff.mp hget
      rw [← hget, List.getElem_finRange]
      rfl
    refine ih (done ++ [i]) (f b i) (by rw [List.append_assoc]; exact hl) ?_
    rw [List.length_append, List.length_singleton, ← hi]
    exact hstep i b (by rw [hi]; exact hb)

section Total

variable {M : Type*} [AddCommGroup M]

/-- The weights of all slots, added up. -/
def total (w : α → M) (t : Fin n → α) : M := ∑ i, w (t i)

theorem total_update (w : α → M) (t : Fin n → α) (i : Fin n) (v : α) :
    total w (Function.update t i v) = total w t - w (t i) + w v := by
  have h : (fun j => w (Function.update t i v j)) = Function.update (fun j => w (t j)) i (w v) := by
    funext j
    rcases eq_or_ne j i with rfl | hj <;> simp [*]
  unfold total
  rw [h, Finset.sum_update_of_mem (Finset.mem_univ i), Finset.sum_sdiff_eq_sub (by simp)]
  simp only [Finset.sum_singleton]
  abel

theorem total_congr {β : Type*} {w : α → M} {w' : β → M} {t : Fin n → α} {u : Fin n → β}
    (h : ∀ i, w (t i) = w' (u i)) : total w t = total w' u := by
  unfold total
  simp only [h]

end Total

/-- The number of slots that pass a test. -/
def card (p : α → Bool) (t : Fin n → α) : ℕ := (Finset.univ.filter fun i => p (t i) = true).card

theorem card_eq_total (p : α → Bool) (t : Fin n → α) :
    (card p t : ℤ) = total (fun a => if p a = true then (1 : ℤ) else 0) t := by
  unfold card total
  rw [Finset.card_filter]
  push_cast
  rfl

theorem card_update (p : α → Bool) (t : Fin n → α) (i : Fin n) (v : α) :
    (card p (Function.update t i v) : ℤ) =
      card p t - (if p (t i) = true then 1 else 0) + (if p v = true then 1 else 0) := by
  rw [card_eq_total, card_eq_total, total_update]

theorem card_pos_iff {p : α → Bool} {t : Fin n → α} :
    0 < card p t ↔ ∃ i, p (t i) = true := by
  simp [card, Finset.card_pos, Finset.Nonempty]

end Slots
