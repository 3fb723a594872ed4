import Mathlib.Data.List.Induction
import Mathlib.Data.Set.Basic
import Mathlib.Logic.Function.Basic

/-!
# Tables of occupants

Every object `k` has a set of places `has k`, and a table `idx` names the occupant of a place. The
two say the same when `Indexes idx has`.

* `Indexes.unique`: no two objects have a place in common.
* `indexes_release`: an object leaves all its places.
* `indexes_occupy_iff`: an object takes other places. The table stays right exactly when the object
  keeps none of its old places and nobody else has the new ones.
* `indexes_foldl`: the table that a loop over the objects writes.
-/

namespace Occupancy

variable {ι κ : Type*}

/-- The table names the occupant of every place. -/
def Indexes (idx : ι → Option κ) (has : κ → Set ι) : Prop := ∀ i k, idx i = some k ↔ i ∈ has k

variable {idx : ι → Option κ} {has : κ → Set ι} {i : ι} {k l : κ}

theorem Indexes.unique (h : Indexes idx has) (hk : i ∈ has k) (hl : i ∈ has l) : k = l := by
  rw [← h] at hk hl
  exact Option.some.inj (hk.symm.trans hl)

/-- The table without the places of an object. -/
def release (idx : ι → Option κ) (S : ι → Prop) [DecidablePred S] (i : ι) : Option κ :=
  if S i then none else idx i

/-- The table with an object at some places. -/
def occupy (idx : ι → Option κ) (k : κ) (S : ι → Prop) [DecidablePred S] (i : ι) : Option κ :=
  if S i then some k else idx i

section Update

variable [DecidableEq κ]

/-- An object leaves all its places. -/
theorem indexes_release (h : Indexes idx has) (k : κ) (S : ι → Prop) [DecidablePred S]
    (hS : ∀ i, S i ↔ i ∈ has k) : Indexes (release idx S) (Function.update has k ∅) := by
  intro i l
  unfold release
  rcases eq_or_ne l k with rfl | hl
  · rw [Function.update_self]
    split
    · simp
    · rename_i hi
      rw [h i l, ← hS]
      simpa using hi
  · rw [Function.update_of_ne hl]
    split
    · rename_i hi
      have hk := (hS i).mp hi
      simp only [reduceCtorEq, false_iff]
      exact fun hil => hl (h.unique hil hk)
    · exact h i l

/-- **Taking places.** -/
theorem indexes_occupy_iff (h : Indexes idx has) (k : κ) (S : ι → Prop) [DecidablePred S] :
    Indexes (occupy idx k S) (Function.update has k {i | S i}) ↔
      (∀ i ∈ has k, S i) ∧ ∀ l ≠ k, ∀ i ∈ has l, ¬ S i := by
  constructor
  · intro h'
    refine ⟨fun i hi => ?_, fun l hl i hil hi => ?_⟩
    · by_contra hnot
      have hik : occupy idx k S i = some k := (if_neg hnot).trans ((h i k).mpr hi)
      rw [h', Function.update_self] at hik
      exact hnot hik
    · have hik : occupy idx k S i = some k := if_pos hi
      have hil' : occupy idx k S i = some l := by
        rw [h', Function.update_of_ne hl]
        exact hil
      exact hl (Option.some.inj (hil'.symm.trans hik))
  · rintro ⟨hold, hfree⟩ i l
    unfold occupy
    rcases eq_or_ne l k with rfl | hl
    · rw [Function.update_self]
      split
      · simpa
      · rename_i hi
        rw [h i l]
        exact ⟨fun hil => absurd (hold i hil) hi, fun hil => absurd hil hi⟩
    · rw [Function.update_of_ne hl]
      split
      · rename_i hi
        simp only [Option.some_inj]
        exact ⟨fun hkl => absurd hkl.symm hl, fun hil => absurd hi (hfree l hl i hil)⟩
      · exact h i l

end Update

/-- **The table that a loop over the objects writes**, where no two of them have a place in
common. -/
theorem indexes_foldl (S : κ → ι → Prop) [∀ k, DecidablePred (S k)]
    (hS : ∀ k l i, S k i → S l i → k = l) (ks : List κ) :
    Indexes (ks.foldl (fun idx k => occupy idx k (S k)) fun _ => none)
      fun k => {i | k ∈ ks ∧ S k i} := by
  induction ks using List.reverseRecOn with
  | nil => intro i k; simp
  | append_singleton ks k ih =>
    intro i l
    rw [List.foldl_append, List.foldl_cons, List.foldl_nil]
    simp only [occupy, Set.mem_ofPred_eq, List.mem_append, List.mem_singleton]
    have hil := ih i l
    rw [Set.mem_ofPred_eq] at hil
    split
    · rename_i hi
      simp only [Option.some_inj]
      constructor
      · rintro rfl
        exact ⟨.inr rfl, hi⟩
      · rintro ⟨-, hl⟩
        exact hS k l i hi hl
    · rename_i hi
      rw [hil]
      constructor
      · rintro ⟨hl, hli⟩
        exact ⟨.inl hl, hli⟩
      · rintro ⟨hl | rfl, hli⟩
        · exact ⟨hl, hli⟩
        · exact absurd hli hi

end Occupancy
