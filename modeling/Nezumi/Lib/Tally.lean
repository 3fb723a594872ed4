import Mathlib.Algebra.BigOperators.Group.List.Basic
import Mathlib.Algebra.Order.Ring.Int
import Mathlib.Data.List.Basic
import Mathlib.Tactic.Common

/-!
# What is due to whom

A list of entries, each with an amount that is due to somebody. `due` is what is due to one of them,
over all entries.

* `due_append`, `due_filter`: what is due of two parts of a list adds up.
* `due_map_add`: adding to the one entry of a key changes what is due to whom it is for.
* `due_of_zero`: entries without an amount are of no account.
-/

namespace Tally

variable {ε κ ο : Type*} [DecidableEq κ] [DecidableEq ο] {owner : ε → ο} {amount : ε → ℤ}
  {l l' : List ε} {o : ο}

/-- What is due to an owner. -/
def due (owner : ε → ο) (amount : ε → ℤ) (l : List ε) (o : ο) : ℤ :=
  (l.map fun e => if owner e = o then amount e else 0).sum

@[simp] theorem due_nil : due owner amount [] o = 0 := rfl

@[simp] theorem due_cons {e : ε} : due owner amount (e :: l) o =
    (if owner e = o then amount e else 0) + due owner amount l o := by
  simp [due]

@[simp] theorem due_append :
    due owner amount (l ++ l') o = due owner amount l o + due owner amount l' o := by
  simp [due]

/-- The two parts of a list that a test makes. -/
theorem due_filter (p : ε → Bool) :
    due owner amount (l.filter p) o + due owner amount (l.filter fun e => !p e) o =
      due owner amount l o := by
  induction l with
  | nil => rfl
  | cons e l ih =>
    cases hp : p e
    · simp only [List.filter_cons, hp, Bool.not_false, Bool.false_eq_true, if_true, if_false,
        due_cons]
      omega
    · simp only [List.filter_cons, hp, Bool.not_true, Bool.false_eq_true, if_true, if_false,
        due_cons]
      omega

theorem due_of_zero (h : ∀ e ∈ l, amount e = 0) : due owner amount l o = 0 := by
  induction l with
  | nil => rfl
  | cons e l ih =>
    rw [due_cons, h e List.mem_cons_self, ih fun e' he' => h e' (List.mem_cons_of_mem _ he')]
    simp

theorem due_congr {f : ε → ε} (h : ∀ e ∈ l, owner (f e) = owner e ∧ amount (f e) = amount e) :
    due owner amount (l.map f) o = due owner amount l o := by
  induction l with
  | nil => rfl
  | cons e l ih =>
    obtain ⟨ho, ha⟩ := h e List.mem_cons_self
    rw [List.map_cons, due_cons, due_cons, ho, ha,
      ih fun e' he' => h e' (List.mem_cons_of_mem _ he')]

/-- **Adding to an entry.** The keys of a list differ, and the entry of the key is for the owner. -/
theorem due_map_add {key : ε → κ} {k : κ} (f : ε → ε) (o₁ : ο) (x : ℤ)
    (hkeys : (l.map key).Nodup) (hmem : k ∈ l.map key)
    (hkey : ∀ e ∈ l, key e = k → owner e = o₁ ∧ owner (f e) = o₁ ∧ amount (f e) = amount e + x)
    (hother : ∀ e ∈ l, key e ≠ k → f e = e) :
    due owner amount (l.map f) o = due owner amount l o + if o₁ = o then x else 0 := by
  induction l with
  | nil => simp at hmem
  | cons e l ih =>
    rw [List.map_cons, List.nodup_cons] at hkeys
    by_cases hk : key e = k
    · obtain ⟨ho, hof, haf⟩ := hkey e List.mem_cons_self hk
      have hrest : l.map f = l := by
        refine (List.map_congr_left fun e' he' => hother e' (List.mem_cons_of_mem _ he') ?_).trans
          (List.map_id _)
        rintro hk'
        exact hkeys.1 (by rw [hk, ← hk']; exact List.mem_map_of_mem he')
      rw [List.map_cons, due_cons, due_cons, hrest, ho, hof, haf]
      split <;> omega
    · have hmem' : k ∈ l.map key := by
        rw [List.map_cons, List.mem_cons] at hmem
        exact hmem.resolve_left fun h => hk h.symm
      rw [List.map_cons, due_cons, due_cons, hother e List.mem_cons_self hk,
        ih hkeys.2 hmem' (fun e' he' => hkey e' (List.mem_cons_of_mem _ he'))
          fun e' he' => hother e' (List.mem_cons_of_mem _ he')]
      omega

end Tally
