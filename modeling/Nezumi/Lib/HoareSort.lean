import Mathlib.Data.List.Perm.Basic

/-!
# Quicksort in place

Two indexes run towards each other from the ends of a part of a table, and exchange the entries
that are on the wrong side of a middle entry. Then both sides are sorted. The order is given by two
tests, of the entries that stand below the middle one and of those that stand above it.

* `scanUp`, `scanDown`: where an index stops.
* `divide`: the pass over a part. `sort`: the whole.
* `sort_perm`: the same entries, in whatever order.
-/

namespace HoareSort

open List

variable {α : Type*}

/-- Two entries are exchanged. -/
def exchange (t : List α) (i j : Nat) : List α :=
  match t[i]?, t[j]? with
  | some a, some b => (t.set i b).set j a
  | _, _ => t

/-- From an index up, over the entries that pass a test. -/
def scanUp (t : List α) (p : α → Bool) (i : Nat) : Nat := i + (t.drop i).findIdx fun a => !p a

/-- From an index down, over the entries that pass a test. -/
def scanDown (t : List α) (p : α → Bool) (j : Int) : Int :=
  j - ((t.take (j + 1).toNat).reverse.findIdx fun a => !p a)

/-- The indexes run until they have met, for at most some rounds. -/
def divide (low high : α → Bool) : Nat → List α → Nat → Int → List α × Nat × Int
  | 0, t, i, j => (t, i, j)
  | n + 1, t, i, j =>
    let i := scanUp t low i
    let j := scanDown t high j
    if i ≤ j then
      let t := exchange t i j.toNat
      if ((i + 1 : Nat) : Int) ≤ j - 1 then divide low high n t (i + 1) (j - 1)
      else (t, i + 1, j - 1)
    else (t, i, j)

/-- The part from `first` to `last` is sorted, for at most some levels. -/
def sort (low high : α → α → Bool) : Nat → List α → Nat → Nat → List α
  | 0, t, _, _ => t
  | n + 1, t, first, last =>
    match t[(first + last) / 2]? with
    | none => t
    | some middle =>
      let (t, i, j) := divide (low · middle) (high · middle) t.length t first last
      let t := if (first : Int) < j then sort low high n t first j.toNat else t
      if i < last then sort low high n t i last else t

variable {t : List α} {low high : α → Bool}

theorem exchange_perm (t : List α) (i j : Nat) : exchange t i j ~ t := by
  unfold exchange
  split
  · rename_i a b ha hb
    obtain ⟨hi, rfl⟩ := List.getElem?_eq_some_iff.mp ha
    obtain ⟨hj, rfl⟩ := List.getElem?_eq_some_iff.mp hb
    exact set_set_perm hi hj
  · rfl

theorem divide_perm (low high : α → Bool) (n : Nat) (t : List α) (i : Nat) (j : Int) :
    (divide low high n t i j).1 ~ t := by
  induction n generalizing t i j with
  | zero => rfl
  | succ n ih =>
    unfold divide
    dsimp only
    split
    · split
      · exact (ih _ _ _).trans (exchange_perm t _ _)
      · exact exchange_perm t _ _
    · rfl

/-- **The entries stay.** -/
theorem sort_perm (low high : α → α → Bool) (n : Nat) (t : List α) (first last : Nat) :
    sort low high n t first last ~ t := by
  induction n generalizing t first last with
  | zero => rfl
  | succ n ih =>
    unfold sort
    split
    · rfl
    · rename_i middle _
      have hdivide := divide_perm (low · middle) (high · middle) t.length t first last
      generalize divide (low · middle) (high · middle) t.length t first last = r at hdivide
      obtain ⟨t', i, j⟩ := r
      dsimp only at hdivide ⊢
      have hleft : (if (first : Int) < j then sort low high n t' first j.toNat else t') ~ t' := by
        split
        · exact ih _ _ _
        · rfl
      split
      · exact ((ih _ _ _).trans hleft).trans hdivide
      · exact hleft.trans hdivide

example : sort (fun a b : Nat => a < b) (fun a b => b < a) 5 [3, 5, 1, 4, 2] 0 4 =
    [1, 2, 3, 4, 5] := by
  decide

end HoareSort
