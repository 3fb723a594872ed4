import Nezumi.Lib.Slots

/-!
# Emptying slots by a test

Slots are to be emptied that pass a test `q`, but a removal finds them by a weaker test `p` alone
and empties the first slot that passes.

* `clear`: what ought to be left.
* `dropFirst`, `dropEach`: one removal, and one for each slot that passes `q`, in order.
* `dropFirst_eq_clear_iff`, `dropEach_eq_clear_iff`: when they leave what they ought to.
-/

namespace Slots

variable {n : ℕ} {α : Type*}

/-- The slots that pass the test are emptied. -/
def clear (q : α → Bool) (z : α) (t : Fin n → α) : Fin n → α := fun i => if q (t i) then z else t i

/-- The first slot that passes the test is emptied. -/
def dropFirst (p : α → Bool) (z : α) (t : Fin n → α) : Fin n → α :=
  match first p t with
  | none => t
  | some i => Function.update t i z

/-- A step of `dropEach`. -/
def dropAt (p q : α → Bool) (z : α) (t : Fin n → α) (i : Fin n) : Fin n → α :=
  if q (t i) then dropFirst p z t else t

/-- For each slot that passes `q`, in order, the first one that passes `p` is emptied. -/
def dropEach (p q : α → Bool) (z : α) (t : Fin n → α) : Fin n → α :=
  (List.finRange n).foldl (dropAt p q z) t

section Drop

variable {p q : α → Bool} {z : α} {t : Fin n → α} {i j : Fin n}

theorem dropFirst_of_some (h : first p t = some i) : dropFirst p z t = Function.update t i z := by
  unfold dropFirst
  rw [h]

theorem dropFirst_of_none (h : first p t = none) : dropFirst p z t = t := by
  unfold dropFirst
  rw [h]

/-- Each slot stays as it was or is emptied. -/
theorem dropFirst_cases (p : α → Bool) (z : α) (t : Fin n → α) (j : Fin n) :
    dropFirst p z t j = t j ∨ dropFirst p z t j = z := by
  cases h : first p t with
  | none => exact .inl (congrFun (dropFirst_of_none h) j)
  | some i =>
    rw [dropFirst_of_some h]
    rcases eq_or_ne j i with rfl | hne
    · exact .inr (Function.update_self ..)
    · exact .inl (Function.update_of_ne hne ..)

/-- A slot behind one that passes and stays is not touched. -/
theorem dropFirst_of_lt (hi : p (dropFirst p z t i)) (hlt : i < j) :
    dropFirst p z t j = t j := by
  cases h : first p t with
  | none => exact congrFun (dropFirst_of_none h) j
  | some k =>
    rw [dropFirst_of_some h] at hi ⊢
    refine Function.update_of_ne ?_ _ _
    rintro rfl
    rw [Function.update_of_ne hlt.ne, (first_eq_some_iff.mp h).2 i hlt] at hi
    cases hi

/-- **One removal** leaves what it ought to if the first slot that passes the weaker test is the
only one that passes the other. -/
theorem dropFirst_eq_clear_iff (hz : p z = false) (hqp : ∀ a, q a → p a) :
    dropFirst p z t = clear q z t ↔ ∀ i, first p t = some i → ∀ j, q (t j) ↔ j = i := by
  have hempty {k : Fin n} (hk : p (t k)) : t k ≠ z := fun h => by
    rw [h, hz] at hk
    cases hk
  cases h : first p t with
  | none =>
    rw [dropFirst_of_none h]
    refine iff_of_true ?_ fun i hi => nomatch hi
    funext j
    have hj : ¬ q (t j) := fun hq => by
      have hp := hqp _ hq
      rw [first_eq_none_iff.mp h j] at hp
      cases hp
    exact (if_neg hj).symm
  | some i =>
    rw [dropFirst_of_some h]
    constructor
    · rintro heq k hk j
      obtain rfl := Option.some.inj hk
      have hj := congrFun heq j
      unfold clear at hj
      constructor
      · intro hq
        by_contra hne
        rw [Function.update_of_ne hne, if_pos hq] at hj
        exact hempty (hqp _ hq) hj
      · rintro rfl
        by_contra hq
        rw [Function.update_self, if_neg hq] at hj
        exact hempty (first_some h) hj.symm
    · intro hall
      funext j
      unfold clear
      by_cases hj : j = i
      · rw [if_pos ((hall i rfl j).mpr hj), hj, Function.update_self]
      · rw [if_neg fun hq => hj ((hall i rfl j).mp hq), Function.update_of_ne hj]

theorem dropAt_cases (p q : α → Bool) (z : α) (t : Fin n → α) (i j : Fin n) :
    dropAt p q z t i j = t j ∨ dropAt p q z t i j = z := by
  unfold dropAt
  split
  · exact dropFirst_cases p z t j
  · exact .inl rfl

theorem foldl_dropAt_cases (l : List (Fin n)) (t : Fin n → α) (j : Fin n) :
    l.foldl (dropAt p q z) t j = t j ∨ l.foldl (dropAt p q z) t j = z := by
  induction l generalizing t with
  | nil => exact .inl rfl
  | cons i l ih =>
    obtain h | h := ih (dropAt p q z t i)
    · rw [List.foldl_cons, h]
      exact dropAt_cases p q z t i j
    · exact .inr h

/-- While a slot that passes the weaker test stays, no removal touches one behind it. -/
theorem foldl_dropAt_of_lt (hz : p z = false) {l : List (Fin n)}
    (hi : p (l.foldl (dropAt p q z) t i)) (hlt : i < j) : l.foldl (dropAt p q z) t j = t j := by
  induction l generalizing t with
  | nil => rfl
  | cons k l ih =>
    rw [List.foldl_cons] at hi ⊢
    rw [ih hi]
    have hi' : p (dropAt p q z t k i) := by
      obtain h | h := foldl_dropAt_cases (p := p) (q := q) (z := z) l (dropAt p q z t k) i
      · rwa [h] at hi
      · rw [h, hz] at hi
        cases hi
    unfold dropAt at hi' ⊢
    split
    · rename_i hq
      rw [if_pos hq] at hi'
      exact dropFirst_of_lt hi' hlt
    · rfl

/-- The slots of a list that pass the test are emptied. -/
def clearIn (l : List (Fin n)) (q : α → Bool) (z : α) (t : Fin n → α) : Fin n → α := fun i =>
  if i ∈ l ∧ q (t i) then z else t i

/-- The slots before one of a sorted list. -/
theorem mem_of_lt {done l : List (Fin n)} (hl : done ++ i :: l = List.finRange n) :
    i ∉ done ∧ ∀ k < i, k ∈ done := by
  have hsorted := List.pairwise_lt_finRange n
  rw [← hl, List.pairwise_append, List.pairwise_cons] at hsorted
  obtain ⟨-, ⟨hlater, -⟩, hdone⟩ := hsorted
  refine ⟨fun hmem => lt_irrefl i (hdone i hmem i List.mem_cons_self), fun k hk => ?_⟩
  have hmem : k ∈ done ++ i :: l := hl ▸ List.mem_finRange k
  rw [List.mem_append, List.mem_cons] at hmem
  obtain h | rfl | h := hmem
  · exact h
  · exact absurd hk (lt_irrefl k)
  · exact absurd hk (hlater k h).asymm

theorem clearIn_append_of_neg {done : List (Fin n)} (hq : ¬ q (t i)) :
    clearIn (done ++ [i]) q z t = clearIn done q z t := by
  funext j
  unfold clearIn
  by_cases hj : j = i
  · subst hj
    simp [hq]
  · simp [hj]

theorem update_clearIn {done : List (Fin n)} (hq : q (t i)) :
    Function.update (clearIn done q z t) i z = clearIn (done ++ [i]) q z t := by
  funext j
  by_cases hj : j = i
  · subst hj
    simp [clearIn, hq]
  · rw [Function.update_of_ne hj]
    simp [clearIn, hj]

/-- The removals go on as they ought to, where a slot that passes the weaker test in front of one
that passes the other passes that one too. -/
theorem foldl_dropAt_clearIn (hz : p z = false) (hqp : ∀ a, q a → p a)
    (hfirst : ∀ i j, i < j → p (t i) → q (t j) → q (t i)) {done l : List (Fin n)}
    (hl : done ++ l = List.finRange n) :
    l.foldl (dropAt p q z) (clearIn done q z t) = clearIn (done ++ l) q z t := by
  induction l generalizing done with
  | nil => rw [List.append_nil, List.foldl_nil]
  | cons i l ih =>
    obtain ⟨hi, hbefore⟩ := mem_of_lt hl
    have hti : clearIn done q z t i = t i := if_neg fun h => hi h.1
    have hstep : dropAt p q z (clearIn done q z t) i = clearIn (done ++ [i]) q z t := by
      unfold dropAt
      rw [hti]
      split
      · rename_i hq
        have hfound : first p (clearIn done q z t) = some i := by
          refine first_eq_some_iff.mpr ⟨by rw [hti]; exact hqp _ hq, fun k hk => ?_⟩
          unfold clearIn
          split
          · exact hz
          · rename_i hkq
            by_contra hp
            rw [Bool.not_eq_false] at hp
            exact hkq ⟨hbefore k hk, hfirst k i hk hp hq⟩
        rw [dropFirst_of_some hfound, update_clearIn hq]
      · rename_i hq
        exact (clearIn_append_of_neg hq).symm
    rw [List.foldl_cons, hstep, ih (by rw [List.append_assoc]; exact hl), List.append_assoc]
    rfl

/-- **Many removals** leave what they ought to if and only if no slot that passes the weaker test
alone is in front of one that passes the other. -/
theorem dropEach_eq_clear_iff (hz : p z = false) (hqp : ∀ a, q a → p a) :
    dropEach p q z t = clear q z t ↔ ∀ i j, i < j → p (t i) → q (t j) → q (t i) := by
  constructor
  · intro heq i j hlt hp hq
    by_contra hqi
    have hi : dropEach p q z t i = t i := by
      rw [heq]
      exact if_neg hqi
    have hj : dropEach p q z t j = t j := foldl_dropAt_of_lt hz (by rw [← hi] at hp; exact hp) hlt
    rw [heq] at hj
    unfold clear at hj
    rw [if_pos hq] at hj
    have hpj := hqp _ hq
    rw [← hj, hz] at hpj
    cases hpj
  · intro hfirst
    have hnone : clearIn [] q z t = t := by
      funext i
      exact if_neg (by simp)
    have hall : clearIn (List.finRange n) q z t = clear q z t := by
      funext i
      simp [clearIn, clear]
    have hl : [] ++ List.finRange n = List.finRange n := rfl
    have hfold := foldl_dropAt_clearIn hz hqp hfirst hl
    rw [hnone, hl, hall] at hfold
    exact hfold

end Drop

end Slots
