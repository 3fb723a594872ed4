import Mathlib

/-!
# Running sums and tallies

A loop that adds up the weights of a list and gives up as soon as the sum so far leaves a bound
succeeds when every running sum stays within it: `Running`.

* `running_iff`: the running sums are those of the nonempty prefixes.
* `Running.mono`, `running_map`: another bound, another list.

The amounts that a list lists for one key add up to its `tally`.
-/

namespace Sums

variable {α β : Type*}

/-- Every sum of the weights so far, started at `s` and taken after each element, meets `P`. -/
def Running (P : ℤ → Prop) (w : α → ℤ) : ℤ → List α → Prop
  | _, [] => True
  | s, a :: l => P (s + w a) ∧ Running P w (s + w a) l

variable {P Q : ℤ → Prop} {w : α → ℤ} {s : ℤ} {a : α} {l : List α}

@[simp] theorem running_nil : Running P w s [] := trivial

@[simp] theorem running_cons :
    Running P w s (a :: l) ↔ P (s + w a) ∧ Running P w (s + w a) l := Iff.rfl

instance Running.decidable [DecidablePred P] : (s : ℤ) → (l : List α) → Decidable (Running P w s l)
  | _, [] => .isTrue trivial
  | s, a :: l =>
    haveI := Running.decidable (s + w a) l
    inferInstanceAs (Decidable (P (s + w a) ∧ Running P w (s + w a) l))

theorem Running.mono (h : ∀ x, P x → Q x) (hr : Running P w s l) : Running Q w s l := by
  induction l generalizing s with
  | nil => trivial
  | cons a l ih => exact ⟨h _ hr.1, ih hr.2⟩

theorem running_and :
    Running (fun x => P x ∧ Q x) w s l ↔ Running P w s l ∧ Running Q w s l := by
  induction l generalizing s with
  | nil => simp
  | cons a l ih => simp only [running_cons, ih]; grind

theorem running_map {f : β → α} {l : List β} :
    Running P w s (l.map f) ↔ Running P (fun b => w (f b)) s l := by
  induction l generalizing s with
  | nil => simp
  | cons b l ih => simp [ih]

theorem running_congr {w' : α → ℤ} (h : ∀ a ∈ l, w a = w' a) :
    Running P w s l ↔ Running P w' s l := by
  induction l generalizing s with
  | nil => simp
  | cons a l ih =>
    rw [running_cons, running_cons, h a (by simp), ih fun b hb => h b (by simp [hb])]

/-- Starting from another sum is testing a shifted bound. -/
theorem running_shift (c : ℤ) :
    Running P w (s + c) l ↔ Running (fun x => P (x + c)) w s l := by
  induction l generalizing s with
  | nil => simp
  | cons a l ih =>
    rw [running_cons, running_cons, add_right_comm, ih]

/-- The running sums of a list are the sums of its nonempty prefixes. -/
theorem running_iff :
    Running P w s l ↔ ∀ p, p ≠ [] → p <+: l → P (s + (p.map w).sum) := by
  induction l generalizing s with
  | nil =>
    simp only [running_nil, true_iff]
    intro p hp hpre
    exact absurd (List.prefix_nil.mp hpre) hp
  | cons a l ih =>
    rw [running_cons, ih]
    constructor
    · rintro ⟨ha, hl⟩ p hp hpre
      cases p with
      | nil => exact absurd rfl hp
      | cons b p =>
        obtain ⟨rfl, htail⟩ := List.cons_prefix_cons.mp hpre
        rcases eq_or_ne p [] with rfl | hp'
        · simpa using ha
        · simpa [add_assoc] using hl p hp' htail
    · intro h
      refine ⟨by simpa using h [a] (by simp) (by simp), fun p hp hpre => ?_⟩
      simpa [add_assoc] using h (a :: p) (by simp) (List.cons_prefix_cons.mpr ⟨rfl, hpre⟩)

/-- A nonempty list's own sum is one of its running sums. -/
theorem Running.total (hr : Running P w s l) (hl : l ≠ []) : P (s + (l.map w).sum) :=
  running_iff.mp hr l hl (List.prefix_refl l)

section Tally

variable {κ : Type*} [DecidableEq κ] {l : List (κ × ℤ)} {x : κ × ℤ} {k : κ}

/-- The amounts listed for a key, added up. -/
def tally (l : List (κ × ℤ)) (k : κ) : ℤ := (l.map fun x => if x.1 = k then x.2 else 0).sum

@[simp] theorem tally_nil (k : κ) : tally [] k = 0 := rfl

theorem tally_cons (x : κ × ℤ) (l : List (κ × ℤ)) (k : κ) :
    tally (x :: l) k = (if x.1 = k then x.2 else 0) + tally l k := by simp [tally]

theorem tally_nonneg (h : ∀ x ∈ l, 0 ≤ x.2) (k : κ) : 0 ≤ tally l k := by
  induction l with
  | nil => simp
  | cons x l ih =>
    have hx := h x (by simp)
    have hl := ih fun y hy => h y (by simp [hy])
    rw [tally_cons]
    split <;> omega

theorem tally_pos (h : ∀ x ∈ l, 0 < x.2) (hx : x ∈ l) : 0 < tally l x.1 := by
  induction l with
  | nil => cases hx
  | cons y l ih =>
    have hl : ∀ y ∈ l, 0 < y.2 := fun z hz => h z (by simp [hz])
    have hy := h y (by simp)
    rw [tally_cons]
    rcases List.mem_cons.mp hx with rfl | hx
    · have := tally_nonneg (fun z hz => Int.le_of_lt (hl z hz)) x.1
      rw [if_pos rfl]
      omega
    · have := ih hl hx
      split <;> omega

theorem tally_eq_zero (h : ∀ x ∈ l, x.1 ≠ k) : tally l k = 0 :=
  List.sum_eq_zero fun y hy => by
    obtain ⟨x, hx, rfl⟩ := List.mem_map.mp hy
    exact if_neg (h x hx)

theorem exists_of_tally_ne_zero (h : tally l k ≠ 0) : ∃ x ∈ l, x.1 = k := by
  by_contra hno
  exact h (tally_eq_zero fun x hx he => hno ⟨x, hx, he⟩)

end Tally

end Sums
