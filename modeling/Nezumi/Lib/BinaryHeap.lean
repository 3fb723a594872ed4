import Mathlib.Logic.Function.Basic
import Mathlib.Order.Lattice
import Mathlib.Tactic.Common

/-!
# Binary heaps with a hole

The keys of a heap stand at the places `1` up to `n`, and the parent of place `j` is `j / 2`. A loop
that sifts moves a hole along a branch. What the heap keeps while it has the hole is stated of the
places that do not touch it.

* `Ordered`: no key is less than that of its parent. `Ordered.top` says that the first is least.
* `Hole`: the order but for one place. `Hole.up` and `Hole.down` move the hole, `Hole.fill` ends it.
* `Ordered.hole`, `Ordered.hole_end`: a hole in a heap, and behind it.
-/

namespace BinaryHeap

variable {κ : Type*} [LinearOrder κ] {n m h c : ℕ} {v w : ℕ → κ} {x : κ}

/-- No key is less than that of its parent. -/
def Ordered (n : ℕ) (v : ℕ → κ) : Prop := ∀ j, 2 ≤ j → j ≤ n → v (j / 2) ≤ v j

/-- The order at the places that do not touch place `h`, and between its parent and its children. -/
structure Hole (n : ℕ) (v : ℕ → κ) (h : ℕ) : Prop where
  except : ∀ j, 2 ≤ j → j ≤ n → j ≠ h → j / 2 ≠ h → v (j / 2) ≤ v j
  around : 2 ≤ h → ∀ j, j ≤ n → j / 2 = h → v (h / 2) ≤ v j

/-- A key is not greater than those of the children of place `h`. -/
def Above (n : ℕ) (v : ℕ → κ) (h : ℕ) (x : κ) : Prop := ∀ j, j ≤ n → j / 2 = h → x ≤ v j

/-- **The first key is the least.** -/
theorem Ordered.top (ho : Ordered n v) {j : ℕ} (h1 : 1 ≤ j) (hn : j ≤ n) : v 1 ≤ v j := by
  induction j using Nat.strong_induction_on with
  | _ j ih =>
    rcases Nat.eq_or_lt_of_le h1 with rfl | hlt
    · exact le_rfl
    · exact (ih (j / 2) (by omega) (by omega) (by omega)).trans (ho j hlt hn)

theorem Ordered.mono (ho : Ordered n v) (hm : m ≤ n) : Ordered m v := fun j h2 hj =>
  ho j h2 (hj.trans hm)

/-- The places above the last one do not matter. -/
theorem Ordered.congr (ho : Ordered n v) (heq : ∀ j, 1 ≤ j → j ≤ n → w j = v j) :
    Ordered n w := by
  intro j h2 hn
  rw [heq j (by omega) hn, heq (j / 2) (by omega) (by omega)]
  exact ho j h2 hn

theorem Ordered.hole (ho : Ordered n v) (h : ℕ) : Hole n v h where
  except j h2 hn _ _ := ho j h2 hn
  around h2 j hn hj := by
    subst hj
    exact (ho (j / 2) h2 (by omega)).trans (ho j (by omega) hn)

/-- A place behind the heap is a hole of the heap with one more place. -/
theorem Ordered.hole_end (ho : Ordered n v) : Hole (n + 1) v (n + 1) where
  except j h2 hn hne _ := ho j h2 (by omega)
  around _ j hn hj := by omega

/-- What stands in the hole does not matter. -/
theorem Hole.congr (hh : Hole n v h) (_h1 : 1 ≤ h) (heq : ∀ j, j ≠ h → w j = v j) :
    Hole n w h where
  except j h2 hn hne hp := by
    rw [heq j hne, heq (j / 2) hp]
    exact hh.except j h2 hn hne hp
  around h2 j hn hj := by
    rw [heq j (by omega), heq (h / 2) (by omega)]
    exact hh.around h2 j hn hj

/-- **The hole moves up**: the key of the parent goes down into it. -/
theorem Hole.up (hh : Hole n v h) (h2 : 2 ≤ h) (hn : h ≤ n) (hx : x ≤ v (h / 2)) :
    Hole n (Function.update v h (v (h / 2))) (h / 2) ∧
      Above n (Function.update v h (v (h / 2))) (h / 2) x := by
  have hsib : ∀ j, j ≤ n → j / 2 = h / 2 → j ≠ h → v (h / 2) ≤ v j := by
    intro j hj hp hne
    have := hh.except j (by omega) hj hne (by omega)
    rwa [hp] at this
  refine ⟨⟨fun j hj hjn hne hp => ?_, fun hp2 j hjn hp => ?_⟩, fun j hjn hp => ?_⟩
  · have hjh : j ≠ h := by
      rintro rfl
      exact hp rfl
    rw [Function.update_of_ne hjh]
    by_cases hph : j / 2 = h
    · rw [hph, Function.update_self]
      exact hh.around h2 j hjn hph
    · rw [Function.update_of_ne hph]
      exact hh.except j hj hjn hjh hph
  · have hgrand : v (h / 2 / 2) ≤ v (h / 2) :=
      hh.except (h / 2) hp2 (by omega) (by omega) (by omega)
    rw [Function.update_of_ne (by omega : h / 2 / 2 ≠ h)]
    by_cases hjh : j = h
    · rw [hjh, Function.update_self]
      exact hgrand
    · rw [Function.update_of_ne hjh]
      exact hgrand.trans (hsib j hjn hp hjh)
  · by_cases hjh : j = h
    · rw [hjh, Function.update_self]
      exact hx
    · rw [Function.update_of_ne hjh]
      exact hx.trans (hsib j hjn hp hjh)

/-- **The hole moves down**: the least key of its children goes up into it. -/
theorem Hole.down (hh : Hole n v h) (_h1 : 1 ≤ h) (hc : c / 2 = h) (hn : c ≤ n)
    (hleast : Above n v h (v c)) : Hole n (Function.update v h (v c)) c := by
  refine ⟨fun j hj hjn hne hp => ?_, fun _ j hjn hp => ?_⟩
  · by_cases hjh : j = h
    · rw [hjh, Function.update_self, Function.update_of_ne (by omega)]
      exact hh.around (by omega) c hn hc
    · rw [Function.update_of_ne hjh]
      by_cases hph : j / 2 = h
      · rw [hph, Function.update_self]
        exact hleast j hjn hph
      · rw [Function.update_of_ne hph]
        exact hh.except j hj hjn hjh hph
  · rw [hc, Function.update_self, Function.update_of_ne (by omega)]
    have := hh.except j (by omega) hjn (by omega) (by omega)
    rwa [hp] at this

/-- **The hole is filled** by a key between those of its parent and its children. -/
theorem Hole.fill (hh : Hole n v h) (h1 : 1 ≤ h) (habove : Above n v h x)
    (hparent : 2 ≤ h → v (h / 2) ≤ x) : Ordered n (Function.update v h x) := by
  intro j h2 hn
  by_cases hjh : j = h
  · subst hjh
    rw [Function.update_self, Function.update_of_ne (by omega)]
    exact hparent h2
  · rw [Function.update_of_ne hjh]
    by_cases hp : j / 2 = h
    · rw [hp, Function.update_self]
      exact habove j hn hp
    · rw [Function.update_of_ne hp]
      exact hh.except j h2 hn hjh hp

/-- A place without children. -/
theorem above_of_leaf (h : n < 2 * c) : Above n v c x := fun j hn hj => by omega

end BinaryHeap
