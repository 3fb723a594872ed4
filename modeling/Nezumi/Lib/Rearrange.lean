import Mathlib.Data.Finset.Image
import Mathlib.Logic.Equiv.Basic
import Mathlib.Tactic.Common

/-!
# Arrays whose entries change places

Loops that move a hole through an array, from place to place, and fill it at the end with a value do
not change which values the array has.

* `Rearranges s f g`: at the places of `s` the arrays have the same values in some order, everywhere
  else they are the same.
* `Rearranges.hole`: a hole that moves from `a` to `b`.
* `values s f`: the values at the places of `s`. `Rearranges.values_eq`: they stay.
-/

namespace Rearrange

variable {ι α : Type*} {s t : Finset ι} {f g h : ι → α} {a b : ι}

/-- At the places of `s` the values of `f` and `g` are the same in some order, elsewhere in the same
order. -/
def Rearranges (s : Finset ι) (f g : ι → α) : Prop :=
  ∃ σ : Equiv.Perm ι, {i | σ i ≠ i} ⊆ (s : Set ι) ∧ g = f ∘ σ

theorem Rearranges.refl (s : Finset ι) (f : ι → α) : Rearranges s f f :=
  ⟨Equiv.refl ι, fun _ hi => absurd rfl hi, rfl⟩

theorem Rearranges.trans (hfg : Rearranges s f g) (hgh : Rearranges s g h) : Rearranges s f h := by
  obtain ⟨σ, hσ, rfl⟩ := hfg
  obtain ⟨τ, hτ, rfl⟩ := hgh
  refine ⟨τ.trans σ, fun i hi => ?_, rfl⟩
  by_cases hτi : τ i = i
  · refine hσ fun hσi => hi ?_
    rw [Equiv.trans_apply, hτi, hσi]
  · exact hτ hτi

theorem Rearranges.mono (hfg : Rearranges s f g) (hst : s ⊆ t) : Rearranges t f g := by
  obtain ⟨σ, hσ, rfl⟩ := hfg
  exact ⟨σ, fun i hi => hst (hσ hi), rfl⟩

theorem Rearranges.eq_of_notMem (hfg : Rearranges s f g) (ha : a ∉ s) : g a = f a := by
  obtain ⟨σ, hσ, rfl⟩ := hfg
  have hfix : σ a = a := by
    by_contra hne
    exact ha (hσ hne)
  rw [Function.comp_apply, hfix]

/-- The value at `b` goes into the hole at `a`, which leaves a hole at `b`. -/
theorem Rearranges.hole [DecidableEq ι] (ha : a ∈ s) (hb : b ∈ s) (f : ι → α) (x : α) :
    Rearranges s (Function.update f a x)
      (Function.update (Function.update f a (f b)) b x) := by
  refine ⟨Equiv.swap a b, fun i hi => ?_, funext fun i => ?_⟩
  · by_contra his
    refine hi (Equiv.swap_apply_of_ne_of_ne ?_ ?_)
    · rintro rfl
      exact his ha
    · rintro rfl
      exact his hb
  · rw [Function.comp_apply]
    rcases eq_or_ne i b with rfl | hib
    · rw [Function.update_self, Equiv.swap_apply_right, Function.update_self]
    · rw [Function.update_of_ne hib]
      rcases eq_or_ne i a with rfl | hia
      · rw [Function.update_self, Equiv.swap_apply_left, Function.update_of_ne (Ne.symm hib)]
      · rw [Function.update_of_ne hia, Equiv.swap_apply_of_ne_of_ne hia hib,
          Function.update_of_ne hia]

/-- The values at the places of `s`. -/
def values (s : Finset ι) (f : ι → α) : Multiset α := s.val.map f

theorem Rearranges.values_eq (hfg : Rearranges s f g) : values s g = values s f := by
  obtain ⟨σ, hσ, rfl⟩ := hfg
  have hmap : s.val.map σ = s.val := congrArg Finset.val (Finset.map_perm hσ)
  unfold values
  rw [← Multiset.map_map, hmap]

theorem mem_values {x : α} : x ∈ values s f ↔ ∃ i ∈ s, f i = x := Multiset.mem_map

theorem values_congr (h : ∀ i ∈ s, g i = f i) : values s g = values s f := Multiset.map_congr rfl h

theorem values_insert [DecidableEq ι] (ha : a ∉ s) (f : ι → α) :
    values (insert a s) f = f a ::ₘ values s f := by
  unfold values
  rw [Finset.insert_val_of_notMem ha, Multiset.map_cons]

end Rearrange
