import Mathlib
import Nezumi.Lib.Rearrange

/-!
# Quicksort with two indexes that cross

A part of a table is divided by a key that one of its entries has: an index runs up over the entries
below that key, another one down over those above it, and the two entries where they stop change
places, until the indexes have crossed. Then both sides are sorted.

* `readAt`: a read outside the part yields nothing, so that a result means that no read was outside.
* `scanUp`, `scanDown`, `divide`, `sort`: the loops and the recursion, each for at most some rounds.
* `Dividing`: what holds between two rounds of `divide`, with a place where either scan stops.
* `divide_spec`, `sort_spec`: with enough rounds there is a result, and what it is.
-/

namespace CrossingSort

open Rearrange

variable {α β : Type} [LinearOrder β] (key : α → β)

/-- An entry of the part from `first` to `last`. -/
def readAt (t : ℤ → α) (first last v : ℤ) : Option α :=
  if first ≤ v ∧ v ≤ last then some (t v) else none

/-- Two entries change places. -/
def swap (t : ℤ → α) (v w : ℤ) : ℤ → α := Function.update (Function.update t v (t w)) w (t v)

/-- The first place from `v` on whose key is not below `sep`. -/
def scanUp (t : ℤ → α) (first last : ℤ) (sep : β) : ℕ → ℤ → Option ℤ
  | 0, _ => none
  | f + 1, v => do
    let a ← readAt t first last v
    if key a < sep then scanUp t first last sep f (v + 1) else return v

/-- The last place up to `v` whose key is not above `sep`. -/
def scanDown (t : ℤ → α) (first last : ℤ) (sep : β) : ℕ → ℤ → Option ℤ
  | 0, _ => none
  | f + 1, v => do
    let a ← readAt t first last v
    if sep < key a then scanDown t first last sep f (v - 1) else return v

/-- The loop over the part, from two indexes on. -/
def divide (first last : ℤ) (sep : β) :
    ℕ → (ℤ → α) → ℤ → ℤ → Option ((ℤ → α) × ℤ × ℤ)
  | 0, _, _, _ => none
  | f + 1, t, vmin, vmax => do
    let vmin ← scanUp key t first last sep f vmin
    let vmax ← scanDown key t first last sep f vmax
    if vmin ≤ vmax then
      let t := swap t vmin vmax
      if vmin + 1 ≤ vmax - 1 then divide first last sep f t (vmin + 1) (vmax - 1)
      else return (t, vmin + 1, vmax - 1)
    else return (t, vmin, vmax)

/-- The part from `first` to `last` is sorted. -/
def sort : ℕ → (ℤ → α) → ℤ → ℤ → Option (ℤ → α)
  | 0, _, _, _ => none
  | f + 1, t, first, last => do
    let middle ← readAt t first last ((first + last).tdiv 2)
    let (t, vmin, vmax) ← divide key first last (key middle) f t first last
    let t ← if first < vmax then sort f t first vmax else some t
    if vmin < last then sort f t vmin last else some t

/-- The keys of a part do not fall. -/
def Sorted (t : ℤ → α) (first last : ℤ) : Prop := MonotoneOn (key ∘ t) (Set.Icc first last)

section Reading

variable {t : ℤ → α} {first last v w i : ℤ}

theorem readAt_of_mem (h1 : first ≤ v) (h2 : v ≤ last) : readAt t first last v = some (t v) :=
  if_pos ⟨h1, h2⟩

theorem swap_left (h : v ≠ w) : swap t v w v = t w := by
  unfold swap
  rw [Function.update_of_ne h, Function.update_self]

theorem swap_right : swap t v w w = t v := Function.update_self ..

theorem swap_of_ne (hv : i ≠ v) (hw : i ≠ w) : swap t v w i = t i := by
  unfold swap
  rw [Function.update_of_ne hw, Function.update_of_ne hv]

theorem swap_rearranges (hv : v ∈ Finset.Icc first last) (hw : w ∈ Finset.Icc first last) :
    Rearranges (Finset.Icc first last) t (swap t v w) := by
  have h := Rearranges.hole hv hw t (t v)
  rwa [Function.update_eq_self] at h

end Reading

section Scans

variable {key} {t : ℤ → α} {first last v stop : ℤ} {sep : β} {f : ℕ}

/-- The scan up ends at the first place that is not below, if there is one. -/
theorem scanUp_spec (hfirst : first ≤ v) (hstop : v ≤ stop) (hlast : stop ≤ last)
    (hsep : sep ≤ key (t stop)) (hf : stop - v < f) :
    ∃ w, scanUp key t first last sep f v = some w ∧ v ≤ w ∧ w ≤ stop ∧ sep ≤ key (t w) ∧
      ∀ i, v ≤ i → i < w → key (t i) < sep := by
  induction f generalizing v with
  | zero => omega
  | succ f ih =>
    unfold scanUp
    rw [readAt_of_mem hfirst (by omega), Option.bind_eq_bind, Option.bind_some]
    split
    · rename_i hlt
      have hne : v ≠ stop := by
        rintro rfl
        exact absurd hlt (not_lt.mpr hsep)
      obtain ⟨w, hw, hvw, hws, hkey, hbelow⟩ :=
        ih (v := v + 1) (by omega) (by omega) (by push_cast at hf; omega)
      refine ⟨w, hw, by omega, hws, hkey, fun i hi hiw => ?_⟩
      rcases eq_or_ne i v with rfl | hiv
      · exact hlt
      · exact hbelow i (by omega) hiw
    · rename_i hge
      exact ⟨v, rfl, le_refl v, hstop, not_lt.mp hge, fun i hi hiv => by omega⟩

/-- The scan down ends at the last place that is not above, if there is one. -/
theorem scanDown_spec (hlast : v ≤ last) (hstop : stop ≤ v) (hfirst : first ≤ stop)
    (hsep : key (t stop) ≤ sep) (hf : v - stop < f) :
    ∃ w, scanDown key t first last sep f v = some w ∧ w ≤ v ∧ stop ≤ w ∧ key (t w) ≤ sep ∧
      ∀ i, w < i → i ≤ v → sep < key (t i) := by
  induction f generalizing v with
  | zero => omega
  | succ f ih =>
    unfold scanDown
    rw [readAt_of_mem (by omega) hlast, Option.bind_eq_bind, Option.bind_some]
    split
    · rename_i hlt
      have hne : v ≠ stop := by
        rintro rfl
        exact absurd hlt (not_lt.mpr hsep)
      obtain ⟨w, hw, hvw, hws, hkey, habove⟩ :=
        ih (v := v - 1) (by omega) (by omega) (by push_cast at hf; omega)
      refine ⟨w, hw, by omega, hws, hkey, fun i hi hiv => ?_⟩
      rcases eq_or_ne i v with rfl | hne'
      · exact hlt
      · exact habove i hi (by omega)
    · rename_i hge
      exact ⟨v, rfl, le_refl v, hstop, not_lt.mp hge, fun i hi hiv => by omega⟩

end Scans

section Division

variable {key} {t u : ℤ → α} {first last vmin vmax lo hi : ℤ} {sep : β} {f : ℕ}

/-- Between two rounds: nothing before `vmin` is above, nothing behind `vmax` is below, and `hi` and
`lo` are places where the scans stop. -/
structure Dividing (key : α → β) (t : ℤ → α) (first last : ℤ) (sep : β) (vmin vmax lo hi : ℤ) :
    Prop where
  first_le : first ≤ vmin
  le_last : vmax ≤ last
  before : ∀ i, first ≤ i → i < vmin → key (t i) ≤ sep
  behind : ∀ i, vmax < i → i ≤ last → sep ≤ key (t i)
  hi_ge : vmin ≤ hi
  hi_le : hi ≤ vmax + 1
  hi_last : hi ≤ last
  hi_key : sep ≤ key (t hi)
  lo_le : lo ≤ vmax
  lo_ge : vmin - 1 ≤ lo
  lo_first : first ≤ lo
  lo_key : key (t lo) ≤ sep

/-- Where the indexes have crossed: the part is divided, and either side is smaller than it. -/
structure Divided (key : α → β) (t : ℤ → α) (first last : ℤ) (sep : β) (vmin vmax : ℤ) : Prop where
  crossed : vmax < vmin
  first_lt : first < vmin
  lt_last : vmax < last
  before : ∀ i, first ≤ i → i < vmin → key (t i) ≤ sep
  behind : ∀ i, vmax < i → i ≤ last → sep ≤ key (t i)
  le_last : vmin ≤ last + 1
  first_le : first - 1 ≤ vmax

/-- Where the scans end, between two rounds. -/
theorem Dividing.scans (h : Dividing key t first last sep vmin vmax lo hi)
    (hf : vmax - vmin + 1 < f) :
    ∃ v w, scanUp key t first last sep f vmin = some v ∧
      scanDown key t first last sep f vmax = some w ∧ vmin ≤ v ∧ v ≤ hi ∧ w ≤ vmax ∧ lo ≤ w ∧
      sep ≤ key (t v) ∧ key (t w) ≤ sep ∧
      (∀ i, first ≤ i → i < v → key (t i) ≤ sep) ∧ ∀ i, w < i → i ≤ last → sep ≤ key (t i) := by
  have hhi := h.hi_le
  have hlo := h.lo_ge
  obtain ⟨v, hv, hv1, hv2, hvkey, hup⟩ :=
    scanUp_spec h.first_le h.hi_ge h.hi_last h.hi_key (f := f) (by omega)
  obtain ⟨w, hw, hw1, hw2, hwkey, hdown⟩ :=
    scanDown_spec h.le_last h.lo_le h.lo_first h.lo_key (f := f) (by omega)
  refine ⟨v, w, hv, hw, hv1, hv2, hw1, hw2, hvkey, hwkey, fun i hi1 hi2 => ?_, fun i hi1 hi2 => ?_⟩
  · rcases lt_or_ge i vmin with hi3 | hi3
    · exact h.before i hi1 hi3
    · exact (hup i hi3 hi2).le
  · rcases lt_or_ge vmax i with hi3 | hi3
    · exact h.behind i hi3 hi2
    · exact (hdown i hi1 hi3).le

/-- The entries on either side after an exchange. -/
theorem before_swap {v w : ℤ} (hvw : v ≤ w) (hw : key (t w) ≤ sep)
    (hbefore : ∀ i, first ≤ i → i < v → key (t i) ≤ sep) :
    ∀ i, first ≤ i → i < v + 1 → key (swap t v w i) ≤ sep := by
  intro i hi1 hi2
  rcases eq_or_ne i v with rfl | hiv
  · rcases eq_or_ne i w with rfl | hiw
    · rwa [swap_right]
    · rwa [swap_left hiw]
  · rw [swap_of_ne hiv (by omega)]
    exact hbefore i hi1 (by omega)

theorem behind_swap {v w : ℤ} (hvw : v ≤ w) (hv : sep ≤ key (t v))
    (hbehind : ∀ i, w < i → i ≤ last → sep ≤ key (t i)) :
    ∀ i, w - 1 < i → i ≤ last → sep ≤ key (swap t v w i) := by
  intro i hi1 hi2
  rcases eq_or_ne i w with rfl | hiw
  · rwa [swap_right]
  · rw [swap_of_ne (by omega) hiw]
    exact hbehind i (by omega) hi2

/-- **The part is divided**, if there are enough rounds. -/
theorem divide_spec (h : Dividing key t first last sep vmin vmax lo hi) (hle : vmin ≤ vmax)
    (hstart : first < vmin ∧ vmax < last ∨ hi ≤ lo) (hf : vmax - vmin + 2 < f) :
    ∃ u v w, divide key first last sep f t vmin vmax = some (u, v, w) ∧
      Rearranges (Finset.Icc first last) t u ∧ Divided key u first last sep v w := by
  induction f generalizing t vmin vmax lo hi with
  | zero => omega
  | succ f ih =>
    have hfirst := h.first_le
    have hlast := h.le_last
    have hhi := h.hi_last
    have hlo := h.lo_first
    have hhi' := h.hi_le
    have hlo' := h.lo_ge
    obtain ⟨v, w, hv, hw, hv1, hv2, hw1, hw2, hvkey, hwkey, hbefore, hbehind⟩ :=
      h.scans (f := f) (by push_cast at hf; omega)
    unfold divide
    rw [hv, hw]
    simp only [Option.bind_eq_bind, Option.bind_some]
    split
    · rename_i hvw
      have hswap : Rearranges (Finset.Icc first last) t (swap t v w) := by
        apply swap_rearranges <;> rw [Finset.mem_Icc] <;> omega
      have hbefore' := before_swap hvw hwkey hbefore
      have hbehind' := behind_swap hvw hvkey hbehind
      split
      · rename_i hgo
        have hnext : Dividing key (swap t v w) first last sep (v + 1) (w - 1) v w := by
          constructor
          · omega
          · omega
          · exact hbefore'
          · exact hbehind'
          · omega
          · omega
          · omega
          · exact hbehind' w (by omega) (by omega)
          · omega
          · omega
          · omega
          · exact hbefore' v (by omega) (by omega)
        obtain ⟨u, v', w', hu, hperm, hdivided⟩ :=
          ih hnext hgo (.inl ⟨by omega, by omega⟩) (by push_cast at hf; omega)
        exact ⟨u, v', w', hu, hswap.trans hperm, hdivided⟩
      · refine ⟨swap t v w, v + 1, w - 1, rfl, hswap, ?_⟩
        constructor
        · omega
        · omega
        · omega
        · exact hbefore'
        · exact hbehind'
        · omega
        · omega
    · rename_i hvw
      refine ⟨t, v, w, rfl, Rearranges.refl _ t, ?_⟩
      constructor
      · omega
      · omega
      · omega
      · exact hbefore
      · exact hbehind
      · omega
      · omega

/-- Before the first round both scans stop at the middle at the latest. -/
theorem dividing_middle {m : ℤ} (h1 : first ≤ m) (h2 : m ≤ last) :
    Dividing key t first last (key (t m)) first last m m := by
  constructor
  · omega
  · omega
  · intro i hi1 hi2
    omega
  · intro i hi1 hi2
    omega
  · omega
  · omega
  · omega
  · exact le_refl _
  · omega
  · omega
  · omega
  · exact le_refl _

end Division

/-- The middle of a part, which the quotient rounds towards zero. -/
theorem middle_mem {first last : ℤ} (h : first ≤ last) :
    first ≤ (first + last).tdiv 2 ∧ (first + last).tdiv 2 ≤ last := by
  have hdiv := Int.mul_tdiv_add_tmod (first + last) 2
  have hlt := Int.tmod_lt_of_pos (first + last) (show (0 : ℤ) < 2 by decide)
  have hgt := Int.lt_tmod_of_pos (first + last) (show (0 : ℤ) < 2 by decide)
  omega

section Sorting

variable {key} {t u : ℤ → α} {first last vmin vmax : ℤ} {sep : β} {f : ℕ}

/-- What holds of all keys of a part holds of them in another order. -/
theorem forall_rearranges {p : α → Prop} (h : Rearranges (Finset.Icc first last) t u)
    (hp : ∀ i, first ≤ i → i ≤ last → p (t i)) : ∀ i, first ≤ i → i ≤ last → p (u i) := by
  intro i hi1 hi2
  have hmem : u i ∈ values (Finset.Icc first last) u :=
    mem_values.mpr ⟨i, Finset.mem_Icc.mpr ⟨hi1, hi2⟩, rfl⟩
  rw [h.values_eq] at hmem
  obtain ⟨j, hj, heq⟩ := mem_values.mp hmem
  obtain ⟨hj1, hj2⟩ := Finset.mem_Icc.mp hj
  rw [← heq]
  exact hp j hj1 hj2

/-- Outside a part nothing has changed. -/
theorem eq_outside {i : ℤ} (h : Rearranges (Finset.Icc first last) t u)
    (hi : i < first ∨ last < i) : u i = t i := by
  apply h.eq_of_notMem
  rw [Finset.mem_Icc]
  omega

theorem sorted_of_le (h : last ≤ first) : Sorted key t first last := by
  intro i hi j hj _
  obtain ⟨hi1, hi2⟩ := hi
  obtain ⟨hj1, hj2⟩ := hj
  rw [show i = j by omega]

theorem Sorted.congr (h : Sorted key t first last) (heq : ∀ i, first ≤ i → i ≤ last → u i = t i) :
    Sorted key u first last := by
  intro i hi j hj hij
  show key (u i) ≤ key (u j)
  rw [heq i hi.1 hi.2, heq j hj.1 hj.2]
  exact h hi hj hij

/-- Two sorted sides, and what is between them, make a sorted part. -/
theorem Divided.sorted (h : Divided key t first last sep vmin vmax)
    (hleft : Sorted key t first vmax) (hright : Sorted key t vmin last) :
    Sorted key t first last := by
  intro i hi j hj hij
  obtain ⟨hi1, hi2⟩ := hi
  obtain ⟨hj1, hj2⟩ := hj
  have hcrossed := h.crossed
  show key (t i) ≤ key (t j)
  rcases le_or_gt j vmax with hjv | hjv
  · exact hleft ⟨hi1, by omega⟩ ⟨hj1, hjv⟩ hij
  · rcases le_or_gt vmin i with hiv | hiv
    · exact hright ⟨hiv, hi2⟩ ⟨by omega, hj2⟩ hij
    · exact (h.before i hi1 hiv).trans (h.behind j hjv hj2)

/-- The sides of a divided part may be sorted. -/
theorem Divided.left (h : Divided key t first last sep vmin vmax)
    (hu : Rearranges (Finset.Icc first vmax) t u) : Divided key u first last sep vmin vmax where
  crossed := h.crossed
  first_lt := h.first_lt
  lt_last := h.lt_last
  before i hi1 hi2 := by
    rcases le_or_gt i vmax with hiv | hiv
    · refine forall_rearranges (p := fun a => key a ≤ sep) hu (fun j hj1 hj2 => ?_) i hi1 hiv
      have := h.crossed
      exact h.before j hj1 (by omega)
    · rw [eq_outside hu (.inr hiv)]
      exact h.before i hi1 hi2
  behind i hi1 hi2 := by
    rw [eq_outside hu (.inr hi1)]
    exact h.behind i hi1 hi2
  le_last := h.le_last
  first_le := h.first_le

theorem Divided.right (h : Divided key t first last sep vmin vmax)
    (hu : Rearranges (Finset.Icc vmin last) t u) : Divided key u first last sep vmin vmax where
  crossed := h.crossed
  first_lt := h.first_lt
  lt_last := h.lt_last
  before i hi1 hi2 := by
    rw [eq_outside hu (.inl hi2)]
    exact h.before i hi1 hi2
  behind i hi1 hi2 := by
    rcases le_or_gt vmin i with hiv | hiv
    · refine forall_rearranges (p := fun a => sep ≤ key a) hu (fun j hj1 hj2 => ?_) i hiv hi2
      have := h.crossed
      exact h.behind j (by omega) hj2
    · rw [eq_outside hu (.inl hiv)]
      exact h.behind i hi1 hi2
  le_last := h.le_last
  first_le := h.first_le

/-- **The part is sorted**, if there are enough rounds: no read is outside it, its entries are those
it had, nothing else has changed, and the keys do not fall. -/
theorem sort_spec (hle : first ≤ last) (hf : last - first + 3 < f) :
    ∃ u, sort key f t first last = some u ∧ Rearranges (Finset.Icc first last) t u ∧
      Sorted key u first last := by
  induction f generalizing t first last with
  | zero => omega
  | succ f ih =>
    push_cast at hf
    have hm := middle_mem hle
    obtain ⟨t₁, vmin, vmax, ht₁, hperm₁, hdiv₁⟩ :=
      divide_spec (f := f) (dividing_middle hm.1 hm.2 : Dividing key t _ _ _ _ _ _ _) hle
        (.inr (le_refl _)) (by omega)
    have hcrossed := hdiv₁.crossed
    have hfirst := hdiv₁.first_lt
    have hlast := hdiv₁.lt_last
    obtain ⟨t₂, ht₂, hperm₂, hsorted₂⟩ : ∃ t₂,
        (if first < vmax then sort key f t₁ first vmax else some t₁) = some t₂ ∧
          Rearranges (Finset.Icc first vmax) t₁ t₂ ∧ Sorted key t₂ first vmax := by
      by_cases hgo : first < vmax
      · rw [if_pos hgo]
        exact ih hgo.le (by omega)
      · exact ⟨t₁, if_neg hgo, Rearranges.refl _ t₁, sorted_of_le (by omega)⟩
    have hdiv₂ := hdiv₁.left hperm₂
    obtain ⟨t₃, ht₃, hperm₃, hsorted₃⟩ : ∃ t₃,
        (if vmin < last then sort key f t₂ vmin last else some t₂) = some t₃ ∧
          Rearranges (Finset.Icc vmin last) t₂ t₃ ∧ Sorted key t₃ vmin last := by
      by_cases hgo : vmin < last
      · rw [if_pos hgo]
        exact ih hgo.le (by omega)
      · exact ⟨t₂, if_neg hgo, Rearranges.refl _ t₂, sorted_of_le (by omega)⟩
    refine ⟨t₃, ?_, ?_, ?_⟩
    · unfold sort
      rw [readAt_of_mem hm.1 hm.2]
      simp only [Option.bind_eq_bind, Option.bind_some, ht₁]
      split at ht₂
      · rename_i hgo
        rw [if_pos hgo, ht₂]
        exact ht₃
      · rename_i hgo
        obtain rfl := Option.some.inj ht₂
        rw [if_neg hgo]
        exact ht₃
    · have hleft : Finset.Icc first vmax ⊆ Finset.Icc first last :=
        Finset.Icc_subset_Icc_right (by omega)
      have hright : Finset.Icc vmin last ⊆ Finset.Icc first last :=
        Finset.Icc_subset_Icc_left (by omega)
      exact hperm₁.trans ((hperm₂.mono hleft).trans (hperm₃.mono hright))
    · refine (hdiv₂.right hperm₃).sorted (hsorted₂.congr fun i hi1 hi2 => ?_) hsorted₃
      exact eq_outside hperm₃ (.inl (by omega))

end Sorting

end CrossingSort
