import Mathlib.Data.List.Perm.Basic
import Mathlib.Data.List.Pairwise
import Mathlib.Data.List.Sort
import Mathlib.Order.Nat

/-!
# Searching a position in a descending list

A test over the indexes `0, …, n - 1` that holds on a first part and fails on the rest has one cut.
It is found by scanning down from the end or by bisection, and an element goes in there.

* `Cut`: the position before which the test holds and from which it fails; `Cut.unique`.
* `scanDown_cut`, `bisect_cut`: both searches find the cut of a test that never turns true again.
* `pairwise_insertAt`: a list that is ordered by a key stays so when an element is put in at the cut
  of "the key here is larger".
* `insertAt_eq_orderedInsert`, `filter_insertAt`: this is the ordered insertion, in front of the
  elements of the same key.
* `insertAt_range`: the elements of an array from the cut on move up by one.
-/

namespace Search

/-- The test holds before `p` and fails from `p` on, as far as `n`. -/
structure Cut (above : ℕ → Bool) (n p : ℕ) : Prop where
  le : p ≤ n
  before : ∀ k < p, above k = true
  after : ∀ k, p ≤ k → k < n → above k = false

theorem Cut.unique {above : ℕ → Bool} {n p q : ℕ} (hp : Cut above n p) (hq : Cut above n q) :
    p = q := by
  rcases lt_trichotomy p q with h | h | h
  · have ht := hq.before p h
    rw [hp.after p le_rfl (h.trans_le hq.le)] at ht
    cases ht
  · exact h
  · have ht := hp.before q h
    rw [hq.after q le_rfl (h.trans_le hp.le)] at ht
    cases ht

/-- Once false, the test stays false. -/
def Descends (above : ℕ → Bool) (n : ℕ) : Prop :=
  ∀ i j, i ≤ j → j < n → above j = true → above i = true

/-- The position after the last index below `n` at which the test holds. -/
def scanDown (above : ℕ → Bool) : ℕ → ℕ
  | 0 => 0
  | i + 1 => if above i then i + 1 else scanDown above i

theorem scanDown_le (above : ℕ → Bool) (n : ℕ) : scanDown above n ≤ n := by
  induction n with
  | zero => exact le_rfl
  | succ n ih =>
    unfold scanDown
    split
    · exact le_rfl
    · exact ih.trans n.le_succ

theorem scanDown_congr {above above' : ℕ → Bool} {n : ℕ} (h : ∀ k < n, above k = above' k) :
    scanDown above n = scanDown above' n := by
  induction n with
  | zero => rfl
  | succ n ih =>
    unfold scanDown
    rw [h n n.lt_succ_self, ih fun k hk => h k (hk.trans n.lt_succ_self)]

theorem scanDown_cut {above : ℕ → Bool} {n : ℕ} (h : Descends above n) :
    Cut above n (scanDown above n) := by
  induction n with
  | zero => exact ⟨le_rfl, fun k hk => absurd hk (by simp [scanDown]), fun k _ hk => by omega⟩
  | succ n ih =>
    have hn : Descends above n := fun i j hij hj => h i j hij (by omega)
    unfold scanDown
    by_cases ha : above n = true
    · rw [if_pos ha]
      exact ⟨le_rfl, fun k hk => h k n (by omega) (by omega) ha, fun k h1 h2 => by omega⟩
    · rw [if_neg ha]
      obtain ⟨hle, hb, hafter⟩ := ih hn
      refine ⟨by omega, hb, fun k h1 h2 => ?_⟩
      rcases Nat.lt_succ_iff_lt_or_eq.mp h2 with hk | rfl
      · exact hafter k h1 hk
      · simpa using ha

/-- Bisection between `lo` and `hi`, in at most as many rounds as the fuel. -/
def bisect (above : ℕ → Bool) : ℕ → ℕ → ℕ → ℕ
  | 0, lo, _ => lo
  | fuel + 1, lo, hi =>
    if lo < hi then
      let pivot := (lo + hi) / 2
      if above pivot then bisect above fuel (pivot + 1) hi else bisect above fuel lo pivot
    else lo

theorem bisect_le (above : ℕ → Bool) (fuel : ℕ) {lo hi : ℕ} (h : lo ≤ hi) :
    bisect above fuel lo hi ≤ hi := by
  induction fuel generalizing lo hi with
  | zero => exact h
  | succ fuel ih =>
    simp only [bisect]
    split
    · split
      · exact ih (by omega)
      · exact (ih (by omega)).trans (by omega)
    · exact h

theorem bisect_congr {above above' : ℕ → Bool} (fuel : ℕ) {lo hi : ℕ}
    (h : ∀ k < hi, above k = above' k) : bisect above fuel lo hi = bisect above' fuel lo hi := by
  induction fuel generalizing lo hi with
  | zero => rfl
  | succ fuel ih =>
    simp only [bisect]
    by_cases hlt : lo < hi
    · rw [if_pos hlt, if_pos hlt, h _ (by omega), ih h, ih fun k hk => h k (by omega)]
    · rw [if_neg hlt, if_neg hlt]

/-- The test holds before `lo`, fails from `hi` on, and the fuel covers the distance. -/
theorem bisect_cut {above : ℕ → Bool} {n : ℕ} (h : Descends above n) (fuel : ℕ) {lo hi : ℕ}
    (hle : lo ≤ hi) (hfuel : hi ≤ lo + fuel) (hhi : hi < n)
    (hbefore : ∀ k < lo, above k = true) (hafter : ∀ k, hi ≤ k → k < n → above k = false) :
    Cut above n (bisect above fuel lo hi) := by
  induction fuel generalizing lo hi with
  | zero =>
    obtain rfl : lo = hi := by omega
    exact ⟨hhi.le, hbefore, hafter⟩
  | succ fuel ih =>
    simp only [bisect]
    split
    case isTrue hlt =>
      split
      case isTrue hp =>
        refine ih (by omega) (by omega) hhi (fun k hk => ?_) hafter
        exact h k ((lo + hi) / 2) (by omega) (by omega) hp
      case isFalse hp =>
        refine ih (by omega) (by omega) (by omega) hbefore fun k h1 h2 => ?_
        by_contra hk
        exact hp (h ((lo + hi) / 2) k h1 h2 (by simpa using hk))
    case isFalse hlt =>
      obtain rfl : lo = hi := by omega
      exact ⟨hhi.le, hbefore, hafter⟩

/-- `x` put into the list at position `p`. -/
def insertAt {α : Type*} (p : ℕ) (x : α) (l : List α) : List α := l.take p ++ x :: l.drop p

theorem perm_insertAt {α : Type*} (p : ℕ) (x : α) (l : List α) :
    (insertAt p x l).Perm (x :: l) := by
  unfold insertAt
  calc (l.take p ++ x :: l.drop p).Perm (x :: (l.take p ++ l.drop p)) := List.perm_middle
    _ = x :: l := by rw [List.take_append_drop]

section Ordered

variable {α κ : Type*} [LinearOrder κ]

/-- The keys do not grow along the list. -/
def Falling (key : α → κ) (l : List α) : Prop := l.Pairwise fun a b => key b ≤ key a

theorem Falling.descends {key : α → κ} {l : List α} (h : Falling key l) (j : κ) :
    Descends (fun k => (l[k]?).any fun a => j < key a) l.length := by
  intro a b hab hb hj
  have ha : a < l.length := hab.trans_lt hb
  simp only [List.getElem?_eq_getElem ha, List.getElem?_eq_getElem hb, Option.any_some,
    decide_eq_true_eq] at hj ⊢
  rcases hab.eq_or_lt with rfl | hlt
  · exact hj
  · exact hj.trans_le (List.pairwise_iff_getElem.mp h a b ha hb hlt)

/-- Put in where the larger keys end, an element keeps the order. -/
theorem pairwise_insertAt {key : α → κ} {l : List α} {x : α} {p : ℕ} (h : Falling key l)
    (hp : Cut (fun k => (l[k]?).any fun a => key x < key a) l.length p) :
    Falling key (insertAt p x l) := by
  have htake : ∀ a ∈ l.take p, key x ≤ key a := by
    intro a ha
    obtain ⟨k, hk, rfl⟩ := List.getElem_of_mem ha
    rw [List.length_take] at hk
    have := hp.before k (by omega)
    rw [List.getElem?_eq_getElem (by omega)] at this
    rw [List.getElem_take]
    exact (by simpa using this : key x < _).le
  have hdrop : ∀ a ∈ l.drop p, key a ≤ key x := by
    intro a ha
    obtain ⟨k, hk, rfl⟩ := List.getElem_of_mem ha
    rw [List.length_drop] at hk
    have := hp.after (p + k) (by omega) (by omega)
    rw [List.getElem?_eq_getElem (by omega)] at this
    rw [List.getElem_drop]
    simpa using this
  have hsplit : Falling key (l.take p ++ l.drop p) := by rwa [List.take_append_drop]
  obtain ⟨h1, h2, h12⟩ := List.pairwise_append.mp hsplit
  refine List.pairwise_append.mpr ⟨h1, List.pairwise_cons.mpr ⟨fun a ha => hdrop a ha, h2⟩, ?_⟩
  intro a ha b hb
  rcases List.mem_cons.mp hb with rfl | hb
  · exact htake a ha
  · exact h12 a ha b hb

theorem Falling.congr {key key' : α → κ} {l : List α} (h : Falling key l)
    (heq : ∀ a ∈ l, key' a = key a) : Falling key' l := by
  refine List.Pairwise.imp_of_mem (fun {a b} ha hb hab => ?_) h
  rw [heq a ha, heq b hb]
  exact hab

/-- The last element of a falling list has the least key. -/
theorem Falling.getLast_le {key : α → κ} {l : List α} {x : α} (h : Falling key (l ++ [x])) {a : α}
    (ha : a ∈ l) : key x ≤ key a :=
  (List.pairwise_append.mp h).2.2 a ha x (by simp)

/-- What is put in at the cut is put in front of the first key that is not larger. -/
theorem insertAt_eq_orderedInsert {key : α → κ} {l : List α} {x : α} {p : ℕ}
    (hp : Cut (fun k => (l[k]?).any fun a => key x < key a) l.length p) :
    insertAt p x l = l.orderedInsert (fun a b => key b ≤ key a) x := by
  induction l generalizing p with
  | nil =>
    obtain rfl : p = 0 := Nat.le_zero.mp hp.le
    rfl
  | cons a l ih =>
    cases p with
    | zero =>
      have ha := hp.after 0 le_rfl (Nat.succ_pos _)
      have hle : key a ≤ key x := by simpa using ha
      exact (List.orderedInsert_cons_of_le (fun a b => key b ≤ key a) l hle).symm
    | succ p =>
      have ha := hp.before 0 (Nat.succ_pos _)
      have hlt : key x < key a := by simpa using ha
      have htail : Cut (fun k => (l[k]?).any fun a => key x < key a) l.length p :=
        ⟨Nat.le_of_succ_le_succ hp.le, fun k hk => hp.before (k + 1) (Nat.succ_lt_succ hk),
          fun k hk hlen => hp.after (k + 1) (Nat.succ_le_succ hk) (Nat.succ_lt_succ hlen)⟩
      exact (congrArg (a :: ·) (ih htail)).trans
        (List.orderedInsert_of_not_le (fun a b => key b ≤ key a) l (not_le.mpr hlt)).symm

/-- Among the elements of its key the new one is the first, and the others are as before. -/
theorem filter_insertAt {key : α → κ} {l : List α} {x : α} {p : ℕ} (j : κ)
    (hp : Cut (fun k => (l[k]?).any fun a => key x < key a) l.length p) :
    (insertAt p x l).filter (fun a => key a = j) =
      (if key x = j then [x] else []) ++ l.filter fun a => key a = j := by
  have hsplit : l.filter (fun a => key a = j) =
      (l.take p).filter (fun a => key a = j) ++ (l.drop p).filter fun a => key a = j := by
    rw [← List.filter_append, List.take_append_drop]
  unfold insertAt
  rw [List.filter_append, List.filter_cons, hsplit]
  by_cases hx : key x = j
  · have htake : (l.take p).filter (fun a => key a = j) = [] := by
      refine List.filter_eq_nil_iff.mpr fun a ha => ?_
      obtain ⟨k, hk, rfl⟩ := List.getElem_of_mem ha
      rw [List.length_take] at hk
      have habove := hp.before k (by omega)
      rw [List.getElem?_eq_getElem (by omega)] at habove
      have hlt : key x < key l[k] := by simpa using habove
      rw [List.getElem_take, decide_eq_true_eq]
      exact (hx ▸ hlt).ne'
    rw [htake, if_pos (decide_eq_true hx), if_pos hx]
    rfl
  · rw [if_neg (by simpa using hx), if_neg hx, List.nil_append]

end Ordered

/-- The elements of an array from `p` on have moved up by one, and `x` is at `p`. -/
theorem insertAt_range {α : Type*} {a b : ℕ → α} {x : α} {n p : ℕ} (hp : p ≤ n)
    (hbefore : ∀ k < p, b k = a k) (hx : b p = x) (hafter : ∀ k, p < k → k ≤ n → b k = a (k - 1)) :
    (List.range (n + 1)).map b = insertAt p x ((List.range n).map a) := by
  have htake : ((List.range n).map a).take p = (List.range p).map b := by
    rw [← List.map_take, List.take_range, Nat.min_eq_left hp]
    exact List.map_congr_left fun k hk => (hbefore k (List.mem_range.mp hk)).symm
  have hdrop : ((List.range n).map a).drop p = (List.range' (p + 1) (n - p)).map b := by
    rw [← List.map_drop, List.range_eq_range', List.drop_range', Nat.zero_add, Nat.mul_one,
      List.range'_succ_left, List.map_map]
    refine List.map_congr_left fun k hk => ?_
    obtain ⟨hle, hlt⟩ := List.mem_range'_1.mp hk
    exact (hafter (k + 1) (by omega) (by omega)).symm
  have hrange : List.range (n + 1) = List.range p ++ p :: List.range' (p + 1) (n - p) := by
    have happend := @List.range'_append_1 0 p (n - p + 1)
    rw [Nat.zero_add] at happend
    rw [List.range_eq_range', List.range_eq_range', ← List.range'_succ, happend]
    congr 1
    omega
  unfold insertAt
  rw [htake, hdrop, hrange, List.map_append, List.map_cons, hx]

end Search
