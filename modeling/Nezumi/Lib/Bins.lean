import Nezumi.Lib.Slots
import Mathlib.Algebra.Order.BigOperators.Group.List
import Mathlib.Tactic.Linarith

/-!
# Stacking tables

A stacking table has a fixed number of slots; each is free or holds a quantity of one key. A
quantity of a key that stacks goes onto the first slot that holds the key, up to a limit, and
everything else goes into the first free slot. Nothing is ever split over two slots.

* `put` places one request, `putAll` a list of them in order; both fail when there is no room.
* `Fits` says when a whole list has room, without placing anything: the totals asked of each key
  stay within the limit of its stack, and the new stacks and loose requests do not outnumber the
  free slots.
* `put_value`: a placed request adds its quantity to what the table holds, and nothing else.
* `putAll_isSome_iff`: a list is placed exactly when it fits. The induction is over the list;
  `fits_cons` says what one placed request does to `Fits`.
-/

namespace Bins

variable {n : ℕ} {κ : Type*} [DecidableEq κ]

/-- Each slot is free or holds a quantity of a key. -/
abbrev Table (n : ℕ) (κ : Type*) := Fin n → Option (κ × ℤ)

/-- The rule of a table: which keys stack, how far a stack may grow, and the bound every freshly
filled slot stays below. -/
structure Rule (κ : Type*) where
  stackable : κ → Bool
  limit : ℤ
  width : ℤ
  limit_lt : limit < width

/-- The content of a slot is a quantity of `k`. -/
def holds (k : κ) (c : Option (κ × ℤ)) : Bool := c.any fun x => x.1 == k

/-- The quantity in a slot. -/
def qty (c : Option (κ × ℤ)) : ℤ := c.elim 0 Prod.snd

/-- The slot a request for `k` is stacked onto, if any. -/
def stackOf (R : Rule κ) (t : Table n κ) (k : κ) : Option (Fin n) :=
  if R.stackable k then Slots.first (holds k) t else none

/-- Place a quantity `q` of `k`. -/
def put (R : Rule κ) (t : Table n κ) (k : κ) (q : ℤ) : Option (Table n κ) :=
  match stackOf R t k with
  | some i =>
    if qty (t i) + q ≤ R.limit then some (Function.update t i (some (k, qty (t i) + q))) else none
  | none =>
    if q < R.width then
      (Slots.first Option.isNone t).map fun i => Function.update t i (some (k, q))
    else none

/-- Place a list of requests, in order. -/
def putAll (R : Rule κ) : Table n κ → List (κ × ℤ) → Option (Table n κ)
  | t, [] => some t
  | t, r :: rs => (put R t r.1 r.2).bind fun t' => putAll R t' rs

/-- The total asked of a key. -/
def asked (rs : List (κ × ℤ)) (k : κ) : ℤ := ((rs.filter fun r => r.1 = k).map Prod.snd).sum

/-- The stacking keys that are asked for and have no stack yet. -/
def newKeys (R : Rule κ) (t : Table n κ) (rs : List (κ × ℤ)) : Finset κ :=
  (rs.map Prod.fst).toFinset.filter fun k => R.stackable k = true ∧ stackOf R t k = none

/-- The number of requests that need a slot of their own. -/
def loose (R : Rule κ) (rs : List (κ × ℤ)) : ℕ := (rs.filter fun r => R.stackable r.1 = false).length

/-- What the table holds, each unit of a key counted as `f` of the key. -/
def value {M : Type*} [AddCommGroup M] (f : κ → M) (t : Table n κ) : M :=
  Slots.total (fun c => c.elim 0 fun x => x.2 • f x.1) t

/-- A list of requests has room in a table. -/
structure Fits (R : Rule κ) (t : Table n κ) (rs : List (κ × ℤ)) : Prop where
  /-- A stack that is there can take all that is asked of its key. -/
  topUp : ∀ k ∈ rs.map Prod.fst, ∀ i, stackOf R t k = some i → qty (t i) + asked rs k ≤ R.limit
  /-- A new stack can: a stack of one request is bounded by the width only. -/
  fresh : ∀ k ∈ rs.map Prod.fst, R.stackable k = true → stackOf R t k = none →
    asked rs k ≤ R.limit ∨ ∃ q < R.width, rs.filter (fun r => r.1 = k) = [(k, q)]
  /-- What does not stack is below the width. -/
  width : ∀ r ∈ rs, R.stackable r.1 = false → r.2 < R.width
  /-- There are free slots for the new stacks and the loose requests. -/
  slots : (newKeys R t rs).card + loose R rs ≤ Slots.card Option.isNone t

section Lemmas

variable {R : Rule κ} {t t' : Table n κ} {k k' : κ} {q : ℤ} {i : Fin n} {rs : List (κ × ℤ)}

@[simp] theorem holds_some {x : κ × ℤ} : holds k (some x) = (x.1 == k) := rfl

@[simp] theorem holds_none : holds k none = false := rfl

omit [DecidableEq κ] in
@[simp] theorem qty_some {x : κ × ℤ} : qty (some x) = x.2 := rfl

theorem stackOf_of_not_stackable (h : R.stackable k = false) : stackOf R t k = none := by
  simp [stackOf, h]

theorem stackOf_some (h : stackOf R t k = some i) : R.stackable k = true ∧ holds k (t i) = true := by
  unfold stackOf at h
  split at h
  · exact ⟨‹_›, Slots.first_some h⟩
  · cases h

/-- A slot holds at most one key. -/
theorem holds_inj (h : holds k (t i) = true) (h' : holds k' (t i) = true) : k = k' := by
  cases hc : t i with
  | none => simp [hc] at h
  | some x =>
    simp only [hc, holds_some, beq_iff_eq] at h h'
    exact h.symm.trans h'

theorem asked_cons (r : κ × ℤ) : asked (r :: rs) k = (if r.1 = k then r.2 else 0) + asked rs k := by
  unfold asked
  by_cases h : r.1 = k <;> simp [h]

theorem asked_nonneg (hpos : ∀ r ∈ rs, 0 < r.2) : 0 ≤ asked rs k := by
  unfold asked
  apply List.sum_nonneg
  intro x hx
  simp only [List.mem_map, List.mem_filter] at hx
  obtain ⟨r, ⟨hr, -⟩, rfl⟩ := hx
  exact (hpos r hr).le

theorem asked_eq_zero (h : k ∉ rs.map Prod.fst) : asked rs k = 0 := by
  unfold asked
  rw [List.filter_eq_nil_iff.mpr]
  · rfl
  · intro r hr hk
    exact h (List.mem_map.mpr ⟨r, hr, by simpa using hk⟩)

theorem filter_eq_nil (h : k ∉ rs.map Prod.fst) : rs.filter (fun r => r.1 = k) = [] := by
  rw [List.filter_eq_nil_iff]
  intro r hr hk
  exact h (List.mem_map.mpr ⟨r, hr, by simpa using hk⟩)

omit [DecidableEq κ] in
theorem loose_cons (r : κ × ℤ) :
    loose R (r :: rs) = (if R.stackable r.1 = false then 1 else 0) + loose R rs := by
  unfold loose
  by_cases h : R.stackable r.1 = false <;> simp [h, Nat.add_comm]

/-! ## What placing one request does to the table -/

/-- Onto a stack: every key keeps its stack. -/
theorem stackOf_topUp (h : stackOf R t k = some i) :
    stackOf R (Function.update t i (some (k, q))) k' = stackOf R t k' := by
  unfold stackOf
  split
  · apply Slots.first_update_of_eq
    have hk := (stackOf_some h).2
    cases hc : t i with
    | none => simp [hc] at hk
    | some x =>
      simp only [hc, holds_some, beq_iff_eq] at hk
      simp [hk]
  · rfl

/-- Into a free slot: every other key keeps its stack. -/
theorem stackOf_fill (hfree : t i = none) (hne : k' ≠ k) :
    stackOf R (Function.update t i (some (k, q))) k' = stackOf R t k' := by
  unfold stackOf
  split
  · apply Slots.first_update_of_eq
    simp [hfree, hne.symm]
  · rfl

/-- Into a free slot: a key without a stack now has one there. -/
theorem stackOf_fill_self (hs : R.stackable k = true) (hnone : stackOf R t k = none) :
    stackOf R (Function.update t i (some (k, q))) k = some i := by
  unfold stackOf at hnone ⊢
  rw [if_pos hs] at hnone ⊢
  exact Slots.first_update_fresh hnone (by simp)

omit [DecidableEq κ] in
theorem first_free (h : Slots.first Option.isNone t = some i) : t i = none := by
  simpa using Slots.first_some h

omit [DecidableEq κ] in
theorem free_fill (hfree : t i = none) :
    Slots.card Option.isNone t =
      Slots.card Option.isNone (Function.update t i (some (k, q))) + 1 := by
  have h := Slots.card_update Option.isNone t i (some (k, q))
  simp [hfree] at h
  omega

theorem free_topUp (h : stackOf R t k = some i) :
    Slots.card Option.isNone (Function.update t i (some (k, q))) =
      Slots.card Option.isNone t := by
  have hc := Slots.card_update Option.isNone t i (some (k, q))
  have hk := (stackOf_some h).2
  cases hti : t i with
  | none => simp [hti] at hk
  | some x =>
    simp [hti] at hc
    omega

/-- A placed request is a write of one slot, onto the key's stack or into a free slot. -/
theorem put_cases (h : put R t k q = some t') :
    (∃ i, stackOf R t k = some i ∧ qty (t i) + q ≤ R.limit ∧
      t' = Function.update t i (some (k, qty (t i) + q))) ∨
    (∃ i, stackOf R t k = none ∧ q < R.width ∧ Slots.first Option.isNone t = some i ∧
      t' = Function.update t i (some (k, q))) := by
  unfold put at h
  cases hk : stackOf R t k with
  | some i =>
    simp only [hk, Option.ite_none_right_eq_some, Option.some.injEq] at h
    exact .inl ⟨i, rfl, h.1, h.2.symm⟩
  | none =>
    simp only [hk, Option.ite_none_right_eq_some, Option.map_eq_some_iff] at h
    obtain ⟨hq, i, hi, rfl⟩ := h
    exact .inr ⟨i, rfl, hq, hi, rfl⟩

theorem put_topUp (hk : stackOf R t k = some i) (hle : qty (t i) + q ≤ R.limit) :
    put R t k q = some (Function.update t i (some (k, qty (t i) + q))) := by
  unfold put
  simp [hk, hle]

theorem put_fill (hk : stackOf R t k = none) (hq : q < R.width)
    (hi : Slots.first Option.isNone t = some i) :
    put R t k q = some (Function.update t i (some (k, q))) := by
  unfold put
  simp [hk, hq, hi]

/-- A placed request adds exactly what it asks. -/
theorem put_value {M : Type*} [AddCommGroup M] (f : κ → M) (h : put R t k q = some t') :
    value f t' = value f t + q • f k := by
  obtain ⟨i, hk, -, rfl⟩ | ⟨i, -, -, hi, rfl⟩ := put_cases h
  · have hh := (stackOf_some hk).2
    cases hti : t i with
    | none => simp [hti] at hh
    | some x =>
      simp only [hti, holds_some, beq_iff_eq] at hh
      subst hh
      unfold value
      rw [Slots.total_update, hti]
      simp only [Option.elim_some, qty_some, add_zsmul]
      abel
  · unfold value
    rw [Slots.total_update, first_free hi]
    simp

/-! ## One request and `Fits` -/

theorem newKeys_topUp (h : stackOf R t k = some i) :
    newKeys R (Function.update t i (some (k, q))) rs = newKeys R t ((k, q') :: rs) := by
  ext x
  simp only [newKeys, Finset.mem_filter, List.mem_toFinset, List.map_cons, List.mem_cons,
    stackOf_topUp h]
  constructor
  · rintro ⟨hx, hr⟩
    exact ⟨.inr hx, hr⟩
  · rintro ⟨rfl | hx, hr⟩
    · rw [h] at hr; cases hr.2
    · exact ⟨hx, hr⟩

/-- A stacking key without a stack is new, and no longer once it is placed. -/
theorem newKeys_fill (hfree : t i = none) (hs : R.stackable k = true) (hnone : stackOf R t k = none) :
    (newKeys R t ((k, q') :: rs)).card =
      (newKeys R (Function.update t i (some (k, q))) rs).card + 1 := by
  have hins : newKeys R t ((k, q') :: rs) =
      insert k (newKeys R (Function.update t i (some (k, q))) rs) := by
    ext x
    simp only [newKeys, Finset.mem_filter, Finset.mem_insert, List.mem_toFinset, List.map_cons,
      List.mem_cons]
    rcases eq_or_ne x k with rfl | hx
    · simp [hs, hnone]
    · simp [hx, stackOf_fill hfree hx]
  rw [hins, Finset.card_insert_of_notMem]
  intro hk
  simp only [newKeys, Finset.mem_filter, stackOf_fill_self hs hnone] at hk
  cases hk.2.2

/-- A key that does not stack leaves the new keys as they are. -/
theorem newKeys_loose (hfree : t i = none) (hs : R.stackable k = false) :
    newKeys R t ((k, q') :: rs) = newKeys R (Function.update t i (some (k, q))) rs := by
  ext x
  simp only [newKeys, Finset.mem_filter, List.mem_toFinset, List.map_cons, List.mem_cons]
  rcases eq_or_ne x k with rfl | hx
  · simp [hs]
  · simp [hx, stackOf_fill hfree hx]

/-- A request that is stacked: the rest must fit after it. -/
theorem fits_cons_topUp (hpos : ∀ r ∈ rs, 0 < r.2) (h : stackOf R t k = some i) :
    Fits R t ((k, q) :: rs) ↔ qty (t i) + q ≤ R.limit ∧
      Fits R (Function.update t i (some (k, qty (t i) + q))) rs := by
  have hs := (stackOf_some h).1
  have hask := asked_nonneg (k := k) hpos
  constructor
  · intro hf
    have hk := hf.topUp k (by simp) i h
    rw [asked_cons, if_pos rfl] at hk
    refine ⟨by linarith, ⟨fun k' hk' j hj => ?_, fun k' hk' hs' hn => ?_, fun r hr => ?_, ?_⟩⟩
    · rw [stackOf_topUp h] at hj
      rcases eq_or_ne j i with rfl | hji
      · obtain rfl := holds_inj (stackOf_some hj).2 (stackOf_some h).2
        simp only [Function.update_self, qty_some]
        linarith
      · have hne : k ≠ k' := by rintro rfl; rw [h] at hj; exact hji (Option.some.inj hj).symm
        have := hf.topUp k' (by simp [hk']) j hj
        rw [asked_cons, if_neg hne] at this
        rw [Function.update_of_ne hji]
        linarith
    · rw [stackOf_topUp h] at hn
      have hne : k ≠ k' := by rintro rfl; rw [h] at hn; cases hn
      have := hf.fresh k' (by simp [hk']) hs' hn
      rwa [asked_cons, if_neg hne, zero_add, List.filter_cons_of_neg (by simpa using hne)] at this
    · exact hf.width r (by simp [hr])
    · have := hf.slots
      rw [← newKeys_topUp (q := qty (t i) + q) h, loose_cons, if_neg (by simp [hs])] at this
      rw [free_topUp h]
      omega
  · rintro ⟨hle, hf⟩
    refine ⟨fun k' hk' j hj => ?_, fun k' hk' hs' hn => ?_, fun r hr hr' => ?_, ?_⟩
    · have hj' := hj
      rw [← stackOf_topUp (q := qty (t i) + q) h] at hj'
      rcases eq_or_ne k k' with rfl | hne
      · rw [h] at hj
        obtain rfl := Option.some.inj hj
        rw [asked_cons, if_pos rfl]
        by_cases hmem : k ∈ rs.map Prod.fst
        · have := hf.topUp k hmem i hj'
          simp only [Function.update_self, qty_some] at this
          linarith
        · rw [asked_eq_zero hmem]
          linarith
      · have hji : j ≠ i := by
          rintro rfl; exact hne (holds_inj (stackOf_some h).2 (stackOf_some hj).2)
        have := hf.topUp k' (by simpa [hne.symm] using hk') j hj'
        rw [Function.update_of_ne hji] at this
        rw [asked_cons, if_neg hne]
        linarith
    · have hne : k ≠ k' := by rintro rfl; rw [h] at hn; cases hn
      rw [asked_cons, if_neg hne, zero_add, List.filter_cons_of_neg (by simpa using hne)]
      exact hf.fresh k' (by simpa [hne.symm] using hk') hs' (by rwa [stackOf_topUp h])
    · rcases List.mem_cons.mp hr with rfl | hr
      · rw [hs] at hr'; cases hr'
      · exact hf.width r hr hr'
    · have := hf.slots
      rw [free_topUp h] at this
      rw [← newKeys_topUp (q := qty (t i) + q) h, loose_cons, if_neg (by simp [hs])]
      omega

/-- A request that opens a new stack: the rest must fit after it. -/
theorem fits_cons_fill (hpos : ∀ r ∈ rs, 0 < r.2) (hs : R.stackable k = true)
    (hnone : stackOf R t k = none) (hfree : t i = none) :
    Fits R t ((k, q) :: rs) ↔ q < R.width ∧
      Fits R (Function.update t i (some (k, q))) rs := by
  have hask := asked_nonneg (k := k) hpos
  have hlt := R.limit_lt
  have hself := stackOf_fill_self (i := i) (q := q) hs hnone
  constructor
  · intro hf
    have hk := hf.fresh k (by simp) hs hnone
    rw [asked_cons, if_pos rfl, List.filter_cons_of_pos (by simp)] at hk
    have hq : q < R.width := by
      rcases hk with hk | ⟨q', hq', he⟩
      · simp only at hk; linarith
      · obtain rfl : q = q' := by simpa using (List.cons.inj he).1
        exact hq'
    refine ⟨hq, ⟨fun k' hk' j hj => ?_, fun k' hk' hs' hn => ?_, fun r hr => ?_, ?_⟩⟩
    · rcases eq_or_ne k' k with rfl | hne
      · rw [hself] at hj
        obtain rfl := Option.some.inj hj
        simp only [Function.update_self, qty_some]
        rcases hk with hk | ⟨q', -, he⟩
        · exact hk
        · -- A stack of one request: nothing more is asked of the key.
          obtain ⟨r, hr, rfl⟩ := List.mem_map.mp hk'
          have : r ∈ rs.filter fun r' => r'.1 = r.1 := List.mem_filter.mpr ⟨hr, by simp⟩
          rw [(List.cons.inj he).2] at this
          cases this
      · rw [stackOf_fill hfree hne] at hj
        have hji : j ≠ i := by
          rintro rfl; have := (stackOf_some hj).2; simp [hfree] at this
        have := hf.topUp k' (by simp [hk']) j hj
        rw [asked_cons, if_neg hne.symm] at this
        rw [Function.update_of_ne hji]
        linarith
    · have hne : k' ≠ k := by rintro rfl; rw [hself] at hn; cases hn
      rw [stackOf_fill hfree hne] at hn
      have := hf.fresh k' (by simp [hk']) hs' hn
      rwa [asked_cons, if_neg hne.symm, zero_add,
        List.filter_cons_of_neg (by simpa using hne.symm)] at this
    · exact hf.width r (by simp [hr])
    · have := hf.slots
      rw [newKeys_fill (q := q) hfree hs hnone, loose_cons, if_neg (by simp [hs]),
        free_fill (k := k) (q := q) hfree] at this
      omega
  · rintro ⟨hq, hf⟩
    refine ⟨fun k' hk' j hj => ?_, fun k' hk' hs' hn => ?_, fun r hr hr' => ?_, ?_⟩
    · have hne : k' ≠ k := by rintro rfl; rw [hnone] at hj; cases hj
      have hji : j ≠ i := by
        rintro rfl; have := (stackOf_some hj).2; simp [hfree] at this
      have := hf.topUp k' (by simpa [hne] using hk') j (by rwa [stackOf_fill hfree hne])
      rw [Function.update_of_ne hji] at this
      rw [asked_cons, if_neg hne.symm]
      linarith
    · rcases eq_or_ne k' k with rfl | hne
      · rw [asked_cons, if_pos rfl, List.filter_cons_of_pos (by simp)]
        by_cases hmem : k' ∈ rs.map Prod.fst
        · left
          have := hf.topUp k' hmem i hself
          simpa using this
        · right
          exact ⟨q, hq, by rw [filter_eq_nil hmem]⟩
      · rw [asked_cons, if_neg hne.symm, zero_add,
          List.filter_cons_of_neg (by simpa using hne.symm)]
        exact hf.fresh k' (by simpa [hne] using hk') hs' (by rwa [stackOf_fill hfree hne])
    · rcases List.mem_cons.mp hr with rfl | hr
      · rw [hs] at hr'; cases hr'
      · exact hf.width r hr hr'
    · have := hf.slots
      rw [newKeys_fill (q := q) hfree hs hnone, loose_cons, if_neg (by simp [hs]),
        free_fill (k := k) (q := q) hfree]
      omega

/-- A request that does not stack: the rest must fit after it. -/
theorem fits_cons_loose (hs : R.stackable k = false) (hfree : t i = none) :
    Fits R t ((k, q) :: rs) ↔ q < R.width ∧
      Fits R (Function.update t i (some (k, q))) rs := by
  have hne : ∀ {k'}, R.stackable k' = true → k' ≠ k := by rintro _ h rfl; rw [hs] at h; cases h
  have hold : ∀ {k'}, R.stackable k' = true →
      stackOf R (Function.update t i (some (k, q))) k' = stackOf R t k' :=
    fun h => stackOf_fill hfree (hne h)
  constructor
  · intro hf
    refine ⟨hf.width (k, q) (by simp) hs,
      ⟨fun k' hk' j hj => ?_, fun k' hk' hs' hn => ?_, fun r hr => ?_, ?_⟩⟩
    · have hs' := (stackOf_some hj).1
      rw [hold hs'] at hj
      have hji : j ≠ i := by
        rintro rfl; have := (stackOf_some hj).2; simp [hfree] at this
      have := hf.topUp k' (by simp [hk']) j hj
      rw [asked_cons, if_neg (hne hs').symm] at this
      rw [Function.update_of_ne hji]
      linarith
    · rw [hold hs'] at hn
      have := hf.fresh k' (by simp [hk']) hs' hn
      rwa [asked_cons, if_neg (hne hs').symm, zero_add,
        List.filter_cons_of_neg (by simpa using (hne hs').symm)] at this
    · exact hf.width r (by simp [hr])
    · have := hf.slots
      rw [newKeys_loose (q := q) hfree hs, loose_cons, if_pos hs,
        free_fill (k := k) (q := q) hfree] at this
      omega
  · rintro ⟨hq, hf⟩
    refine ⟨fun k' hk' j hj => ?_, fun k' hk' hs' hn => ?_, fun r hr hr' => ?_, ?_⟩
    · have hs' := (stackOf_some hj).1
      have hji : j ≠ i := by
        rintro rfl; have := (stackOf_some hj).2; simp [hfree] at this
      have := hf.topUp k' (by simpa [hne hs'] using hk') j (by rwa [hold hs'])
      rw [Function.update_of_ne hji] at this
      rw [asked_cons, if_neg (hne hs').symm]
      linarith
    · rw [asked_cons, if_neg (hne hs').symm, zero_add,
        List.filter_cons_of_neg (by simpa using (hne hs').symm)]
      exact hf.fresh k' (by simpa [hne hs'] using hk') hs' (by rwa [hold hs'])
    · rcases List.mem_cons.mp hr with rfl | hr
      · exact hq
      · exact hf.width r hr hr'
    · have := hf.slots
      rw [newKeys_loose (q := q) hfree hs, loose_cons, if_pos hs,
        free_fill (k := k) (q := q) hfree]
      omega

/-- A list that fits and needs a slot has a free one. -/
theorem exists_free (hf : Fits R t ((k, q) :: rs)) (hnone : stackOf R t k = none) :
    Slots.first Option.isNone t ≠ none := by
  intro hfull
  rw [Slots.first_eq_none_iff] at hfull
  have hzero : Slots.card Option.isNone t = 0 := by
    by_contra h
    obtain ⟨j, hj⟩ := Slots.card_pos_iff.mp (Nat.pos_of_ne_zero h)
    rw [hfull j] at hj
    cases hj
  have hsl := hf.slots
  rw [hzero, loose_cons] at hsl
  cases hs : R.stackable k with
  | false => simp [hs] at hsl
  | true =>
    have : k ∈ newKeys R t ((k, q) :: rs) := by simp [newKeys, hs, hnone]
    have := Finset.card_pos.mpr ⟨k, this⟩
    omega

/-- **One request.** A list fits exactly when its first request is placed and the rest fits after
it. -/
theorem fits_cons (hpos : ∀ r ∈ rs, 0 < r.2) :
    Fits R t ((k, q) :: rs) ↔ ∃ t', put R t k q = some t' ∧ Fits R t' rs := by
  unfold put
  cases hk : stackOf R t k with
  | some i => simp [fits_cons_topUp hpos hk]
  | none =>
    cases hfr : Slots.first Option.isNone t with
    | none =>
      simp only [Option.map_none, ite_self, reduceCtorEq, false_and, exists_false, iff_false]
      exact fun hf => exists_free hf hk hfr
    | some i =>
      have hfree := first_free hfr
      cases hs : R.stackable k with
      | true => simp [fits_cons_fill hpos hs hk hfree]
      | false => simp [fits_cons_loose hs hfree]

theorem fits_nil : Fits R t [] := by
  refine ⟨by simp, by simp, by simp, ?_⟩
  simp [newKeys, loose]

/-- **A list of requests is placed exactly when it fits.** -/
theorem putAll_isSome_iff (hpos : ∀ r ∈ rs, 0 < r.2) :
    (putAll R t rs).isSome ↔ Fits R t rs := by
  induction rs generalizing t with
  | nil => simp [putAll, fits_nil]
  | cons r rs ih =>
    have hpos' : ∀ r ∈ rs, 0 < r.2 := fun r hr => hpos r (by simp [hr])
    rw [show r = (r.1, r.2) from rfl, fits_cons hpos', putAll]
    constructor
    · intro h
      obtain ⟨t'', ht''⟩ := Option.isSome_iff_exists.mp h
      obtain ⟨t', hput, hall⟩ := Option.bind_eq_some_iff.mp ht''
      exact ⟨t', hput, (ih hpos').mp (by rw [hall]; rfl)⟩
    · rintro ⟨t', hput, hf⟩
      rw [hput, Option.bind_some]
      exact (ih hpos').mpr hf

end Lemmas

end Bins
