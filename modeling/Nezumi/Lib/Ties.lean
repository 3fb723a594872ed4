import Nezumi.Lib.Slots

/-!
# Ties in a slot table

A slot of a table holds a tie: the key of another party and the kind of the tie. A slot with the
free key is free.

* `Lists`: a table has a tie of a kind with a key. `Once`: it has no two ties with one key.
* `put`: a tie is stored in the first free slot. `lists_put`, `once_put` and `count_put` say what
  there is afterwards.
* `clear`: the first tie of a kind with a key is freed. `lists_clear`, `once_clear` and
  `count_clear` say what is left.
* `exists_free`: a table of two kinds of ties is not full while they are fewer than its slots.
-/

namespace Ties

variable {n : ℕ} {α κ ι : Type*} [DecidableEq κ] [DecidableEq ι] (key : α → κ) (kind : α → ι)
  (free : κ)

/-- There is a tie of the kind `i` with `k`. -/
def Lists (t : Fin n → α) (k : κ) (i : ι) : Prop := ∃ j, key (t j) = k ∧ kind (t j) = i

instance (t : Fin n → α) (k : κ) (i : ι) : Decidable (Lists key kind t k i) :=
  inferInstanceAs (Decidable (∃ _, _))

/-- No two ties are with one party. -/
def Once (t : Fin n → α) : Prop := ∀ i j, key (t i) ≠ free → key (t i) = key (t j) → i = j

instance (t : Fin n → α) : Decidable (Once key free t) :=
  inferInstanceAs (Decidable (∀ _ _, _ → _ → _))

/-- A slot that holds a tie of a kind. -/
def isTie (i : ι) (a : α) : Bool := key a ≠ free ∧ kind a = i

/-- The number of ties of a kind. -/
def count (t : Fin n → α) (i : ι) : ℕ := Slots.card (isTie key kind free i) t

/-- A tie is stored in the first free slot, if there is one. -/
def put (t : Fin n → α) (v : α) : Fin n → α :=
  match Slots.first (fun a => key a = free) t with
  | none => t
  | some j => Function.update t j v

/-- The first tie of a kind with a party is freed. -/
def clear (release : α → α) (t : Fin n → α) (k : κ) (i : ι) : Fin n → α :=
  match Slots.first (fun a => key a = k ∧ kind a = i) t with
  | none => t
  | some j => Function.update t j (release (t j))

variable {key kind free} {t : Fin n → α} {v : α} {k k' : κ} {i i' : ι} {release : α → α}

/-- A table with a free slot, of which the first one is taken. -/
theorem put_eq (hfree : ∃ j, key (t j) = free) :
    ∃ j, key (t j) = free ∧ put key free t v = Function.update t j v := by
  obtain ⟨j, hj⟩ := hfree
  cases h : Slots.first (fun a => key a = free) t with
  | none => exact absurd hj (by simpa using Slots.first_eq_none_iff.mp h j)
  | some j' =>
    refine ⟨j', by simpa using Slots.first_some h, ?_⟩
    unfold put
    rw [h]

omit [DecidableEq ι] in
/-- **What a table has** when a tie has been stored. -/
theorem lists_put (hfree : ∃ j, key (t j) = free) (hk : k ≠ free) :
    Lists key kind (put key free t v) k i ↔ Lists key kind t k i ∨ key v = k ∧ kind v = i := by
  obtain ⟨j, hj, heq⟩ := put_eq (v := v) hfree
  rw [heq]
  constructor
  · rintro ⟨l, hkey, hkind⟩
    rcases eq_or_ne l j with rfl | hl
    · rw [Function.update_self] at hkey hkind
      exact .inr ⟨hkey, hkind⟩
    · rw [Function.update_of_ne hl] at hkey hkind
      exact .inl ⟨l, hkey, hkind⟩
  · rintro (⟨l, hkey, hkind⟩ | ⟨hkey, hkind⟩)
    · have hl : l ≠ j := by
        rintro rfl
        exact hk (hkey.symm.trans hj)
      exact ⟨l, by rw [Function.update_of_ne hl]; exact ⟨hkey, hkind⟩⟩
    · exact ⟨j, by rw [Function.update_self]; exact ⟨hkey, hkind⟩⟩

/-- **A tie that is stored is the only one** with its party just if there was none. -/
theorem once_put (hfree : ∃ j, key (t j) = free) (hv : key v ≠ free) :
    Once key free (put key free t v) ↔ Once key free t ∧ ∀ j, key (t j) ≠ key v := by
  obtain ⟨j, hj, heq⟩ := put_eq (v := v) hfree
  rw [heq]
  constructor
  · intro h
    refine ⟨fun a b ha hab => ?_, fun a ha => ?_⟩
    · have haj : a ≠ j := by
        rintro rfl
        exact ha hj
      have hbj : b ≠ j := by
        rintro rfl
        exact ha (hab.trans hj)
      have hab' := h a b
      rw [Function.update_of_ne haj, Function.update_of_ne hbj] at hab'
      exact hab' ha hab
    · have haj : a ≠ j := by
        rintro rfl
        exact hv (ha.symm.trans hj)
      have haj' := h a j
      rw [Function.update_of_ne haj, Function.update_self] at haj'
      exact haj (haj' (fun h0 => hv (ha.symm.trans h0)) ha)
  · rintro ⟨honce, hnew⟩ a b ha hab
    by_cases haj : a = j <;> by_cases hbj : b = j
    · rw [haj, hbj]
    · rw [haj, Function.update_self, Function.update_of_ne hbj] at hab
      exact absurd hab.symm (hnew b)
    · rw [hbj, Function.update_of_ne haj, Function.update_self] at hab
      exact absurd hab (hnew a)
    · rw [Function.update_of_ne haj] at ha hab
      rw [Function.update_of_ne hbj] at hab
      exact honce a b ha hab

theorem isTie_iff {a : α} : isTie key kind free i a = true ↔ key a ≠ free ∧ kind a = i := by
  simp [isTie]

theorem isTie_free {a : α} (h : key a = free) : isTie key kind free i a = false := by
  simp [isTie, h]

theorem count_update (key : α → κ) (kind : α → ι) (free : κ) (t : Fin n → α) (j : Fin n) (v : α)
    (i : ι) :
    (count key kind free (Function.update t j v) i : ℤ) = count key kind free t i -
      (if isTie key kind free i (t j) = true then 1 else 0) +
        if isTie key kind free i v = true then 1 else 0 := Slots.card_update _ t j v

theorem count_put (hfree : ∃ j, key (t j) = free) (hv : key v ≠ free) :
    count key kind free (put key free t v) i =
      count key kind free t i + if kind v = i then 1 else 0 := by
  obtain ⟨j, hj, heq⟩ := put_eq (v := v) hfree
  have hcard := count_update key kind free t j v i
  have htie : isTie key kind free i v = true ↔ kind v = i := by simp [isTie_iff, hv]
  rw [isTie_free hj] at hcard
  simp only [htie, Bool.false_eq_true, if_false] at hcard
  rw [heq]
  by_cases hk : kind v = i
  · rw [if_pos hk] at hcard ⊢
    omega
  · rw [if_neg hk] at hcard ⊢
    omega

/-- The first tie of a kind with a party, freed. -/
theorem clear_cases (key : α → κ) (kind : α → ι) (release : α → α) (t : Fin n → α) (k : κ) (i : ι) :
    (¬ Lists key kind t k i ∧ clear key kind release t k i = t) ∨
      ∃ j, key (t j) = k ∧ kind (t j) = i ∧
        clear key kind release t k i = Function.update t j (release (t j)) := by
  unfold clear
  cases h : Slots.first (fun a => key a = k ∧ kind a = i) t with
  | none =>
    refine .inl ⟨?_, rfl⟩
    rintro ⟨j, hkey, hkind⟩
    have hnone := Slots.first_eq_none_iff.mp h j
    simp [hkey, hkind] at hnone
  | some j =>
    have hj := Slots.first_some h
    simp only [decide_eq_true_eq] at hj
    exact .inr ⟨j, hj.1, hj.2, rfl⟩

/-- **What a table has** when a tie has been freed. -/
theorem lists_clear (hrelease : ∀ a, key (release a) = free) (honce : Once key free t)
    (hk : k ≠ free) (hk' : k' ≠ free) :
    Lists key kind (clear key kind release t k i) k' i' ↔
      Lists key kind t k' i' ∧ ¬ (k' = k ∧ i' = i) := by
  obtain ⟨hnone, heq⟩ | ⟨j, hkey, hkind, heq⟩ := clear_cases key kind release t k i
  · rw [heq]
    refine ⟨fun h => ⟨h, ?_⟩, And.left⟩
    rintro ⟨rfl, rfl⟩
    exact hnone h
  · rw [heq]
    constructor
    · rintro ⟨l, hl, hl'⟩
      rcases eq_or_ne l j with rfl | hlj
      · rw [Function.update_self, hrelease] at hl
        exact absurd hl.symm hk'
      · rw [Function.update_of_ne hlj] at hl hl'
        refine ⟨⟨l, hl, hl'⟩, ?_⟩
        rintro ⟨rfl, -⟩
        exact hlj (honce l j (by rw [hl]; exact hk') (by rw [hl, hkey]))
    · rintro ⟨⟨l, hl, hl'⟩, hne⟩
      have hlj : l ≠ j := by
        rintro rfl
        exact hne ⟨hl.symm.trans hkey, hl'.symm.trans hkind⟩
      exact ⟨l, by rw [Function.update_of_ne hlj]; exact ⟨hl, hl'⟩⟩

omit [DecidableEq κ] in
theorem once_update_free (h : Once key free t) (j : Fin n) (hv : key v = free) :
    Once key free (Function.update t j v) := by
  intro a b ha hab
  have haj : a ≠ j := by
    rintro rfl
    rw [Function.update_self] at ha
    exact ha hv
  rw [Function.update_of_ne haj] at ha hab
  have hbj : b ≠ j := by
    rintro rfl
    rw [Function.update_self, hv] at hab
    exact ha hab
  rw [Function.update_of_ne hbj] at hab
  exact h a b ha hab

theorem once_clear (hrelease : ∀ a, key (release a) = free) (h : Once key free t) :
    Once key free (clear key kind release t k i) := by
  obtain ⟨-, heq⟩ | ⟨j, -, -, heq⟩ := clear_cases key kind release t k i
  · rwa [heq]
  · rw [heq]
    exact once_update_free h j (hrelease _)

/-- Ties of another kind are not freed. -/
theorem count_clear (hrelease : ∀ a, key (release a) = free) :
    count key kind free (clear key kind release t k i) i' ≤ count key kind free t i' ∧
      (i' ≠ i →
        count key kind free (clear key kind release t k i) i' = count key kind free t i') := by
  obtain ⟨-, heq⟩ | ⟨j, -, hkind, heq⟩ := clear_cases key kind release t k i
  · rw [heq]
    exact ⟨le_rfl, fun _ => rfl⟩
  · have hcard := count_update key kind free t j (release (t j)) i'
    rw [isTie_free (hrelease _)] at hcard
    simp only [Bool.false_eq_true, if_false] at hcard
    rw [heq]
    refine ⟨?_, fun hne => ?_⟩
    · split at hcard <;> omega
    · have hother : ¬ isTie key kind free i' (t j) = true := fun h =>
        hne ((isTie_iff.mp h).2.symm.trans hkind)
      rw [if_neg hother] at hcard
      omega

/-- **A table is not full** while the ties of its two kinds are fewer than its slots. -/
theorem exists_free (hkind : ∀ j, key (t j) ≠ free → kind (t j) = i ∨ kind (t j) = i')
    (hcount : count key kind free t i + count key kind free t i' < n) : ∃ j, key (t j) = free := by
  by_contra hfull
  rw [not_exists] at hfull
  have hall : (Finset.univ : Finset (Fin n)) ⊆
      (Finset.univ.filter fun j => isTie key kind free i (t j) = true) ∪
        Finset.univ.filter fun j => isTie key kind free i' (t j) = true := by
    intro j _
    simp only [Finset.mem_union, Finset.mem_filter, Finset.mem_univ, true_and, isTie_iff]
    exact (hkind j (hfull j)).imp (fun h => ⟨hfull j, h⟩) fun h => ⟨hfull j, h⟩
  have hle := (Finset.card_le_card hall).trans (Finset.card_union_le _ _)
  rw [Finset.card_univ, Fintype.card_fin] at hle
  exact absurd hle (not_le.mpr hcount)

end Ties
