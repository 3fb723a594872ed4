import Mathlib.Data.List.Perm.Basic
import Mathlib.Data.List.Nodup
import Mathlib.Tactic.Tauto

/-!
# Removal from an unordered table

An entry is removed from a table by writing the last one over it.

* `swapRemove`: the removal of one entry, and `sweep`: of all that pass a test, in one pass that
  looks again at a place that it has written to.
* `swapRemove_perm`, `sweep_kept`, `sweep_removed`: up to the order, an entry is taken off, and the
  table is split by the test.
* `lookup`: the entry of a key, and `lookup_swapRemove`, `lookup_concat`, `lookup_set`,
  `lookup_sweep`: what becomes of it in a table whose keys are distinct.
-/

namespace Unordered

open List

variable {α : Type*}

/-- The last entry is written to place `i`, and the table gets shorter. -/
def swapRemove (l : List α) (i : Nat) : List α :=
  match l.getLast? with
  | some last => (l.set i last).dropLast
  | none => []

/-- The pass from place `i` on: what it leaves, and what it has removed, in order. -/
def sweepFrom (p : α → Bool) : Nat → List α → Nat → List α × List α
  | 0, l, _ => (l, [])
  | n + 1, l, i =>
    match l[i]? with
    | none => (l, [])
    | some a =>
      if p a then
        let r := sweepFrom p n (swapRemove l i) i
        (r.1, a :: r.2)
      else sweepFrom p n l (i + 1)

/-- The entries that pass a test are removed. -/
def sweep (p : α → Bool) (l : List α) : List α × List α := sweepFrom p l.length l 0

variable {p : α → Bool} {l : List α} {i : Nat} {a : α}

theorem swapRemove_concat (l : List α) (a : α) (i : Nat) :
    swapRemove (l ++ [a]) i = l.set i a := by
  unfold swapRemove
  rw [getLast?_concat]
  dsimp only
  rcases Nat.lt_or_ge i l.length with h | h
  · rw [set_append_left i a h, dropLast_concat]
  · rw [set_append_right i a h, set_eq_of_length_le h]
    rcases Nat.eq_or_lt_of_le h with heq | hlt
    · rw [heq, Nat.sub_self, set_cons_zero, dropLast_concat]
    · rw [set_eq_of_length_le (by rw [length_singleton]; omega), dropLast_concat]

/-- **A removal** takes one entry off. -/
theorem swapRemove_perm (h : l[i]? = some a) : (a :: swapRemove l i) ~ l := by
  rcases eq_nil_or_concat' l with rfl | ⟨l, b, rfl⟩
  · cases h
  rw [swapRemove_concat]
  rcases Nat.lt_or_ge i l.length with hlt | hge
  · rw [getElem?_append_left hlt] at h
    obtain ⟨hi, rfl⟩ := List.getElem?_eq_some_iff.mp h
    -- The entry before the last one is written over it.
    calc l[i] :: l.set i b ~ l[i] :: b :: l.eraseIdx i := (set_perm_cons_eraseIdx hi b).cons _
      _ ~ b :: l[i] :: l.eraseIdx i := .swap ..
      _ ~ b :: l := (getElem_cons_eraseIdx_perm hi).cons _
      _ ~ l ++ [b] := (perm_append_singleton b l).symm
  · obtain ⟨hi, -⟩ := List.getElem?_eq_some_iff.mp h
    rw [length_append, length_singleton] at hi
    obtain rfl : i = l.length := by omega
    rw [getElem?_concat_length] at h
    obtain rfl := Option.some.inj h
    rw [set_eq_of_length_le (Nat.le_refl _)]
    exact (perm_append_singleton _ l).symm

theorem length_swapRemove (h : l[i]? = some a) : (swapRemove l i).length + 1 = l.length := by
  rw [← (swapRemove_perm h).length_eq, length_cons]

/-- The places before the one that is removed stay. -/
theorem swapRemove_take (h : l[i]? = some a) : (swapRemove l i).take i = l.take i := by
  rcases eq_nil_or_concat' l with rfl | ⟨l, b, rfl⟩
  · cases h
  obtain ⟨hi, -⟩ := List.getElem?_eq_some_iff.mp h
  rw [length_append, length_singleton] at hi
  rw [swapRemove_concat, take_append_of_le_length (by omega), take_set_of_le (Nat.le_refl i)]

/-- Behind the place that is removed, one entry is missing. -/
theorem swapRemove_drop (h : l[i]? = some a) : (a :: (swapRemove l i).drop i) ~ l.drop i := by
  refine (perm_append_left_iff (l.take i)).mp (perm_middle.trans ?_)
  rw [take_append_drop, ← swapRemove_take h, take_append_drop]
  exact swapRemove_perm h

/-- **A pass** leaves what is before its place, and behind it what fails the test. -/
theorem sweepFrom_perm {n : Nat} (hn : l.length ≤ i + n) :
    (sweepFrom p n l i).1 ~ l.take i ++ (l.drop i).filter (fun a => !p a) ∧
      (sweepFrom p n l i).2 ~ (l.drop i).filter p := by
  induction n generalizing l i with
  | zero =>
    rw [drop_eq_nil_of_le (by omega), take_of_length_le (by omega)]
    simp [sweepFrom]
  | succ n ih =>
    unfold sweepFrom
    rcases h : l[i]? with _ | a
    · rw [getElem?_eq_none_iff] at h
      rw [drop_eq_nil_of_le h, take_of_length_le h]
      simp
    obtain ⟨hi, rfl⟩ := List.getElem?_eq_some_iff.mp h
    dsimp only
    split
    · rename_i hp
      have hlen := length_swapRemove h
      obtain ⟨hkept, hremoved⟩ := ih (l := swapRemove l i) (i := i) (by omega)
      have hdrop := swapRemove_drop h
      rw [swapRemove_take h] at hkept
      constructor
      · refine hkept.trans ((perm_append_left_iff _).mpr ?_)
        have hf := hdrop.filter fun a => !p a
        rwa [filter_cons_of_neg (by simp [hp])] at hf
      · refine (hremoved.cons _).trans ?_
        have hf := hdrop.filter p
        rwa [filter_cons_of_pos hp] at hf
    · rename_i hp
      obtain ⟨hkept, hremoved⟩ := ih (l := l) (i := i + 1) (by omega)
      rw [drop_eq_getElem_cons hi]
      constructor
      · rw [take_succ_eq_append_getElem hi, append_assoc] at hkept
        rw [filter_cons_of_pos (by simp [hp])]
        exact hkept
      · rw [filter_cons_of_neg hp]
        exact hremoved

/-- What fails the test is kept. -/
theorem sweep_kept (p : α → Bool) (l : List α) : (sweep p l).1 ~ l.filter fun a => !p a := by
  have h := (sweepFrom_perm (p := p) (l := l) (i := 0) (n := l.length) (by omega)).1
  rwa [take_zero, drop_zero, nil_append] at h

/-- What passes the test is removed. -/
theorem sweep_removed (p : α → Bool) (l : List α) : (sweep p l).2 ~ l.filter p := by
  have h := (sweepFrom_perm (p := p) (l := l) (i := 0) (n := l.length) (by omega)).2
  rwa [drop_zero] at h

/-! ## Tables with keys -/

section Keys

variable {κ : Type*} {key : α → κ} {l' : List α} {a' : α} {k : κ}

theorem nodup_keys_swapRemove (hkeys : (l.map key).Nodup) (h : l[i]? = some a) :
    ((a :: swapRemove l i).map key).Nodup :=
  ((swapRemove_perm h).map key).nodup_iff.mpr hkeys

theorem nodup_keys_sweep (hkeys : (l.map key).Nodup) : ((sweep p l).1.map key).Nodup :=
  (((sweep_kept p l).map key).nodup_iff).mpr (hkeys.sublist (filter_sublist.map key))

theorem map_set_keys (h : l[i]? = some a) (hkey : key a' = key a) :
    (l.set i a').map key = l.map key := by
  obtain ⟨hi, rfl⟩ := List.getElem?_eq_some_iff.mp h
  have hi' : i < (l.map key).length := by rwa [length_map]
  rw [map_set, hkey, ← getElem_map key (h := hi'), set_getElem_self]

variable [DecidableEq κ]

/-- The first entry with a key. -/
def lookup (key : α → κ) (l : List α) (k : κ) : Option α := l.find? fun a => key a = k

theorem lookup_eq_some_iff (hkeys : (l.map key).Nodup) :
    lookup key l k = some a ↔ a ∈ l ∧ key a = k := by
  unfold lookup
  constructor
  · exact fun h => ⟨mem_of_find?_eq_some h, by simpa using find?_some h⟩
  · rintro ⟨ha, rfl⟩
    rcases h : l.find? fun b => decide (key b = key a) with _ | b
    · exact absurd (find?_eq_none.mp h a ha) (by simp)
    · have hb : key b = key a := by simpa using find?_some h
      rw [inj_on_of_nodup_map hkeys (mem_of_find?_eq_some h) ha hb]

theorem lookup_eq_none_iff : lookup key l k = none ↔ ∀ a ∈ l, key a ≠ k := by
  unfold lookup
  rw [find?_eq_none]
  simp

/-- The order of a table with distinct keys does not matter. -/
theorem lookup_perm (hkeys : (l.map key).Nodup) (h : l ~ l') : lookup key l k = lookup key l' k := by
  ext a
  rw [lookup_eq_some_iff hkeys, lookup_eq_some_iff ((h.map key).nodup_iff.mp hkeys), h.mem_iff]

theorem lookup_cons : lookup key (a :: l) k = if key a = k then some a else lookup key l k := by
  unfold lookup
  rw [find?_cons]
  split <;> simp_all

/-- **A removal** takes one key off. -/
theorem lookup_swapRemove (hkeys : (l.map key).Nodup) (h : l[i]? = some a) :
    lookup key (swapRemove l i) k = if key a = k then none else lookup key l k := by
  have hnodup := nodup_keys_swapRemove hkeys h
  rw [← lookup_perm (k := k) hnodup (swapRemove_perm h), lookup_cons]
  split
  · rename_i hk
    rw [lookup_eq_none_iff]
    intro b hb hkb
    rw [map_cons, nodup_cons] at hnodup
    exact hnodup.1 (hk ▸ hkb ▸ mem_map_of_mem hb)
  · rfl

/-- An entry behind the others. -/
theorem lookup_concat (hnew : lookup key l (key a) = none) :
    lookup key (l ++ [a]) k = if key a = k then some a else lookup key l k := by
  unfold lookup at hnew ⊢
  rw [find?_append]
  split
  · rename_i hk
    subst hk
    rw [hnew]
    simp
  · rename_i hk
    simp [hk]

/-- An entry is written over. -/
theorem lookup_set (hkeys : (l.map key).Nodup) (h : l[i]? = some a) (hkey : key a' = key a) :
    lookup key (l.set i a') k = if key a = k then some a' else lookup key l k := by
  obtain ⟨hi, rfl⟩ := List.getElem?_eq_some_iff.mp h
  have hset := set_perm_cons_eraseIdx hi a'
  have hold := getElem_cons_eraseIdx_perm hi
  have hnodup : ((l[i] :: l.eraseIdx i).map key).Nodup := (hold.map key).nodup_iff.mpr hkeys
  have hnodup' : ((a' :: l.eraseIdx i).map key).Nodup := by
    rw [map_cons] at hnodup ⊢
    rwa [hkey]
  rw [lookup_perm ((hset.map key).nodup_iff.mpr hnodup') hset, lookup_cons, hkey,
    ← lookup_perm (k := k) hnodup hold, lookup_cons]
  split <;> rfl

/-- **A pass** takes off what passes the test. -/
theorem lookup_sweep (hkeys : (l.map key).Nodup) :
    lookup key (sweep p l).1 k = (lookup key l k).filter fun a => !p a := by
  have hperm := sweep_kept p l
  have hnodup : ((l.filter fun a => !p a).map key).Nodup :=
    hkeys.sublist ((filter_sublist).map key)
  rw [lookup_perm ((hperm.map key).nodup_iff.mpr hnodup) hperm]
  ext a
  rw [lookup_eq_some_iff hnodup, Option.filter_eq_some_iff, lookup_eq_some_iff hkeys, mem_filter]
  grind

end Keys

end Unordered
