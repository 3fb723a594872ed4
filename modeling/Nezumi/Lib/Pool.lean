import Mathlib.Algebra.BigOperators.Group.Finset.Basic
import Mathlib.Data.Set.Function
import Mathlib.Logic.Function.Basic

/-!
# Pools

A pool is an array that is filled from the front. An entry is removed by moving the last entry into
its place, so indexes change; the keys of the entries do not.

* `Designates key p i k`: index `i` holds the entry with key `k`. `designates_push`,
  `designates_swapRemove` and `designates_modify` say what an index designates afterwards.
* `Represents key p m`: the pool holds the values of the finite map `m`. `represents_push`,
  `represents_swapRemove` and `represents_modify` say that the operations on the pool are the
  insertion, the deletion and the update of the map; `represents_map` and `represents_ofList` are
  for all entries at once.
* `count p`: the number of entries that pass a test. `count_swapRemove` says that a removal lowers
  it by the removed entry.
-/

/-- The first `num` entries of an array. -/
structure Pool (α : Type*) where
  num : ℕ
  entry : ℕ → α

namespace Pool

variable {α κ : Type*}

/-- A new entry behind the others. -/
def push (p : Pool α) (a : α) : Pool α := ⟨p.num + 1, Function.update p.entry p.num a⟩

/-- The last entry is moved to index `i`. -/
def swapRemove (p : Pool α) (i : ℕ) : Pool α :=
  ⟨p.num - 1, Function.update p.entry i (p.entry (p.num - 1))⟩

/-- One entry is changed. -/
def modify (p : Pool α) (i : ℕ) (f : α → α) : Pool α :=
  ⟨p.num, Function.update p.entry i (f (p.entry i))⟩

/-- Two pools with the same entries. -/
structure Agree (p q : Pool α) : Prop where
  num : p.num = q.num
  entry : ∀ i < p.num, p.entry i = q.entry i

/-- The entry at index `i` has key `k`. -/
structure Designates (key : α → κ) (p : Pool α) (i : ℕ) (k : κ) : Prop where
  lt : i < p.num
  key : key (p.entry i) = k

/-- Different entries have different keys. -/
def Inj (key : α → κ) (p : Pool α) : Prop :=
  Set.InjOn (fun i => key (p.entry i)) {i | i < p.num}

/-- The pool holds the values of a finite map by key. -/
structure Represents (key : α → κ) (p : Pool α) (m : κ → Option α) : Prop where
  inj : Inj key p
  entry : ∀ i < p.num, m (key (p.entry i)) = some (p.entry i)
  index : ∀ k a, m k = some a → ∃ i, i < p.num ∧ p.entry i = a ∧ key a = k

variable {key : α → κ} {p q : Pool α} {m : κ → Option α} {i j : ℕ} {k : κ}

theorem Agree.symm (h : Agree p q) : Agree q p :=
  ⟨h.num.symm, fun i hi => (h.entry i (by rw [h.num]; exact hi)).symm⟩

theorem Designates.of_agree (h : Agree p q) (hd : Designates key p i k) : Designates key q i k :=
  ⟨by rw [← h.num]; exact hd.lt, by rw [← h.entry i hd.lt]; exact hd.key⟩

theorem Represents.of_agree (h : Agree p q) (hr : Represents key p m) : Represents key q m where
  inj := by
    intro i hi j hj hij
    have hi : i < p.num := by rw [h.num]; exact hi
    have hj : j < p.num := by rw [h.num]; exact hj
    refine hr.inj hi hj ?_
    simpa only [h.entry i hi, h.entry j hj] using hij
  entry i hi := by
    rw [← h.num] at hi
    rw [← h.entry i hi]
    exact hr.entry i hi
  index k a ha := by
    obtain ⟨i, hi, he, hk⟩ := hr.index k a ha
    exact ⟨i, by rw [← h.num]; exact hi, by rw [← h.entry i hi]; exact he, hk⟩

/-- Two indexes of one key are equal. -/
theorem Inj.eq (h : Inj key p) (hi : Designates key p i k) (hj : Designates key p j k) : i = j :=
  h hi.lt hj.lt (hi.key.trans hj.key.symm)

/-- What a map says of the key of an index. -/
theorem Represents.get (h : Represents key p m) (hd : Designates key p i k) :
    m k = some (p.entry i) := by
  rw [← hd.key]
  exact h.entry i hd.lt

/-! ## A new entry -/

theorem entry_push_of_lt {a : α} (hi : i < p.num) : (p.push a).entry i = p.entry i :=
  Function.update_of_ne hi.ne ..

theorem designates_push (a : α) (h : Designates key p i k) : Designates key (p.push a) i k :=
  ⟨Nat.lt_succ_of_lt h.lt, by rw [entry_push_of_lt h.lt]; exact h.key⟩

theorem designates_push_last (key : α → κ) (p : Pool α) (a : α) :
    Designates key (p.push a) p.num (key a) :=
  ⟨Nat.lt_succ_self _, by simp [push]⟩

/-- A push of a new key is an insertion. -/
theorem represents_push [DecidableEq κ] (h : Represents key p m) {a : α} (hfresh : m (key a) = none) :
    Represents key (p.push a) (Function.update m (key a) (some a)) := by
  have hne {i : ℕ} (hi : i < p.num) : key (p.entry i) ≠ key a := by
    intro heq
    have := h.entry i hi
    rw [heq, hfresh] at this
    cases this
  have hlast : (p.push a).entry p.num = a := by simp [push]
  refine ⟨?_, ?_, ?_⟩
  · intro i hi j hj hij
    simp only at hij
    rcases Nat.lt_succ_iff_lt_or_eq.mp hi with hi | rfl
    · rcases Nat.lt_succ_iff_lt_or_eq.mp hj with hj | rfl
      · rw [entry_push_of_lt hi, entry_push_of_lt hj] at hij
        exact h.inj hi hj hij
      · rw [entry_push_of_lt hi, hlast] at hij
        exact absurd hij (hne hi)
    · rcases Nat.lt_succ_iff_lt_or_eq.mp hj with hj | rfl
      · rw [entry_push_of_lt hj, hlast] at hij
        exact absurd hij.symm (hne hj)
      · rfl
  · intro i hi
    rcases Nat.lt_succ_iff_lt_or_eq.mp hi with hi | rfl
    · rw [entry_push_of_lt hi, Function.update_of_ne (hne hi)]
      exact h.entry i hi
    · rw [hlast, Function.update_self]
  · intro k b hb
    by_cases hk : k = key a
    · rw [hk, Function.update_self] at hb
      exact ⟨p.num, Nat.lt_succ_self _, by rw [hlast]; simpa using hb, by
        rw [hk]
        exact congrArg key (by simpa using hb.symm)⟩
    · rw [Function.update_of_ne hk] at hb
      obtain ⟨i, hi, he, hkey⟩ := h.index k b hb
      exact ⟨i, Nat.lt_succ_of_lt hi, by rw [entry_push_of_lt hi]; exact he, hkey⟩

/-! ## Removal -/

/-- Where the removal of index `i` moves index `j`. -/
def moved (p : Pool α) (i j : ℕ) : ℕ := if j = p.num - 1 then i else j

theorem moved_congr (h : p.num = q.num) (i j : ℕ) : p.moved i j = q.moved i j := by
  unfold moved
  rw [h]

theorem moved_last (p : Pool α) (i : ℕ) : p.moved i (p.num - 1) = i := if_pos rfl

theorem moved_of_ne (hj : j ≠ p.num - 1) (i : ℕ) : p.moved i j = j := if_neg hj

theorem moved_lt (hi : i < p.num) (hj : j < p.num) (hij : j ≠ i) :
    p.moved i j < (p.swapRemove i).num := by
  unfold moved swapRemove
  simp only
  split <;> omega

theorem entry_moved (hij : j ≠ i) : (p.swapRemove i).entry (p.moved i j) = p.entry j := by
  unfold moved swapRemove
  simp only
  split
  · rename_i hj
    rw [Function.update_self, hj]
  · rw [Function.update_of_ne hij]

theorem designates_swapRemove (hi : i < p.num) (hd : Designates key p j k) (hij : j ≠ i) :
    Designates key (p.swapRemove i) (p.moved i j) k :=
  ⟨moved_lt hi hd.lt hij, by rw [entry_moved hij]; exact hd.key⟩

/-- Every entry that is left comes from another index. -/
theorem exists_moved (hi : i < p.num) (hj : j < (p.swapRemove i).num) :
    ∃ l < p.num, l ≠ i ∧ p.moved i l = j := by
  unfold swapRemove at hj
  simp only at hj
  by_cases hji : j = i
  · exact ⟨p.num - 1, by omega, by omega, by simp [moved, hji]⟩
  · exact ⟨j, by omega, hji, by simp [moved]; omega⟩

/-- A removal is a deletion. -/
theorem represents_swapRemove [DecidableEq κ] (h : Represents key p m) (hi : i < p.num) :
    Represents key (p.swapRemove i) (Function.update m (key (p.entry i)) none) := by
  refine ⟨?_, ?_, ?_⟩
  · intro a ha b hb hab
    obtain ⟨x, hx, hxi, rfl⟩ := exists_moved hi ha
    obtain ⟨y, hy, hyi, rfl⟩ := exists_moved hi hb
    simp only [entry_moved hxi, entry_moved hyi] at hab
    rw [h.inj hx hy hab]
  · intro a ha
    obtain ⟨x, hx, hxi, rfl⟩ := exists_moved hi ha
    rw [entry_moved hxi, Function.update_of_ne fun heq => hxi (h.inj hx hi heq)]
    exact h.entry x hx
  · intro k a ha
    by_cases hk : k = key (p.entry i)
    · rw [hk, Function.update_self] at ha
      cases ha
    · rw [Function.update_of_ne hk] at ha
      obtain ⟨x, hx, he, hkey⟩ := h.index k a ha
      have hxi : x ≠ i := by
        rintro rfl
        exact hk (by rw [he, hkey])
      exact ⟨p.moved i x, moved_lt hi hx hxi, by rw [entry_moved hxi]; exact he, hkey⟩

/-! ## A change that keeps the key -/

theorem key_modify {f : α → α} (hf : key (f (p.entry i)) = key (p.entry i)) (j : ℕ) :
    key ((p.modify i f).entry j) = key (p.entry j) := by
  by_cases hj : j = i
  · rw [hj]
    simp [modify, hf]
  · simp [modify, Function.update_of_ne hj]

theorem designates_modify {f : α → α} (hf : key (f (p.entry i)) = key (p.entry i))
    (hd : Designates key p j k) : Designates key (p.modify i f) j k :=
  ⟨hd.lt, by rw [key_modify hf]; exact hd.key⟩

/-- A change of an entry is an update of the map. -/
theorem represents_modify [DecidableEq κ] (h : Represents key p m) {f : α → α} (hi : i < p.num)
    (hf : key (f (p.entry i)) = key (p.entry i)) :
    Represents key (p.modify i f)
      (Function.update m (key (p.entry i)) (some (f (p.entry i)))) := by
  have hself : (p.modify i f).entry i = f (p.entry i) := by simp [modify]
  have hother {j : ℕ} (hj : j ≠ i) : (p.modify i f).entry j = p.entry j := by
    simp [modify, Function.update_of_ne hj]
  refine ⟨?_, ?_, ?_⟩
  · intro a ha b hb hab
    simp only [key_modify hf] at hab
    exact h.inj ha hb hab
  · intro a ha
    by_cases hai : a = i
    · rw [hai, hself, hf, Function.update_self]
    · rw [hother hai, Function.update_of_ne fun heq => hai (h.inj ha hi heq)]
      exact h.entry a ha
  · intro k a ha
    by_cases hk : k = key (p.entry i)
    · rw [hk, Function.update_self] at ha
      obtain rfl : f (p.entry i) = a := by simpa using ha
      exact ⟨i, hi, hself, by rw [hf, hk]⟩
    · rw [Function.update_of_ne hk] at ha
      obtain ⟨x, hx, he, hkey⟩ := h.index k a ha
      have hxi : x ≠ i := by
        rintro rfl
        exact hk (by rw [he, hkey])
      exact ⟨x, hx, by rw [hother hxi]; exact he, hkey⟩

/-- A change of all entries is one of the values. -/
theorem represents_map (h : Represents key p m) {f : α → α} (hf : ∀ a, key (f a) = key a)
    (hnum : q.num = p.num) (hentry : ∀ i < p.num, q.entry i = f (p.entry i)) :
    Represents key q fun k => (m k).map f := by
  refine ⟨fun a ha b hb hab => ?_, fun i hi => ?_, fun k a ha => ?_⟩
  · have ha' : a < p.num := hnum ▸ ha
    have hb' : b < p.num := hnum ▸ hb
    dsimp only at hab
    rw [hentry a ha', hentry b hb', hf, hf] at hab
    exact h.inj ha' hb' hab
  · rw [hnum] at hi
    rw [hentry i hi, hf, h.entry i hi]
    rfl
  · obtain ⟨b, hb, rfl⟩ := Option.map_eq_some_iff.mp ha
    obtain ⟨i, hi, rfl, hkey⟩ := h.index k b hb
    exact ⟨i, hnum ▸ hi, hentry i hi, by rw [hf]; exact hkey⟩

/-- A list whose keys are distinct. -/
theorem represents_ofList [DecidableEq κ] {l : List α} (hl : (l.map key).Nodup)
    (hnum : q.num = l.length) (hentry : ∀ i (hi : i < l.length), q.entry i = l[i]) :
    Represents key q fun k => l.find? fun a => key a = k := by
  have hfind (i : ℕ) (hi : i < l.length) : l.find? (fun a => key a = key l[i]) = some l[i] := by
    cases hs : l.find? fun a => key a = key l[i] with
    | none =>
      have hnot := List.find?_eq_none.mp hs l[i] (List.getElem_mem hi)
      simp at hnot
    | some b =>
      have hkey : key b = key l[i] := by simpa using List.find?_some hs
      exact congrArg some (List.inj_on_of_nodup_map hl (List.mem_of_find?_eq_some hs)
        (List.getElem_mem hi) hkey)
  refine ⟨fun a ha b hb hab => ?_, fun i hi => ?_, fun k a ha => ?_⟩
  · have ha' : a < l.length := hnum ▸ ha
    have hb' : b < l.length := hnum ▸ hb
    dsimp only at hab
    rw [hentry a ha', hentry b hb'] at hab
    have hsame := List.inj_on_of_nodup_map hl (List.getElem_mem ha') (List.getElem_mem hb') hab
    exact (List.Nodup.getElem_inj_iff (List.Nodup.of_map key hl)).mp hsame
  · rw [hnum] at hi
    rw [hentry i hi, hfind i hi]
  · obtain ⟨i, hi, rfl⟩ := List.getElem_of_mem (List.mem_of_find?_eq_some ha)
    exact ⟨i, hnum ▸ hi, hentry i hi, by simpa using List.find?_some ha⟩

/-! ## Counting -/

/-- The number of entries that pass a test. -/
def count (f : α → Bool) (p : Pool α) : ℕ := ((Finset.range p.num).filter fun i => f (p.entry i)).card

/-- A change that leaves every verdict leaves the count. -/
theorem count_congr {f : α → Bool} (hnum : p.num = q.num)
    (h : ∀ i < p.num, f (p.entry i) = f (q.entry i)) : count f p = count f q := by
  unfold count
  rw [← hnum]
  congr 1
  apply Finset.filter_congr
  intro i hi
  rw [h i (Finset.mem_range.mp hi)]

theorem count_of_agree {f : α → Bool} (h : Agree p q) : count f p = count f q :=
  count_congr h.num fun i hi => by rw [h.entry i hi]

theorem count_le (f : α → Bool) (p : Pool α) : count f p ≤ p.num := by
  unfold count
  exact (Finset.card_filter_le _ _).trans (Finset.card_range p.num).le

/-- All entries before an index that passes are below the count only if others fail. -/
theorem count_lt_of_fails {f : α → Bool} (hi : i < p.num) (hf : f (p.entry i) = false) :
    count f p < p.num := by
  unfold count
  calc _ < (Finset.range p.num).card := Finset.card_lt_card (Finset.filter_ssubset.mpr
        ⟨i, Finset.mem_range.mpr hi, by simp [hf]⟩)
    _ = p.num := Finset.card_range p.num

/-- The entries that are left are the old ones without the removed one. -/
theorem count_swapRemove (f : α → Bool) (hi : i < p.num) :
    count f (p.swapRemove i) = ((Finset.range p.num).filter fun j => f (p.entry j) && j ≠ i).card := by
  unfold count
  symm
  refine Finset.card_bij (fun j _ => p.moved i j) ?_ ?_ ?_
  · intro j hj
    simp only [Finset.mem_filter, Finset.mem_range, Bool.and_eq_true, decide_eq_true_eq] at hj ⊢
    exact ⟨moved_lt hi hj.1 hj.2.2, by rw [entry_moved hj.2.2]; exact hj.2.1⟩
  · intro j hj l hl heq
    simp only [Finset.mem_filter, Finset.mem_range, Bool.and_eq_true, decide_eq_true_eq] at hj hl
    unfold moved at heq
    split at heq <;> split at heq <;> omega
  · intro j hj
    simp only [Finset.mem_filter, Finset.mem_range] at hj
    obtain ⟨l, hl, hli, rfl⟩ := exists_moved hi hj.1
    rw [entry_moved hli] at hj
    exact ⟨l, by simpa using ⟨hl, hj.2, hli⟩, rfl⟩

/-- Removing an entry that fails the test leaves the count. -/
theorem count_swapRemove_of_fails {f : α → Bool} (hi : i < p.num) (hf : f (p.entry i) = false) :
    count f (p.swapRemove i) = count f p := by
  rw [count_swapRemove f hi]
  unfold count
  congr 1
  apply Finset.filter_congr
  intro j _
  simp only [Bool.and_eq_true, decide_eq_true_eq]
  refine ⟨And.left, fun hj => ⟨hj, ?_⟩⟩
  rintro rfl
  rw [hf] at hj
  cases hj

end Pool
