import Nezumi.Lib.Slots

/-!
# Rings with one entry per key

A ring is a slot table that is written over again: a value goes into the first entry with its key,
and into the next entry of the ring when there is none. Entries may be dead; a dead entry keeps its
key.

* `Front key live r`: before a live entry there is no entry with its key.
* `front_put`, `front_map`: putting a value, and changing entries without giving them life, keep it.
* `Front.eq_of_key`: two live entries with one key are the same entry.
* `Front.key_ne_of_put`: putting a value leaves no other live entry with its key.
-/

/-- A slot table and the next entry to be written. -/
structure KeyRing (n : ℕ) (α : Type*) where
  entry : Fin n → α
  pos : Fin (n + 1)

namespace KeyRing

variable {n : ℕ} {α κ : Type*}

/-- Where a value with key `k` goes, and the next position behind it. -/
def place [NeZero n] [DecidableEq κ] (key : α → κ) (r : KeyRing n α) (k : κ) : Fin n × Fin (n + 1) :=
  match Slots.first (fun a => key a = k) r.entry with
  | some j => (j, r.pos)
  | none =>
    if h : r.pos.val < n then (⟨r.pos, h⟩, r.pos + 1)
    else (0, 1)

/-- A value is put into the ring. -/
def put [NeZero n] [DecidableEq κ] (key : α → κ) (r : KeyRing n α) (v : α) : KeyRing n α where
  entry := Function.update r.entry (r.place key (key v)).1 v
  pos := (r.place key (key v)).2

/-- Every entry is changed by a function of it. -/
def map (f : α → α) (r : KeyRing n α) : KeyRing n α := { r with entry := fun j => f (r.entry j) }

/-- One entry is changed. -/
def modify (r : KeyRing n α) (i : Fin n) (f : α → α) : KeyRing n α :=
  { r with entry := Function.update r.entry i (f (r.entry i)) }

@[simp] theorem entry_map (f : α → α) (r : KeyRing n α) (j : Fin n) :
    (r.map f).entry j = f (r.entry j) := rfl

@[simp] theorem entry_modify (r : KeyRing n α) (i : Fin n) (f : α → α) :
    (r.modify i f).entry = Function.update r.entry i (f (r.entry i)) := rfl

/-- Before a live entry there is no entry with its key. -/
def Front (key : α → κ) (live : α → Prop) (r : KeyRing n α) : Prop :=
  ∀ j, live (r.entry j) → ∀ i < j, key (r.entry i) ≠ key (r.entry j)

variable {key : α → κ} {live : α → Prop} {r : KeyRing n α}

/-- Changes that keep the keys and give no entry life. -/
theorem front_map (h : Front key live r) {f : α → α} (hkey : ∀ a, key (f a) = key a)
    (hlive : ∀ a, live (f a) → live a) : Front key live (r.map f) := by
  intro j hj i hi
  simp only [entry_map, hkey]
  exact h j (hlive _ hj) i hi

theorem front_modify (h : Front key live r) {f : α → α} (hkey : ∀ a, key (f a) = key a)
    (hlive : ∀ a, live (f a) → live a) (k : Fin n) : Front key live (r.modify k f) := by
  have hk (i : Fin n) : key ((r.modify k f).entry i) = key (r.entry i) := by
    rcases eq_or_ne i k with rfl | hne
    · simp [hkey]
    · simp [Function.update_of_ne hne]
  intro j hj i hi
  rw [hk, hk]
  refine h j ?_ i hi
  rcases eq_or_ne j k with rfl | hne
  · exact hlive _ (by simpa using hj)
  · simpa [Function.update_of_ne hne] using hj

variable [NeZero n] [DecidableEq κ]

@[simp] theorem entry_put (key : α → κ) (r : KeyRing n α) (v : α) :
    (r.put key v).entry = Function.update r.entry (r.place key (key v)).1 v := rfl

/-- A live entry with key `k` is where a value with key `k` goes. -/
theorem Front.place_eq (h : Front key live r) {j : Fin n} (hj : live (r.entry j)) {k : κ}
    (hk : key (r.entry j) = k) : (r.place key k).1 = j := by
  have hfirst : Slots.first (fun a => key a = k) r.entry = some j := by
    rw [Slots.first_eq_some_iff]
    refine ⟨by simpa using hk, fun i hi => ?_⟩
    have hne := h j hj i hi
    rw [hk] at hne
    simpa using hne
  unfold place
  rw [hfirst]

theorem Front.eq_of_key (h : Front key live r) {i j : Fin n} (hi : live (r.entry i))
    (hj : live (r.entry j)) (hk : key (r.entry i) = key (r.entry j)) : i = j := by
  rw [← h.place_eq hi hk, h.place_eq hj rfl]

theorem Front.key_ne_of_put (h : Front key live r) {v : α} {j : Fin n} (hj : live (r.entry j))
    (hne : j ≠ (r.place key (key v)).1) : key (r.entry j) ≠ key v :=
  fun hk => hne (h.place_eq hj hk).symm

/-- Before the place of a value there is no entry with its key. -/
theorem key_ne_of_lt_place {k : κ} {i : Fin n} (hi : i < (r.place key k).1) :
    key (r.entry i) ≠ k := by
  unfold place at hi
  cases hf : Slots.first (fun a => key a = k) r.entry with
  | some j =>
    rw [hf] at hi
    simpa using (Slots.first_eq_some_iff.mp hf).2 i hi
  | none => simpa using Slots.first_eq_none_iff.mp hf i

theorem front_put (h : Front key live r) (v : α) : Front key live (r.put key v) := by
  intro j hj i hi
  rw [entry_put] at hj ⊢
  rcases eq_or_ne j (r.place key (key v)).1 with rfl | hjp
  · rw [Function.update_self, Function.update_of_ne hi.ne]
    exact key_ne_of_lt_place hi
  · rw [Function.update_of_ne hjp] at hj ⊢
    rcases eq_or_ne i (r.place key (key v)).1 with rfl | hip
    · rw [Function.update_self]
      exact (h.key_ne_of_put hj hjp).symm
    · rw [Function.update_of_ne hip]
      exact h j hj i hi

end KeyRing
