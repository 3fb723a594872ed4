import Mathlib.Data.List.Basic
import Mathlib.Data.List.Nodup
import Mathlib.Logic.Function.Basic
import Mathlib.Order.Nat
import Mathlib.Tactic.Common

/-!
# Hash tables whose entries are linked in chains

The entries of a table are numbered. Those whose keys have one hash value are linked through `next`,
and `0` ends a chain. A new entry gets the next number and goes to the end of its chain.

* `find`, `last`: the loops that look for a key, and for a key or the end of the chain.
* `Runs next i l`: the chain that starts at `i` runs through the entries of `l`.
* `Holds hash T base keys`: the entries from `base` on hold the keys in their order, each in the
  chain of its hash value.
* `Holds.find_eq`, `Holds.last_eq`: what the loops find.
* `Holds.start`, `Holds.link`: a new key as the first or the last entry of its chain.
-/

namespace HashChain

variable {κ β : Type*}

structure Table (κ β : Type*) where
  start : β → ℕ
  next : ℕ → ℕ
  key : ℕ → κ

section Loops

variable [DecidableEq κ] (T : Table κ β) (k : κ)

/-- The entry of the key in the chain that starts at an entry, and `0` if there is none. -/
def find : ℕ → ℕ → Option ℕ
  | 0, _ => none
  | f + 1, i => if i = 0 then some 0 else if T.key i = k then some i else find f (T.next i)

/-- The entry of the key, or else the last entry of the chain. -/
def last : ℕ → ℕ → Option (ℕ × Bool)
  | 0, _ => none
  | f + 1, i =>
    if T.key i = k then some (i, true)
    else if T.next i = 0 then some (i, false)
    else last f (T.next i)

end Loops

/-- The chain that starts at an entry runs through a list. -/
def Runs (next : ℕ → ℕ) : ℕ → List ℕ → Prop
  | i, [] => i = 0
  | i, a :: as => i = a ∧ a ≠ 0 ∧ Runs next (next a) as

/-- The entries of a chain. -/
def members [DecidableEq β] (hash : κ → β) (base : ℕ) (keys : List κ) (b : β) : List ℕ :=
  ((keys.zipIdx base).filter fun p => hash p.1 = b).map Prod.snd

structure Holds [DecidableEq β] (hash : κ → β) (T : Table κ β) (base : ℕ) (keys : List κ) :
    Prop where
  base_pos : 0 < base
  key : ∀ p ∈ keys.zipIdx base, T.key p.2 = p.1
  chain : ∀ b, Runs T.next (T.start b) (members hash base keys b)

section Chains

variable {next next' : ℕ → ℕ} {i n : ℕ} {l : List ℕ}

theorem Runs.congr (h : Runs next i l) (hnext : ∀ a ∈ l, next' a = next a) : Runs next' i l := by
  induction l generalizing i with
  | nil => exact h
  | cons a l ih =>
    obtain ⟨rfl, hne, htail⟩ := h
    refine ⟨rfl, hne, ?_⟩
    rw [hnext i List.mem_cons_self]
    exact ih htail fun b hb => hnext b (List.mem_cons_of_mem _ hb)

/-- An entry at the end of a chain. -/
theorem Runs.append (h : Runs next i l) (hl : l ≠ []) (hnodup : l.Nodup) (hn : n ∉ l)
    (hpos : n ≠ 0) :
    Runs (Function.update (Function.update next (l.getLast hl) n) n 0) i (l ++ [n]) := by
  induction l generalizing i with
  | nil => exact absurd rfl hl
  | cons a l ih =>
    obtain ⟨rfl, hne, htail⟩ := h
    obtain ⟨hi, hnodup'⟩ := List.nodup_cons.mp hnodup
    obtain ⟨hin, hn'⟩ := not_or.mp (fun h => hn (List.mem_cons.mpr h))
    refine ⟨rfl, hne, ?_⟩
    rw [Function.update_of_ne (Ne.symm hin)]
    cases l with
    | nil =>
      rw [List.getLast_singleton, Function.update_self]
      exact ⟨rfl, hpos, Function.update_self ..⟩
    | cons b l =>
      have hlast : (i :: b :: l).getLast hl = (b :: l).getLast (List.cons_ne_nil b l) :=
        List.getLast_cons _
      have hne' : i ≠ (b :: l).getLast (List.cons_ne_nil b l) :=
        fun heq => hi (heq ▸ List.getLast_mem _)
      rw [hlast, Function.update_of_ne hne']
      exact ih htail (List.cons_ne_nil b l) hnodup' hn'

end Chains

section Members

variable [DecidableEq β] {hash : κ → β} {base i : ℕ} {keys : List κ} {k : κ} {b : β}

theorem members_append : members hash base (keys ++ [k]) b =
    members hash base keys b ++ if hash k = b then [base + keys.length] else [] := by
  unfold members
  rw [List.zipIdx_append, List.filter_append, List.map_append]
  congr 1
  by_cases h : hash k = b
  · simp [h]
  · simp [h]

theorem mem_members (h : i ∈ members hash base keys b) :
    ∃ k ∈ keys, (k, i) ∈ keys.zipIdx base ∧ hash k = b := by
  obtain ⟨⟨k, j⟩, hmem, rfl⟩ := List.mem_map.mp h
  obtain ⟨hmem, hb⟩ := List.mem_filter.mp hmem
  exact ⟨k, List.fst_mem_of_mem_zipIdx hmem, hmem, of_decide_eq_true hb⟩

theorem range_members (h : i ∈ members hash base keys b) : base ≤ i ∧ i < base + keys.length := by
  obtain ⟨k, -, hmem, -⟩ := mem_members h
  exact ⟨List.le_snd_of_mem_zipIdx hmem, List.snd_lt_add_of_mem_zipIdx hmem⟩

theorem nodup_members : (members hash base keys b).Nodup := by
  have hidx : (keys.zipIdx base).map Prod.snd = List.range' base keys.length := by simp
  have hsub : (members hash base keys b).Sublist (List.range' base keys.length) := by
    rw [← hidx]
    exact List.filter_sublist.map _
  exact hsub.nodup List.nodup_range'

theorem length_members : (members hash base keys b).length ≤ keys.length := by
  unfold members
  rw [List.length_map]
  exact (List.length_filter_le _ _).trans (List.length_zipIdx ..).le

/-- Two chains have no entry in common. -/
theorem members_disjoint {b' : β} (h : i ∈ members hash base keys b)
    (h' : i ∈ members hash base keys b') : b = b' := by
  obtain ⟨k, -, hk, rfl⟩ := mem_members h
  obtain ⟨k', -, hk', rfl⟩ := mem_members h'
  have h1 := List.mem_zipIdx hk
  have h2 := List.mem_zipIdx hk'
  rw [h1.2.2, h2.2.2]

end Members

section Search

variable [DecidableEq κ] {T : Table κ β} {k : κ} {f i : ℕ} {l : List ℕ}

theorem find_runs (h : Runs T.next i l) (hf : l.length < f) :
    find T k f i = some ((l.find? fun a => T.key a = k).getD 0) := by
  induction l generalizing f i with
  | nil =>
    obtain ⟨f, rfl⟩ := Nat.exists_eq_succ_of_ne_zero (Nat.ne_of_gt hf)
    exact if_pos h
  | cons a l ih =>
    obtain ⟨f, rfl⟩ := Nat.exists_eq_succ_of_ne_zero (Nat.ne_of_gt (Nat.zero_lt_of_lt hf))
    obtain ⟨rfl, hne, htail⟩ := h
    unfold find
    rw [if_neg hne, List.find?_cons]
    by_cases hkey : T.key i = k
    · simp [hkey]
    · rw [if_neg hkey, ih htail (Nat.lt_of_succ_lt_succ hf)]
      simp [hkey]

theorem last_runs (h : Runs T.next i l) (hl : l ≠ []) (hf : l.length ≤ f) :
    last T k f i = some (match l.find? fun a => T.key a = k with
      | some a => (a, true)
      | none => (l.getLast hl, false)) := by
  induction l generalizing f i with
  | nil => exact absurd rfl hl
  | cons a l ih =>
    obtain ⟨f, rfl⟩ := Nat.exists_eq_succ_of_ne_zero (Nat.ne_of_gt (Nat.zero_lt_of_lt hf))
    obtain ⟨rfl, -, htail⟩ := h
    unfold last
    rw [List.find?_cons]
    by_cases hkey : T.key i = k
    · simp [hkey]
    · rw [if_neg hkey]
      cases l with
      | nil =>
        have hend : T.next i = 0 := htail
        simp [hend, hkey]
      | cons b l =>
        have hgo : T.next i ≠ 0 := by
          rw [htail.1]
          exact htail.2.1
        rw [if_neg hgo, ih htail (List.cons_ne_nil b l) (Nat.le_of_succ_le_succ hf)]
        simp [hkey]

end Search

section Entries

variable [DecidableEq β] {hash : κ → β} {T : Table κ β} {base : ℕ} {keys : List κ} {k : κ} {b : β}

/-- The chain of a hash value is empty. -/
theorem Holds.start_eq_zero (h : Holds hash T base keys) :
    T.start b = 0 ↔ members hash base keys b = [] := by
  have hchain := h.chain b
  cases hm : members hash base keys b with
  | nil => exact iff_of_true (by rwa [hm] at hchain) rfl
  | cons a l =>
    rw [hm] at hchain
    exact iff_of_false (hchain.1 ▸ hchain.2.1) (List.cons_ne_nil a l)

/-- The next number is new. -/
theorem not_mem_members : base + keys.length ∉ members hash base keys b :=
  fun hmem => absurd (range_members hmem).2 (lt_irrefl _)

theorem Holds.new_ne_zero (h : Holds hash T base keys) : base + keys.length ≠ 0 :=
  Nat.ne_of_gt (Nat.add_pos_left h.base_pos _)

theorem Holds.key_append (h : Holds hash T base keys) :
    ∀ p ∈ (keys ++ [k]).zipIdx base,
      Function.update T.key (base + keys.length) k p.2 = p.1 := by
  intro p hp
  rw [List.zipIdx_append] at hp
  rcases List.mem_append.mp hp with hp | hp
  · rw [Function.update_of_ne (Nat.ne_of_lt (List.snd_lt_add_of_mem_zipIdx hp))]
    exact h.key p hp
  · obtain rfl : p = (k, base + keys.length) := by simpa using hp
    exact Function.update_self ..

/-- The new key is the first one of its hash value. -/
theorem Holds.start (h : Holds hash T base keys) (hempty : members hash base keys (hash k) = []) :
    Holds hash
      { start := Function.update T.start (hash k) (base + keys.length)
        next := Function.update T.next (base + keys.length) 0
        key := Function.update T.key (base + keys.length) k } base (keys ++ [k]) where
  base_pos := h.base_pos
  key := h.key_append
  chain b := by
    rw [members_append]
    by_cases hb : hash k = b
    · subst hb
      rw [if_pos rfl, hempty, List.nil_append]
      exact ⟨Function.update_self .., h.new_ne_zero, Function.update_self ..⟩
    · rw [if_neg hb, List.append_nil]
      dsimp only
      rw [Function.update_of_ne (Ne.symm hb)]
      refine (h.chain b).congr fun a ha => Function.update_of_ne ?_ _ _
      exact fun heq => not_mem_members (heq ▸ ha)

/-- The new key is linked behind the last entry of its chain. -/
theorem Holds.link (h : Holds hash T base keys) (hl : members hash base keys (hash k) ≠ []) :
    Holds hash
      { start := T.start
        next := Function.update
          (Function.update T.next ((members hash base keys (hash k)).getLast hl)
            (base + keys.length)) (base + keys.length) 0
        key := Function.update T.key (base + keys.length) k } base (keys ++ [k]) where
  base_pos := h.base_pos
  key := h.key_append
  chain b := by
    rw [members_append]
    by_cases hb : hash k = b
    · subst hb
      rw [if_pos rfl]
      exact (h.chain _).append hl nodup_members not_mem_members h.new_ne_zero
    · rw [if_neg hb, List.append_nil]
      refine (h.chain b).congr fun a ha => ?_
      have hnew : a ≠ base + keys.length := fun heq => not_mem_members (heq ▸ ha)
      have hold : a ≠ (members hash base keys (hash k)).getLast hl :=
        fun heq => hb (members_disjoint (heq ▸ List.getLast_mem hl) ha)
      dsimp only
      rw [Function.update_of_ne hnew, Function.update_of_ne hold]

end Entries

section Found

variable [DecidableEq κ] [BEq κ] [LawfulBEq κ] [DecidableEq β] {hash : κ → β} {T : Table κ β}
  {base f : ℕ} {keys : List κ} {k : κ}

/-- The entry of a key is the one of its first place among the keys. -/
theorem find?_members (hkey : ∀ p ∈ keys.zipIdx base, T.key p.2 = p.1) :
    (members hash base keys (hash k)).find? (fun a => T.key a = k) =
      if k ∈ keys then some (base + keys.idxOf k) else none := by
  induction keys generalizing base with
  | nil => rfl
  | cons a keys ih =>
    have ha : T.key base = a := hkey (a, base) List.mem_cons_self
    have ih := @ih (base + 1) fun p hp => hkey p (List.mem_cons_of_mem _ hp)
    have hstep : members hash base (a :: keys) (hash k) =
        (if hash a = hash k then [base] else []) ++ members hash (base + 1) keys (hash k) := by
      unfold members
      rw [List.zipIdx_cons, List.filter_cons]
      by_cases h : hash a = hash k
      · simp [h]
      · simp [h]
    rw [hstep, List.find?_append, ih]
    by_cases hak : a = k
    · subst hak
      simp [ha]
    · have hnone : (if hash a = hash k then [base] else []).find? (fun a => T.key a = k) = none := by
        split
        · simp [ha, hak]
        · rfl
      rw [hnone, Option.none_or, List.idxOf_cons_ne _ hak]
      by_cases hk : k ∈ keys
      · rw [if_pos hk, if_pos (List.mem_cons_of_mem _ hk), Nat.succ_eq_add_one]
        congr 1
        omega
      · rw [if_neg hk, if_neg (by simp [hk, Ne.symm hak])]

theorem Holds.find_eq (h : Holds hash T base keys) (hf : keys.length < f) :
    find T k f (T.start (hash k)) =
      some (if k ∈ keys then base + keys.idxOf k else 0) := by
  rw [find_runs (h.chain _) (length_members.trans_lt hf), find?_members h.key]
  split <;> rfl

theorem Holds.members_ne_nil (h : Holds hash T base keys) (hk : k ∈ keys) :
    members hash base keys (hash k) ≠ [] := by
  intro hnil
  have hfind := @find?_members _ _ _ _ _ _ hash T base keys k h.key
  rw [if_pos hk, hnil] at hfind
  cases hfind

/-- The loop finds the entry of the key. -/
theorem Holds.last_mem (h : Holds hash T base keys) (hk : k ∈ keys) (hf : keys.length ≤ f) :
    last T k f (T.start (hash k)) = some (base + keys.idxOf k, true) := by
  rw [last_runs (h.chain _) (h.members_ne_nil hk) (length_members.trans hf), find?_members h.key,
    if_pos hk]

/-- Of a key that has no entry the loop finds the end of the chain. -/
theorem Holds.last_eq (h : Holds hash T base keys) (hk : k ∉ keys)
    (hl : members hash base keys (hash k) ≠ []) (hf : keys.length ≤ f) :
    last T k f (T.start (hash k)) =
      some ((members hash base keys (hash k)).getLast hl, false) := by
  rw [last_runs (h.chain _) hl (length_members.trans hf), find?_members h.key, if_neg hk]

end Found

end HashChain
