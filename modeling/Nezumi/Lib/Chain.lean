import Mathlib.Data.List.Nodup
import Mathlib.Data.List.Perm.Basic
import Mathlib.Tactic.Common

/-!
# Intrusive doubly linked lists

The nodes of many lists carry their own links. The first node of a list points back to a sentinel, a
node of no list points back to nothing; the starts of the lists are kept by their keys.

* `pushFront`, `unlink`: the two operations on the links.
* `Seg`: the nodes from a start on are those of a list, and each points back to the one before.
* `walk`: the nodes from a start on, as a loop finds them. `Seg.walk_eq` says that it finds all.
* `Shelves`: every node with a link is in the list of its key, and nowhere else.
* `Shelves.push`, `Shelves.unlink`, `Shelves.rekey`: how the lists follow the operations.
-/

namespace Chain

variable {α κ : Type*}

/-- Where a node points back to. -/
inductive Back (α : Type*)
  | null
  | head
  | node (a : α)
deriving DecidableEq

structure Links (α : Type*) where
  next : α → Option α
  prev : α → Back α

variable [DecidableEq α]

/-- A node becomes the first one of a list, which started at `start`. -/
def pushFront (L : Links α) (start : Option α) (a : α) : Links α where
  next := Function.update L.next a start
  prev :=
    match start with
    | none => Function.update L.prev a .head
    | some b => Function.update (Function.update L.prev a .head) b (.node a)

/-- A node leaves its list: its neighbours are linked to each other. -/
def unlink (L : Links α) (a : α) : Links α where
  next :=
    match L.prev a with
    | .node p => Function.update (Function.update L.next p (L.next a)) a none
    | _ => Function.update L.next a none
  prev :=
    match L.next a with
    | some b => Function.update (Function.update L.prev b (L.prev a)) a .null
    | none => Function.update L.prev a .null

/-- The nodes from `start` on are those of the list; the first one points back to `p`. -/
def Seg (L : Links α) : Back α → Option α → List α → Prop
  | _, start, [] => start = none
  | p, start, a :: as => start = some a ∧ L.prev a = p ∧ Seg L (.node a) (L.next a) as

/-- The nodes from a start on, at most `n`. -/
def walk (next : α → Option α) : ℕ → Option α → List α
  | 0, _ => []
  | _ + 1, none => []
  | n + 1, some a => a :: walk next n (next a)

section Segments

variable {L L' : Links α} {p : Back α} {start : Option α} {as : List α} {a b : α}

omit [DecidableEq α] in
theorem Seg.congr (h : Seg L p start as) (hnext : ∀ a ∈ as, L'.next a = L.next a)
    (hprev : ∀ a ∈ as, L'.prev a = L.prev a) : Seg L' p start as := by
  induction as generalizing p start with
  | nil => exact h
  | cons a as ih =>
    obtain ⟨h₁, h₂, h₃⟩ := h
    refine ⟨h₁, (hprev a (by simp)).trans h₂, ?_⟩
    rw [hnext a (by simp)]
    exact ih h₃ (fun b hb => hnext b (by simp [hb])) fun b hb => hprev b (by simp [hb])

omit [DecidableEq α] in
theorem Seg.next_mem (h : Seg L p start as) (ha : a ∈ as) (hb : L.next a = some b) : b ∈ as := by
  induction as generalizing p start with
  | nil => cases ha
  | cons c as ih =>
    obtain ⟨-, -, h₃⟩ := h
    rcases List.mem_cons.mp ha with rfl | ha
    · cases as with
      | nil =>
        rw [h₃] at hb
        cases hb
      | cons d as =>
        obtain rfl : d = b := Option.some.inj (h₃.1.symm.trans hb)
        simp
    · exact List.mem_cons_of_mem c (ih h₃ ha)

omit [DecidableEq α] in
theorem Seg.prev_mem (h : Seg L p start as) (ha : a ∈ as) (hb : L.prev a = .node b) :
    b ∈ as ∨ p = .node b := by
  induction as generalizing p start with
  | nil => cases ha
  | cons c as ih =>
    obtain ⟨-, h₂, h₃⟩ := h
    rcases List.mem_cons.mp ha with rfl | ha
    · exact .inr (h₂.symm.trans hb)
    · rcases ih h₃ ha with hmem | hnode
      · exact .inl (List.mem_cons_of_mem c hmem)
      · obtain rfl : c = b := by simpa using hnode
        exact .inl (by simp)

omit [DecidableEq α] in
/-- Behind the first node, all point back to nodes. -/
theorem Seg.prev_node {q : α} (h : Seg L (.node q) start as) (ha : a ∈ as) :
    ∃ r, L.prev a = .node r ∧ (r = q ∨ r ∈ as) := by
  induction as generalizing q start with
  | nil => cases ha
  | cons c as ih =>
    obtain ⟨-, h₂, h₃⟩ := h
    rcases List.mem_cons.mp ha with rfl | ha
    · exact ⟨q, h₂, .inl rfl⟩
    · obtain ⟨r, hr, hmem⟩ := ih h₃ ha
      exact ⟨r, hr, .inr (by simpa using hmem)⟩

omit [DecidableEq α] in
theorem Seg.prev_ne_null (h : Seg L p start as) (hp : p ≠ .null) (ha : a ∈ as) :
    L.prev a ≠ .null := by
  induction as generalizing p start with
  | nil => cases ha
  | cons c as ih =>
    obtain ⟨-, h₂, h₃⟩ := h
    rcases List.mem_cons.mp ha with rfl | ha
    · rwa [h₂]
    · exact ih h₃ (by simp) ha

omit [DecidableEq α] in
/-- **The loop finds the list**, if it goes on for long enough. -/
theorem Seg.walk_eq {n : ℕ} (h : Seg L p start as) (hn : as.length ≤ n) :
    walk L.next n start = as := by
  induction as generalizing p start n with
  | nil =>
    obtain rfl := h
    cases n <;> rfl
  | cons a as ih =>
    obtain ⟨rfl, -, h₃⟩ := h
    cases n with
    | zero => cases hn
    | succ n =>
      rw [walk, ih h₃ (by simpa using hn)]

theorem pushFront_next (L : Links α) (start : Option α) (a c : α) :
    (pushFront L start a).next c = if c = a then start else L.next c :=
  Function.update_apply _ _ _ _

theorem pushFront_prev (L : Links α) (start : Option α) (a c : α) :
    (pushFront L start a).prev c =
      if start = some c then .node a else if c = a then .head else L.prev c := by
  unfold pushFront
  cases start with
  | none => simp [Function.update_apply]
  | some b => simp [Function.update_apply, eq_comm]

theorem unlink_next (L : Links α) (a c : α) :
    (unlink L a).next c =
      if c = a then none else if L.prev a = .node c then L.next a else L.next c := by
  unfold unlink
  cases hp : L.prev a <;> simp [Function.update_apply, eq_comm]

theorem unlink_prev (L : Links α) (a c : α) :
    (unlink L a).prev c =
      if c = a then .null else if L.next a = some c then L.prev a else L.prev c := by
  unfold unlink
  cases hn : L.next a <;> simp [Function.update_apply, eq_comm]

/-- A list with a node in front. -/
theorem Seg.push (h : Seg L .head start as) (hnodup : as.Nodup) (ha : a ∉ as) :
    Seg (pushFront L start a) .head (some a) (a :: as) := by
  refine ⟨rfl, ?_, ?_⟩
  · rw [pushFront_prev, if_neg, if_pos rfl]
    rintro rfl
    cases as with
    | nil => cases h
    | cons b as => exact ha (by simp [Option.some.inj h.1])
  · rw [pushFront_next, if_pos rfl]
    cases as with
    | nil => exact h
    | cons b as =>
      obtain ⟨rfl, -, h₃⟩ := h
      obtain ⟨hb, -⟩ := List.nodup_cons.mp hnodup
      have hba : b ≠ a := fun hba => ha (by simp [hba])
      refine ⟨rfl, by rw [pushFront_prev, if_pos rfl], ?_⟩
      rw [pushFront_next, if_neg hba]
      refine h₃.congr (fun c hc => ?_) fun c hc => ?_
      · rw [pushFront_next, if_neg fun hca => ha (by simp [← hca, hc])]
      · rw [pushFront_prev, if_neg fun hbc => hb (by rw [Option.some.inj hbc]; exact hc),
          if_neg fun hca => ha (by simp [← hca, hc])]

/-- A list without one of its nodes. It starts where it did, unless that was the node. -/
theorem Seg.unlink (h : Seg L p start as) (hnodup : as.Nodup) (hp : ∀ q, p = .node q → q ∉ as)
    (hnull : p ≠ .null) (ha : a ∈ as) :
    Seg (unlink L a) p (if L.prev a = p then L.next a else start) (as.erase a) := by
  induction as generalizing p start with
  | nil => cases ha
  | cons c as ih =>
    obtain ⟨rfl, h₂, h₃⟩ := h
    obtain ⟨hc, hnodup⟩ := List.nodup_cons.mp hnodup
    rcases eq_or_ne c a with rfl | hca
    · rw [if_pos h₂, List.erase_cons_head]
      cases as with
      | nil => exact h₃
      | cons d as =>
        obtain ⟨hd, -, h₄⟩ := h₃
        obtain ⟨hdas, -⟩ := List.nodup_cons.mp hnodup
        have hdc : d ≠ c := fun hdc => hc (by simp [hdc])
        refine ⟨hd, ?_, ?_⟩
        · rw [unlink_prev, if_neg hdc, if_pos hd, h₂]
        · rw [unlink_next, if_neg hdc, if_neg]
          swap
          · rw [h₂]
            rintro rfl
            exact hp d rfl (by simp)
          refine h₄.congr (fun e he => ?_) fun e he => ?_
          · rw [unlink_next, if_neg fun hec => hc (by simp [← hec, he]), if_neg]
            rw [h₂]
            rintro rfl
            exact hp e rfl (by simp [he])
          · rw [unlink_prev, if_neg fun hec => hc (by simp [← hec, he]), if_neg]
            rw [hd]
            rintro ⟨⟩
            exact hdas he
    · have has : a ∈ as := (List.mem_cons.mp ha).resolve_left hca.symm
      have hne : L.prev a ≠ p := by
        obtain ⟨r, hr, hmem⟩ := h₃.prev_node has
        rw [hr]
        rintro rfl
        exact hp r rfl (by simpa using hmem)
      rw [if_neg hne, List.erase_cons_tail (by simpa using hca)]
      have hrest := ih h₃ hnodup (by rintro q ⟨⟩; exact hc) (by simp) has
      refine ⟨rfl, ?_, ?_⟩
      · rw [unlink_prev, if_neg hca, if_neg, h₂]
        intro hnext
        exact hc (h₃.next_mem has hnext)
      · rw [unlink_next, if_neg hca]
        exact hrest

end Segments

/-! ## Many lists -/

section Shelves

variable [DecidableEq κ] {L : Links α} {starts : κ → Option α} {key : α → κ} {a : α}

omit [DecidableEq α] [DecidableEq κ] in
/-- The lists of the keys: each is linked, and the nodes with a link are in the list of their key.
-/
structure Shelves (L : Links α) (starts : κ → Option α) (key : α → κ) (lists : κ → List α) :
    Prop where
  nodup : ∀ k, (lists k).Nodup
  seg : ∀ k, Seg L .head (starts k) (lists k)
  mem : ∀ k a, a ∈ lists k ↔ L.prev a ≠ .null ∧ key a = k
  loose : ∀ a, L.prev a = .null → L.next a = none

variable {lists : κ → List α}

omit [DecidableEq α] [DecidableEq κ] in
/-- The key of a node that is in no list does not matter. -/
theorem Shelves.rekey {key' : α → κ} (h : Shelves L starts key lists)
    (hkey : ∀ a, L.prev a ≠ .null → key' a = key a) : Shelves L starts key' lists := by
  refine ⟨h.nodup, h.seg, fun k a => ?_, h.loose⟩
  rw [h.mem]
  exact and_congr_right fun ha => by rw [hkey a ha]

omit [DecidableEq α] [DecidableEq κ] in
/-- No node is in two lists. -/
theorem Shelves.disjoint (h : Shelves L starts key lists) {k k' : κ} (hk : a ∈ lists k)
    (hk' : a ∈ lists k') : k = k' :=
  ((h.mem k a).mp hk).2.symm.trans ((h.mem k' a).mp hk').2

omit [DecidableEq α] [DecidableEq κ] in
theorem Shelves.start_mem (h : Shelves L starts key lists) {k : κ} (hs : starts k = some a) :
    a ∈ lists k := by
  have hseg := h.seg k
  cases hl : lists k with
  | nil =>
    rw [hl, hs] at hseg
    cases hseg
  | cons b as =>
    rw [hl, hs] at hseg
    obtain rfl := Option.some.inj hseg.1
    simp

/-- **A node that is in no list** becomes the first one of the list of its key. -/
theorem Shelves.push (h : Shelves L starts key lists) (ha : L.prev a = .null) :
    Shelves (pushFront L (starts (key a)) a) (Function.update starts (key a) (some a)) key
      (Function.update lists (key a) (a :: lists (key a))) := by
  have hnot (k : κ) : a ∉ lists k := fun hk => ((h.mem k a).mp hk).1 ha
  have hstart (c : α) (hc : starts (key a) = some c) : c ≠ a := by
    rintro rfl
    exact hnot _ (h.start_mem hc)
  have hprev (c : α) : (pushFront L (starts (key a)) a).prev c ≠ .null ↔
      c = a ∨ L.prev c ≠ .null := by
    rw [pushFront_prev]
    split
    · rename_i hc
      simp [((h.mem _ c).mp (h.start_mem hc)).1]
    · split <;> simp [*]
  refine ⟨fun k => ?_, fun k => ?_, fun k c => ?_, fun c hc => ?_⟩
  · rcases eq_or_ne k (key a) with rfl | hk
    · rw [Function.update_self]
      exact List.nodup_cons.mpr ⟨hnot _, h.nodup _⟩
    · rw [Function.update_of_ne hk]
      exact h.nodup k
  · rcases eq_or_ne k (key a) with rfl | hk
    · rw [Function.update_self, Function.update_self]
      exact (h.seg _).push (h.nodup _) (hnot _)
    · rw [Function.update_of_ne hk, Function.update_of_ne hk]
      refine (h.seg k).congr (fun c hc => ?_) fun c hc => ?_
      · rw [pushFront_next, if_neg fun hca => hnot k (by rw [← hca]; exact hc)]
      · rw [pushFront_prev, if_neg fun hcs => hk (h.disjoint hc (h.start_mem hcs)),
          if_neg fun hca => hnot k (by rw [← hca]; exact hc)]
  · rw [hprev]
    rcases eq_or_ne k (key a) with rfl | hk
    · rw [Function.update_self, List.mem_cons, h.mem]
      constructor
      · rintro (rfl | hc)
        · exact ⟨.inl rfl, rfl⟩
        · exact ⟨.inr hc.1, hc.2⟩
      · rintro ⟨rfl | hc, hkey⟩
        · exact .inl rfl
        · exact .inr ⟨hc, hkey⟩
    · rw [Function.update_of_ne hk, h.mem]
      constructor
      · rintro ⟨hc, hkey⟩
        exact ⟨.inr hc, hkey⟩
      · rintro ⟨rfl | hc, hkey⟩
        · exact absurd hkey.symm hk
        · exact ⟨hc, hkey⟩
  · have hc' := mt (hprev c).mpr (not_not_intro hc)
    rw [not_or, not_not] at hc'
    rw [pushFront_next, if_neg hc'.1]
    exact h.loose c hc'.2

/-- **A node leaves its list.** The start of the list moves on if it was the node. -/
theorem Shelves.unlink (h : Shelves L starts key lists) (ha : L.prev a ≠ .null) :
    Shelves (unlink L a)
      (if L.prev a = .head then Function.update starts (key a) (L.next a) else starts) key
      (Function.update lists (key a) ((lists (key a)).erase a)) := by
  have hmem : a ∈ lists (key a) := (h.mem _ a).mpr ⟨ha, rfl⟩
  have hprev (c : α) : (Chain.unlink L a).prev c ≠ .null ↔ c ≠ a ∧ L.prev c ≠ .null := by
    rw [unlink_prev]
    split
    · simp [*]
    · split
      · rename_i hca hc
        simp only [ha, hca, ne_eq, not_false_eq_true, true_and, true_iff]
        exact ((h.mem _ c).mp ((h.seg _).next_mem hmem hc)).1
      · simp [*]
  refine ⟨fun k => ?_, fun k => ?_, fun k c => ?_, fun c hc => ?_⟩
  · rcases eq_or_ne k (key a) with rfl | hk
    · rw [Function.update_self]
      exact (h.nodup _).erase a
    · rw [Function.update_of_ne hk]
      exact h.nodup k
  · rcases eq_or_ne k (key a) with rfl | hk
    · have hseg := (h.seg (key a)).unlink (h.nodup _) nofun nofun hmem
      rw [Function.update_self]
      split
      · rename_i hhead
        rw [if_pos hhead] at hseg
        rw [Function.update_self]
        exact hseg
      · rename_i hhead
        rw [if_neg hhead] at hseg
        exact hseg
    · have hstart : (if L.prev a = .head then Function.update starts (key a) (L.next a) else starts)
          k = starts k := by
        split
        · rw [Function.update_of_ne hk]
        · rfl
      rw [hstart, Function.update_of_ne hk]
      have hne (c : α) (hc : c ∈ lists k) : c ≠ a := by
        rintro rfl
        exact hk (h.disjoint hc hmem)
      refine (h.seg k).congr (fun c hc => ?_) fun c hc => ?_
      · rw [unlink_next, if_neg (hne c hc), if_neg]
        intro hback
        exact hk (h.disjoint hc (((h.seg _).prev_mem hmem hback).resolve_right nofun))
      · rw [unlink_prev, if_neg (hne c hc), if_neg]
        intro hnext
        exact hk (h.disjoint hc ((h.seg _).next_mem hmem hnext))
  · rw [hprev]
    rcases eq_or_ne k (key a) with rfl | hk
    · rw [Function.update_self, (h.nodup _).mem_erase_iff, h.mem, and_assoc]
    · rw [Function.update_of_ne hk, h.mem]
      constructor
      · rintro ⟨hc, hkey⟩
        refine ⟨⟨?_, hc⟩, hkey⟩
        rintro rfl
        exact hk hkey.symm
      · rintro ⟨⟨-, hc⟩, hkey⟩
        exact ⟨hc, hkey⟩
  · rw [unlink_next]
    split
    · rfl
    · rename_i hca
      have hc' := mt (hprev c).mpr (not_not_intro hc)
      have hnull : L.prev c = .null := by
        by_contra hne
        exact hc' ⟨hca, hne⟩
      rw [if_neg]
      · exact h.loose c hnull
      · intro hback
        exact ((h.mem _ c).mp (((h.seg _).prev_mem hmem hback).resolve_right nofun)).1 hnull

end Shelves

end Chain
