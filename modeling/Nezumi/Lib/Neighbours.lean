import Mathlib.Data.List.Nodup
import Mathlib.Data.List.Perm.Basic
import Mathlib.Logic.Function.Basic

/-!
# Neighbours

Every node has a list of its neighbours, at most as many as there is room for. `Mutual room alive F`
says that the lists are of different nodes, that they are mutual, and that they are of nodes that
are there.

* `link`, `unlink`: two nodes become neighbours, or stop being so.
* `Mutual.link`, `Mutual.unlink`, `Mutual.keep`: what keeps the lists mutual.
* `Mutual.gone_iff`: a node goes without a trace if and only if it has no neighbours.
-/

namespace Neighbours

variable {κ : Type*} {room : Nat} {alive alive' : κ → Prop} {F F' : κ → List κ} {a b : κ}

structure Mutual (room : Nat) (alive : κ → Prop) (F : κ → List κ) : Prop where
  nodup : ∀ a, (F a).Nodup
  room : ∀ a, (F a).length ≤ room
  irrefl : ∀ a, a ∉ F a
  symm : ∀ a b, b ∈ F a → a ∈ F b
  alive : ∀ a b, b ∈ F a → alive a

/-- Nobody has neighbours. -/
theorem mutual_nil : Mutual room alive fun _ => [] := by
  refine ⟨fun _ => List.nodup_nil, fun _ => Nat.zero_le _, fun _ => List.not_mem_nil, ?_, ?_⟩ <;>
    intro a b h <;> cases h

theorem Mutual.alive_right (h : Mutual room alive F) (hb : b ∈ F a) : alive b :=
  h.alive b a (h.symm a b hb)

/-- Other nodes are there. -/
theorem Mutual.keep (h : Mutual room alive F) (halive : ∀ a, F a ≠ [] → alive a → alive' a) :
    Mutual room alive' F :=
  ⟨h.nodup, h.room, h.irrefl, h.symm, fun a b hb =>
    halive a (List.ne_nil_of_mem hb) (h.alive a b hb)⟩

/-- **Who goes without a trace.** -/
theorem Mutual.gone_iff (h : Mutual room alive F) :
    (∀ x, ∀ b ∈ F x, x ≠ a → b ≠ a) ↔ F a = [] := by
  constructor
  · intro hgone
    by_contra hne
    obtain ⟨b, hb⟩ := List.exists_mem_of_ne_nil _ hne
    have hba : b ≠ a := fun hba => h.irrefl a (hba ▸ hb)
    exact hgone b a (h.symm a b hb) hba rfl
  · rintro hnil x b hb - rfl
    have hx := h.symm x b hb
    rw [hnil] at hx
    cases hx

section Links

variable [DecidableEq κ]

/-- Two nodes become neighbours. -/
def link (F : κ → List κ) (a b : κ) : κ → List κ :=
  Function.update (Function.update F a (F a ++ [b])) b (F b ++ [a])

theorem link_apply (hab : a ≠ b) (x : κ) :
    link F a b x = if x = a then F a ++ [b] else if x = b then F b ++ [a] else F x := by
  unfold link
  by_cases hb : x = b
  · subst hb
    rw [Function.update_self, if_neg hab.symm, if_pos rfl]
  · rw [Function.update_of_ne hb, Function.update_apply, if_neg hb]

theorem mem_link (hab : a ≠ b) {x y : κ} :
    y ∈ link F a b x ↔ y ∈ F x ∨ (x = a ∧ y = b) ∨ (x = b ∧ y = a) := by
  rw [link_apply hab]
  by_cases ha : x = a
  · subst ha
    simp [hab]
  · by_cases hb : x = b
    · subst hb
      simp [ha]
    · simp [ha, hb]

/-- **Two nodes with room become neighbours.** -/
theorem Mutual.link (h : Mutual room alive F) (hab : a ≠ b) (hnew : b ∉ F a)
    (ha : (F a).length < room) (hb : (F b).length < room) (halive : alive a ∧ alive b) :
    Mutual room alive (link F a b) := by
  have hnew' : a ∉ F b := fun hmem => hnew (h.symm b a hmem)
  refine ⟨fun x => ?_, fun x => ?_, fun x => ?_, fun x y => ?_, fun x y => ?_⟩
  · rw [link_apply hab]
    split
    · exact List.nodup_append.mpr ⟨h.nodup a, List.nodup_singleton b, by
        intro y hy z hz hyz
        rw [List.mem_singleton.mp hz] at hyz
        exact hnew (hyz ▸ hy)⟩
    · split
      · exact List.nodup_append.mpr ⟨h.nodup b, List.nodup_singleton a, by
          intro y hy z hz hyz
          rw [List.mem_singleton.mp hz] at hyz
          exact hnew' (hyz ▸ hy)⟩
      · exact h.nodup x
  · rw [link_apply hab]
    split
    · rw [List.length_append, List.length_singleton]
      exact ha
    · split
      · rw [List.length_append, List.length_singleton]
        exact hb
      · exact h.room x
  · rw [mem_link hab]
    rintro (hx | ⟨rfl, rfl⟩ | ⟨rfl, rfl⟩)
    · exact h.irrefl x hx
    · exact hab rfl
    · exact hab rfl
  · rw [mem_link hab, mem_link hab]
    rintro (hy | ⟨rfl, rfl⟩ | ⟨rfl, rfl⟩)
    · exact .inl (h.symm x y hy)
    · exact .inr (.inr ⟨rfl, rfl⟩)
    · exact .inr (.inl ⟨rfl, rfl⟩)
  · rw [mem_link hab]
    rintro (hy | ⟨rfl, rfl⟩ | ⟨rfl, rfl⟩)
    · exact h.alive x y hy
    · exact halive.1
    · exact halive.2

/-- The lists are those after two nodes have stopped being neighbours, up to their order. -/
def Unlinked (F : κ → List κ) (a b : κ) (F' : κ → List κ) : Prop :=
  ∀ x, (F' x).Perm (if x = a then (F a).erase b else if x = b then (F b).erase a else F x)

theorem Unlinked.mem (h : Unlinked F a b F') (hn : ∀ x, (F x).Nodup) {x y : κ} :
    y ∈ F' x ↔ y ∈ F x ∧ ¬ (x = a ∧ y = b) ∧ ¬ (x = b ∧ y = a ∧ x ≠ a) := by
  rw [(h x).mem_iff]
  by_cases ha : x = a
  · subst ha
    rw [if_pos rfl, (hn x).mem_erase_iff]
    simp [and_comm]
  · rw [if_neg ha]
    by_cases hb : x = b
    · subst hb
      rw [if_pos rfl, (hn x).mem_erase_iff]
      simp [ha, and_comm]
    · simp [ha, hb]

/-- **Two nodes stop being neighbours.** -/
theorem Mutual.unlink (h : Mutual room alive F) (hF : Unlinked F a b F') :
    Mutual room alive F' := by
  have hmem {x y : κ} := hF.mem (x := x) (y := y) h.nodup
  refine ⟨fun x => (hF x).nodup_iff.mpr ?_,
    fun x => Nat.le_trans (Nat.le_of_eq (hF x).length_eq) ?_,
    fun x hx => h.irrefl x (hmem.mp hx).1, fun x y hy => ?_,
    fun x y hy => h.alive x y (hmem.mp hy).1⟩
  · split
    · exact (h.nodup a).erase b
    · split
      · exact (h.nodup b).erase a
      · exact h.nodup x
  · split
    · exact Nat.le_trans List.length_erase_le (h.room a)
    · split
      · exact Nat.le_trans List.length_erase_le (h.room b)
      · exact h.room x
  · obtain ⟨hy, hnab, hnba⟩ := hmem.mp hy
    have hxy : x ≠ y := fun hxy => h.irrefl y (hxy ▸ hy)
    refine hmem.mpr ⟨h.symm x y hy, ?_, ?_⟩
    · rintro ⟨rfl, rfl⟩
      exact hnba ⟨rfl, rfl, hxy⟩
    · rintro ⟨rfl, rfl, -⟩
      exact hnab ⟨rfl, rfl⟩

end Links

end Neighbours
