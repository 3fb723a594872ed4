import Nezumi.Lib.CrossingSort
import Nezumi.Login.Account

/-!
# Sorting before a save (`char/int_storage.c`, `login/login.c`)

Two servers write their records in the order of the account ids. Each sorts a table of indexes into
its records, with the same function under two names.

* `storageSpeedSorting` and `accountsSpeedSorting` are `storage_speed_sorting` and
  `accounts_speed_sorting`. A read of the table outside `premier` and `dernier` gives no result.
* `speedSorting_sorts`: both end, with the indexes they were given in the order of the ids.
* `savedAccounts` are the accounts that `save_account` writes, by the table that it has sorted.
  `saveAccount_sorted`: every account that is not deleted, once, in the order of the ids.
-/

namespace Nezumi

open CrossingSort Rearrange

/-- `struct storagedb` -/
structure StorageDb where
  accountId : Int32 := 0
  sLine : List UInt8 := []

/-- `storage_speed_sorting` -/
def storageSpeedSorting (storagedb : List StorageDb) (fuel : ℕ)
    (tableau : ℤ → Fin storagedb.length) (premier dernier : ℤ) :
    Option (ℤ → Fin storagedb.length) :=
  sort (fun i => (storagedb.get i).accountId.toInt) fuel tableau premier dernier

/-- `accounts_speed_sorting` -/
def accountsSpeedSorting (authDat : List AuthDat) (fuel : ℕ) (tableau : ℤ → Fin authDat.length)
    (premier dernier : ℤ) : Option (ℤ → Fin authDat.length) :=
  sort (fun i => (authDat.get i).accountId) fuel tableau premier dernier

/-- The table has been sorted by a key, from `premier` to `dernier`: the same indexes in the order of
the key, and nothing else has changed. -/
structure SortedTable {n : ℕ} (key : Fin n → ℤ) (tableau sorted : ℤ → Fin n)
    (premier dernier : ℤ) : Prop where
  rearranged : Rearranges (Finset.Icc premier dernier) tableau sorted
  ordered : ∀ i j, premier ≤ i → i ≤ j → j ≤ dernier → key (sorted i) ≤ key (sorted j)

section Parts

variable {n : ℕ} {key : Fin n → ℤ} {tableau sorted : ℤ → Fin n} {premier dernier : ℤ} {fuel : ℕ}

/-- What both functions do with a part of a table. -/
theorem sort_sortedTable (h : premier ≤ dernier) (hfuel : dernier - premier + 3 < fuel) :
    ∃ sorted, sort key fuel tableau premier dernier = some sorted ∧
      SortedTable key tableau sorted premier dernier := by
  obtain ⟨sorted, hsort, hperm, hordered⟩ :
      ∃ sorted, sort key fuel tableau premier dernier = some sorted ∧ _ := sort_spec h hfuel
  refine ⟨sorted, hsort, hperm, fun i j hi hij hj => ?_⟩
  exact hordered ⟨hi, by omega⟩ ⟨by omega, hj⟩ hij

/-- The entries of a whole table. -/
theorem values_table {α : Type} (t : ℤ → α) (n : ℕ) :
    Rearrange.values (Finset.Icc 0 ((n : ℤ) - 1)) t = ((List.range n).map fun i : ℕ => t i : List α) := by
  have hs : Finset.Icc 0 ((n : ℤ) - 1) = (Finset.range n).map Nat.castEmbedding := by
    ext i
    simp only [Finset.mem_Icc, Finset.mem_map, Finset.mem_range, Nat.castEmbedding_apply]
    constructor
    · intro hi
      exact ⟨i.toNat, by omega, by omega⟩
    · rintro ⟨j, hj, rfl⟩
      omega
  unfold Rearrange.values
  rw [hs, Finset.map_val, Multiset.map_map]
  rfl

end Parts

/-- **Both sort.** On every part of a table of indexes, whatever the ids are and however many of them
are equal, the function ends without a read outside the part, and the part is sorted by the ids. -/
theorem speedSorting_sorts :
    (∀ (storagedb : List StorageDb) tableau premier dernier, premier ≤ dernier →
        ∃ fuel sorted, storageSpeedSorting storagedb fuel tableau premier dernier = some sorted ∧
          SortedTable (fun i => (storagedb.get i).accountId.toInt) tableau sorted premier
            dernier) ∧
      ∀ (authDat : List AuthDat) tableau premier dernier, premier ≤ dernier →
        ∃ fuel sorted, accountsSpeedSorting authDat fuel tableau premier dernier = some sorted ∧
          SortedTable (fun i => (authDat.get i).accountId) tableau sorted premier dernier := by
  constructor
  · intro storagedb tableau premier dernier h
    exact ⟨(dernier - premier).toNat + 4, sort_sortedTable h (by push_cast; omega)⟩
  · intro authDat tableau premier dernier h
    exact ⟨(dernier - premier).toNat + 4, sort_sortedTable h (by push_cast; omega)⟩

/-- Three records, two of them with the id of a deleted account. -/
theorem speedSorting_sorts_three :
    let storagedb : List StorageDb := [{ accountId := 7 }, { accountId := -1 }, { accountId := -1 }]
    let authDat : List AuthDat := [{ accountId := 7 }, { accountId := -1 }, { accountId := -1 }]
    let tableau : ℤ → Fin 3 := fun i => Fin.ofNat 3 i.toNat
    (∃ fuel sorted, storageSpeedSorting storagedb fuel tableau 0 2 = some sorted ∧
        SortedTable (fun i => (storagedb.get i).accountId.toInt) tableau sorted 0 2) ∧
      ∃ fuel sorted, accountsSpeedSorting authDat fuel tableau 0 2 = some sorted ∧
        SortedTable (fun i => (authDat.get i).accountId) tableau sorted 0 2 := by
  intro storagedb authDat tableau
  exact ⟨speedSorting_sorts.1 storagedb tableau 0 2 (by decide),
    speedSorting_sorts.2 authDat tableau 0 2 (by decide)⟩

/-! ## The accounts that are written -/

/-- The accounts that `save_account` writes, by its table `id`. -/
def savedAccounts (authDat : List AuthDat) (id : ℤ → Fin authDat.length) : List AuthDat :=
  ((List.range authDat.length).map fun i : ℕ => authDat.get (id i)).filter fun a =>
    0 ≤ a.accountId

/-- **`save_account` writes every account that is not deleted**, once, in the order of the ids. -/
theorem saveAccount_sorted {authDat : List AuthDat} {id sorted : ℤ → Fin authDat.length}
    (hid : ∀ i : Fin authDat.length, id (i : ℕ) = i)
    (h : SortedTable (fun i => (authDat.get i).accountId) id sorted 0 (authDat.length - 1)) :
    (savedAccounts authDat sorted).Perm (authDat.filter fun a => 0 ≤ a.accountId) ∧
      (savedAccounts authDat sorted).Pairwise fun a b => a.accountId ≤ b.accountId := by
  have hall : ((List.range authDat.length).map fun i : ℕ => authDat.get (id i)) = authDat := by
    apply List.ext_getElem (by simp)
    intro i hi hi'
    simp [hid ⟨i, hi'⟩]
  have hperm : ((List.range authDat.length).map fun i : ℕ => authDat.get (sorted i)).Perm
      authDat := by
    have hvalues := h.rearranged.values_eq
    rw [values_table, values_table, Multiset.coe_eq_coe] at hvalues
    have hget := hvalues.map authDat.get
    rw [List.map_map, List.map_map] at hget
    conv_rhs => rw [← hall]
    exact hget
  constructor
  · exact hperm.filter _
  · apply List.Pairwise.filter
    rw [List.pairwise_map]
    refine List.Pairwise.imp_of_mem ?_ List.pairwise_lt_range
    intro i j hi hj hij
    have hj' := List.mem_range.mp hj
    exact h.ordered i j (by omega) (by omega) (by omega)

end Nezumi
