import Mathlib.Data.Finset.Card
import Mathlib.Data.Finset.Max
import Mathlib.Data.List.Perm.Subperm
import Mathlib.Data.List.Sort
import Mathlib.Data.List.TakeDrop

/-!
# The greatest entries and who is shown for them

A ranking shows a player for each of the first `n` places. An entry can be without a player, and
then its place shows nobody.

* `IsTop`: a list of the `n` greatest entries of a set, the greatest first. Ties are free.
* `shown`: what a ranking in order shows, with a last one behind its entries.
* `exists_isTop_iff`: a ranking that has left out entries without a player still shows the players
  of the greatest entries, for one order of the ties, exactly if none of its places is too high.
-/

namespace Podium

variable {ι π : Type*} (key : ι → ℤ) (player : ι → Option π)

/-- A list of the `n` greatest entries of `U`, or of all of them, in descending order. -/
structure IsTop (n : ℕ) (U : Finset ι) (top : List ι) : Prop where
  nodup : top.Nodup
  mem : ∀ i ∈ top, i ∈ U
  length : top.length = min n U.card
  sorted : top.Pairwise fun i j => key j ≤ key i
  rest : ∀ i ∈ U, i ∉ top → ∀ j ∈ top, key i ≤ key j

/-- The player of an entry of a list. -/
def place (top : List ι) (k : ℕ) : Option π := top[k]?.bind player

/-- What is shown at a place: the players of a ranking, and `last` behind them. -/
def shown (R : List ι) (last : Option π) (k : ℕ) : Option π :=
  if k < R.length then place player R k else if k = R.length then last else none

variable {key player} {n : ℕ} {U : Finset ι} {top R : List ι} {last : Option π}

variable (player) in
theorem place_of_lt {k : ℕ} (h : k < top.length) : place player top k = player top[k] := by
  unfold place
  rw [List.getElem?_eq_getElem h]
  rfl

theorem place_of_le {k : ℕ} (h : top.length ≤ k) : place player top k = none := by
  unfold place
  rw [List.getElem?_eq_none h]
  rfl

/-- Who is shown stands in the list. -/
theorem exists_of_place {k : ℕ} {p : π} (h : place player top k = some p) :
    ∃ hk : k < top.length, player top[k] = some p := by
  by_cases hk : k < top.length
  · exact ⟨hk, by rw [← place_of_lt player hk, h]⟩
  · rw [place_of_le (by omega)] at h
    cases h

section IsTop

theorem IsTop.zero : IsTop key 0 U [] :=
  ⟨List.nodup_nil, by simp, by simp, List.Pairwise.nil, by simp⟩

/-- The greatest of the others is next. -/
theorem IsTop.concat [DecidableEq ι] (h : IsTop key n U top) {m : ι} (hm : m ∈ U) (hnew : m ∉ top)
    (hmax : ∀ i ∈ U, i ∉ top → key i ≤ key m) : IsTop key (n + 1) U (top ++ [m]) := by
  have hlt : top.length < U.card := by
    have hsub : insert m top.toFinset ⊆ U := by
      intro i hi
      rcases Finset.mem_insert.mp hi with rfl | hi
      · exact hm
      · exact h.mem i (List.mem_toFinset.mp hi)
    have hcard := Finset.card_le_card hsub
    rw [Finset.card_insert_of_notMem (by simpa using hnew),
      List.toFinset_card_of_nodup h.nodup] at hcard
    omega
  have hlen := h.length
  refine ⟨?_, ?_, ?_, ?_, ?_⟩
  · exact List.nodup_append.mpr ⟨h.nodup, List.nodup_singleton m, by
      rintro i hi j hj rfl
      exact hnew (by simpa [List.mem_singleton.mp hj] using hi)⟩
  · intro i hi
    rcases List.mem_append.mp hi with hi | hi
    · exact h.mem i hi
    · rw [List.mem_singleton.mp hi]
      exact hm
  · rw [List.length_append, List.length_singleton]
    omega
  · refine List.pairwise_append.mpr ⟨h.sorted, List.pairwise_singleton _ m, ?_⟩
    intro i hi j hj
    rw [List.mem_singleton.mp hj]
    exact h.rest m hm hnew i hi
  · intro i hi hout j hj
    rw [List.mem_append, not_or] at hout
    rcases List.mem_append.mp hj with hj | hj
    · exact h.rest i hi hout.1 j hj
    · rw [List.mem_singleton.mp hj]
      exact hmax i hi hout.1

/-- A list of all entries is one for every number of places from then on. -/
theorem IsTop.all (h : IsTop key n U top) (hall : ∀ i ∈ U, i ∈ top) : IsTop key (n + 1) U top := by
  have hle : U.card ≤ top.length := by
    classical
    rw [← List.toFinset_card_of_nodup h.nodup]
    exact Finset.card_le_card fun i hi => List.mem_toFinset.mpr (hall i hi)
  have hlen := h.length
  exact ⟨h.nodup, h.mem, by omega, h.sorted, h.rest⟩

/-- A list that leaves out an entry has all places. -/
theorem IsTop.length_eq (h : IsTop key n U top) (hsome : ∃ i ∈ U, i ∉ top) : top.length = n := by
  classical
  obtain ⟨o, ho, hout⟩ := hsome
  by_contra hne
  have hle : U.card ≤ top.toFinset.card := by
    have := h.length
    rw [List.toFinset_card_of_nodup h.nodup]
    omega
  have heq := Finset.eq_of_subset_of_card_le (fun i hi => h.mem i (List.mem_toFinset.mp hi)) hle
  exact hout (List.mem_toFinset.mp (heq ▸ ho))

/-- No entry has a place that is too high for it. -/
theorem IsTop.card_lt_le [DecidableEq ι] (h : IsTop key n U top) {k : ℕ} (hk : k < top.length) :
    {i ∈ U | key top[k] < key i}.card ≤ k := by
  have hsub : {i ∈ U | key top[k] < key i} ⊆ (top.take k).toFinset := by
    intro i hi
    obtain ⟨hi, hlt⟩ := Finset.mem_filter.mp hi
    have hin : i ∈ top := by
      by_contra hout
      have := h.rest i hi hout _ (List.getElem_mem hk)
      omega
    obtain ⟨j, hj, rfl⟩ := List.getElem_of_mem hin
    have hjk : j < k := by
      by_contra hle
      rcases Nat.lt_or_ge k j with hlt' | hge
      · have := List.pairwise_iff_getElem.mp h.sorted k j hk hj hlt'
        omega
      · obtain rfl : j = k := by omega
        omega
    exact List.mem_toFinset.mpr (List.mem_take_iff_getElem.mpr ⟨j, by omega, rfl⟩)
  calc {i ∈ U | key top[k] < key i}.card ≤ (top.take k).toFinset.card := Finset.card_le_card hsub
    _ ≤ (top.take k).length := List.toFinset_card_le _
    _ ≤ k := List.length_take_le k top

end IsTop

/-! ## A ranking without some of the entries that have no player -/

/-- A ranking: entries of `U` in descending order, all that have a player among them. -/
structure Ranks (key : ι → ℤ) (player : ι → Option π) (U : Finset ι) (R : List ι) : Prop where
  nodup : R.Nodup
  mem : ∀ i ∈ R, i ∈ U
  sorted : R.Pairwise fun i j => key j ≤ key i
  all : ∀ i ∈ U, player i ≠ none → i ∈ R

/-- Each player has one entry. -/
def OneEach (player : ι → Option π) (U : Finset ι) : Prop :=
  ∀ i ∈ U, ∀ j ∈ U, player i ≠ none → player i = player j → i = j

section Ranks

variable (hR : Ranks key player U R)
include hR

/-- Of a ranking that shows the same players as the list, one more entry without a player is not
in the list, if the ranking goes on with one. -/
theorem exists_unlisted (hn : top.length = n) (hlt : n < R.length)
    (hshow : ∀ k < n, place player top k = place player R k) (hnone : player R[n] = none) :
    ∃ r ∈ R.take (n + 1), player r = none ∧ r ∉ top := by
  by_contra hall
  push Not at hall
  have hmap : top.map player = (R.take n).map player := by
    refine List.ext_getElem (by simp; omega) fun k hk hk' => ?_
    simp only [List.length_map] at hk
    rw [List.getElem_map, List.getElem_map, List.getElem_take, ← place_of_lt player hk,
      ← place_of_lt player (by omega)]
    exact hshow k (by omega)
  have hcount : top.countP (fun i => (player i).isNone)
      = (R.take n).countP (fun i => (player i).isNone) := by
    have := congrArg (List.countP Option.isNone) hmap
    rwa [List.countP_map, List.countP_map] at this
  have hnext : (R.take (n + 1)).countP (fun i => (player i).isNone)
      = (R.take n).countP (fun i => (player i).isNone) + 1 := by
    rw [List.take_succ_eq_append_getElem hlt, List.countP_append, List.countP_singleton, hnone]
    rfl
  have hsub : ((R.take (n + 1)).filter fun i => (player i).isNone)
      ⊆ top.filter fun i => (player i).isNone := by
    intro i hi
    obtain ⟨hi, hp⟩ := List.mem_filter.mp hi
    exact List.mem_filter.mpr ⟨hall i hi (by simpa using hp), hp⟩
  have hle := (((hR.nodup.sublist (List.take_sublist _ _)).filter _).subperm hsub).length_le
  rw [← List.countP_eq_length_filter, ← List.countP_eq_length_filter] at hle
  omega

variable (hone : OneEach player U)
include hone

/-- Two lists that show the same player at a place have the same entry there. -/
theorem entry_eq (htop : IsTop key n U top) {k : ℕ} (hk : k < R.length)
    (hp : player R[k] ≠ none) (hsame : place player top k = player R[k]) :
    ∃ hk' : k < top.length, top[k] = R[k] := by
  obtain ⟨p, hp'⟩ := Option.ne_none_iff_exists'.mp hp
  obtain ⟨hk', htk⟩ := exists_of_place (hsame.trans hp')
  refine ⟨hk', (hone _ (hR.mem _ (List.getElem_mem hk)) _ (htop.mem _ (List.getElem_mem hk')) hp
    (by rw [hp', htk])).symm⟩

/-- Who is outside of the list and has a player is behind the places of the list in the ranking. -/
theorem le_of_unlisted (htop : IsTop key n U top)
    (hshow : ∀ k < n, k < R.length → place player top k = place player R k) {k : ℕ}
    (hk : k < R.length) (hp : player R[k] ≠ none) (hout : R[k] ∉ top) : n ≤ k := by
  by_contra hlt
  obtain ⟨hk', heq⟩ := entry_eq hR hone htop hk hp (by
    rw [hshow k (by omega) hk, place_of_lt player hk])
  exact hout (heq ▸ List.getElem_mem hk')

/-- The ranking goes on without a player: the greatest of the others is without one too, or a
greater entry of the ranking is. -/
theorem exists_next_none (htop : IsTop key n U top) (hlen : top.length = n)
    (hranked : ∀ k < n, k < R.length → place player top k = place player R k)
    (hsome : ∃ i ∈ U, i ∉ top) (hnone : ∀ hn : n < R.length, player R[n] = none) :
    ∃ m ∈ U, m ∉ top ∧ (∀ i ∈ U, i ∉ top → key i ≤ key m) ∧ player m = none := by
  classical
  obtain ⟨o, ho, hout⟩ := hsome
  obtain ⟨s, hs, hsmax⟩ := Finset.exists_max_image {i ∈ U | i ∉ top} key
    ⟨o, Finset.mem_filter.mpr ⟨ho, hout⟩⟩
  obtain ⟨hs, hsout⟩ := Finset.mem_filter.mp hs
  have hsmax' : ∀ i ∈ U, i ∉ top → key i ≤ key s := fun i hi hi' =>
    hsmax i (Finset.mem_filter.mpr ⟨hi, hi'⟩)
  by_cases hps : player s = none
  · exact ⟨s, hs, hsout, hsmax', hps⟩
  -- The greatest has a player: the ranking has him further down.
  obtain ⟨k, hk, rfl⟩ := List.getElem_of_mem (hR.all s hs hps)
  have hnk := le_of_unlisted hR hone htop hranked hk hps hsout
  have hn : n < R.length := by omega
  have hne : k ≠ n := by
    rintro rfl
    exact hps (hnone hn)
  obtain ⟨r, hr, hpr, hrout⟩ := exists_unlisted hR hlen hn
    (fun k hk => hranked k hk (by omega)) (hnone hn)
  obtain ⟨j, hj, rfl⟩ := List.mem_take_iff_getElem.mp hr
  refine ⟨R[j], hR.mem _ (List.getElem_mem _), hrout, fun i hi hi' => ?_, hpr⟩
  have hjk := List.pairwise_iff_getElem.mp hR.sorted j k (by omega) hk (by omega)
  exact (hsmax' i hi hi').trans hjk

/-- The ranking goes on with a player: his entry is the greatest of the others, if his place is not
too high. -/
theorem next_player [DecidableEq ι] (htop : IsTop key n U top) (hlen : top.length = n)
    (hranked : ∀ k < n, k < R.length → place player top k = place player R k)
    (hn : n < R.length) (hp : player R[n] ≠ none) (hplace : {i ∈ U | key R[n] < key i}.card ≤ n) :
    R[n] ∉ top ∧ ∀ i ∈ U, i ∉ top → key i ≤ key R[n] := by
  constructor
  · intro hin
    obtain ⟨j, hj, heq⟩ := List.getElem_of_mem hin
    have hshow := hranked j (by omega) (by omega)
    rw [place_of_lt player hj, place_of_lt player (by omega), heq] at hshow
    have := hone _ (hR.mem _ (List.getElem_mem hn)) _
      (hR.mem _ (List.getElem_mem (by omega : j < R.length))) hp hshow
    have := (hR.nodup.getElem_inj_iff).mp this
    omega
  · intro i hi hi'
    by_contra hgt
    have hsub : insert i top.toFinset ⊆ {i ∈ U | key R[n] < key i} := by
      intro j hj
      refine Finset.mem_filter.mpr ?_
      rcases Finset.mem_insert.mp hj with rfl | hj
      · exact ⟨hi, by omega⟩
      · have hj := List.mem_toFinset.mp hj
        have := htop.rest i hi hi' j hj
        exact ⟨htop.mem j hj, by omega⟩
    have hcard := Finset.card_le_card hsub
    rw [Finset.card_insert_of_notMem (by simpa using hi'),
      List.toFinset_card_of_nodup htop.nodup] at hcard
    omega

/-- **A list of the greatest entries that shows what a ranking shows**, if the ranking has a player
at none of its places that is too high for him. -/
theorem exists_isTop [DecidableEq ι] (hlast : last ≠ none → n ≤ R.length)
    (hplace : ∀ k (hk : k < R.length), k < n → player R[k] ≠ none →
      {i ∈ U | key R[k] < key i}.card ≤ k) :
    ∃ top, IsTop key n U top ∧ ∀ k < n, place player top k = shown player R last k := by
  induction n with
  | zero => exact ⟨[], IsTop.zero, by omega⟩
  | succ n ih =>
    obtain ⟨top, htop, hshow⟩ := ih (fun h => by have := hlast h; omega)
      (fun k hk hkn => hplace k hk (by omega))
    have hranked : ∀ k < n, k < R.length → place player top k = place player R k := by
      intro k hkn hk
      rw [hshow k hkn, shown, if_pos hk]
    -- Behind the ranking nobody is shown.
    have hbehind : R.length ≤ n → shown player R last n = none := by
      intro hle
      rw [shown, if_neg (by omega)]
      split
      · by_contra hne
        have := hlast hne
        omega
      · rfl
    by_cases hall : ∀ i ∈ U, i ∈ top
    · refine ⟨top, htop.all hall, fun k hk => ?_⟩
      rcases Nat.lt_succ_iff_lt_or_eq.mp hk with hk | rfl
      · exact hshow k hk
      have hle : R.length ≤ top.length :=
        (hR.nodup.subperm fun i hi => hall i (hR.mem i hi)).length_le
      have hlen := htop.length
      rw [place_of_le (by omega), hbehind (by omega)]
    push Not at hall
    have hlen := htop.length_eq hall
    suffices hnext : ∃ m ∈ U, m ∉ top ∧ (∀ i ∈ U, i ∉ top → key i ≤ key m) ∧
        player m = shown player R last n by
      obtain ⟨m, hm, hnew, hmax, hpm⟩ := hnext
      refine ⟨top ++ [m], htop.concat hm hnew hmax, fun k hk => ?_⟩
      rcases Nat.lt_succ_iff_lt_or_eq.mp hk with hk | rfl
      · rw [← hshow k hk, place_of_lt player (by simp; omega), place_of_lt player (by omega),
          List.getElem_append_left (by omega)]
      · rw [place_of_lt player (by simp; omega), List.getElem_append_right (by omega)]
        simpa [hlen] using hpm
    by_cases hp : shown player R last n = none
    · rw [hp]
      refine exists_next_none hR hone htop hlen hranked hall fun hn => ?_
      rwa [shown, if_pos hn, place_of_lt player hn] at hp
    · have hn : n < R.length := by
        by_contra hge
        exact hp (hbehind (by omega))
      rw [shown, if_pos hn, place_of_lt player hn] at hp ⊢
      obtain ⟨hnew, hmax⟩ := next_player hR hone htop hlen hranked hn hp (hplace n hn (by omega) hp)
      exact ⟨R[n], hR.mem _ (List.getElem_mem _), hnew, hmax, rfl⟩

/-- **What a ranking shows** are the players of the greatest entries if and only if nobody is shown
behind them while places are left, and no player at a place that is too high for him. -/
theorem exists_isTop_iff [DecidableEq ι] :
    (∃ top, IsTop key n U top ∧ ∀ k < n, place player top k = shown player R last k) ↔
      (last ≠ none → n ≤ R.length) ∧
        ∀ k (hk : k < R.length), k < n → player R[k] ≠ none →
          {i ∈ U | key R[k] < key i}.card ≤ k := by
  refine ⟨?_, fun h => exists_isTop hR hone h.1 h.2⟩
  rintro ⟨top, htop, hshow⟩
  have hranked : ∀ k (hk : k < R.length), k < n → place player top k = player R[k] := by
    intro k hk hkn
    rw [hshow k hkn, shown, if_pos hk, place_of_lt player hk]
  constructor
  · intro hl
    by_contra hlt
    obtain ⟨p, rfl⟩ := Option.ne_none_iff_exists'.mp hl
    have hend := hshow R.length (by omega)
    rw [shown, if_neg (by omega), if_pos rfl] at hend
    obtain ⟨hk, hpk⟩ := exists_of_place hend
    -- The last one would have two places.
    have hin := hR.all _ (htop.mem _ (List.getElem_mem hk)) (by rw [hpk]; rintro ⟨⟩)
    obtain ⟨j, hj, heq⟩ := List.getElem_of_mem hin
    have hpj : player R[j] ≠ none := by rw [heq, hpk]; rintro ⟨⟩
    obtain ⟨hj', heq'⟩ := entry_eq hR hone htop hj hpj (hranked j hj (by omega))
    have := htop.nodup.getElem_inj_iff.mp (heq'.trans heq)
    omega
  · intro k hk hkn hp
    obtain ⟨hk', heq⟩ := entry_eq hR hone htop hk hp (hranked k hk hkn)
    rw [← heq]
    exact htop.card_lt_le hk'

end Ranks

/-! ## The ranking in one pass

The entries come in their own order. A new one is put behind the entries that are not smaller. If it
is the greatest and the first of the ranking has no player, it takes the place of that one. -/

/-- A new entry is ranked. -/
def enter (key : ι → ℤ) (player : ι → Option π) (x : ι) : List ι → List ι
  | [] => [x]
  | h :: R =>
    if key h < key x then if (player h).isNone then x :: R else x :: h :: R
    else h :: R.orderedInsert (fun a b => key b < key a) x

section Enter

variable [LinearOrder ι]

variable (key player) in
/-- An entry without a player that was greater than all before it, and is not the greatest. -/
def Passed (U : Finset ι) (i : ι) : Prop :=
  player i = none ∧ (∀ j ∈ U, j < i → key j < key i) ∧ ∃ j ∈ U, i < j ∧ key i < key j

instance [DecidableEq π] (U : Finset ι) (i : ι) : Decidable (Passed key player U i) :=
  inferInstanceAs (Decidable (_ ∧ _ ∧ _))

variable (key) in
/-- `j` is ranked ahead of `i`: it is greater, or equal and came earlier. -/
def Ahead (j i : ι) : Prop := key i < key j ∨ key i = key j ∧ j < i

instance (j i : ι) : Decidable (Ahead key j i) := inferInstanceAs (Decidable (_ ∨ _))

variable (key player) in
/-- A ranking of the entries that were not passed. -/
structure Ranked (U : Finset ι) (R : List ι) : Prop where
  sorted : R.Pairwise (Ahead key)
  mem : ∀ i, i ∈ R ↔ i ∈ U ∧ ¬ Passed key player U i
  top : ∀ j ∈ U, ∃ r ∈ R, key j ≤ key r

theorem Ranked.empty : Ranked key player ∅ [] :=
  ⟨List.Pairwise.nil, by simp, by simp⟩

theorem Ahead.irrefl (i : ι) : ¬ Ahead key i i := by
  rintro (h | h)
  · exact lt_irrefl _ h
  · exact lt_irrefl _ h.2

theorem Ahead.asymm {i j : ι} (h : Ahead key j i) : ¬ Ahead key i j := by
  rintro (h' | h') <;> rcases h with h | h
  · omega
  · omega
  · omega
  · exact lt_asymm h.2 h'.2

theorem Ahead.trans {i j k : ι} (h : Ahead key i j) (h' : Ahead key j k) : Ahead key i k := by
  rcases h with h | h <;> rcases h' with h' | h'
  · exact Or.inl (by omega)
  · exact Or.inl (by omega)
  · exact Or.inl (by omega)
  · exact Or.inr ⟨by omega, h.2.trans h'.2⟩

theorem Ahead.le {i j : ι} (h : Ahead key j i) : key i ≤ key j := by
  rcases h with h | h <;> omega

theorem Ranked.nodup (h : Ranked key player U R) : R.Nodup :=
  h.sorted.imp fun hab => by
    rintro rfl
    exact Ahead.irrefl _ hab

/-- A ranking in one pass has all entries with a player. -/
theorem Ranked.ranks (h : Ranked key player U R) : Ranks key player U R where
  nodup := h.nodup
  mem i hi := ((h.mem i).mp hi).1
  sorted := h.sorted.imp Ahead.le
  all i hi hp := (h.mem i).mpr ⟨hi, fun hpassed => hp hpassed.1⟩

/-- The place of an entry is the number of the ranked entries ahead of it. -/
theorem Ranked.card_ahead [DecidableEq π] (h : Ranked key player U R) {k : ℕ} (hk : k < R.length) :
    {j ∈ U | ¬ Passed key player U j ∧ Ahead key j R[k]}.card = k := by
  have heq : {j ∈ U | ¬ Passed key player U j ∧ Ahead key j R[k]} = (R.take k).toFinset := by
    ext j
    rw [Finset.mem_filter, ← and_assoc, ← h.mem, List.mem_toFinset, List.mem_take_iff_getElem]
    constructor
    · rintro ⟨hj, hahead⟩
      obtain ⟨l, hl, rfl⟩ := List.getElem_of_mem hj
      refine ⟨l, ?_, rfl⟩
      have hlk : l < k := by
        by_contra hle
        rcases Nat.lt_or_ge k l with hlt | hge
        · exact hahead.asymm (List.pairwise_iff_getElem.mp h.sorted k l hk hl hlt)
        · obtain rfl : l = k := by omega
          exact Ahead.irrefl _ hahead
      omega
    · rintro ⟨l, hl, rfl⟩
      exact ⟨List.getElem_mem _, List.pairwise_iff_getElem.mp h.sorted l k (by omega) hk (by omega)⟩
  rw [heq, List.toFinset_card_of_nodup (h.nodup.sublist (List.take_sublist _ _)),
    List.length_take]
  omega

/-- The length of a ranking. -/
theorem Ranked.card_eq [DecidableEq π] (h : Ranked key player U R) :
    {j ∈ U | ¬ Passed key player U j}.card = R.length := by
  have heq : {j ∈ U | ¬ Passed key player U j} = R.toFinset := by
    ext j
    rw [Finset.mem_filter, ← h.mem, List.mem_toFinset]
  rw [heq, List.toFinset_card_of_nodup h.nodup]

section Step

variable {x : ι} (hx : ∀ i ∈ U, i < x)
include hx

/-- Who was passed stays passed. -/
theorem passed_insert_of_passed {i : ι} (h : Passed key player U i) (hi : i ∈ U) :
    Passed key player (insert x U) i := by
  obtain ⟨hnone, hbefore, j, hj, hlt, hkey⟩ := h
  refine ⟨hnone, fun l hl hli => ?_, j, Finset.mem_insert_of_mem hj, hlt, hkey⟩
  rcases Finset.mem_insert.mp hl with rfl | hl
  · exact absurd hli (lt_asymm (hx i hi))
  · exact hbefore l hl hli

/-- The new entry is not passed. -/
theorem not_passed_insert_self : ¬ Passed key player (insert x U) x := by
  rintro ⟨-, -, j, hj, hlt, -⟩
  rcases Finset.mem_insert.mp hj with rfl | hj
  · exact lt_irrefl _ hlt
  · exact lt_asymm hlt (hx j hj)

omit hx in
/-- An entry that is not the first of the ranking is not passed by the new one. -/
theorem not_passed_insert {h i : ι} {R : List ι} (hranked : Ranked key player U (h :: R))
    (hi : i ∈ R) : ¬ Passed key player (insert x U) i := by
  rintro ⟨hnone, hbefore, j, hj, hlt, hkey⟩
  have hahead := (List.pairwise_cons.mp hranked.sorted).1 i hi
  obtain ⟨hh, -⟩ := (hranked.mem h).mp List.mem_cons_self
  obtain ⟨hiU, hnot⟩ := (hranked.mem i).mp (List.mem_cons_of_mem h hi)
  rcases lt_or_ge h i with hhi | hih
  · have := hbefore h (Finset.mem_insert_of_mem hh) hhi
    have := hahead.le
    omega
  · have hne : key i < key h := by
      rcases hahead with hlt | ⟨-, hlt⟩
      · exact hlt
      · exact absurd hlt (not_lt.mpr hih)
    have hlt' : i < h := lt_of_le_of_ne hih fun heq => by
      rw [heq] at hne
      exact lt_irrefl _ hne
    exact hnot
      ⟨hnone, fun l hl hli => hbefore l (Finset.mem_insert_of_mem hl) hli, h, hh, hlt', hne⟩

/-- The first of the ranking is passed by a greater entry, if it has no player. -/
theorem passed_insert {h : ι} {R : List ι} (hranked : Ranked key player U (h :: R))
    (hnone : player h = none) (hlt : key h < key x) : Passed key player (insert x U) h := by
  obtain ⟨hh, hnot⟩ := (hranked.mem h).mp List.mem_cons_self
  have hmax : ∀ j ∈ U, key j ≤ key h := by
    intro j hj
    obtain ⟨r, hr, hle⟩ := hranked.top j hj
    rcases List.mem_cons.mp hr with rfl | hr
    · exact hle
    · exact hle.trans ((List.pairwise_cons.mp hranked.sorted).1 r hr).le
  refine ⟨hnone, fun j hj hjh => ?_, x, Finset.mem_insert_self x U, hx h hh, hlt⟩
  rcases Finset.mem_insert.mp hj with rfl | hj
  · exact absurd hjh (lt_asymm (hx h hh))
  by_contra hge
  have hle := hmax j hj
  -- An equal one that came earlier is not in the ranking, so a greater one passed it.
  by_cases hjp : Passed key player U j
  · obtain ⟨-, -, l, hl, -, hjl⟩ := hjp
    have := hmax l hl
    omega
  · rcases List.mem_cons.mp ((hranked.mem j).mpr ⟨hj, hjp⟩) with rfl | hjR
    · exact lt_irrefl _ hjh
    · rcases (List.pairwise_cons.mp hranked.sorted).1 j hjR with hlt' | ⟨-, hlt'⟩
      · omega
      · exact lt_asymm hlt' hjh

/-- A first entry that stays is not passed. -/
theorem not_passed_insert_first {h : ι} {R : List ι} (hranked : Ranked key player U (h :: R))
    (hstay : player h ≠ none ∨ key x ≤ key h) : ¬ Passed key player (insert x U) h := by
  rintro ⟨hnone, hbefore, j, hj, hlt, hkey⟩
  obtain ⟨hh, hnot⟩ := (hranked.mem h).mp List.mem_cons_self
  rcases Finset.mem_insert.mp hj with rfl | hj
  · rcases hstay with hp | hle
    · exact hp hnone
    · omega
  · exact hnot
      ⟨hnone, fun l hl hlh => hbefore l (Finset.mem_insert_of_mem hl) hlh, j, hj, hlt, hkey⟩

omit hx in
/-- The place of a new entry in the order. -/
theorem pairwise_orderedInsert (hR : R.Pairwise (Ahead key)) (hlast : ∀ i ∈ R, i < x) :
    (R.orderedInsert (fun a b => key b < key a) x).Pairwise (Ahead key) := by
  induction R with
  | nil => exact List.pairwise_singleton _ x
  | cons r R ih =>
    obtain ⟨hr, hR⟩ := List.pairwise_cons.mp hR
    rw [List.orderedInsert_cons]
    split
    next hlt =>
      refine List.pairwise_cons.mpr ⟨fun i hi => ?_, List.pairwise_cons.mpr ⟨hr, hR⟩⟩
      rcases List.mem_cons.mp hi with rfl | hi
      · exact Or.inl hlt
      · have := (hr i hi).le
        exact Or.inl (by omega)
    next hge =>
      refine List.pairwise_cons.mpr
        ⟨fun i hi => ?_, ih hR fun i hi => hlast i (List.mem_cons_of_mem r hi)⟩
      rcases List.mem_cons.mp ((List.perm_orderedInsert _ x R).mem_iff.mp hi) with rfl | hi
      · rcases Int.lt_or_eq_of_le (Int.not_lt.mp hge) with hlt | heq
        · exact Or.inl hlt
        · exact Or.inr ⟨heq, hlast r List.mem_cons_self⟩
      · exact hr i hi

/-- A ranking with a new entry, and without those that it passed. -/
theorem Ranked.insert_of {R' : List ι} (h : Ranked key player U R)
    (hsorted : R'.Pairwise (Ahead key))
    (hmem : ∀ i, i ∈ R' ↔ i = x ∨ i ∈ R ∧ ¬ Passed key player (insert x U) i)
    (htop : ∀ r ∈ R, ∃ r' ∈ R', key r ≤ key r') : Ranked key player (insert x U) R' where
  sorted := hsorted
  mem i := by
    rw [hmem, Finset.mem_insert]
    constructor
    · rintro (rfl | ⟨hi, hnot⟩)
      · exact ⟨Or.inl rfl, not_passed_insert_self hx⟩
      · exact ⟨Or.inr ((h.mem i).mp hi).1, hnot⟩
    · rintro ⟨rfl | hi, hnot⟩
      · exact Or.inl rfl
      · exact Or.inr ⟨(h.mem i).mpr ⟨hi, fun hp => hnot (passed_insert_of_passed hx hp hi)⟩, hnot⟩
  top j hj := by
    rcases Finset.mem_insert.mp hj with rfl | hj
    · exact ⟨j, (hmem j).mpr (Or.inl rfl), le_rfl⟩
    · obtain ⟨r, hr, hle⟩ := h.top j hj
      obtain ⟨r', hr', hle'⟩ := htop r hr
      exact ⟨r', hr', hle.trans hle'⟩

/-- **A new entry is ranked.** -/
theorem Ranked.enter (h : Ranked key player U R) :
    Ranked key player (insert x U) (enter key player x R) := by
  cases R with
  | nil => exact h.insert_of hx (List.pairwise_singleton _ x) (by simp [Podium.enter]) (by simp)
  | cons f R =>
    obtain ⟨hf, hsorted⟩ := List.pairwise_cons.mp h.sorted
    have hrest : ∀ i ∈ R, ¬ Passed key player (insert x U) i := fun i hi => not_passed_insert h hi
    simp only [Podium.enter]
    split
    next hlt =>
      have hahead : ∀ i ∈ f :: R, Ahead key x i := by
        intro i hi
        rcases List.mem_cons.mp hi with rfl | hi
        · exact Or.inl hlt
        · have := (hf i hi).le
          exact Or.inl (by omega)
      have htop : ∀ r ∈ f :: R, key r ≤ key x := fun r hr => (hahead r hr).le
      split
      next hnone =>
        have hpassed := passed_insert hx h (by simpa using hnone) hlt
        refine h.insert_of hx
          (List.pairwise_cons.mpr ⟨fun i hi => hahead i (List.mem_cons_of_mem f hi), hsorted⟩)
          (fun i => ?_) (fun r hr => ⟨x, List.mem_cons_self, htop r hr⟩)
        rw [List.mem_cons, List.mem_cons]
        refine or_congr_right ⟨fun hi => ⟨Or.inr hi, hrest i hi⟩, ?_⟩
        rintro ⟨rfl | hi, hnot⟩
        · exact absurd hpassed hnot
        · exact hi
      next hsome =>
        have hstay := not_passed_insert_first (x := x) hx h (Or.inl (by simpa using hsome))
        refine h.insert_of hx (List.pairwise_cons.mpr ⟨hahead, h.sorted⟩) (fun i => ?_)
          (fun r hr => ⟨x, List.mem_cons_self, htop r hr⟩)
        rw [List.mem_cons]
        refine or_congr_right ⟨fun hi => ⟨hi, ?_⟩, And.left⟩
        rcases List.mem_cons.mp hi with rfl | hi
        · exact hstay
        · exact hrest i hi
    next hge =>
      have hstay := not_passed_insert_first (x := x) hx h (Or.inr (Int.not_lt.mp hge))
      have hlast : ∀ i ∈ f :: R, i < x := fun i hi => hx i ((h.mem i).mp hi).1
      have heq : f :: R.orderedInsert (fun a b => key b < key a) x
          = (f :: R).orderedInsert (fun a b => key b < key a) x := by
        rw [List.orderedInsert_cons, if_neg hge]
      rw [heq]
      have hmem : ∀ i, i ∈ (f :: R).orderedInsert (fun a b => key b < key a) x ↔
          i = x ∨ i ∈ f :: R := fun i => by
        rw [(List.perm_orderedInsert _ x (f :: R)).mem_iff, List.mem_cons]
      refine h.insert_of hx (pairwise_orderedInsert h.sorted hlast) (fun i => ?_)
        (fun r hr => ⟨r, (hmem r).mpr (Or.inr hr), le_rfl⟩)
      rw [hmem]
      refine or_congr_right ⟨fun hi => ⟨hi, ?_⟩, And.left⟩
      rcases List.mem_cons.mp hi with rfl | hi
      · exact hstay
      · exact hrest i hi

end Step

end Enter

end Podium
