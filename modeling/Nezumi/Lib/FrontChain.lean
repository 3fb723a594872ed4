import Mathlib.Data.List.Basic
import Mathlib.Data.List.Nodup
import Mathlib.Data.List.Range
import Mathlib.Logic.Function.Basic
import Mathlib.Tactic.Common

/-!
# A map in an array, with chains that grow at the front

The entries of a map stand in an array with some room to spare. Those whose keys fall into one
bucket are linked: a new entry becomes the first one of its chain, and an entry that gets a new
value stays where it is.

* `Table.find`, `Table.push`, `Table.replace`, `Table.grow`, `Table.shrink`: the operations.
* `Chained nodes start l`: the chain from `start` on runs through the entries of `l`.
* `Keeps key bucket T stored`: the table is well formed, and `stored` are its values by their keys.
* `Keeps.find_spec`, `Keeps.push`, `Keeps.replace`, `Keeps.grow`, `Keeps.shrink`: the operations
  are those of a map.
* `Keeps.descending`: a link leads to an older entry, so that no chain comes back to itself.
-/

namespace FrontChain

structure Node (α : Type*) where
  value : α
  next : Option ℕ
  deriving DecidableEq

/-- The array, the number of its entries, and where the chains start. -/
structure Table (α β : Type*) where
  nodes : List (Node α)
  count : ℕ
  start : β → Option ℕ

section Operations

variable {α β κ : Type*} (key : α → κ) (bucket : κ → β)

/-- The entry of a key from a link on: `none` if the chain has not ended in time or has left the
array. -/
def findFrom [DecidableEq κ] (nodes : List (Node α)) (k : κ) : ℕ → Option ℕ → Option (Option ℕ)
  | 0, _ => none
  | _ + 1, none => some none
  | f + 1, some i =>
    match nodes[i]? with
    | none => none
    | some nd => if key nd.value = k then some (some i) else findFrom nodes k f nd.next

def Table.find [DecidableEq κ] (T : Table α β) (k : κ) : Option (Option ℕ) :=
  findFrom key T.nodes k (T.count + 1) (T.start (bucket k))

/-- A new entry, in front of its chain. -/
def Table.push [DecidableEq β] (T : Table α β) (a : α) : Table α β where
  nodes := T.nodes.set T.count ⟨a, T.start (bucket (key a))⟩
  count := T.count + 1
  start := Function.update T.start (bucket (key a)) (some T.count)

/-- A new value for an entry. -/
def Table.replace (T : Table α β) (i : ℕ) (a : α) : Table α β :=
  { T with nodes := T.nodes.modify i fun nd => { nd with value := a } }

/-- More room. -/
def Table.grow (T : Table α β) (spare : List (Node α)) : Table α β :=
  { T with nodes := T.nodes ++ spare }

/-- No room to spare. -/
def Table.shrink (T : Table α β) : Table α β := { T with nodes := T.nodes.take T.count }

/-- The value of an entry. -/
def Table.valueAt (T : Table α β) (i : ℕ) : Option α := (T.nodes[i]?).map Node.value

end Operations

/-- The chain from a link on runs through the entries of a list. -/
def Chained {α : Type*} (nodes : List (Node α)) : Option ℕ → List ℕ → Prop
  | start, [] => start = none
  | start, i :: l => start = some i ∧ ∃ nd, nodes[i]? = some nd ∧ Chained nodes nd.next l

section Chains

variable {α : Type*} {nodes nodes' : List (Node α)} {start : Option ℕ} {l : List ℕ} {i j : ℕ}

/-- A chain stays when the links of its entries do. -/
theorem Chained.congr (h : Chained nodes start l)
    (hnext : ∀ i ∈ l, (nodes'[i]?).map Node.next = (nodes[i]?).map Node.next) :
    Chained nodes' start l := by
  induction l generalizing start with
  | nil => exact h
  | cons i l ih =>
    obtain ⟨rfl, nd, hnd, htail⟩ := h
    have hi := hnext i List.mem_cons_self
    rw [hnd, Option.map_some, Option.map_eq_some_iff] at hi
    obtain ⟨nd', hnd', heq⟩ := hi
    refine ⟨rfl, nd', hnd', ?_⟩
    rw [heq]
    exact ih htail fun j hj => hnext j (List.mem_cons_of_mem _ hj)

theorem Chained.next_lt {nd : Node α} (h : Chained nodes start l) (hl : l.Pairwise (· > ·))
    (hi : i ∈ l) (hnd : nodes[i]? = some nd) (hj : nd.next = some j) : j < i := by
  induction l generalizing start with
  | nil => cases hi
  | cons a l ih =>
    obtain ⟨rfl, nd', hnd', htail⟩ := h
    obtain ⟨hhead, hpair⟩ := List.pairwise_cons.mp hl
    rcases List.mem_cons.mp hi with rfl | hi
    · obtain rfl := Option.some.inj (hnd.symm.trans hnd')
      cases l with
      | nil =>
        rw [show nd.next = none from htail] at hj
        cases hj
      | cons b l =>
        obtain rfl := Option.some.inj (hj.symm.trans htail.1)
        exact hhead j List.mem_cons_self
    · exact ih htail hpair hi

variable {κ : Type*} [DecidableEq κ] {key : α → κ} {k : κ} {f : ℕ}

/-- What is found in a chain: its first entry with the key. -/
theorem findFrom_chained (h : Chained nodes start l) (hf : l.length < f) :
    findFrom key nodes k f start =
      some (l.find? fun i => (nodes[i]?).map (key ∘ Node.value) = some k) := by
  induction l generalizing start f with
  | nil =>
    obtain ⟨f, rfl⟩ := Nat.exists_eq_succ_of_ne_zero (Nat.ne_of_gt hf)
    rw [show start = none from h]
    rfl
  | cons i l ih =>
    obtain ⟨f, rfl⟩ := Nat.exists_eq_succ_of_ne_zero (Nat.ne_of_gt (Nat.zero_lt_of_lt hf))
    obtain ⟨rfl, nd, hnd, htail⟩ := h
    unfold findFrom
    rw [hnd, List.find?_cons, hnd]
    by_cases hkey : key nd.value = k
    · simp [hkey]
    · simp only [hkey, ↓reduceIte, Option.map_some, Function.comp_apply, Option.some.injEq,
        decide_false]
      exact ih htail (Nat.lt_of_succ_lt_succ hf)

end Chains

section Keeping

variable {α β κ : Type*} [DecidableEq β] (key : α → κ) (bucket : κ → β)

/-- The entries of a bucket, the newest one first. -/
def Table.members (T : Table α β) (b : β) : List ℕ :=
  (List.range T.count).reverse.filter fun i =>
    (T.valueAt i).map (bucket ∘ key) = some b

/-- The table is well formed: its entries are in the array, two of them have different keys, and the
chain of a bucket runs through the entries whose keys fall into it. `stored` are the values by their
keys. -/
structure Keeps (T : Table α β) (stored : κ → Option α) : Prop where
  count_le : T.count ≤ T.nodes.length
  distinct : ∀ i j a b, i < T.count → j < T.count → T.valueAt i = some a → T.valueAt j = some b →
    key a = key b → i = j
  chain : ∀ b, Chained T.nodes (T.start b) (T.members key bucket b)
  stored_iff : ∀ k a, stored k = some a ↔ ∃ i < T.count, T.valueAt i = some a ∧ key a = k

end Keeping

section Members

variable {α β κ : Type*} [DecidableEq β] {key : α → κ} {bucket : κ → β} {T T' : Table α β} {b : β}
  {i : ℕ} {a : α}

theorem mem_members : i ∈ T.members key bucket b ↔
    i < T.count ∧ (T.valueAt i).map (bucket ∘ key) = some b := by
  unfold Table.members
  rw [List.mem_filter, List.mem_reverse, List.mem_range, decide_eq_true_iff]

theorem pairwise_members : (T.members key bucket b).Pairwise (· > ·) := by
  apply List.Pairwise.filter
  rw [List.pairwise_reverse]
  exact List.pairwise_lt_range

theorem length_members_le : (T.members key bucket b).length ≤ T.count := by
  unfold Table.members
  refine (List.length_filter_le _ _).trans ?_
  rw [List.length_reverse, List.length_range]

/-- The members are told by the values. -/
theorem members_congr (key : α → κ) (bucket : κ → β) (hcount : T'.count = T.count)
    (hvalue : ∀ i < T.count, (T'.valueAt i).map (bucket ∘ key) = (T.valueAt i).map (bucket ∘ key)) :
    T'.members key bucket b = T.members key bucket b := by
  unfold Table.members
  rw [hcount]
  apply List.filter_congr
  intro i hi
  rw [hvalue i (List.mem_range.mp (List.mem_reverse.mp hi))]

end Members

namespace Keeps

variable {α β κ : Type*} [DecidableEq β] {key : α → κ} {bucket : κ → β}
  {T : Table α β} {stored : κ → Option α} {k : κ} {i j : ℕ} {a : α}

/-- Before the first entry. -/
theorem empty : Keeps key bucket (⟨[], 0, fun _ => none⟩ : Table α β) fun _ => none where
  count_le := le_refl 0
  distinct i j a b hi := absurd hi (Nat.not_lt_zero i)
  chain _ := rfl
  stored_iff k a := by simp

/-- **A search finds the value of its key**, and ends. -/
theorem find_spec [DecidableEq κ] (h : Keeps key bucket T stored) (k : κ) : ∃ r, T.find key bucket k = some r ∧
    r.bind T.valueAt = stored k ∧
    ∀ i, r = some i → i < T.count ∧ ∃ a, T.valueAt i = some a ∧ key a = k := by
  have hfind : findFrom key T.nodes k _ _ = _ := findFrom_chained (h.chain (bucket k))
    (Nat.lt_succ_of_le length_members_le)
  refine ⟨_, hfind, ?_, fun i hi => ?_⟩
  · generalize hr : (T.members key bucket (bucket k)).find? _ = r
    cases r with
    | none =>
      rw [List.find?_eq_none] at hr
      symm
      rw [Option.bind_none, Option.eq_none_iff_forall_ne_some]
      intro a ha
      obtain ⟨i, hi, hvalue, rfl⟩ := (h.stored_iff k a).mp ha
      refine hr i (mem_members.mpr ⟨hi, by rw [hvalue]; rfl⟩) (decide_eq_true ?_)
      obtain ⟨nd, hnd, rfl⟩ := Option.map_eq_some_iff.mp hvalue
      rw [hnd]
      rfl
    | some i =>
      have hmem := mem_members.mp (List.mem_of_find?_eq_some hr)
      have hkey := by simpa only [decide_eq_true_iff] using List.find?_some hr
      obtain ⟨nd, hnd, hk⟩ := Option.map_eq_some_iff.mp hkey
      have hvalue : T.valueAt i = some nd.value := by rw [Table.valueAt, hnd]; rfl
      rw [Option.bind_some, hvalue]
      exact ((h.stored_iff k nd.value).mpr ⟨i, hmem.1, hvalue, hk⟩).symm
  · have hmem := mem_members.mp (List.mem_of_find?_eq_some hi)
    have hkey := by simpa only [decide_eq_true_iff] using List.find?_some hi
    obtain ⟨nd, hnd, hk⟩ := Option.map_eq_some_iff.mp hkey
    exact ⟨hmem.1, nd.value, by rw [Table.valueAt, hnd]; rfl, hk⟩

/-- **A link leads to an older entry.** -/
theorem descending (h : Keeps key bucket T stored) {nd : Node α} (hi : i < T.count)
    (hnd : T.nodes[i]? = some nd) (hj : nd.next = some j) : j < i := by
  apply (h.chain (bucket (key nd.value))).next_lt pairwise_members _ hnd hj
  rw [mem_members, Table.valueAt, hnd]
  exact ⟨hi, rfl⟩

/-- A chain starts at an entry. -/
theorem start_lt (h : Keeps key bucket T stored) {b : β} (hi : T.start b = some i) :
    i < T.count := by
  have hchain := h.chain b
  cases hl : T.members key bucket b with
  | nil =>
    rw [hl] at hchain
    rw [show T.start b = none from hchain] at hi
    cases hi
  | cons j l =>
    rw [hl] at hchain
    obtain rfl := Option.some.inj (hi.symm.trans hchain.1)
    exact (mem_members.mp (hl ▸ List.mem_cons_self)).1

/-- Where there is no entry the array may change. -/
theorem of_same (h : Keeps key bucket T stored) {T' : Table α β} (hcount : T'.count = T.count)
    (hstart : T'.start = T.start) (hlength : T.count ≤ T'.nodes.length)
    (hget : ∀ i < T.count, T'.nodes[i]? = T.nodes[i]?) : Keeps key bucket T' stored := by
  have hvalue (i : ℕ) (hi : i < T.count) : T'.valueAt i = T.valueAt i :=
    congrArg (Option.map Node.value) (hget i hi)
  constructor
  · rw [hcount]
    exact hlength
  · intro i j a b hi hj ha hb
    rw [hcount] at hi hj
    rw [hvalue i hi] at ha
    rw [hvalue j hj] at hb
    exact h.distinct i j a b hi hj ha hb
  · intro b
    rw [members_congr key bucket hcount fun i hi => by rw [hvalue i hi], hstart]
    exact (h.chain b).congr fun i hi => by rw [hget i (mem_members.mp hi).1]
  · intro k a
    rw [h.stored_iff, hcount]
    exact exists_congr fun i => and_congr_right fun hi => by rw [hvalue i hi]

/-- More room changes nothing. -/
theorem grow (h : Keeps key bucket T stored) (spare : List (Node α)) :
    Keeps key bucket (T.grow spare) stored := by
  refine of_same h rfl rfl ?_ ?_
  · simp only [Table.grow, List.length_append]
    have := h.count_le
    omega
  · intro i hi
    exact List.getElem?_append_left (hi.trans_le h.count_le)

/-- Nor does less. -/
theorem shrink (h : Keeps key bucket T stored) : Keeps key bucket T.shrink stored := by
  refine of_same h rfl rfl ?_ ?_
  · simp only [Table.shrink, List.length_take]
    have := h.count_le
    omega
  · intro i hi
    exact List.getElem?_take_of_lt hi

/-- **A new value for the entry of its key.** -/
theorem replace [DecidableEq κ] (h : Keeps key bucket T stored) (hi : i < T.count) {old : α}
    (hold : T.valueAt i = some old) (hkey : key old = key a) :
    Keeps key bucket (T.replace i a) (Function.update stored (key a) (some a)) := by
  have hself : (T.replace i a).valueAt i = some a := by
    obtain ⟨nd, hnd, -⟩ := Option.map_eq_some_iff.mp hold
    simp [Table.valueAt, Table.replace, hnd]
  have hother (j : ℕ) (hj : j ≠ i) : (T.replace i a).valueAt j = T.valueAt j := by
    simp [Table.valueAt, Table.replace, Ne.symm hj]
  have hmap (j : ℕ) : ((T.replace i a).valueAt j).map key = (T.valueAt j).map key := by
    rcases eq_or_ne j i with rfl | hj
    · rw [hself, hold, Option.map_some, Option.map_some, hkey]
    · rw [hother j hj]
  constructor
  · simpa [Table.replace] using h.count_le
  · intro j l b c hj hl hb hc hbc
    obtain ⟨b', hb', hbk⟩ := Option.map_eq_some_iff.mp ((hmap j).symm.trans (congrArg _ hb))
    obtain ⟨c', hc', hck⟩ := Option.map_eq_some_iff.mp ((hmap l).symm.trans (congrArg _ hc))
    exact h.distinct j l b' c' hj hl hb' hc' (hbk.trans (hbc.trans hck.symm))
  · intro b
    have hmembers : (T.replace i a).members key bucket b = T.members key bucket b := by
      refine members_congr key bucket rfl fun j _ => ?_
      rw [← Option.map_map, hmap, Option.map_map]
    rw [hmembers]
    refine (h.chain b).congr fun j _ => ?_
    rcases eq_or_ne i j with rfl | hij
    · simp [Table.replace, Function.comp_def]
    · simp [Table.replace, hij]
  · intro k b
    rcases eq_or_ne k (key a) with rfl | hk
    · rw [Function.update_self]
      constructor
      · intro hb
        obtain rfl := Option.some.inj hb
        exact ⟨i, hi, hself, rfl⟩
      · rintro ⟨j, hj, hvalue, hjk⟩
        obtain ⟨c, hc, hck⟩ := Option.map_eq_some_iff.mp ((hmap j).symm.trans (congrArg _ hvalue))
        obtain rfl := h.distinct j i c old hj hi hc hold (hck.trans (hjk.trans hkey.symm))
        exact hself.symm.trans hvalue
    · rw [Function.update_of_ne hk, h.stored_iff]
      refine exists_congr fun j => and_congr_right fun hj => ?_
      rcases eq_or_ne j i with rfl | hji
      · rw [hold, hself]
        constructor
        · rintro ⟨heq, rfl⟩
          obtain rfl := Option.some.inj heq
          exact absurd hkey hk
        · rintro ⟨heq, rfl⟩
          obtain rfl := Option.some.inj heq
          exact absurd rfl hk
      · rw [hother j hji]

/-- **A new entry for a key that has none.** -/
theorem push [DecidableEq κ] (h : Keeps key bucket T stored) (hroom : T.count < T.nodes.length)
    (hnew : stored (key a) = none) :
    Keeps key bucket (T.push key bucket a) (Function.update stored (key a) (some a)) := by
  have hself : (T.push key bucket a).nodes[T.count]? =
      some ⟨a, T.start (bucket (key a))⟩ := by
    simp [Table.push, hroom]
  have hget (i : ℕ) (hi : i < T.count) : (T.push key bucket a).nodes[i]? = T.nodes[i]? := by
    unfold Table.push
    rw [List.getElem?_set_ne (Nat.ne_of_gt hi)]
  have hvalue (i : ℕ) (hi : i < T.count) : (T.push key bucket a).valueAt i = T.valueAt i :=
    congrArg (Option.map Node.value) (hget i hi)
  have hlast : (T.push key bucket a).valueAt T.count = some a := by rw [Table.valueAt, hself]; rfl
  have hfresh (i : ℕ) (b : α) (hi : i < T.count) (hb : T.valueAt i = some b) : key b ≠ key a := by
    intro heq
    have hsome := (h.stored_iff (key a) b).mpr ⟨i, hi, hb, heq⟩
    rw [hnew] at hsome
    cases hsome
  have hmembers (b : β) : (T.push key bucket a).members key bucket b =
      if bucket (key a) = b then T.count :: T.members key bucket b
      else T.members key bucket b := by
    have hcongr : (List.range T.count).reverse.filter (fun i =>
          ((T.push key bucket a).valueAt i).map (bucket ∘ key) = some b) =
        T.members key bucket b := by
      apply List.filter_congr
      intro i hi
      rw [hvalue i (List.mem_range.mp (List.mem_reverse.mp hi))]
    unfold Table.members at hcongr ⊢
    rw [show (T.push key bucket a).count = T.count + 1 from rfl, List.range_succ,
      List.reverse_append, List.reverse_singleton, List.singleton_append, List.filter_cons, hcongr,
      hlast]
    simp
  constructor
  · simpa [Table.push] using Nat.succ_le_of_lt hroom
  · intro i j b c hi hj hb hc hbc
    rcases Nat.eq_or_lt_of_le (Nat.le_of_lt_succ hi) with rfl | hi
    · rcases Nat.eq_or_lt_of_le (Nat.le_of_lt_succ hj) with rfl | hj
      · rfl
      · rw [hvalue j hj] at hc
        obtain rfl := Option.some.inj (hlast.symm.trans hb)
        exact absurd hbc.symm (hfresh j c hj hc)
    · rw [hvalue i hi] at hb
      rcases Nat.eq_or_lt_of_le (Nat.le_of_lt_succ hj) with rfl | hj
      · obtain rfl := Option.some.inj (hlast.symm.trans hc)
        exact absurd hbc (hfresh i b hi hb)
      · rw [hvalue j hj] at hc
        exact h.distinct i j b c hi hj hb hc hbc
  · intro b
    have hold := Chained.congr (h.chain b) fun i hi => by
      rw [hget i (mem_members.mp hi).1]
    have hstart : (T.push key bucket a).start =
        Function.update T.start (bucket (key a)) (some T.count) := rfl
    rw [hmembers b, hstart]
    split
    · rename_i heq
      subst heq
      rw [Function.update_self]
      exact ⟨rfl, _, hself, hold⟩
    · rename_i hne
      rw [Function.update_of_ne (Ne.symm hne)]
      exact hold
  · intro k b
    rcases eq_or_ne k (key a) with rfl | hk
    · rw [Function.update_self]
      constructor
      · intro hb
        obtain rfl := Option.some.inj hb
        exact ⟨T.count, Nat.lt_succ_self _, hlast, rfl⟩
      · rintro ⟨j, hj, hb, hjk⟩
        rcases Nat.eq_or_lt_of_le (Nat.le_of_lt_succ hj) with rfl | hj
        · exact hlast.symm.trans hb
        · rw [hvalue j hj] at hb
          exact absurd hjk (hfresh j b hj hb)
    · rw [Function.update_of_ne hk, h.stored_iff]
      constructor
      · rintro ⟨j, hj, hb, hjk⟩
        exact ⟨j, Nat.lt_succ_of_lt hj, (hvalue j hj).trans hb, hjk⟩
      · rintro ⟨j, hj, hb, hjk⟩
        rcases Nat.eq_or_lt_of_le (Nat.le_of_lt_succ hj) with rfl | hj
        · obtain rfl := Option.some.inj (hlast.symm.trans hb)
          exact absurd hjk.symm hk
        · exact ⟨j, hj, (hvalue j hj).symm.trans hb, hjk⟩

end Keeps

end FrontChain
