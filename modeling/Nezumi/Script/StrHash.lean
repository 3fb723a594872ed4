import Nezumi.Lib.HashChain
import Nezumi.Lib.Sizes
import Nezumi.Script.TwoRuns

/-!
# The string table with its chains (`map/script.c`)

`Compiler.addStr` and `addStr` look for a name in the whole table. The source links the names of one
hash value through `next` and looks at one chain.

* `StrHash` is `str_hash`, `str` and `next` of `str_data`, and `str_num`. `str` is the name itself.
* `StrHash.addStr_eq`: on a table that holds a list of names `add_str` does what `addStr` does to
  the list.
* `Interns r`: what the run promises, for every name that has been entered.
* `interns_iff`: it is kept if and only if no name is entered in two spellings. `add_str` compares
  the name in small letters, but enters it as it is, and `search_str` compares it as it is.
-/

namespace Nezumi

open HashChain

/-- One round of `calc_hash`. -/
def hashRound (h : Int32) (b : UInt8) : Int32 :=
  (h <<< 1) + (h >>> 3) + (h >>> 5) + (h >>> 8) + Int32.ofNat b.toNat

/-- `calc_hash` -/
def calcHash (p : VarName) : Fin 16 := Fin.ofNat 16 (p.foldl hashRound 0 &&& 15).toInt.toNat

structure StrHash where
  table : Table VarName (Fin 16) := { start := fun _ => 0, next := fun _ => 0, key := fun _ => [] }
  strNum : ℕ := labelStart

namespace StrHash

variable (t : StrHash) (p : VarName)

/-- `search_str` -/
def searchStr : Option ℤ :=
  (find t.table p (t.strNum + 1) (t.table.start (calcHash p))).map fun i : ℕ =>
    if i = 0 then (-1 : ℤ) else i

/-- A new entry behind entry `i`, or as the first one of its chain. -/
def newStr (i : Option ℕ) : StrHash :=
  { table :=
      { start := i.elim (Function.update t.table.start (calcHash p) t.strNum) fun _ => t.table.start
        next := Function.update
          (i.elim t.table.next fun i => Function.update t.table.next i t.strNum) t.strNum 0
        key := Function.update t.table.key t.strNum p }
    strNum := t.strNum + 1 }

/-- `add_str` -/
def addStr : Option (ℤ × StrHash) := do
  let i ← t.searchStr (p.map toLower)
  if 0 ≤ i then return (i, t)
  if t.table.start (calcHash p) = 0 then return (t.strNum, t.newStr p none)
  let (i, found) ← last t.table p (t.strNum + 1) (t.table.start (calcHash p))
  if found then return (i, t)
  return (t.strNum, t.newStr p (some i))

/-- The table holds the names of a list. -/
structure HoldsNames (strs : StrTable) : Prop where
  chains : HashChain.Holds calcHash t.table labelStart strs
  num : t.strNum = labelStart + strs.length

end StrHash

/-! ## Runs -/

inductive StrCall
  | add (p : VarName)
  | search (p : VarName)
deriving DecidableEq

/-- The table, with the names that have been entered and what `add_str` has returned. -/
structure StrRun where
  table : StrHash := {}
  added : List (VarName × ℤ) := []

namespace StrRun

def step (r : StrRun) : StrCall → Option StrRun
  | .add p => (r.table.addStr p).map fun (i, table) => { table, added := r.added ++ [(p, i)] }
  | .search p => (r.table.searchStr p).map fun _ => r

def exec (calls : List StrCall) : Option StrRun := calls.foldlM step {}

/-- Names that differ in the case of letters only have one index, other names have different ones,
and `search_str` finds each of them. -/
def Interns (r : StrRun) : Prop :=
  (∀ p ∈ r.added, ∀ q ∈ r.added, p.1.map toLower = q.1.map toLower ↔ p.2 = q.2) ∧
    ∀ p ∈ r.added, r.table.searchStr p.1 = some p.2

end StrRun

/-- The names that are entered. -/
def addedNames (calls : List StrCall) : List VarName :=
  calls.filterMap fun | .add p => some p | .search _ => none

/-- No name is entered in two spellings. -/
def OneSpelling (calls : List StrCall) : Prop :=
  ∀ p ∈ addedNames calls, ∀ q ∈ addedNames calls, p.map toLower = q.map toLower → p = q

instance (calls : List StrCall) : Decidable (OneSpelling calls) :=
  inferInstanceAs (Decidable (∀ p ∈ addedNames calls, _))

/-! ## One call -/

namespace StrHash

variable {t : StrHash} {strs : StrTable} {p : VarName}

/-- `search_str` finds the entry of the name. -/
theorem searchStr_eq (h : t.HoldsNames strs) (p : VarName) :
    t.searchStr p =
      some (if p ∈ strs then ((labelStart + strs.idxOf p : ℕ) : ℤ) else -1) := by
  unfold searchStr
  rw [h.chains.find_eq (by rw [h.num]; omega), Option.map_some]
  by_cases hp : p ∈ strs
  · rw [if_pos hp, if_pos hp, if_neg (by unfold labelStart; omega)]
  · rw [if_neg hp, if_neg hp, if_pos rfl]

/-- What is left of `add_str` when the name has no entry. -/
theorem HoldsNames.newStr (h : t.HoldsNames strs) (hp : p ∉ strs) : ∃ t',
    (if t.table.start (calcHash p) = 0 then some ((t.strNum : ℤ), t.newStr p none)
    else (last t.table p (t.strNum + 1) (t.table.start (calcHash p))).bind fun (i, found) =>
      if found then some ((i : ℤ), t) else some ((t.strNum : ℤ), t.newStr p (some i))) =
      some ((t.strNum : ℤ), t') ∧ t'.HoldsNames (strs ++ [p]) := by
  have hnum (i : Option ℕ) : (t.newStr p i).strNum = labelStart + (strs ++ [p]).length := by
    rw [List.length_append, List.length_singleton]
    exact congrArg (· + 1) h.num
  by_cases hstart : t.table.start (calcHash p) = 0
  · refine ⟨t.newStr p none, if_pos hstart, ?_, hnum none⟩
    unfold StrHash.newStr
    rw [h.num]
    exact h.chains.start (h.chains.start_eq_zero.mp hstart)
  · have hl := mt h.chains.start_eq_zero.mpr hstart
    refine ⟨t.newStr p (some ((members calcHash labelStart strs (calcHash p)).getLast hl)), ?_, ?_,
      hnum _⟩
    · rw [if_neg hstart, h.chains.last_eq hp hl (by rw [h.num]; omega)]
      rfl
    · unfold StrHash.newStr
      rw [h.num]
      exact h.chains.link hl

/-- `add_str` does to the table what it does to the list of the names. -/
theorem addStr_eq (h : t.HoldsNames strs) (p : VarName) : ∃ t',
    t.addStr p = some (((labelStart + (Nezumi.addStr strs p).1 : ℕ) : ℤ), t') ∧
      t'.HoldsNames (Nezumi.addStr strs p).2 := by
  have hloop : t.addStr p = (t.searchStr (p.map toLower)).bind fun i =>
      if 0 ≤ i then some (i, t)
      else if t.table.start (calcHash p) = 0 then some ((t.strNum : ℤ), t.newStr p none)
      else (last t.table p (t.strNum + 1) (t.table.start (calcHash p))).bind fun (i, found) =>
        if found then some ((i : ℤ), t) else some ((t.strNum : ℤ), t.newStr p (some i)) := rfl
  rw [hloop, searchStr_eq h]
  unfold Nezumi.addStr
  by_cases hlow : p.map toLower ∈ strs
  · rw [if_pos hlow, if_pos hlow, Option.bind_some, if_pos (by omega)]
    exact ⟨t, rfl, h⟩
  · rw [if_neg hlow, if_neg hlow, Option.bind_some, if_neg (by omega)]
    by_cases hp : p ∈ strs
    · -- the name has no entry in small letters, but one as it is
      have hstart := mt h.chains.start_eq_zero.mp (h.chains.members_ne_nil hp)
      rw [if_neg hstart, h.chains.last_mem hp (by rw [h.num]; omega), if_pos hp]
      exact ⟨t, rfl, h⟩
    · obtain ⟨t', heq, ht'⟩ := h.newStr hp
      rw [if_neg hp]
      refine ⟨t', heq.trans ?_, ht'⟩
      rw [h.num]

/-- The compiler's table is the list of the names. -/
theorem addStr_compiler {c : Compiler} (hc : labelStart ≤ c.strNum) (h : t.HoldsNames (strNames c))
    (p : VarName) : ∃ t', t.addStr p = some (((c.addStr p).1 : ℤ), t') ∧
      t'.HoldsNames (strNames (c.addStr p).2) := by
  rw [(addStr_strNames hc p).1, (addStr_strNames hc p).2]
  exact addStr_eq h p

theorem holdsNames_nil : ({} : StrHash).HoldsNames [] where
  chains := ⟨by decide, fun _ hp => absurd hp List.not_mem_nil, fun _ => rfl⟩
  num := rfl

end StrHash

/-! ## Every run -/

namespace StrRun

variable {r r' : StrRun} {strs : StrTable} {calls : List StrCall}

/-- The table holds the names of a list, all of which have been entered, and the index of each name
that has been entered is that of one of its spellings. -/
structure Logged (r : StrRun) (strs : StrTable) (calls : List StrCall) : Prop where
  holds : r.table.HoldsNames strs
  nodup : strs.Nodup
  names : r.added.map Prod.fst = addedNames calls
  mem : ∀ p ∈ strs, p ∈ addedNames calls
  entry : ∀ e ∈ r.added, ∃ k q, strs[k]? = some q ∧ q.map toLower = e.1.map toLower ∧
    e.2 = ((labelStart + k : ℕ) : ℤ)

theorem logged_nil : Logged {} [] [] where
  holds := StrHash.holdsNames_nil
  nodup := List.nodup_nil
  names := rfl
  mem _ hp := absurd hp List.not_mem_nil
  entry _ h := absurd h List.not_mem_nil

theorem addedNames_append (calls : List StrCall) (call : StrCall) :
    addedNames (calls ++ [call]) = addedNames calls ++ addedNames [call] :=
  List.filterMap_append ..

theorem map_toLower_resolve (strs : StrTable) (p : VarName) :
    (resolve strs p).map toLower = p.map toLower := by
  unfold resolve
  split
  · exact map_toLower_idem p
  · rfl

/-- One call keeps what is known of the table. -/
theorem Logged.step (h : r.Logged strs calls) (call : StrCall) :
    ∃ r' strs', r.step call = some r' ∧ r'.Logged strs' (calls ++ [call]) := by
  cases call with
  | search p =>
    refine ⟨r, strs, ?_, { h with names := ?_, mem := ?_ }⟩
    · change (r.table.searchStr p).map _ = _
      rw [StrHash.searchStr_eq h.holds, Option.map_some]
    · rw [addedNames_append, h.names]
      exact (List.append_nil _).symm
    · rw [addedNames_append]
      exact fun p hp => List.mem_append_left _ (h.mem p hp)
  | add p =>
    obtain ⟨t', heq, ht'⟩ := StrHash.addStr_eq h.holds p
    have hnames : addedNames (calls ++ [StrCall.add p]) = addedNames calls ++ [p] :=
      addedNames_append _ _
    refine ⟨_, (addStr strs p).2, congrArg (Option.map _) heq,
      ⟨ht', nodup_addStr h.nodup, ?_, ?_, ?_⟩⟩
    · rw [hnames, ← h.names]
      exact List.map_append
    · intro q hq
      rw [hnames]
      rcases mem_addStr.mp hq with hq | rfl
      · exact List.mem_append_left _ (h.mem q hq)
      · unfold resolve
        split
        · rename_i hlow
          exact List.mem_append_left _ (h.mem _ hlow)
        · exact List.mem_append_right _ (List.mem_singleton_self p)
    · intro e he
      rcases List.mem_append.mp he with he | he
      · obtain ⟨k, q, hk, hq, hidx⟩ := h.entry e he
        obtain ⟨new, hnew⟩ := prefix_addStr strs p
        refine ⟨k, q, ?_, hq, hidx⟩
        rw [← hnew, List.getElem?_append_left (List.getElem?_eq_some_iff.mp hk).1]
        exact hk
      · obtain rfl := List.mem_singleton.mp he
        exact ⟨_, _, getElem?_addStr strs p, map_toLower_resolve strs p, rfl⟩

/-- Every run ends, with what is known of the table. -/
theorem exec_logged (calls : List StrCall) :
    ∃ r strs, exec calls = some r ∧ r.Logged strs calls := by
  induction calls using List.reverseRecOn with
  | nil => exact ⟨_, _, rfl, logged_nil⟩
  | append_singleton calls call ih =>
    obtain ⟨r, strs, hexec, hr⟩ := ih
    obtain ⟨r', strs', hstep, hr'⟩ := hr.step call
    refine ⟨r', strs', ?_, hr'⟩
    unfold exec at hexec ⊢
    rw [List.foldlM_append, hexec]
    change (r.step call).bind some = _
    rw [hstep, Option.bind_some]

/-- What `search_str` finds of a name that has been entered. -/
theorem Logged.search (h : r.Logged strs calls) {e : VarName × ℤ} (he : e ∈ r.added)
    (hsearch : r.table.searchStr e.1 = some e.2) :
    e.1 ∈ strs ∧ e.2 = ((labelStart + strs.idxOf e.1 : ℕ) : ℤ) := by
  obtain ⟨k, -, -, -, hidx⟩ := h.entry e he
  rw [StrHash.searchStr_eq h.holds] at hsearch
  have heq := Option.some.inj hsearch
  split at heq
  · rename_i hmem
    exact ⟨hmem, heq.symm⟩
  · omega

/-- A name of which there is one spelling is in the table as it is. -/
theorem Logged.found (h : r.Logged strs calls) (hone : OneSpelling calls) {e : VarName × ℤ}
    (he : e ∈ r.added) : e.1 ∈ strs ∧ e.2 = ((labelStart + strs.idxOf e.1 : ℕ) : ℤ) := by
  obtain ⟨k, q, hk, hq, hidx⟩ := h.entry e he
  have hadded : e.1 ∈ addedNames calls := h.names ▸ List.mem_map_of_mem he
  obtain rfl := hone q (h.mem q (List.mem_of_getElem? hk)) e.1 hadded hq
  obtain ⟨hlt, hget⟩ := List.getElem?_eq_some_iff.mp hk
  have hidxOf : strs.idxOf e.1 = k := by
    rw [← hget]
    exact h.nodup.idxOf_getElem k hlt
  exact ⟨List.mem_of_getElem? hk, by rw [hidxOf, hidx]⟩

/-- The table keeps its promise if and only if no name has been entered in two spellings. -/
theorem Logged.interns_iff (h : r.Logged strs calls) : r.Interns ↔ OneSpelling calls := by
  constructor
  · rintro ⟨hsame, hsearch⟩ p hp q hq hpq
    rw [← h.names] at hp hq
    obtain ⟨e, he, rfl⟩ := List.mem_map.mp hp
    obtain ⟨e', he', rfl⟩ := List.mem_map.mp hq
    obtain ⟨hmem, hidx⟩ := h.search he (hsearch e he)
    obtain ⟨-, hidx'⟩ := h.search he' (hsearch e' he')
    have heq := (hsame e he e' he').mp hpq
    rw [hidx, hidx'] at heq
    exact (List.idxOf_inj hmem).mp (by omega)
  · intro hone
    refine ⟨fun e he e' he' => ?_, fun e he => ?_⟩
    · obtain ⟨hmem, hidx⟩ := h.found hone he
      obtain ⟨-, hidx'⟩ := h.found hone he'
      have hadded {e : VarName × ℤ} (he : e ∈ r.added) : e.1 ∈ addedNames calls :=
        h.names ▸ List.mem_map_of_mem he
      constructor
      · intro heq
        rw [hidx, hidx', hone _ (hadded he) _ (hadded he') heq]
      · intro heq
        rw [hidx, hidx'] at heq
        have hname : e.1 = e'.1 := (List.idxOf_inj hmem).mp (by omega)
        rw [hname]
    · obtain ⟨hmem, hidx⟩ := h.found hone he
      rw [StrHash.searchStr_eq h.holds, if_pos hmem, hidx]

end StrRun

/-- At each point of every run `add_str` and `search_str` keep their promise. -/
def Interning (calls : List StrCall) : Prop :=
  ∀ pre, pre <+: calls → ∃ r, StrRun.exec pre = some r ∧ r.Interns

theorem OneSpelling.of_prefix {pre calls : List StrCall} (h : OneSpelling calls)
    (hpre : pre <+: calls) : OneSpelling pre := by
  obtain ⟨rest, rfl⟩ := hpre
  have hmem {p : VarName} (hp : p ∈ addedNames pre) : p ∈ addedNames (pre ++ rest) := by
    unfold addedNames
    rw [List.filterMap_append]
    exact List.mem_append_left _ hp
  exact fun p hp q hq => h p (hmem hp) q (hmem hq)

/-- **The string table is an interner** if and only if no name is entered in two spellings. -/
theorem interning_iff (calls : List StrCall) : Interning calls ↔ OneSpelling calls := by
  constructor
  · intro h
    obtain ⟨r, hexec, hinterns⟩ := h calls List.prefix_rfl
    obtain ⟨r', strs, hexec', hr⟩ := StrRun.exec_logged calls
    obtain rfl := Option.some.inj (hexec.symm.trans hexec')
    exact hr.interns_iff.mp hinterns
  · intro h pre hpre
    obtain ⟨r, strs, hexec, hr⟩ := StrRun.exec_logged pre
    exact ⟨r, hexec, hr.interns_iff.mpr (h.of_prefix hpre)⟩

/-- `@Ab` and then `@ab`: the second name gets an entry of its own. -/
theorem not_interning_spellings :
    ¬ Interning [.add [64, 65, 98], .add [64, 97, 98]] := by
  intro h
  obtain ⟨r, hexec, hsame, -⟩ := h _ List.prefix_rfl
  have hadded : (StrRun.exec [.add [64, 65, 98], .add [64, 97, 98]]).map
      StrRun.added = some [([64, 65, 98], 2), ([64, 97, 98], 3)] := by
    decide
  rw [hexec] at hadded
  have hr : r.added = [([64, 65, 98], 2), ([64, 97, 98], 3)] :=
    Option.some.inj hadded
  rw [hr] at hsame
  have heq := (hsame _ List.mem_cons_self _ (List.mem_cons_of_mem _ List.mem_cons_self)).mp
    (by decide)
  exact absurd heq (by decide)

end Nezumi
