import Nezumi.Party.Party

/-!
# What the functions of the parties do

* `InParty`: who is listed in which party of a table. `inParty_put`, `inParty_erase`.
* `PartiesOk`: a well-formed table of the char-server. A character has one entry in a party at most.
* `parsePartyAddMember_cases`, `parsePartyLeave_cases`: what a call does to the table and what it
  sends; `PartiesOk.added`, `PartiesOk.removed`: the table stays well-formed.
* `partyCheckConflictSub_eq`: the check of one party is at most one call to `parsePartyLeave`.
-/

namespace Nezumi

/-- A party lists a character. -/
def Party.Lists (p : Party) (c : Int × String) : Prop := ∃ i, (p.member i).key = c

/-- A table has a party that lists a character. -/
def InParty (db : List Party) (c : Int × String) (partyId : Int) : Prop :=
  ∃ p ∈ db, p.partyId = partyId ∧ p.Lists c

instance (p : Party) (c : Int × String) : Decidable (p.Lists c) :=
  inferInstanceAs (Decidable (∃ i, (p.member i).key = c))

instance (db : List Party) (c : Int × String) (partyId : Int) :
    Decidable (InParty db c partyId) :=
  inferInstanceAs (Decidable (∃ p ∈ db, p.partyId = partyId ∧ p.Lists c))

/-- A table of the char-server. -/
structure PartiesOk (db : List Party) : Prop where
  keys : (db.map Party.partyId).Nodup
  ne_zero : ∀ p ∈ db, p.partyId ≠ 0
  nonneg : ∀ p ∈ db, ∀ i, 0 ≤ (p.member i).accountId
  once : ∀ p ∈ db, ∀ i j, (p.member i).key = (p.member j).key → (p.member i).accountId ≠ 0 → i = j

/-! ## Tables -/

section Tables

variable {db : List Party} {p q : Party} {c : Int × String} {P Q : Int}

theorem partySearch_mem (h : partySearch db P = some p) : p ∈ db ∧ p.partyId = P :=
  ⟨List.mem_of_find?_eq_some h, by simpa using List.find?_some h⟩

theorem partySearch_none : partySearch db P = none ↔ ∀ p ∈ db, p.partyId ≠ P := by
  simp [partySearch]

theorem PartiesOk.search (h : PartiesOk db) (hp : p ∈ db) : partySearch db p.partyId = some p := by
  cases hs : partySearch db p.partyId with
  | none => exact absurd rfl (partySearch_none.mp hs p hp)
  | some q =>
    obtain ⟨hq, hid⟩ := partySearch_mem hs
    exact congrArg some (List.inj_on_of_nodup_map h.keys hq hp hid)

theorem mem_partyPut : q ∈ partyPut db p ↔
    (q = p ∧ ∃ r ∈ db, r.partyId = p.partyId) ∨ (q ∈ db ∧ q.partyId ≠ p.partyId) := by
  simp only [partyPut, List.mem_map]
  constructor
  · rintro ⟨r, hr, rfl⟩
    by_cases h : r.partyId = p.partyId
    · simp only [h, if_pos]
      exact .inl ⟨trivial, r, hr, h⟩
    · simp only [h, if_false]
      exact .inr ⟨hr, h⟩
  · rintro (⟨rfl, r, hr, h⟩ | ⟨hq, h⟩)
    · exact ⟨r, hr, if_pos h⟩
    · exact ⟨q, hq, if_neg h⟩

theorem mem_partyErase : q ∈ partyErase db P ↔ q ∈ db ∧ q.partyId ≠ P := by
  simp [partyErase]

theorem partyPut_keys : (partyPut db p).map Party.partyId = db.map Party.partyId := by
  rw [partyPut, List.map_map]
  refine List.map_congr_left fun q _ => ?_
  by_cases h : q.partyId = p.partyId <;> simp [h]

theorem inParty_put : InParty (partyPut db p) c Q ↔
    if Q = p.partyId then p.Lists c ∧ ∃ r ∈ db, r.partyId = Q else InParty db c Q := by
  split
  · rename_i hQ
    subst hQ
    constructor
    · rintro ⟨q, hq, hid, hl⟩
      obtain ⟨rfl, hr⟩ | ⟨-, hne⟩ := mem_partyPut.mp hq
      · exact ⟨hl, hr⟩
      · exact absurd hid hne
    · rintro ⟨hl, hr⟩
      exact ⟨p, mem_partyPut.mpr (.inl ⟨rfl, hr⟩), rfl, hl⟩
  · rename_i hQ
    constructor
    · rintro ⟨q, hq, hid, hl⟩
      obtain ⟨rfl, -⟩ | ⟨hq, -⟩ := mem_partyPut.mp hq
      · exact absurd hid.symm hQ
      · exact ⟨q, hq, hid, hl⟩
    · rintro ⟨q, hq, hid, hl⟩
      exact ⟨q, mem_partyPut.mpr (.inr ⟨hq, fun h => hQ (hid.symm.trans h)⟩), hid, hl⟩

theorem inParty_erase : InParty (partyErase db P) c Q ↔ InParty db c Q ∧ Q ≠ P := by
  constructor
  · rintro ⟨q, hq, rfl, hl⟩
    obtain ⟨hq, hne⟩ := mem_partyErase.mp hq
    exact ⟨⟨q, hq, rfl, hl⟩, hne⟩
  · rintro ⟨⟨q, hq, rfl, hl⟩, hne⟩
    exact ⟨q, mem_partyErase.mpr ⟨hq, hne⟩, rfl, hl⟩

theorem PartiesOk.inParty (h : PartiesOk db) (hp : p ∈ db) :
    InParty db c p.partyId ↔ p.Lists c := by
  constructor
  · rintro ⟨q, hq, hid, hl⟩
    rwa [← List.inj_on_of_nodup_map h.keys hq hp hid]
  · exact fun hl => ⟨p, hp, rfl, hl⟩

theorem PartiesOk.erase (h : PartiesOk db) (P : Int) : PartiesOk (partyErase db P) := by
  have hsub : ∀ q ∈ partyErase db P, q ∈ db := fun q hq => (mem_partyErase.mp hq).1
  refine ⟨h.keys.sublist (List.filter_sublist.map _), fun q hq => h.ne_zero q (hsub q hq),
    fun q hq => h.nonneg q (hsub q hq), fun q hq => h.once q (hsub q hq)⟩

theorem PartiesOk.put (h : PartiesOk db) (hp : p.partyId ≠ 0)
    (hnonneg : ∀ i, 0 ≤ (p.member i).accountId)
    (honce : ∀ i j, (p.member i).key = (p.member j).key → (p.member i).accountId ≠ 0 → i = j) :
    PartiesOk (partyPut db p) := by
  refine ⟨by rw [partyPut_keys]; exact h.keys, fun q hq => ?_, fun q hq => ?_, fun q hq => ?_⟩
  all_goals obtain ⟨rfl, -⟩ | ⟨hq, -⟩ := mem_partyPut.mp hq
  · exact hp
  · exact h.ne_zero q hq
  · exact hnonneg
  · exact h.nonneg q hq
  · exact honce
  · exact h.once q hq

/-- Two tables with the same parties and entries list the same characters. -/
theorem Party.lists_congr (h : p.member = q.member) : p.Lists c ↔ q.Lists c := by
  rw [Party.Lists, h, Party.Lists]

end Tables

/-! ## A new member -/

section AddMember

variable {conf : Int} {db : List Party} {P a : Int} {nick map : String} {lv : Int}

/-- An entry is written into the first free place, or the answer is a refusal. -/
theorem parsePartyAddMember_cases (conf : Int) (db : List Party) (P a : Int) (nick map : String)
    (lv : Int) :
    parsePartyAddMember conf db P a nick map lv = (db, [.memberAdded P a 1]) ∨
    ∃ p ∈ db, ∃ i q p' out m, p.partyId = P ∧ (p.member i).accountId = 0 ∧ m.key = (a, nick) ∧
      q.partyId = P ∧ q.member = Function.update p.member i m ∧
      p'.partyId = P ∧ p'.member = q.member ∧
      (∀ x ∈ out, ∃ exp item, x = .optionChanged P 0 exp item 0) ∧
      parsePartyAddMember conf db P a nick map lv =
        (partyPut db q, .memberAdded P a 0 :: .info p' :: out) := by
  unfold parsePartyAddMember
  cases hs : partySearch db P with
  | none => exact .inl rfl
  | some p =>
    obtain ⟨hp, hid⟩ := partySearch_mem hs
    dsimp only
    cases hi : Slots.first (fun m => m.accountId = 0) p.member with
    | none => exact .inl rfl
    | some i =>
      have hzero : (p.member i).accountId = 0 := by simpa using Slots.first_some hi
      refine .inr ⟨p, hp, i, ?_⟩
      dsimp only
      set m : PartyMember := { p.member i with
        accountId := a, name := nick, map, leader := false, online := true, lv }
      set p' : Party := { p with member := Function.update p.member i m }
      split
      · exact ⟨{ p' with exp := 0 }, p', [.optionChanged P 0 0 p.item 0], m, hid, hzero, rfl, hid,
          rfl, hid, rfl, fun x hx => ⟨0, p.item, List.mem_singleton.mp hx⟩, rfl⟩
      · exact ⟨p', p', [], m, hid, hzero, rfl, hid, rfl, hid, rfl,
          fun x hx => absurd hx List.not_mem_nil, rfl⟩

theorem lists_update {p q : Party} {i : Fin maxParty} {m : PartyMember} {c : Int × String}
    (hq : q.member = Function.update p.member i m) (hi : (p.member i).accountId = 0)
    (hc : c.1 ≠ 0) : q.Lists c ↔ p.Lists c ∨ m.key = c := by
  constructor
  · rintro ⟨j, hj⟩
    rw [hq] at hj
    by_cases hji : j = i
    · subst hji
      rw [Function.update_self] at hj
      exact .inr hj
    · rw [Function.update_of_ne hji] at hj
      exact .inl ⟨j, hj⟩
  · rintro (⟨j, hj⟩ | hm)
    · have hji : j ≠ i := by
        rintro rfl
        exact hc (hj ▸ hi)
      exact ⟨j, by rw [hq, Function.update_of_ne hji, hj]⟩
    · exact ⟨i, by rw [hq, Function.update_self, hm]⟩

/-- The table with a new entry. -/
theorem PartiesOk.added {p q : Party} {i : Fin maxParty} {m : PartyMember} (h : PartiesOk db)
    (hp : p ∈ db) (hid : q.partyId = p.partyId) (hq : q.member = Function.update p.member i m)
    (hpos : 0 ≤ m.accountId) (hnew : ¬ p.Lists m.key) : PartiesOk (partyPut db q) := by
  refine h.put (hid ▸ h.ne_zero p hp) (fun j => ?_) fun j k => ?_
  · rw [hq]
    by_cases hj : j = i
    · rwa [hj, Function.update_self]
    · rw [Function.update_of_ne hj]
      exact h.nonneg p hp j
  · rw [hq]
    by_cases hj : j = i <;> by_cases hk : k = i
    · exact fun _ _ => hj.trans hk.symm
    · subst hj
      rw [Function.update_self, Function.update_of_ne hk]
      exact fun e => absurd ⟨k, e.symm⟩ hnew
    · subst hk
      rw [Function.update_self, Function.update_of_ne hj]
      exact fun e => absurd ⟨j, e⟩ hnew
    · rw [Function.update_of_ne hj, Function.update_of_ne hk]
      exact h.once p hp j k

theorem inParty_added {p q : Party} {i : Fin maxParty} {m : PartyMember} {c : Int × String} {Q : Int}
    (h : PartiesOk db) (hp : p ∈ db) (hid : q.partyId = p.partyId)
    (hq : q.member = Function.update p.member i m) (hi : (p.member i).accountId = 0) (hc : c.1 ≠ 0) :
    InParty (partyPut db q) c Q ↔ InParty db c Q ∨ Q = p.partyId ∧ m.key = c := by
  rw [inParty_put, hid]
  split
  · rename_i hQ
    subst hQ
    rw [lists_update hq hi hc, h.inParty hp]
    exact ⟨fun h => h.1.imp_right fun h => ⟨rfl, h⟩,
      fun h => ⟨h.imp_right fun h => h.2, p, hp, rfl⟩⟩
  · rename_i hQ
    exact ⟨Or.inl, fun h => h.resolve_right fun h => hQ h.1⟩

end AddMember

/-! ## A member leaves -/

section Leave

variable {db : List Party} {P a : Int}

/-- The first entry of the account is cleared, and a party without members is broken up. -/
theorem parsePartyLeave_cases (db : List Party) (P a : Int) (h : PartiesOk db) :
    (parsePartyLeave db P a = (db, []) ∧ ∀ p ∈ db, p.partyId = P → ∀ i, (p.member i).accountId ≠ a) ∨
    ∃ p ∈ db, ∃ i, p.partyId = P ∧ Slots.first (fun m => m.accountId = a) p.member = some i ∧
      ((parsePartyLeave db P a = (partyErase (partyPut db { p with
            member := Function.update p.member i {} }) P,
          [.memberLeaved P a (p.member i).name, .broken P]) ∧
        ∀ j, ¬ 0 < (Function.update p.member i {} j).accountId) ∨
      parsePartyLeave db P a = (partyPut db { p with member := Function.update p.member i {} },
        [.memberLeaved P a (p.member i).name,
          .info { p with member := Function.update p.member i {} }])) := by
  unfold parsePartyLeave
  cases hs : partySearch db P with
  | none => exact .inl ⟨rfl, fun p hp hid => absurd hid (partySearch_none.mp hs p hp)⟩
  | some p =>
    obtain ⟨hp, hid⟩ := partySearch_mem hs
    dsimp only
    cases hi : Slots.first (fun m => m.accountId = a) p.member with
    | none =>
      refine .inl ⟨rfl, fun q hq hqid j => ?_⟩
      rw [List.inj_on_of_nodup_map h.keys hq hp (hqid.trans hid.symm)]
      simpa using Slots.first_eq_none_iff.mp hi j
    | some i =>
      refine .inr ⟨p, hp, i, hid, hi, ?_⟩
      unfold partyCheckEmpty
      dsimp only
      rw [if_neg (h.ne_zero p hp)]
      cases hf : Slots.first (fun m => (0 : Int) < m.accountId) (Function.update p.member i {}) with
      | none =>
        refine .inl ⟨by rw [hid]; rfl, fun j => ?_⟩
        simpa using Slots.first_eq_none_iff.mp hf j
      | some k => exact .inr rfl

theorem lists_cleared {p : Party} {i : Fin maxParty} {c : Int × String}
    (honce : ∀ i j, (p.member i).key = (p.member j).key → (p.member i).accountId ≠ 0 → i = j)
    (hc : c.1 ≠ 0) :
    Party.Lists { p with member := Function.update p.member i {} } c ↔
      p.Lists c ∧ (p.member i).key ≠ c := by
  constructor
  · rintro ⟨j, hj⟩
    dsimp only at hj
    by_cases hji : j = i
    · rw [hji, Function.update_self] at hj
      exact absurd (congrArg Prod.fst hj).symm hc
    · rw [Function.update_of_ne hji] at hj
      refine ⟨⟨j, hj⟩, fun hi => hji (honce j i (hj.trans hi.symm) ?_)⟩
      rw [← hj] at hc
      exact hc
  · rintro ⟨⟨j, hj⟩, hi⟩
    have hji : j ≠ i := fun h => hi (h ▸ hj)
    exact ⟨j, by dsimp only; rw [Function.update_of_ne hji, hj]⟩

theorem PartiesOk.cleared {p : Party} (h : PartiesOk db) (hp : p ∈ db) (i : Fin maxParty) :
    PartiesOk (partyPut db { p with member := Function.update p.member i {} }) := by
  refine h.put (h.ne_zero p hp) (fun j => ?_) fun j k => ?_
  · dsimp only
    by_cases hj : j = i
    · rw [hj, Function.update_self]
    · rw [Function.update_of_ne hj]
      exact h.nonneg p hp j
  · dsimp only
    by_cases hj : j = i
    · rw [hj, Function.update_self]
      exact fun _ h => absurd rfl h
    · rw [Function.update_of_ne hj]
      by_cases hk : k = i
      · rw [hk, Function.update_self]
        exact fun e hne => absurd (congrArg Prod.fst e) hne
      · rw [Function.update_of_ne hk]
        exact h.once p hp j k

theorem inParty_cleared {p : Party} {i : Fin maxParty} {c : Int × String} {Q : Int}
    (h : PartiesOk db) (hp : p ∈ db) (hc : c.1 ≠ 0) :
    InParty (partyPut db { p with member := Function.update p.member i {} }) c Q ↔
      InParty db c Q ∧ ¬ (Q = p.partyId ∧ (p.member i).key = c) := by
  rw [inParty_put]
  dsimp only
  split
  · rename_i hQ
    subst hQ
    rw [lists_cleared (h.once p hp) hc, h.inParty hp]
    exact ⟨fun ⟨⟨h1, h2⟩, _⟩ => ⟨h1, fun h => h2 h.2⟩,
      fun ⟨h1, h2⟩ => ⟨⟨h1, fun h => h2 ⟨rfl, h⟩⟩, p, hp, rfl⟩⟩
  · rename_i hQ
    exact ⟨fun h => ⟨h, fun h => hQ h.1⟩, fun h => h.1⟩

theorem PartiesOk.leave (h : PartiesOk db) (P a : Int) : PartiesOk (parsePartyLeave db P a).1 := by
  rcases parsePartyLeave_cases db P a h with ⟨e, -⟩ | ⟨p, hp, i, -, -, ⟨e, -⟩ | e⟩
  · rwa [e]
  · rw [e]
    exact (h.cleared hp i).erase P
  · rw [e]
    exact h.cleared hp i

variable {c : Int × String} {Q : Int} {n : String}

/-- What a leave does to the lists: of an account that is in the party, the first entry goes. -/
theorem inParty_leave (h : PartiesOk db) (hc : c.1 ≠ 0) : InParty (parsePartyLeave db P a).1 c Q ↔
    InParty db c Q ∧ ¬ ∃ p ∈ db, ∃ i, p.partyId = P ∧ Q = P ∧
      Slots.first (fun m => m.accountId = a) p.member = some i ∧ (p.member i).key = c := by
  rcases parsePartyLeave_cases db P a h with ⟨e, hno⟩ | ⟨p, hp, i, rfl, hi, hcase⟩
  · rw [e]
    refine ⟨fun hl => ⟨hl, fun ⟨p, hp, i, hid, _, hi, _⟩ => ?_⟩, fun hl => hl.1⟩
    exact hno p hp hid i (by simpa using Slots.first_some hi)
  · have hput : InParty (partyPut db { p with member := Function.update p.member i {} }) c Q ↔
        InParty db c Q ∧ ¬ ∃ q ∈ db, ∃ j, q.partyId = p.partyId ∧ Q = p.partyId ∧
          Slots.first (fun m => m.accountId = a) q.member = some j ∧ (q.member j).key = c := by
      rw [inParty_cleared h hp hc]
      refine and_congr_right fun _ => not_congr ⟨fun ⟨hQ, hk⟩ => ⟨p, hp, i, rfl, hQ, hi, hk⟩, ?_⟩
      rintro ⟨q, hq, j, hid, hQ, hj, hk⟩
      obtain rfl := List.inj_on_of_nodup_map h.keys hq hp hid
      rw [hi] at hj
      cases hj
      exact ⟨hQ, hk⟩
    rcases hcase with ⟨e, hempty⟩ | e
    · rw [e, inParty_erase, ← hput, and_iff_left_iff_imp]
      -- the party that goes has no member left
      rintro hl rfl
      rw [inParty_put, if_pos rfl] at hl
      obtain ⟨⟨j, hj⟩, -⟩ := hl
      have hok := (h.cleared hp i).nonneg _ (mem_partyPut.mpr (.inl ⟨rfl, p, hp, rfl⟩)) j
      have hne : (Function.update p.member i {} j).accountId ≠ 0 := by
        rw [← hj] at hc
        exact hc
      exact hempty j (lt_of_le_of_ne hok hne.symm)
    · rw [e]
      exact hput

/-- The entry that a leave removes is that of the character, if it is listed. -/
def Removes (db : List Party) (a : Int) (n : String) (P : Int) : Prop :=
  ∀ p ∈ db, p.partyId = P → p.Lists (a, n) →
    ∀ i, Slots.first (fun m => m.accountId = a) p.member = some i → (p.member i).name = n

instance (db : List Party) (a : Int) (n : String) (P : Int) : Decidable (Removes db a n P) :=
  inferInstanceAs (Decidable (∀ p ∈ db, p.partyId = P → p.Lists (a, n) →
    ∀ i, Slots.first (fun m => m.accountId = a) p.member = some i → (p.member i).name = n))

theorem Removes.not_inParty (hr : Removes db a n P) (h : PartiesOk db) (ha : a ≠ 0) :
    ¬ InParty (parsePartyLeave db P a).1 (a, n) P := by
  rw [inParty_leave h ha]
  rintro ⟨⟨p, hp, rfl, hl⟩, hno⟩
  obtain ⟨j, hj⟩ := hl
  cases hi : Slots.first (fun m => m.accountId = a) p.member with
  | none =>
    have := Slots.first_eq_none_iff.mp hi j
    simp only [decide_eq_false_iff_not] at this
    exact this (congrArg Prod.fst hj)
  | some i =>
    have ha' : (p.member i).accountId = a := by simpa using Slots.first_some hi
    refine hno ⟨p, hp, i, rfl, rfl, hi, ?_⟩
    rw [PartyMember.key, ha', hr p hp rfl ⟨j, hj⟩ i hi]

end Leave

/-! ## The check of the other parties -/

section Conflict

variable {db : List Party} {a P r : Int} {n : String}

theorem conflictAt_absent {s : List Party × List FromInter} (h : ¬ InParty s.1 (a, n) P)
    (l : List (Fin maxParty)) : l.foldl (partyCheckConflictAt a n P) s = s := by
  induction l with
  | nil => rfl
  | cons i l ih =>
    rw [List.foldl_cons]
    have e : partyCheckConflictAt a n P s i = s := by
      unfold partyCheckConflictAt
      cases hs : partySearch s.1 P with
      | none => rfl
      | some p =>
        obtain ⟨hp, hid⟩ := partySearch_mem hs
        exact if_neg fun hi => h ⟨p, hp, hid, i, Prod.ext hi.1 hi.2⟩
    rw [e, ih]

/-- The first match is the only one: the entry that goes is the character's. -/
theorem conflictAt_listed {p : Party} {j : Fin maxParty} {out : List FromInter} (h : PartiesOk db)
    (ha : a ≠ 0) (hr : Removes db a n p.partyId) (hp : p ∈ db) (hj : (p.member j).key = (a, n))
    {l : List (Fin maxParty)} (hl : j ∈ l) :
    l.foldl (partyCheckConflictAt a n p.partyId) (db, out) =
      ((parsePartyLeave db p.partyId a).1, out ++ (parsePartyLeave db p.partyId a).2) := by
  induction l with
  | nil => cases hl
  | cons i l ih =>
    rw [List.foldl_cons]
    have e : partyCheckConflictAt a n p.partyId (db, out) i =
        if (p.member i).accountId = a ∧ (p.member i).name = n then
          ((parsePartyLeave db p.partyId a).1, out ++ (parsePartyLeave db p.partyId a).2)
        else (db, out) := by
      simp only [partyCheckConflictAt, h.search hp]
    rw [e]
    split
    · exact conflictAt_absent (s := (_, out ++ (parsePartyLeave db p.partyId a).2))
        (hr.not_inParty h ha) l
    · rename_i hi
      refine ih ((List.mem_cons.mp hl).resolve_left ?_)
      rintro rfl
      exact hi ⟨congrArg Prod.fst hj, congrArg Prod.snd hj⟩

/-- The check of a party is a leave, if it is not the character's party and lists the character. -/
theorem partyCheckConflictSub_eq (h : PartiesOk db) (ha : a ≠ 0)
    (hr : P ≠ r → Removes db a n P) : partyCheckConflictSub r a n P db =
      if P ≠ r ∧ InParty db (a, n) P then parsePartyLeave db P a else (db, []) := by
  unfold partyCheckConflictSub
  by_cases hP : P = r
  · rw [if_pos hP, if_neg fun h => h.1 hP]
  · rw [if_neg hP]
    split
    · rename_i hl
      obtain ⟨-, p, hp, rfl, j, hj⟩ := hl
      rw [conflictAt_listed h ha (hr hP) hp hj (List.mem_finRange j)]
      rfl
    · rename_i hl
      exact conflictAt_absent (fun hin => hl ⟨hP, hin⟩) _

end Conflict

end Nezumi
