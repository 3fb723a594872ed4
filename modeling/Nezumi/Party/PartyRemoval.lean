import Nezumi.Lib.Removal
import Nezumi.Party.PartyLemmas

/-!
# Who is removed from a party (`map/party.c`, `char/int_party.c`)

A removal is meant for a character, but the request and its handler on the char-server name an
account alone.

* `PartyRemoval`: `party_check_conflict` for a character, and the removals that a player asks for.
  `meant` is whom it means, `handled` what the servers make of it.
* `listed`: the member at a place of a party.
* `listed_leave`, `listed_checkConflict`: what the handlers do to the places, as removals of slots
  by the account.
* `party_removes_iff`: when exactly those who are meant are removed.
-/

namespace Nezumi

/-- A removal of a character. -/
inductive PartyRemoval where
  /-- `party_check_conflict` -/
  | conflict (partyId accountId : Int) (nick : String)
  /-- `party_leave` -/
  | leave (sd : PartyPlayer)
  /-- `party_removemember` -/
  | expel (sd : PartyPlayer) (accountId : Int) (name : String)

namespace PartyRemoval

/-- The requests of the map-server. -/
def requests (s : PartyMap) : PartyRemoval → List ToInter
  | .conflict partyId accountId nick => [.checkConflict partyId accountId nick]
  | .leave sd => s.partyLeave sd
  | .expel sd accountId name => s.partyRemovemember sd accountId name

/-- The character. -/
def character : PartyRemoval → Int × String
  | .conflict _ accountId nick => (accountId, nick)
  | .leave sd => (sd.accountId, sd.name)
  | .expel _ accountId name => (accountId, name)

/-- The parties that the character is to be removed from. -/
def parties : PartyRemoval → Int → Bool
  | .conflict partyId _ _, k => k ≠ partyId
  | .leave sd, k => k = sd.partyId
  | .expel sd _ _, k => k = sd.partyId

/-- A member of a party is meant, by a removal that the map-server has asked for. -/
def Meant (s : PartyMap) (r : PartyRemoval) (k : Int) (m : PartyMember) : Prop :=
  r.requests s ≠ [] ∧ r.parties k ∧ m.key = r.character

/-- The table of the char-server after the requests. -/
def handled (partyShareLevel : Int) (s : PartyMap) (db : List Party) (r : PartyRemoval) : List Party :=
  (r.requests s).foldl (fun db m => (interPartyParse partyShareLevel db m).1) db

end PartyRemoval

/-- The member at a place of a party. -/
def listed (db : List Party) (k : Int) : Fin maxParty → PartyMember :=
  match partySearch db k with
  | none => fun _ => {}
  | some p => Slots.clear (fun m => m.accountId ≤ 0) {} p.member

/-- Those who are meant are removed, and everyone else keeps the place. -/
def RemovesExactly (partyShareLevel : Int) (s : PartyMap) (db : List Party) (r : PartyRemoval) :
    Prop :=
  ∀ k i, (r.Meant s k (listed db k i) → listed (r.handled partyShareLevel s db) k i = {}) ∧
    (¬ r.Meant s k (listed db k i) → listed (r.handled partyShareLevel s db) k i = listed db k i)

/-- Another character of the account stands before the character in the table of a party. -/
def OtherAhead (p : Party) (c : Int × String) : Prop :=
  ∃ i j, i < j ∧ (p.member i).accountId = c.1 ∧ (p.member i).name ≠ c.2 ∧ (p.member j).key = c

/-- The first entry of the account is the character's, and the character has no other one. -/
def FirstOfAccount (p : Party) (c : Int × String) : Prop :=
  ∀ i, Slots.first (fun m => m.accountId = c.1) p.member = some i →
    ∀ j, (p.member j).key = c ↔ j = i

/-- When a removal finds the character by the account. -/
def FindsCharacter (s : PartyMap) (db : List Party) (r : PartyRemoval) : Prop :=
  r.requests s ≠ [] → 0 < r.character.1 → ∀ p ∈ db, r.parties p.partyId →
    match r with
    | .conflict .. => ¬ OtherAhead p r.character
    | _ => FirstOfAccount p r.character

/-! ## Tables as places -/

section Places

variable {db : List Party} {p : Party} {P a k : Int}

theorem partySearch_put (h : partySearch db P = some p) {q : Party} (hq : q.partyId = P) :
    partySearch (partyPut db q) k = if k = P then some q else partySearch db k := by
  have hid : ((fun r : Party => decide (r.partyId = k)) ∘ fun r => if r.partyId = P then q else r) =
      fun r => decide (r.partyId = k) := by
    funext r
    by_cases hr : r.partyId = P <;> simp [hr, hq]
  unfold partyPut
  rw [hq]
  unfold partySearch at *
  rw [List.find?_map, hid]
  split
  · rename_i hk
    rw [hk, h, Option.map_some, if_pos (by simpa using List.find?_some h)]
  · rename_i hk
    cases hfind : db.find? fun r => r.partyId = k with
    | none => rfl
    | some r =>
      have hr : r.partyId = k := by simpa using List.find?_some hfind
      rw [Option.map_some, if_neg (by rw [hr]; exact hk)]

theorem partySearch_erase :
    partySearch (partyErase db P) k = if k = P then none else partySearch db k := by
  unfold partySearch partyErase
  rw [List.find?_filter]
  split
  · rename_i hk
    subst hk
    simp
  · rename_i hk
    congr 1
    funext q
    by_cases hq : q.partyId = k <;> simp [hq, hk]

theorem listed_of_some (h : partySearch db k = some p) :
    listed db k = Slots.clear (fun m => m.accountId ≤ 0) {} p.member := by
  unfold listed
  rw [h]

theorem listed_of_none (h : partySearch db k = none) : listed db k = fun _ => {} := by
  unfold listed
  rw [h]

theorem listed_put (h : partySearch db P = some p) {q : Party} (hq : q.partyId = P) :
    listed (partyPut db q) k =
      if k = P then Slots.clear (fun m => m.accountId ≤ 0) {} q.member else listed db k := by
  have hsearch := partySearch_put (k := k) h hq
  split at hsearch
  · rename_i hk
    rw [if_pos hk, listed_of_some hsearch]
  · rename_i hk
    unfold listed
    rw [if_neg hk, hsearch]

theorem listed_erase :
    listed (partyErase db P) k = if k = P then fun _ => {} else listed db k := by
  have hsearch : partySearch (partyErase db P) k = _ := partySearch_erase
  split at hsearch
  · rename_i hk
    rw [if_pos hk, listed_of_none hsearch]
  · rename_i hk
    unfold listed
    rw [if_neg hk, hsearch]

/-- For an account, the entries that are no members do not matter. -/
theorem first_listed (h : partySearch db P = some p) (ha : 0 < a) :
    Slots.first (fun m => m.accountId = a) (listed db P) =
      Slots.first (fun m => m.accountId = a) p.member := by
  rw [listed_of_some h]
  refine Slots.first_congr fun i => ?_
  unfold Slots.clear
  by_cases hi : (p.member i).accountId ≤ 0
  · have h0 : ¬ (0 : Int) = a := by omega
    have hne : ¬ (p.member i).accountId = a := by omega
    simp [hi, h0, hne]
  · simp [hi]

theorem clear_update (t : Fin maxParty → PartyMember) (i : Fin maxParty) :
    Slots.clear (fun m => m.accountId ≤ 0) {} (Function.update t i {}) =
      Function.update (Slots.clear (fun m => m.accountId ≤ 0) {} t) i {} := by
  funext j
  unfold Slots.clear
  by_cases hj : j = i
  · subst hj
    simp
  · simp [Function.update_of_ne hj]

/-- The check for an empty party does not change what is listed. -/
theorem listed_checkEmpty {q : Party} (hq : partySearch db q.partyId = some q) :
    listed (partyCheckEmpty db q).2.1 k = listed db k := by
  unfold partyCheckEmpty
  split
  · rfl
  · split
    · rfl
    · rename_i hnone
      rw [Option.not_isSome_iff_eq_none, Slots.first_eq_none_iff] at hnone
      rw [listed_erase]
      split
      · rename_i hk
        rw [hk, listed_of_some hq]
        funext i
        have hi := hnone i
        simp only [decide_eq_false_iff_not, not_lt] at hi
        simp [Slots.clear, hi]
      · rfl

/-- The places after the first entry of an account has been cleared. -/
theorem listed_cleared {i : Fin maxParty} (hs : partySearch db P = some p)
    (hi : Slots.first (fun m => m.accountId = a) p.member = some i) :
    listed (partyPut db { p with member := Function.update p.member i {} }) k =
      if k = P ∧ 0 < a then Slots.dropFirst (fun m => m.accountId = a) {} (listed db P)
      else listed db k := by
  rw [listed_put (q := { p with member := Function.update p.member i {} }) hs (partySearch_mem hs).2]
  by_cases hk : k = P
  · rw [if_pos hk, clear_update, ← listed_of_some hs]
    by_cases ha : 0 < a
    · rw [if_pos ⟨hk, ha⟩, Slots.dropFirst_of_some ((first_listed hs ha).trans hi)]
    · have hacc : (p.member i).accountId = a := by simpa using Slots.first_some hi
      rw [if_neg fun h => ha h.2, hk]
      refine Function.update_eq_self_iff.mpr ?_
      rw [listed_of_some hs]
      exact (if_pos (by simpa [hacc] using ha)).symm
  · rw [if_neg hk, if_neg fun h => hk h.1]

theorem parsePartyLeave_of_some {i : Fin maxParty} (hs : partySearch db P = some p)
    (hi : Slots.first (fun m => m.accountId = a) p.member = some i) :
    (parsePartyLeave db P a).1 =
      (partyCheckEmpty (partyPut db { p with member := Function.update p.member i {} })
        { p with member := Function.update p.member i {} }).2.1 := by
  unfold parsePartyLeave
  rw [hs]
  dsimp only
  rw [hi]
  dsimp only
  split <;> rename_i heq <;> rw [heq]

/-- **A leave empties a place by the account.** -/
theorem listed_leave (db : List Party) (P a k : Int) :
    listed (parsePartyLeave db P a).1 k =
      if k = P ∧ 0 < a then Slots.dropFirst (fun m => m.accountId = a) {} (listed db P)
      else listed db k := by
  cases hs : partySearch db P with
  | none =>
    unfold parsePartyLeave
    rw [hs]
    dsimp only
    split
    · rename_i h
      have ha : ¬ (0 : Int) = a := by omega
      rw [h.1, Slots.dropFirst_of_none]
      rw [listed_of_none hs, Slots.first_eq_none_iff]
      simp [ha]
    · rfl
  | some p =>
    cases hi : Slots.first (fun m => m.accountId = a) p.member with
    | none =>
      unfold parsePartyLeave
      rw [hs]
      dsimp only
      rw [hi]
      dsimp only
      split
      · rename_i h
        rw [h.1, Slots.dropFirst_of_none ((first_listed hs h.2).trans hi)]
      · rfl
    | some i =>
      obtain ⟨-, rfl⟩ := partySearch_mem hs
      have hfound := partySearch_put (k := p.partyId)
        (q := { p with member := Function.update p.member i {} }) hs rfl
      rw [if_pos rfl] at hfound
      rw [parsePartyLeave_of_some hs hi, listed_checkEmpty hfound, listed_cleared hs hi]

/-! ## The conflict check -/

variable {nick : String}

/-- An entry of the account, and one of the character. -/
def ofAccount (a : Int) (m : PartyMember) : Bool := m.accountId = a

def ofCharacter (c : Int × String) (m : PartyMember) : Bool := m.key = c

theorem ofAccount_empty (ha : 0 < a) : ofAccount a {} = false := by
  have h : ¬ (0 : Int) = a := by omega
  simp [ofAccount, h]

theorem ofCharacter_iff {c : Int × String} {m : PartyMember} : ofCharacter c m ↔ m.key = c := by
  simp [ofCharacter]

theorem ofAccount_of_character {c : Int × String} (m : PartyMember) (h : ofCharacter c m) :
    ofAccount c.1 m := by
  rw [ofCharacter_iff] at h
  rw [← h]
  exact decide_eq_true rfl

theorem ofCharacter_empty {c : Int × String} (hc : 0 < c.1) : ofCharacter c {} = false := by
  have h := ofAccount_empty hc
  by_contra hchar
  rw [Bool.not_eq_false] at hchar
  rw [ofAccount_of_character _ hchar] at h
  cases h

/-- For an account, the entries that are no members are no entries of the character. -/
theorem ofCharacter_listed {c : Int × String} (h : partySearch db P = some p) (hc : 0 < c.1)
    (i : Fin maxParty) : ofCharacter c (listed db P i) = ofCharacter c (p.member i) := by
  rw [listed_of_some h]
  unfold Slots.clear
  split
  · rename_i hi
    have hle := of_decide_eq_true hi
    rw [ofCharacter_empty hc]
    refine (decide_eq_false fun hkey => ?_).symm
    rw [← hkey] at hc
    exact absurd hc (not_lt.mpr hle)
  · rfl

/-- A place of the conflict check. -/
theorem listed_conflictAt (r : List Party × List FromInter) (P : Int) (i : Fin maxParty) (k : Int) :
    listed (partyCheckConflictAt a nick P r i).1 k =
      if k = P ∧ 0 < a then
        Slots.dropAt (ofAccount a) (ofCharacter (a, nick)) {} (listed r.1 P) i
      else listed r.1 k := by
  unfold partyCheckConflictAt Slots.dropAt
  cases hs : partySearch r.1 P with
  | none =>
    dsimp only
    split
    · rename_i h
      rw [h.1, listed_of_none hs, ofCharacter_empty h.2]
      rfl
    · rfl
  | some p =>
    have hmatch : ofCharacter (a, nick) (p.member i) = true ↔
        (p.member i).accountId = a ∧ (p.member i).name = nick := by
      simp [ofCharacter, PartyMember.key]
    dsimp only
    by_cases hc : (p.member i).accountId = a ∧ (p.member i).name = nick
    · rw [if_pos hc]
      dsimp only
      rw [listed_leave]
      split
      · rename_i h
        rw [if_pos (by rw [ofCharacter_listed hs h.2]; exact hmatch.mpr hc)]
        rfl
      · rfl
    · rw [if_neg hc]
      split
      · rename_i h
        rw [h.1, if_neg (by rw [ofCharacter_listed hs h.2]; exact fun h => hc (hmatch.mp h))]
      · rfl

theorem listed_foldl_conflictAt (l : List (Fin maxParty)) (r : List Party × List FromInter) (P k : Int) :
    listed (l.foldl (partyCheckConflictAt a nick P) r).1 k =
      if k = P ∧ 0 < a then
        l.foldl (Slots.dropAt (ofAccount a) (ofCharacter (a, nick)) {}) (listed r.1 P)
      else listed r.1 k := by
  induction l generalizing r with
  | nil =>
    rw [List.foldl_nil, List.foldl_nil]
    split
    · rename_i h
      rw [h.1]
    · rfl
  | cons i l ih =>
    rw [List.foldl_cons, List.foldl_cons, ih, listed_conflictAt, listed_conflictAt]
    by_cases h : k = P ∧ 0 < a
    · rw [if_pos h, if_pos h, if_pos ⟨rfl, h.2⟩]
    · rw [if_neg h, if_neg h, if_neg h]

/-- **The check of a party** is a removal by the account for each entry of the character. -/
theorem listed_conflictSub (db : List Party) (partyId P k : Int) :
    listed (partyCheckConflictSub partyId a nick P db).1 k =
      if k = P ∧ P ≠ partyId ∧ 0 < a then
        Slots.dropEach (ofAccount a) (ofCharacter (a, nick)) {} (listed db P)
      else listed db k := by
  unfold partyCheckConflictSub
  by_cases hP : P = partyId
  · rw [if_pos hP, if_neg fun h => h.2.1 hP]
  · rw [if_neg hP, listed_foldl_conflictAt]
    simp only [ne_eq, hP, not_false_eq_true, true_and]
    rfl

/-- The check of some parties, each of them once. -/
theorem listed_foldl_conflictSub {keys : List Int} (hkeys : keys.Nodup)
    (r : List Party × List FromInter) (partyId k : Int) :
    listed (keys.foldl (fun r key =>
      let s := partyCheckConflictSub partyId a nick key r.1
      (s.1, r.2 ++ s.2)) r).1 k =
      if k ∈ keys ∧ k ≠ partyId ∧ 0 < a then
        Slots.dropEach (ofAccount a) (ofCharacter (a, nick)) {} (listed r.1 k)
      else listed r.1 k := by
  induction keys generalizing r with
  | nil => simp
  | cons key keys ih =>
    obtain ⟨hkey, hkeys⟩ := List.nodup_cons.mp hkeys
    rw [List.foldl_cons, ih hkeys]
    dsimp only
    rw [listed_conflictSub]
    by_cases hk : k = key
    · subst hk
      simp [hkey]
    · simp [hk]

/-- **The check of all parties.** -/
theorem listed_checkConflict (hkeys : (db.map Party.partyId).Nodup) (partyId k : Int) :
    listed (partyCheckConflict db partyId a nick).1 k =
      if k ≠ partyId ∧ 0 < a then
        Slots.dropEach (ofAccount a) (ofCharacter (a, nick)) {} (listed db k)
      else listed db k := by
  unfold partyCheckConflict
  rw [listed_foldl_conflictSub hkeys]
  by_cases hk : k ∈ db.map Party.partyId
  · simp only [hk, true_and]
  · have hempty : listed db k = fun _ => {} :=
      listed_of_none (partySearch_none.mpr fun p hp h => hk (List.mem_map.mpr ⟨p, hp, h⟩))
    rw [if_neg fun h => hk h.1]
    split
    · funext i
      obtain h | h := Slots.foldl_dropAt_cases (p := ofAccount a) (q := ofCharacter (a, nick))
        (z := {}) (List.finRange maxParty) (listed db k) i
      · exact h.symm
      · rw [hempty] at h ⊢
        exact h.symm
    · rfl

theorem partySearch_of_mem (hkeys : (db.map Party.partyId).Nodup) (hp : p ∈ db) :
    partySearch db p.partyId = some p := by
  cases hs : partySearch db p.partyId with
  | none => exact absurd rfl (partySearch_none.mp hs p hp)
  | some q =>
    obtain ⟨hq, hid⟩ := partySearch_mem hs
    exact congrArg some (List.inj_on_of_nodup_map hkeys hq hp hid)

end Places

/-! ## Exact removals -/

section Exact

variable {level : Int} {s : PartyMap} {db : List Party} {r : PartyRemoval}

/-- Who is listed is a member. -/
theorem listed_pos (db : List Party) (k : Int) (i : Fin maxParty) :
    0 < (listed db k i).accountId ∨ listed db k i = {} := by
  cases hs : partySearch db k with
  | none => exact .inr (congrFun (listed_of_none hs) i)
  | some p =>
    rw [listed_of_some hs]
    unfold Slots.clear
    split
    · exact .inr rfl
    · rename_i h
      exact .inl (by simpa using h)

/-- A removal that does something to the places of the parties that it means is exact if it empties
those of the character. -/
theorem removesExactly_iff {f : (Fin maxParty → PartyMember) → Fin maxParty → PartyMember}
    (hreq : r.requests s ≠ [])
    (hf : ∀ k, listed (r.handled level s db) k =
      if r.parties k ∧ 0 < r.character.1 then f (listed db k) else listed db k) :
    RemovesExactly level s db r ↔ (0 < r.character.1 → ∀ k, r.parties k →
      f (listed db k) = Slots.clear (ofCharacter r.character) {} (listed db k)) := by
  have hmeant (k : Int) (i : Fin maxParty) : r.Meant s k (listed db k i) ↔
      r.parties k ∧ ofCharacter r.character (listed db k i) := by
    simp [PartyRemoval.Meant, hreq, ofCharacter]
  constructor
  · intro h hpos k hk
    funext i
    have hi := h k i
    rw [hf k, if_pos ⟨hk, hpos⟩, hmeant k i] at hi
    unfold Slots.clear
    split
    · rename_i hc
      exact hi.1 ⟨hk, hc⟩
    · rename_i hc
      exact hi.2 fun h => hc h.2
  · intro h k i
    rw [hf k, hmeant k i]
    by_cases hact : r.parties k ∧ 0 < r.character.1
    · rw [if_pos hact, h hact.2 k hact.1]
      exact ⟨fun hc => if_pos hc.2, fun hc => if_neg fun hq => hc ⟨hact.1, hq⟩⟩
    · rw [if_neg hact]
      refine ⟨fun hc => (listed_pos db k i).resolve_left fun hpos => hact ⟨hc.1, ?_⟩, fun _ => rfl⟩
      have hkey : (listed db k i).key = r.character := of_decide_eq_true hc.2
      rw [← hkey]
      exact hpos

/-- What holds of the places of every party that is meant holds of every party in the table. -/
theorem forall_listed_iff (hkeys : (db.map Party.partyId).Nodup) {I : Int → Bool}
    {Q : (Fin maxParty → PartyMember) → Prop} {R : Party → Prop} (hnone : Q fun _ => {})
    (hsome : ∀ k p, partySearch db k = some p → (Q (listed db k) ↔ R p)) :
    (∀ k, I k → Q (listed db k)) ↔ ∀ p ∈ db, I p.partyId → R p := by
  constructor
  · exact fun h p hp hI => (hsome _ p (partySearch_of_mem hkeys hp)).mp (h _ hI)
  · intro h k hI
    cases hs : partySearch db k with
    | none =>
      rw [listed_of_none hs]
      exact hnone
    | some p =>
      obtain ⟨hp, rfl⟩ := partySearch_mem hs
      exact (hsome _ p hs).mpr (h p hp hI)

theorem ofAccount_listed {p : Party} {P a : Int} (hs : partySearch db P = some p) (ha : 0 < a)
    (i : Fin maxParty) : ofAccount a (listed db P i) ↔ (p.member i).accountId = a := by
  rw [listed_of_some hs]
  unfold Slots.clear
  split
  · rename_i hi
    have hle := of_decide_eq_true hi
    rw [ofAccount_empty ha]
    exact iff_of_false Bool.false_ne_true (by omega)
  · simp [ofAccount]

theorem otherAhead_iff {p : Party} {P : Int} {c : Int × String} (hs : partySearch db P = some p)
    (hc : 0 < c.1) :
    (∀ i j, i < j → ofAccount c.1 (listed db P i) → ofCharacter c (listed db P j) →
      ofCharacter c (listed db P i)) ↔ ¬ OtherAhead p c := by
  have hkey (i : Fin maxParty) : (p.member i).key = c ↔
      (p.member i).accountId = c.1 ∧ (p.member i).name = c.2 := by
    unfold PartyMember.key
    rw [Prod.ext_iff]
  simp only [ofAccount_listed hs hc, ofCharacter_listed hs hc, ofCharacter_iff]
  constructor
  · rintro h ⟨i, j, hlt, hacc, hname, hj⟩
    exact hname ((hkey i).mp (h i j hlt hacc hj)).2
  · intro h i j hlt hacc hj
    by_contra hi
    exact h ⟨i, j, hlt, hacc, fun hname => hi ((hkey i).mpr ⟨hacc, hname⟩), hj⟩

theorem firstOfAccount_iff {p : Party} {P : Int} {c : Int × String} (hs : partySearch db P = some p)
    (hc : 0 < c.1) :
    (∀ i, Slots.first (ofAccount c.1) (listed db P) = some i →
      ∀ j, ofCharacter c (listed db P j) ↔ j = i) ↔ FirstOfAccount p c := by
  unfold FirstOfAccount
  rw [show Slots.first (ofAccount c.1) (listed db P) = _ from first_listed hs hc]
  simp only [ofCharacter_listed hs hc, ofCharacter_iff]

/-- What `party_leave` asks for. -/
theorem leave_requests (s : PartyMap) (sd : PartyPlayer) :
    s.partyLeave sd = [] ∨ s.partyLeave sd = [.leave sd.partyId sd.accountId] := by
  unfold PartyMap.partyLeave
  split
  · exact .inl rfl
  · rename_i p hp
    split
    · exact .inl rfl
    · exact .inr (by rw [(partySearch_mem hp).2])

/-- What `party_removemember` asks for. -/
theorem expel_requests (s : PartyMap) (sd : PartyPlayer) (accountId : Int) (name : String) :
    s.partyRemovemember sd accountId name = [] ∨
      s.partyRemovemember sd accountId name = [.leave sd.partyId accountId] := by
  unfold PartyMap.partyRemovemember
  split
  · exact .inl rfl
  · rename_i p hp
    split
    · exact .inl rfl
    · split
      · exact .inl rfl
      · exact .inr (by rw [(partySearch_mem hp).2])

/-- A removal for which the server asks nothing is exact. -/
theorem removesExactly_of_nil (hreq : r.requests s = []) : RemovesExactly level s db r := by
  intro k i
  have hdb : r.handled level s db = db := by
    unfold PartyRemoval.handled
    rw [hreq]
    rfl
  rw [hdb]
  exact ⟨fun h => absurd hreq h.1, fun _ => rfl⟩

/-- **A leave by the account** is exact if it finds the character. -/
theorem leave_removes_iff (hkeys : (db.map Party.partyId).Nodup) {P : Int}
    (hreq : r.requests s = [.leave P r.character.1]) (hP : ∀ k, r.parties k = decide (k = P)) :
    RemovesExactly level s db r ↔ (0 < r.character.1 →
      ∀ p ∈ db, r.parties p.partyId → FirstOfAccount p r.character) := by
  have hf (k : Int) : listed (r.handled level s db) k =
      if r.parties k ∧ 0 < r.character.1 then
        Slots.dropFirst (ofAccount r.character.1) {} (listed db k)
      else listed db k := by
    have hdb : r.handled level s db = (parsePartyLeave db P r.character.1).1 := by
      unfold PartyRemoval.handled
      rw [hreq]
      rfl
    simp only [hdb, listed_leave, hP k, decide_eq_true_eq]
    split
    · rename_i h
      rw [h.1]
      rfl
    · rfl
  rw [removesExactly_iff (by rw [hreq]; simp) hf]
  refine forall_congr' fun hpos => ?_
  have hempty := ofAccount_empty hpos
  have hqp : ∀ m, ofCharacter r.character m → ofAccount r.character.1 m :=
    ofAccount_of_character
  simp only [Slots.dropFirst_eq_clear_iff hempty hqp]
  refine forall_listed_iff (I := r.parties) (R := fun p => FirstOfAccount p r.character) (Q := fun t =>
    ∀ i, Slots.first (ofAccount r.character.1) t = some i → ∀ j, ofCharacter r.character (t j) ↔ j = i)
    hkeys (fun i hi => ?_) fun k p hs => firstOfAccount_iff hs hpos
  rw [Slots.first_eq_none_iff.mpr fun _ => hempty] at hi
  cases hi

/-- **A conflict check** is exact if it finds the character. -/
theorem conflict_removes_iff (hkeys : (db.map Party.partyId).Nodup) (partyId a : Int) (nick : String) :
    RemovesExactly level s db (.conflict partyId a nick) ↔ (0 < a →
      ∀ p ∈ db, p.partyId ≠ partyId → ¬ OtherAhead p (a, nick)) := by
  have hf (k : Int) : listed (PartyRemoval.handled level s db (.conflict partyId a nick)) k =
      if decide (k ≠ partyId) ∧ 0 < a then
        Slots.dropEach (ofAccount a) (ofCharacter (a, nick)) {} (listed db k)
      else listed db k := by
    simp only [decide_eq_true_eq]
    exact listed_checkConflict hkeys partyId k
  rw [removesExactly_iff (by simp [PartyRemoval.requests]) hf]
  refine forall_congr' fun hpos => ?_
  have hempty : ofAccount a {} = false := ofAccount_empty hpos
  have hqp : ∀ m, ofCharacter (a, nick) m → ofAccount a m := ofAccount_of_character
  have hiff := forall_listed_iff (I := fun k => k ≠ partyId) (R := fun p => ¬ OtherAhead p (a, nick))
    (Q := fun t => ∀ i j, i < j → ofAccount a (t i) → ofCharacter (a, nick) (t j) →
      ofCharacter (a, nick) (t i)) hkeys (fun _ _ _ hi => absurd (hempty.symm.trans hi) Bool.false_ne_true)
    fun k p hs => otherAhead_iff hs hpos
  simp only [decide_eq_true_eq] at hiff
  rw [← hiff]
  refine forall_congr' fun k => ?_
  rw [show PartyRemoval.parties (.conflict partyId a nick) k = decide (k ≠ partyId) from rfl,
    decide_eq_true_eq]
  exact forall_congr' fun _ => Slots.dropEach_eq_clear_iff hempty hqp

end Exact

/-- **Removals hit the right character** if and only if the handler finds it by the account: for a
conflict check, no other character of the account stands before it in a party that it is removed
from; for a leave or an expulsion, the first entry of the account in the party is its only one. -/
theorem party_removes_iff (level : Int) (s : PartyMap) (db : List Party)
    (hkeys : (db.map Party.partyId).Nodup) (r : PartyRemoval) :
    RemovesExactly level s db r ↔ FindsCharacter s db r := by
  by_cases hreq : r.requests s = []
  · exact iff_of_true (removesExactly_of_nil hreq) fun h => absurd hreq h
  · unfold FindsCharacter
    rw [forall_prop_of_true hreq]
    cases r with
    | conflict partyId accountId nick =>
      rw [conflict_removes_iff hkeys]
      simp [PartyRemoval.parties, PartyRemoval.character]
    | leave sd =>
      exact leave_removes_iff hkeys ((leave_requests s sd).resolve_left hreq) fun _ => rfl
    | expel sd accountId name =>
      exact leave_removes_iff hkeys ((expel_requests s sd accountId name).resolve_left hreq)
        fun _ => rfl

/-- A party with two characters of an account. -/
def twoOfAccount : Party where
  partyId := 1
  member := fun i => if i = 0 then { accountId := 5, name := "first", leader := true }
    else if i = 3 then { accountId := 5, name := "second" } else {}

/-- The first of them leaves. -/
theorem party_removes_iff_first :
    RemovesExactly 10 ⟨[], [twoOfAccount]⟩ [twoOfAccount]
      (.leave { accountId := 5, name := "first", partyId := 1 }) :=
  (party_removes_iff 10 _ _ (by decide) _).mpr fun _ _ p hp _ => by
    obtain rfl := List.mem_singleton.mp hp
    change FirstOfAccount twoOfAccount (5, "first")
    unfold FirstOfAccount
    decide

/-- **The second one leaves, and the first one is removed.** -/
theorem party_removes_other : ¬ ∀ (level : Int) (s : PartyMap) (db : List Party),
    (db.map Party.partyId).Nodup → ∀ r, RemovesExactly level s db r := by
  intro h
  have hfirst := (h 10 ⟨[], [twoOfAccount]⟩ [twoOfAccount] (by decide)
    (.leave { accountId := 5, name := "second", partyId := 1 }) 1 0).2 fun hmeant =>
      absurd hmeant.2.2 (by decide)
  exact absurd hfirst (by decide)

end Nezumi
