import Nezumi.Party.PartyRemoval
import Nezumi.Party.PartyServers

/-!
# Whether the copies of a party agree (`map/party.c`, `char/int_party.c`)

* `PartyReply.onto`: what a packet does to the copy of one party. `Settles`: what the copy is in the
  end, whoever is connected, when the packets under way have arrived.
* `Conveys`: the packets of a request take a copy that agrees with the table before it to one that
  agrees with the table after it. `conveys_request`: every request has such packets, for all
  servers, but an option that is changed in part.
* `PartyServersInv`: what holds in every run. `partyServersStep_inv` is the step.
* `partyOptions_exact_iff`: the copies agree in a run if and only if no option is changed in part
  that another map-server should know.
-/

namespace Nezumi

/-! ## Copies of a party -/

section Copies

variable {db : List Party} {s : PartyMap} {p q : Party} {k : Int} {v v' : Option Party}

/-- The entry, whoever is connected. -/
def PartyMember.bare (m : PartyMember) : PartyMember := { m with sd := false }

/-- The party, whoever is connected. -/
def Party.bare (p : Party) : Party := { p with member := fun i => (p.member i).bare }

/-- The party of an id in a table, whoever is connected. -/
def bareSearch (db : List Party) (k : Int) : Option Party := (partySearch db k).map Party.bare

theorem Party.bare_bare (p : Party) : p.bare.bare = p.bare := rfl

theorem bareSearch_put (h : partySearch db q.partyId = some p) :
    bareSearch (partyPut db q) k = if q.partyId = k then some q.bare else bareSearch db k := by
  unfold bareSearch
  rw [partySearch_put h rfl]
  by_cases hk : q.partyId = k
  · rw [if_pos hk.symm, if_pos hk]
    rfl
  · rw [if_neg (Ne.symm hk), if_neg hk]

/-- Who is connected does not matter. -/
theorem bareSearch_put_bare (h : partySearch db q.partyId = some p) (hq : q.bare = p.bare) :
    bareSearch (partyPut db q) k = bareSearch db k := by
  rw [bareSearch_put h]
  split
  · rename_i hk
    rw [hq, ← hk, bareSearch, h]
    rfl
  · rfl

theorem bareSearch_erase {P : Int} :
    bareSearch (partyErase db P) k = if P = k then none else bareSearch db k := by
  unfold bareSearch
  rw [partySearch_erase]
  by_cases hk : P = k
  · rw [if_pos hk.symm, if_pos hk]
    rfl
  · rw [if_neg (Ne.symm hk), if_neg hk]

theorem partySearch_concat (h : partySearch db q.partyId = none) :
    partySearch (db ++ [q]) k = if q.partyId = k then some q else partySearch db k := by
  unfold partySearch at *
  rw [List.find?_append]
  by_cases hk : q.partyId = k
  · subst hk
    rw [h, if_pos rfl]
    simp
  · rw [if_neg hk]
    simp [hk]

theorem bareSearch_concat (h : partySearch db q.partyId = none) :
    bareSearch (db ++ [q]) k = if q.partyId = k then some q.bare else bareSearch db k := by
  unfold bareSearch
  rw [partySearch_concat h]
  split <;> rfl

theorem bareSearch_insert :
    bareSearch (partyInsert db q) k = if q.partyId = k then some q.bare else bareSearch db k := by
  unfold partyInsert
  split
  · rename_i h
    obtain ⟨p, hp⟩ := Option.isSome_iff_exists.mp h
    exact bareSearch_put hp
  · rename_i h
    exact bareSearch_concat (Option.not_isSome_iff_eq_none.mp h)

theorem bareSearch_eq_none : bareSearch db k = none ↔ partySearch db k = none :=
  Option.map_eq_none_iff

/-! ## What a packet does to a copy -/

/-- `party_optionchanged` -/
def Party.optioned (exp item flag : Nat) (p : Party) : Party :=
  let p := if flag &&& 0x01 = 0 then { p with exp } else p
  if flag &&& 0x10 = 0 then { p with item } else p

/-- `party_member_leaved` -/
def Party.without (accountId : Int) (name : String) (p : Party) : Party :=
  { p with member := fun i =>
    if (p.member i).accountId = accountId ∧ (p.member i).name = name then {} else p.member i }

/-- `party_recv_movemap` -/
def Party.moved (accountId : Int) (map : String) (online : Bool) (lv : Int) (p : Party) : Party :=
  match Slots.first (fun m => m.accountId = accountId) p.member with
  | none => p
  | some i => { p with member := Function.update p.member i { p.member i with map, online, lv } }

theorem Party.bare_optioned (exp item flag : Nat) (p : Party) :
    (p.optioned exp item flag).bare = p.bare.optioned exp item flag := by
  unfold Party.optioned
  dsimp only
  split_ifs <;> rfl

theorem Party.bare_without (accountId : Int) (name : String) (p : Party) :
    (p.without accountId name).bare = p.bare.without accountId name := by
  unfold Party.without Party.bare
  congr 1
  funext i
  by_cases hi : (p.member i).accountId = accountId ∧ (p.member i).name = name
  · exact (congrArg PartyMember.bare (if_pos hi)).trans (if_pos hi).symm
  · exact (congrArg PartyMember.bare (if_neg hi)).trans (if_neg hi).symm

theorem Party.bare_update (p : Party) (i : Fin maxParty) (m : PartyMember) :
    ({ p with member := Function.update p.member i m } : Party).bare =
      { p.bare with member := Function.update p.bare.member i m.bare } := by
  unfold Party.bare
  congr 1
  funext j
  by_cases hj : j = i
  · subst hj
    simp
  · simp [Function.update_of_ne hj]

theorem first_bare (p : Party) (a : Int) :
    Slots.first (fun m => m.accountId = a) p.bare.member =
      Slots.first (fun m => m.accountId = a) p.member :=
  Slots.first_congr fun _ => rfl

theorem Party.bare_moved (accountId : Int) (map : String) (online : Bool) (lv : Int) (p : Party) :
    (p.moved accountId map online lv).bare = p.bare.moved accountId map online lv := by
  unfold Party.moved
  rw [first_bare]
  split
  · rfl
  · exact Party.bare_update p _ _

/-- What a packet does to the copy of the party `k`. The announcement of a new party is followed by
the party. -/
def PartyReply.onto (k : Int) (v : Option Party) : PartyReply → Option Party
  | .noInfo _ => v
  | .answer (.created ..) => v
  | .answer (.memberMoved partyId accountId map online lv) =>
    if partyId = k then v.map (Party.moved accountId map online lv) else v
  | .answer (.sent (.info p)) => if p.partyId = k then some p.bare else v
  | .answer (.sent (.memberAdded ..)) => v
  | .answer (.sent (.optionChanged partyId _ exp item flag)) =>
    if partyId = k then v.map (Party.optioned exp item flag) else v
  | .answer (.sent (.memberLeaved partyId accountId name)) =>
    if partyId = k then v.map (Party.without accountId name) else v
  | .answer (.sent (.broken partyId)) => if partyId = k then none else v

/-- The empty copy that a packet may make. -/
def PartyReply.announced (k : Int) : PartyReply → Option Party
  | .answer (.created _ fail partyId name) =>
    if fail = 0 ∧ partyId = k then some { partyId, name } else none
  | _ => none

/-- The copy is `v'` when the packets have arrived. The server that has asked for a new party makes
an empty copy of it if the player is still there. -/
def Settles (k : Int) (v' : Option Party) : List PartyReply → Option Party → Prop
  | [], v => v = v'
  | m :: l, v =>
    match m.announced k with
    | none => Settles k v' l (m.onto k v)
    | some q => v = none ∧ Settles k v' l none ∧ Settles k v' l (some q)

theorem settles_cons {m : PartyReply} {l : List PartyReply} (h : m.announced k = none) :
    Settles k v' (m :: l) v ↔ Settles k v' l (m.onto k v) := by
  rw [Settles, h]

theorem Settles.append {l l' : List PartyReply} {v'' : Option Party} (h : Settles k v' l v)
    (h' : Settles k v'' l' v') : Settles k v'' (l ++ l') v := by
  induction l generalizing v with
  | nil => exact h.symm ▸ h'
  | cons m l ih =>
    rw [List.cons_append]
    unfold Settles at h ⊢
    split
    · rename_i hm
      rw [hm] at h
      exact ih h
    · rename_i q hm
      rw [hm] at h
      exact ⟨h.1, ih h.2.1, ih h.2.2⟩

end Copies

/-! ## A map-server -/

section Receive

variable {s : PartyMap} {p : Party} {k : Int} {v' : Option Party} {P a : Int}

/-- A party is written over by one that it has as much of. -/
theorem bareSearch_over {db : List Party} {p q r : Party} (h : partySearch db p.partyId = some q)
    (hid : r.partyId = p.partyId) (hr : r.bare = p.bare) :
    bareSearch (partyPut db r) k = if p.partyId = k then some p.bare else bareSearch db k := by
  have hput : bareSearch (partyPut db r) k = _ := bareSearch_put (hid.symm ▸ h)
  rw [hput, hid, hr]

theorem bareSearch_recvInfo (s : PartyMap) (p : Party) :
    bareSearch (s.partyRecvInfo p).db k =
      if p.partyId = k then some p.bare else bareSearch s.db k := by
  unfold PartyMap.partyRecvInfo
  cases hs : partySearch s.db p.partyId with
  | none =>
    have hnew : partySearch (s.db ++ [p]) p.partyId = some p := by
      rw [partySearch_concat hs, if_pos rfl]
    refine Eq.trans (bareSearch_over hnew ?_ ?_) ?_
    · rfl
    · rfl
    · split
      · rfl
      · rename_i hk
        rw [bareSearch_concat hs, if_neg hk]
  | some q => exact bareSearch_over hs rfl rfl

/-- The copies are written to by the id. -/
theorem bareSearch_recv {f g : Party → Party} (hid : ∀ p, (g p).partyId = p.partyId)
    (hbare : ∀ p, (g p).bare = f p.bare) (h : partySearch s.db P = some p) :
    bareSearch (partyPut s.db (g p)) k =
      if P = k then (bareSearch s.db k).map f else bareSearch s.db k := by
  obtain ⟨-, rfl⟩ := partySearch_mem h
  have hput : bareSearch (partyPut s.db (g p)) k = _ := bareSearch_put (by rw [hid]; exact h)
  rw [hput, hid]
  split
  · rename_i hk
    rw [hbare, bareSearch, ← hk, h]
    rfl
  · rfl

theorem bareSearch_recv_none {f : Party → Party} (h : partySearch s.db P = none) :
    bareSearch s.db k = if P = k then (bareSearch s.db k).map f else bareSearch s.db k := by
  split
  · rename_i hk
    rw [← hk, bareSearch, h]
    rfl
  · rfl

theorem bareSearch_optionchanged (s : PartyMap) (P : Int) (exp item flag : Nat) :
    bareSearch (s.partyOptionchanged P exp item flag).db k =
      if P = k then (bareSearch s.db k).map (Party.optioned exp item flag)
      else bareSearch s.db k := by
  unfold PartyMap.partyOptionchanged
  cases h : partySearch s.db P with
  | none => exact bareSearch_recv_none h
  | some p =>
    refine bareSearch_recv (g := Party.optioned exp item flag) (fun p => ?_)
      (Party.bare_optioned exp item flag) h
    unfold Party.optioned
    dsimp only
    split_ifs <;> rfl

theorem bareSearch_memberLeaved (s : PartyMap) (P a : Int) (n : String) :
    bareSearch (s.partyMemberLeaved P a n).db k =
      if P = k then (bareSearch s.db k).map (Party.without a n) else bareSearch s.db k := by
  unfold PartyMap.partyMemberLeaved
  cases h : partySearch s.db P with
  | none => exact bareSearch_recv_none h
  | some p =>
    exact bareSearch_recv (g := Party.without a n) (fun _ => rfl) (Party.bare_without a n) h

theorem bareSearch_recvMovemap (s : PartyMap) (P a : Int) (map : String) (online : Bool)
    (lv : Int) :
    bareSearch (s.partyRecvMovemap P a map online lv).db k =
      if P = k then (bareSearch s.db k).map (Party.moved a map online lv)
      else bareSearch s.db k := by
  unfold PartyMap.partyRecvMovemap
  cases h : partySearch s.db P with
  | none => exact bareSearch_recv_none h
  | some p =>
    obtain ⟨-, rfl⟩ := partySearch_mem h
    have hmoved : bareSearch s.db p.partyId = some p.bare := by
      rw [bareSearch, h]
      rfl
    dsimp only
    cases hi : Slots.first (fun m : PartyMember => m.accountId = a) p.member with
    | none =>
      have hsame : p.bare.moved a map online lv = p.bare := by
        unfold Party.moved
        rw [first_bare, hi]
      dsimp only
      split
      · rename_i hk
        rw [← hk, hmoved, Option.map_some, hsame]
      · rfl
    | some i =>
      let q := { p with
        member := Function.update p.member i { p.member i with map, online, lv } }
      have hq : p.moved a map online lv = q := by
        unfold Party.moved
        rw [hi]
      dsimp only
      refine Eq.trans (bareSearch_over (p := q) (q := p) h ?_ ?_) ?_
      · rfl
      · rfl
      · split
        · rename_i hk
          change p.partyId = k at hk
          rw [← hk, hmoved, Option.map_some, ← Party.bare_moved, hq]
        · rfl

theorem setPlayer_db (s : PartyMap) (a : Int) (f : PartyPlayer → PartyPlayer) :
    (s.setPlayer a f).db = s.db := rfl

theorem bareSearch_broken (s : PartyMap) (P : Int) :
    bareSearch (s.partyBroken P).db k = if P = k then none else bareSearch s.db k := by
  unfold PartyMap.partyBroken
  cases h : partySearch s.db P with
  | none =>
    dsimp only
    split
    · rename_i hk
      rw [← hk]
      exact bareSearch_eq_none.mpr h
    · rfl
  | some p =>
    have hdb (l : List (Fin maxParty)) (s : PartyMap) : (l.foldl (fun s i =>
        if (p.member i).sd then
          s.setPlayer (p.member i).accountId fun sd => { sd with partyId := 0 }
        else s) s).db = s.db := by
      induction l generalizing s with
      | nil => rfl
      | cons i l ih =>
        rw [List.foldl_cons, ih]
        split <;> rfl
    dsimp only
    rw [hdb]
    exact bareSearch_erase

theorem memberAdded_db (s : PartyMap) (P a : Int) (flag : Nat) :
    (s.partyMemberAdded P a flag).1.db = s.db := by
  unfold PartyMap.partyMemberAdded
  split
  · rfl
  · dsimp only
    split <;> rfl

/-- A packet without an announcement of the party. -/
theorem bareSearch_onto {m : PartyReply} {r : PartyMap × List ToInter}
    (hm : m.announced k = none) (hr : s.intifParseReply m = some r) :
    bareSearch r.1.db k = m.onto k (bareSearch s.db k) := by
  cases m with
  | noInfo P =>
    cases hr
    rfl
  | answer m =>
    cases m with
    | created a fail P name =>
      obtain ⟨s', hs', rfl⟩ := Option.map_eq_some_iff.mp hr
      unfold PartyMap.partyCreated at hs'
      split at hs'
      · cases hs'
        rfl
      · split at hs'
        · cases hs'
          rfl
        · rename_i hfail
          split at hs'
          · cases hs'
          · rename_i hnone
            cases hs'
            have hP : P ≠ k := fun hP => by simp [PartyReply.announced, not_not.mp hfail, hP] at hm
            refine (bareSearch_concat (q := { partyId := P, name }) hnone).trans ?_
            rw [if_neg hP]
            rfl
    | memberMoved P a map online lv =>
      cases hr
      exact bareSearch_recvMovemap s P a map online lv
    | sent m =>
      cases hr
      cases m with
      | info p => exact bareSearch_recvInfo s p
      | memberAdded P a flag => exact congrArg (bareSearch · k) (memberAdded_db s P a flag)
      | optionChanged P a exp item flag => exact bareSearch_optionchanged s P exp item flag
      | memberLeaved P a n => exact bareSearch_memberLeaved s P a n
      | broken P => exact bareSearch_broken s P

/-- An announcement of the party to a server without it. -/
theorem bareSearch_announced {m : PartyReply} {q : Party} (hm : m.announced k = some q)
    (hnone : bareSearch s.db k = none) :
    ∃ r, s.intifParseReply m = some r ∧
      (bareSearch r.1.db k = none ∨ bareSearch r.1.db k = some q) := by
  unfold PartyReply.announced at hm
  split at hm
  · rename_i a fail P name
    split at hm
    · rename_i h
      obtain ⟨rfl, rfl⟩ := h
      cases hm
      have hs := bareSearch_eq_none.mp hnone
      change ∃ r, (s.partyCreated a 0 P name).map (fun s => (s, [])) = some r ∧ _
      unfold PartyMap.partyCreated
      split
      · exact ⟨_, rfl, .inl hnone⟩
      · rw [if_neg (not_not.mpr rfl), hs]
        refine ⟨_, rfl, .inr ?_⟩
        refine (bareSearch_concat (q := { partyId := P, name }) hs).trans ?_
        rw [if_pos rfl]
        rfl
    · cases hm
  · cases hm

/-- **A packet arrives.** The server does not stop, and the copy becomes what it was to become. -/
theorem Settles.receive {m : PartyReply} {l : List PartyReply} {v : Int → Option Party}
    (h : ∀ k, Settles k (v k) (m :: l) (bareSearch s.db k)) :
    ∃ r, s.intifParseReply m = some r ∧ ∀ k, Settles k (v k) l (bareSearch r.1.db k) := by
  have hrun : ∃ r, s.intifParseReply m = some r := by
    by_cases hm : ∃ k q, m.announced k = some q
    · obtain ⟨k, q, hm⟩ := hm
      have hk := h k
      unfold Settles at hk
      rw [hm] at hk
      obtain ⟨r, hr, -⟩ := bareSearch_announced hm hk.1
      exact ⟨r, hr⟩
    · cases m with
      | noInfo P => exact ⟨_, rfl⟩
      | answer m =>
        cases m with
        | created a fail P name =>
          have hfail : fail ≠ 0 := fun h0 => hm ⟨P, _, if_pos ⟨h0, rfl⟩⟩
          change ∃ r, (s.partyCreated a fail P name).map (fun s => (s, [])) = some r
          unfold PartyMap.partyCreated
          split
          · exact ⟨_, rfl⟩
          · rw [if_pos hfail]
            exact ⟨_, rfl⟩
        | memberMoved P a map online lv => exact ⟨_, rfl⟩
        | sent m => exact ⟨_, rfl⟩
  obtain ⟨r, hr⟩ := hrun
  refine ⟨r, hr, fun k => ?_⟩
  have hk := h k
  unfold Settles at hk
  split at hk
  · rename_i hm
    rw [bareSearch_onto hm hr]
    exact hk
  · rename_i q hm
    obtain ⟨r', hr', hcopy⟩ := bareSearch_announced hm hk.1
    obtain rfl : r' = r := Option.some.inj (hr'.symm.trans hr)
    obtain hcopy | hcopy := hcopy
    · exact hcopy ▸ hk.2.1
    · exact hcopy ▸ hk.2.2

/-- The server when the packets under way to it have arrived. -/
def PartyLink.delivered (l : PartyLink) : PartyMap :=
  l.down.foldl (fun s m => ((s.intifParseReply m).map Prod.fst).getD ⟨[], []⟩) l.map

theorem Settles.delivered {l : List PartyReply} {v : Int → Option Party}
    (h : ∀ k, Settles k (v k) l (bareSearch s.db k)) (up : List PartyRequest) :
    bareSearch (PartyLink.delivered ⟨s, up, l⟩).db k = v k := by
  unfold PartyLink.delivered
  dsimp only
  induction l generalizing s with
  | nil => exact h k
  | cons m l ih =>
    obtain ⟨r, hr, hrest⟩ := Settles.receive h
    rw [List.foldl_cons, hr]
    exact ih hrest

end Receive

/-! ## The char-server -/

section Conveys

variable {level : Int} {db db' db'' : List Party} {k : Int} {v : Option Party} {asked : Bool}

/-- A copy that agrees with the table: there is none, or it is the party of the table. -/
def Copied (db : List Party) (k : Int) (v : Option Party) : Prop := v = none ∨ v = bareSearch db k

/-- The packets take the copies that agree with a table to copies that agree with another. -/
def Conveys (db : List Party) (l : List PartyReply) (db' : List Party) : Prop :=
  ∀ k v, Copied db k v → ∃ v', Settles k v' l v ∧ Copied db' k v'

theorem Conveys.refl (db : List Party) : Conveys db [] db := fun _ v hv => ⟨v, rfl, hv⟩

theorem Conveys.append {l l' : List PartyReply} (h : Conveys db l db') (h' : Conveys db' l' db'') :
    Conveys db (l ++ l') db'' := fun k v hv => by
  obtain ⟨v₁, hsettles, hv₁⟩ := h k v hv
  obtain ⟨v₂, hsettles', hv₂⟩ := h' k v₁ hv₁
  exact ⟨v₂, hsettles.append hsettles', hv₂⟩

/-- A packet that announces nothing. -/
theorem Conveys.cons {m : PartyReply} {l : List PartyReply} (hm : ∀ k, m.announced k = none)
    (h : ∀ k v, Copied db k v → ∃ v', Settles k v' l (m.onto k v) ∧ Copied db' k v') :
    Conveys db (m :: l) db' := fun k v hv => by
  obtain ⟨v', hsettles, hv'⟩ := h k v hv
  exact ⟨v', (settles_cons (hm k)).mpr hsettles, hv'⟩

/-- Packets that announce nothing. -/
theorem conveys_of_fold {l : List PartyReply} (hl : ∀ m ∈ l, ∀ k, m.announced k = none)
    (h : ∀ k v, Copied db k v → Copied db' k (l.foldl (PartyReply.onto k) v)) :
    Conveys db l db' := fun k v hv => by
  refine ⟨l.foldl (PartyReply.onto k) v, ?_, h k v hv⟩
  clear h hv
  induction l generalizing v with
  | nil => rfl
  | cons m l ih =>
    rw [settles_cons (hl m List.mem_cons_self k)]
    exact ih (fun m hm => hl m (List.mem_cons_of_mem _ hm)) _

/-- The packets of `Party.lean` that come to a server. -/
def heard (asked : Bool) (l : List FromInter) : List PartyReply :=
  (l.map FromInter.sends).filterMap (PartySend.toServer asked)

theorem heard_append (l l' : List FromInter) :
    heard asked (l ++ l') = heard asked l ++ heard asked l' := by
  unfold heard
  rw [List.map_append, List.filterMap_append]

theorem toServer_sends {m : FromInter} {r : PartyReply} (h : m.sends.toServer asked = some r) :
    r = .answer (.sent m) := by
  cases m with
  | info p => exact (Option.some.inj h).symm
  | memberAdded P a flag =>
    unfold FromInter.sends PartySend.toServer at h
    dsimp only at h
    split at h
    · exact (Option.some.inj h).symm
    · cases h
  | optionChanged P a exp item flag =>
    unfold FromInter.sends PartySend.toServer at h
    dsimp only at h
    by_cases hflag : flag = 0
    · rw [if_pos hflag] at h
      exact (Option.some.inj h).symm
    · rw [if_neg hflag] at h
      dsimp only at h
      split at h
      · exact (Option.some.inj h).symm
      · cases h
  | memberLeaved P a n => exact (Option.some.inj h).symm
  | broken P => exact (Option.some.inj h).symm

theorem heard_announced (l : List FromInter) : ∀ m ∈ heard asked l, ∀ k, m.announced k = none := by
  intro m hm k
  obtain ⟨x, hx, hto⟩ := List.mem_filterMap.mp hm
  obtain ⟨y, -, rfl⟩ := List.mem_map.mp hx
  rw [toServer_sends hto]
  rfl

/-- The last packets for a party bring it, or take it away. -/
theorem conveys_put {p q : Party} {l : List PartyReply} (h : partySearch db q.partyId = some p)
    (hl : ∀ m ∈ l, ∀ k, m.announced k = none)
    (hfold : ∀ k v, l.foldl (PartyReply.onto k) v = if q.partyId = k then some q.bare else v) :
    Conveys db l (partyPut db q) := by
  refine conveys_of_fold hl fun k v hv => ?_
  rw [hfold]
  unfold Copied
  rw [bareSearch_put h]
  split
  · exact .inr rfl
  · exact hv

/-- The packets change the party where there is a copy. -/
theorem conveys_map {p q : Party} {f : Party → Party} {l : List PartyReply}
    (h : partySearch db q.partyId = some p) (hl : ∀ m ∈ l, ∀ k, m.announced k = none)
    (hfold : ∀ k v, l.foldl (PartyReply.onto k) v = if q.partyId = k then v.map f else v)
    (hf : f p.bare = q.bare) : Conveys db l (partyPut db q) := by
  refine conveys_of_fold hl fun k v hv => ?_
  rw [hfold]
  unfold Copied at hv ⊢
  rw [bareSearch_put h]
  split
  · rename_i hk
    obtain rfl | rfl := hv
    · exact .inl rfl
    · rw [bareSearch, ← hk, h, Option.map_some, Option.map_some, hf]
      exact .inr rfl
  · exact hv

theorem conveys_erase {P : Int} {l : List PartyReply} (hl : ∀ m ∈ l, ∀ k, m.announced k = none)
    (hfold : ∀ k v, l.foldl (PartyReply.onto k) v = if P = k then none else v) :
    Conveys db l (partyErase db P) := by
  refine conveys_of_fold hl fun k v hv => ?_
  rw [hfold]
  unfold Copied
  rw [bareSearch_erase]
  split
  · exact .inl rfl
  · exact hv

theorem Conveys.congr {l : List PartyReply} (h : Conveys db l db')
    (hdb : ∀ k, bareSearch db'' k = bareSearch db' k) : Conveys db l db'' := fun k v hv => by
  obtain ⟨v', hsettles, hv'⟩ := h k v hv
  refine ⟨v', hsettles, ?_⟩
  unfold Copied
  rwa [hdb]

/-- Packets that do nothing to a copy. -/
theorem conveys_quiet {l : List PartyReply} (hl : ∀ m ∈ l, ∀ k, m.announced k = none)
    (hfold : ∀ k v, l.foldl (PartyReply.onto k) v = v) : Conveys db l db :=
  conveys_of_fold hl fun k v hv => (hfold k v).symm ▸ hv

theorem conveys_addMember (level : Int) (db : List Party) (P a : Int) (nick map : String)
    (lv : Int) :
    Conveys db (heard asked (parsePartyAddMember level db P a nick map lv).2)
      (parsePartyAddMember level db P a nick map lv).1 := by
  have hrefused : Conveys db (heard asked [.memberAdded P a 1]) db :=
    conveys_quiet (heard_announced _) fun k v => by cases asked <;> rfl
  unfold parsePartyAddMember
  cases h : partySearch db P with
  | none => exact hrefused
  | some p =>
    obtain ⟨-, rfl⟩ := partySearch_mem h
    dsimp only
    split
    · exact hrefused
    · split
      · refine conveys_put h (heard_announced _) fun k v => ?_
        have hheard (m : Party) (n : Nat) : (heard asked [.memberAdded p.partyId a 0, .info m,
            .optionChanged p.partyId 0 0 n 0]).foldl (PartyReply.onto k) v =
            if p.partyId = k then
              (if m.partyId = k then some m.bare else v).map (Party.optioned 0 n 0)
            else if m.partyId = k then some m.bare else v := by
          cases asked <;> rfl
        rw [hheard]
        split
        · rfl
        · rfl
      · refine conveys_put h (heard_announced _) fun k v => ?_
        cases asked <;> rfl

/-- `conveys_leave`, for a table whose ids are positive. -/
theorem conveys_leave (hpos : ∀ p ∈ db, p.partyId ≠ 0) (P a : Int) :
    Conveys db (heard asked (parsePartyLeave db P a).2) (parsePartyLeave db P a).1 := by
  unfold parsePartyLeave
  cases h : partySearch db P with
  | none => exact Conveys.refl db
  | some p =>
    obtain ⟨hp, rfl⟩ := partySearch_mem h
    dsimp only
    split
    · exact Conveys.refl db
    · rename_i i hi
      unfold partyCheckEmpty
      rw [if_neg (hpos p hp)]
      split
      · -- the party is empty
        rename_i heq
        split at heq
        · cases heq
        · cases heq
          have herase : Conveys db (heard asked [.memberLeaved p.partyId a (p.member i).name,
              .broken p.partyId]) (partyErase db p.partyId) := by
            refine conveys_erase (heard_announced _) fun k v => ?_
            change (if p.partyId = k then none else if p.partyId = k then _ else v) = _
            split <;> rfl
          refine herase.congr fun k => ?_
          dsimp only
          rw [bareSearch_erase, bareSearch_erase]
          split
          · rfl
          · rename_i hk
            exact (bareSearch_put (q := { p with member := Function.update p.member i {} }) h).trans
              (if_neg hk)
      · rename_i heq
        split at heq
        · cases heq
          refine conveys_put h (heard_announced _) fun k v => ?_
          change (if p.partyId = k then some _ else if p.partyId = k then _ else v) = _
          split <;> rfl
        · cases heq

/-! ## The other requests -/

/-- The ids of the parties, and the next one. -/
def IdsBelow (newid : Int) (db : List Party) : Prop :=
  0 < newid ∧ ∀ p ∈ db, 0 < p.partyId ∧ p.partyId < newid

theorem IdsBelow.put {n : Int} {p q : Party} (h : IdsBelow n db)
    (hp : partySearch db q.partyId = some p) :
    IdsBelow n (partyPut db q) := by
  refine ⟨h.1, fun r hr => ?_⟩
  obtain ⟨rfl, -⟩ | ⟨hr, -⟩ := mem_partyPut.mp hr
  · obtain ⟨hp, hid⟩ := partySearch_mem hp
    exact hid ▸ h.2 p hp
  · exact h.2 r hr

theorem IdsBelow.erase {n : Int} (h : IdsBelow n db) (P : Int) : IdsBelow n (partyErase db P) :=
  ⟨h.1, fun r hr => h.2 r (mem_partyErase.mp hr).1⟩

theorem IdsBelow.leave {n : Int} (h : IdsBelow n db) (P a : Int) :
    IdsBelow n (parsePartyLeave db P a).1 := by
  unfold parsePartyLeave
  cases hs : partySearch db P with
  | none => exact h
  | some p =>
    obtain ⟨hp, rfl⟩ := partySearch_mem hs
    dsimp only
    split
    · exact h
    · rename_i i hi
      have hput : IdsBelow n (partyPut db { p with member := Function.update p.member i {} }) :=
        h.put hs
      unfold partyCheckEmpty
      rw [if_neg (h.2 p hp).1.ne']
      split <;> rename_i heq <;> split at heq <;> cases heq
      · exact hput.erase _
      · exact hput

/-- What a check for conflicts does is some leaves. -/
theorem checkConflict_kept {I : List Party × List FromInter → Prop}
    (hleave : ∀ r, I r → ∀ P a, I ((parsePartyLeave r.1 P a).1, r.2 ++ (parsePartyLeave r.1 P a).2))
    (h : I (db, [])) (P a : Int) (nick : String) : I (partyCheckConflict db P a nick) := by
  have hat (key : Int) (l : List (Fin maxParty)) (r : List Party × List FromInter) (hr : I r) :
      ∃ out, (l.foldl (partyCheckConflictAt a nick key) (r.1, [])).2 = out ∧
        I ((l.foldl (partyCheckConflictAt a nick key) (r.1, [])).1, r.2 ++ out) := by
    refine ⟨_, rfl, ?_⟩
    refine foldl_kept (I := fun s : List Party × List FromInter => I (s.1, r.2 ++ s.2))
      (fun s hs i => ?_) l (by simpa using hr)
    unfold partyCheckConflictAt
    split
    · exact hs
    · split
      · rw [← List.append_assoc]
        exact hleave _ hs key a
      · exact hs
  unfold partyCheckConflict
  refine foldl_kept (I := I) (fun r hr key => ?_) _ h
  unfold partyCheckConflictSub
  split
  · simpa using hr
  · obtain ⟨out, rfl, hout⟩ := hat key (List.finRange maxParty) r hr
    exact hout

theorem conveys_checkConflict {n : Int} (h : IdsBelow n db) (P a : Int) (nick : String) :
    Conveys db (heard asked (partyCheckConflict db P a nick).2)
      (partyCheckConflict db P a nick).1 := by
  refine (checkConflict_kept (I := fun r => IdsBelow n r.1 ∧ Conveys db (heard asked r.2) r.1)
    (fun r hr P a => ⟨hr.1.leave P a, ?_⟩) ⟨h, Conveys.refl db⟩ P a nick).2
  rw [heard_append]
  exact hr.2.append (conveys_leave (fun p hp => (hr.1.2 p hp).1.ne') P a)

theorem IdsBelow.checkConflict {n : Int} (h : IdsBelow n db) (P a : Int) (nick : String) :
    IdsBelow n (partyCheckConflict db P a nick).1 :=
  checkConflict_kept (I := fun r => IdsBelow n r.1) (fun _ hr P a => hr.leave P a) h P a nick

theorem IdsBelow.addMember {n : Int} (h : IdsBelow n db) (level P a : Int) (nick map : String)
    (lv : Int) : IdsBelow n (parsePartyAddMember level db P a nick map lv).1 := by
  unfold parsePartyAddMember
  cases hs : partySearch db P with
  | none => exact h
  | some p =>
    obtain ⟨-, rfl⟩ := partySearch_mem hs
    dsimp only
    split
    · exact h
    · split
      · exact h.put hs
      · exact h.put hs

theorem IdsBelow.inter {n : Int} (h : IdsBelow n db) (level : Int) (m : ToInter) :
    IdsBelow n (interPartyParse level db m).1 := by
  cases m with
  | addMember P a nick map lv => exact h.addMember level P a nick map lv
  | leave P a => exact h.leave P a
  | checkConflict P a nick => exact h.checkConflict P a nick

theorem conveys_inter {n : Int} (h : IdsBelow n db) (level : Int) (m : ToInter) :
    Conveys db (heard asked (interPartyParse level db m).2) (interPartyParse level db m).1 := by
  cases m with
  | addMember P a nick map lv => exact conveys_addMember level db P a nick map lv
  | leave P a => exact conveys_leave (fun p hp => (h.2 p hp).1.ne') P a
  | checkConflict P a nick => exact conveys_checkConflict h P a nick

theorem conveys_break (db : List Party) (P : Int) :
    Conveys db (heard asked (parseBreakParty db P).2) (parseBreakParty db P).1 := by
  unfold parseBreakParty
  split
  · exact Conveys.refl db
  · exact conveys_erase (heard_announced _) fun k v => rfl

/-- The packets of a change of map that come to a server. -/
theorem conveys_changeMap (level : Int) (db : List Party) (P a : Int) (map : String)
    (online : UInt8) (lv : UInt16) :
    Conveys db (((parsePartyChangeMap level db P a map online lv).2.map PartyAnswer.sends).filterMap
      (PartySend.toServer asked)) (parsePartyChangeMap level db P a map online lv).1 := by
  unfold parsePartyChangeMap
  cases h : partySearch db P with
  | none => exact Conveys.refl db
  | some p =>
    obtain ⟨-, rfl⟩ := partySearch_mem h
    dsimp only
    cases hi : Slots.first (fun m : PartyMember => m.accountId = a) p.member with
    | none => exact Conveys.refl db
    | some i =>
      have hmoved (online : Bool) (lv : Int) : p.bare.moved a map online lv =
          Party.bare { p with
            member := Function.update p.member i { p.member i with map, online, lv } } := by
        rw [← Party.bare_moved]
        unfold Party.moved
        rw [hi]
      dsimp only
      split
      · refine conveys_map
          (f := fun q => (q.moved a map (online % 2 = 1) lv.toNat).optioned 0 p.item 0) h ?_
          (fun k v => ?_) ?_
        · simp [PartyAnswer.sends, FromInter.sends, PartySend.toServer, PartyReply.announced]
        · change (if p.partyId = k then Option.map _ (if p.partyId = k then _ else v)
            else if p.partyId = k then _ else v) = _
          split
          · exact Option.map_map _ _ _
          · rfl
        · rw [hmoved]
          rfl
      · refine conveys_map (f := Party.moved a map (online % 2 = 1) lv.toNat) h ?_ (fun k v => rfl)
          (hmoved _ _)
        simp [PartyAnswer.sends, PartySend.toServer, PartyReply.announced]

/-- An answer about a new party goes to the server that asked, and the id is new. -/
theorem conveys_create {s : PartyServer} (h : IdsBelow s.newid s.db) (a : Int)
    (partyName nick map : String) (lv : UInt16) (item item2 : UInt8) :
    Conveys s.db (((parseCreateParty s a partyName nick map lv item item2).2.map fun m =>
      PartySend.back (.answer m)).filterMap (PartySend.toServer asked))
      (parseCreateParty s a partyName nick map lv item item2).1.db := by
  unfold parseCreateParty
  split
  · refine conveys_quiet ?_ fun k v => by cases asked <;> rfl
    cases asked <;> simp [PartySend.toServer, PartyReply.announced]
  · intro k v hv
    have hnew : partySearch s.db s.newid = none :=
      partySearch_none.mpr fun p hp => (h.2 p hp).2.ne
    dsimp only
    unfold Copied
    rw [bareSearch_insert]
    by_cases hk : s.newid = k
    · rw [if_pos hk]
      subst hk
      have hv : v = none := by
        obtain hv | hv := hv
        · exact hv
        · exact hv.trans (bareSearch_eq_none.mpr hnew)
      subst hv
      cases asked with
      | false => exact ⟨none, rfl, .inl rfl⟩
      | true =>
        refine ⟨_, ?_, .inr rfl⟩
        simp [PartySend.toServer, Settles, PartyReply.announced, PartyReply.onto]
    · rw [if_neg hk]
      refine ⟨v, ?_, hv⟩
      cases asked with
      | false => rfl
      | true => simp [PartySend.toServer, Settles, PartyReply.announced, PartyReply.onto, hk]

theorem conveys_info (db : List Party) (P : Int) :
    Conveys db ([PartySend.back (parsePartyInfo db P)].filterMap
      (PartySend.toServer asked)) db := by
  unfold parsePartyInfo
  cases asked with
  | false => exact Conveys.refl db
  | true =>
    cases h : partySearch db P with
    | none =>
      refine conveys_quiet ?_ fun k v => rfl
      simp [PartySend.toServer, PartyReply.announced]
    | some p =>
      obtain ⟨-, rfl⟩ := partySearch_mem h
      refine conveys_of_fold ?_ fun k v hv => ?_
      · simp [PartySend.toServer, PartyReply.announced]
      · change Copied db k (if p.partyId = k then some p.bare else v)
        split
        · rename_i hk
          rw [Copied, bareSearch, ← hk, h]
          exact .inr rfl
        · exact hv

/-- An option is changed in part: the levels are too far apart for the share. -/
def OptionRefused (level : Int) (p : Party) (exp : UInt16) : Prop :=
  0 < exp ∧ ¬ partyCheckExpShare level p

instance (level : Int) (p : Party) (exp : UInt16) : Decidable (OptionRefused level p exp) :=
  inferInstanceAs (Decidable (0 < exp ∧ ¬ partyCheckExpShare level p))

theorem parsePartyChangeOption_of_some {p : Party} (h : partySearch db P = some p) (a : Int)
    (exp : UInt16) (item : UInt8) :
    parsePartyChangeOption level db P a exp item =
      if OptionRefused level p exp then
        (partyPut db { p with exp := 0, item := item.toNat }, [.optionChanged P a 0 item.toNat 1])
      else
        (partyPut db { p with exp := exp.toUInt8.toNat, item := item.toNat },
          [.optionChanged P a exp.toUInt8.toNat item.toNat 0]) := by
  have hshare : partyCheckExpShare level { p with exp := exp.toUInt8.toNat } =
      partyCheckExpShare level p := partyCheckExpShare_congr rfl
  unfold parsePartyChangeOption
  rw [h]
  dsimp only
  rw [hshare]
  by_cases hoff : OptionRefused level p exp
  · have hoff' : decide (0 < exp ∧ ¬ partyCheckExpShare level p = true) = true :=
      decide_eq_true hoff
    rw [if_pos hoff, hoff']
    rfl
  · have hoff' : decide (0 < exp ∧ ¬ partyCheckExpShare level p = true) = false :=
      decide_eq_false hoff
    rw [if_neg hoff, hoff']
    rfl

/-- An option that is changed as a whole. -/
theorem conveys_changeOption {P : Int} {exp : UInt16}
    (h : ∀ p, partySearch db P = some p → ¬ OptionRefused level p exp) (a : Int) (item : UInt8) :
    Conveys db (heard asked (parsePartyChangeOption level db P a exp item).2)
      (parsePartyChangeOption level db P a exp item).1 := by
  cases hs : partySearch db P with
  | none =>
    unfold parsePartyChangeOption
    rw [hs]
    exact Conveys.refl db
  | some p =>
    rw [parsePartyChangeOption_of_some hs, if_neg (h p hs)]
    obtain ⟨-, rfl⟩ := partySearch_mem hs
    exact conveys_map (f := Party.optioned exp.toUInt8.toNat item.toNat 0) hs (heard_announced _)
      (fun k v => rfl) rfl

/-- An option that is changed in part, for the server that asked. -/
theorem conveys_refused {p : Party} {exp : UInt16} (hshare : SharesOk level db)
    (h : partySearch db p.partyId = some p) (hoff : OptionRefused level p exp) (a : Int)
    (item : UInt8) :
    Conveys db (heard true (parsePartyChangeOption level db p.partyId a exp item).2)
      (parsePartyChangeOption level db p.partyId a exp item).1 := by
  have hexp : p.exp = 0 := by
    by_contra h0
    exact hoff.2 (hshare.search h (Nat.pos_of_ne_zero h0))
  rw [parsePartyChangeOption_of_some h, if_pos hoff]
  refine conveys_map (f := Party.optioned 0 item.toNat 1) h (heard_announced _) (fun k v => rfl) ?_
  unfold Party.optioned Party.bare
  simp [hexp]

/-- The other servers do not hear of it. -/
theorem heard_refused {p : Party} {exp : UInt16} (h : partySearch db P = some p)
    (hoff : OptionRefused level p exp) (a : Int) (item : UInt8) :
    heard false (parsePartyChangeOption level db P a exp item).2 = [] := by
  rw [parsePartyChangeOption_of_some h, if_pos hoff]
  rfl

theorem conveys_same {p : Party} {exp : UInt16} (hshare : SharesOk level db)
    (h : partySearch db p.partyId = some p) (hoff : OptionRefused level p exp) (a : Int)
    {item : UInt8} (hitem : item.toNat = p.item) :
    Conveys db [] (parsePartyChangeOption level db p.partyId a exp item).1 := by
  have hexp : p.exp = 0 := by
    by_contra h0
    exact hoff.2 (hshare.search h (Nat.pos_of_ne_zero h0))
  rw [parsePartyChangeOption_of_some h, if_pos hoff]
  refine (Conveys.refl db).congr fun k => ?_
  refine bareSearch_put_bare (p := p) h ?_
  unfold Party.bare
  rw [hitem, ← hexp]

end Conveys

/-! ## What players do leaves the copies -/

section Acts

variable {s : PartyMap} {sd : PartyPlayer} {k : Int}

theorem bareSearch_checkOwn {p : Party} (h : partySearch s.db p.partyId = some p) :
    bareSearch (s.partyCheckOwn p).db k = bareSearch s.db k :=
  bareSearch_put_bare (p := p) h rfl

theorem bareSearch_sendMovemap (s : PartyMap) (sd : PartyPlayer) (sended : Bool) :
    bareSearch (s.partySendMovemap sd sended).1.db k = bareSearch s.db k := by
  unfold PartyMap.partySendMovemap
  split
  · rfl
  · split
    · rfl
    · dsimp only
      split
      · rfl
      · rename_i p hp
        obtain ⟨-, hid⟩ := partySearch_mem hp
        exact bareSearch_checkOwn (hid ▸ hp)

theorem bareSearch_sendLogout (s : PartyMap) (sd : PartyPlayer) :
    bareSearch (s.partySendLogout sd).1.db k = bareSearch s.db k := by
  unfold PartyMap.partySendLogout
  dsimp only
  split
  · split
    · rfl
    · rename_i p hp
      obtain ⟨-, hid⟩ := partySearch_mem hp
      exact bareSearch_put_bare (p := p) (q := { p with member := _ }) (hid ▸ hp) rfl
  · rfl

theorem invite_db (s : PartyMap) (check : Bool) (sd : PartyPlayer) (a : Int) :
    (s.partyInvite check sd a).db = s.db := by
  unfold PartyMap.partyInvite
  split
  · split_ifs <;> rfl
  · rfl

theorem replyInvite_db (s : PartyMap) (sd : PartyPlayer) (flag : Nat) :
    (s.partyReplyInvite sd flag).1.db = s.db := by
  unfold PartyMap.partyReplyInvite
  split <;> rfl

theorem bareSearch_acts (conf : PartyServersConf) (s : PartyMap) (sd : PartyPlayer)
    (a : PartyAction) :
    bareSearch (s.acts conf sd a).1.db k = bareSearch s.db k := by
  cases a with
  | create name item item2 => rfl
  | invite a => exact congrArg (bareSearch · k) (invite_db s _ sd a)
  | replyInvite flag => exact congrArg (bareSearch · k) (replyInvite_db s sd flag)
  | leave => rfl
  | removeMember a name => rfl
  | changeOption exp item => rfl
  | level baseLevel => rfl
  | moveMap map sended =>
    exact bareSearch_sendMovemap (s.setPlayer sd.accountId fun sd => { sd with map })
      { sd with map } sended
  | logout => exact bareSearch_sendLogout s sd

theorem pcAuthok_db (s : PartyMap) (sd : PartyPlayer) : (s.pcAuthok sd).1.db = s.db := by
  unfold PartyMap.pcAuthok
  dsimp only
  split
  · rfl
  · split
    · rfl
    · split <;> rfl

end Acts

/-! ## All servers -/

section Servers

variable {ι : Type} {level : Int} {w : PartyServers ι}

/-- Once the packets under way have arrived, the map-servers that have a party have its options and
members. -/
def PartyServers.Replicated (w : PartyServers ι) : Prop :=
  ∀ i k p, partySearch (w.link i).delivered.db k = some p →
    ∃ q, partySearch w.server.db k = some q ∧ p.exp = q.exp ∧ p.item = q.item ∧
      ∀ j, (p.member j).key = (q.member j).key

/-- Nothing is under way. -/
def PartyServers.Quiet (w : PartyServers ι) : Prop := ∀ i, (w.link i).up = [] ∧ (w.link i).down = []

/-- An option that is changed in part is the one the party has, or no other map-server has the
party, once the packets under way have arrived. -/
def PartyServers.OptionKnown (level : Int) (w : PartyServers ι) : PartyServersEvent ι → Prop
  | .charReceives i =>
    match (w.link i).up with
    | .changeOption partyId _ exp item :: _ =>
      ∀ p, partySearch w.server.db partyId = some p → OptionRefused level p exp →
        item.toNat = p.item ∨ ∀ j ≠ i, partySearch (w.link j).delivered.db partyId = none
    | _ => True
  | _ => True

/-- What holds in every run. -/
structure PartyServersInv (level : Int) (w : PartyServers ι) : Prop where
  share : SharesOk level w.server.db
  ids : IdsBelow w.server.newid w.server.db
  copies : ∀ i, ∃ v : Int → Option Party, ∀ k,
    Settles k (v k) (w.link i).down (bareSearch (w.link i).map.db k) ∧ Copied w.server.db k (v k)

theorem PartyServersInv.delivered (h : PartyServersInv level w) (i : ι) (k : Int) :
    Copied w.server.db k (bareSearch (w.link i).delivered.db k) := by
  obtain ⟨v, hv⟩ := h.copies i
  have hdelivered : bareSearch (w.link i).delivered.db k = v k :=
    Settles.delivered (fun k => (hv k).1) (w.link i).up
  rw [hdelivered]
  exact (hv k).2

theorem bare_inj {p q : Party} (h : p.bare = q.bare) :
    p.exp = q.exp ∧ p.item = q.item ∧ ∀ j, (p.member j).key = (q.member j).key := by
  have hexp := congrArg Party.exp h
  have hitem := congrArg Party.item h
  have hmember := congrArg Party.member h
  refine ⟨hexp, hitem, fun j => ?_⟩
  have hkey : (p.bare.member j).key = (q.bare.member j).key :=
    congrArg PartyMember.key (congrFun hmember j)
  exact hkey

theorem PartyServersInv.replicated (h : PartyServersInv level w) : w.Replicated := by
  intro i k p hp
  have hcopy := h.delivered i k
  rw [Copied, bareSearch, hp] at hcopy
  obtain hcopy | hcopy := hcopy
  · cases hcopy
  · obtain ⟨q, hq, hbare⟩ := Option.map_eq_some_iff.mp hcopy.symm
    exact ⟨q, hq, bare_inj hbare.symm⟩

/-- The invariant is about the tables, the copies and the packets to the map-servers. -/
theorem PartyServersInv.congr {w' : PartyServers ι} (h : PartyServersInv level w)
    (hserver : w'.server = w.server) (hdown : ∀ i, (w'.link i).down = (w.link i).down)
    (hmap : ∀ i k, bareSearch (w'.link i).map.db k = bareSearch (w.link i).map.db k) :
    PartyServersInv level w' := by
  refine ⟨hserver ▸ h.share, hserver ▸ h.ids, fun i => ?_⟩
  obtain ⟨v, hv⟩ := h.copies i
  refine ⟨v, fun k => ?_⟩
  rw [hdown, hmap, hserver]
  exact hv k

variable [DecidableEq ι]

theorem mapDoes_link (w : PartyServers ι) (i j : ι) (r : PartyMap × List PartyRequest) :
    (w.mapDoes i r).link j =
      if j = i then { w.link i with map := r.1, up := (w.link i).up ++ r.2 } else w.link j :=
  Function.update_apply w.link i _ j

theorem PartyServersInv.mapDoes (h : PartyServersInv level w) (i : ι)
    (r : PartyMap × List PartyRequest)
    (hr : ∀ k, bareSearch r.1.db k = bareSearch (w.link i).map.db k) :
    PartyServersInv level (w.mapDoes i r) := by
  refine h.congr rfl (fun j => ?_) fun j k => ?_
  · rw [mapDoes_link]
    split
    · rename_i hj
      rw [hj]
    · rfl
  · rw [mapDoes_link]
    split
    · rename_i hj
      rw [hj]
      exact hr k
    · rfl

/-- The packets that the char-server sends take the copies along. -/
theorem PartyServersInv.charDoes (h : PartyServersInv level w) (i : Option ι)
    {r : PartyServer × List PartySend} (hshare : SharesOk level r.1.db)
    (hids : IdsBelow r.1.newid r.1.db)
    (hcopies : ∀ j k v, v = bareSearch (w.link j).delivered.db k → Copied w.server.db k v →
      ∃ v', Settles k v' (r.2.filterMap (PartySend.toServer (i = some j))) v ∧ Copied r.1.db k v') :
    PartyServersInv level (w.charDoes i r) := by
  refine ⟨hshare, hids, fun j => ?_⟩
  obtain ⟨v, hv⟩ := h.copies j
  have hdelivered (k : Int) : v k = bareSearch (w.link j).delivered.db k :=
    (Settles.delivered (fun k => (hv k).1) (w.link j).up).symm
  choose v' hsettles hcopied using fun k => hcopies j k (v k) (hdelivered k) (hv k).2
  exact ⟨v', fun k => ⟨(hv k).1.append (hsettles k), hcopied k⟩⟩

/-- Packets that take all copies along. -/
theorem PartyServersInv.carried (h : PartyServersInv level w) (i : Option ι)
    {r : PartyServer × List PartySend} (hshare : SharesOk level r.1.db)
    (hids : IdsBelow r.1.newid r.1.db)
    (hconveys : ∀ asked, Conveys w.server.db (r.2.filterMap (PartySend.toServer asked)) r.1.db) :
    PartyServersInv level (w.charDoes i r) :=
  h.charDoes i hshare hids fun _ k v _ hv => hconveys _ k v hv

/-- A packet of a map-server is off its way. -/
theorem PartyServersInv.takeUp (h : PartyServersInv level w) (i : ι) (up : List PartyRequest) :
    PartyServersInv level { w with link := Function.update w.link i { w.link i with up } } := by
  refine h.congr rfl (fun j => ?_) fun j k => ?_
  · dsimp only
    rw [Function.update_apply]
    split
    · rename_i hj
      rw [hj]
    · rfl
  · dsimp only
    rw [Function.update_apply]
    split
    · rename_i hj
      rw [hj]
    · rfl

theorem delivered_up (l : PartyLink) (up : List PartyRequest) :
    PartyLink.delivered { l with up } = l.delivered := rfl

/-- An option that is changed in part, and that the other servers need not know. -/
theorem PartyServersInv.refused (h : PartyServersInv level w) (i : ι) {p : Party} {exp : UInt16}
    (a : Int) {item : UInt8} (hp : partySearch w.server.db p.partyId = some p)
    (hoff : OptionRefused level p exp)
    (hknown : item.toNat = p.item ∨ ∀ j ≠ i, partySearch (w.link j).delivered.db p.partyId = none)
    (hshare : SharesOk level (parsePartyChangeOption level w.server.db p.partyId a exp item).1)
    (hids : IdsBelow w.server.newid
      (parsePartyChangeOption level w.server.db p.partyId a exp item).1) :
    PartyServersInv level (w.charDoes (some i)
      (interPartyParseFrommap level w.server (.changeOption p.partyId a exp item))) := by
  refine h.charDoes (some i) hshare hids fun j k v hdelivered hv => ?_
  by_cases hj : i = j
  · rw [decide_eq_true (congrArg some hj)]
    exact conveys_refused h.share hp hoff a item k v hv
  · rw [decide_eq_false fun hij => hj (Option.some.inj hij)]
    change ∃ v', Settles k v' (heard false (parsePartyChangeOption level w.server.db p.partyId a exp
      item).2) v ∧ Copied (parsePartyChangeOption level w.server.db p.partyId a exp item).1 k v'
    rw [heard_refused hp hoff]
    obtain hitem | hnone := hknown
    · exact conveys_same h.share hp hoff a hitem k v hv
    · refine ⟨v, rfl, ?_⟩
      rw [parsePartyChangeOption_of_some hp, if_pos hoff, Copied]
      dsimp only
      by_cases hk : p.partyId = k
      · subst hk
        exact .inl (hdelivered.trans (bareSearch_eq_none.mpr (hnone j (Ne.symm hj))))
      · refine hv.imp_right fun hv => hv.trans ?_
        exact ((bareSearch_put (p := p) (q := { p with exp := 0, item := item.toNat }) hp).trans
          (if_neg hk)).symm

theorem IdsBelow.checkEmpty {n : Int} {db : List Party} (h : IdsBelow n db) (p : Party) :
    IdsBelow n (partyCheckEmpty db p).2.1 := by
  unfold partyCheckEmpty
  split
  · exact h
  · split
    · exact h
    · exact h.erase p.partyId

theorem IdsBelow.changeOption {n : Int} {db : List Party} (h : IdsBelow n db) (P a : Int)
    (exp : UInt16) (item : UInt8) :
    IdsBelow n (parsePartyChangeOption level db P a exp item).1 := by
  unfold parsePartyChangeOption
  cases hs : partySearch db P with
  | none => exact h
  | some p =>
    obtain ⟨-, rfl⟩ := partySearch_mem hs
    exact h.put hs

theorem IdsBelow.changeMap {n : Int} {db : List Party} (h : IdsBelow n db) (P a : Int)
    (map : String) (online : UInt8) (lv : UInt16) :
    IdsBelow n (parsePartyChangeMap level db P a map online lv).1 := by
  unfold parsePartyChangeMap
  cases hs : partySearch db P with
  | none => exact h
  | some p =>
    obtain ⟨-, rfl⟩ := partySearch_mem hs
    dsimp only
    split
    · exact h
    · split
      · exact h.put hs
      · exact h.put hs

theorem IdsBelow.insert {n : Int} {db : List Party} {p : Party} (h : IdsBelow n db)
    (hp : 0 < p.partyId) : IdsBelow (max n (p.partyId + 1)) (partyInsert db p) := by
  have hn := le_max_left n (p.partyId + 1)
  have hp' := le_max_right n (p.partyId + 1)
  refine ⟨h.1.trans_le hn, fun q hq => ?_⟩
  have hcases : q = p ∨ q ∈ db := by
    unfold partyInsert at hq
    split at hq
    · exact (mem_partyPut.mp hq).imp And.left And.left
    · exact (List.mem_append.mp hq).symm.imp_left List.mem_singleton.mp
  obtain rfl | hq := hcases
  · exact ⟨hp, by omega⟩
  · exact ⟨(h.2 q hq).1, (h.2 q hq).2.trans_le hn⟩

theorem IdsBelow.create {s : PartyServer} (h : IdsBelow s.newid s.db) (a : Int)
    (partyName nick map : String) (lv : UInt16) (item item2 : UInt8) :
    IdsBelow (parseCreateParty s a partyName nick map lv item item2).1.newid
      (parseCreateParty s a partyName nick map lv item item2).1.db := by
  unfold parseCreateParty
  split
  · exact h
  · dsimp only
    have hmax : max s.newid (s.newid + 1) = s.newid + 1 := max_eq_right (by omega)
    have hnext {p : Party} (hp : p.partyId = s.newid) :
        IdsBelow (s.newid + 1) (partyInsert s.db p) := by
      have hinsert := h.insert (p := p) (hp ▸ h.1)
      rwa [hp, hmax] at hinsert
    exact hnext rfl

theorem IdsBelow.request {s : PartyServer} (h : IdsBelow s.newid s.db) (m : PartyRequest) :
    IdsBelow (interPartyParseFrommap level s m).1.newid
      (interPartyParseFrommap level s m).1.db := by
  cases m with
  | create a partyName nick map lv item item2 => exact h.create a partyName nick map lv item item2
  | info P => exact h
  | changeOption P a exp item => exact h.changeOption P a exp item
  | changeMap P a map online lv => exact h.changeMap P a map online lv
  | breakParty P =>
    change IdsBelow s.newid (parseBreakParty s.db P).1
    unfold parseBreakParty
    split
    · exact h
    · exact h.erase P
  | inter m => exact h.inter level m

theorem SharesOk.request {s : PartyServer} (h : SharesOk level s.db) (m : PartyRequest) :
    SharesOk level (interPartyParseFrommap level s m).1.db := by
  cases m with
  | create a partyName nick map lv item item2 =>
    exact h.partyOp (.create a partyName nick map lv item item2)
  | info P => exact h
  | changeOption P a exp item => exact h.changeOption P a exp item
  | changeMap P a map online lv => exact h.changeMap P a map online lv
  | breakParty P => exact h.partyOp (.breakParty P)
  | inter m =>
    cases m with
    | addMember P a nick map lv => exact h.addMember P a nick map lv
    | leave P a => exact h.leave P a
    | checkConflict P a nick => exact h.checkConflict P a nick

/-- **A request takes all copies along** unless it is an option that is changed in part. -/
theorem conveys_request {s : PartyServer} (h : IdsBelow s.newid s.db) {m : PartyRequest}
    (hm : ∀ P a exp item, m = .changeOption P a exp item → ∀ p, partySearch s.db P = some p →
      ¬ OptionRefused level p exp) (asked : Bool) :
    Conveys s.db ((interPartyParseFrommap level s m).2.filterMap (PartySend.toServer asked))
      (interPartyParseFrommap level s m).1.db := by
  cases m with
  | create a partyName nick map lv item item2 =>
    exact conveys_create h a partyName nick map lv item item2
  | info P => exact conveys_info s.db P
  | changeOption P a exp item => exact conveys_changeOption (hm P a exp item rfl) a item
  | changeMap P a map online lv => exact conveys_changeMap level s.db P a map online lv
  | breakParty P => exact conveys_break s.db P
  | inter m => exact conveys_inter h level m

/-- What an event keeps. -/
theorem partyServersStep_inv {conf : PartyServersConf} (h : PartyServersInv conf.partyShareLevel w)
    {e : PartyServersEvent ι} (hknown : w.OptionKnown conf.partyShareLevel e) :
    PartyServersInv conf.partyShareLevel (partyServersStep conf w e) := by
  cases e with
  | login i sd =>
    unfold partyServersStep
    dsimp only
    split
    · exact h
    · exact h.mapDoes i _ fun k => congrArg (bareSearch · k) (pcAuthok_db _ sd)
  | act i a act =>
    unfold partyServersStep
    dsimp only
    split
    · exact h
    · exact h.mapDoes i _ fun k => bareSearch_acts conf _ _ act
  | deleted P a =>
    refine h.carried none (h.share.leave P a) (h.ids.leave P a) fun asked => ?_
    exact conveys_leave (fun p hp => (h.ids.2 p hp).1.ne') P a
  | mapReceives i =>
    unfold partyServersStep
    dsimp only
    cases hdown : (w.link i).down with
    | nil => exact h
    | cons m down =>
      obtain ⟨v, hv⟩ := h.copies i
      obtain ⟨r, hr, hsettles⟩ := Settles.receive fun k => hdown ▸ (hv k).1
      dsimp only
      rw [hr]
      refine ⟨h.share, h.ids, fun j => ?_⟩
      dsimp only
      rw [Function.update_apply]
      split
      · exact ⟨v, fun k => ⟨hsettles k, (hv k).2⟩⟩
      · exact h.copies j
  | charReceives i =>
    unfold partyServersStep
    dsimp only
    cases hup : (w.link i).up with
    | nil => exact h
    | cons m up =>
      have htake := h.takeUp i up
      dsimp only
      by_cases hm : ∀ P a exp item, m = .changeOption P a exp item → ∀ p,
          partySearch w.server.db P = some p → ¬ OptionRefused conf.partyShareLevel p exp
      · exact htake.carried (some i) (h.share.request m) (h.ids.request m)
          (conveys_request h.ids hm)
      · push Not at hm
        obtain ⟨P, a, exp, item, rfl, p, hp, hoff⟩ := hm
        unfold PartyServers.OptionKnown at hknown
        dsimp only at hknown
        rw [hup] at hknown
        obtain ⟨-, rfl⟩ := partySearch_mem hp
        refine htake.refused i a hp hoff ?_ (h.share.changeOption p.partyId a exp item)
          (h.ids.changeOption p.partyId a exp item)
        refine (hknown p hp hoff).imp_right fun hnone j hj => ?_
        dsimp only
        rw [Function.update_of_ne hj]
        exact hnone j hj

/-- **An option that another server should know** is one that it does not know afterwards. -/
theorem partyServersStep_replicated {conf : PartyServersConf}
    (h : PartyServersInv conf.partyShareLevel w) (e : PartyServersEvent ι) :
    (partyServersStep conf w e).Replicated ↔ w.OptionKnown conf.partyShareLevel e := by
  refine ⟨fun hrep => ?_, fun hknown => (partyServersStep_inv h hknown).replicated⟩
  cases e with
  | charReceives i =>
    unfold PartyServers.OptionKnown
    dsimp only
    split
    · rename_i P a exp item up hup
      intro p hp hoff
      by_contra hnot
      push Not at hnot
      obtain ⟨hitem, j, hj, hsome⟩ := hnot
      obtain ⟨q, hq⟩ := Option.ne_none_iff_exists'.mp hsome
      -- the copy of the other server is the party before the change
      have hcopy := h.delivered j P
      rw [Copied, bareSearch, hq, bareSearch, hp] at hcopy
      obtain hcopy | hcopy := hcopy
      · cases hcopy
      · obtain ⟨-, hsame, -⟩ := bare_inj (Option.some.inj hcopy)
        have hlink : ((partyServersStep conf w (.charReceives i)).link j).delivered =
            (w.link j).delivered := by
          unfold partyServersStep PartyServers.charDoes
          dsimp only
          rw [hup]
          dsimp only
          rw [Function.update_of_ne hj, decide_eq_false fun hij => hj (Option.some.inj hij).symm]
          have hheard := heard_refused hp hoff a item
          unfold heard at hheard
          unfold interPartyParseFrommap
          dsimp only
          rw [hheard, List.append_nil]
        obtain ⟨r, hr, -, hitem', -⟩ := hrep j P q (hlink ▸ hq)
        have hdb : (partyServersStep conf w (.charReceives i)).server.db =
            (parsePartyChangeOption conf.partyShareLevel w.server.db P a exp item).1 := by
          unfold partyServersStep
          dsimp only
          rw [hup]
          rfl
        obtain ⟨-, rfl⟩ := partySearch_mem hp
        rw [hdb, parsePartyChangeOption_of_some hp, if_pos hoff] at hr
        have hput : partySearch (partyPut w.server.db { p with exp := 0, item := item.toNat })
            p.partyId = _ := partySearch_put hp rfl
        rw [if_pos rfl] at hput
        have hr' := Option.some.inj (hr.symm.trans hput)
        rw [hr'] at hitem'
        exact hitem (hitem'.symm.trans hsame)
    · trivial
  | login i sd => trivial
  | act i a act => trivial
  | mapReceives i => trivial
  | deleted P a => trivial

theorem IdsBelow.load {s : PartyServer} (h : IdsBelow s.newid s.db) (line : List UInt8) :
    IdsBelow (loadPartyLine s line).newid (loadPartyLine s line).db := by
  have hmono {n n' : Int} {db : List Party} (h : IdsBelow n db) (hn : n ≤ n') : IdsBelow n' db :=
    ⟨h.1.trans_le hn, fun p hp => ⟨(h.2 p hp).1, (h.2 p hp).2.trans_le hn⟩⟩
  unfold loadPartyLine
  split
  · exact h
  · split
    · exact hmono h (le_max_left _ _)
    · split
      · exact h
      · rename_i r hr
        split
        · rename_i hpos
          have hid : 0 < (Party.ofRecord r).partyId := Int32.lt_iff_toInt_lt.mp hpos
          have hinsert := (h.insert hid).checkEmpty (Party.ofRecord r)
          have hmax : max s.newid ((Party.ofRecord r).partyId + 1) =
              if s.newid ≤ (Party.ofRecord r).partyId then (Party.ofRecord r).partyId + 1
              else s.newid := by
            split <;> omega
          rw [hmax] at hinsert
          exact hinsert
        · exact h

/-- The parties have been read, and nothing has happened yet. -/
def PartyServers.loaded (lines : List (List UInt8)) : PartyServers ι where
  server := lines.foldl loadPartyLine {}

omit [DecidableEq ι] in
theorem partyServersInv_loaded (level : Int) (lines : List (List UInt8)) :
    PartyServersInv level (PartyServers.loaded lines : PartyServers ι) := by
  have hread : SharesOk level (lines.foldl loadPartyLine {}).db ∧
      IdsBelow (lines.foldl loadPartyLine {}).newid (lines.foldl loadPartyLine {}).db := by
    refine foldl_kept (I := fun s : PartyServer => SharesOk level s.db ∧ IdsBelow s.newid s.db)
      (fun s hs line => ⟨hs.1.load line, hs.2.load line⟩) lines ?_
    simp [SharesOk, IdsBelow]
  exact ⟨hread.1, hread.2, fun _ => ⟨fun _ => none, fun _ => ⟨rfl, .inl rfl⟩⟩⟩

/-- **The copies of the parties agree in a run** if and only if every option that is changed in part
is the one the party has, or no other map-server has the party. -/
theorem partyOptions_exact_iff (conf : PartyServersConf) (lines : List (List UInt8))
    (es : List (PartyServersEvent ι)) :
    Run.Meets (partyServersStep conf) (fun w e => (partyServersStep conf w e).Replicated)
        (.loaded lines) es ↔
      Run.Meets (partyServersStep conf) (PartyServers.OptionKnown conf.partyShareLevel)
        (.loaded lines) es :=
  Run.meets_iff_of_kept (I := PartyServersInv conf.partyShareLevel)
    (fun _ _ h hknown => partyServersStep_inv h hknown)
    (fun _ e h => partyServersStep_replicated h e) (partyServersInv_loaded _ lines)

end Servers

/-- Two players whose levels are far apart, on one of two map-servers. -/
def farApart : List (PartyServersEvent Bool) :=
  [.login true { accountId := 1, name := "Alice", baseLevel := 1 },
    .login true { accountId := 2, name := "Bob", baseLevel := 50 },
    .act true 1 (.create "party" 0 0), .charReceives true, .mapReceives true, .mapReceives true,
    .act true 1 (.invite 2), .act true 2 (.replyInvite 1), .charReceives true,
    .mapReceives true, .mapReceives true, .mapReceives false, .charReceives true,
    .act true 1 (.changeOption 1 1), .charReceives true, .mapReceives true]

/-- The servers afterwards. -/
def farApartEnd : PartyServers Bool := Run.exec (partyServersStep {}) (.loaded []) farApart

/-- The other server does not learn that items are shared. -/
theorem partyOptions_apart : ¬ ∀ (conf : PartyServersConf) (es : List (PartyServersEvent Bool)),
    (Run.exec (partyServersStep conf) (.loaded []) es).Quiet →
      (Run.exec (partyServersStep conf) (.loaded []) es).Replicated := by
  intro h
  have hlengths (i : Bool) :
      (farApartEnd.link i).up.length = 0 ∧ (farApartEnd.link i).down.length = 0 := by
    revert i
    decide
  have hquiet : farApartEnd.Quiet := fun i =>
    ⟨List.length_eq_zero_iff.mp (hlengths i).1, List.length_eq_zero_iff.mp (hlengths i).2⟩
  have hother :
      (partySearch (farApartEnd.link false).delivered.db 100).map Party.item = some 0 := by
    decide
  have hserver : (partySearch farApartEnd.server.db 100).map Party.item = some 1 := by
    decide
  have hrep : farApartEnd.Replicated := h {} farApart hquiet
  obtain ⟨p, hp, hitem⟩ := Option.map_eq_some_iff.mp hother
  obtain ⟨q, hq, -, hsame, -⟩ := hrep false 100 p hp
  rw [hq, Option.map_some, ← hsame, hitem] at hserver
  exact absurd hserver (by decide)

end Nezumi
