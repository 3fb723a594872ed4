import Nezumi.Lib.Membership
import Nezumi.Party.PartyLemmas

/-!
# What each character sees of the parties

* `downOf`, `upOf`: what a packet says about one character.
* `PartyViews`: the copies of the map-server are in order for every character, and the `party_id`
  for every connected one (`Membership.CopyOk`, `Membership.GroupOk`).
* `PartyViews.leaved`, `.info`, `.broken`, `.added`, `.quiet`: the char-server sends a packet.
* `PartyViews.intifParse`: the map-server receives one.
-/

namespace Nezumi

open Membership

def PartyPlayer.key (sd : PartyPlayer) : Int × String := (sd.accountId, sd.name)

/-- The party of a player. -/
def PartyPlayer.party (sd : PartyPlayer) : Option Int :=
  if sd.partyId = 0 then none else some sd.partyId

/-- What a packet to the map-server says about a character. -/
def downOf (c : Int × String) : FromInter → Option (Down Int)
  | .info p => some (.info p.partyId (decide (p.Lists c)))
  | .memberAdded partyId accountId flag =>
    if accountId = c.1 ∧ flag ≠ 1 then some (.added partyId) else none
  | .optionChanged .. => none
  | .memberLeaved partyId accountId name =>
    if accountId = c.1 then some (.left partyId (decide (name = c.2))) else none
  | .broken partyId => some (.broken partyId)

/-- What a packet to the char-server asks for an account. -/
def upOf (a : Int) : ToInter → Option (Up Int)
  | .addMember partyId accountId .. => if accountId = a then some (.join partyId) else none
  | .leave partyId accountId => if accountId = a then some (.leave partyId) else none
  | .checkConflict partyId accountId _ =>
    if accountId = a then some (.conflict partyId) else none

structure PartyViews (s : PartyMap) (db : List Party) (up : List ToInter) (down : List FromInter) :
    Prop where
  copies : ∀ c : Int × String, c.1 ≠ 0 →
    CopyOk (InParty db c) (InParty s.db c) (down.filterMap (downOf c))
  groups : ∀ sd ∈ s.players, GroupOk (InParty db sd.key) sd.party
    (up.filterMap (upOf sd.accountId)) (down.filterMap (downOf sd.key))

/-- Players are connected under different accounts. -/
structure PlayersApart (players : List PartyPlayer) : Prop where
  distinct : (players.map PartyPlayer.accountId).Nodup
  pos : ∀ sd ∈ players, 0 < sd.accountId

namespace PartyViews

variable {s : PartyMap} {db db' : List Party} {up up' : List ToInter} {down : List FromInter}
variable {P a : Int} {n : String} {m : FromInter}

/-! ## The char-server sends a packet -/

/-- The table stays and the packet says nothing about anybody. -/
theorem quiet (h : PartyViews s db up down) (out : List FromInter)
    (hout : ∀ m ∈ out, ∀ c, downOf c m = none) : PartyViews s db up (down ++ out) := by
  have e : ∀ c, (down ++ out).filterMap (downOf c) = down.filterMap (downOf c) := fun c => by
    rw [List.filterMap_append, List.filterMap_eq_nil_iff.mpr fun m hm => hout m hm c,
      List.append_nil]
  exact ⟨fun c hc => e c ▸ h.copies c hc, fun sd hsd => e sd.key ▸ h.groups sd hsd⟩

theorem ask (h : PartyViews s db up down) (hup : ∀ m ∈ up, m ∈ up') : PartyViews s db up' down := by
  refine ⟨h.copies, fun sd hsd => (h.groups sd hsd).ask fun m hm => ?_⟩
  obtain ⟨x, hx, e⟩ := List.mem_filterMap.mp hm
  exact List.mem_filterMap.mpr ⟨x, hup x hx, e⟩

/-- `mapif_party_info`, when the table has the entries that are sent. -/
theorem info (h : PartyViews s db up down) (hs : PlayersApart s.players) {p : Party}
    (hp : ∀ c : Int × String, c.1 ≠ 0 → (p.Lists c ↔ InParty db c p.partyId)) :
    PartyViews s db up (down ++ [FromInter.info p]) := by
  refine ⟨fun c hc => ?_, fun sd hsd => ?_⟩
  · rw [filterMap_concat]
    refine (h.copies c hc).post (fun P hP => ?_) (fun P _ => id) fun P hP => by cases hP
    simp only [Down.copied] at hP
    split at hP
    · rename_i hid
      rw [← hid, ← hp c hc]
      simpa using hP
    · cases hP
  · rw [filterMap_concat]
    refine (h.groups sd hsd).post (fun P => by simp [Down.member]) fun P hP hl => ?_
    have hne := (hs.pos sd hsd).ne'
    rcases hP with hP | hP
    · injection hP with hid hno
      rw [← hid, ← hp sd.key hne] at hl
      exact absurd hl (by simpa using hno)
    · cases hP

/-- `mapif_party_broken`, when no character is listed any more. -/
theorem broken (h : PartyViews s db up down) (hs : PlayersApart s.players)
    (hP : ∀ c : Int × String, c.1 ≠ 0 → ¬ InParty db c P) :
    PartyViews s db up (down ++ [FromInter.broken P]) := by
  refine ⟨fun c hc => ?_, fun sd hsd => ?_⟩
  · rw [filterMap_concat]
    refine (h.copies c hc).post (fun Q hQ => ?_) (fun Q _ => id) fun Q hQ => ?_
    · simp [Down.copied] at hQ
    · cases hQ
      exact hP c hc
  · rw [filterMap_concat]
    refine (h.groups sd hsd).post (fun Q => by simp [Down.member]) fun Q hQ => ?_
    rcases hQ with hQ | hQ <;> cases hQ
    exact hP sd.key (hs.pos sd hsd).ne'

/-- `mapif_party_leaved`, with the entry that is removed. A connected player of the account with
another name is not in the party. -/
theorem leaved (h : PartyViews s db up down) (hs : PlayersApart s.players)
    (hdb : ∀ c : Int × String, c.1 ≠ 0 → ∀ Q,
      InParty db' c Q ↔ InParty db c Q ∧ ¬ (Q = P ∧ c = (a, n)))
    (hother : ∀ sd ∈ s.players, sd.accountId = a → sd.name ≠ n → ¬ InParty db sd.key P) :
    PartyViews s db' up (down ++ [FromInter.memberLeaved P a n]) := by
  refine ⟨fun c hc => ?_, fun sd hsd => ?_⟩
  · rw [filterMap_concat]
    by_cases hca : a = c.1
    · simp only [downOf, if_pos hca, Option.toList_some]
      refine (h.copies c hc).post (fun Q hQ => ?_) (fun Q hQ hl => ?_) fun Q hQ => by cases hQ
      · simp [Down.copied] at hQ
      · refine (hdb c hc Q).mpr ⟨hl, ?_⟩
        rintro ⟨rfl, rfl⟩
        simp [Down.copied] at hQ
    · simp only [downOf, if_neg hca, Option.toList_none, List.append_nil]
      refine (h.copies c hc).mono fun Q hl => (hdb c hc Q).mpr ⟨hl, fun ⟨_, e⟩ => hca ?_⟩
      rw [e]
  · have hne : sd.key.1 ≠ 0 := (hs.pos sd hsd).ne'
    rw [filterMap_concat]
    by_cases hca : a = sd.key.1
    · simp only [downOf, if_pos hca, Option.toList_some]
      refine (h.groups sd hsd).post (fun Q => ?_) fun Q hQ => by rcases hQ with hQ | hQ <;> cases hQ
      rw [hdb sd.key hne]
      by_cases hPQ : P = Q
      · simp only [Down.member, if_pos hPQ, Option.some.injEq, Bool.false_eq_true, reduceCtorEq,
          false_and, or_self, iff_false]
        rintro ⟨hl, hno⟩
        by_cases hn : sd.name = n
        · exact hno ⟨hPQ.symm, Prod.ext hca.symm hn⟩
        · exact hother sd hsd hca.symm hn (hPQ ▸ hl)
      · simp only [Down.member, if_neg hPQ, reduceCtorEq, true_and, false_or]
        exact and_iff_left fun hno => hPQ hno.1.symm
    · simp only [downOf, if_neg hca, Option.toList_none, List.append_nil]
      refine (h.groups sd hsd).congr fun Q => ?_
      rw [hdb sd.key hne]
      exact and_iff_left fun hno => hca (congrArg Prod.fst hno.2).symm

/-- `mapif_party_memberadded`, with the new entry. -/
theorem added (h : PartyViews s db up down) (hs : PlayersApart s.players)
    (hdb : ∀ c : Int × String, c.1 ≠ 0 → ∀ Q,
      InParty db' c Q ↔ InParty db c Q ∨ Q = P ∧ (a, n) = c)
    (hname : ∀ sd ∈ s.players, sd.accountId = a → sd.name = n) :
    PartyViews s db' up (down ++ [FromInter.memberAdded P a 0]) := by
  refine ⟨fun c hc => ?_, fun sd hsd => ?_⟩
  · have hmono : ∀ Q, InParty db c Q → InParty db' c Q := fun Q hl => (hdb c hc Q).mpr (.inl hl)
    rw [filterMap_concat]
    by_cases hca : a = c.1
    · simp only [downOf, if_pos hca, ne_eq, zero_ne_one, not_false_eq_true, and_true,
        Option.toList_some]
      exact (h.copies c hc).post (fun Q hQ => by cases hQ) (fun Q _ => hmono Q)
        fun Q hQ => by cases hQ
    · simp only [downOf, hca, false_and, if_false, Option.toList_none, List.append_nil]
      exact (h.copies c hc).mono hmono
  · have hne : sd.key.1 ≠ 0 := (hs.pos sd hsd).ne'
    rw [filterMap_concat]
    by_cases hca : a = sd.key.1
    · simp only [downOf, if_pos hca, ne_eq, zero_ne_one, not_false_eq_true, and_true,
        Option.toList_some]
      refine (h.groups sd hsd).post (fun Q => ?_) fun Q hQ => by rcases hQ with hQ | hQ <;> cases hQ
      rw [hdb sd.key hne]
      have hkey : (a, n) = sd.key := Prod.ext hca (hname sd hsd hca.symm).symm
      by_cases hPQ : P = Q
      · simp [Down.member, hPQ, hkey]
      · simp [Down.member, hPQ, Ne.symm hPQ]
    · simp only [downOf, hca, false_and, if_false, Option.toList_none, List.append_nil]
      refine (h.groups sd hsd).congr fun Q => ?_
      rw [hdb sd.key hne]
      exact or_iff_left fun hno => hca (congrArg Prod.fst hno.2)

/-! ## The map-server receives a packet -/

/-- What a packet says about a character, if it says something. -/
def Heard (c : Int × String) (m : FromInter) (now now' : Option Int) : Prop :=
  now' = match downOf c m with
    | none => now
    | some d => d.group now

theorem receive (h : PartyViews s db up (m :: down)) {s' : PartyMap} (hup : ∀ x ∈ up, x ∈ up')
    (hcopies : ∀ c : Int × String, c.1 ≠ 0 → ∀ P, InParty s'.db c P →
      (∃ d, downOf c m = some d ∧ d.copied P = some true) ∨
        (∀ d, downOf c m = some d → d.copied P = none) ∧ InParty s.db c P)
    (hplayers : ∀ sd' ∈ s'.players, ∃ sd ∈ s.players, sd'.key = sd.key ∧
      Heard sd.key m sd.party sd'.party)
    (hadded : ∀ sd ∈ s.players, ∀ r, downOf sd.key m = some (.added r) →
      .checkConflict r sd.accountId sd.name ∈ up') : PartyViews s' db up' down := by
  refine ⟨fun c hc => ?_, fun sd' hsd' => ?_⟩
  · have hold := h.copies c hc
    rw [List.filterMap_cons] at hold
    cases hd : downOf c m with
    | none =>
      rw [hd] at hold
      refine hold.sub fun P hP => ?_
      rcases hcopies c hc P hP with ⟨d, hd', -⟩ | ⟨-, hP⟩
      · simp [hd] at hd'
      · exact hP
    | some d =>
      rw [hd] at hold
      refine hold.receive fun P hP => ?_
      rcases hcopies c hc P hP with ⟨d', hd', ht⟩ | ⟨hn, hP⟩
      · rw [hd] at hd'
        cases hd'
        exact .inl ht
      · exact .inr ⟨hn d hd, hP⟩
  · obtain ⟨sd, hsd, hkey, hparty⟩ := hplayers sd' hsd'
    have haccount : sd'.accountId = sd.accountId := congrArg Prod.fst hkey
    have hmem : ∀ x ∈ up.filterMap (upOf sd.accountId), x ∈ up'.filterMap (upOf sd.accountId) :=
      fun x hx => by
        obtain ⟨y, hy, e⟩ := List.mem_filterMap.mp hx
        exact List.mem_filterMap.mpr ⟨y, hup y hy, e⟩
    have hold := h.groups sd hsd
    rw [List.filterMap_cons] at hold
    rw [hkey, haccount, hparty]
    cases hd : downOf sd.key m with
    | none =>
      rw [hd] at hold
      exact hold.ask hmem
    | some d =>
      rw [hd] at hold
      refine hold.receive hmem fun r hr => ?_
      exact List.mem_filterMap.mpr ⟨_, hadded sd hsd r (hd.trans (congrArg some hr)), if_pos rfl⟩

end PartyViews

/-! ## The functions of the map-server -/

section Receives

variable {s : PartyMap} {db : List Party} {up : List ToInter} {down : List FromInter}
variable {P a : Int} {n : String} {sd : PartyPlayer} {c : Int × String} {Q : Int}

theorem mem_setPlayer {f : PartyPlayer → PartyPlayer} (h : sd ∈ (s.setPlayer a f).players) :
    ∃ q ∈ s.players, sd = if q.accountId = a then f q else q := by
  obtain ⟨q, hq, rfl⟩ := List.mem_map.mp h
  exact ⟨q, hq, rfl⟩

theorem inParty_of_put {p q : Party} (h : InParty (partyPut s.db p) c Q) (hq : q ∈ s.db)
    (hid : p.partyId = q.partyId) (hl : p.Lists c → q.Lists c) : InParty s.db c Q := by
  rw [inParty_put] at h
  split at h
  · rename_i hQ
    exact ⟨q, hq, (hQ.trans hid).symm, hl h.1⟩
  · exact h

/-- A player that a list does not name is in another party: nobody is thrown out. -/
theorem partyRecvInfo_players {p : Party} (h : PartyViews s db up (.info p :: down)) :
    (s.partyRecvInfo p).players = s.players := by
  unfold PartyMap.partyRecvInfo
  cases hs : partySearch s.db p.partyId with
  | some q => rfl
  | none =>
    refine (List.map_congr_left fun sd hsd => ?_).trans (List.map_id' _)
    split
    · rename_i hcond
      obtain ⟨hid, hno⟩ := hcond
      by_cases hzero : sd.partyId = 0
      · rw [← hzero]
      · have hl : ¬ p.Lists sd.key := by
          rintro ⟨i, hi⟩
          have := Slots.first_eq_none_iff.mp (Option.isNone_iff_eq_none.mp hno) i
          simp only [decide_eq_false_iff_not] at this
          exact this ⟨congrArg Prod.fst hi, congrArg Prod.snd hi⟩
        have hgroup := h.groups sd hsd
        rw [List.filterMap_cons] at hgroup
        refine absurd ?_ (hgroup.elsewhere (g := p.partyId) (.inl (by simp [hl])))
        rw [PartyPlayer.party, if_neg hzero, hid]
    · rfl

theorem inParty_recvInfo {p : Party} (h : InParty (s.partyRecvInfo p).db c Q) :
    (Q = p.partyId ∧ p.Lists c) ∨ (Q ≠ p.partyId ∧ InParty s.db c Q) := by
  unfold PartyMap.partyRecvInfo at h
  rw [inParty_put] at h
  by_cases hQ : Q = p.partyId
  · rw [if_pos hQ] at h
    obtain ⟨⟨i, hi⟩, -⟩ := h
    exact .inl ⟨hQ, i, hi⟩
  · rw [if_neg hQ] at h
    refine .inr ⟨hQ, ?_⟩
    cases hs : partySearch s.db p.partyId with
    | some q => rwa [hs] at h
    | none =>
      rw [hs] at h
      obtain ⟨q, hq, hid, hl⟩ := h
      rcases List.mem_append.mp hq with hq | hq
      · exact ⟨q, hq, hid, hl⟩
      · rw [List.mem_singleton.mp hq] at hid
        exact absurd hid.symm hQ

theorem PartyViews.recvInfo {p : Party} (h : PartyViews s db up (.info p :: down)) :
    PartyViews (s.partyRecvInfo p) db up down := by
  refine h.receive (fun _ hx => hx) (fun c hc Q hQ => ?_) (fun sd hsd => ?_) fun sd _ r hr => ?_
  · rcases inParty_recvInfo hQ with ⟨rfl, hl⟩ | ⟨hne, hQ⟩
    · exact .inl ⟨_, rfl, by simp [Down.copied, hl]⟩
    · refine .inr ⟨fun d hd => ?_, hQ⟩
      cases hd
      exact if_neg hne.symm
  · rw [partyRecvInfo_players h] at hsd
    exact ⟨sd, hsd, rfl, rfl⟩
  · cases hr

theorem PartyViews.memberAdded {flag : Nat} (h : PartyViews s db up (.memberAdded P a flag :: down))
    (hs : PlayersApart s.players) (hP : flag ≠ 1 → P ≠ 0) :
    PartyViews (s.partyMemberAdded P a flag).1 db (up ++ (s.partyMemberAdded P a flag).2) down := by
  have hcopies : ∀ {s' : PartyMap}, s'.db = s.db → ∀ c : Int × String, c.1 ≠ 0 → ∀ P',
      InParty s'.db c P' →
        (∃ d, downOf c (.memberAdded P a flag) = some d ∧ d.copied P' = some true) ∨
          (∀ d, downOf c (.memberAdded P a flag) = some d → d.copied P' = none) ∧
            InParty s.db c P' := by
    intro s' e c _ P' hP'
    refine .inr ⟨fun d hd => ?_, e ▸ hP'⟩
    simp only [downOf] at hd
    split at hd <;> cases hd
    rfl
  unfold PartyMap.partyMemberAdded
  cases hsd : s.id2sd a with
  | none =>
    have hno : ∀ sd ∈ s.players, downOf sd.key (.memberAdded P a flag) = none := fun sd hmem =>
      if_neg fun e => List.find?_eq_none.mp hsd sd hmem (decide_eq_true e.1.symm)
    refine h.receive (fun _ => List.mem_append_left _) (hcopies rfl) (fun sd hmem => ?_)
      fun sd hmem r hr => ?_
    · exact ⟨sd, hmem, rfl, by rw [PartyViews.Heard, hno sd hmem]⟩
    · rw [hno sd hmem] at hr
      cases hr
  | some sd₀ =>
    have h₀ : sd₀ ∈ s.players := List.mem_of_find?_eq_some hsd
    have ha₀ : sd₀.accountId = a := by simpa using List.find?_some hsd
    dsimp only
    by_cases hflag : flag = 1
    · rw [if_pos hflag]
      have hno : ∀ c, downOf c (.memberAdded P a flag) = none := fun c => if_neg fun e => e.2 hflag
      refine h.receive (fun _ => List.mem_append_left _) (hcopies rfl) (fun sd hmem => ?_)
        fun sd hmem r hr => ?_
      · obtain ⟨q, hq, rfl⟩ := mem_setPlayer hmem
        refine ⟨q, hq, ?_, ?_⟩
        · split <;> rfl
        · rw [PartyViews.Heard, hno]
          split <;> rfl
      · rw [hno] at hr
        cases hr
    · rw [if_neg hflag]
      refine h.receive (fun _ => List.mem_append_left _) (hcopies rfl) (fun sd hmem => ?_)
        fun sd hmem r hr => ?_
      · obtain ⟨q', hq', rfl⟩ := mem_setPlayer hmem
        obtain ⟨q, hq, rfl⟩ := mem_setPlayer hq'
        refine ⟨q, hq, ?_, ?_⟩
        · by_cases hqa : q.accountId = a <;> simp [hqa, PartyPlayer.key]
        · by_cases hqa : q.accountId = a
          · simp [PartyViews.Heard, downOf, PartyPlayer.key, hqa, hflag, Down.group,
              PartyPlayer.party, hP hflag]
          · simp [PartyViews.Heard, downOf, PartyPlayer.key, hqa, Ne.symm hqa]
      · have hcond : a = sd.accountId ∧ P = r := by
          by_cases e : a = sd.accountId ∧ flag ≠ 1
          · rw [downOf, PartyPlayer.key, if_pos e] at hr
            cases hr
            exact ⟨e.1, rfl⟩
          · rw [downOf, PartyPlayer.key, if_neg e] at hr
            cases hr
        obtain ⟨rfl, rfl⟩ := hcond
        obtain rfl : sd₀ = sd := List.inj_on_of_nodup_map hs.distinct h₀ hmem ha₀
        exact List.mem_append_right _ (List.mem_singleton.mpr rfl)

theorem PartyViews.memberLeaved (h : PartyViews s db up (.memberLeaved P a n :: down)) :
    PartyViews (s.partyMemberLeaved P a n) db up down := by
  refine h.receive (fun _ hx => hx) (fun c hc Q hQ => ?_) (fun sd hsd => ?_) fun sd _ r hr => ?_
  · right
    have hdb : InParty s.db c Q ∧ ¬ (P = Q ∧ c = (a, n)) := by
      unfold PartyMap.partyMemberLeaved at hQ
      cases hp : partySearch s.db P with
      | none =>
        rw [hp] at hQ
        refine ⟨hQ, ?_⟩
        rintro ⟨rfl, -⟩
        obtain ⟨p, hp', hid, -⟩ := hQ
        exact partySearch_none.mp hp p hp' hid
      | some p =>
        rw [hp] at hQ
        obtain ⟨hmem, rfl⟩ := partySearch_mem hp
        have hkeep : ∀ i, ((if (p.member i).accountId = a ∧ (p.member i).name = n then {}
            else p.member i : PartyMember)).key = c → (p.member i).key = c ∧ c ≠ (a, n) := by
          intro i hi
          split at hi
          · exact absurd (congrArg Prod.fst hi).symm hc
          · rename_i hno
            refine ⟨hi, fun e => hno ?_⟩
            rw [e] at hi
            exact ⟨congrArg Prod.fst hi, congrArg Prod.snd hi⟩
        refine ⟨inParty_of_put hQ hmem rfl fun ⟨i, hi⟩ => ⟨i, (hkeep i hi).1⟩, ?_⟩
        rintro ⟨rfl, rfl⟩
        have hQ' := inParty_put.mp hQ
        rw [if_pos rfl] at hQ'
        obtain ⟨⟨i, hi⟩, -⟩ := hQ'
        exact (hkeep i hi).2 rfl
    refine ⟨fun d hd => ?_, hdb.1⟩
    simp only [downOf] at hd
    split at hd
    · rename_i hac
      cases hd
      refine if_neg fun e => hdb.2 ⟨e.1, Prod.ext hac.symm ?_⟩
      exact (of_decide_eq_true e.2).symm
    · cases hd
  · obtain ⟨q, hq, rfl⟩ := mem_setPlayer hsd
    have hq : q ∈ s.players := by
      revert hq
      cases partySearch s.db P <;> exact id
    refine ⟨q, hq, ?_, ?_⟩
    · by_cases hqa : q.accountId = a <;> by_cases hqP : q.partyId = P <;>
        simp [hqa, hqP, PartyPlayer.key]
    · by_cases hqa : q.accountId = a
      · by_cases hqP : q.partyId = P
        · by_cases hzero : P = 0 <;>
            simp [PartyViews.Heard, downOf, PartyPlayer.key, hqa, hqP, Down.group,
              PartyPlayer.party, hzero]
        · simp [PartyViews.Heard, downOf, PartyPlayer.key, hqa, hqP, Down.group,
            PartyPlayer.party]
      · simp [PartyViews.Heard, downOf, PartyPlayer.key, hqa, Ne.symm hqa]
  · simp only [downOf] at hr
    split at hr <;> cases hr

/-- The entries of a party that is broken up are those of nobody. -/
theorem partyBroken_players (h : PartyViews s db up (.broken P :: down)) (hs : PlayersApart s.players) :
    (s.partyBroken P).players = s.players := by
  unfold PartyMap.partyBroken
  cases hp : partySearch s.db P with
  | none => rfl
  | some p =>
    obtain ⟨hmem, hid⟩ := partySearch_mem hp
    have hzero : ∀ i, (p.member i).accountId = 0 := fun i => by
      by_contra hne
      have hc := h.copies (p.member i).key hne
      rw [List.filterMap_cons] at hc
      exact hc.empty ⟨p, hmem, hid, i, rfl⟩
    have hskip : ∀ l : List (Fin maxParty), l.foldl (fun s i =>
        if (p.member i).sd then s.setPlayer (p.member i).accountId fun sd => { sd with partyId := 0 }
        else s) s = s := by
      intro l
      induction l with
      | nil => rfl
      | cons i l ih =>
        rw [List.foldl_cons]
        have e : s.setPlayer (p.member i).accountId (fun sd => { sd with partyId := 0 }) = s := by
          have hmap : s.players.map (fun sd => if sd.accountId = (p.member i).accountId then
              { sd with partyId := 0 } else sd) = s.players := by
            refine (List.map_congr_left fun sd hsd => ?_).trans (List.map_id' _)
            exact if_neg fun e => (hs.pos sd hsd).ne' (e.trans (hzero i))
          rw [PartyMap.setPlayer, hmap]
        rw [e, ite_self]
        exact ih
    dsimp only
    rw [hskip]

theorem PartyViews.partyBroken (h : PartyViews s db up (.broken P :: down))
    (hs : PlayersApart s.players) : PartyViews (s.partyBroken P) db up down := by
  refine h.receive (fun _ hx => hx) (fun c hc Q hQ => .inr ?_) (fun sd hsd => ?_) fun sd _ r hr => ?_
  · have hdb : InParty s.db c Q ∧ Q ≠ P := by
      unfold PartyMap.partyBroken at hQ
      cases hp : partySearch s.db P with
      | none =>
        rw [hp] at hQ
        refine ⟨hQ, ?_⟩
        rintro rfl
        obtain ⟨p, hp', hid, -⟩ := hQ
        exact partySearch_none.mp hp p hp' hid
      | some p =>
        rw [hp] at hQ
        have hfold : ∀ (l : List (Fin maxParty)) (t : PartyMap), (l.foldl (fun s i =>
            if (p.member i).sd then s.setPlayer (p.member i).accountId fun sd =>
              { sd with partyId := 0 } else s) t).db = t.db := by
          intro l
          induction l with
          | nil => exact fun _ => rfl
          | cons i l ih =>
            intro t
            rw [List.foldl_cons, ih]
            split <;> rfl
        dsimp only at hQ
        rw [hfold] at hQ
        exact inParty_erase.mp hQ
    refine ⟨fun d hd => ?_, hdb.1⟩
    cases hd
    exact if_neg hdb.2.symm
  · rw [partyBroken_players h hs] at hsd
    exact ⟨sd, hsd, rfl, rfl⟩
  · cases hr

theorem PartyViews.optionChanged {exp item flag : Nat}
    (h : PartyViews s db up (.optionChanged P a exp item flag :: down)) :
    PartyViews (s.partyOptionchanged P exp item flag) db up down := by
  have hplayers : (s.partyOptionchanged P exp item flag).players = s.players := by
    unfold PartyMap.partyOptionchanged
    cases partySearch s.db P <;> rfl
  refine h.receive (fun _ hx => hx) (fun c hc Q hQ => .inr ⟨fun d hd => (by cases hd), ?_⟩)
    (fun sd hsd => ?_) fun sd _ r hr => by cases hr
  · unfold PartyMap.partyOptionchanged at hQ
    cases hp : partySearch s.db P with
    | none => rwa [hp] at hQ
    | some p =>
      rw [hp] at hQ
      refine inParty_of_put hQ (partySearch_mem hp).1 ?_ ?_
      · split <;> split <;> rfl
      · split <;> split <;> exact id
  · rw [hplayers] at hsd
    exact ⟨sd, hsd, rfl, rfl⟩

/-- **The map-server receives a packet** and stays in order. -/
theorem PartyViews.intifParse {m : FromInter} (h : PartyViews s db up (m :: down))
    (hs : PlayersApart s.players) (hm : ∀ P a flag, m = .memberAdded P a flag → flag ≠ 1 → P ≠ 0) :
    PartyViews (s.intifParse m).1 db (up ++ (s.intifParse m).2) down := by
  cases m with
  | info p => simpa [PartyMap.intifParse] using h.recvInfo
  | memberAdded P a flag => exact h.memberAdded hs (hm P a flag rfl)
  | optionChanged P a exp item flag => simpa [PartyMap.intifParse] using h.optionChanged
  | memberLeaved P a n => simpa [PartyMap.intifParse] using h.memberLeaved
  | broken P => simpa [PartyMap.intifParse] using h.partyBroken hs

/-! ## Who is connected -/

theorem PlayersApart.of_keys {players players' : List PartyPlayer} (h : PlayersApart players)
    (hkeys : players'.map PartyPlayer.key = players.map PartyPlayer.key) : PlayersApart players' := by
  have hacc : players'.map PartyPlayer.accountId = players.map PartyPlayer.accountId := by
    simpa [List.map_map, Function.comp_def, PartyPlayer.key] using congrArg (List.map Prod.fst) hkeys
  refine ⟨hacc ▸ h.distinct, fun sd hsd => ?_⟩
  have hmem : sd.accountId ∈ players.map PartyPlayer.accountId :=
    hacc ▸ List.mem_map_of_mem hsd
  obtain ⟨q, hq, e⟩ := List.mem_map.mp hmem
  exact e ▸ h.pos q hq

/-- Two players with the same account are the same. -/
theorem PlayersApart.name_eq {players : List PartyPlayer} (h : PlayersApart players)
    (hn : (a, n) ∈ players.map PartyPlayer.key) (hsd : sd ∈ players) (ha : sd.accountId = a) :
    sd.name = n := by
  obtain ⟨q, hq, e⟩ := List.mem_map.mp hn
  have haq : q.accountId = a := congrArg Prod.fst e
  obtain rfl := List.inj_on_of_nodup_map h.distinct hq hsd (haq.trans ha.symm)
  exact congrArg Prod.snd e

theorem PlayersApart.pos_of_mem {players : List PartyPlayer} (h : PlayersApart players)
    (hn : (a, n) ∈ players.map PartyPlayer.key) : 0 < a := by
  obtain ⟨sd, hsd, e⟩ := List.mem_map.mp hn
  have ha : sd.accountId = a := congrArg Prod.fst e
  exact ha ▸ h.pos sd hsd

theorem keys_map {players : List PartyPlayer} {f : PartyPlayer → PartyPlayer}
    (hf : ∀ sd, (f sd).key = sd.key) :
    (players.map f).map PartyPlayer.key = players.map PartyPlayer.key := by
  rw [List.map_map]
  exact List.map_congr_left fun sd _ => hf sd

theorem keys_setPlayer {f : PartyPlayer → PartyPlayer} (hf : ∀ sd, (f sd).key = sd.key) :
    (s.setPlayer a f).players.map PartyPlayer.key = s.players.map PartyPlayer.key := by
  refine keys_map fun sd => ?_
  split
  · exact hf sd
  · rfl

theorem keys_foldl_setPlayer {p : Party} (l : List (Fin maxParty)) (t : PartyMap) :
    (l.foldl (fun s i => if (p.member i).sd then
        s.setPlayer (p.member i).accountId fun sd => { sd with partyId := 0 } else s)
      t).players.map PartyPlayer.key = t.players.map PartyPlayer.key := by
  induction l generalizing t with
  | nil => rfl
  | cons i l ih =>
    rw [List.foldl_cons, ih]
    split
    · exact keys_setPlayer fun _ => rfl
    · rfl

/-- Packets change what is known about players, not who they are. -/
theorem keys_intifParse (m : FromInter) :
    (s.intifParse m).1.players.map PartyPlayer.key = s.players.map PartyPlayer.key := by
  cases m with
  | info p =>
    simp only [PartyMap.intifParse, PartyMap.partyRecvInfo]
    cases partySearch s.db p.partyId with
    | some q => rfl
    | none =>
      refine keys_map fun sd => ?_
      split <;> rfl
  | memberAdded P a flag =>
    simp only [PartyMap.intifParse, PartyMap.partyMemberAdded]
    cases s.id2sd a with
    | none => rfl
    | some sd₀ =>
      dsimp only
      split
      · exact keys_setPlayer fun _ => rfl
      · refine (keys_setPlayer fun sd => ?_).trans (keys_setPlayer fun sd => ?_)
        · rfl
        · rfl
  | optionChanged P a exp item flag =>
    simp only [PartyMap.intifParse, PartyMap.partyOptionchanged]
    cases partySearch s.db P <;> rfl
  | memberLeaved P a n =>
    simp only [PartyMap.intifParse, PartyMap.partyMemberLeaved]
    refine (keys_setPlayer fun sd => ?_).trans ?_
    · split <;> rfl
    · cases partySearch s.db P <;> rfl
  | broken P =>
    simp only [PartyMap.intifParse, PartyMap.partyBroken]
    cases partySearch s.db P with
    | none => rfl
    | some p => exact keys_foldl_setPlayer _ s

end Receives

end Nezumi
