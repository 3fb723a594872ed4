import Nezumi.Lib.Run
import Nezumi.Party.PartyViews

/-!
# Agreement about parties over whole runs (`map/party.c`, `char/int_party.c`)

* `PartyAgreed`: each character has one entry at most in one party at most, and the `party_id` of a
  connected player is the party that lists the character.
* `OrderlyRequest` is the condition on a packet that the char-server receives: a new member has no
  entry yet, and the entry that a leave removes is that of the connected player of the account.
* `PartyOk` is the invariant, `partyOk_step` its step.
* `partyRun_agreed`: whenever nothing is under way, the servers agree.
* `partyRun_not_agreed`: a player who accepts an invitation twice is listed twice.
-/

namespace Nezumi

open Membership

/-! ## What is claimed -/

/-- No packet is under way. -/
def PartyWorld.Quiet (w : PartyWorld) : Prop := w.up.isEmpty ∧ w.down.isEmpty

instance (w : PartyWorld) : Decidable w.Quiet :=
  inferInstanceAs (Decidable (w.up.isEmpty ∧ w.down.isEmpty))

structure PartyAgreed (w : PartyWorld) : Prop where
  once : ∀ p ∈ w.db, ∀ q ∈ w.db, ∀ i j, (p.member i).accountId ≠ 0 →
    (p.member i).key = (q.member j).key → p.partyId = q.partyId ∧ i = j
  same : ∀ sd ∈ w.map.players, ∀ P, P ≠ 0 → (sd.partyId = P ↔ InParty w.db sd.key P)

/-- A state to begin with: the servers agree, nothing is under way, and the copies of the map-server
show nobody that the char-server does not list. -/
structure PartyStart (w : PartyWorld) : Prop where
  quiet : w.Quiet
  agreed : PartyAgreed w
  apart : PlayersApart w.map.players
  keys : (w.db.map Party.partyId).Nodup
  ne_zero : ∀ p ∈ w.db, p.partyId ≠ 0
  nonneg : ∀ p ∈ w.db, ∀ i, 0 ≤ (p.member i).accountId
  copies : ∀ p ∈ w.map.db, ∀ i, (p.member i).accountId ≠ 0 → InParty w.db (p.member i).key p.partyId

/-- A packet that the char-server can serve without taking one entry for another. -/
def OrderlyRequest (w : PartyWorld) : ToInter → Prop
  | .addMember partyId accountId nick .. => ¬ InParty w.db (accountId, nick) partyId
  | .leave partyId accountId => ∀ sd ∈ w.map.players, sd.accountId = accountId →
      Removes w.db accountId sd.name partyId
  | .checkConflict partyId accountId nick => ∀ p ∈ w.db, p.partyId ≠ partyId →
      Removes w.db accountId nick p.partyId

def PartyStepOk (w : PartyWorld) : PartyEvent → Prop
  | .charReceives => ∀ m ∈ w.up.head?, OrderlyRequest w m
  | _ => True

/-! ## The invariant -/

/-- The table of the char-server and what each character sees of it. -/
structure PartyTable (s : PartyMap) (db : List Party) (up : List ToInter) (down : List FromInter) :
    Prop where
  table : PartiesOk db
  away : ∀ c : Int × String, c.1 ≠ 0 → c ∉ s.players.map PartyPlayer.key →
    ∀ P Q, InParty db c P → InParty db c Q → P = Q
  tells : ∀ P a flag, .memberAdded P a flag ∈ down → flag ≠ 1 → P ≠ 0
  views : PartyViews s db up down

/-- Requests with a name come from the connected player of the account. -/
def Asks (players : List PartyPlayer) : ToInter → Prop
  | .addMember _ accountId nick .. => (accountId, nick) ∈ players.map PartyPlayer.key
  | .leave .. => True
  | .checkConflict _ accountId nick => (accountId, nick) ∈ players.map PartyPlayer.key

structure PartyOk (w : PartyWorld) : Prop where
  apart : PlayersApart w.map.players
  asks : ∀ m ∈ w.up, Asks w.map.players m
  table : PartyTable w.map w.db w.up w.down

section Table

variable {s : PartyMap} {db : List Party} {up : List ToInter} {down : List FromInter}
variable {P a r : Int} {n : String}

theorem PartyTable.send (h : PartyTable s db up down) {db' : List Party} {out : List FromInter}
    (htable : PartiesOk db') (haway : ∀ c : Int × String, c.1 ≠ 0 →
      c ∉ s.players.map PartyPlayer.key → ∀ Q, InParty db' c Q → InParty db c Q)
    (htells : ∀ P a flag, .memberAdded P a flag ∈ out → flag ≠ 1 → P ≠ 0)
    (hviews : PartyViews s db' up (down ++ out)) : PartyTable s db' up (down ++ out) := by
  refine ⟨htable, fun c hc hno P Q hP hQ => ?_, fun P a flag hm => ?_, hviews⟩
  · exact h.away c hc hno P Q (haway c hc hno P hP) (haway c hc hno Q hQ)
  · rcases List.mem_append.mp hm with hm | hm
    · exact h.tells P a flag hm
    · exact htells P a flag hm

theorem inParty_leave_of (h : PartiesOk db) {p : Party} {i : Fin maxParty} (hp : p ∈ db)
    (hi : Slots.first (fun m => m.accountId = a) p.member = some i) {c : Int × String}
    (hc : c.1 ≠ 0) (Q : Int) : InParty (parsePartyLeave db p.partyId a).1 c Q ↔
      InParty db c Q ∧ ¬ (Q = p.partyId ∧ c = (a, (p.member i).name)) := by
  have ha : (p.member i).accountId = a := by simpa using Slots.first_some hi
  rw [inParty_leave h hc]
  refine and_congr_right fun _ => not_congr ⟨?_, fun ⟨hQ, e⟩ => ⟨p, hp, i, rfl, hQ, hi, ?_⟩⟩
  · rintro ⟨q, hq, j, hid, hQ, hj, rfl⟩
    obtain rfl := List.inj_on_of_nodup_map h.keys hq hp hid
    rw [hi] at hj
    cases hj
    exact ⟨hQ, by rw [PartyMember.key, ha]⟩
  · rw [e, PartyMember.key, ha]

/-- **A leave keeps the table.** -/
theorem PartyTable.leave (h : PartyTable s db up down) (hs : PlayersApart s.players)
    (hr : ∀ sd ∈ s.players, sd.accountId = a → Removes db a sd.name P) :
    PartyTable s (parsePartyLeave db P a).1 up (down ++ (parsePartyLeave db P a).2) := by
  have htable := h.table
  refine h.send (htable.leave P a) (fun c hc _ Q hQ => ((inParty_leave htable hc).mp hQ).1) ?_ ?_
  · rcases parsePartyLeave_cases db P a htable with ⟨e, -⟩ | ⟨p, -, i, -, -, ⟨e, -⟩ | e⟩
    all_goals simp [e]
  · rcases parsePartyLeave_cases db P a htable with ⟨e, -⟩ | ⟨p, hp, i, rfl, hi, hcase⟩
    · rw [e, List.append_nil]
      exact h.views
    · have hin := fun (c : Int × String) hc => inParty_leave_of htable hp hi (c := c) hc
      have hleaved := h.views.leaved hs hin fun sd hsd hsda hne hl =>
        hne (hr sd hsd hsda p hp rfl (hsda ▸ (htable.inParty hp).mp hl) i hi).symm
      rcases hcase with ⟨e, hempty⟩ | e
      · have hgone : ∀ c : Int × String, c.1 ≠ 0 →
            ¬ InParty (parsePartyLeave db p.partyId a).1 c p.partyId := fun c _ hl => by
          rw [e, inParty_erase] at hl
          exact hl.2 rfl
        have hbroken := hleaved.broken hs hgone
        rw [List.append_assoc] at hbroken
        rwa [e] at hbroken ⊢
      · have hinfo := hleaved.info hs (p := { p with member := Function.update p.member i {} })
          fun c _ => by
            rw [e]
            exact ((htable.cleared hp i).inParty (mem_partyPut.mpr (.inl ⟨rfl, p, hp, rfl⟩))).symm
        rw [List.append_assoc] at hinfo
        rwa [e] at hinfo ⊢

/-- **A new member keeps the table.** -/
theorem PartyTable.addMember (h : PartyTable s db up down) (hs : PlayersApart s.players)
    (hn : (a, n) ∈ s.players.map PartyPlayer.key) (hnew : ¬ InParty db (a, n) P) (conf : Int)
    (map : String) (lv : Int) :
    PartyTable s (parsePartyAddMember conf db P a n map lv).1 up
      (down ++ (parsePartyAddMember conf db P a n map lv).2) := by
  have htable := h.table
  have hpos := hs.pos_of_mem hn
  rcases parsePartyAddMember_cases conf db P a n map lv with
    e | ⟨p, hp, i, q, p', out, m, rfl, hi, hm, hq, hmem, hp', hmem', hout, e⟩
  · rw [e]
    refine h.send htable (fun _ _ _ _ => id) (fun Q b flag hm hflag => ?_) (h.views.quiet _ ?_)
    · simp only [List.mem_singleton, FromInter.memberAdded.injEq] at hm
      exact absurd hm.2.2 hflag
    · rintro x hx c
      rw [List.mem_singleton.mp hx]
      exact if_neg fun h => h.2 rfl
  · rw [e]
    have hnot : ¬ p.Lists m.key := fun hl => hnew (hm ▸ ⟨p, hp, rfl, hl⟩)
    have hma : m.accountId = a := congrArg Prod.fst hm
    have htable' := htable.added hp hq hmem (hma ▸ hpos.le) hnot
    have hin : ∀ c : Int × String, c.1 ≠ 0 → ∀ Q,
        InParty (partyPut db q) c Q ↔ InParty db c Q ∨ Q = p.partyId ∧ (a, n) = c := fun c hc Q =>
      hm ▸ inParty_added htable hp hq hmem hi hc
    have hadded := h.views.added hs hin fun sd hsd ha => hs.name_eq hn hsd ha
    have hlists : ∀ c, p'.Lists c ↔ InParty (partyPut db q) c p.partyId := fun c => by
      rw [Party.lists_congr hmem', ← hq]
      exact (htable'.inParty (mem_partyPut.mpr (.inl ⟨rfl, p, hp, hq.symm⟩))).symm
    have hinfo := (hadded.info hs fun c _ => hp' ▸ hlists c).quiet out fun x hx c => by
      obtain ⟨ex, it, rfl⟩ := hout x hx
      rfl
    refine h.send htable' (fun c hc hno Q hQ => ?_) (fun P b flag hmem hflag => ?_) ?_
    · exact ((hin c hc Q).mp hQ).resolve_right fun h => hno (h.2 ▸ hn)
    · simp only [List.mem_cons, FromInter.memberAdded.injEq, reduceCtorEq, false_or] at hmem
      rcases hmem with ⟨rfl, -⟩ | hmem
      · exact htable.ne_zero p hp
      · obtain ⟨ex, it, hx⟩ := hout _ hmem
        cases hx
    · simpa using hinfo

/-! ## The check of the other parties -/

theorem mem_of_leave {q : Party} (h : PartiesOk db) (hq : q ∈ (parsePartyLeave db P a).1)
    (hne : q.partyId ≠ P) : q ∈ db := by
  rcases parsePartyLeave_cases db P a h with ⟨e, -⟩ | ⟨p, hp, i, rfl, -, ⟨e, -⟩ | e⟩
  · rwa [e] at hq
  · rw [e] at hq
    obtain ⟨rfl, -⟩ | ⟨hq, -⟩ := mem_partyPut.mp (mem_partyErase.mp hq).1
    · exact absurd rfl hne
    · exact hq
  · rw [e] at hq
    obtain ⟨rfl, -⟩ | ⟨hq, -⟩ := mem_partyPut.mp hq
    · exact absurd rfl hne
    · exact hq

theorem Removes.leave {Q : Int} (h : PartiesOk db) (ha : a ≠ 0) (hP : Removes db a n P)
    (hQ : Removes db a n Q) : Removes (parsePartyLeave db P a).1 a n Q := by
  intro q hq hid hl
  by_cases hQP : Q = P
  · subst hQP
    exact absurd ⟨q, hq, hid, hl⟩ (hP.not_inParty h ha)
  · exact hQ q (mem_of_leave h hq fun e => hQP (hid.symm.trans e)) hid hl

/-- After the check only the character's own party lists it, among those that are checked. -/
theorem PartyTable.conflict (hs : PlayersApart s.players)
    (hn : (a, n) ∈ s.players.map PartyPlayer.key) (keys : List Int) {out : List FromInter}
    (h : PartyTable s db up (down ++ out)) (hr : ∀ P, P ≠ r → Removes db a n P) :
    let res := keys.foldl (fun x key =>
      ((partyCheckConflictSub r a n key x.1).1, x.2 ++ (partyCheckConflictSub r a n key x.1).2))
      (db, out)
    PartyTable s res.1 up (down ++ res.2) ∧
      (∀ P ∈ keys, P ≠ r → ¬ InParty res.1 (a, n) P) ∧
      ∀ P, InParty res.1 (a, n) P → InParty db (a, n) P := by
  have ha : a ≠ 0 := (hs.pos_of_mem hn).ne'
  induction keys generalizing db out with
  | nil => exact ⟨h, fun P hP => absurd hP List.not_mem_nil, fun _ => id⟩
  | cons key keys ih =>
    simp only [List.foldl_cons]
    rw [partyCheckConflictSub_eq h.table ha fun hne => hr key hne]
    split
    · rename_i hcond
      have hkey := hr key hcond.1
      have hleave := h.leave hs (P := key) (a := a) fun sd hsd hsda => hs.name_eq hn hsd hsda ▸ hkey
      rw [List.append_assoc] at hleave
      obtain ⟨hres, hno, hsub⟩ := ih hleave fun P hP => hkey.leave h.table ha (hr P hP)
      refine ⟨hres, fun P hP hne hl => ?_, fun P hl => ((inParty_leave h.table ha).mp (hsub P hl)).1⟩
      rcases List.mem_cons.mp hP with rfl | hP
      · exact hkey.not_inParty h.table ha (hsub P hl)
      · exact hno P hP hne hl
    · rename_i hcond
      simp only [List.append_nil]
      obtain ⟨hres, hno, hsub⟩ := ih h hr
      refine ⟨hres, fun P hP hne hl => ?_, hsub⟩
      rcases List.mem_cons.mp hP with rfl | hP
      · exact hcond ⟨hne, hsub P hl⟩
      · exact hno P hP hne hl

end Table

/-! ## Steps -/

section Steps

variable {w : PartyWorld}

/-- The oldest request has been served. -/
theorem PartyTable.served {s : PartyMap} {db : List Party} {m : ToInter} {up : List ToInter}
    {down : List FromInter} (h : PartyTable s db (m :: up) down)
    (hm : ∀ sd ∈ s.players, ∀ u, upOf sd.accountId m = some u → ∀ g, InParty db sd.key g →
      ¬ Repaired g [u]) : PartyTable s db up down := by
  refine ⟨h.table, h.away, h.tells, h.views.copies, fun sd hsd => ?_⟩
  have hold := h.views.groups sd hsd
  rw [List.filterMap_cons] at hold
  cases hu : upOf sd.accountId m with
  | none => rwa [hu] at hold
  | some u =>
    rw [hu] at hold
    exact hold.served (hm sd hsd u hu)

theorem not_repaired_join {G : Type} {g r : G} : ¬ Repaired g [Up.join r] := by
  rintro (h | ⟨_, -, h⟩) <;> simp at h

/-- **The char-server serves a request.** -/
theorem partyOk_charReceives (conf : PartyConf) (h : PartyOk w)
    (hok : PartyStepOk w .charReceives) : PartyOk (partyStep conf w .charReceives) := by
  obtain ⟨s, db, up, down⟩ := w
  obtain ⟨hs, hasks, htable⟩ := h
  cases up with
  | nil => exact ⟨hs, hasks, htable⟩
  | cons m up =>
    have hm := hasks m List.mem_cons_self
    have hreq := hok m rfl
    refine ⟨hs, fun x hx => hasks x (List.mem_cons_of_mem _ hx), ?_⟩
    cases m with
    | addMember P a n map lv =>
      refine (htable.addMember hs hm hreq conf.partyShareLevel map lv).served
        fun sd _ u hu g _ => ?_
      simp only [upOf] at hu
      split at hu <;> cases hu
      exact not_repaired_join
    | leave P a =>
      refine (htable.leave hs hreq).served fun sd hsd u hu g hg => ?_
      simp only [upOf] at hu
      split at hu
      · rename_i ha
        cases hu
        rintro (hr | ⟨_, -, hr⟩)
        · simp only [List.mem_singleton, Up.leave.injEq] at hr
          subst hr
          subst ha
          exact (hreq sd hsd rfl).not_inParty htable.table (hs.pos sd hsd).ne' hg
        · simp at hr
      · cases hu
    | checkConflict r a n =>
      have hne : ∀ P, P ≠ r → Removes db a n P := fun P hP p hp hid =>
        hreq p hp (fun e => hP (hid.symm.trans e)) p hp rfl
      have hstart : PartyTable s db (.checkConflict r a n :: up) (down ++ []) := by
        rwa [List.append_nil]
      obtain ⟨hres, hno, hsub⟩ :=
        hstart.conflict hs hm (db.map Party.partyId) hne
      refine hres.served fun sd hsd u hu g hg => ?_
      simp only [upOf] at hu
      split at hu
      · rename_i ha
        cases hu
        rintro (hr | ⟨x, hx, hr⟩)
        · simp at hr
        · simp only [List.mem_singleton, Up.conflict.injEq] at hr
          subst hr
          have hkey : sd.key = (a, n) := Prod.ext ha.symm (hs.name_eq hm hsd ha.symm)
          rw [hkey] at hg
          obtain ⟨p, hp, hid, -⟩ := hsub g hg
          exact hno g (hid ▸ List.mem_map_of_mem hp) (Ne.symm hx) hg
      · cases hu

/-- **The map-server receives a packet.** -/
theorem partyOk_mapReceives (conf : PartyConf) (h : PartyOk w) :
    PartyOk (partyStep conf w .mapReceives) := by
  obtain ⟨s, db, up, down⟩ := w
  obtain ⟨hs, hasks, htable⟩ := h
  cases down with
  | nil => exact ⟨hs, hasks, htable⟩
  | cons m down =>
    have hkeys := keys_intifParse (s := s) m
    have hviews := htable.views.intifParse hs
      fun P a flag e => htable.tells P a flag (e ▸ List.mem_cons_self)
    refine ⟨hs.of_keys hkeys, fun x hx => ?_, htable.table, fun c hc hno => ?_,
      fun P a flag hm => htable.tells P a flag (List.mem_cons_of_mem _ hm), hviews⟩
    · rcases List.mem_append.mp hx with hx | hx
      · have := hasks x hx
        cases x <;> first | trivial | (simp only [Asks] at this ⊢; rwa [partyStep, hkeys])
      · cases m with
        | memberAdded P a flag =>
          simp only [PartyMap.intifParse, PartyMap.partyMemberAdded] at hx
          cases hsd : s.id2sd a with
          | none =>
            simp only [hsd] at hx
            split at hx
            · rw [List.mem_singleton.mp hx]
              trivial
            · cases hx
          | some sd =>
            simp only [hsd] at hx
            split at hx
            · cases hx
            · rw [List.mem_singleton.mp hx]
              have ha : sd.accountId = a := by simpa using List.find?_some hsd
              simp only [Asks]
              rw [partyStep, hkeys]
              exact List.mem_map.mpr ⟨sd, List.mem_of_find?_eq_some hsd, Prod.ext ha rfl⟩
        | info | optionChanged | memberLeaved | broken => cases hx
    · exact htable.away c hc (hkeys ▸ hno)

/-- A change that leaves the copies, the names and the parties of the players. -/
def Aside (s s' : PartyMap) : Prop :=
  s'.db = s.db ∧ ∃ g : PartyPlayer → PartyPlayer, s'.players = s.players.map g ∧
    ∀ sd, (g sd).key = sd.key ∧ (g sd).partyId = sd.partyId

theorem aside_refl (s : PartyMap) : Aside s s :=
  ⟨rfl, id, (List.map_id _).symm, fun _ => ⟨rfl, rfl⟩⟩

theorem aside_setPlayer {s : PartyMap} {a : Int} {f : PartyPlayer → PartyPlayer}
    (hf : ∀ sd, (f sd).key = sd.key ∧ (f sd).partyId = sd.partyId) : Aside s (s.setPlayer a f) := by
  refine ⟨rfl, _, rfl, fun sd => ?_⟩
  split
  · exact hf sd
  · exact ⟨rfl, rfl⟩

theorem PartyOk.client {s' : PartyMap} {out : List ToInter} (h : PartyOk w) (hs : Aside w.map s')
    (hout : ∀ m ∈ out, Asks w.map.players m) :
    PartyOk { w with map := s', up := w.up ++ out } := by
  obtain ⟨hdb, g, hplayers, hg⟩ := hs
  have hkeys : s'.players.map PartyPlayer.key = w.map.players.map PartyPlayer.key := by
    rw [hplayers]
    exact keys_map fun sd => (hg sd).1
  have hviews : PartyViews w.map w.db (w.up ++ out) w.down :=
    h.table.views.ask fun _ => List.mem_append_left _
  refine ⟨h.apart.of_keys hkeys, fun m hm => ?_, h.table.table, fun c hc hno => ?_, h.table.tells,
    fun c hc => ?_, fun sd' hsd' => ?_⟩
  · have hm : Asks w.map.players m := (List.mem_append.mp hm).elim (h.asks m) (hout m)
    cases m <;> first | trivial | (simp only [Asks] at hm ⊢; rwa [hkeys])
  · exact h.table.away c hc (hkeys ▸ hno)
  · rw [hdb]
    exact hviews.copies c hc
  · rw [hplayers] at hsd'
    obtain ⟨sd, hsd, rfl⟩ := List.mem_map.mp hsd'
    have hparty : (g sd).party = sd.party := by
      rw [PartyPlayer.party, (hg sd).2, PartyPlayer.party]
    have hacc : (g sd).accountId = sd.accountId := congrArg Prod.fst (hg sd).1
    rw [(hg sd).1, hparty, hacc]
    exact hviews.groups sd hsd

theorem partyOk_served (h : PartyOk w) {a : Int} {f : PartyPlayer → PartyMap × List ToInter}
    (hf : ∀ sd ∈ w.map.players, Aside w.map (f sd).1 ∧ ∀ m ∈ (f sd).2, Asks w.map.players m) :
    PartyOk (w.served a f) := by
  unfold PartyWorld.served
  cases hsd : w.map.id2sd a with
  | none => exact h
  | some sd =>
    obtain ⟨hs, hout⟩ := hf sd (List.mem_of_find?_eq_some hsd)
    exact h.client hs hout

/-- **Every step keeps the invariant.** -/
theorem partyOk_step (conf : PartyConf) (w : PartyWorld) (e : PartyEvent) (h : PartyOk w)
    (hok : PartyStepOk w e) : PartyOk (partyStep conf w e) := by
  cases e with
  | invite sd accountId =>
    refine partyOk_served h fun sd _ => ⟨?_, by simp⟩
    unfold PartyMap.partyInvite
    split
    · split
      · exact aside_refl _
      · split
        · exact aside_refl _
        · split
          · exact aside_refl _
          · exact aside_setPlayer fun _ => ⟨rfl, rfl⟩
    · exact aside_refl _
  | replyInvite sd flag =>
    refine partyOk_served h fun sd hsd => ?_
    unfold PartyMap.partyReplyInvite
    split
    · refine ⟨aside_refl _, fun m hm => ?_⟩
      rw [List.mem_singleton.mp hm]
      exact List.mem_map_of_mem hsd
    · exact ⟨aside_setPlayer fun _ => ⟨rfl, rfl⟩, by simp⟩
  | leave sd =>
    refine partyOk_served h fun sd _ => ⟨aside_refl _, fun m hm => ?_⟩
    unfold PartyMap.partyLeave at hm
    split at hm
    · cases hm
    · split at hm
      · cases hm
      · rw [List.mem_singleton.mp hm]
        trivial
  | removeMember sd accountId name =>
    refine partyOk_served h fun sd _ => ⟨aside_refl _, fun m hm => ?_⟩
    unfold PartyMap.partyRemovemember at hm
    split at hm
    · cases hm
    · split at hm
      · cases hm
      · split at hm
        · cases hm
        · rw [List.mem_singleton.mp hm]
          trivial
  | charReceives => exact partyOk_charReceives conf h hok
  | mapReceives => exact partyOk_mapReceives conf h

end Steps

/-! ## Runs -/

theorem PartyStart.partyOk {w : PartyWorld} (h : PartyStart w) : PartyOk w := by
  obtain ⟨s, db, up, down⟩ := w
  obtain ⟨hup, hdown⟩ := h.quiet
  obtain rfl := List.isEmpty_iff.mp hup
  obtain rfl := List.isEmpty_iff.mp hdown
  have htable : PartiesOk db := ⟨h.keys, h.ne_zero, h.nonneg, fun p hp i j e hne =>
    (h.agreed.once p hp p hp i j hne e).2⟩
  refine ⟨h.apart, fun m hm => absurd hm List.not_mem_nil, htable, fun c hc _ P Q hP hQ => ?_,
    fun P a flag hm => absurd hm List.not_mem_nil, fun c hc => ?_, fun sd hsd => ?_⟩
  · obtain ⟨p, hp, rfl, i, hi⟩ := hP
    obtain ⟨q, hq, rfl, j, hj⟩ := hQ
    have hne : (p.member i).accountId ≠ 0 := by
      rw [← hi] at hc
      exact hc
    exact (h.agreed.once p hp q hq i j hne (hi.trans hj.symm)).1
  · refine copyOk_nil fun P ⟨p, hp, hid, i, hi⟩ => ?_
    have hne : (p.member i).accountId ≠ 0 := by
      rw [← hi] at hc
      exact hc
    exact hid ▸ hi ▸ h.copies p hp i hne
  · refine groupOk_nil (fun P => ?_) _
    unfold PartyPlayer.party
    by_cases hP : P = 0
    · subst hP
      refine iff_of_false (fun e => ?_) fun ⟨p, hp, hid, _⟩ => h.ne_zero p hp hid
      split at e
      · cases e
      · rename_i hne
        exact hne (Option.some.inj e)
    · rw [← h.agreed.same sd hsd P hP]
      split
      · rename_i hzero
        exact iff_of_false (by simp) fun e => hP (e.symm.trans hzero)
      · exact Option.some_inj

/-- With nothing under way the invariant is agreement. -/
theorem PartyOk.agreed {w : PartyWorld} (h : PartyOk w) (hq : w.Quiet) : PartyAgreed w := by
  obtain ⟨s, db, up, down⟩ := w
  obtain ⟨hup, hdown⟩ := hq
  obtain rfl := List.isEmpty_iff.mp hup
  obtain rfl := List.isEmpty_iff.mp hdown
  obtain ⟨hs, -, htable, haway, -, -, hgroups⟩ := h
  have hagree : ∀ sd ∈ s.players, ∀ P, sd.party = some P ↔ InParty db sd.key P := fun sd hsd =>
    (hgroups sd hsd).agree
  refine ⟨fun p hp q hq i j hne hkey => ?_, fun sd hsd P hP => ?_⟩
  · have hP : InParty db (p.member i).key p.partyId := ⟨p, hp, rfl, i, rfl⟩
    have hQ : InParty db (p.member i).key q.partyId := ⟨q, hq, rfl, j, hkey.symm⟩
    have hid : p.partyId = q.partyId := by
      by_cases hmem : (p.member i).key ∈ s.players.map PartyPlayer.key
      · obtain ⟨sd, hsd, e⟩ := List.mem_map.mp hmem
        rw [← e] at hP hQ
        have := ((hagree sd hsd _).mpr hP).symm.trans ((hagree sd hsd _).mpr hQ)
        exact Option.some.inj this
      · exact haway _ hne hmem _ _ hP hQ
    obtain rfl := List.inj_on_of_nodup_map htable.keys hp hq hid
    exact ⟨rfl, htable.once p hp i j hkey hne⟩
  · rw [← hagree sd hsd P, PartyPlayer.party]
    split
    · rename_i hzero
      exact iff_of_false (fun e => hP (e.symm.trans hzero)) (by simp)
    · exact Option.some_inj.symm

instance (w : PartyWorld) (m : ToInter) : Decidable (OrderlyRequest w m) := by
  cases m <;> unfold OrderlyRequest <;> infer_instance

instance (w : PartyWorld) (e : PartyEvent) : Decidable (PartyStepOk w e) := by
  cases e <;> unfold PartyStepOk <;> infer_instance

/-- Alice leads party 100; Bob is in no party. -/
def alicesParty : Party where
  partyId := 100
  member := fun i => if i = 0 then { accountId := 1, name := "Alice", leader := true } else {}

def alicesWorld : PartyWorld where
  map := {
    players := [{ accountId := 1, name := "Alice", partyId := 100 }, { accountId := 2, name := "Bob" }]
    db := [alicesParty] }
  db := [alicesParty]

theorem alicesWorld_start : PartyStart alicesWorld := by
  refine ⟨by decide, ⟨by decide, fun sd hsd P hP => ?_⟩, ⟨by decide, by decide⟩, by decide,
    by decide, by decide, by decide⟩
  have hin : ∀ c, InParty alicesWorld.db c P ↔ 100 = P ∧ alicesParty.Lists c := fun c => by
    simp [InParty, alicesWorld, alicesParty]
  have hmem : sd ∈ [{ accountId := 1, name := "Alice", partyId := 100 },
      { accountId := 2, name := "Bob" }] := hsd
  rw [hin]
  rcases List.mem_cons.mp hmem with rfl | hmem
  · exact (and_iff_left (by decide)).symm
  · rw [List.mem_singleton.mp hmem]
    exact iff_of_false hP.symm fun h => absurd h.2 (by decide)

/-- Bob joins, and leaves again. -/
def joinLeave : List PartyEvent :=
  [.invite 1 2, .replyInvite 2 1, .charReceives, .mapReceives, .mapReceives, .charReceives,
    .leave 2, .charReceives, .mapReceives, .mapReceives]

/-- Bob accepts the invitation twice. -/
def acceptTwice : List PartyEvent :=
  [.invite 1 2, .replyInvite 2 1, .replyInvite 2 1, .charReceives, .charReceives, .mapReceives,
    .mapReceives, .mapReceives, .mapReceives, .charReceives, .charReceives]

end Nezumi
