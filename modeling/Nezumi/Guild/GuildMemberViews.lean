import Nezumi.Guild.GuildMemberLemmas
import Nezumi.Lib.Membership

/-!
# What each character sees of the guilds (`map/guild.c`, `char/int_guild.c`)

* `guildDownOf`, `guildUpOf`: what a message says about one character.
* `GuildViews`: the copies of the map server are in order for every character, and the `guild_id`
  for every player (`Membership.CopyOk`, `Membership.GroupOk`).
* `GuildViews.info`, `.broken`, `.leaved`, `.added`: the char-server sends a message.
* `GuildViews.intifParse`: the map server receives one.
-/

namespace Nezumi

open Membership

/-- The guild of a player. -/
def GuildSession.guild (sd : GuildSession) : Option Int32 :=
  if sd.guildId = 0 then none else some sd.guildId

/-- What a message to the map server says about a character. -/
def guildDownOf (c : Int32) : FromGuilds → Option (Down Int32)
  | .memberAdded guildId _ charId flag =>
    if charId = c ∧ flag = 0 then some (.added guildId) else none
  | .memberLeaved guildId _ charId .. => if charId = c then some (.left guildId true) else none
  | .info g => some (.info g.guildId (decide (g.HasMember c)))
  | .broken guildId _ => some (.broken guildId)

/-- What a message to the char-server asks for a character. -/
def guildUpOf (c : Int32) : ToGuilds → Option (Up Int32)
  | .addMember guildId m => if m.charId = c then some (.join guildId) else none
  | .leave guildId _ charId .. => if charId = c then some (.leave guildId) else none
  | .checkConflict guildId _ charId => if charId = c then some (.conflict guildId) else none

/-- The lists that the map server has. -/
def GuildMap.lists (s : GuildMap) : List GuildRecord := s.guilds.map GuildCopy.guild

structure GuildViews (s : GuildMap) (guilds : List GuildRecord) (up : List ToGuilds)
    (down : List FromGuilds) : Prop where
  copies : ∀ c, c ≠ 0 →
    CopyOk (InGuild guilds c) (InGuild s.lists c) (down.filterMap (guildDownOf c))
  groups : ∀ sd ∈ s.players, GroupOk (InGuild guilds sd.charId) sd.guild
    (up.filterMap (guildUpOf sd.charId)) (down.filterMap (guildDownOf sd.charId))

/-- Players have accounts and characters of their own. -/
structure SessionsApart (players : List GuildSession) : Prop where
  accounts : (players.map GuildSession.accountId).Nodup
  chars : (players.map GuildSession.charId).Nodup
  pos : ∀ sd ∈ players, 0 < sd.accountId ∧ sd.charId ≠ 0

namespace GuildViews

variable {s s' : GuildMap} {guilds guilds' : List GuildRecord} {up up' : List ToGuilds}
  {down : List FromGuilds} {k a ch : Int32} {flag : UInt8} {name : CStr 24} {mes : CStr 40}
  {m : FromGuilds}

/-! ## The char-server sends a message -/

theorem ask (h : GuildViews s guilds up down) (hup : ∀ m ∈ up, m ∈ up') :
    GuildViews s guilds up' down := by
  refine ⟨h.copies, fun sd hsd => (h.groups sd hsd).ask fun m hm => ?_⟩
  obtain ⟨x, hx, heq⟩ := List.mem_filterMap.mp hm
  exact List.mem_filterMap.mpr ⟨x, hup x hx, heq⟩

/-- A refusal says nothing about anybody. -/
theorem refused (h : GuildViews s guilds up down) :
    GuildViews s guilds up (down ++ [FromGuilds.memberAdded k a ch 1]) := by
  have hnone : ∀ c, guildDownOf c (.memberAdded k a ch 1) = none := fun c =>
    if_neg fun h => absurd h.2 (by decide)
  refine ⟨fun c hc => ?_, fun sd hsd => ?_⟩
  · rw [filterMap_concat, hnone]
    simpa using h.copies c hc
  · rw [filterMap_concat, hnone]
    simpa using h.groups sd hsd

/-- `mapif_guild_info` -/
theorem info {conf : GuildConf} (h : GuildViews s guilds up down) (htable : GuildsSound conf guilds)
    (hm : Shows guilds k m) : GuildViews s guilds up (down ++ [m]) := by
  obtain ⟨g, hg, rfl, rfl⟩ := hm
  have hlists : ∀ c, g.HasMember c ↔ InGuild guilds c g.guildId := fun c => (htable.inGuild hg).symm
  refine ⟨fun c hc => ?_, fun sd hsd => ?_⟩
  · rw [filterMap_concat]
    refine (h.copies c hc).post (fun l hl => ?_) (fun l _ => id) fun l hl => by cases hl
    simp only [Down.copied] at hl
    split at hl
    · rename_i hid
      rw [← hid, ← hlists c]
      simpa using hl
    · cases hl
  · rw [filterMap_concat]
    refine (h.groups sd hsd).post (fun l => by simp [Down.member]) fun l hl hin => ?_
    rcases hl with hl | hl
    · injection hl with hid hno
      rw [← hid, ← hlists] at hin
      exact absurd hin (by simpa using hno)
    · cases hl

/-- `mapif_guild_broken`, when no character is listed any more. -/
theorem broken (h : GuildViews s guilds up down) (hk : ∀ g ∈ guilds, g.guildId ≠ k) :
    GuildViews s guilds up (down ++ [FromGuilds.broken k flag]) := by
  have hno : ∀ c, ¬ InGuild guilds c k := fun c ⟨g, hg, hid, _⟩ => hk g hg hid
  refine ⟨fun c hc => ?_, fun sd hsd => ?_⟩
  · rw [filterMap_concat]
    refine (h.copies c hc).post (fun l hl => ?_) (fun l _ => id) fun l hl => ?_
    · simp [Down.copied] at hl
    · cases hl
      exact hno c
  · rw [filterMap_concat]
    refine (h.groups sd hsd).post (fun l => by simp [Down.member]) fun l hl => ?_
    rcases hl with hl | hl <;> cases hl
    exact hno sd.charId

/-- `mapif_guild_leaved`, of a character that is listed no longer. -/
theorem leaved (h : GuildViews s guilds up down) (hs : SessionsApart s.players)
    (hin : ∀ c, c ≠ 0 → ∀ l, InGuild guilds' c l ↔ InGuild guilds c l ∧ ¬ (l = k ∧ c = ch)) :
    GuildViews s guilds' up (down ++ [FromGuilds.memberLeaved k a ch flag name mes]) := by
  refine ⟨fun c hc => ?_, fun sd hsd => ?_⟩
  · rw [filterMap_concat]
    by_cases hch : ch = c
    · simp only [guildDownOf, if_pos hch, Option.toList_some]
      refine (h.copies c hc).post (fun l hl => ?_) (fun l hl hold => ?_) fun l hl => by cases hl
      · simp [Down.copied] at hl
      · refine (hin c hc l).mpr ⟨hold, ?_⟩
        rintro ⟨rfl, -⟩
        simp [Down.copied] at hl
    · simp only [guildDownOf, if_neg hch, Option.toList_none, List.append_nil]
      exact (h.copies c hc).mono fun l hl => (hin c hc l).mpr ⟨hl, fun e => hch e.2.symm⟩
  · have hne := (hs.pos sd hsd).2
    rw [filterMap_concat]
    by_cases hch : ch = sd.charId
    · simp only [guildDownOf, if_pos hch, Option.toList_some]
      refine (h.groups sd hsd).post (fun l => ?_) fun l hl => by rcases hl with hl | hl <;> cases hl
      rw [hin sd.charId hne]
      by_cases hk : k = l
      · simp [Down.member, hk, hch]
      · simp [Down.member, hk, Ne.symm hk]
    · simp only [guildDownOf, if_neg hch, Option.toList_none, List.append_nil]
      refine (h.groups sd hsd).congr fun l => ?_
      rw [hin sd.charId hne]
      exact and_iff_left fun e => hch e.2.symm

/-- `mapif_guild_memberadded`, of a character that is now listed. -/
theorem added (h : GuildViews s guilds up down) (hs : SessionsApart s.players)
    (hin : ∀ c, c ≠ 0 → ∀ l, InGuild guilds' c l ↔ InGuild guilds c l ∨ l = k ∧ c = ch) :
    GuildViews s guilds' up (down ++ [FromGuilds.memberAdded k a ch 0]) := by
  refine ⟨fun c hc => ?_, fun sd hsd => ?_⟩
  · have hmono : ∀ l, InGuild guilds c l → InGuild guilds' c l := fun l hl =>
      (hin c hc l).mpr (.inl hl)
    rw [filterMap_concat]
    by_cases hch : ch = c
    · simp only [guildDownOf, hch, and_self, if_true, Option.toList_some]
      exact (h.copies c hc).post (fun l hl => by cases hl) (fun l _ => hmono l)
        fun l hl => by cases hl
    · simp only [guildDownOf, hch, false_and, if_false, Option.toList_none, List.append_nil]
      exact (h.copies c hc).mono hmono
  · have hne := (hs.pos sd hsd).2
    rw [filterMap_concat]
    by_cases hch : ch = sd.charId
    · simp only [guildDownOf, hch, and_self, if_true, Option.toList_some]
      refine (h.groups sd hsd).post (fun l => ?_) fun l hl => by rcases hl with hl | hl <;> cases hl
      rw [hin sd.charId hne]
      by_cases hk : k = l
      · simp [Down.member, hk, hch]
      · simp [Down.member, hk, Ne.symm hk]
    · simp only [guildDownOf, hch, false_and, if_false, Option.toList_none, List.append_nil]
      refine (h.groups sd hsd).congr fun l => ?_
      rw [hin sd.charId hne]
      exact or_iff_left fun e => hch e.2.symm

/-! ## The map server receives a message -/

/-- What a message makes of the guild of a character. It may leave a guild again to which it has
been added. -/
def Hears (c : Int32) (m : FromGuilds) (up : List ToGuilds) (now now' : Option Int32) : Prop :=
  match guildDownOf c m with
  | none => now' = now
  | some (.added r) =>
    now' = some r ∧ .conflict r ∈ up.filterMap (guildUpOf c) ∨
      now' = now ∧ .leave r ∈ up.filterMap (guildUpOf c)
  | some d => now' = d.group now

section Hears

variable {c r : Int32} {own : Bool} {now now' : Option Int32}

theorem hears_none (h : guildDownOf c m = none) : Hears c m up now now := by
  unfold Hears
  rw [h]

theorem hears_added (h : guildDownOf c m = some (.added r))
    (hnow : now' = some r ∧ .conflict r ∈ up.filterMap (guildUpOf c) ∨
      now' = now ∧ .leave r ∈ up.filterMap (guildUpOf c)) : Hears c m up now now' := by
  unfold Hears
  rw [h]
  exact hnow

theorem hears_left (h : guildDownOf c m = some (.left r own))
    (hnow : now' = if now = some r then none else now) : Hears c m up now now' := by
  unfold Hears
  rw [h]
  exact hnow

end Hears

theorem receive (h : GuildViews s guilds up (m :: down)) (hup : ∀ x ∈ up, x ∈ up')
    (hcopies : ∀ c, c ≠ 0 → ∀ l, InGuild s'.lists c l →
      (∃ d, guildDownOf c m = some d ∧ d.copied l = some true) ∨
        (∀ d, guildDownOf c m = some d → d.copied l = none) ∧ InGuild s.lists c l)
    (hplayers : ∀ sd' ∈ s'.players, ∃ sd ∈ s.players, sd'.charId = sd.charId ∧
      Hears sd.charId m up' sd.guild sd'.guild) : GuildViews s' guilds up' down := by
  refine ⟨fun c hc => ?_, fun sd' hsd' => ?_⟩
  · have hold := h.copies c hc
    rw [List.filterMap_cons] at hold
    cases hd : guildDownOf c m with
    | none =>
      rw [hd] at hold
      refine hold.sub fun l hl => ?_
      rcases hcopies c hc l hl with ⟨d, hd', -⟩ | ⟨-, hl⟩
      · simp [hd] at hd'
      · exact hl
    | some d =>
      rw [hd] at hold
      refine hold.receive fun l hl => ?_
      rcases hcopies c hc l hl with ⟨d', hd', ht⟩ | ⟨hn, hl⟩
      · rw [hd] at hd'
        cases hd'
        exact .inl ht
      · exact .inr ⟨hn d hd, hl⟩
  · obtain ⟨sd, hsd, hchar, hears⟩ := hplayers sd' hsd'
    have hmem : ∀ x ∈ up.filterMap (guildUpOf sd.charId),
        x ∈ up'.filterMap (guildUpOf sd.charId) := fun x hx => by
      obtain ⟨y, hy, heq⟩ := List.mem_filterMap.mp hx
      exact List.mem_filterMap.mpr ⟨y, hup y hy, heq⟩
    have hold := h.groups sd hsd
    rw [List.filterMap_cons] at hold
    rw [hchar]
    unfold Hears at hears
    cases hd : guildDownOf sd.charId m with
    | none =>
      rw [hd] at hold hears
      rw [hears]
      exact hold.ask hmem
    | some d =>
      rw [hd] at hold hears
      cases d with
      | added r =>
        rcases hears with ⟨hg, hconflict⟩ | ⟨hg, hleave⟩
        · rw [hg]
          refine hold.receive hmem fun r' hr' => ?_
          cases hr'
          exact hconflict
        · rw [hg]
          exact hold.refuse hmem hleave
      | left r own =>
        rw [show sd'.guild = _ from hears]
        exact hold.receive hmem fun r' hr' => by cases hr'
      | info r listed =>
        rw [show sd'.guild = _ from hears]
        exact hold.receive hmem fun r' hr' => by cases hr'
      | broken r =>
        rw [show sd'.guild = _ from hears]
        exact hold.receive hmem fun r' hr' => by cases hr'

end GuildViews

/-! ## Who is connected -/

def GuildSession.key (sd : GuildSession) : Int32 × Int32 := (sd.accountId, sd.charId)

section Keys

variable {s : GuildMap} {players players' : List GuildSession} {sd : GuildSession} {k a ch : Int32}

theorem SessionsApart.of_keys (h : SessionsApart players)
    (hkeys : players'.map GuildSession.key = players.map GuildSession.key) :
    SessionsApart players' := by
  have hacc : players'.map GuildSession.accountId = players.map GuildSession.accountId := by
    simpa [List.map_map, Function.comp_def, GuildSession.key] using
      congrArg (List.map Prod.fst) hkeys
  have hchar : players'.map GuildSession.charId = players.map GuildSession.charId := by
    simpa [List.map_map, Function.comp_def, GuildSession.key] using
      congrArg (List.map Prod.snd) hkeys
  refine ⟨hacc ▸ h.accounts, hchar ▸ h.chars, fun sd hsd => ?_⟩
  have hmem : sd.key ∈ players.map GuildSession.key := hkeys ▸ List.mem_map_of_mem hsd
  obtain ⟨q, hq, heq⟩ := List.mem_map.mp hmem
  injection heq with ha hch
  rw [← ha, ← hch]
  exact h.pos q hq

/-- The account is that of one character. -/
theorem SessionsApart.charId_eq (h : SessionsApart players)
    (hkey : (a, ch) ∈ players.map GuildSession.key) (hsd : sd ∈ players) (ha : sd.accountId = a) :
    sd.charId = ch := by
  obtain ⟨q, hq, heq⟩ := List.mem_map.mp hkey
  have haq : q.accountId = a := congrArg Prod.fst heq
  obtain rfl := List.inj_on_of_nodup_map h.accounts hq hsd (haq.trans ha.symm)
  exact congrArg Prod.snd heq

/-- The character is that of one account. -/
theorem SessionsApart.accountId_eq (h : SessionsApart players)
    (hkey : (a, ch) ∈ players.map GuildSession.key) (hsd : sd ∈ players) (hch : sd.charId = ch) :
    sd.accountId = a := by
  obtain ⟨q, hq, heq⟩ := List.mem_map.mp hkey
  have hchq : q.charId = ch := congrArg Prod.snd heq
  obtain rfl := List.inj_on_of_nodup_map h.chars hq hsd (hchq.trans hch.symm)
  exact congrArg Prod.fst heq

theorem SessionsApart.pos_of_key (h : SessionsApart players)
    (hkey : (a, ch) ∈ players.map GuildSession.key) : 0 < a ∧ ch ≠ 0 := by
  obtain ⟨q, hq, heq⟩ := List.mem_map.mp hkey
  injection heq with ha hch
  rw [← ha, ← hch]
  exact h.pos q hq

theorem mem_setGuildPlayer {f : GuildSession → GuildSession} (h : sd ∈ (s.setPlayer a f).players) :
    ∃ q ∈ s.players, sd = if q.accountId = a then f q else q := by
  obtain ⟨q, hq, rfl⟩ := List.mem_map.mp h
  exact ⟨q, hq, rfl⟩

theorem guildKeys_map {f : GuildSession → GuildSession} (hf : ∀ sd, (f sd).key = sd.key) :
    (players.map f).map GuildSession.key = players.map GuildSession.key := by
  rw [List.map_map]
  exact List.map_congr_left fun sd _ => hf sd

theorem guildKeys_setPlayer {f : GuildSession → GuildSession} (hf : ∀ sd, (f sd).key = sd.key) :
    (s.setPlayer a f).players.map GuildSession.key = s.players.map GuildSession.key := by
  apply guildKeys_map
  intro sd
  split
  · exact hf sd
  · rfl

end Keys

/-! ## The functions of the map server -/

/-- A copy of the map server. A member stands in one of the places, and one with a session is
somebody. -/
structure CopySound (c : GuildCopy) : Prop where
  placed : ∀ i, (c.guild.member i).charId ≠ 0 → i.val < c.guild.maxMember.toInt
  somebody : ∀ i, c.sd i → (c.guild.member i).charId ≠ 0

section Receives

variable {s : GuildMap} {guilds : List GuildRecord} {up : List ToGuilds} {down : List FromGuilds}
  {k l a ch c : Int32} {flag : UInt8} {name : CStr 24} {mes : CStr 40} {g : GuildRecord}

theorem inGuild_setGuild {f : GuildCopy → GuildCopy}
    (hf : ∀ c, c.guild.guildId = k → (f c).guild.guildId = k)
    (h : InGuild (s.setGuild k f).lists c l) :
    ∃ q ∈ s.guilds, q.guild.guildId = l ∧
      if l = k then (f q).guild.HasMember c else q.guild.HasMember c := by
  obtain ⟨g, hg, hid, hl⟩ := h
  obtain ⟨q', hq', rfl⟩ := List.mem_map.mp hg
  obtain ⟨q, hq, rfl⟩ := List.mem_map.mp hq'
  refine ⟨q, hq, ?_⟩
  by_cases hk : q.guild.guildId = k
  · rw [if_pos hk] at hid hl
    rw [hf q hk] at hid
    rw [if_pos hid.symm]
    exact ⟨hk.trans hid, hl⟩
  · rw [if_neg hk] at hid hl
    rw [if_neg fun e => hk (hid.trans e)]
    exact ⟨hid, hl⟩

/-- A player that a list does not name is in another guild: nobody is thrown out. -/
theorem guildCheckMember_eq (h : GuildViews s guilds up (.info g :: down)) :
    s.guildCheckMember g = s := by
  have hmap : s.players.map (fun sd =>
      if sd.guildId = g.guildId ∧ ∀ i, (g.member i).charId ≠ sd.charId then
        { sd with guildId := 0 } else sd) = s.players := by
    refine (List.map_congr_left fun sd hsd => ?_).trans (List.map_id' _)
    split
    · rename_i hcond
      by_cases hzero : sd.guildId = 0
      · rw [← hzero]
      · have hl : ¬ g.HasMember sd.charId := fun ⟨i, hi⟩ => hcond.2 i hi
        have hgroup := h.groups sd hsd
        rw [List.filterMap_cons] at hgroup
        refine absurd ?_ (hgroup.elsewhere (g := g.guildId) (.inl (by simp [hl])))
        rw [GuildSession.guild, if_neg hzero, hcond.1]
    · rfl
  unfold GuildMap.guildCheckMember
  rw [hmap]

theorem inGuild_recvInfo (hs : s.guildCheckMember g = s)
    (h : InGuild (s.guildRecvInfo g).lists c l) :
    (l = g.guildId ∧ g.HasMember c) ∨ (l ≠ g.guildId ∧ InGuild s.lists c l) := by
  unfold GuildMap.guildRecvInfo at h
  split at h
  · rename_i hnone
    dsimp only at h
    rw [hs] at h
    obtain ⟨q, hq, hid, hl⟩ := h
    simp only [GuildMap.lists, List.map_append, List.mem_append, List.map_cons, List.map_nil,
      List.mem_singleton] at hq
    rcases hq with hq | rfl
    · refine .inr ⟨?_, q, hq, hid, hl⟩
      rintro rfl
      obtain ⟨p, hp, rfl⟩ := List.mem_map.mp hq
      exact List.find?_eq_none.mp hnone p hp (decide_eq_true hid)
    · exact .inl ⟨hid.symm, hl⟩
  · obtain ⟨q, hq, hid, hl⟩ := @inGuild_setGuild s g.guildId l c _ (fun _ _ => rfl) h
    by_cases hk : l = g.guildId
    · rw [if_pos hk] at hl
      exact .inl ⟨hk, hl⟩
    · rw [if_neg hk] at hl
      exact .inr ⟨hk, q.guild, List.mem_map_of_mem hq, hid, hl⟩

theorem GuildViews.recvInfo (h : GuildViews s guilds up (.info g :: down)) :
    GuildViews (s.guildRecvInfo g) guilds up down := by
  have hcheck := guildCheckMember_eq h
  refine h.receive (fun _ => id) (fun c _ l hl => ?_) fun sd hsd => ⟨sd, ?_, rfl, rfl⟩
  · rcases inGuild_recvInfo hcheck hl with ⟨rfl, hlist⟩ | ⟨hne, hl⟩
    · refine .inl ⟨_, rfl, ?_⟩
      rw [Down.copied, if_pos rfl, decide_eq_true hlist]
    · refine .inr ⟨fun d hd => ?_, hl⟩
      cases hd
      exact if_neg hne.symm
  · unfold GuildMap.guildRecvInfo at hsd
    split at hsd
    · dsimp only at hsd
      rwa [hcheck] at hsd
    · exact hsd

theorem GuildViews.memberLeaved
    (h : GuildViews s guilds up (.memberLeaved k a ch flag name mes :: down))
    (hcopies : ∀ c ∈ s.guilds, CopySound c)
    (ha : ∀ sd ∈ s.players, sd.charId = ch → sd.accountId = a) :
    GuildViews (s.guildMemberLeaved k a ch) guilds up down := by
  refine h.receive (fun _ => id) (fun c hc l hl => .inr ?_) fun sd' hsd' => ?_
  · obtain ⟨q, hq, hid, hl⟩ := @inGuild_setGuild s k l c (GuildCopy.without ch) (fun _ h => h) hl
    have hold : q.guild.HasMember c ∧ ¬ (k = l ∧ ch = c) := by
      by_cases hk : l = k
      · rw [if_pos hk] at hl
        obtain ⟨i, hi⟩ := hl
        simp only [GuildCopy.without, eraseMembers] at hi
        split at hi
        · exact absurd hi.symm hc
        · rename_i hno
          refine ⟨⟨i, hi⟩, fun e => hno ⟨(hcopies q hq).placed i (hi ▸ hc), hi.trans e.2.symm⟩⟩
      · rw [if_neg hk] at hl
        exact ⟨hl, fun e => hk e.1.symm⟩
    refine ⟨fun d hd => ?_, q.guild, List.mem_map_of_mem hq, hid, hold.1⟩
    simp only [guildDownOf] at hd
    split at hd
    · rename_i hch
      cases hd
      exact if_neg fun e => hold.2 ⟨e.1, hch⟩
    · cases hd
  · obtain ⟨sd, hsd, rfl⟩ := mem_setGuildPlayer hsd'
    refine ⟨sd, hsd, ?_, ?_⟩
    · split
      · split <;> rfl
      · rfl
    · by_cases hch : ch = sd.charId
      · have hd : guildDownOf sd.charId (.memberLeaved k a ch flag name mes) =
            some (.left k true) := if_pos hch
        apply GuildViews.hears_left hd
        rw [if_pos (ha sd hsd hch.symm)]
        by_cases hk : sd.guildId = k
        · rw [if_pos ⟨hk, hch.symm⟩]
          by_cases hzero : k = 0 <;> simp [GuildSession.guild, hk, hzero]
        · rw [if_neg fun e => hk e.1]
          simp [GuildSession.guild, hk]
      · have hkeep : (if sd.accountId = a then
            if sd.guildId = k ∧ sd.charId = ch then { sd with guildId := 0 } else sd
            else sd) = sd := by
          rw [if_neg fun e : sd.guildId = k ∧ sd.charId = ch => hch e.2.symm, ite_self]
        rw [hkeep]
        exact GuildViews.hears_none (if_neg hch)

/-- The members of a guild that is broken up are nobody: no player is in it. -/
theorem guildBroken_players (h : GuildViews s guilds up (.broken k flag :: down))
    (hcopies : ∀ c ∈ s.guilds, CopySound c) : (s.guildBroken k flag).players = s.players := by
  unfold GuildMap.guildBroken
  split
  · rfl
  · rename_i c hsearch
    have hc := List.mem_of_find?_eq_some hsearch
    have hid : c.guild.guildId = k := by simpa using List.find?_some hsearch
    have hnobody : ∀ i, ¬ c.sd i := fun i hsd => by
      have hne := (hcopies c hc).somebody i hsd
      have hcopy := h.copies _ hne
      rw [List.filterMap_cons] at hcopy
      exact hcopy.empty ⟨c.guild, List.mem_map_of_mem hc, hid, i, rfl⟩
    split
    · rfl
    · refine (List.map_congr_left fun sd _ => ?_).trans (List.map_id' _)
      exact if_neg fun ⟨i, _, hsd, _⟩ => hnobody i hsd

theorem GuildViews.guildBroken (h : GuildViews s guilds up (.broken k 0 :: down))
    (hcopies : ∀ c ∈ s.guilds, CopySound c) : GuildViews (s.guildBroken k 0) guilds up down := by
  refine h.receive (fun _ => id) (fun c _ l hl => .inr ?_) fun sd hsd => ⟨sd, ?_, rfl, rfl⟩
  · have hold : InGuild s.lists c l ∧ l ≠ k := by
      unfold GuildMap.guildBroken at hl
      split at hl
      · rename_i hnone
        refine ⟨hl, ?_⟩
        rintro rfl
        obtain ⟨g, hg, hid, -⟩ := hl
        obtain ⟨p, hp, rfl⟩ := List.mem_map.mp hg
        exact List.find?_eq_none.mp hnone p hp (decide_eq_true hid)
      · rw [if_neg (by decide)] at hl
        obtain ⟨g, hg, rfl, hl⟩ := hl
        obtain ⟨p, hp, rfl⟩ := List.mem_map.mp hg
        obtain ⟨hp, hne⟩ := List.mem_filter.mp hp
        exact ⟨⟨p.guild, List.mem_map_of_mem hp, rfl, hl⟩, by simpa using hne⟩
    refine ⟨fun d hd => ?_, hold.1⟩
    cases hd
    exact if_neg hold.2.symm
  · rwa [guildBroken_players h hcopies] at hsd

theorem guildDownOf_refused : guildDownOf c (.memberAdded k a ch 1) = none :=
  if_neg fun h => absurd h.2 (by decide)

/-- The answer to an acceptance changes the player at most, and takes the invitation back. -/
theorem guildMemberAdded_cases (s : GuildMap) (k a ch : Int32) (flag : UInt8) :
    (s.guildMemberAdded k a ch flag).1 = s ∨
    ∃ f : GuildSession → GuildSession, (s.guildMemberAdded k a ch flag).1 = s.setPlayer a f ∧
      ∀ sd, (f sd).key = sd.key ∧ (f sd).guildInvite = 0 ∧
        (flag = 1 → (f sd).guildId = sd.guildId) := by
  unfold GuildMap.guildMemberAdded
  dsimp only
  split
  · exact .inl rfl
  · split
    · exact .inl rfl
    · split
      · exact .inl rfl
      · split
        · exact .inr ⟨_, rfl, fun _ => ⟨rfl, rfl, fun _ => rfl⟩⟩
        · rename_i hflag
          exact .inr ⟨_, rfl, fun _ => ⟨rfl, rfl, fun e => absurd e hflag⟩⟩

theorem guildMemberAdded_guilds : (s.guildMemberAdded k a ch flag).1.guilds = s.guilds := by
  rcases guildMemberAdded_cases s k a ch flag with heq | ⟨f, heq, -⟩ <;> rw [heq]
  rfl

theorem guildMemberAdded_refused {sd : GuildSession}
    (hsd : sd ∈ (s.guildMemberAdded k a ch 1).1.players) :
    ∃ q ∈ s.players, sd.charId = q.charId ∧ sd.guild = q.guild := by
  rcases guildMemberAdded_cases s k a ch 1 with heq | ⟨f, heq, hf⟩
  · rw [heq] at hsd
    exact ⟨sd, hsd, rfl, rfl⟩
  · rw [heq] at hsd
    obtain ⟨q, hq, rfl⟩ := mem_setGuildPlayer hsd
    obtain ⟨hkey, -, hid⟩ := hf q
    refine ⟨q, hq, ?_, ?_⟩
    · split
      · exact congrArg Prod.snd hkey
      · rfl
    · split
      · rw [GuildSession.guild, hid rfl, GuildSession.guild]
      · rfl

/-- **The answer to an acceptance.** The player is in the guild from now on, and every other guild
is checked, or it has no invitation any more and leaves the guild. -/
theorem GuildViews.memberAdded (h : GuildViews s guilds up (.memberAdded k a ch flag :: down))
    (hs : SessionsApart s.players) (hkey : (a, ch) ∈ s.players.map GuildSession.key)
    (hflag : flag = 1 ∨ flag = 0 ∧ k ≠ 0 ∧ (s.search k).isSome) :
    GuildViews (s.guildMemberAdded k a ch flag).1 guilds
      (up ++ (s.guildMemberAdded k a ch flag).2) down := by
  refine h.receive (fun _ => List.mem_append_left _) (fun c _ l hl => .inr ⟨fun d hd => ?_, ?_⟩)
    fun sd hsd => ?_
  · simp only [guildDownOf] at hd
    split at hd <;> cases hd
    rfl
  · rwa [GuildMap.lists, guildMemberAdded_guilds] at hl
  · rcases hflag with rfl | ⟨rfl, hk, hsome⟩
    · obtain ⟨q, hq, hchar, hguild⟩ := guildMemberAdded_refused hsd
      refine ⟨q, hq, hchar, ?_⟩
      rw [hguild]
      exact GuildViews.hears_none guildDownOf_refused
    · obtain ⟨copy, hcopy⟩ := Option.isSome_iff_exists.mp hsome
      obtain ⟨q₀, hq₀, hkey₀⟩ := List.mem_map.mp hkey
      have ha₀ : q₀.accountId = a := congrArg Prod.fst hkey₀
      have hch₀ : q₀.charId = ch := congrArg Prod.snd hkey₀
      have hfind : s.id2sd a = some q₀ := by
        cases hid : s.id2sd a with
        | none => exact absurd (decide_eq_true ha₀) (List.find?_eq_none.mp hid q₀ hq₀)
        | some q =>
          have haq : q.accountId = a := by simpa using List.find?_some hid
          have hq := List.mem_of_find?_eq_some hid
          rw [List.inj_on_of_nodup_map hs.accounts hq hq₀ (haq.trans ha₀.symm)]
      have hchar : ∀ q ∈ s.players, ch = q.charId ↔ q.accountId = a := fun q hq =>
        ⟨fun e => hs.accountId_eq hkey hq e.symm, fun e => (hs.charId_eq hkey hq e).symm⟩
      by_cases hinvite : q₀.guildInvite = 0
      · have heq : s.guildMemberAdded k a ch 0 =
            (s, [.leave k a ch 0 (cstr 40 "* Failure of register *")]) := by
          simp only [GuildMap.guildMemberAdded, hcopy, hfind, hinvite, if_true]
        rw [heq] at hsd ⊢
        refine ⟨sd, hsd, rfl, ?_⟩
        by_cases hch : ch = sd.charId
        · refine GuildViews.hears_added (if_pos ⟨hch, rfl⟩) (.inr ⟨rfl, ?_⟩)
          exact List.mem_filterMap.mpr ⟨_, List.mem_append_right _ (List.mem_singleton.mpr rfl),
            if_pos hch⟩
        · exact GuildViews.hears_none (if_neg fun e => hch e.1)
      · have heq : s.guildMemberAdded k a ch 0 =
            (s.setPlayer a fun sd => { GuildMap.uninvited sd with guildId := k },
              [.checkConflict k q₀.accountId q₀.charId]) := by
          simp only [GuildMap.guildMemberAdded, hcopy, hfind, hinvite, if_false]
          rfl
        rw [heq] at hsd ⊢
        obtain ⟨q, hq, rfl⟩ := mem_setGuildPlayer hsd
        refine ⟨q, hq, by split <;> rfl, ?_⟩
        by_cases hqa : q.accountId = a
        · have hch := (hchar q hq).mpr hqa
          rw [if_pos hqa]
          refine GuildViews.hears_added (if_pos ⟨hch, rfl⟩) (.inl ⟨if_neg hk, ?_⟩)
          exact List.mem_filterMap.mpr ⟨_, List.mem_append_right _ (List.mem_singleton.mpr rfl),
            if_pos (hch₀.trans hch)⟩
        · rw [if_neg hqa]
          exact GuildViews.hears_none (if_neg fun e => hqa ((hchar q hq).mp e.1))

/-! ## What stays on the map server -/

/-- What a step on the map server leaves: it forgets no guild but those that are `lost`, and a new
invitation is to a guild that it knows. -/
structure Leaves (lost : Int32 → Prop) (s s' : GuildMap) : Prop where
  keys : s'.players.map GuildSession.key = s.players.map GuildSession.key
  search : ∀ k, ¬ lost k → (s.search k).isSome → (s'.search k).isSome
  copies : ∀ c ∈ s'.guilds, CopySound c
  invited : ∀ sd' ∈ s'.players, (∃ sd ∈ s.players, sd'.guildInvite = sd.guildInvite) ∨
    sd'.guildInvite = 0 ∨ (s.search sd'.guildInvite).isSome

variable {lost : Int32 → Prop}

theorem guildMap_search : (s.search k).isSome ↔ ∃ c ∈ s.guilds, c.guild.guildId = k := by
  simp [GuildMap.search]

theorem leaves_refl (hcopies : ∀ c ∈ s.guilds, CopySound c) : Leaves lost s s :=
  ⟨rfl, fun _ _ => id, hcopies, fun sd hsd => .inl ⟨sd, hsd, rfl⟩⟩

theorem leaves_setPlayer {f : GuildSession → GuildSession}
    (hcopies : ∀ c ∈ s.guilds, CopySound c) (hkey : ∀ sd, (f sd).key = sd.key)
    (hinvite : ∀ sd, (f sd).guildInvite = sd.guildInvite ∨ (f sd).guildInvite = 0 ∨
      (s.search (f sd).guildInvite).isSome) : Leaves lost s (s.setPlayer a f) := by
  refine ⟨guildKeys_setPlayer hkey, fun _ _ => id, hcopies, fun sd' hsd' => ?_⟩
  obtain ⟨sd, hsd, rfl⟩ := mem_setGuildPlayer hsd'
  split
  · exact (hinvite sd).imp_left fun h => ⟨sd, hsd, h⟩
  · exact .inl ⟨sd, hsd, rfl⟩

theorem leaves_setGuild {f : GuildCopy → GuildCopy}
    (hid : ∀ c, c.guild.guildId = k → (f c).guild.guildId = k)
    (hcopies : ∀ c ∈ s.guilds, CopySound c) (hf : ∀ c, CopySound c → CopySound (f c)) :
    Leaves lost s (s.setGuild k f) := by
  refine ⟨rfl, fun l _ hl => ?_, fun c hc => ?_, fun sd hsd => .inl ⟨sd, hsd, rfl⟩⟩
  · obtain ⟨c, hc, rfl⟩ := guildMap_search.mp hl
    refine guildMap_search.mpr ⟨_, List.mem_map_of_mem hc, ?_⟩
    split
    · rename_i hk
      exact (hid c hk).trans hk.symm
    · rfl
  · obtain ⟨q, hq, rfl⟩ := List.mem_map.mp hc
    split
    · exact hf q (hcopies q hq)
    · exact hcopies q hq

theorem Leaves.trans {t : GuildMap} (h : Leaves lost s t) {s' : GuildMap} (h' : Leaves lost t s')
    (hback : ∀ k, (t.search k).isSome → (s.search k).isSome) : Leaves lost s s' := by
  refine ⟨h'.keys.trans h.keys, fun k hk hs => h'.search k hk (h.search k hk hs), h'.copies,
    fun sd hsd => ?_⟩
  rcases h'.invited sd hsd with ⟨q, hq, heq⟩ | hzero | hsome
  · rw [heq]
    exact h.invited q hq
  · exact .inr (.inl hzero)
  · exact .inr (.inr (hback _ hsome))

theorem CopySound.without {copy : GuildCopy} (h : CopySound copy) (ch : Int32) :
    CopySound (copy.without ch) := by
  have hmember : ∀ i, ((copy.without ch).guild.member i).charId ≠ 0 →
      (copy.guild.member i).charId ≠ 0 := fun i hi => by
    simp only [GuildCopy.without, eraseMembers] at hi
    split at hi
    · exact absurd rfl hi
    · exact hi
  refine ⟨fun i hi => h.placed i (hmember i hi), fun i hi => ?_⟩
  simp only [GuildCopy.without, Bool.and_eq_true, Bool.not_eq_true', decide_eq_false_iff_not] at hi
  simp only [GuildCopy.without, eraseMembers]
  rw [if_neg hi.2]
  exact h.somebody i hi.1

theorem CopySound.erase {copy : GuildCopy} (h : CopySound copy) (i : Fin maxGuild) :
    CopySound (copy.erase i) := by
  refine ⟨fun j hj => ?_, fun j hj => ?_⟩
  · by_cases hji : j = i
    · subst hji
      exact absurd (by simp [GuildCopy.erase]) hj
    · simp only [GuildCopy.erase, Function.update_of_ne hji] at hj
      exact h.placed j hj
  · by_cases hji : j = i
    · subst hji
      simp [GuildCopy.erase] at hj
    · simp only [GuildCopy.erase, Function.update_of_ne hji] at hj ⊢
      exact h.somebody j hj

theorem copyOf_sound (hs : SessionsApart s.players)
    (hg : ∀ i, (g.member i).charId ≠ 0 → i.val < g.maxMember.toInt) : CopySound (s.copyOf g) := by
  refine ⟨hg, fun i hi => ?_⟩
  obtain ⟨-, -, hany⟩ := of_decide_eq_true hi
  cases hfind : s.id2sd (g.member i).accountId with
  | none =>
    rw [hfind] at hany
    cases hany
  | some sd =>
    rw [hfind] at hany
    have hboth := of_decide_eq_true hany
    have hmem := List.mem_of_find?_eq_some hfind
    exact fun hzero => (hs.pos sd hmem).2 (hboth.1.trans hzero)

/-- **What a message leaves.** A guild is forgotten when it is broken up. -/
theorem leaves_intifParseGuild {m : FromGuilds} (hs : SessionsApart s.players)
    (hcopies : ∀ c ∈ s.guilds, CopySound c)
    (hinfo : ∀ g, m = .info g → ∀ i, (g.member i).charId ≠ 0 → i.val < g.maxMember.toInt) :
    Leaves (fun k => ∃ f, m = .broken k f) s (s.intifParseGuild m).1 := by
  cases m with
  | memberAdded k a ch flag =>
    unfold GuildMap.intifParseGuild
    rcases guildMemberAdded_cases s k a ch flag with heq | ⟨f, heq, hf⟩ <;> rw [heq]
    · exact leaves_refl hcopies
    · exact leaves_setPlayer hcopies (fun sd => (hf sd).1) fun sd => .inr (.inl (hf sd).2.1)
  | memberLeaved k a ch flag name mes =>
    have hguild := @leaves_setGuild s k
      (fun l => ∃ f, FromGuilds.memberLeaved k a ch flag name mes = .broken l f)
      (GuildCopy.without ch) (fun _ => id) hcopies fun _ h => h.without ch
    refine hguild.trans (leaves_setPlayer hguild.copies (fun sd => ?_) fun sd => .inl ?_)
      fun l hl => ?_
    · split <;> rfl
    · split <;> rfl
    · obtain ⟨c, hc, rfl⟩ := guildMap_search.mp hl
      obtain ⟨q, hq, rfl⟩ := List.mem_map.mp hc
      refine guildMap_search.mpr ⟨q, hq, ?_⟩
      split <;> rfl
  | info g =>
    have hcopy : CopySound (s.copyOf g) := copyOf_sound hs (hinfo g rfl)
    unfold GuildMap.intifParseGuild GuildMap.guildRecvInfo
    dsimp only
    split
    · have hkeys : (s.guildCheckMember g).players.map GuildSession.key =
          s.players.map GuildSession.key := by
        apply guildKeys_map
        intro sd
        split <;> rfl
      refine ⟨hkeys, fun l _ hl => ?_, fun c hc => ?_, fun sd' hsd' => .inl ?_⟩
      · obtain ⟨c, hc, rfl⟩ := guildMap_search.mp hl
        exact guildMap_search.mpr ⟨c, List.mem_append_left _ hc, rfl⟩
      · rcases List.mem_append.mp hc with hc | hc
        · exact hcopies c hc
        · rw [List.mem_singleton.mp hc]
          exact copyOf_sound (hs.of_keys hkeys) (hinfo g rfl)
      · obtain ⟨sd, hsd, rfl⟩ := List.mem_map.mp hsd'
        refine ⟨sd, hsd, ?_⟩
        split <;> rfl
    · exact leaves_setGuild (fun _ _ => rfl) hcopies fun _ _ => hcopy
  | broken k flag =>
    unfold GuildMap.intifParseGuild GuildMap.guildBroken
    dsimp only
    split
    · exact leaves_refl hcopies
    · split
      · exact leaves_refl hcopies
      · refine ⟨guildKeys_map fun sd => ?_, fun l hlost hl => ?_, fun c hc => ?_,
          fun sd' hsd' => .inl ?_⟩
        · split <;> rfl
        · obtain ⟨c, hc, rfl⟩ := guildMap_search.mp hl
          refine guildMap_search.mpr ⟨c, List.mem_filter.mpr ⟨hc, decide_eq_true fun e => ?_⟩, rfl⟩
          exact hlost ⟨flag, by rw [e]⟩
        · exact hcopies c (List.mem_filter.mp hc).1
        · obtain ⟨sd, hsd, rfl⟩ := List.mem_map.mp hsd'
          refine ⟨sd, hsd, ?_⟩
          split <;> rfl

end Receives

end Nezumi
