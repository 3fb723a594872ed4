import Nezumi.Guild.GuildMemberViews
import Nezumi.Lib.Run

/-!
# Agreement about guilds over whole runs (`map/guild.c`, `char/int_guild.c`)

* `GuildsAgreed`: each character has one entry at most in one guild at most, and the `guild_id` of a
  connected player is the guild that lists the character.
* `MemberRequestOk` is the condition on a request that the char-server receives: a new member that
  finds a place has no entry yet, and a leave names the account of the character that it is about.
* `MembersOk` is the invariant, `membersOk_step` its step.
* `memberRun_agreed`: whenever nothing is under way, the servers agree.
* `memberRun_not_agreed`: a player who accepts an invitation twice stays listed after it has left.
-/

namespace Nezumi

open Membership

/-! ## What is claimed -/

/-- No message is under way. -/
def GuildWorld.Idle (w : GuildWorld) : Prop := w.up.isEmpty ∧ w.down.isEmpty

instance (w : GuildWorld) : Decidable w.Idle :=
  inferInstanceAs (Decidable (w.up.isEmpty ∧ w.down.isEmpty))

structure GuildsAgreed (w : GuildWorld) : Prop where
  once : ∀ g ∈ w.guilds, ∀ q ∈ w.guilds, ∀ i j, (g.member i).charId ≠ 0 →
    (g.member i).charId = (q.member j).charId → g.guildId = q.guildId ∧ i = j
  same : ∀ sd ∈ w.map.players, ∀ k, k ≠ 0 → (sd.guildId = k ↔ InGuild w.guilds sd.charId k)

/-- The map server knows a guild, if the char-server has it. -/
def Known (s : GuildMap) (guilds : List GuildRecord) (k : Int32) : Prop :=
  (∃ g ∈ guilds, g.guildId = k) → (s.search k).isSome

/-- A state to begin with: the servers agree, nothing is under way, the copies of the map server
show nobody that the char-server does not list, and invitations are to guilds that it knows. -/
structure GuildStart (conf : GuildConf) (w : GuildWorld) : Prop where
  quiet : w.Idle
  agreed : GuildsAgreed w
  apart : SessionsApart w.map.players
  table : GuildsSound conf w.guilds
  copies : ∀ c ∈ w.map.guilds, CopySound c
  shown : ∀ c ∈ w.map.guilds, ∀ i, (c.guild.member i).charId ≠ 0 →
    InGuild w.guilds (c.guild.member i).charId c.guild.guildId
  invited : ∀ sd ∈ w.map.players, Known w.map w.guilds sd.guildInvite

/-- A request that the char-server can serve without listing a character twice, or telling the map
server about somebody else. -/
def MemberRequestOk (w : GuildWorld) : ToGuilds → Prop
  | .addMember guildId m => ∀ g ∈ w.guilds, g.guildId = guildId → (freeSlot g).isSome →
      ¬ g.HasMember m.charId
  | .leave guildId accountId charId .. => InGuild w.guilds charId guildId →
      ∀ sd ∈ w.map.players, sd.charId = charId → sd.accountId = accountId
  | .checkConflict .. => True

def MemberStepOk (w : GuildWorld) : MemberEvent → Prop
  | .charReceives => ∀ m ∈ w.up.head?, MemberRequestOk w m
  | _ => True

/-! ## The invariant -/

/-- Requests for a character come from its session, and a new member was invited to a guild that the
map server knows. -/
def GuildAsks (s : GuildMap) (guilds : List GuildRecord) : ToGuilds → Prop
  | .addMember guildId m =>
    (m.accountId, m.charId) ∈ s.players.map GuildSession.key ∧ Known s guilds guildId
  | .leave .. => True
  | .checkConflict _ accountId charId => (accountId, charId) ∈ s.players.map GuildSession.key

/-- What is true of the answers under way. -/
def GuildTells (s : GuildMap) (guilds : List GuildRecord) : FromGuilds → Prop
  | .memberAdded guildId accountId charId flag =>
    (accountId, charId) ∈ s.players.map GuildSession.key ∧
      (flag = 1 ∨ flag = 0 ∧ guildId ≠ 0 ∧ (s.search guildId).isSome)
  | .memberLeaved _ accountId charId .. =>
    ∀ key ∈ s.players.map GuildSession.key, key.2 = charId → key.1 = accountId
  | .info g => ∀ i, (g.member i).charId ≠ 0 → i.val < g.maxMember.toInt
  | .broken guildId flag => flag = 0 ∧ ∀ g ∈ guilds, g.guildId ≠ guildId

/-- Nobody is added to a guild after its end. -/
def EndsLast (x y : FromGuilds) : Prop :=
  ∀ k f, x = .broken k f → ∀ a ch, y ≠ .memberAdded k a ch 0

/-- The table of the char-server, and what the map server and each character know of it. -/
structure MembersOk (conf : GuildConf) (s : GuildMap) (guilds : List GuildRecord)
    (up : List ToGuilds) (down : List FromGuilds) : Prop where
  table : GuildsSound conf guilds
  away : ∀ c, c ≠ 0 → c ∉ s.players.map GuildSession.charId →
    ∀ k l, InGuild guilds c k → InGuild guilds c l → k = l
  apart : SessionsApart s.players
  copies : ∀ c ∈ s.guilds, CopySound c
  invited : ∀ sd ∈ s.players, Known s guilds sd.guildInvite
  asks : ∀ m ∈ up, GuildAsks s guilds m
  tells : ∀ m ∈ down, GuildTells s guilds m
  ordered : down.Pairwise EndsLast
  views : GuildViews s guilds up down

section Table

variable {conf : GuildConf} {s s' : GuildMap} {guilds guilds' : List GuildRecord}
  {up out : List ToGuilds} {down down' : List FromGuilds} {k a ch : Int32} {flag : UInt8}
  {mes : CStr 40} {m : FromGuilds}

theorem Known.sub (h : Known s guilds k)
    (hids : ∀ q ∈ guilds', ∃ g ∈ guilds, g.guildId = q.guildId) :
    Known s guilds' k := by
  rintro ⟨q, hq, hid⟩
  obtain ⟨g, hg, heq⟩ := hids q hq
  exact h ⟨g, hg, heq.trans hid⟩

theorem mem_chars_of_key (h : (a, ch) ∈ s.players.map GuildSession.key) :
    ch ∈ s.players.map GuildSession.charId := by
  obtain ⟨sd, hsd, heq⟩ := List.mem_map.mp h
  exact List.mem_map.mpr ⟨sd, hsd, congrArg Prod.snd heq⟩

/-! ## The char-server -/

/-- The table changes and a message is sent. -/
theorem MembersOk.send (h : MembersOk conf s guilds up down) (htable : GuildsSound conf guilds')
    (hids : ∀ q ∈ guilds', ∃ g ∈ guilds, g.guildId = q.guildId)
    (haway : ∀ c, c ≠ 0 → c ∉ s.players.map GuildSession.charId →
      ∀ k, InGuild guilds' c k → InGuild guilds c k)
    (htells : GuildTells s guilds' m)
    (hadded : ∀ k a ch, m = .memberAdded k a ch 0 → ∃ g ∈ guilds, g.guildId = k)
    (hviews : GuildViews s guilds' up (down ++ [m])) :
    MembersOk conf s guilds' up (down ++ [m]) := by
  refine ⟨htable, fun c hc hno k l hk hl => ?_, h.apart, h.copies,
    fun sd hsd => (h.invited sd hsd).sub hids, fun x hx => ?_, fun x hx => ?_, ?_, hviews⟩
  · exact h.away c hc hno k l (haway c hc hno k hk) (haway c hc hno l hl)
  · have hold := h.asks x hx
    cases x with
    | addMember k m => exact ⟨hold.1, hold.2.sub hids⟩
    | leave | checkConflict => exact hold
  · rcases List.mem_append.mp hx with hx | hx
    · have hold := h.tells x hx
      cases x with
      | broken k f =>
        refine ⟨hold.1, fun q hq hid => ?_⟩
        obtain ⟨g, hg, heq⟩ := hids q hq
        exact hold.2 g hg (heq.trans hid)
      | memberAdded | memberLeaved | info => exact hold
    · rwa [List.mem_singleton.mp hx]
  · refine List.pairwise_append.mpr ⟨h.ordered, List.pairwise_singleton _ _, ?_⟩
    rintro x hx y hy k f rfl a ch rfl
    obtain ⟨g, hg, hid⟩ := hadded k a ch (List.mem_singleton.mp hy).symm
    exact (h.tells _ hx).2 g hg hid

/-- The guild is sent. -/
theorem MembersOk.shows (h : MembersOk conf s guilds up down) (hm : Shows guilds k m) :
    MembersOk conf s guilds up (down ++ [m]) := by
  have hviews := h.views.info h.table hm
  obtain ⟨g, hg, rfl, rfl⟩ := hm
  refine h.send h.table (fun q hq => ⟨q, hq, rfl⟩) (fun _ _ _ _ => id) (fun i hi => ?_) ?_ hviews
  · exact ((h.table.sound g hg).member i hi).1
  · intro k a ch heq
    cases heq

/-- **A leave keeps what is known.** -/
theorem MembersOk.leave (h : MembersOk conf s guilds up down) (flag : UInt8) (mes : CStr 40)
    (hr : InGuild guilds ch k → ∀ sd ∈ s.players, sd.charId = ch → sd.accountId = a) :
    MembersOk conf s (mapifParseGuildLeave guilds k a ch flag mes).1 up
      (down ++ (mapifParseGuildLeave guilds k a ch flag mes).2) := by
  rcases leave_spec h.table k a ch flag mes with
    ⟨heq, -⟩ | ⟨guilds', name, x, heq, hlisted, htable, hids, hin, hx⟩
  · rw [heq, List.append_nil]
    exact h
  · rw [heq]
    have hleaved : MembersOk conf s guilds' up
        (down ++ [FromGuilds.memberLeaved k a ch flag name mes]) := by
      refine h.send htable hids (fun c hc _ l hl => ((hin c hc l).mp hl).1) (fun key hkey hch => ?_)
        ?_ (h.views.leaved h.apart hin)
      · obtain ⟨sd, hsd, rfl⟩ := List.mem_map.mp hkey
        exact hr hlisted sd hsd hch
      · intro k a ch heq
        cases heq
    have hlast : MembersOk conf s guilds' up
        (down ++ [FromGuilds.memberLeaved k a ch flag name mes] ++ [x]) := by
      rcases hx with hshows | ⟨rfl, hgone⟩
      · exact hleaved.shows hshows
      · refine hleaved.send htable (fun q hq => ⟨q, hq, rfl⟩) (fun _ _ _ _ => id) ⟨rfl, hgone⟩ ?_
          (hleaved.views.broken hgone)
        intro k a ch heq
        cases heq
    rwa [List.append_assoc] at hlast

/-- The guild is sent any number of times. -/
theorem MembersOk.showsAll (h : MembersOk conf s guilds up down) (out : List FromGuilds)
    (hout : ∀ x ∈ out, Shows guilds k x) : MembersOk conf s guilds up (down ++ out) := by
  induction out generalizing down with
  | nil => rwa [List.append_nil]
  | cons x out ih =>
    rw [← List.singleton_append, ← List.append_assoc]
    exact ih (h.shows (hout x List.mem_cons_self)) fun y hy => hout y (List.mem_cons_of_mem _ hy)

/-- **A new member keeps what is known.** -/
theorem MembersOk.addMember {m : GuildMemberRecord} (h : MembersOk conf s guilds up down)
    (hkey : (m.accountId, m.charId) ∈ s.players.map GuildSession.key) (hknown : Known s guilds k)
    (hnew : ∀ g ∈ guilds, g.guildId = k → (freeSlot g).isSome → ¬ g.HasMember m.charId) :
    MembersOk conf s (mapifParseGuildAddMember conf guilds k m).1 up
      (down ++ (mapifParseGuildAddMember conf guilds k m).2) := by
  obtain ⟨ha, hch⟩ := h.apart.pos_of_key hkey
  rcases addMember_spec h.table ⟨hch, ha⟩ hnew with
    heq | ⟨guilds', out, heq, htable, hkeys, ⟨g, hg, hid⟩, hin, hout⟩
  · rw [heq]
    refine h.send h.table (fun q hq => ⟨q, hq, rfl⟩) (fun _ _ _ _ => id) ⟨hkey, .inl rfl⟩ ?_
      h.views.refused
    intro k a ch heq
    injection heq with _ _ _ hflag
    exact absurd hflag (by decide)
  · rw [heq]
    have hzero : k ≠ 0 := fun e => absurd (h.table.sound g hg).pos (by rw [hid, e]; decide)
    have hids : ∀ q ∈ guilds', ∃ g ∈ guilds, g.guildId = q.guildId := fun q hq => by
      have hmem : q.guildId ∈ guilds.map GuildRecord.guildId := hkeys ▸ List.mem_map_of_mem hq
      exact List.mem_map.mp hmem
    have hadded : MembersOk conf s guilds' up
        (down ++ [FromGuilds.memberAdded k m.accountId m.charId 0]) := by
      refine h.send htable hids (fun c hc hno l hl => ?_)
        ⟨hkey, .inr ⟨rfl, hzero, hknown ⟨g, hg, hid⟩⟩⟩ ?_ (h.views.added h.apart hin)
      · refine ((hin c hc l).mp hl).resolve_right fun hboth => hno ?_
        rw [hboth.2]
        exact mem_chars_of_key hkey
      · intro l a ch heq
        injection heq with hl
        exact ⟨g, hg, hid.trans hl⟩
    have hall := hadded.showsAll out hout
    rwa [List.append_assoc] at hall

/-- After the check only the character's own guild lists it. -/
theorem MembersOk.conflict (h : MembersOk conf s guilds up down)
    (hkey : (a, ch) ∈ s.players.map GuildSession.key) :
    MembersOk conf s (guildCheckConflict guilds k a ch).1 up
        (down ++ (guildCheckConflict guilds k a ch).2) ∧
      ∀ l, InGuild (guildCheckConflict guilds k a ch).1 ch l → l = k := by
  obtain ⟨-, hch⟩ := h.apart.pos_of_key hkey
  have hstart : MembersOk conf s guilds up (down ++ []) := by rwa [List.append_nil]
  obtain ⟨hres, hin⟩ := @conflict_spec conf guilds a ch k
    (fun guilds out => MembersOk conf s guilds up (down ++ out)) hch (fun h => h.table)
    (fun l _ h => by
      rw [← List.append_assoc]
      exact h.leave 0 _ fun _ sd hsd e => h.apart.accountId_eq hkey hsd e)
    (guilds.map GuildRecord.guildId) [] hstart
  refine ⟨hres, fun l hl => ?_⟩
  obtain ⟨⟨g, hg, hid, -⟩, hkeys⟩ := hin l hl
  exact hkeys (hid ▸ List.mem_map_of_mem hg)

/-- The oldest request has been served. -/
theorem MembersOk.served {m : ToGuilds} (h : MembersOk conf s guilds (m :: up) down)
    (hm : ∀ sd ∈ s.players, ∀ u, guildUpOf sd.charId m = some u → ∀ g, InGuild guilds sd.charId g →
      ¬ Repaired g [u]) : MembersOk conf s guilds up down := by
  refine ⟨h.table, h.away, h.apart, h.copies, h.invited,
    fun x hx => h.asks x (List.mem_cons_of_mem _ hx), h.tells, h.ordered, h.views.copies,
    fun sd hsd => ?_⟩
  have hold := h.views.groups sd hsd
  rw [List.filterMap_cons] at hold
  cases hu : guildUpOf sd.charId m with
  | none => rwa [hu] at hold
  | some u =>
    rw [hu] at hold
    exact hold.served (hm sd hsd u hu)

/-- **The char-server serves a request.** -/
theorem MembersOk.charReceives {m : ToGuilds} (h : MembersOk conf s guilds (m :: up) down)
    (hm : MemberRequestOk ⟨s, guilds, m :: up, down⟩ m) :
    MembersOk conf s (interGuildParse conf guilds m).1 up
      (down ++ (interGuildParse conf guilds m).2) := by
  have hask := h.asks m List.mem_cons_self
  cases m with
  | addMember k m =>
    refine (h.addMember hask.1 hask.2 hm).served fun sd _ u hu g _ => ?_
    simp only [guildUpOf] at hu
    split at hu <;> cases hu
    rintro (hr | ⟨_, -, hr⟩) <;> simp at hr
  | leave k a ch flag mes =>
    refine (h.leave flag mes hm).served fun sd hsd u hu g hg => ?_
    simp only [guildUpOf] at hu
    split at hu
    · rename_i hch
      cases hu
      rintro (hr | ⟨_, -, hr⟩)
      · simp only [List.mem_singleton, Up.leave.injEq] at hr
        subst hr
        subst hch
        rcases leave_spec h.table g a sd.charId flag mes with
          ⟨heq, hno⟩ | ⟨guilds', name, x, heq, -, -, -, hin, -⟩
        · rw [heq] at hg
          exact hno hg
        · rw [heq, hin _ (h.apart.pos sd hsd).2] at hg
          exact hg.2 ⟨rfl, rfl⟩
      · simp at hr
    · cases hu
  | checkConflict k a ch =>
    obtain ⟨hres, hown⟩ := @MembersOk.conflict conf s guilds _ down k a ch h hask
    refine hres.served fun sd hsd u hu g hg => ?_
    simp only [guildUpOf] at hu
    split at hu
    · rename_i hch
      cases hu
      subst hch
      rintro (hr | ⟨r, hne, hr⟩)
      · simp at hr
      · simp only [List.mem_singleton, Up.conflict.injEq] at hr
        exact hne (hr.trans (hown g hg).symm)
    · cases hu

/-! ## The map server -/

/-- The map server does something, hears something at most, and asks for something. -/
theorem MembersOk.moved {lost : Int32 → Prop} (h : MembersOk conf s guilds up down)
    (hs : Leaves lost s s') (hlost : ∀ k, lost k → ∀ g ∈ guilds, g.guildId ≠ k)
    (hdown : down'.Sublist down) (hadded : ∀ k a ch, .memberAdded k a ch 0 ∈ down' → ¬ lost k)
    (hout : ∀ m ∈ out, GuildAsks s guilds m) (hviews : GuildViews s' guilds (up ++ out) down') :
    MembersOk conf s' guilds (up ++ out) down' := by
  have hchars : s'.players.map GuildSession.charId = s.players.map GuildSession.charId := by
    have hkeys := congrArg (List.map Prod.snd) hs.keys
    rwa [List.map_map, List.map_map] at hkeys
  have hknown : ∀ k, Known s guilds k → Known s' guilds k := fun k hk ⟨g, hg, hid⟩ =>
    hs.search k (fun hl => hlost k hl g hg hid) (hk ⟨g, hg, hid⟩)
  refine ⟨h.table, by rw [hchars]; exact h.away, h.apart.of_keys hs.keys, hs.copies,
    fun sd' hsd' => ?_, fun m hm => ?_, fun m hm => ?_, h.ordered.sublist hdown, hviews⟩
  · rcases hs.invited sd' hsd' with ⟨sd, hsd, heq⟩ | hzero | hsome
    · rw [heq]
      exact hknown _ (h.invited sd hsd)
    · rintro ⟨g, hg, hid⟩
      have hpos := (h.table.sound g hg).pos
      rw [hid, hzero] at hpos
      exact absurd hpos (by decide)
    · exact hknown _ fun _ => hsome
  · have hold : GuildAsks s guilds m := (List.mem_append.mp hm).elim (h.asks m) (hout m)
    cases m with
    | addMember k m => exact ⟨hs.keys ▸ hold.1, hknown k hold.2⟩
    | leave => trivial
    | checkConflict k a ch =>
      unfold GuildAsks
      rw [hs.keys]
      exact hold
  · have hold := h.tells m (hdown.subset hm)
    cases m with
    | memberAdded k a ch flag =>
      refine ⟨hs.keys ▸ hold.1, hold.2.imp_right ?_⟩
      rintro ⟨rfl, hk, hsome⟩
      exact ⟨rfl, hk, hs.search k (hadded k a ch hm) hsome⟩
    | memberLeaved k a ch flag name mes =>
      exact fun key hkey => hold key (hs.keys ▸ hkey)
    | info | broken => exact hold

/-- **The map server receives an answer.** -/
theorem MembersOk.mapReceives {m : FromGuilds} (h : MembersOk conf s guilds up (m :: down)) :
    MembersOk conf (s.intifParseGuild m).1 guilds (up ++ (s.intifParseGuild m).2) down := by
  have htell := h.tells m List.mem_cons_self
  have hleaves := @leaves_intifParseGuild s m h.apart h.copies fun g hg => by
    subst hg
    exact htell
  have hviews : GuildViews (s.intifParseGuild m).1 guilds (up ++ (s.intifParseGuild m).2) down := by
    cases m with
    | memberAdded k a ch flag => exact h.views.memberAdded h.apart htell.1 htell.2
    | memberLeaved k a ch flag name mes =>
      have hgoal := h.views.memberLeaved h.copies fun sd hsd e =>
        htell sd.key (List.mem_map_of_mem hsd) e
      simpa [GuildMap.intifParseGuild] using hgoal
    | info g => simpa [GuildMap.intifParseGuild] using h.views.recvInfo
    | broken k flag =>
      obtain ⟨rfl, -⟩ := htell
      simpa [GuildMap.intifParseGuild] using h.views.guildBroken h.copies
  refine h.moved hleaves ?_ (List.sublist_cons_self _ _) ?_ (fun x hx => ?_) hviews
  · rintro k ⟨f, rfl⟩
    exact htell.2
  · rintro k a ch hmem ⟨f, rfl⟩
    exact (List.pairwise_cons.mp h.ordered).1 _ hmem k f rfl a ch rfl
  · cases m with
    | memberAdded k a ch flag =>
      unfold GuildMap.intifParseGuild GuildMap.guildMemberAdded at hx
      dsimp only at hx
      have hfailure : ∀ {x}, x ∈ (if flag = 0 then
          [ToGuilds.leave k a ch 0 (cstr 40 "* Failure of register *")] else []) →
          GuildAsks s guilds x := fun {x} hx => by
        split at hx
        · rw [List.mem_singleton.mp hx]
          trivial
        · cases hx
      split at hx
      · cases hx
      · split at hx
        · exact hfailure hx
        · rename_i sd hsd
          split at hx
          · exact hfailure hx
          · split at hx
            · cases hx
            · rw [List.mem_singleton.mp hx]
              exact List.mem_map_of_mem (List.mem_of_find?_eq_some hsd)
    | memberLeaved | info | broken => cases hx

/-- A change on the map server that puts nobody into a guild and shows no more members. -/
structure AsideGuilds (s s' : GuildMap) : Prop where
  leaves : Leaves (fun _ => False) s s'
  lists : ∀ c, c ≠ 0 → ∀ l, InGuild s'.lists c l → InGuild s.lists c l
  players : ∀ sd' ∈ s'.players, ∃ sd ∈ s.players, sd'.charId = sd.charId ∧ sd'.guildId = sd.guildId

theorem MembersOk.client (h : MembersOk conf s guilds up down) (hs : AsideGuilds s s')
    (hout : ∀ m ∈ out, GuildAsks s guilds m) : MembersOk conf s' guilds (up ++ out) down := by
  have hviews : GuildViews s guilds (up ++ out) down := h.views.ask fun _ => List.mem_append_left _
  refine h.moved hs.leaves (fun _ hl => hl.elim) (List.Sublist.refl _) (fun _ _ _ _ => id) hout
    ⟨fun c hc => (hviews.copies c hc).sub (hs.lists c hc), fun sd' hsd' => ?_⟩
  obtain ⟨sd, hsd, hchar, hguild⟩ := hs.players sd' hsd'
  have hsame : sd'.guild = sd.guild := by rw [GuildSession.guild, hguild, GuildSession.guild]
  rw [hchar, hsame]
  exact hviews.groups sd hsd

theorem asideGuilds_refl (hcopies : ∀ c ∈ s.guilds, CopySound c) : AsideGuilds s s :=
  ⟨leaves_refl hcopies, fun _ _ _ => id, fun sd hsd => ⟨sd, hsd, rfl, rfl⟩⟩

theorem asideGuilds_setPlayer {f : GuildSession → GuildSession}
    (hcopies : ∀ c ∈ s.guilds, CopySound c)
    (hf : ∀ sd, (f sd).key = sd.key ∧ (f sd).guildId = sd.guildId)
    (hinvite : ∀ sd, (f sd).guildInvite = sd.guildInvite ∨ (f sd).guildInvite = 0 ∨
      (s.search (f sd).guildInvite).isSome) : AsideGuilds s (s.setPlayer a f) := by
  refine ⟨leaves_setPlayer hcopies (fun sd => (hf sd).1) hinvite, fun _ _ _ => id,
    fun sd' hsd' => ?_⟩
  obtain ⟨sd, hsd, rfl⟩ := mem_setGuildPlayer hsd'
  refine ⟨sd, hsd, ?_⟩
  split
  · exact ⟨congrArg Prod.snd (hf sd).1, (hf sd).2⟩
  · exact ⟨rfl, rfl⟩

theorem asideGuilds_erase (hcopies : ∀ c ∈ s.guilds, CopySound c) (i : Fin maxGuild) :
    AsideGuilds s (s.setGuild k (GuildCopy.erase i)) := by
  refine ⟨leaves_setGuild (fun _ => id) hcopies fun _ h => h.erase i, fun c hc l hl => ?_,
    fun sd hsd => ⟨sd, hsd, rfl, rfl⟩⟩
  obtain ⟨q, hq, hid, hl⟩ := @inGuild_setGuild s k l c (GuildCopy.erase i) (fun _ => id) hl
  refine ⟨q.guild, List.mem_map_of_mem hq, hid, ?_⟩
  split at hl
  · obtain ⟨j, hj⟩ := hl
    have hji : j ≠ i := fun e => hc (by rw [← hj, e]; simp [GuildCopy.erase])
    simp only [GuildCopy.erase, Function.update_of_ne hji] at hj
    exact ⟨j, hj⟩
  · exact hl

end Table

/-! ## Steps -/

/-- **Every step keeps the invariant.** -/
theorem membersOk_step (conf : MemberConf) (w : GuildWorld) (e : MemberEvent)
    (h : MembersOk conf.toGuildConf w.map w.guilds w.up w.down) (hok : MemberStepOk w e) :
    MembersOk conf.toGuildConf (memberStep conf w e).map (memberStep conf w e).guilds
      (memberStep conf w e).up (memberStep conf w e).down := by
  obtain ⟨s, guilds, up, down⟩ := w
  have hserved : ∀ (a : Int32) (f : GuildSession → GuildMap × List ToGuilds),
      (∀ sd ∈ s.players, AsideGuilds s (f sd).1 ∧ ∀ m ∈ (f sd).2, GuildAsks s guilds m) →
      MembersOk conf.toGuildConf (GuildWorld.served ⟨s, guilds, up, down⟩ a f).map
        (GuildWorld.served ⟨s, guilds, up, down⟩ a f).guilds
        (GuildWorld.served ⟨s, guilds, up, down⟩ a f).up
        (GuildWorld.served ⟨s, guilds, up, down⟩ a f).down := by
    intro a f hf
    unfold GuildWorld.served
    split
    · exact h
    · rename_i sd hsd
      obtain ⟨hs, hout⟩ := hf sd (List.mem_of_find?_eq_some hsd)
      exact h.client hs hout
  have hsame := asideGuilds_refl h.copies
  cases e with
  | invite a target war busy =>
    have haside : AsideGuilds s (s.guildInvite a target war busy) := by
      unfold GuildMap.guildInvite
      split
      · split
        · exact hsame
        · rename_i hsearch
          split
          · exact hsame
          · refine asideGuilds_setPlayer h.copies (fun _ => ⟨rfl, rfl⟩) fun _ => .inr (.inr ?_)
            exact Option.isSome_iff_exists.mpr ⟨_, hsearch⟩
      · exact hsame
    have hclient := h.client haside fun m hm => absurd hm List.not_mem_nil
    rwa [List.append_nil] at hclient
  | replyInvite a guildId flag =>
    refine hserved a _ fun sd hsd => ?_
    have huninvited : AsideGuilds s (s.setPlayer sd.accountId GuildMap.uninvited) :=
      asideGuilds_setPlayer h.copies (fun _ => ⟨rfl, rfl⟩) fun _ => .inr (.inl rfl)
    unfold GuildMap.guildReplyInvite
    split
    · exact ⟨hsame, by simp⟩
    · split
      · exact ⟨hsame, by simp⟩
      · split
        · exact ⟨huninvited, by simp⟩
        · split
          · exact ⟨huninvited, by simp⟩
          · split
            · exact ⟨huninvited, by simp⟩
            · refine ⟨hsame, fun m hm => ?_⟩
              rw [List.mem_singleton.mp hm]
              exact ⟨List.mem_map_of_mem hsd, h.invited sd hsd⟩
  | leave a guildId accountId charId war mes =>
    refine hserved a _ fun sd _ => ⟨hsame, fun m hm => ?_⟩
    unfold GuildMap.guildLeave at hm
    split at hm
    · cases hm
    · split at hm
      · cases hm
      · split at hm
        · rw [List.mem_singleton.mp hm]
          trivial
        · split at hm
          · rw [List.mem_singleton.mp hm]
            trivial
          · cases hm
  | explusion a guildId accountId charId mes =>
    refine hserved a _ fun sd _ => ?_
    unfold GuildMap.guildExplusion
    dsimp only
    split
    · exact ⟨hsame, by simp⟩
    · split
      · exact ⟨hsame, by simp⟩
      · split
        · exact ⟨hsame, by simp⟩
        · split
          · exact ⟨hsame, by simp⟩
          · rename_i i _
            refine ⟨asideGuilds_erase h.copies i, fun m hm => ?_⟩
            rw [List.mem_singleton.mp hm]
            trivial
  | charReceives =>
    cases up with
    | nil => exact h
    | cons m up => exact h.charReceives (hok m rfl)
  | mapReceives =>
    cases down with
    | nil => exact h
    | cons m down => exact h.mapReceives

/-! ## Runs -/

theorem GuildStart.membersOk {conf : GuildConf} {w : GuildWorld} (h : GuildStart conf w) :
    MembersOk conf w.map w.guilds w.up w.down := by
  obtain ⟨s, guilds, up, down⟩ := w
  obtain ⟨hup, hdown⟩ := h.quiet
  obtain rfl := List.isEmpty_iff.mp hup
  obtain rfl := List.isEmpty_iff.mp hdown
  refine ⟨h.table, fun c hc _ k l hk hl => ?_, h.apart, h.copies, h.invited,
    fun m hm => absurd hm List.not_mem_nil, fun m hm => absurd hm List.not_mem_nil,
    List.Pairwise.nil, fun c hc => ?_, fun sd hsd => ?_⟩
  · obtain ⟨g, hg, rfl, i, hi⟩ := hk
    obtain ⟨q, hq, rfl, j, hj⟩ := hl
    exact (h.agreed.once g hg q hq i j (hi ▸ hc) (hi.trans hj.symm)).1
  · refine copyOk_nil fun k ⟨g, hg, hid, i, hi⟩ => ?_
    obtain ⟨copy, hcopy, rfl⟩ := List.mem_map.mp hg
    exact hid ▸ hi ▸ h.shown copy hcopy i (hi ▸ hc)
  · refine groupOk_nil (fun k => ?_) _
    unfold GuildSession.guild
    by_cases hk : k = 0
    · subst hk
      refine iff_of_false (fun e => ?_) fun ⟨g, hg, hid, _⟩ => ?_
      · split at e
        · cases e
        · rename_i hne
          exact hne (Option.some.inj e)
      · have hpos := (h.table.sound g hg).pos
        rw [hid] at hpos
        exact absurd hpos (by decide)
    · rw [← h.agreed.same sd hsd k hk]
      split
      · rename_i hzero
        exact iff_of_false (by simp) fun e => hk (e.symm.trans hzero)
      · exact Option.some_inj

/-- With nothing under way the invariant is agreement. -/
theorem MembersOk.agreed {conf : GuildConf} {w : GuildWorld}
    (h : MembersOk conf w.map w.guilds w.up w.down) (hq : w.Idle) : GuildsAgreed w := by
  obtain ⟨s, guilds, up, down⟩ := w
  obtain ⟨hup, hdown⟩ := hq
  obtain rfl := List.isEmpty_iff.mp hup
  obtain rfl := List.isEmpty_iff.mp hdown
  have hagree : ∀ sd ∈ s.players, ∀ k, sd.guild = some k ↔ InGuild guilds sd.charId k :=
    fun sd hsd => (h.views.groups sd hsd).agree
  refine ⟨fun g hg q hq i j hne hchar => ?_, fun sd hsd k hk => ?_⟩
  · have hin : InGuild guilds (g.member i).charId g.guildId := ⟨g, hg, rfl, i, rfl⟩
    have hin' : InGuild guilds (g.member i).charId q.guildId := ⟨q, hq, rfl, j, hchar.symm⟩
    have hid : g.guildId = q.guildId := by
      by_cases hmem : (g.member i).charId ∈ s.players.map GuildSession.charId
      · obtain ⟨sd, hsd, heq⟩ := List.mem_map.mp hmem
        rw [← heq] at hin hin'
        exact Option.some.inj (((hagree sd hsd _).mpr hin).symm.trans ((hagree sd hsd _).mpr hin'))
      · exact h.away _ hne hmem _ _ hin hin'
    obtain rfl := List.inj_on_of_nodup_map h.table.keys hg hq hid
    exact ⟨rfl, (h.table.sound g hg).once i j hne hchar⟩
  · rw [← hagree sd hsd k, GuildSession.guild]
    split
    · rename_i hzero
      exact iff_of_false (fun e => hk (e.symm.trans hzero)) (by simp)
    · exact Option.some_inj.symm

/-- **Agreement about guilds.** In a run in which the char-server is never asked to list a character
that the guild already lists, or to remove one under another account, the servers agree whenever no
message is under way. -/
theorem memberRun_agreed (conf : MemberConf) (w : GuildWorld) (es : List MemberEvent)
    (hw : GuildStart conf.toGuildConf w) (hok : Run.Meets (memberStep conf) MemberStepOk w es)
    (hquiet : (Run.exec (memberStep conf) w es).Idle) :
    GuildsAgreed (Run.exec (memberStep conf) w es) :=
  (Run.inv_exec (I := fun w => MembersOk conf.toGuildConf w.map w.guilds w.up w.down)
    (membersOk_step conf) hw.membersOk hok).agreed hquiet

/-! ### Two players -/

instance (w : GuildWorld) (m : ToGuilds) : Decidable (MemberRequestOk w m) := by
  cases m <;> unfold MemberRequestOk <;> infer_instance

instance (w : GuildWorld) (e : MemberEvent) : Decidable (MemberStepOk w e) := by
  cases e <;> unfold MemberStepOk <;> infer_instance

def lowExpConf : MemberConf where
  guildExp _ := 1000
  guildExtensionBonus := 4
  bonus_le := by decide
  beyond _ _ := 0

/-- Alice is the master of guild 10000. Bob is in no guild. -/
def alicesGuild : GuildRecord where
  guildId := 10000
  guildLv := 1
  maxMember := 16
  name := cstr 24 "Guild"
  master := cstr 24 "Alice"
  member i := if i.val = 0 then { accountId := 1, charId := 101 } else {}

def alicesServers : GuildWorld where
  map := {
    guilds := [{ guild := alicesGuild, sd := fun i => i.val = 0 }]
    players := [{ accountId := 1, charId := 101, guildId := 10000 },
      { accountId := 2, charId := 102 }] }
  guilds := [alicesGuild]

theorem alicesServers_start : GuildStart lowExpConf.toGuildConf alicesServers := by
  refine ⟨by decide, ⟨by decide +kernel, fun sd hsd k hk => ?_⟩,
    ⟨by decide, by decide, by decide⟩, ⟨by decide, fun g hg => ?_⟩, fun c hc => ?_,
    by decide +kernel, ?_⟩
  · have hin : ∀ c, InGuild alicesServers.guilds c k ↔ 10000 = k ∧ alicesGuild.HasMember c := by
      intro c
      simp [InGuild, alicesServers, alicesGuild]
    have hmem : sd ∈ [{ accountId := 1, charId := 101, guildId := 10000 },
        { accountId := 2, charId := 102 }] := hsd
    rw [hin]
    rcases List.mem_cons.mp hmem with rfl | hmem
    · exact (and_iff_left (by decide +kernel)).symm
    · rw [List.mem_singleton.mp hmem]
      exact iff_of_false hk.symm fun h => absurd h.2 (by decide +kernel)
  · obtain rfl : g = alicesGuild := List.mem_singleton.mp hg
    exact ⟨by decide, by decide +kernel, by decide +kernel, by decide +kernel⟩
  · obtain rfl : c = { guild := alicesGuild, sd := fun i => i.val = 0 } := List.mem_singleton.mp hc
    exact ⟨by decide, by decide⟩
  · unfold Known
    decide

/-- Bob joins, and leaves again. -/
def bobJoinsLeaves : List MemberEvent :=
  [.invite 1 2 false false, .replyInvite 2 10000 1, .charReceives, .mapReceives, .mapReceives,
    .charReceives, .leave 2 10000 2 102 false default, .charReceives, .mapReceives, .mapReceives]

theorem memberRun_agreed_bob :
    GuildsAgreed (Run.exec (memberStep lowExpConf) alicesServers bobJoinsLeaves) :=
  memberRun_agreed lowExpConf alicesServers bobJoinsLeaves alicesServers_start (by decide +kernel)
    (by decide +kernel)

/-- Bob accepts the invitation twice. -/
def bobAcceptsTwice : List MemberEvent :=
  [.invite 1 2 false false, .replyInvite 2 10000 1, .replyInvite 2 10000 1, .charReceives,
    .charReceives, .mapReceives, .mapReceives, .mapReceives, .mapReceives, .charReceives,
    .charReceives, .mapReceives, .mapReceives]

/-- **A player can stay listed in a guild that it has left.** Nothing on the map server changes
between the two acceptances, and the char-server does not look for an entry of the player. It finds
no invitation for the second answer and takes one of the two entries back. -/
theorem memberRun_not_agreed :
    ¬ ∀ (conf : MemberConf) (w : GuildWorld) (es : List MemberEvent),
      GuildStart conf.toGuildConf w → (Run.exec (memberStep conf) w es).Idle →
        GuildsAgreed (Run.exec (memberStep conf) w es) := by
  intro h
  have hagreed := h lowExpConf alicesServers bobAcceptsTwice alicesServers_start (by decide)
  have hlisted : InGuild (Run.exec (memberStep lowExpConf) alicesServers bobAcceptsTwice).guilds
      102 10000 := by decide +kernel
  have hout : ∃ sd ∈ (Run.exec (memberStep lowExpConf) alicesServers bobAcceptsTwice).map.players,
      sd.charId = 102 ∧ sd.guildId ≠ 10000 := by decide +kernel
  obtain ⟨sd, hsd, hchar, hguild⟩ := hout
  exact hguild ((hagreed.same sd hsd 10000 (by decide)).mpr (hchar ▸ hlisted))

end Nezumi
