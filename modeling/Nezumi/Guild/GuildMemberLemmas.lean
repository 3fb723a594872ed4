import Nezumi.Guild.GuildMember

/-!
# The members that the char-server lists (`char/int_guild.c`)

* `InGuild`: a guild of the table lists a character.
* `GuildsSound`: the ids of the guilds are different, every member has a place, and no character is
  listed twice in a guild.
* `addMember_spec`, `leave_spec`, `conflict_spec`: what a request does to the lists, and what is
  sent about it.
-/

namespace Nezumi

/-- The guild lists a character. -/
def GuildRecord.HasMember (g : GuildRecord) (c : Int32) : Prop := ∃ i, (g.member i).charId = c

instance (g : GuildRecord) (c : Int32) : Decidable (g.HasMember c) :=
  inferInstanceAs (Decidable (∃ _, _))

/-- The guild of an id lists a character. -/
def InGuild (guilds : List GuildRecord) (c guildId : Int32) : Prop :=
  ∃ g ∈ guilds, g.guildId = guildId ∧ g.HasMember c

instance (guilds : List GuildRecord) (c k : Int32) : Decidable (InGuild guilds c k) :=
  inferInstanceAs (Decidable (∃ g ∈ guilds, g.guildId = k ∧ g.HasMember c))

/-- What holds of each guild. -/
structure GuildSound (conf : GuildConf) (g : GuildRecord) : Prop where
  pos : 0 < g.guildId
  places : g.maxMember =
    Int16.ofInt (16 + guildCheckskill g gdExtension * conf.guildExtensionBonus)
  member : ∀ i, (g.member i).charId ≠ 0 → i.val < g.maxMember.toInt ∧ 0 < (g.member i).accountId
  once : ∀ i j, (g.member i).charId ≠ 0 → (g.member i).charId = (g.member j).charId → i = j

structure GuildsSound (conf : GuildConf) (guilds : List GuildRecord) : Prop where
  keys : (guilds.map GuildRecord.guildId).Nodup
  sound : ∀ g ∈ guilds, GuildSound conf g

/-! ## Tables -/

section Tables

variable {conf : GuildConf} {guilds : List GuildRecord} {g q : GuildRecord} {c k : Int32}

theorem guildSearch_mem (h : guildSearch guilds k = some g) : g ∈ guilds ∧ g.guildId = k :=
  ⟨List.mem_of_find?_eq_some h, by simpa using List.find?_some h⟩

theorem guildSearch_none : guildSearch guilds k = none ↔ ∀ g ∈ guilds, g.guildId ≠ k := by
  simp [guildSearch]

theorem mem_guildPut : q ∈ guildPut guilds g ↔
    q = g ∧ (∃ p ∈ guilds, p.guildId = g.guildId) ∨ q ∈ guilds ∧ q.guildId ≠ g.guildId := by
  unfold guildPut
  rw [List.mem_map]
  constructor
  · rintro ⟨p, hp, rfl⟩
    split
    · rename_i hid
      exact .inl ⟨rfl, p, hp, hid⟩
    · rename_i hid
      exact .inr ⟨hp, hid⟩
  · rintro (⟨rfl, p, hp, hid⟩ | ⟨hq, hid⟩)
    · exact ⟨p, hp, if_pos hid⟩
    · exact ⟨q, hq, if_neg hid⟩

theorem guildPut_keys :
    (guildPut guilds g).map GuildRecord.guildId = guilds.map GuildRecord.guildId := by
  unfold guildPut
  rw [List.map_map]
  apply List.map_congr_left
  intro p _
  rw [Function.comp_apply]
  split
  · rename_i hid
    exact hid.symm
  · rfl

theorem inGuild_put (h : ∃ p ∈ guilds, p.guildId = g.guildId) :
    InGuild (guildPut guilds g) c k ↔
      if k = g.guildId then g.HasMember c else InGuild guilds c k := by
  constructor
  · rintro ⟨q, hq, hid, hl⟩
    rcases mem_guildPut.mp hq with ⟨rfl, -⟩ | ⟨hq, hne⟩
    · rwa [if_pos hid.symm]
    · rw [if_neg fun e => hne (hid.trans e)]
      exact ⟨q, hq, hid, hl⟩
  · split
    · rename_i hid
      exact fun hl => ⟨g, mem_guildPut.mpr (.inl ⟨rfl, h⟩), hid.symm, hl⟩
    · rename_i hid
      rintro ⟨q, hq, hqid, hl⟩
      exact ⟨q, mem_guildPut.mpr (.inr ⟨hq, hqid ▸ hid⟩), hqid, hl⟩

/-- A guild of the table lists just its members. -/
theorem GuildsSound.inGuild (h : GuildsSound conf guilds) (hg : g ∈ guilds) :
    InGuild guilds c g.guildId ↔ g.HasMember c := by
  constructor
  · rintro ⟨q, hq, hid, hl⟩
    rwa [List.inj_on_of_nodup_map h.keys hg hq hid.symm]
  · exact fun hl => ⟨g, hg, rfl, hl⟩

theorem GuildsSound.put (h : GuildsSound conf guilds) (hg : GuildSound conf g) :
    GuildsSound conf (guildPut guilds g) := by
  refine ⟨by rw [guildPut_keys]; exact h.keys, fun q hq => ?_⟩
  rcases mem_guildPut.mp hq with ⟨rfl, -⟩ | ⟨hq, -⟩
  · exact hg
  · exact h.sound q hq

end Tables

/-! ## `guild_calcinfo` -/

section Calcinfo

variable {conf : GuildConf} {g : GuildRecord}

theorem levelUps_eq (fuel : ℕ) (g : GuildRecord) : ∃ exp lv point,
    levelUps conf fuel g = { g with exp := exp, guildLv := lv, skillPoint := point } := by
  induction fuel generalizing g with
  | zero => exact ⟨g.exp, g.guildLv, g.skillPoint, rfl⟩
  | succ fuel ih =>
    rw [levelUps]
    split
    · obtain ⟨exp, lv, point, heq⟩ := ih { g with
        exp := g.exp - guildNextexp conf g.guildLv.toInt
        guildLv := g.guildLv + 1
        skillPoint := g.skillPoint + 1 }
      exact ⟨exp, lv, point, heq⟩
    · exact ⟨g.exp, g.guildLv, g.skillPoint, rfl⟩

theorem guildCheckskill_congr {g q : GuildRecord} (h : ∀ i, (q.skill i).lv = (g.skill i).lv)
    (id : Int) : guildCheckskill q id = guildCheckskill g id := by
  unfold guildCheckskill
  dsimp only
  split
  · rfl
  · rw [h]

/-- What is calculated of a guild does not touch its members. -/
theorem guildCalcinfo_fields (conf : GuildConf) (g : GuildRecord) :
    (guildCalcinfo conf g).guildId = g.guildId ∧ (guildCalcinfo conf g).member = g.member ∧
      (∀ i, ((guildCalcinfo conf g).skill i).lv = (g.skill i).lv) ∧
      (guildCalcinfo conf g).maxMember =
        Int16.ofInt (16 + guildCheckskill g gdExtension * conf.guildExtensionBonus) := by
  have hmax := fun exp lv point => congrArg
    (fun z => Int16.ofInt (16 + z * conf.guildExtensionBonus))
    (checkskill_counted (g := g) exp lv point gdExtension)
  have hlv : ∀ i, (skillWithId i (g.skill i)).lv = (g.skill i).lv := fun i => skillWithId_lv i _
  unfold guildCalcinfo
  dsimp only
  split
  · obtain ⟨exp, lv, point, heq⟩ := @levelUps_eq conf 100
      { g with skill := fun i => skillWithId i (g.skill i), guildLv := 1 }
    rw [heq]
    exact ⟨rfl, rfl, hlv, hmax _ _ _⟩
  · obtain ⟨exp, lv, point, heq⟩ := @levelUps_eq conf 100
      { g with skill := fun i => skillWithId i (g.skill i) }
    rw [heq]
    exact ⟨rfl, rfl, hlv, hmax _ _ _⟩

theorem GuildSound.calcinfo (h : GuildSound conf g) : GuildSound conf (guildCalcinfo conf g) := by
  obtain ⟨hid, hmember, hskill, hplaces⟩ := guildCalcinfo_fields conf g
  have hmax : (guildCalcinfo conf g).maxMember = g.maxMember := hplaces.trans h.places.symm
  refine ⟨hid ▸ h.pos, ?_, fun i => ?_, fun i j => ?_⟩
  · rw [hplaces, guildCheckskill_congr hskill]
  · rw [hmember, hmax]
    exact h.member i
  · rw [hmember]
    exact h.once i j

theorem lists_calcinfo {c : Int32} : (guildCalcinfo conf g).HasMember c ↔ g.HasMember c := by
  unfold GuildRecord.HasMember
  rw [(guildCalcinfo_fields conf g).2.1]

end Calcinfo

/-! ## A new member -/

section AddMember

variable {conf : GuildConf} {guilds : List GuildRecord} {g : GuildRecord} {i : Fin maxGuild}
  {m : GuildMemberRecord} {c k : Int32}

theorem freeSlot_some (h : freeSlot g = some i) :
    i.val < g.maxMember.toInt ∧ (g.member i).accountId = 0 := by
  simpa using List.find?_some h

/-- A slot without an account is free. -/
theorem GuildSound.charId_eq_zero (h : GuildSound conf g) (hi : (g.member i).accountId = 0) :
    (g.member i).charId = 0 := by
  by_contra hne
  have hpos := (h.member i hne).2
  rw [hi] at hpos
  exact absurd hpos (by decide)

theorem lists_update_member (hi : (g.member i).charId = 0) (hc : c ≠ 0) :
    GuildRecord.HasMember { g with member := Function.update g.member i m } c ↔
      g.HasMember c ∨ m.charId = c := by
  constructor
  · rintro ⟨j, hj⟩
    dsimp only at hj
    by_cases hji : j = i
    · subst hji
      rw [Function.update_self] at hj
      exact .inr hj
    · rw [Function.update_of_ne hji] at hj
      exact .inl ⟨j, hj⟩
  · rintro (⟨j, hj⟩ | hm)
    · have hji : j ≠ i := fun e => hc (by rw [← hj, e, hi])
      exact ⟨j, by dsimp only; rw [Function.update_of_ne hji, hj]⟩
    · exact ⟨i, by dsimp only; rw [Function.update_self, hm]⟩

/-- A guild with one more member. -/
theorem GuildSound.added (h : GuildSound conf g) (hi : i.val < g.maxMember.toInt)
    (hm : 0 < m.accountId) (hnew : ¬ g.HasMember m.charId) :
    GuildSound conf { g with member := Function.update g.member i m } := by
  refine ⟨h.pos, h.places, fun j => ?_, fun j l => ?_⟩
  · dsimp only
    by_cases hj : j = i
    · subst hj
      rw [Function.update_self]
      exact fun _ => ⟨hi, hm⟩
    · rw [Function.update_of_ne hj]
      exact h.member j
  · dsimp only
    by_cases hj : j = i <;> by_cases hl : l = i
    · exact fun _ _ => hj.trans hl.symm
    · subst hj
      rw [Function.update_self, Function.update_of_ne hl]
      exact fun _ e => absurd ⟨l, e.symm⟩ hnew
    · subst hl
      rw [Function.update_self, Function.update_of_ne hj]
      exact fun _ e => absurd ⟨j, e⟩ hnew
    · rw [Function.update_of_ne hj, Function.update_of_ne hl]
      exact h.once j l

/-- What is sent about a guild is what it is now. -/
def Shows (guilds : List GuildRecord) (k : Int32) (x : FromGuilds) : Prop :=
  ∃ g ∈ guilds, g.guildId = k ∧ x = .info g

/-- **What becomes of a new member**: it is refused, or it is listed in the guild, and the guild is
sent. -/
theorem addMember_spec (h : GuildsSound conf guilds) (hm : m.charId ≠ 0 ∧ 0 < m.accountId)
    (hnew : ∀ g ∈ guilds, g.guildId = k → (freeSlot g).isSome → ¬ g.HasMember m.charId) :
    mapifParseGuildAddMember conf guilds k m =
      (guilds, [.memberAdded k m.accountId m.charId 1]) ∨
    ∃ guilds' out, mapifParseGuildAddMember conf guilds k m =
        (guilds', .memberAdded k m.accountId m.charId 0 :: out) ∧
      GuildsSound conf guilds' ∧
      guilds'.map GuildRecord.guildId = guilds.map GuildRecord.guildId ∧
      (∃ g ∈ guilds, g.guildId = k) ∧
      (∀ c, c ≠ 0 → ∀ l, InGuild guilds' c l ↔ InGuild guilds c l ∨ l = k ∧ c = m.charId) ∧
      ∀ x ∈ out, Shows guilds' k x := by
  unfold mapifParseGuildAddMember
  dsimp only
  split
  · exact .inl rfl
  · rename_i g hsearch
    obtain ⟨hg, rfl⟩ := guildSearch_mem hsearch
    have hsound := h.sound g hg
    split
    · exact .inl rfl
    · split
      · exact .inl rfl
      · rename_i i hi
        obtain ⟨hplace, hfree⟩ := freeSlot_some hi
        have hzero := hsound.charId_eq_zero hfree
        have hnot : ¬ g.HasMember m.charId := hnew g hg rfl (by rw [hi]; rfl)
        have hadded := (hsound.added hplace hm.2 hnot).calcinfo
        obtain ⟨hid, -⟩ := guildCalcinfo_fields conf
          { g with member := Function.update g.member i m }
        have hmem : ∃ p ∈ guilds, p.guildId = (guildCalcinfo conf
            { g with member := Function.update g.member i m }).guildId := ⟨g, hg, hid.symm⟩
        refine .inr ⟨_, _, rfl, h.put hadded, guildPut_keys, ⟨g, hg, rfl⟩, fun c hc l => ?_,
          fun x hx => ⟨_, mem_guildPut.mpr (.inl ⟨rfl, hmem⟩), hid, ?_⟩⟩
        · rw [inGuild_put hmem, hid]
          by_cases hl : l = g.guildId
          · rw [if_pos hl, hl, lists_calcinfo, lists_update_member hzero hc, h.inGuild hg]
            simp [eq_comm]
          · simp [hl]
        · unfold calcinfoSends at hx
          dsimp only at hx
          split at hx <;> simpa using hx

end AddMember

/-! ## A member leaves -/

section Leave

variable {conf : GuildConf} {guilds : List GuildRecord} {g : GuildRecord} {i : Fin maxGuild}
  {c k l : Int32} {explusion : Fin maxGuildExplusion → GuildExplusion}

/-- The guild without a member, with a list of those that were driven out. -/
def GuildRecord.cleared (g : GuildRecord) (explusion : Fin maxGuildExplusion → GuildExplusion)
    (i : Fin maxGuild) : GuildRecord :=
  { g with explusion, member := Function.update g.member i {} }

theorem GuildSound.cleared (h : GuildSound conf g) : GuildSound conf (g.cleared explusion i) := by
  refine ⟨h.pos, h.places, fun j => ?_, fun j l => ?_⟩
  · unfold GuildRecord.cleared
    by_cases hj : j = i
    · subst hj
      simp
    · simpa [hj] using h.member j
  · unfold GuildRecord.cleared
    by_cases hj : j = i
    · subst hj
      simp
    · by_cases hl : l = i
      · subst hl
        simp only [Function.update_self, Function.update_of_ne hj]
        exact fun hne e => absurd e hne
      · simpa [hj, hl] using h.once j l

theorem GuildSound.lists_cleared (h : GuildSound conf g) (hc : c ≠ 0) :
    (g.cleared explusion i).HasMember c ↔ g.HasMember c ∧ c ≠ (g.member i).charId := by
  unfold GuildRecord.cleared
  constructor
  · rintro ⟨j, hj⟩
    dsimp only at hj
    by_cases hji : j = i
    · rw [hji, Function.update_self] at hj
      exact absurd hj.symm hc
    · rw [Function.update_of_ne hji] at hj
      exact ⟨⟨j, hj⟩, fun e => hji (h.once j i (hj ▸ hc) (hj.trans e))⟩
  · rintro ⟨⟨j, hj⟩, hne⟩
    have hji : j ≠ i := fun e => hne (by rw [← hj, e])
    exact ⟨j, by dsimp only; rw [Function.update_of_ne hji, hj]⟩

/-- A guild in which there is nobody lists nobody. -/
theorem GuildSound.not_lists (h : GuildSound conf g) (hno : g.noMember) (hc : c ≠ 0) :
    ¬ g.HasMember c := by
  rintro ⟨j, hj⟩
  have hj' := h.member j (hj ▸ hc)
  have hall := List.all_eq_true.mp hno j (List.mem_finRange j)
  simp [GuildMemberRecord.used, hj'.1, hj'.2] at hall

theorem mem_guildBreak {q : GuildRecord} : q ∈ (guildBreak { guilds } k).guilds ↔
    ∃ p ∈ guilds, p.guildId ≠ k ∧ q = guildBreakSub k p := by
  unfold guildBreak
  simp only [List.mem_filter, List.mem_map, decide_eq_true_eq]
  constructor
  · rintro ⟨⟨p, hp, rfl⟩, hne⟩
    exact ⟨p, hp, hne, rfl⟩
  · rintro ⟨p, hp, hne, rfl⟩
    exact ⟨⟨p, hp, rfl⟩, hne⟩

theorem inGuild_break :
    InGuild (guildBreak { guilds } k).guilds c l ↔ InGuild guilds c l ∧ l ≠ k := by
  constructor
  · rintro ⟨q, hq, rfl, hl⟩
    obtain ⟨p, hp, hne, rfl⟩ := mem_guildBreak.mp hq
    exact ⟨⟨p, hp, rfl, hl⟩, hne⟩
  · rintro ⟨⟨p, hp, rfl, hl⟩, hne⟩
    exact ⟨guildBreakSub k p, mem_guildBreak.mpr ⟨p, hp, hne, rfl⟩, rfl, hl⟩

theorem GuildsSound.breakUp (h : GuildsSound conf guilds) :
    GuildsSound conf (guildBreak { guilds } k).guilds := by
  have hkeys : ((guildBreak { guilds } k).guilds.map GuildRecord.guildId).Sublist
      (guilds.map GuildRecord.guildId) := by
    unfold guildBreak
    refine (List.filter_sublist.map GuildRecord.guildId).trans ?_
    rw [List.map_map]
    exact List.Sublist.refl _
  refine ⟨h.keys.sublist hkeys, fun q hq => ?_⟩
  obtain ⟨p, hp, -, rfl⟩ := mem_guildBreak.mp hq
  have hsound := h.sound p hp
  exact ⟨hsound.pos, hsound.places, hsound.member, hsound.once⟩

/-- **What becomes of a member that leaves**: if it is listed it is no longer, and the guild is sent
or broken up. -/
theorem leave_spec (h : GuildsSound conf guilds) (k a ch : Int32) (flag : UInt8) (mes : CStr 40) :
    (mapifParseGuildLeave guilds k a ch flag mes = (guilds, []) ∧ ¬ InGuild guilds ch k) ∨
    ∃ guilds' name x, mapifParseGuildLeave guilds k a ch flag mes =
        (guilds', [.memberLeaved k a ch flag name mes, x]) ∧
      InGuild guilds ch k ∧
      GuildsSound conf guilds' ∧
      (∀ q ∈ guilds', ∃ g ∈ guilds, g.guildId = q.guildId) ∧
      (∀ c, c ≠ 0 → ∀ l, InGuild guilds' c l ↔ InGuild guilds c l ∧ ¬ (l = k ∧ c = ch)) ∧
      (Shows guilds' k x ∨ x = .broken k 0 ∧ ∀ q ∈ guilds', q.guildId ≠ k) := by
  unfold mapifParseGuildLeave
  dsimp only
  split
  · rename_i hnone
    refine .inl ⟨rfl, ?_⟩
    rintro ⟨g, hg, hid, -⟩
    exact guildSearch_none.mp hnone g hg hid
  · rename_i g hsearch
    obtain ⟨hg, rfl⟩ := guildSearch_mem hsearch
    have hsound := h.sound g hg
    split
    · rename_i hneg
      exact absurd hsound.pos (Int32.not_lt.mpr hneg)
    · split
      · rename_i hnone
        refine .inl ⟨rfl, fun hl => ?_⟩
        obtain ⟨j, hj⟩ := (h.inGuild hg).mp hl
        have hno := Slots.first_eq_none_iff.mp hnone j
        simp [hj] at hno
      · rename_i i hi
        have hch : (g.member i).charId = ch := by simpa using Slots.first_some hi
        obtain ⟨explusion, he⟩ : ∃ explusion,
            (if flag ≠ 0 then addExplusion g a (g.member i).name mes else g) =
              { g with explusion } := by
          split
          · exact ⟨_, rfl⟩
          · exact ⟨_, rfl⟩
        rw [he]
        have hclear : GuildSound conf (g.cleared explusion i) := hsound.cleared
        have hid : (g.cleared explusion i).guildId = g.guildId := rfl
        have hmem : ∃ p ∈ guilds, p.guildId = (g.cleared explusion i).guildId := ⟨g, hg, rfl⟩
        have hlisted : InGuild guilds ch g.guildId := ⟨g, hg, rfl, i, hch⟩
        refine .inr ?_
        split
        · rename_i hno
          refine ⟨_, _, _, rfl, hlisted, h.breakUp, fun q hq => ?_, fun c hc l => ?_,
            .inr ⟨rfl, fun q hq => ?_⟩⟩
          · obtain ⟨p, hp, -, rfl⟩ := mem_guildBreak.mp hq
            exact ⟨p, hp, rfl⟩
          · rw [inGuild_break]
            refine and_congr_right fun hl => ⟨fun hne hboth => hne hboth.1, ?_⟩
            rintro hboth rfl
            have hlists := (h.inGuild hg).mp hl
            refine hclear.not_lists hno hc ((hsound.lists_cleared hc).mpr ⟨hlists, fun e => ?_⟩)
            exact hboth ⟨rfl, e.trans hch⟩
          · obtain ⟨p, hp, hne, rfl⟩ := mem_guildBreak.mp hq
            exact hne
        · refine ⟨_, _, _, rfl, hlisted, h.put hclear, fun q hq => ?_, fun c hc l => ?_,
            .inl ⟨_, mem_guildPut.mpr (.inl ⟨rfl, hmem⟩), rfl, rfl⟩⟩
          · rcases mem_guildPut.mp hq with ⟨rfl, p, hp, hid⟩ | ⟨hq, -⟩
            · exact ⟨p, hp, hid⟩
            · exact ⟨q, hq, rfl⟩
          · change InGuild (guildPut guilds (g.cleared explusion i)) c l ↔ _
            rw [inGuild_put hmem, hid]
            by_cases hl : l = g.guildId
            · rw [if_pos hl, hl, hsound.lists_cleared hc, h.inGuild hg, hch]
              simp
            · rw [if_neg hl]
              simp [hl]

end Leave

/-! ## The check of the other guilds -/

section Conflict

variable {conf : GuildConf} {guilds : List GuildRecord} {k a ch r : Int32}

/-- What a character is taken out of a guild with. -/
abbrev conflictLeave (guilds : List GuildRecord) (k a ch : Int32) :
    List GuildRecord × List FromGuilds :=
  mapifParseGuildLeave guilds k a ch 0 (cstr 40 "**Guild Data Bug**")

theorem not_inGuild_leave (h : GuildsSound conf guilds) (hch : ch ≠ 0) :
    ¬ InGuild (conflictLeave guilds k a ch).1 ch k := by
  rcases leave_spec h k a ch 0 (cstr 40 "**Guild Data Bug**") with
    ⟨heq, hno⟩ | ⟨guilds', name, x, heq, -, -, -, hin, -⟩
  · rwa [conflictLeave, heq]
  · rw [conflictLeave, heq, hin ch hch]
    exact fun hl => hl.2 ⟨rfl, rfl⟩

/-- The loop does nothing in a guild that does not list the character. -/
theorem conflictLoop_absent {s : List GuildRecord × List FromGuilds} (h : ¬ InGuild s.1 ch k)
    (l : List (Fin maxGuild)) : l.foldl (conflictLoop k a ch) s = s := by
  induction l with
  | nil => rfl
  | cons i l ih =>
    rw [List.foldl_cons]
    have hstep : conflictLoop k a ch s i = s := by
      unfold conflictLoop
      split
      · rfl
      · rename_i g hsearch
        obtain ⟨hg, hid⟩ := guildSearch_mem hsearch
        exact if_neg fun hi => h ⟨g, hg, hid, i, hi⟩
    rw [hstep, ih]

/-- The loop takes the character out where it comes to it. -/
theorem conflictLoop_listed {g : GuildRecord} {j : Fin maxGuild} {out : List FromGuilds}
    (h : GuildsSound conf guilds) (hch : ch ≠ 0) (hsearch : guildSearch guilds k = some g)
    (hj : (g.member j).charId = ch) {l : List (Fin maxGuild)} (hl : j ∈ l) :
    l.foldl (conflictLoop k a ch) (guilds, out) =
      ((conflictLeave guilds k a ch).1, out ++ (conflictLeave guilds k a ch).2) := by
  induction l with
  | nil => cases hl
  | cons i l ih =>
    rw [List.foldl_cons]
    by_cases hi : (g.member i).charId = ch
    · have hstep : conflictLoop k a ch (guilds, out) i =
          ((conflictLeave guilds k a ch).1, out ++ (conflictLeave guilds k a ch).2) := by
        simp only [conflictLoop, hsearch, hi, if_true]
      have hgone : ¬ InGuild (conflictLeave guilds k a ch).1 ch k := not_inGuild_leave h hch
      rw [hstep]
      exact conflictLoop_absent (by exact hgone) l
    · have hstep : conflictLoop k a ch (guilds, out) i = (guilds, out) := by
        simp only [conflictLoop, hsearch, hi, if_false]
      rw [hstep]
      refine ih ((List.mem_cons.mp hl).resolve_left ?_)
      rintro rfl
      exact hi hj

/-- A guild is left if it lists the character and is not its own. -/
theorem guildCheckConflictSub_eq {s : List GuildRecord × List FromGuilds}
    (h : GuildsSound conf s.1) (hch : ch ≠ 0) (key : Int32) :
    guildCheckConflictSub r a ch s key =
      if key ≠ r ∧ InGuild s.1 ch key then
        ((conflictLeave s.1 key a ch).1, s.2 ++ (conflictLeave s.1 key a ch).2)
      else s := by
  unfold guildCheckConflictSub
  by_cases hkey : key = r
  · simp [hkey]
  · rw [if_neg hkey]
    by_cases hin : InGuild s.1 ch key
    · rw [if_pos ⟨hkey, hin⟩]
      obtain ⟨g, hg, hid, j, hj⟩ := hin
      cases hsearch : guildSearch s.1 key with
      | none => exact absurd hid (guildSearch_none.mp hsearch g hg)
      | some q =>
        obtain ⟨hq, hqid⟩ := guildSearch_mem hsearch
        obtain rfl := List.inj_on_of_nodup_map h.keys hg hq (hid.trans hqid.symm)
        exact conflictLoop_listed h hch hsearch hj (List.mem_finRange j)
    · rw [if_neg fun hboth => hin hboth.2]
      exact conflictLoop_absent hin _

/-- **The check takes the character out of the guilds but its own**, one after the other: what each
leave keeps is kept, and no other guild that is checked lists the character. -/
theorem conflict_spec {P : List GuildRecord → List FromGuilds → Prop} (hch : ch ≠ 0)
    (hsound : ∀ {guilds out}, P guilds out → GuildsSound conf guilds)
    (hleave : ∀ {guilds out} k, k ≠ r → P guilds out →
      P (conflictLeave guilds k a ch).1 (out ++ (conflictLeave guilds k a ch).2))
    (keys : List Int32) {out : List FromGuilds} (h : P guilds out) :
    let res := keys.foldl (guildCheckConflictSub r a ch) (guilds, out)
    P res.1 res.2 ∧ (∀ k, InGuild res.1 ch k → InGuild guilds ch k ∧ (k ∈ keys → k = r)) := by
  induction keys generalizing guilds out with
  | nil => exact ⟨h, fun k hk => ⟨hk, fun hmem => absurd hmem List.not_mem_nil⟩⟩
  | cons key keys ih =>
    dsimp only
    rw [List.foldl_cons, guildCheckConflictSub_eq (hsound h) hch]
    split
    · rename_i hcond
      obtain ⟨hres, hin⟩ := ih (hleave key hcond.1 h)
      refine ⟨hres, fun k hk => ?_⟩
      obtain ⟨hlist, hkeys⟩ := hin k hk
      have hne : k ≠ key := by
        rintro rfl
        exact not_inGuild_leave (hsound h) hch hlist
      refine ⟨?_, fun hmem => hkeys ((List.mem_cons.mp hmem).resolve_left hne)⟩
      rcases leave_spec (hsound h) key a ch 0 (cstr 40 "**Guild Data Bug**") with
        ⟨heq, -⟩ | ⟨guilds', name, x, heq, -, -, -, hmono, -⟩
      · rwa [conflictLeave, heq] at hlist
      · rw [conflictLeave, heq] at hlist
        exact ((hmono ch hch k).mp hlist).1
    · rename_i hcond
      obtain ⟨hres, hin⟩ := ih h
      refine ⟨hres, fun k hk => ?_⟩
      obtain ⟨hlist, hkeys⟩ := hin k hk
      refine ⟨hlist, fun hmem => ?_⟩
      rcases List.mem_cons.mp hmem with rfl | hmem
      · by_contra hne
        exact hcond ⟨hne, hlist⟩
      · exact hkeys hmem

end Conflict

end Nezumi
