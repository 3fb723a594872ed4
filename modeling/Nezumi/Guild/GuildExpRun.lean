import Nezumi.Guild.GuildExp

/-!
# No experience of a guild is lost (`map/guild.c`)

* `ExpAccounted`: at each run of the timer all that has been taken has been reported, for the guild
  and the member who earned it, and a percentage is what it should be.
* `ExpOk`: what a step must meet. A character earns for one guild at a time, no sum leaves the range
  of an `int`, and the timer leaves nothing behind.
* `ExpWaiting`: what waits in the cache and what has been reported is what has been earned.
* `guildExp_accounted`: every run whose steps meet the condition accounts for all experience.
-/

namespace Nezumi

open Scanf

/-- An entry that the timer can send: its guild is known, and its character is in it. -/
def ExpWorld.payable (w : ExpWorld) (c : GuildExpcache) : Bool :=
  (w.guilds c.guildId).any fun g => (guildGetindex g c.charId).isSome

/-- The entries that the timer leaves: those it cannot send, and those beyond the 8192nd. -/
def ExpWorld.leftover (w : ExpWorld) : List GuildExpcache :=
  (w.expcache.filter w.payable).drop guildPayexpList ++ w.expcache.filter fun c => !w.payable c

/-- Experience fits into the entry of a character: it is for the guild that the player is in now,
and the sum is an `int`. -/
def ExpWorld.Fits (w : ExpWorld) (sd : GuildPlayer) (exp : Int32) : Prop :=
  ∀ c ∈ w.expcache, c.charId = sd.charId →
    c.guildId = sd.guildId ∧ IsInt (c.exp.toInt + exp.toInt)

instance (w : ExpWorld) (sd : GuildPlayer) (exp : Int32) : Decidable (w.Fits sd exp) :=
  inferInstanceAs (Decidable (∀ c ∈ w.expcache, _))

/-- What a step must meet. -/
def ExpOk (conf : ExpConf) (w : ExpWorld) : ExpEvent → Prop
  | .payexp accountId guildExp =>
    match w.guildOf accountId with
    | none => True
    | some (sd, g) =>
      let per := payPer conf g sd.charId
      0 < per → IsInt (guildExp.toInt * per.toInt) ∧
        (0 < guildExp * per / 100 → w.Fits sd (guildExp * per / 100))
  | .getexp accountId guildExp =>
    match w.guildOf accountId with
    | none => True
    | some (sd, _) => w.Fits sd guildExp
  | .timer => ∀ c ∈ w.leftover, c.exp = 0
  | _ => True

instance (conf : ExpConf) (w : ExpWorld) (e : ExpEvent) : Decidable (ExpOk conf w e) := by
  unfold ExpOk
  split
  · split <;> infer_instance
  · split <;> infer_instance
  · infer_instance
  · infer_instance

/-- The part of some experience that goes to the guild of a player. -/
def exactShare (conf : ExpConf) (w : ExpWorld) (accountId guildExp : Int32) : ℤ :=
  match w.guildOf accountId with
  | none => 0
  | some (sd, g) => max 0 (guildExp.toInt * max 0 (payPer conf g sd.charId).toInt / 100)

/-- **All experience is accounted for**: what `guild_payexp` takes is the part it should be, and
each run of the timer has reported all that has been taken, for those who earned it. -/
def ExpAccounted (conf : ExpConf) (w : ExpWorld) : ExpEvent → Prop
  | .payexp accountId guildExp =>
    (guildPayexp conf w accountId guildExp).2.toInt = exactShare conf w accountId guildExp
  | .timer => ∀ e, (guildPayexpTimer w).reported e = (guildPayexpTimer w).earned e
  | _ => True

/-- What waits in the cache for a member. -/
def ExpWorld.waits (w : ExpWorld) : Earner → ℤ :=
  Tally.due GuildExpcache.earner (fun c => c.exp.toInt) w.expcache

/-- **The invariant.** Every character has one entry and one account, every guild stands under its
id, and what waits and what has been reported is what has been earned. -/
structure ExpWaiting (conf : ExpConf) (w : ExpWorld) : Prop where
  keys : (w.expcache.map GuildExpcache.charId).Nodup
  account : ∀ c ∈ w.expcache, c.accountId = conf.accountOf c.charId
  player : ∀ a sd, w.players a = some sd → conf.accountOf sd.charId = a
  guild : ∀ i g, w.guilds i = some g → g.guildId = i
  earned : ∀ e, w.waits e + w.reported e = w.earned e

/-! ## Taking experience -/

section Take

variable {conf : ExpConf} {w : ExpWorld} {accountId exp : Int32} {sd : GuildPlayer}
  {g : GuildRecord}

theorem player_of_guildOf (h : w.guildOf accountId = some (sd, g)) :
    w.players accountId = some sd := by
  unfold ExpWorld.guildOf at h
  obtain ⟨sd', hsd, h⟩ := Option.bind_eq_some_iff.mp h
  split at h
  · cases h
  · obtain ⟨g', -, h⟩ := Option.bind_eq_some_iff.mp h
    obtain ⟨rfl, -⟩ := Prod.mk.inj (Option.some.inj h)
    exact hsd

theorem toInt_add_of_isInt {x y : Int32} (h : IsInt (x.toInt + y.toInt)) :
    (x + y).toInt = x.toInt + y.toInt := by
  obtain ⟨hlo, hhi⟩ := h
  rw [Int32.toInt_add, Int.bmod_eq_of_le (by omega) (by omega)]

/-- The entry of a character with some experience added. -/
theorem waits_added (h : ExpWaiting conf w) (haccount : conf.accountOf sd.charId = accountId)
    (hmem : sd.charId ∈ w.expcache.map GuildExpcache.charId) (hfits : w.Fits sd exp) (e : Earner) :
    Tally.due GuildExpcache.earner (fun c => c.exp.toInt)
        (w.expcache.map fun c =>
          if c.charId = sd.charId then { c with exp := c.exp + exp } else c) e =
      w.waits e + if ⟨sd.guildId, accountId, sd.charId⟩ = e then exp.toInt else 0 := by
  refine Tally.due_map_add _ _ _ h.keys hmem (fun c hc hid => ?_) fun c _ hid => if_neg hid
  obtain ⟨hguild, hsum⟩ := hfits c hc hid
  have hacc : c.accountId = accountId := by rw [h.account c hc, hid, haccount]
  have hearner : c.earner = ⟨sd.guildId, accountId, sd.charId⟩ := by
    unfold GuildExpcache.earner
    rw [hguild, hacc, hid]
  rw [if_pos hid]
  exact ⟨hearner, hearner, toInt_add_of_isInt hsum⟩

/-- **Experience that fits** waits for the player's guild. -/
theorem waiting_cacheExp (h : ExpWaiting conf w) (hsd : w.players accountId = some sd)
    (hfits : w.Fits sd exp) : ExpWaiting conf (w.cacheExp accountId sd exp) := by
  have haccount := h.player accountId sd hsd
  unfold ExpWorld.cacheExp
  dsimp only
  by_cases hany : w.expcache.any fun c => c.charId = sd.charId
  · rw [if_pos hany]
    have hmem : sd.charId ∈ w.expcache.map GuildExpcache.charId := by
      obtain ⟨c, hc, hid⟩ := List.any_eq_true.mp hany
      exact List.mem_map.mpr ⟨c, hc, of_decide_eq_true hid⟩
    have hsame (c : GuildExpcache) :
        (if c.charId = sd.charId then { c with exp := c.exp + exp } else c).charId = c.charId ∧
        (if c.charId = sd.charId then { c with exp := c.exp + exp } else c).accountId =
          c.accountId := by
      split <;> exact ⟨rfl, rfl⟩
    refine ⟨?_, ?_, h.player, h.guild, fun e => ?_⟩
    · rw [List.map_map]
      have hids : w.expcache.map (GuildExpcache.charId ∘ fun c =>
          if c.charId = sd.charId then { c with exp := c.exp + exp } else c) =
            w.expcache.map GuildExpcache.charId :=
        List.map_congr_left fun c _ => (hsame c).1
      rw [hids]
      exact h.keys
    · intro c hc
      obtain ⟨d, hd, rfl⟩ := List.mem_map.mp hc
      rw [(hsame d).1, (hsame d).2]
      exact h.account d hd
    · have hdue := waits_added h haccount hmem hfits e
      have hearned := h.earned e
      unfold ExpWorld.waits at ⊢
      dsimp only
      rw [hdue]
      by_cases he : (⟨sd.guildId, accountId, sd.charId⟩ : Earner) = e
      · subst he
        rw [if_pos rfl, Function.update_self]
        omega
      · rw [if_neg he, Function.update_of_ne (Ne.symm he)]
        omega
  · rw [if_neg hany]
    have hnew : sd.charId ∉ w.expcache.map GuildExpcache.charId := by
      intro hmem
      obtain ⟨c, hc, hid⟩ := List.mem_map.mp hmem
      exact hany (List.any_eq_true.mpr ⟨c, hc, decide_eq_true hid⟩)
    refine ⟨?_, ?_, h.player, h.guild, fun e => ?_⟩
    · rw [List.map_append, List.nodup_append]
      refine ⟨h.keys, by simp, fun x hx y hy => ?_⟩
      obtain rfl : y = sd.charId := by simpa using hy
      rintro rfl
      exact hnew hx
    · intro c hc
      obtain hc | hc := List.mem_append.mp hc
      · exact h.account c hc
      · obtain rfl := List.mem_singleton.mp hc
        exact haccount.symm
    · have hearned := h.earned e
      unfold ExpWorld.waits at hearned ⊢
      dsimp only
      rw [Tally.due_append, Tally.due_cons, Tally.due_nil, GuildExpcache.earner]
      dsimp only
      by_cases he : (⟨sd.guildId, accountId, sd.charId⟩ : Earner) = e
      · subst he
        rw [if_pos rfl, Function.update_self]
        omega
      · rw [if_neg he, Function.update_of_ne (Ne.symm he)]
        omega

/-- What `guild_payexp` takes, if the percentage does not leave the range of an `int`. -/
theorem share_eq {x per : Int32} (hper : 0 < per) (hint : IsInt (x.toInt * per.toInt)) :
    (if x * per / 100 ≤ 0 then 0 else x * per / 100).toInt =
      max 0 (x.toInt * max 0 per.toInt / 100) := by
  have h100 : (100 : Int32).toInt = 100 := rfl
  have hpos : 0 < per.toInt := Int32.lt_iff_toInt_lt.mp hper
  have hmul : (x * per).toInt = x.toInt * per.toInt := by
    rw [Int32.toInt_mul, Int.bmod_eq_of_le (by have := hint.1; omega) (by have := hint.2; omega)]
  have hdiv : (x * per / 100).toInt = (x.toInt * per.toInt).tdiv 100 := by
    rw [Int32.toInt_div_of_ne_right _ _ (by decide), hmul, h100]
  have hmax : max 0 per.toInt = per.toInt := by omega
  rw [hmax]
  rcases le_or_gt 0 (x.toInt * per.toInt) with hnn | hneg
  · rw [Int.tdiv_eq_ediv_of_nonneg hnn] at hdiv
    split
    · rename_i hle
      have hle' := Int32.le_iff_toInt_le.mp hle
      rw [hdiv] at hle'
      change _ ≤ (0 : ℤ) at hle'
      change (0 : ℤ) = _
      omega
    · omega
  · have hle : (x * per / 100).toInt ≤ 0 := by
      rw [hdiv, show x.toInt * per.toInt = -(-(x.toInt * per.toInt)) by omega, Int.neg_tdiv,
        Int.tdiv_eq_ediv_of_nonneg (by omega)]
      omega
    rw [if_pos (Int32.le_iff_toInt_le.mpr hle)]
    change (0 : ℤ) = _
    omega

end Take

/-! ## The timer -/

section Timer

variable {w : ExpWorld}

/-- Guilds that stand under their ids and have the members that `w` has. -/
structure SameMembers (w : ExpWorld) (guilds : Int32 → Option GuildRecord) : Prop where
  guild : ∀ i g, guilds i = some g → g.guildId = i
  member : ∀ i charId, ((guilds i).any fun g => (guildGetindex g charId).isSome) =
    ((w.guilds i).any fun g => (guildGetindex g charId).isSome)

/-- A gain of experience does not change where anybody is found. -/
theorem guildGetindex_addMemberExp (g : GuildRecord) (i : Fin maxGuild) (exp charId : Int32) :
    guildGetindex (addMemberExp g i exp) charId = guildGetindex g charId := by
  have hsame (j : Fin maxGuild) :
      ((addMemberExp g i exp).member j).charId = (g.member j).charId := by
    unfold addMemberExp Slots.putAt
    dsimp only
    split
    · rename_i hij
      rw [Fin.ext hij]
    · rfl
  unfold guildGetindex
  simp only [hsame]
  rfl

/-- **What the timer does with an entry**: it stays, or it is sent. -/
theorem payexpTimerSub_cases {s : Payment} (hs : SameMembers w s.guilds) (c : GuildExpcache) :
    ((guildPayexpList ≤ s.delp ∨ w.payable c = false) ∧
      guildPayexpTimerSub s c = { s with left := s.left ++ [c] }) ∨
    (s.delp < guildPayexpList ∧ w.payable c = true ∧ ∃ guilds, SameMembers w guilds ∧
      guildPayexpTimerSub s c =
        { s with
          guilds := guilds, delp := s.delp + 1
          reports := s.reports ++ [⟨c.guildId, c.accountId, c.charId, c.exp⟩] }) := by
  have hpay : w.payable c =
      (s.guilds c.guildId).any fun g => (guildGetindex g c.charId).isSome :=
    (hs.member c.guildId c.charId).symm
  unfold guildPayexpTimerSub
  by_cases hfull : s.delp ≥ guildPayexpList
  · exact .inl ⟨.inl hfull, by simp [hfull]⟩
  rw [if_neg hfull, hpay]
  cases hg : s.guilds c.guildId with
  | none => exact .inl ⟨.inr rfl, rfl⟩
  | some g =>
    cases hi : guildGetindex g c.charId with
    | none => exact .inl ⟨.inr (by simp [hi]), by simp [hi]⟩
    | some i =>
      refine .inr ⟨by omega, by simp [hi], ?_⟩
      simp only [hi]
      refine ⟨Function.update s.guilds c.guildId (some (addMemberExp g i c.exp)),
        ⟨fun j q hq => ?_, fun j charId => ?_⟩, by rw [hs.guild _ g hg]⟩
      · rcases eq_or_ne j c.guildId with rfl | hj
        · rw [Function.update_self] at hq
          obtain rfl := Option.some.inj hq
          exact hs.guild c.guildId g hg
        · rw [Function.update_of_ne hj] at hq
          exact hs.guild j q hq
      · rw [← hs.member j charId]
        rcases eq_or_ne j c.guildId with rfl | hj
        · rw [Function.update_self, hg, Option.any_some, Option.any_some,
            guildGetindex_addMemberExp]
        · rw [Function.update_of_ne hj]

/-- **The whole traversal**: every entry is sent or stays, and it stays only if it cannot be sent or
if the list is full. -/
theorem foldl_payexpTimerSub {l : List GuildExpcache} {s : Payment}
    (hs : SameMembers w s.guilds) :
    let r := l.foldl guildPayexpTimerSub s
    SameMembers w r.guilds ∧ ∃ left, r.left = s.left ++ left ∧ left.Sublist l ∧
      (∀ c ∈ left, c ∈ (l.filter w.payable).drop (guildPayexpList - s.delp) ++
        l.filter fun c => !w.payable c) ∧
      ∀ e, Tally.due ExpReport.earner (fun r => r.exp.toInt) r.reports e +
          Tally.due GuildExpcache.earner (fun c => c.exp.toInt) left e =
        Tally.due ExpReport.earner (fun r => r.exp.toInt) s.reports e +
          Tally.due GuildExpcache.earner (fun c => c.exp.toInt) l e := by
  induction l generalizing s with
  | nil => exact ⟨hs, [], by simp, .slnil, by simp, by simp⟩
  | cons c l ih =>
    dsimp only
    rw [List.foldl_cons]
    obtain ⟨hstay, heq⟩ | ⟨hroom, hpay, guilds, hguilds, heq⟩ := payexpTimerSub_cases hs c
    · obtain ⟨hsame, left, hleft, hsub, hwhy, hdue⟩ := ih (s := { s with left := s.left ++ [c] }) hs
      rw [heq]
      refine ⟨hsame, c :: left, by rw [hleft]; simp, hsub.cons_cons c, fun d hd => ?_, fun e => ?_⟩
      · obtain rfl | hd := List.mem_cons.mp hd
        · cases hpay : w.payable d with
          | true =>
            have hfull : guildPayexpList ≤ s.delp := by simpa [hpay] using hstay
            rw [show guildPayexpList - s.delp = 0 by omega, List.drop_zero]
            simp [hpay]
          | false => simp [hpay]
        · have hd' := hwhy d hd
          cases hpay : w.payable c with
          | true =>
            have hfull : guildPayexpList ≤ s.delp := by simpa [hpay] using hstay
            dsimp only at hd'
            rw [show guildPayexpList - s.delp = 0 by omega, List.drop_zero] at hd' ⊢
            simp only [List.filter_cons, hpay, List.mem_append] at hd' ⊢
            simp only [if_true, List.mem_cons, Bool.not_true, Bool.false_eq_true, if_false]
            grind
          | false =>
            simp only [List.filter_cons, hpay, List.mem_append] at hd' ⊢
            simp only [Bool.false_eq_true, if_false, Bool.not_false, if_true, List.mem_cons]
            grind
      · have h := hdue e
        dsimp only at h
        rw [Tally.due_cons, Tally.due_cons]
        omega
    · obtain ⟨hsame, left, hleft, hsub, hwhy, hdue⟩ := ih
        (s := { s with
          guilds := guilds, delp := s.delp + 1
          reports := s.reports ++ [⟨c.guildId, c.accountId, c.charId, c.exp⟩] }) hguilds
      rw [heq]
      refine ⟨hsame, left, hleft, hsub.cons c, fun d hd => ?_, fun e => ?_⟩
      · have hd' := hwhy d hd
        dsimp only at hd'
        obtain ⟨k, hk⟩ : ∃ k, guildPayexpList - s.delp = k + 1 :=
          ⟨guildPayexpList - s.delp - 1, by omega⟩
        rw [show guildPayexpList - (s.delp + 1) = k by omega] at hd'
        rw [hk]
        simpa [List.filter_cons, hpay] using hd'
      · have h := hdue e
        dsimp only at h
        rw [Tally.due_append, Tally.due_cons, Tally.due_nil] at h
        rw [Tally.due_cons]
        change _ = _ + ((if c.earner = e then c.exp.toInt else 0) + 0) + _ at h
        omega

/-- **A run of the timer** leaves what it cannot send, and keeps the account. -/
theorem waiting_timer {conf : ExpConf} (h : ExpWaiting conf w) :
    ExpWaiting conf (guildPayexpTimer w) ∧ ∀ c ∈ (guildPayexpTimer w).expcache, c ∈ w.leftover := by
  obtain ⟨hsame, left, hleft, hsub, hwhy, hdue⟩ :=
    foldl_payexpTimerSub (w := w) (l := w.expcache) (s := { guilds := w.guilds })
      ⟨h.guild, fun _ _ => rfl⟩
  have hcache : (guildPayexpTimer w).expcache = left := hleft
  refine ⟨⟨?_, fun c hc => ?_, h.player, hsame.guild, fun e => ?_⟩, fun c hc => ?_⟩
  · rw [hcache]
    exact h.keys.sublist (hsub.map _)
  · rw [hcache] at hc
    exact h.account c (hsub.subset hc)
  · have hall := hdue e
    have hearned := h.earned e
    unfold ExpWorld.waits at hearned ⊢
    rw [hcache]
    change _ + (w.reported e + _) = w.earned e
    rw [Tally.due_nil] at hall
    omega
  · rw [hcache] at hc
    exact hwhy c hc

end Timer

/-! ## Members -/

section Members

variable {conf : ExpConf} {w : ExpWorld}

/-- Players change, but not their characters. -/
theorem waiting_players (h : ExpWaiting conf w) {players : Int32 → Option GuildPlayer}
    (hp : ∀ a sd, players a = some sd → conf.accountOf sd.charId = a) :
    ExpWaiting conf { w with players := players } :=
  ⟨h.keys, h.account, hp, h.guild, h.earned⟩

/-- Guilds change, but not their ids. -/
theorem waiting_guilds (h : ExpWaiting conf w) {guilds : Int32 → Option GuildRecord}
    (hg : ∀ i g, guilds i = some g → g.guildId = i) : ExpWaiting conf { w with guilds := guilds } :=
  ⟨h.keys, h.account, h.player, hg, h.earned⟩

theorem waiting_withPlayer (h : ExpWaiting conf w) (accountId : Int32)
    {f : GuildPlayer → GuildPlayer} (hf : ∀ sd, (f sd).charId = sd.charId) :
    ExpWaiting conf (w.withPlayer accountId f) := by
  refine waiting_players h fun a sd hsd => ?_
  split at hsd
  · obtain ⟨sd', hsd', rfl⟩ := Option.map_eq_some_iff.mp hsd
    rw [hf]
    exact h.player a sd' hsd'
  · exact h.player a sd hsd

theorem waiting_withGuild (h : ExpWaiting conf w) (guildId : Int32) {f : GuildRecord → GuildRecord}
    (hf : ∀ g, (f g).guildId = g.guildId) : ExpWaiting conf (w.withGuild guildId f) := by
  refine waiting_guilds h fun i g hg => ?_
  split at hg
  · obtain ⟨g', hg', rfl⟩ := Option.map_eq_some_iff.mp hg
    rw [hf]
    exact h.guild i g' hg'
  · exact h.guild i g hg

/-- The guilds of all players change. -/
theorem waiting_mapPlayers (h : ExpWaiting conf w) {f : GuildPlayer → GuildPlayer}
    (hf : ∀ sd, (f sd).charId = sd.charId) :
    ExpWaiting conf { w with players := fun a => (w.players a).map f } := by
  refine waiting_players h fun a sd hsd => ?_
  obtain ⟨sd', hsd', rfl⟩ := Option.map_eq_some_iff.mp hsd
  rw [hf]
  exact h.player a sd' hsd'

end Members

/-! ## Runs -/

section Steps

variable {conf : ExpConf} {w : ExpWorld}

/-- **A step that meets the condition keeps the account.** -/
theorem waiting_step (h : ExpWaiting conf w) (e : ExpEvent) (hok : ExpOk conf w e) :
    ExpWaiting conf (expStep conf w e) := by
  cases e with
  | payexp accountId guildExp =>
    change ExpWaiting conf (guildPayexp conf w accountId guildExp).1
    unfold guildPayexp
    dsimp only [ExpOk] at hok
    rcases hguild : w.guildOf accountId with - | ⟨sd, g⟩
    · exact h
    · rw [hguild] at hok
      dsimp only
      split
      · exact h
      · rename_i hper
        split
        · exact h
        · rename_i hexp
          exact waiting_cacheExp h (player_of_guildOf hguild)
            ((hok (Int32.not_le.mp hper)).2 (Int32.not_le.mp hexp))
  | getexp accountId guildExp =>
    change ExpWaiting conf (guildGetexp w accountId guildExp).1
    unfold guildGetexp
    dsimp only [ExpOk] at hok
    rcases hguild : w.guildOf accountId with - | ⟨sd, g⟩
    · exact h
    · rw [hguild] at hok
      exact waiting_cacheExp h (player_of_guildOf hguild) hok
  | timer => exact (waiting_timer h).1
  | enters charId guildId =>
    refine waiting_players h fun a sd hsd => ?_
    rcases eq_or_ne a (conf.accountOf charId) with rfl | ha
    · rw [Function.update_self] at hsd
      obtain rfl := Option.some.inj hsd
      rfl
    · rw [Function.update_of_ne ha] at hsd
      exact h.player a sd hsd
  | leaves accountId =>
    refine waiting_players h fun a sd hsd => ?_
    rcases eq_or_ne a accountId with rfl | ha
    · rw [Function.update_self] at hsd
      cases hsd
    · rw [Function.update_of_ne ha] at hsd
      exact h.player a sd hsd
  | invite accountId guildId =>
    exact waiting_withPlayer h accountId fun sd => by split <;> rfl
  | memberAdded guildId accountId flag =>
    change ExpWaiting conf (guildMemberAdded w guildId accountId flag)
    unfold guildMemberAdded
    split
    · exact h
    · exact waiting_withPlayer h accountId fun sd => by split <;> [rfl; (split <;> rfl)]
  | memberLeaved guildId accountId charId =>
    have hguild : ExpWaiting conf (w.withGuild guildId (eraseMembers charId)) :=
      waiting_withGuild h guildId fun _ => rfl
    refine waiting_withPlayer hguild accountId fun sd => ?_
    split <;> rfl
  | explusion guildId charId =>
    exact waiting_withGuild h guildId fun g => by split <;> rfl
  | recvInfo sg =>
    have hguilds : ExpWaiting conf
        { w with guilds := Function.update w.guilds sg.guildId (some sg) } := by
      refine waiting_guilds h fun i g hg => ?_
      rcases eq_or_ne i sg.guildId with rfl | hi
      · rw [Function.update_self] at hg
        obtain rfl := Option.some.inj hg
        rfl
      · rw [Function.update_of_ne hi] at hg
        exact h.guild i g hg
    change ExpWaiting conf (guildRecvInfo w sg)
    unfold guildRecvInfo
    split
    · exact hguilds
    · exact waiting_mapPlayers hguilds fun sd => by split <;> rfl
  | recvNoinfo guildId => exact waiting_mapPlayers h fun sd => by split <;> rfl

/-- **What a step takes and reports is right**, if it meets the condition. -/
theorem expAccounted_of_ok (h : ExpWaiting conf w) (e : ExpEvent) (hok : ExpOk conf w e) :
    ExpAccounted conf w e := by
  cases e with
  | payexp accountId guildExp =>
    dsimp only [ExpAccounted, ExpOk] at hok ⊢
    unfold guildPayexp exactShare
    rcases hguild : w.guildOf accountId with - | ⟨sd, g⟩
    · rfl
    · rw [hguild] at hok
      dsimp only
      split
      · rename_i hper
        have hle : (payPer conf g sd.charId).toInt ≤ 0 := Int32.le_iff_toInt_le.mp hper
        rw [max_eq_left hle, mul_zero]
        rfl
      · rename_i hper
        have hpos := Int32.not_le.mp hper
        rw [← share_eq hpos (hok hpos).1]
        split <;> rfl
  | timer =>
    intro e
    obtain ⟨hwaiting, hleft⟩ := waiting_timer h
    have hzero : (guildPayexpTimer w).waits e = 0 :=
      Tally.due_of_zero fun c hc => by rw [hok c (hleft c hc)]; rfl
    have hearned := hwaiting.earned e
    omega
  | _ => trivial

theorem waiting_init : ExpWaiting conf {} where
  keys := List.nodup_nil
  account := by simp
  player := by simp
  guild := by simp
  earned _ := rfl

end Steps

/-- Each account has the character of its number. -/
def plainConf : ExpConf where
  accountOf charId := charId
  beyond _ _ := 0

/-- A guild of two members, of which the second position gives half of its experience. -/
def pairGuild (guildId : Int32) : GuildRecord where
  guildId
  maxMember := 16
  member i := if i.val = 0 then { accountId := 1, charId := 1 }
    else if i.val = 1 then { accountId := 2, charId := 2, position := 1 } else {}
  position i := { expMode := if i.val = 1 then 50 else 0 }

end Nezumi
