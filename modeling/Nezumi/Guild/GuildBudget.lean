import Nezumi.Guild.GuildServer
import Nezumi.Guild.GuildRestored
import Nezumi.Lib.Run
import Mathlib.Algebra.Order.BigOperators.Group.Finset

/-!
# The points of a guild (`char/int_guild.c`)

A guild has a point for each level above the first. Runs create guilds, give them experience, buy
levels of skills, and stop and start the server.

* `Budget`: the levels of the skills and the points that are left make up the level of the guild.
* `Founded`: the invariant of a guild, in a run that adds no members. `GuildTexts` is the part of it
  that the lines of the file depend on, `GuildLevels` the part that the levels depend on.
* `restart_guilds`: which guilds are there after a restart, and what they are.
* `guild_budget_iff`: the points are right throughout a run just if no guild that comes back from
  its line has a skill above the first level.
-/

namespace Nezumi

open Decimal Scanf

/-- The levels of all skills of a guild. -/
def GuildRecord.skillLevels (g : GuildRecord) : ℤ := Slots.total (fun s => s.lv.toInt) g.skill

/-- **The budget**: no point is lost, and none is given away. -/
def GuildRecord.Budget (g : GuildRecord) : Prop :=
  g.skillLevels + g.skillPoint.toInt = g.guildLv.toInt - 1

instance (g : GuildRecord) : Decidable g.Budget := inferInstanceAs (Decidable (_ = _))

/-- The guild of a line that is read as one. -/
def GuildRecord.Back (g : GuildRecord) : Prop :=
  0 < g.guildId ∧ stripped g.name.bytes ≠ [] ∧ stripped g.master.bytes ≠ [] ∧
    newidOf (interGuildTostr g) = none

instance (g : GuildRecord) : Decidable g.Back := inferInstanceAs (Decidable (_ ∧ _))

/-- The character that makes a guild. Its name has no control characters. -/
structure Founder extends GuildMemberRecord where
  used : 0 < accountId
  plain : Printable name.bytes

/-! ## The texts of a guild -/

/-- What the line of a guild depends on: plain texts, no lists, and no member but the master. -/
structure GuildTexts (g : GuildRecord) : Prop where
  plain : g.Plain
  mes1 : g.mes1.bytes = []
  mes2 : g.mes2.bytes = []
  alliance : ∀ i, (g.alliance i).used = false
  explusion : ∀ i, (g.explusion i).used = false
  member : ∀ i, (g.member i).used → (g.member i).name = g.master
  master : (g.member ⟨0, by decide⟩).used

section Texts

variable {g : GuildRecord} {bonus : ℤ}

theorem printable_stripped {s : List UInt8} (h : Printable s) : Printable (stripped s) :=
  fun b hb => h b ((List.dropWhile_suffix _).subset hb)

theorem printable_ofField {n : ℕ} {s : List UInt8} (h : Printable s) :
    Printable (CStr.ofField n s).bytes := by
  rw [CStr.bytes_ofField]
  exact fun b hb => h b (List.mem_of_mem_take ((List.takeWhile_prefix _).subset hb))

theorem printable_default {n : ℕ} : Printable (default : CStr n).bytes := fun _ hb => by cases hb

theorem printable_trimmed {n : ℕ} {t : CStr n} (h : Printable t.bytes) :
    Printable (trimmed t).bytes := printable_ofField (printable_stripped h)

theorem printable_hashed {s : List UInt8} (h : Printable s) : Printable (hashed s) := by
  intro b hb
  have hmem : b ∈ s ++ [35] :=
    (List.dropWhile_suffix _).subset ((List.rdropWhile_prefix (p := (· == 35)) _).subset hb)
  obtain hmem | hmem := List.mem_append.mp hmem
  · exact h b hmem
  · obtain rfl := List.mem_singleton.mp hmem
    decide

theorem printable_positionName (i : Fin maxGuildPosition) {t : CStr 24} (h : Printable t.bytes) :
    Printable (positionName i (stripped (t.bytes ++ [35]))).bytes := by
  unfold positionName
  dsimp only
  split
  · exact printable_defaultPositionName i
  · exact printable_ofField (printable_hashed h)

theorem filter_ofFn_nil {α : Type} {n : ℕ} {t : Fin n → α} {p : α → Bool}
    (h : ∀ i, p (t i) = false) : (List.ofFn t).filter p = [] := by
  rw [List.filter_eq_nil_iff]
  intro x hx
  obtain ⟨i, rfl⟩ := (List.mem_ofFn' _ _).mp hx
  simp [h i]

theorem GuildTexts.savedAlliances (h : GuildTexts g) : g.savedAlliances = [] :=
  filter_ofFn_nil h.alliance

theorem GuildTexts.savedExplusions (h : GuildTexts g) : g.savedExplusions = [] :=
  filter_ofFn_nil h.explusion

/-- Only the names of the guild and of its master are written without a `#`. -/
theorem GuildTexts.named (h : GuildTexts g) (hname : stripped g.name.bytes ≠ [])
    (hmaster : stripped g.master.bytes ≠ []) : g.Named where
  name := hname
  master := hmaster
  member m hm := by
    obtain ⟨i, -, hused, rfl⟩ := mem_savedMembers.mp hm
    rwa [h.member i hused]
  alliance a ha := by simp [h.savedAlliances] at ha
  explusion e he := by simp [h.savedExplusions] at he

theorem sscanf_hash_int {f : List Directive} {r : List UInt8} :
    sscanf (.space :: .int :: f) (9 :: 35 :: r) = ([], none) := rfl

/-- A blank text is skipped. -/
theorem sscanf_blank {f : List Directive} {r t : List UInt8} (h : stripped t = []) :
    sscanf (.space :: f) (9 :: (t ++ 9 :: r)) = sscanf (.space :: f) (9 :: r) := by
  have hdrop : (9 :: (t ++ 9 :: r)).dropWhile isSpace = (9 :: r).dropWhile isSpace := by
    rw [List.dropWhile_cons_of_pos rfl, List.dropWhile_append]
    unfold stripped at h
    simp [h]
  rw [sscanf_cons_space, hdrop, sscanf_cons_space]

/-- Numbers that are read as a name. -/
theorem sscanf_ints_name {f : List Directive} {r : List UInt8} {z : ℤ} {zs : List ℤ} :
    sscanf (.space :: .upto 9 :: f) (9 :: (printInts (z :: zs) ++ 9 :: r)) =
      (sscanf f (9 :: r)).add (.text (printInts (z :: zs))) := by
  have hne : printInts (z :: zs) ≠ [] := fun h => by
    have hspace : NoSpace (printInts (z :: zs) ++ [32]) := noSpace_printInts
    rw [h] at hspace
    exact absurd (noSpace_cons.mp hspace) (by decide)
  have hself : (printInts (z :: zs)).dropWhile isSpace = printInts (z :: zs) := by
    have hspace : NoSpace (printInts (z :: zs) ++ []) := noSpace_printInts
    rw [List.append_nil] at hspace
    exact hspace.dropWhile
  have htab : (9 : UInt8) ∉ printInts (z :: zs) := tab_notMem_printInts
  have hword := sscanf_word (b := 9) (f := f) (r := r) rfl (by rwa [hself]) htab
  rwa [hself] at hword

/-- **A guild with a blank name is not read.** The numbers are read as a name, and a text is where
they should be. -/
theorem interGuildFromstr_blank (h : GuildTexts g)
    (hblank : stripped g.name.bytes = [] ∨ stripped g.master.bytes = []) :
    interGuildFromstr bonus (interGuildTostr g) = none := by
  -- Two names are read, and then a `#` where a number should be.
  have hscan : ∃ s s', sscanf guildFormat (interGuildTostr g) =
      ([.int g.guildId, .text s, .text s'], none) := by
    unfold interGuildTostr GuildRecord.headText guildFormat
    simp only [List.append_assoc, List.cons_append, List.nil_append, h.mes1, h.mes2, ints]
    rw [sscanf_int (isInt_toInt _) (noDigit_cons.mpr rfl), Int32.ofInt_toInt]
    by_cases hname : stripped g.name.bytes = []
    · rw [sscanf_blank hname]
      by_cases hmaster : stripped g.master.bytes = []
      · rw [sscanf_blank hmaster, sscanf_ints_name]
        exact ⟨_, [35], rfl⟩
      · rw [sscanf_name h.plain.master hmaster, sscanf_ints_name, sscanf_hash_int]
        exact ⟨_, _, rfl⟩
    · have hmaster : stripped g.master.bytes = [] := hblank.resolve_left hname
      rw [sscanf_name h.plain.name hname, sscanf_blank hmaster, sscanf_ints_name, sscanf_hash_int]
      exact ⟨_, _, rfl⟩
  obtain ⟨s, s', hscan⟩ := hscan
  have hhead : fromstrHead bonus (interGuildTostr g) = none := by
    unfold fromstrHead
    rw [hscan]
  unfold interGuildFromstr
  rw [hhead]
  rfl

/-! ### What a line reads as -/

theorem clampMembers_bounds (hbonus : 0 ≤ bonus ∧ bonus ≤ 6) {m : Int16} (hm : 16 ≤ m.toInt) :
    16 ≤ (clampMembers bonus m).toInt ∧ (clampMembers bonus m).toInt ≤ maxGuild := by
  have hmax : (maxGuild : ℤ) = 76 := rfl
  have hall : (Int16.ofInt (16 + 10 * bonus)).toInt = 16 + 10 * bonus :=
    Int16.toInt_ofInt_of_le (by omega) (by omega)
  have h76 : (Int16.ofInt (maxGuild : ℤ)).toInt = 76 := rfl
  unfold clampMembers
  dsimp only
  split <;> split <;> omega

/-- The master is the first of the members that are saved. -/
theorem savedMembers_cons (h : (g.member ⟨0, by decide⟩).used) (hmax : 0 < g.maxMember.toInt) :
    ∃ ms, g.savedMembers = g.member ⟨0, by decide⟩ :: ms := by
  obtain ⟨is, hrange⟩ : ∃ is : List (Fin maxGuild), List.finRange maxGuild =
      ⟨0, by decide⟩ :: is := ⟨(List.finRange 75).map Fin.succ, List.finRange_succ⟩
  unfold GuildRecord.savedMembers
  rw [hrange, List.filter_cons_of_pos (by simpa using hmax), List.map_cons,
    List.filter_cons_of_pos h]
  exact ⟨_, rfl⟩

/-- The members that are read: the master, and entries with the master's name. -/
theorem member_reread (h : GuildTexts g) (i : Fin maxGuild) :
    Printable ((g.reread bonus).member i).name.bytes ∧
      (((g.reread bonus).member i).used → ((g.reread bonus).member i).name = trimmed g.master) := by
  rw [reread_member]
  by_cases hi : i.val < (g.keptMembers bonus).length
  · rw [Slots.fill_apply hi]
    obtain ⟨m, hm, heq⟩ := List.mem_map.mp (List.mem_of_mem_take (List.get_mem _ ⟨i.val, hi⟩))
    obtain ⟨j, -, hused, rfl⟩ := mem_savedMembers.mp hm
    rw [← heq]
    refine ⟨printable_trimmed (h.plain.member j), fun _ => ?_⟩
    change trimmed (g.member j).name = _
    rw [h.member j hused]
  · rw [Slots.fill_apply_of_ge (by omega)]
    exact ⟨printable_default, fun hused => by simp [GuildMemberRecord.used] at hused⟩

/-- **The texts stay as they should be** when a guild is saved and loaded. -/
theorem GuildTexts.reread (h : GuildTexts g) (hbonus : 0 ≤ bonus ∧ bonus ≤ 6)
    (hmax : 16 ≤ g.maxMember.toInt) : GuildTexts (g.reread bonus) where
  plain :=
    { name := printable_trimmed h.plain.name
      master := printable_trimmed h.plain.master
      mes1 := printable_ofField (printable_hashed h.plain.mes1)
      mes2 := printable_ofField (printable_hashed h.plain.mes2)
      member := fun i => (member_reread h i).1
      position := fun i => printable_positionName i (h.plain.position i)
      alliance := fun i => by
        rw [reread_alliance, h.savedAlliances]
        exact printable_default
      explusion := fun i => by
        rw [reread_explusion, h.savedExplusions]
        exact ⟨printable_default, printable_default, printable_default⟩ }
  mes1 := by
    change (CStr.ofField 60 (hashed g.mes1.bytes)).bytes = []
    rw [h.mes1]
    rfl
  mes2 := by
    change (CStr.ofField 120 (hashed g.mes2.bytes)).bytes = []
    rw [h.mes2]
    rfl
  alliance i := by
    rw [reread_alliance, h.savedAlliances]
    simp [GuildAlliance.used]
  explusion i := by
    rw [reread_explusion, h.savedExplusions]
    simp [GuildExplusion.used]
  member i := (member_reread h i).2
  master := by
    obtain ⟨ms, hms⟩ := savedMembers_cons h.master (by omega)
    have hplaces := (clampMembers_bounds hbonus hmax).1
    obtain ⟨k, hk⟩ : ∃ k, (clampMembers bonus g.maxMember).toInt.toNat = k + 1 :=
      ⟨(clampMembers bonus g.maxMember).toInt.toNat - 1, by omega⟩
    rw [reread_member, GuildRecord.keptMembers, hms, hk]
    exact h.master

end Texts

/-! ## The levels of a guild -/

/-- Bounds under which no number of a guild wraps. -/
structure GuildLevels (g : GuildRecord) : Prop where
  maxMember : 16 ≤ g.maxMember.toInt ∧ g.maxMember.toInt ≤ maxGuild
  skill : ∀ i, 0 ≤ (g.skill i).lv.toInt ∧ (g.skill i).lv.toInt ≤ 10
  guildLv : 0 ≤ g.guildLv.toInt ∧ g.guildLv.toInt ≤ 100
  skillPoint : 0 ≤ g.skillPoint.toInt ∧ g.skillPoint.toInt ≤ g.guildLv.toInt

/-- **A guild of a run** without restarts that give points away. Before the levels are counted for
the first time it has none. -/
structure Founded (g : GuildRecord) : Prop where
  texts : GuildTexts g
  levels : GuildLevels g
  budget : if g.guildLv = 0 then g.skillLevels = 0 ∧ g.skillPoint = 0 else g.Budget

section Levels

variable {g : GuildRecord}

theorem guildLv_eq_zero : g.guildLv = 0 ↔ g.guildLv.toInt = 0 :=
  ⟨fun h => by rw [h]; rfl, fun h => Int16.toInt.inj h⟩

theorem skillLevels_nonneg (h : GuildLevels g) : 0 ≤ g.skillLevels := by
  unfold GuildRecord.skillLevels Slots.total
  exact Finset.sum_nonneg fun i _ => (h.skill i).1

/-- The level of the extension. -/
theorem checkskill_bounds (h : GuildLevels g) :
    0 ≤ guildCheckskill g gdExtension ∧ guildCheckskill g gdExtension ≤ 10 := by
  unfold guildCheckskill
  dsimp only
  split
  · exact ⟨le_rfl, by decide⟩
  · exact h.skill _

/-- The places that the extension brings. -/
theorem extension_bounds (conf : GuildConf) (h : GuildLevels g) :
    16 ≤ (Int16.ofInt (16 + guildCheckskill g gdExtension * conf.guildExtensionBonus)).toInt ∧
      (Int16.ofInt (16 + guildCheckskill g gdExtension * conf.guildExtensionBonus)).toInt ≤
        maxGuild := by
  have hmax : (maxGuild : ℤ) = 76 := rfl
  obtain ⟨hlo, hhi⟩ := checkskill_bounds h
  obtain ⟨hblo, hbhi⟩ := conf.bonus_le
  have hle : guildCheckskill g gdExtension * conf.guildExtensionBonus ≤ 10 * 6 :=
    mul_le_mul hhi hbhi hblo (by decide)
  have hge : 0 ≤ guildCheckskill g gdExtension * conf.guildExtensionBonus := mul_nonneg hlo hblo
  rw [Int16.toInt_ofInt_of_le (by omega) (by omega)]
  omega

/-- **What `guild_calcinfo` does** to the level and to the points. -/
theorem guildCalcinfo_spec (conf : GuildConf) (h : GuildLevels g) :
    ∃ exp lv point maxMember, guildCalcinfo conf g =
        { g with
          exp := exp, guildLv := lv, skillPoint := point, maxMember := maxMember
          skill := fun i => skillWithId i (g.skill i) } ∧
      point.toInt - g.skillPoint.toInt = lv.toInt - max 1 g.guildLv.toInt ∧
      max 1 g.guildLv.toInt ≤ lv.toInt ∧ lv.toInt ≤ 100 ∧
      16 ≤ maxMember.toInt ∧ maxMember.toInt ≤ maxGuild := by
  have hlv := h.guildLv
  have hpoint := h.skillPoint
  have h1 : (1 : Int16).toInt = 1 := rfl
  have hplaces := extension_bounds conf h
  unfold guildCalcinfo
  dsimp only
  split
  · rename_i hle
    have hzero : g.guildLv.toInt = 0 := by
      have := Int16.le_iff_toInt_le.mp hle
      change g.guildLv.toInt ≤ 0 at this
      omega
    obtain ⟨exp, lv, point, heq, hdiff, hge, hhi⟩ := levelUps_spec conf 100
      (g := { g with skill := fun i => skillWithId i (g.skill i), guildLv := 1 })
      (by dsimp only; omega) (by dsimp only; omega)
    dsimp only at hdiff hge
    have hcheck := checkskill_counted (g := g) exp lv point gdExtension
    rw [heq]
    dsimp only at hcheck ⊢
    rw [hcheck]
    exact ⟨exp, lv, point, _, rfl, by omega, by omega, hhi, hplaces⟩
  · rename_i hgt
    have hpos : 1 ≤ g.guildLv.toInt := by
      have : ¬ g.guildLv.toInt ≤ 0 := fun h' => hgt (Int16.le_iff_toInt_le.mpr h')
      omega
    obtain ⟨exp, lv, point, heq, hdiff, hge, hhi⟩ := levelUps_spec conf 100
      (g := { g with skill := fun i => skillWithId i (g.skill i) })
      (by dsimp only; omega) (by dsimp only; omega)
    dsimp only at hdiff hge
    have hcheck := checkskill_counted (g := g) exp lv point gdExtension
    rw [heq]
    dsimp only at hcheck ⊢
    rw [hcheck]
    exact ⟨exp, lv, point, _, rfl, by omega, by omega, hhi, hplaces⟩

theorem skillLevels_counted (t : Fin maxGuildSkill → GuildSkill) :
    Slots.total (fun s => s.lv.toInt) (fun i => skillWithId i (t i)) =
      Slots.total (fun s => s.lv.toInt) t := Slots.total_congr fun i => by rw [skillWithId_lv]

/-- **A guild whose levels are counted** keeps its texts and its bounds, and has the points it had
over or under its budget. -/
theorem counted (conf : GuildConf) (ht : GuildTexts g) (h : GuildLevels g) :
    GuildTexts (guildCalcinfo conf g) ∧ GuildLevels (guildCalcinfo conf g) ∧
      (guildCalcinfo conf g).guildLv ≠ 0 ∧ ((guildCalcinfo conf g).Budget ↔
        g.skillLevels + g.skillPoint.toInt = max 1 g.guildLv.toInt - 1) := by
  obtain ⟨exp, lv, point, maxMember, heq, hdiff, hge, hhi, hplaces⟩ := guildCalcinfo_spec conf h
  have hlv := h.guildLv
  have hpoint := h.skillPoint
  rw [heq]
  refine ⟨?_, ?_, ?_, ?_⟩
  · exact ⟨⟨ht.plain.name, ht.plain.master, ht.plain.mes1, ht.plain.mes2, ht.plain.member,
      ht.plain.position, ht.plain.alliance, ht.plain.explusion⟩, ht.mes1, ht.mes2, ht.alliance,
      ht.explusion, ht.member, ht.master⟩
  · refine ⟨hplaces, fun i => ?_, by dsimp only; omega, by dsimp only; omega⟩
    dsimp only
    rw [skillWithId_lv]
    exact h.skill i
  · rw [Ne, guildLv_eq_zero]
    dsimp only
    omega
  · unfold GuildRecord.Budget GuildRecord.skillLevels
    dsimp only
    rw [skillLevels_counted]
    constructor <;> intro h <;> omega

/-- `guild_calcinfo` keeps the budget. -/
theorem founded_calcinfo (conf : GuildConf) (h : Founded g) : Founded (guildCalcinfo conf g) := by
  obtain ⟨htexts, hlevels, hlv, hbudget⟩ := counted conf h.texts h.levels
  refine ⟨htexts, hlevels, ?_⟩
  rw [if_neg hlv, hbudget]
  have hb := h.budget
  have hbounds := h.levels.guildLv
  split at hb
  · rename_i hzero
    rw [hb.1, hb.2, hzero]
    rfl
  · rename_i hne
    rw [guildLv_eq_zero] at hne
    unfold GuildRecord.Budget at hb
    omega

/-- A new guild has no levels and no points. -/
theorem founded_newGuild (guildId : Int32) {name : CStr 24} (hname : Printable name.bytes)
    (master : Founder) : Founded (newGuild guildId name master.toGuildMemberRecord) := by
  have hmember (i : Fin maxGuild) : (newGuild guildId name master.toGuildMemberRecord).member i =
      if i.val = 0 then master.toGuildMemberRecord else {} := rfl
  have hskill (i : Fin maxGuildSkill) :
      ((newGuild guildId name master.toGuildMemberRecord).skill i).lv = 0 := skillWithId_lv i {}
  refine ⟨⟨⟨hname, master.plain, printable_default, printable_default, fun i => ?_,
    fun i => printable_defaultPositionName i, fun _ => printable_default,
    fun _ => ⟨printable_default, printable_default, printable_default⟩⟩, rfl, rfl, fun _ => rfl,
    fun _ => rfl, fun i hused => ?_, ?_⟩, ⟨⟨le_rfl, ?_⟩, fun i => ?_, ⟨le_rfl, ?_⟩, le_rfl, le_rfl⟩,
    ?_⟩
  · rw [hmember]
    split
    · exact master.plain
    · exact printable_default
  · rw [hmember] at hused ⊢
    split
    · rfl
    · rename_i hi
      rw [if_neg hi] at hused
      cases hused
  · exact decide_eq_true master.used
  · change (16 : ℤ) ≤ 76
    decide
  · rw [hskill]
    exact ⟨le_rfl, Int.zero_le_ofNat 10⟩
  · change (0 : ℤ) ≤ 100
    decide
  · refine ⟨?_, rfl⟩
    unfold GuildRecord.skillLevels Slots.total
    refine Finset.sum_eq_zero fun i _ => ?_
    dsimp only
    rw [hskill]
    rfl

/-- A gain of experience keeps the budget. -/
theorem founded_gainExp (conf : GuildConf) (accountId charId exp : Int32) (h : Founded g) :
    Founded (gainExp conf accountId charId exp g) := by
  unfold gainExp
  split
  · exact h
  · rename_i i _
    apply founded_calcinfo
    have hmember (j : Fin maxGuild) :
        (Slots.putAt g.member i { g.member i with exp := addExp (g.member i).exp exp } j).name =
            (g.member j).name ∧
          (Slots.putAt g.member i
            { g.member i with exp := addExp (g.member i).exp exp } j).accountId =
            (g.member j).accountId := by
      unfold Slots.putAt
      split
      · rename_i hij
        rw [Fin.ext hij]
        exact ⟨rfl, rfl⟩
      · exact ⟨rfl, rfl⟩
    have ht := h.texts
    refine ⟨⟨⟨ht.plain.name, ht.plain.master, ht.plain.mes1, ht.plain.mes2, fun j => ?_,
      ht.plain.position, ht.plain.alliance, ht.plain.explusion⟩, ht.mes1, ht.mes2, ht.alliance,
      ht.explusion, fun j hused => ?_, ?_⟩,
      ⟨h.levels.maxMember, h.levels.skill, h.levels.guildLv, h.levels.skillPoint⟩, h.budget⟩
    · dsimp only
      rw [(hmember j).1]
      exact ht.plain.member j
    · dsimp only at hused ⊢
      unfold GuildMemberRecord.used at hused
      rw [(hmember j).2] at hused
      rw [(hmember j).1]
      exact ht.member j hused
    · dsimp only
      unfold GuildMemberRecord.used
      rw [(hmember _).2]
      exact ht.master

/-- A level that is bought costs a point. -/
theorem founded_buySkill (conf : GuildConf) (idx : Fin maxGuildSkill) (h : Founded g) :
    Founded (buySkill conf idx g) := by
  unfold buySkill
  split
  · rename_i hbuy
    apply founded_calcinfo
    have hpos : 0 < g.skillPoint.toInt := Int16.lt_iff_toInt_lt.mp hbuy.1
    have hlt : (g.skill idx).lv.toInt < 10 := Int16.lt_iff_toInt_lt.mp hbuy.2.2
    have hlv := h.levels.skill idx
    have hpoint := h.levels.skillPoint
    have hsucc := toInt_succ (x := (g.skill idx).lv) (by omega)
    have hpred := toInt_pred (x := g.skillPoint) (by omega)
    have ht := h.texts
    refine ⟨⟨⟨ht.plain.name, ht.plain.master, ht.plain.mes1, ht.plain.mes2, ht.plain.member,
      ht.plain.position, ht.plain.alliance, ht.plain.explusion⟩, ht.mes1, ht.mes2, ht.alliance,
      ht.explusion, ht.member, ht.master⟩, ⟨h.levels.maxMember, fun i => ?_, h.levels.guildLv, ?_⟩,
      ?_⟩
    · dsimp only
      rcases eq_or_ne i idx with rfl | hi
      · rw [Function.update_self]
        dsimp only
        omega
      · rw [Function.update_of_ne hi]
        exact h.levels.skill i
    · dsimp only
      omega
    · have hne : g.guildLv ≠ 0 := fun hzero => by
        have hb := h.budget
        rw [if_pos hzero] at hb
        rw [hb.2] at hpos
        exact absurd hpos (by decide)
      have hb := h.budget
      rw [if_neg hne] at hb
      dsimp only
      rw [if_neg hne]
      unfold GuildRecord.Budget GuildRecord.skillLevels at hb ⊢
      dsimp only
      rw [Slots.total_update, hsucc, hpred]
      omega
  · exact h

end Levels

/-! ## Saving and loading -/

section Reload

variable {conf : GuildConf} {g : GuildRecord} {bonus : ℤ}

/-- The number of skills that have a level. -/
def skillCount (g : GuildRecord) : ℕ := (List.ofFn g.skill).countP fun s => 0 < s.lv

theorem skillCount_eq : (skillCount g : ℤ) = ∑ i, if 0 < (g.skill i).lv then 1 else 0 := by
  unfold skillCount
  rw [Slots.countP_ofFn]
  simp

theorem lv_pos_iff {lv : Int16} : 0 < lv ↔ 0 < lv.toInt := Int16.lt_iff_toInt_lt

/-- **The number of skills is the sum of their levels** just if no skill has a second level. -/
theorem skillCount_eq_iff (h : GuildLevels g) :
    (skillCount g : ℤ) ≤ g.skillLevels ∧
      ((skillCount g : ℤ) = g.skillLevels ↔ ∀ i, (g.skill i).lv.toInt ≤ 1) := by
  have hle : ∀ i ∈ Finset.univ, (if 0 < (g.skill i).lv then 1 else 0) ≤ (g.skill i).lv.toInt := by
    intro i _
    have hlo := (h.skill i).1
    split
    · rename_i hpos
      rw [lv_pos_iff] at hpos
      omega
    · exact hlo
  rw [skillCount_eq]
  unfold GuildRecord.skillLevels Slots.total
  refine ⟨Finset.sum_le_sum hle, ?_⟩
  rw [Finset.sum_eq_sum_iff_of_le hle]
  refine forall_congr' fun i => ?_
  have hlo := (h.skill i).1
  simp only [Finset.mem_univ, true_implies]
  split
  · rename_i hpos
    rw [lv_pos_iff] at hpos
    omega
  · rename_i hpos
    rw [lv_pos_iff] at hpos
    omega

/-- The points of a guild that is loaded. -/
theorem leftPoints_eq (h : GuildLevels g) (hb : g.Budget) :
    (leftPoints g.guildLv g.skillPoint (skillCount g)).toInt =
      g.guildLv.toInt - 1 - skillCount g := by
  have hcount := (skillCount_eq_iff h).1
  have hlv := h.guildLv
  have hpoint := h.skillPoint
  unfold GuildRecord.Budget at hb
  unfold leftPoints
  split
  · rw [if_pos (by omega), Int16.toInt_ofInt_of_le (by omega) (by omega)]
  · omega

/-- **What loading does** to a guild: it keeps its texts and its bounds, and its budget if and only
if no skill has a second level. -/
theorem reread_founded (hbonus : 0 ≤ bonus ∧ bonus ≤ 6) (h : Founded g) :
    GuildTexts (g.reread bonus) ∧ GuildLevels (g.reread bonus) ∧
      ((g.reread bonus).skillLevels + (g.reread bonus).skillPoint.toInt =
        max 1 (g.reread bonus).guildLv.toInt - 1 ↔ ∀ i, (g.skill i).lv.toInt ≤ 1) := by
  have hskill : (g.reread bonus).skillLevels = g.skillLevels := rfl
  have hpoint : (g.reread bonus).skillPoint =
      leftPoints g.guildLv g.skillPoint (skillCount g) := rfl
  have hguildLv : (g.reread bonus).guildLv = g.guildLv := rfl
  have hsum := skillLevels_nonneg h.levels
  obtain ⟨hle, hiff⟩ := skillCount_eq_iff h.levels
  have hlv := h.levels.guildLv
  have hb := h.budget
  rw [hskill, hpoint, hguildLv]
  split at hb
  · rename_i hzero
    -- A guild without levels has no skills, and no points that could be given.
    have hcount : skillCount g = 0 := by omega
    have hleft : leftPoints g.guildLv g.skillPoint (skillCount g) = 0 := by
      rw [hzero, hb.2, hcount]
      rfl
    rw [hzero] at hlv
    refine ⟨h.texts.reread hbonus h.levels.maxMember.1,
      ⟨clampMembers_bounds hbonus h.levels.maxMember.1, h.levels.skill, h.levels.guildLv, ?_⟩, ?_⟩
    · rw [hpoint, hleft, hguildLv, hzero]
      exact ⟨le_rfl, le_rfl⟩
    · rw [hleft, hzero, hb.1]
      exact iff_of_true rfl (hiff.mp (by rw [hcount, hb.1]; rfl))
  · rename_i hne
    rw [guildLv_eq_zero] at hne
    have hleft := leftPoints_eq h.levels hb
    refine ⟨h.texts.reread hbonus h.levels.maxMember.1,
      ⟨clampMembers_bounds hbonus h.levels.maxMember.1, h.levels.skill, h.levels.guildLv, ?_⟩, ?_⟩
    · have hpos := h.levels.skillPoint
      unfold GuildRecord.Budget at hb
      rw [hpoint, hleft, hguildLv]
      omega
    · rw [hleft, ← hiff]
      omega

theorem guildId_levelUps (conf : GuildConf) (fuel : ℕ) (g : GuildRecord) :
    (levelUps conf fuel g).guildId = g.guildId := by
  induction fuel generalizing g with
  | zero => rfl
  | succ fuel ih =>
    rw [levelUps]
    split
    · rw [ih]
    · rfl

theorem guildId_calcinfo (conf : GuildConf) (g : GuildRecord) :
    (guildCalcinfo conf g).guildId = g.guildId := by
  unfold guildCalcinfo
  dsimp only
  rw [guildId_levelUps]
  split <;> rfl

theorem guildId_gainExp (conf : GuildConf) (accountId charId exp : Int32) (g : GuildRecord) :
    (gainExp conf accountId charId exp g).guildId = g.guildId := by
  unfold gainExp
  split
  · rfl
  · rw [guildId_calcinfo]

theorem guildId_buySkill (conf : GuildConf) (idx : Fin maxGuildSkill) (g : GuildRecord) :
    (buySkill conf idx g).guildId = g.guildId := by
  unfold buySkill
  split
  · rw [guildId_calcinfo]
  · rfl

/-- **A line of the file**: the guild is there again if its line is read as that of a guild. -/
theorem interGuildLine_tostr (conf : GuildConf) {s : GuildServer} (h : Founded g)
    (hid : ∀ q ∈ s.guilds, q.guildId ≠ g.guildId) :
    (interGuildLine conf s (interGuildTostr g)).guilds =
      s.guilds ++
        if g.Back then [guildCalcinfo conf (g.reread conf.guildExtensionBonus)] else [] := by
  unfold interGuildLine
  split
  · rename_i i hnew
    have hback : ¬ g.Back := fun hback => by simp [hback.2.2.2] at hnew
    rw [if_neg hback, List.append_nil]
  · rename_i hnew
    by_cases hblank : stripped g.name.bytes = [] ∨ stripped g.master.bytes = []
    · have hback : ¬ g.Back := fun hback => hblank.elim hback.2.1 hback.2.2.1
      rw [interGuildFromstr_blank h.texts hblank, if_neg hback, List.append_nil]
    · obtain ⟨hname, hmaster⟩ := not_or.mp hblank
      rw [interGuildFromstr_tostr h.texts.plain (h.texts.named hname hmaster)]
      dsimp only
      by_cases hpos : 0 < g.guildId
      · have hsame : (g.reread conf.guildExtensionBonus).guildId = g.guildId := rfl
        obtain ⟨htexts, hlevels, -⟩ := reread_founded conf.bonus_le h
        have hmember : (g.reread conf.guildExtensionBonus).noMember = false := by
          unfold GuildRecord.noMember
          rw [List.all_eq_false]
          refine ⟨⟨0, by decide⟩, List.mem_finRange _, ?_⟩
          have hmax := hlevels.maxMember.1
          simp only [decide_not, Bool.not_eq_true', decide_eq_false_iff_not, not_not]
          exact ⟨by omega, htexts.master⟩
        have hback : g.Back := ⟨hpos, hname, hmaster, hnew⟩
        have hfilter : s.guilds.filter (fun q => q.guildId ≠ g.guildId) = s.guilds :=
          List.filter_eq_self.mpr fun q hq => by simpa using hid q hq
        have hmap : s.guilds.map
            (fun q => if q.guildId = g.guildId then guildCalcinfo conf q else q) = s.guilds :=
          (List.map_congr_left fun q hq => if_neg (hid q hq)).trans (List.map_id' _)
        rw [hsame, if_pos hpos, hmember, if_pos hback]
        simp only [Bool.false_eq_true, if_false, GuildServer.update, GuildServer.insert, hsame,
          List.map_append, List.map_cons, List.map_nil, if_true, hfilter, hmap]
      · have hback : ¬ g.Back := fun hback => hpos hback.1
        rw [show (g.reread conf.guildExtensionBonus).guildId = g.guildId from rfl, if_neg hpos,
          if_neg hback, List.append_nil]

/-- The lines of a file, one after the other. -/
theorem foldl_interGuildLine {gs : List GuildRecord} {s : GuildServer} (h : ∀ g ∈ gs, Founded g)
    (hid : ((s.guilds ++ gs).map GuildRecord.guildId).Nodup) :
    ((gs.map interGuildTostr).foldl (interGuildLine conf) s).guilds =
      s.guilds ++ (gs.filter fun g => g.Back).map
        fun g => guildCalcinfo conf (g.reread conf.guildExtensionBonus) := by
  induction gs generalizing s with
  | nil => simp
  | cons g gs ih =>
    have hg := h g List.mem_cons_self
    have hother (q : GuildRecord) (hq : q ∈ s.guilds) : q.guildId ≠ g.guildId := by
      rw [List.map_append, List.map_cons] at hid
      exact (List.nodup_append.mp hid).2.2 _ (List.mem_map_of_mem hq) _ List.mem_cons_self
    have hline := interGuildLine_tostr conf (s := s) hg hother
    rw [List.map_cons, List.foldl_cons, ih (fun q hq => h q (List.mem_cons_of_mem _ hq)), hline]
    · by_cases hback : g.Back
      · simp [hback]
      · simp [hback]
    · -- The ids are those of before, without that of a guild that is not read.
      have hcalc : (guildCalcinfo conf (g.reread conf.guildExtensionBonus)).guildId = g.guildId :=
        guildId_calcinfo conf _
      refine List.Nodup.sublist ?_ hid
      rw [hline]
      simp only [List.map_append, List.map_cons, List.append_assoc]
      refine List.Sublist.append_left ?_ _
      split
      · simp [hcalc]
      · exact List.sublist_cons_self _ _

/-- **The guilds after a restart** are those whose lines are read as guilds. -/
theorem restart_guilds {s : GuildServer} (h : ∀ g ∈ s.guilds, Founded g)
    (hid : (s.guilds.map GuildRecord.guildId).Nodup) :
    (interGuildRestart conf s).guilds = (s.guilds.filter fun g => g.Back).map
      fun g => guildCalcinfo conf (g.reread conf.guildExtensionBonus) := by
  unfold interGuildRestart
  rw [foldl_interGuildLine h (by simpa using hid)]
  rfl

end Reload

/-! ## Runs -/

/-- What happens to the guilds. -/
inductive GuildEvent
  /-- a character makes a guild -/
  | create (name : CStr 24) (master : Founder)
  /-- the map server asks for a guild -/
  | info (guildId : Int32)
  /-- experience of a member -/
  | exp (guildId accountId charId exp : Int32)
  /-- a level of a skill -/
  | skillUp (guildId : Int32) (skillNum : Int)
  /-- the server stops and starts -/
  | restart

def guildStep (conf : GuildConf) (s : GuildServer) : GuildEvent → GuildServer
  | .create name master => mapifParseCreateGuild s name master.toGuildMemberRecord
  | .info guildId => mapifParseGuildInfo conf s guildId
  | .exp guildId accountId charId exp => mapifParseGuildExp conf s guildId accountId charId exp
  | .skillUp guildId skillNum => mapifParseGuildSkillUp conf s guildId skillNum
  | .restart => interGuildRestart conf s

/-- The points of every guild are right. A guild whose levels have not been counted is at level
zero, where no points can be right. -/
def PointsRight (s : GuildServer) : Prop := ∀ g ∈ s.guilds, g.Budget ↔ g.guildLv ≠ 0

/-- No guild with a skill above the first level is read back from its line. -/
def SkillsKept (s : GuildServer) : GuildEvent → Prop
  | .restart => ∀ g ∈ s.guilds, (∃ i, 1 < (g.skill i).lv) → ¬ g.Back
  | _ => True

instance (s : GuildServer) (e : GuildEvent) : Decidable (SkillsKept s e) := by
  cases e <;> unfold SkillsKept <;> infer_instance

/-- **The invariant** of a run without restarts that give points away. -/
structure GuildsFounded (s : GuildServer) : Prop where
  founded : ∀ g ∈ s.guilds, Founded g
  nodup : (s.guilds.map GuildRecord.guildId).Nodup

section Run

variable {conf : GuildConf} {s : GuildServer}

/-- The points of a guild of the invariant are right. -/
theorem Founded.right {g : GuildRecord} (h : Founded g) : g.Budget ↔ g.guildLv ≠ 0 := by
  have hb := h.budget
  constructor
  · intro hbudget hzero
    rw [if_pos hzero] at hb
    unfold GuildRecord.Budget at hbudget
    rw [hb.1, hb.2, hzero] at hbudget
    exact absurd hbudget (by decide)
  · intro hne
    rwa [if_neg hne] at hb

/-- A change of one guild that keeps its invariant and its id. -/
theorem GuildsFounded.update (h : GuildsFounded s) {f : GuildRecord → GuildRecord} (guildId : Int32)
    (hf : ∀ g, Founded g → Founded (f g) ∧ (f g).guildId = g.guildId) :
    GuildsFounded (s.update guildId f) := by
  unfold GuildServer.update
  refine ⟨fun q hq => ?_, ?_⟩
  · obtain ⟨g, hg, rfl⟩ := List.mem_map.mp hq
    split
    · exact (hf g (h.founded g hg)).1
    · exact h.founded g hg
  · have hids : (s.guilds.map fun g => if g.guildId = guildId then f g else g).map
        GuildRecord.guildId = s.guilds.map GuildRecord.guildId := by
      rw [List.map_map]
      refine List.map_congr_left fun g hg => ?_
      dsimp only [Function.comp]
      split
      · exact (hf g (h.founded g hg)).2
      · rfl
    dsimp only
    rw [hids]
    exact h.nodup

theorem printable_of_badNameByte {bs : List UInt8} (h : bs.any badNameByte = false) :
    Printable bs := by
  have hbyte (n : Fin 256) : badNameByte (UInt8.ofNat n) = false →
      32 ≤ UInt8.ofNat n ∧ UInt8.ofNat n ≠ 127 := by
    revert n
    decide +kernel
  intro b hb
  have hb' := hbyte ⟨b.toNat, b.toNat_lt⟩
  rw [show UInt8.ofNat b.toNat = b from UInt8.ofNat_toNat] at hb'
  exact hb' (by simpa using List.any_eq_false.mp h b hb)

/-- Bounds of a level, as the code compares them. -/
theorem one_lt_lv {lv : Int16} : 1 < lv ↔ ¬ lv.toInt ≤ 1 := by
  rw [Int16.lt_iff_toInt_lt, not_le]
  rfl

/-- **A guild that is loaded** is as it should be, its points excepted, which are right if and only
if no skill had a second level. -/
theorem reloaded {g : GuildRecord} (conf : GuildConf) (h : Founded g) :
    let q := guildCalcinfo conf (g.reread conf.guildExtensionBonus)
    GuildTexts q ∧ GuildLevels q ∧ q.guildLv ≠ 0 ∧ (q.Budget ↔ ∀ i, (g.skill i).lv.toInt ≤ 1) := by
  obtain ⟨htexts, hlevels, hiff⟩ := reread_founded conf.bonus_le h
  obtain ⟨htexts', hlevels', hlv, hbudget⟩ := counted conf htexts hlevels
  exact ⟨htexts', hlevels', hlv, hbudget.trans hiff⟩

/-- **A step keeps the invariant**, if it does not read a guild with a skill above the first level.
-/
theorem guildsFounded_step (h : GuildsFounded s) (e : GuildEvent) (hok : SkillsKept s e) :
    GuildsFounded (guildStep conf s e) := by
  cases e with
  | create name master =>
    change GuildsFounded (mapifParseCreateGuild s name master.toGuildMemberRecord)
    unfold mapifParseCreateGuild
    split
    · exact h
    · rename_i hbytes
      split
      · exact h
      · have hname : Printable name.bytes := printable_of_badNameByte (by simpa using hbytes)
        have hnew := founded_newGuild s.guildNewid hname master
        have hid : (newGuild s.guildNewid name master.toGuildMemberRecord).guildId =
            s.guildNewid := rfl
        unfold GuildServer.insert
        refine ⟨fun g hg => ?_, ?_⟩
        · obtain hg | hg := List.mem_append.mp hg
          · exact h.founded g (List.mem_filter.mp hg).1
          · obtain rfl := List.mem_singleton.mp hg
            exact hnew
        · rw [List.map_append, List.nodup_append]
          refine ⟨h.nodup.sublist (List.filter_sublist.map _), by simp, fun x hx y hy => ?_⟩
          obtain ⟨g, hg, rfl⟩ := List.mem_map.mp hx
          obtain rfl : y = s.guildNewid := by simpa [hid] using hy
          simpa [hid] using (List.mem_filter.mp hg).2
  | info guildId =>
    refine h.update guildId fun g hg => ?_
    split
    · exact ⟨founded_calcinfo conf hg, guildId_calcinfo conf g⟩
    · exact ⟨hg, rfl⟩
  | exp guildId accountId charId exp =>
    exact h.update guildId fun g hg =>
      ⟨founded_gainExp conf accountId charId exp hg, guildId_gainExp conf accountId charId exp g⟩
  | skillUp guildId skillNum =>
    change GuildsFounded (mapifParseGuildSkillUp conf s guildId skillNum)
    unfold mapifParseGuildSkillUp
    dsimp only
    split
    · exact h
    · exact h.update guildId fun g hg =>
        ⟨founded_buySkill conf _ hg, guildId_buySkill conf _ g⟩
  | restart =>
    change GuildsFounded (interGuildRestart conf s)
    refine ⟨fun q hq => ?_, ?_⟩
    · rw [restart_guilds h.founded h.nodup] at hq
      obtain ⟨g, hg, rfl⟩ := List.mem_map.mp hq
      obtain ⟨hg, hback⟩ := List.mem_filter.mp hg
      obtain ⟨htexts, hlevels, hlv, hbudget⟩ := reloaded conf (h.founded g hg)
      refine ⟨htexts, hlevels, ?_⟩
      rw [if_neg hlv, hbudget]
      intro i
      by_contra hi
      exact hok g hg ⟨i, one_lt_lv.mpr hi⟩ (of_decide_eq_true hback)
    · rw [restart_guilds h.founded h.nodup, List.map_map]
      have hids : (s.guilds.filter fun g => g.Back).map (GuildRecord.guildId ∘ fun g =>
          guildCalcinfo conf (g.reread conf.guildExtensionBonus)) =
            (s.guilds.filter fun g => g.Back).map GuildRecord.guildId :=
        List.map_congr_left fun g _ => guildId_calcinfo conf _
      rw [hids]
      exact h.nodup.sublist (List.filter_sublist.map _)

/-- **The points are right after a step** just if it does not read a guild with a skill above the
first level. -/
theorem pointsRight_iff (h : GuildsFounded s) (e : GuildEvent) :
    PointsRight (guildStep conf s e) ↔ SkillsKept s e := by
  constructor
  · intro hright
    cases e with
    | restart =>
      intro g hg hskill hback
      obtain ⟨-, -, hlv, hbudget⟩ := reloaded conf (h.founded g hg)
      have hmem : guildCalcinfo conf (g.reread conf.guildExtensionBonus) ∈
          (guildStep conf s .restart).guilds := by
        change _ ∈ (interGuildRestart conf s).guilds
        rw [restart_guilds h.founded h.nodup]
        exact List.mem_map_of_mem (List.mem_filter.mpr ⟨hg, decide_eq_true hback⟩)
      obtain ⟨i, hi⟩ := hskill
      exact one_lt_lv.mp hi (hbudget.mp ((hright _ hmem).mpr hlv) i)
    | _ => trivial
  · intro hok g hg
    exact ((guildsFounded_step h e hok).founded g hg).right

theorem guildsFounded_init : GuildsFounded {} := ⟨by simp, by simp⟩

end Run

/-- **The points of all guilds are right** throughout a run, from a server without guilds, just if
no guild that has a skill above the first level is saved and read back. -/
theorem guild_budget_iff (conf : GuildConf) (es : List GuildEvent) :
    Run.Meets (guildStep conf) (fun s e => PointsRight (guildStep conf s e)) {} es ↔
      Run.Meets (guildStep conf) SkillsKept {} es :=
  Run.meets_iff_of_kept (fun _ e h hok => guildsFounded_step h e hok)
    (fun _ e h => pointsRight_iff h e) guildsFounded_init

/-- A hundred points of experience for each level. -/
def hundredConf : GuildConf where
  guildExp _ := 100
  guildExtensionBonus := 6
  bonus_le := by decide

/-- A guild is made, and its master earns three levels and buys a skill twice. -/
def extensionTwice : List GuildEvent :=
  [.create (cstr 24 "Night Watch")
    { accountId := 2000000, charId := 150000, name := cstr 24 "Alice"
      used := by decide, plain := by decide },
    .exp 10000 2000000 150000 300, .skillUp 10000 10004, .skillUp 10000 10004]

/-- **A point is given away** when a guild with a skill at its second level is loaded. -/
theorem guild_budget_broken : ¬ ∀ (conf : GuildConf) (es : List GuildEvent),
    Run.Meets (guildStep conf)
      (fun s e => ∀ g ∈ (guildStep conf s e).guilds, g.guildLv ≠ 0 → g.Budget) {} es := by
  intro h
  have hrun := h hundredConf (extensionTwice ++ [GuildEvent.restart])
  obtain ⟨-, hlast, -⟩ := Run.meets_append.mp hrun
  have hmeets : Run.Meets (guildStep hundredConf) SkillsKept {} extensionTwice := by decide
  have hkept : GuildsFounded (Run.exec (guildStep hundredConf) {} extensionTwice) :=
    Run.inv_exec (I := GuildsFounded) (fun _ e h hok => guildsFounded_step h e hok)
      guildsFounded_init hmeets
  obtain ⟨g, hg, hback, i, hi⟩ : ∃ g ∈ (Run.exec (guildStep hundredConf) {} extensionTwice).guilds,
      g.Back ∧ ∃ i, 1 < (g.skill i).lv := by decide
  obtain ⟨-, -, hlv, hbudget⟩ := reloaded hundredConf (hkept.founded g hg)
  refine one_lt_lv.mp hi (hbudget.mp (hlast _ ?_ hlv) i)
  change _ ∈ (interGuildRestart hundredConf _).guilds
  rw [restart_guilds hkept.founded hkept.nodup]
  exact List.mem_map_of_mem (List.mem_filter.mpr ⟨hg, decide_eq_true hback⟩)

end Nezumi
