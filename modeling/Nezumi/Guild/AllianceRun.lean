import Nezumi.Guild.Alliance

/-!
# What guilds are to each other (`map/guild.c`, `char/int_guild.c`)

* `AllianceSound`: alliances are mutual, no guild is listed twice, and no table has more than four
  allies or four oppositions.
* `AllianceFine`: a request is accepted only between two guilds that are not allied yet, and an
  opposition is declared only by a guild that has less than four.
* `AllianceTables` is the invariant of the tables, and `AllianceInv` that of the guilds.
* `inv_end`, `inv_ally` and `inv_oppose` are what the three kinds of messages keep.
* `alliance_sound_iff`: the relations are sound throughout a run just if its steps are fine.
-/

namespace Nezumi

abbrev Guilds := Int32 → Option GuildRecord

namespace GuildRecord

/-- A guild lists another one, in a relation of a kind. -/
def Lists (g : GuildRecord) (guildId opposition : Int32) : Prop :=
  Ties.Lists GuildAlliance.guildId GuildAlliance.opposition g.alliance guildId opposition

instance (g : GuildRecord) (guildId opposition : Int32) : Decidable (g.Lists guildId opposition) :=
  inferInstanceAs (Decidable (Ties.Lists ..))

/-- No guild is listed twice. -/
def Once (g : GuildRecord) : Prop := Ties.Once GuildAlliance.guildId 0 g.alliance

instance (g : GuildRecord) : Decidable g.Once := inferInstanceAs (Decidable (Ties.Once ..))

/-- The number of relations of a kind. -/
def relations (g : GuildRecord) (opposition : Int32) : ℕ :=
  Ties.count GuildAlliance.guildId GuildAlliance.opposition 0 g.alliance opposition

end GuildRecord

/-- **The relations between guilds are sound.** -/
structure AllianceSound (guilds : Guilds) : Prop where
  symm : ∀ G H g h, guilds G = some g → guilds H = some h → (g.Lists H 0 ↔ h.Lists G 0)
  once : ∀ G g, guilds G = some g → g.Once
  allies : ∀ G g, guilds G = some g → guildGetAllianceCount g 0 ≤ 4
  oppositions : ∀ G g, guilds G = some g → guildGetAllianceCount g 1 ≤ 4

/-- What a step must meet. -/
def AllianceFine (w : AllianceWorld) : AllianceEvent → Prop
  | .reply accountId account2 flag =>
    match w.both accountId account2 with
    | none => True
    | some (sd, tsd) =>
      match acceptedGuilds w sd tsd flag with
      | none => True
      | some (g1, _) => sd.guildId ≠ tsd.guildId ∧ ¬ g1.Lists tsd.guildId 0
  | .oppose accountId account2 =>
    match w.both accountId account2 with
    | none => True
    | some (sd, tsd) =>
      match w.guilds sd.guildId with
      | none => True
      | some g => (w.guilds tsd.guildId).isSome → ¬ g.Lists tsd.guildId 1 →
          guildGetAllianceCount g 1 ≤ 3
  | _ => True

instance (w : AllianceWorld) (e : AllianceEvent) : Decidable (AllianceFine w e) := by
  unfold AllianceFine
  split
  · split
    · infer_instance
    · split <;> infer_instance
  · split
    · infer_instance
    · split <;> infer_instance
  · infer_instance

/-- **The tables of all guilds.** A slot is free, or it has a relation of one of the two kinds with
a guild that is there. -/
structure AllianceTables (guilds : Guilds) : Prop where
  id : ∀ G g, guilds G = some g → 0 < G ∧ g.guildId = G
  entry : ∀ G g, guilds G = some g → ∀ i, (g.alliance i).guildId ≠ 0 →
    (guilds (g.alliance i).guildId).isSome ∧
      ((g.alliance i).opposition = 0 ∨ (g.alliance i).opposition = 1)
  once : ∀ G g, guilds G = some g → g.Once
  few : ∀ G g, guilds G = some g → g.relations 0 ≤ 4 ∧ g.relations 1 ≤ 4

/-- The guild `G` lists `H`. -/
def ListedBy (guilds : Guilds) (G H opposition : Int32) : Prop :=
  ∃ g, guilds G = some g ∧ g.Lists H opposition

/-- **The invariant**: the tables, and that alliances are mutual. -/
structure AllianceInv (guilds : Guilds) : Prop where
  tables : AllianceTables guilds
  symm : ∀ G H, H ≠ 0 → ListedBy guilds G H 0 → ListedBy guilds H G 0

section Tables

variable {guilds : Guilds} {G H : Int32} {g h : GuildRecord} {flag : BitVec 32}

theorem oppositionOf_cases (flag : BitVec 32) :
    oppositionBit flag = true ∧ oppositionOf flag = 1 ∨
      oppositionBit flag = false ∧ oppositionOf flag = 0 := by
  unfold oppositionOf
  cases oppositionBit flag
  · exact .inr ⟨rfl, rfl⟩
  · exact .inl ⟨rfl, rfl⟩

theorem AllianceTables.id_ne (h : AllianceTables guilds) (hg : guilds G = some g) : G ≠ 0 := by
  rintro rfl
  exact absurd (h.id 0 g hg).1 (by decide)

/-- A relation is with a guild of a positive id. -/
theorem entry_pos (h : AllianceTables guilds) (hg : guilds G = some g) (i : Fin maxGuildAlliance)
    (hi : (g.alliance i).guildId ≠ 0) : 0 < (g.alliance i).guildId := by
  obtain ⟨h', hh'⟩ := Option.isSome_iff_exists.mp (h.entry G g hg i hi).1
  exact (h.id _ h' hh').1

/-- The count of the map server is that of the slots that are not free. -/
theorem allianceCount_eq (hpos : ∀ i, (g.alliance i).guildId ≠ 0 → 0 < (g.alliance i).guildId)
    (opposition : Int32) : guildGetAllianceCount g opposition = g.relations opposition := by
  unfold guildGetAllianceCount GuildRecord.relations Ties.count Slots.card
  congr 1
  apply Finset.filter_congr
  intro i _
  rw [Ties.isTie_iff, decide_eq_true_iff]
  refine and_congr_left fun _ => ⟨fun hlt hzero => ?_, hpos i⟩
  rw [hzero] at hlt
  exact absurd hlt (by decide)

/-- Sound relations, in terms of the invariant. -/
theorem AllianceInv.sound (h : AllianceInv guilds) : AllianceSound guilds where
  symm G H g h' hg hh := by
    constructor
    · intro hl
      obtain ⟨q, hq, hl⟩ := h.symm G H (h.tables.id_ne hh) ⟨g, hg, hl⟩
      rw [hh] at hq
      obtain rfl := Option.some.inj hq
      exact hl
    · intro hl
      obtain ⟨q, hq, hl⟩ := h.symm H G (h.tables.id_ne hg) ⟨h', hh, hl⟩
      rw [hg] at hq
      obtain rfl := Option.some.inj hq
      exact hl
  once := h.tables.once
  allies G g hg := by
    rw [allianceCount_eq (entry_pos h.tables hg)]
    exact (h.tables.few G g hg).1
  oppositions G g hg := by
    rw [allianceCount_eq (entry_pos h.tables hg)]
    exact (h.tables.few G g hg).2

/-- A table of the invariant has a free slot. -/
theorem exists_free_slot (h : AllianceTables guilds) (hg : guilds G = some g) :
    ∃ j, (g.alliance j).guildId = 0 := by
  have hfew := h.few G g hg
  have hn : maxGuildAlliance = 16 := rfl
  exact Ties.exists_free (fun j hj => (h.entry G g hg j hj).2)
    (by unfold GuildRecord.relations at hfew; omega)

/-- One guild changes. -/
def changed (guilds : Guilds) (G : Int32) (f : GuildRecord → GuildRecord) : Guilds :=
  Function.update guilds G ((guilds G).map f)

theorem changed_self (hg : guilds G = some g) {f : GuildRecord → GuildRecord} :
    changed guilds G f G = some (f g) := by
  unfold changed
  rw [Function.update_self, hg]
  rfl

theorem changed_of_ne {f : GuildRecord → GuildRecord} (hne : H ≠ G) :
    changed guilds G f H = guilds H := Function.update_of_ne hne _ _

theorem isSome_changed {f : GuildRecord → GuildRecord} :
    (changed guilds G f H).isSome = (guilds H).isSome := by
  rcases eq_or_ne H G with rfl | hne
  · unfold changed
    rw [Function.update_self, Option.isSome_map]
  · rw [changed_of_ne hne]

/-- **A message about two guilds that are there** changes one or both of them. -/
theorem mapifParse_eq (ht : AllianceTables guilds) (hg : guilds G = some g)
    (hh : guilds H = some h) :
    mapifParseGuildAlliance guilds ⟨G, H, flag⟩ =
      if oppositionBit flag then changed guilds G (changeAlliance flag h)
      else changed (changed guilds G (changeAlliance flag h)) H (changeAlliance flag g) := by
  obtain ⟨hG, hgid⟩ := ht.id G g hg
  obtain ⟨hH, hhid⟩ := ht.id H h hh
  have hGne := ht.id_ne hg
  have hHne := ht.id_ne hh
  unfold mapifParseGuildAlliance
  dsimp only
  rw [if_neg (by rw [not_or, Int32.not_le, Int32.not_le]; exact ⟨hG, hH⟩), hg, hh]
  dsimp only
  rw [if_neg (by rw [hgid, hhid, not_or]; exact ⟨hGne, hHne⟩)]
  unfold changed
  rw [hg]
  rfl

/-- A message about a guild that is not there does nothing. -/
theorem mapifParse_none (h : guilds G = none ∨ guilds H = none) :
    mapifParseGuildAlliance guilds ⟨G, H, flag⟩ = guilds := by
  unfold mapifParseGuildAlliance
  dsimp only
  split
  · rfl
  · split
    · rename_i hg hh
      obtain h | h := h
      · rw [h] at hg
        cases hg
      · rw [h] at hh
        cases hh
    · rfl

/-- The tables after a change of one guild. -/
theorem tables_changed (ht : AllianceTables guilds) (hg : guilds G = some g)
    {f : GuildRecord → GuildRecord} (hid : (f g).guildId = g.guildId)
    (hentry : ∀ i, ((f g).alliance i).guildId ≠ 0 →
      (guilds ((f g).alliance i).guildId).isSome ∧
        (((f g).alliance i).opposition = 0 ∨ ((f g).alliance i).opposition = 1))
    (honce : (f g).Once) (hfew : (f g).relations 0 ≤ 4 ∧ (f g).relations 1 ≤ 4) :
    AllianceTables (changed guilds G f) := by
  have hcases (A : Int32) (a : GuildRecord) (ha : changed guilds G f A = some a) :
      A = G ∧ a = f g ∨ guilds A = some a := by
    rcases eq_or_ne A G with rfl | hne
    · rw [changed_self hg] at ha
      exact .inl ⟨rfl, (Option.some.inj ha).symm⟩
    · rw [changed_of_ne hne] at ha
      exact .inr ha
  refine ⟨fun A a ha => ?_, fun A a ha i hi => ?_, fun A a ha => ?_, fun A a ha => ?_⟩
  · obtain ⟨rfl, rfl⟩ | ha := hcases A a ha
    · rw [hid]
      exact ht.id A g hg
    · exact ht.id A a ha
  · rw [isSome_changed]
    obtain ⟨rfl, rfl⟩ | ha := hcases A a ha
    · exact hentry i hi
    · exact ht.entry A a ha i hi
  · obtain ⟨rfl, rfl⟩ | ha := hcases A a ha
    · exact honce
    · exact ht.once A a ha
  · obtain ⟨rfl, rfl⟩ | ha := hcases A a ha
    · exact hfew
    · exact ht.few A a ha

theorem listedBy_changed (hg : guilds G = some g) {f : GuildRecord → GuildRecord} {A B p : Int32} :
    ListedBy (changed guilds G f) A B p ↔
      if A = G then (f g).Lists B p else ListedBy guilds A B p := by
  unfold ListedBy
  split
  · rename_i hA
    rw [hA, changed_self hg]
    simp
  · rename_i hA
    rw [changed_of_ne hA]

/-- The number of relations of a kind, of a guild that may not be there. -/
def relationsOf (guilds : Guilds) (G p : Int32) : ℕ := ((guilds G).map (·.relations p)).getD 0

theorem relationsOf_changed (hg : guilds G = some g) {f : GuildRecord → GuildRecord} {A p : Int32} :
    relationsOf (changed guilds G f) A p =
      if A = G then (f g).relations p else relationsOf guilds A p := by
  unfold relationsOf
  split
  · rename_i hA
    rw [hA, changed_self hg]
    rfl
  · rename_i hA
    rw [changed_of_ne hA]

theorem relationsOf_eq (hg : guilds G = some g) (p : Int32) :
    relationsOf guilds G p = g.relations p := by
  unfold relationsOf
  rw [hg]
  rfl

/-! ### Relations that end -/

/-- **What is left when relations of a kind have ended.** -/
structure Ended (p : Int32) (guilds guilds' : Guilds) : Prop where
  tables : AllianceTables guilds'
  known : ∀ A, (guilds' A).isSome = (guilds A).isSome
  left : ∀ A B q, B ≠ 0 → ListedBy guilds' A B q → ListedBy guilds A B q
  other : ∀ A B q, B ≠ 0 → q ≠ p → ListedBy guilds A B q → ListedBy guilds' A B q
  few : ∀ A q, q ≠ p → relationsOf guilds' A q = relationsOf guilds A q

theorem Ended.refl (ht : AllianceTables guilds) (p : Int32) : Ended p guilds guilds :=
  ⟨ht, fun _ => rfl, fun _ _ _ _ => id, fun _ _ _ _ _ => id, fun _ _ _ => rfl⟩

theorem Ended.trans {p : Int32} {guilds₁ guilds₂ guilds₃ : Guilds} (h : Ended p guilds₁ guilds₂)
    (h' : Ended p guilds₂ guilds₃) : Ended p guilds₁ guilds₃ :=
  ⟨h'.tables, fun A => (h'.known A).trans (h.known A),
    fun A B q hB hl => h.left A B q hB (h'.left A B q hB hl),
    fun A B q hB hq hl => h'.other A B q hB hq (h.other A B q hB hq hl),
    fun A q hq => (h'.few A q hq).trans (h.few A q hq)⟩

/-- **A relation of one guild ends**, and all others are left. -/
theorem ended_one (flag : BitVec 32) (ht : AllianceTables guilds) (hg : guilds G = some g)
    {k : GuildRecord}
    (hk : k.guildId ≠ 0) :
    Ended (oppositionOf flag) guilds (changed guilds G (endAlliance flag k)) ∧
      ∀ A B q, B ≠ 0 → (ListedBy (changed guilds G (endAlliance flag k)) A B q ↔
        ListedBy guilds A B q ∧ ¬ (A = G ∧ B = k.guildId ∧ q = oppositionOf flag)) := by
  have honce := ht.once G g hg
  have hfree (a : GuildAlliance) : ({ a with guildId := 0 } : GuildAlliance).guildId = 0 := rfl
  have hlists (B q : Int32) (hB : B ≠ 0) : (endAlliance flag k g).Lists B q ↔
      g.Lists B q ∧ ¬ (B = k.guildId ∧ q = oppositionOf flag) :=
    Ties.lists_clear hfree honce hk hB
  have halliance : (endAlliance flag k g).alliance = Ties.clear GuildAlliance.guildId
      GuildAlliance.opposition (fun a => { a with guildId := 0 }) g.alliance k.guildId
        (oppositionOf flag) := rfl
  have hcount (q : Int32) : (endAlliance flag k g).relations q ≤ g.relations q ∧
      (q ≠ oppositionOf flag → (endAlliance flag k g).relations q = g.relations q) := by
    unfold GuildRecord.relations
    rw [halliance]
    exact Ties.count_clear hfree
  have hfew := ht.few G g hg
  have htables : AllianceTables (changed guilds G (endAlliance flag k)) := by
    refine tables_changed ht hg rfl (fun i hi => ?_) (Ties.once_clear hfree honce)
      ⟨(hcount 0).1.trans hfew.1, (hcount 1).1.trans hfew.2⟩
    obtain ⟨-, heq⟩ | ⟨j, -, -, heq⟩ := Ties.clear_cases GuildAlliance.guildId
      GuildAlliance.opposition (fun a => { a with guildId := 0 }) g.alliance k.guildId
      (oppositionOf flag)
    · rw [halliance, heq] at hi ⊢
      exact ht.entry G g hg i hi
    · rw [halliance, heq] at hi ⊢
      rcases eq_or_ne i j with rfl | hij
      · rw [Function.update_self] at hi
        exact absurd rfl hi
      · rw [Function.update_of_ne hij] at hi ⊢
        exact ht.entry G g hg i hi
  have hlisted (A B q : Int32) (hB : B ≠ 0) :
      ListedBy (changed guilds G (endAlliance flag k)) A B q ↔
        ListedBy guilds A B q ∧ ¬ (A = G ∧ B = k.guildId ∧ q = oppositionOf flag) := by
    rw [listedBy_changed hg]
    split
    · rename_i hA
      rw [hlists B q hB, hA]
      refine and_congr ⟨fun hl => ⟨g, hg, hl⟩, ?_⟩ (by simp)
      rintro ⟨g', hg', hl⟩
      rw [hg] at hg'
      obtain rfl := Option.some.inj hg'
      exact hl
    · rename_i hA
      simp [hA]
  refine ⟨⟨htables, fun A => isSome_changed, fun A B q hB hl => ((hlisted A B q hB).mp hl).1,
    fun A B q hB hq hl => (hlisted A B q hB).mpr ⟨hl, fun h => hq h.2.2⟩, fun A q hq => ?_⟩,
    hlisted⟩
  rw [relationsOf_changed hg]
  split
  · rename_i hA
    rw [hA, relationsOf_eq hg]
    exact (hcount q).2 hq
  · rfl

/-- **A message that ends a relation** keeps the invariant. -/
theorem inv_end (hi : AllianceInv guilds) (G H : Int32) (hend : endBit flag = true) :
    AllianceInv (mapifParseGuildAlliance guilds ⟨G, H, flag⟩) ∧
      Ended (oppositionOf flag) guilds (mapifParseGuildAlliance guilds ⟨G, H, flag⟩) ∧
      ((guilds G).isSome → (guilds H).isSome →
        ¬ ListedBy (mapifParseGuildAlliance guilds ⟨G, H, flag⟩) G H (oppositionOf flag)) := by
  have ht := hi.tables
  cases hg : guilds G with
  | none =>
    rw [mapifParse_none (.inl hg)]
    exact ⟨hi, Ended.refl ht _, by simp⟩
  | some g =>
    cases hh : guilds H with
    | none =>
      rw [mapifParse_none (.inr hh)]
      exact ⟨hi, Ended.refl ht _, by simp⟩
    | some h =>
      have hgid := (ht.id G g hg).2
      have hhid := (ht.id H h hh).2
      have hGne := ht.id_ne hg
      have hHne := ht.id_ne hh
      have hchange (k : GuildRecord) : changeAlliance flag k = endAlliance flag k := by
        funext q
        unfold changeAlliance
        rw [if_pos hend]
      obtain ⟨hone, hlisted⟩ := ended_one flag ht hg (hhid ▸ hHne)
      rw [hhid] at hlisted
      rw [mapifParse_eq ht hg hh, hchange, hchange]
      obtain ⟨hbit, ho⟩ | ⟨hbit, ho⟩ := oppositionOf_cases flag
      · rw [if_pos hbit]
        refine ⟨⟨hone.tables, fun A B hB hl => ?_⟩, hone, fun _ _ hl => ?_⟩
        · have hA : A ≠ 0 := by
            obtain ⟨a, ha, -⟩ := hl
            exact hone.tables.id_ne ha
          rw [hlisted A B 0 hB, ho] at hl
          rw [hlisted B A 0 hA, ho]
          exact ⟨hi.symm A B hB hl.1, fun h' => absurd h'.2.2 (by decide)⟩
        · exact ((hlisted G H _ hHne).mp hl).2 ⟨rfl, rfl, rfl⟩
      · rw [if_neg (by simp [hbit])]
        have hsome : (changed guilds G (endAlliance flag h) H).isSome := by
          rw [isSome_changed, hh]
          rfl
        obtain ⟨h', hh'⟩ := Option.isSome_iff_exists.mp hsome
        obtain ⟨htwo, hlisted'⟩ := ended_one flag hone.tables hh' (hgid ▸ hGne)
        rw [hgid] at hlisted'
        refine ⟨⟨htwo.tables, fun A B hB hl => ?_⟩, hone.trans htwo, fun _ _ hl => ?_⟩
        · have hA : A ≠ 0 := by
            obtain ⟨a, ha, -⟩ := hl
            exact htwo.tables.id_ne ha
          rw [hlisted' A B 0 hB, hlisted A B 0 hB, ho] at hl
          rw [hlisted' B A 0 hA, hlisted B A 0 hA, ho]
          obtain ⟨⟨hl, h1⟩, h2⟩ := hl
          exact ⟨⟨hi.symm A B hB hl, fun h' => h2 ⟨h'.2.1, h'.1, rfl⟩⟩,
            fun h' => h1 ⟨h'.2.1, h'.1, rfl⟩⟩
        · have hl' := (hlisted' G H _ hHne).mp hl
          exact ((hlisted G H _ hHne).mp hl'.1).2 ⟨rfl, rfl, rfl⟩

/-- Messages that end relations of one kind. -/
theorem inv_endAll {p : Int32} {ms : List AllianceMessage} (hi : AllianceInv guilds)
    (hms : ∀ m ∈ ms, endBit m.flag = true ∧ oppositionOf m.flag = p) :
    AllianceInv (ms.foldl mapifParseGuildAlliance guilds) ∧
      Ended p guilds (ms.foldl mapifParseGuildAlliance guilds) ∧
      ∀ m ∈ ms, (guilds m.guildId1).isSome → (guilds m.guildId2).isSome →
        ¬ ListedBy (ms.foldl mapifParseGuildAlliance guilds) m.guildId1 m.guildId2 p := by
  induction ms generalizing guilds with
  | nil => exact ⟨hi, Ended.refl hi.tables p, by simp⟩
  | cons m ms ih =>
    obtain ⟨hend, hp⟩ := hms m List.mem_cons_self
    obtain ⟨hi', hone, hgone⟩ := inv_end hi m.guildId1 m.guildId2 hend
    rw [hp] at hone hgone
    obtain ⟨hi'', hrest, hgone'⟩ := ih hi' fun m' hm' => hms m' (List.mem_cons_of_mem _ hm')
    rw [List.foldl_cons]
    refine ⟨hi'', hone.trans hrest, fun m' hm' h1 h2 hl => ?_⟩
    obtain rfl | hm' := List.mem_cons.mp hm'
    · have h2ne : m'.guildId2 ≠ 0 := by
        obtain ⟨q, hq⟩ := Option.isSome_iff_exists.mp h2
        exact hi.tables.id_ne hq
      exact hgone h1 h2 (hrest.left _ _ _ h2ne hl)
    · exact hgone' m' hm' (by rw [hone.known]; exact h1) (by rw [hone.known]; exact h2) hl

/-! ### Relations that begin -/

theorem lists_add (ht : AllianceTables guilds) (hg : guilds G = some g) {k : GuildRecord}
    {B q : Int32} (hB : B ≠ 0) : (addAlliance flag k g).Lists B q ↔
      g.Lists B q ∨ k.guildId = B ∧ oppositionOf flag = q :=
  Ties.lists_put (exists_free_slot ht hg) hB

theorem once_add (ht : AllianceTables guilds) (hg : guilds G = some g) {k : GuildRecord}
    (hk : k.guildId ≠ 0) : (addAlliance flag k g).Once ↔
      g.Once ∧ ∀ j, (g.alliance j).guildId ≠ k.guildId :=
  Ties.once_put (exists_free_slot ht hg) hk

theorem relations_add (flag : BitVec 32) (ht : AllianceTables guilds) (hg : guilds G = some g)
    {k : GuildRecord}
    (hk : k.guildId ≠ 0) (q : Int32) : (addAlliance flag k g).relations q =
      g.relations q + if oppositionOf flag = q then 1 else 0 :=
  Ties.count_put (exists_free_slot ht hg) hk

/-- A slot of a table into which a relation has been entered. -/
theorem entry_add (flag : BitVec 32) (ht : AllianceTables guilds) (hg : guilds G = some g)
    {k : GuildRecord}
    (i : Fin maxGuildAlliance) :
    ((addAlliance flag k g).alliance i).guildId = k.guildId ∧
        ((addAlliance flag k g).alliance i).opposition = oppositionOf flag ∨
      (addAlliance flag k g).alliance i = g.alliance i := by
  obtain ⟨j, halliance⟩ : ∃ j, (addAlliance flag k g).alliance = Function.update g.alliance j
      { guildId := k.guildId, name := k.name, opposition := oppositionOf flag } := by
    obtain ⟨j, -, heq⟩ := Ties.put_eq
      (v := { guildId := k.guildId, name := k.name, opposition := oppositionOf flag })
      (exists_free_slot ht hg)
    exact ⟨j, heq⟩
  rw [halliance]
  rcases eq_or_ne i j with rfl | hij
  · rw [Function.update_self]
    exact .inl ⟨rfl, rfl⟩
  · rw [Function.update_of_ne hij]
    exact .inr rfl

/-- There is room for one more relation. -/
theorem exists_free_add (ht : AllianceTables guilds) (hg : guilds G = some g) {k : GuildRecord}
    (hk : k.guildId ≠ 0) : ∃ j, ((addAlliance flag k g).alliance j).guildId = 0 := by
  have hfew := ht.few G g hg
  have hn : maxGuildAlliance = 16 := rfl
  have h0 := relations_add flag ht hg hk 0
  have h1 := relations_add flag ht hg hk 1
  have hkinds (j : Fin maxGuildAlliance) (hj : ((addAlliance flag k g).alliance j).guildId ≠ 0) :
      ((addAlliance flag k g).alliance j).opposition = 0 ∨
        ((addAlliance flag k g).alliance j).opposition = 1 := by
    obtain ⟨-, hkind⟩ | hsame := entry_add flag ht hg (k := k) j
    · rw [hkind]
      exact (oppositionOf_cases flag).elim (fun h => .inr h.2) fun h => .inl h.2
    · rw [hsame] at hj ⊢
      exact (ht.entry G g hg j hj).2
  have hcount : (addAlliance flag k g).relations 0 + (addAlliance flag k g).relations 1 <
      maxGuildAlliance := by
    rw [h0, h1, hn]
    split <;> split <;> omega
  exact Ties.exists_free hkinds hcount

/-- A guild lists no other one of which it has neither kind of relation. -/
theorem notListed (ht : AllianceTables guilds) (hg : guilds G = some g) (hH : H ≠ 0)
    (h0 : ¬ g.Lists H 0) (h1 : ¬ g.Lists H 1) (j : Fin maxGuildAlliance) :
    (g.alliance j).guildId ≠ H := by
  intro hj
  obtain ⟨-, hkind | hkind⟩ := ht.entry G g hg j (hj ▸ hH)
  · exact h0 ⟨j, hj, hkind⟩
  · exact h1 ⟨j, hj, hkind⟩

/-- **A relation begins on one side.** -/
theorem tables_add (ht : AllianceTables guilds) (hg : guilds G = some g) {k : GuildRecord}
    (hk : k.guildId ≠ 0) (hknown : (guilds k.guildId).isSome) (h0 : ¬ g.Lists k.guildId 0)
    (h1 : ¬ g.Lists k.guildId 1) (hfew : g.relations (oppositionOf flag) ≤ 3) :
    AllianceTables (changed guilds G (addAlliance flag k)) := by
  have hkinds : oppositionOf flag = 0 ∨ oppositionOf flag = 1 :=
    (oppositionOf_cases flag).elim (fun h => .inr h.2) fun h => .inl h.2
  refine tables_changed ht hg rfl (fun i hi => ?_)
    ((once_add ht hg hk).mpr ⟨ht.once G g hg, notListed ht hg hk h0 h1⟩) ?_
  · obtain ⟨hid, hkind⟩ | hsame := entry_add flag ht hg (k := k) i
    · rw [hid, hkind]
      exact ⟨hknown, hkinds⟩
    · rw [hsame] at hi ⊢
      exact ht.entry G g hg i hi
  · have hle := ht.few G g hg
    rw [relations_add _ ht hg hk, relations_add _ ht hg hk]
    obtain ho | ho := hkinds
    · rw [ho] at hfew
      rw [ho, if_pos rfl, if_neg (by decide)]
      omega
    · rw [ho] at hfew
      rw [ho, if_pos rfl, if_neg (by decide)]
      omega

theorem changeAlliance_add (hend : endBit flag = false) (k : GuildRecord) :
    changeAlliance flag k = addAlliance flag k := by
  funext q
  unfold changeAlliance
  rw [hend]
  rfl

theorem listedBy_iff (hg : guilds G = some g) {B q : Int32} :
    ListedBy guilds G B q ↔ g.Lists B q := by
  unfold ListedBy
  rw [hg]
  simp

/-- **An alliance** between two guilds that are not related. -/
theorem inv_ally (hi : AllianceInv guilds) (hg : guilds G = some g) (hh : guilds H = some h)
    (hne : G ≠ H) (hg0 : ¬ g.Lists H 0) (hg1 : ¬ g.Lists H 1) (hh1 : ¬ h.Lists G 1)
    (hgfew : g.relations 0 ≤ 3) (hhfew : h.relations 0 ≤ 3) :
    AllianceInv (mapifParseGuildAlliance guilds ⟨G, H, 0⟩) := by
  have ht := hi.tables
  have hgid := (ht.id G g hg).2
  have hhid := (ht.id H h hh).2
  have hGne := ht.id_ne hg
  have hHne := ht.id_ne hh
  have ho : oppositionOf 0 = 0 := by decide
  have hh0 : ¬ h.Lists G 0 := fun hl =>
    hg0 ((listedBy_iff hg).mp (hi.symm H G hGne ⟨h, hh, hl⟩))
  rw [mapifParse_eq ht hg hh, changeAlliance_add rfl, changeAlliance_add rfl, if_neg (by decide)]
  have hone : AllianceTables (changed guilds G (addAlliance 0 h)) := by
    refine tables_add ht hg ?_ ?_ ?_ ?_ (by rwa [ho]) <;> rw [hhid]
    · exact hHne
    · rw [hh]
      rfl
    · exact hg0
    · exact hg1
  have hh' : changed guilds G (addAlliance 0 h) H = some h := by
    rw [changed_of_ne hne.symm]
    exact hh
  refine ⟨?_, fun A B hB hl => ?_⟩
  · refine tables_add hone hh' ?_ ?_ ?_ ?_ (by rwa [ho]) <;> rw [hgid]
    · exact hGne
    · rw [isSome_changed, hg]
      rfl
    · exact hh0
    · exact hh1
  · have hlisted (A B : Int32) (hB : B ≠ 0) :
        ListedBy (changed (changed guilds G (addAlliance 0 h)) H (addAlliance 0 g)) A B 0 ↔
          ListedBy guilds A B 0 ∨ A = G ∧ B = H ∨ A = H ∧ B = G := by
      rw [listedBy_changed hh']
      split
      · rename_i hA
        rw [lists_add hone hh' hB, hgid, hA, listedBy_iff hh]
        have := hne.symm
        simp only [ho, and_true, this, false_and, true_and, false_or, eq_comm]
      · rename_i hA
        rw [listedBy_changed hg]
        split
        · rename_i hA'
          rw [lists_add ht hg hB, hhid, hA', listedBy_iff hg]
          simp only [ho, and_true, true_and, hne, false_and, or_false, eq_comm]
        · rename_i hA'
          simp only [hA, hA', false_and, or_false]
    have hA : A ≠ 0 := by
      rw [hlisted A B hB] at hl
      obtain ⟨a, ha, -⟩ | ⟨rfl, -⟩ | ⟨rfl, -⟩ := hl
      · exact ht.id_ne ha
      · exact hGne
      · exact hHne
    rw [hlisted A B hB] at hl
    rw [hlisted B A hA]
    obtain hl | ⟨rfl, rfl⟩ | ⟨rfl, rfl⟩ := hl
    · exact .inl (hi.symm A B hB hl)
    · exact .inr (.inr ⟨rfl, rfl⟩)
    · exact .inr (.inl ⟨rfl, rfl⟩)

/-- **An opposition** to a guild that is not listed. -/
theorem inv_oppose (hi : AllianceInv guilds) (hg : guilds G = some g) (hh : guilds H = some h)
    (h0 : ¬ g.Lists H 0) (h1 : ¬ g.Lists H 1) (hfew : g.relations 1 ≤ 3) :
    AllianceInv (mapifParseGuildAlliance guilds ⟨G, H, 1⟩) := by
  have ht := hi.tables
  have hhid := (ht.id H h hh).2
  have hHne := ht.id_ne hh
  have ho : oppositionOf 1 = 1 := by decide
  rw [mapifParse_eq ht hg hh, changeAlliance_add rfl, if_pos (by decide)]
  have hlisted (A B : Int32) (hB : B ≠ 0) :
      ListedBy (changed guilds G (addAlliance 1 h)) A B 0 ↔ ListedBy guilds A B 0 := by
    rw [listedBy_changed hg]
    split
    · rename_i hA
      rw [lists_add ht hg hB, ho, hA, listedBy_iff hg]
      simp
    · exact Iff.rfl
  have hone : AllianceTables (changed guilds G (addAlliance 1 h)) := by
    refine tables_add ht hg ?_ ?_ ?_ ?_ (by rwa [ho]) <;> rw [hhid]
    · exact hHne
    · rw [hh]
      rfl
    · exact h0
    · exact h1
  refine ⟨hone, fun A B hB hl => ?_⟩
  have hA : A ≠ 0 := by
    obtain ⟨a, ha, -⟩ := hl
    exact hone.id_ne ha
  rw [hlisted A B hB] at hl
  rw [hlisted B A hA]
  exact hi.symm A B hB hl

/-- **A fifth opposition** is entered like the others. -/
theorem not_sound_oppose (hi : AllianceInv guilds) (hg : guilds G = some g) (hh : guilds H = some h)
    (hmany : 4 ≤ g.relations 1) :
    ¬ AllianceSound (mapifParseGuildAlliance guilds ⟨G, H, 1⟩) := by
  have ht := hi.tables
  have hhid := (ht.id H h hh).2
  have hHne := ht.id_ne hh
  rw [mapifParse_eq ht hg hh, changeAlliance_add rfl, if_pos (by decide)]
  intro hsound
  have hle := hsound.oppositions G _ (changed_self hg)
  rw [allianceCount_eq fun i hne => ?_, relations_add _ ht hg (hhid ▸ hHne)] at hle
  · have ho : oppositionOf 1 = 1 := by decide
    rw [if_pos ho] at hle
    omega
  · obtain ⟨hid, -⟩ | hsame := entry_add 1 ht hg (k := h) i
    · rw [hid, hhid]
      exact (ht.id H h hh).1
    · rw [hsame] at hne ⊢
      exact entry_pos ht hg i hne

/-- **An alliance of a guild with itself, or with an ally**, is listed twice. -/
theorem not_sound_ally (hi : AllianceInv guilds) (hg : guilds G = some g) (hh : guilds H = some h)
    (hbad : G = H ∨ g.Lists H 0) : ¬ AllianceSound (mapifParseGuildAlliance guilds ⟨G, H, 0⟩) := by
  have ht := hi.tables
  have hgid := (ht.id G g hg).2
  have hhid := (ht.id H h hh).2
  have hHne := ht.id_ne hh
  rw [mapifParse_eq ht hg hh, changeAlliance_add rfl, changeAlliance_add rfl, if_neg (by decide)]
  intro hsound
  by_cases hne : G = H
  · subst hne
    rw [hg] at hh
    obtain rfl := Option.some.inj hh
    have hone := changed_self hg (f := addAlliance 0 g)
    have honce : (addAlliance 0 g (addAlliance 0 g g)).Once := hsound.once G _ (changed_self hone)
    have hlists : (addAlliance 0 g g).Lists G 0 := (lists_add ht hg hHne).mpr (.inr ⟨hgid, rfl⟩)
    have hnone := ((Ties.once_put (exists_free_add ht hg (hgid ▸ hHne)) (hgid ▸ hHne)).mp honce).2
    obtain ⟨j, hj, -⟩ := hlists
    exact hnone j (hj.trans hgid.symm)
  · have hG : changed (changed guilds G (addAlliance 0 h)) H (addAlliance 0 g) G =
        some (addAlliance 0 h g) := by
      rw [changed_of_ne hne, changed_self hg]
    have hnone := ((once_add ht hg (hhid ▸ hHne)).mp (hsound.once G _ hG)).2
    obtain ⟨j, hj, -⟩ := hbad.resolve_left hne
    exact hnone j (hj.trans hhid.symm)

end Tables

/-! ## Requests -/

section Requests

variable {guilds : Guilds} {G H : Int32} {g h : GuildRecord}

/-- The guilds of a request that is accepted. -/
theorem acceptedGuilds_spec {w : AllianceWorld} {sd tsd : AlliancePlayer} {flag : Int32}
    (hacc : acceptedGuilds w sd tsd flag = some (g, h)) :
    w.guilds sd.guildId = some g ∧ w.guilds tsd.guildId = some h ∧
      guildGetAllianceCount g 0 ≤ 3 ∧ guildGetAllianceCount h 0 ≤ 3 := by
  unfold acceptedGuilds at hacc
  split at hacc
  · cases hacc
  · split at hacc
    · rename_i g1 g2 hg1 hg2
      split at hacc
      · cases hacc
      · rename_i hfew
        obtain ⟨rfl, rfl⟩ := Prod.mk.inj (Option.some.inj hacc)
        exact ⟨hg1, hg2, by omega, by omega⟩
    · cases hacc

/-- What relations that have ended leave of a guild. -/
theorem Ended.guild {p q : Int32} {guilds' : Guilds} (he : Ended p guilds guilds')
    (hg : guilds G = some g) (hq : q ≠ p) :
    ∃ g', guilds' G = some g' ∧ g'.relations q = g.relations q ∧
      ∀ B, B ≠ 0 → (g'.Lists B q ↔ g.Lists B q) := by
  have hsome : (guilds' G).isSome := by
    rw [he.known, hg]
    rfl
  obtain ⟨g', hg'⟩ := Option.isSome_iff_exists.mp hsome
  refine ⟨g', hg', ?_, fun B hB => ?_⟩
  · rw [← relationsOf_eq hg', ← relationsOf_eq hg]
    exact he.few G q hq
  · rw [← listedBy_iff hg', ← listedBy_iff hg]
    exact ⟨he.left G B q hB, he.other G B q hB hq⟩

theorem mem_endOppositions {m : AllianceMessage} :
    m ∈ endOppositions g G H ↔ m = ⟨G, H, 9⟩ ∧ g.Lists H 1 := by
  unfold endOppositions GuildRecord.Lists Ties.Lists
  simp only [List.mem_map, List.mem_filter, List.mem_ofFn', decide_eq_true_eq]
  constructor
  · rintro ⟨a, ⟨⟨i, rfl⟩, hi⟩, rfl⟩
    exact ⟨rfl, i, hi⟩
  · rintro ⟨rfl, i, hi⟩
    exact ⟨g.alliance i, ⟨⟨i, rfl⟩, hi⟩, rfl⟩

/-- **A request that is accepted** makes an alliance just if the two guilds are different and not
allied yet. -/
theorem accepted_iff (hi : AllianceInv guilds) (hg : guilds G = some g) (hh : guilds H = some h)
    (hgfew : g.relations 0 ≤ 3) (hhfew : h.relations 0 ≤ 3) :
    let guilds' := (endOppositions g G H ++ (endOppositions h H G ++
      [(⟨G, H, 0⟩ : AllianceMessage)])).foldl mapifParseGuildAlliance guilds
    (G ≠ H ∧ ¬ g.Lists H 0 → AllianceInv guilds') ∧
      (AllianceSound guilds' → G ≠ H ∧ ¬ g.Lists H 0) := by
  have hGne := hi.tables.id_ne hg
  have hHne := hi.tables.id_ne hh
  have hends : ∀ m ∈ endOppositions g G H ++ endOppositions h H G,
      endBit m.flag = true ∧ oppositionOf m.flag = 1 := by
    intro m hm
    have h9 : endBit 9 = true ∧ oppositionOf 9 = 1 := by decide
    obtain hm | hm := List.mem_append.mp hm <;> obtain ⟨rfl, -⟩ := mem_endOppositions.mp hm <;>
      exact h9
  obtain ⟨hi', hended, hgone⟩ := inv_endAll hi hends
  have hsome : (guilds G).isSome ∧ (guilds H).isSome := by
    rw [hg, hh]
    exact ⟨rfl, rfl⟩
  obtain ⟨g', hg', hgrel, hglists⟩ := hended.guild (q := 0) hg (by decide)
  obtain ⟨h', hh', hhrel, -⟩ := hended.guild (q := 0) hh (by decide)
  -- No opposition is left between the two.
  have hg1 : ¬ g'.Lists H 1 := by
    rw [← listedBy_iff hg']
    intro hl
    have hl' := (listedBy_iff hg).mp (hended.left G H 1 hHne hl)
    exact hgone ⟨G, H, 9⟩ (List.mem_append_left _ (mem_endOppositions.mpr ⟨rfl, hl'⟩)) hsome.1
      hsome.2 hl
  have hh1 : ¬ h'.Lists G 1 := by
    rw [← listedBy_iff hh']
    intro hl
    have hl' := (listedBy_iff hh).mp (hended.left H G 1 hGne hl)
    exact hgone ⟨H, G, 9⟩ (List.mem_append_right _ (mem_endOppositions.mpr ⟨rfl, hl'⟩)) hsome.2
      hsome.1 hl
  dsimp only
  rw [← List.append_assoc, List.foldl_append]
  refine ⟨fun ⟨hne, hnot⟩ => ?_, fun hsound => ?_⟩
  · exact inv_ally hi' hg' hh' hne (by rwa [hglists H hHne]) hg1 hh1 (by rwa [hgrel])
      (by rwa [hhrel])
  · by_contra hbad
    refine not_sound_ally hi' hg' hh' ?_ hsound
    rw [hglists H hHne]
    by_cases hne : G = H
    · exact .inl hne
    · exact .inr (by_contra fun hnot => hbad ⟨hne, hnot⟩)

/-- The messages of a declaration: alliances that end, and then the opposition, if there is not one.
-/
theorem oppositionLoop_eq (G H : Int32) (as : List GuildAlliance) :
    ∃ ends : List AllianceMessage, (∀ m ∈ ends, m = ⟨G, H, 8⟩) ∧
      oppositionLoop G H as = ends ++
        (if ∃ a ∈ as, a.guildId = H ∧ a.opposition = 1 then [] else [⟨G, H, 1⟩]) ∧
      ((∃ a ∈ as, a.guildId = H) → (¬ ∃ a ∈ as, a.guildId = H ∧ a.opposition = 1) →
        ⟨G, H, 8⟩ ∈ ends) := by
  induction as with
  | nil => exact ⟨[], by simp, by simp [oppositionLoop], by simp⟩
  | cons a as ih =>
    obtain ⟨ends, hends, heq, hmem⟩ := ih
    rw [oppositionLoop]
    by_cases hid : a.guildId = H
    · rw [if_pos hid]
      by_cases hopp : a.opposition = 1
      · rw [if_pos hopp]
        exact ⟨[], by simp, by simp [hid, hopp],
          fun _ hnone => absurd ⟨a, by simp, hid, hopp⟩ hnone⟩
      · rw [if_neg hopp, heq]
        refine ⟨⟨G, H, 8⟩ :: ends, ?_, by simp [hopp], fun _ _ => List.mem_cons_self⟩
        intro m hm
        obtain rfl | hm := List.mem_cons.mp hm
        · rfl
        · exact hends m hm
    · rw [if_neg hid, heq]
      exact ⟨ends, hends, by simp [hid], by simpa [hid] using hmem⟩

/-- Messages about a guild that is not there do nothing. -/
theorem foldl_none {ms : List AllianceMessage} (hms : ∀ m ∈ ms, guilds m.guildId2 = none) :
    ms.foldl mapifParseGuildAlliance guilds = guilds := by
  induction ms with
  | nil => rfl
  | cons m ms ih =>
    rw [List.foldl_cons, mapifParse_none (.inr (hms m List.mem_cons_self))]
    exact ih fun m' hm' => hms m' (List.mem_cons_of_mem _ hm')

theorem mem_ofFn_alliance {P : GuildAlliance → Prop} :
    (∃ a ∈ List.ofFn g.alliance, P a) ↔ ∃ i, P (g.alliance i) := by
  constructor
  · rintro ⟨a, ha, hP⟩
    obtain ⟨i, rfl⟩ := (List.mem_ofFn' _ _).mp ha
    exact ⟨i, hP⟩
  · rintro ⟨i, hP⟩
    exact ⟨_, (List.mem_ofFn' _ _).mpr ⟨i, rfl⟩, hP⟩

/-- **An opposition that is declared** is one too many just if the guild has four. -/
theorem opposed_iff (hi : AllianceInv guilds) (hg : guilds G = some g) :
    let guilds' := (oppositionLoop G H (List.ofFn g.alliance)).foldl mapifParseGuildAlliance guilds
    let fine := (guilds H).isSome → ¬ g.Lists H 1 → guildGetAllianceCount g 1 ≤ 3
    (fine → AllianceInv guilds') ∧ (AllianceSound guilds' → fine) := by
  have ht := hi.tables
  have hcount := allianceCount_eq (entry_pos ht hg) 1
  obtain ⟨ends, hends, heq, hmem⟩ := oppositionLoop_eq G H (List.ofFn g.alliance)
  rw [mem_ofFn_alliance, mem_ofFn_alliance] at hmem
  simp only [mem_ofFn_alliance] at heq
  change oppositionLoop G H _ = ends ++ if g.Lists H 1 then [] else _ at heq
  dsimp only
  rw [heq]
  cases hh : guilds H with
  | none =>
    have hnone : (ends ++ if g.Lists H 1 then [] else [⟨G, H, 1⟩] : List AllianceMessage).foldl
        mapifParseGuildAlliance guilds = guilds := by
      refine foldl_none fun m hm => ?_
      obtain hm | hm := List.mem_append.mp hm
      · rw [hends m hm]
        exact hh
      · split at hm
        · cases hm
        · obtain rfl := List.mem_singleton.mp hm
          exact hh
    rw [hnone]
    exact ⟨fun _ => hi, fun _ => by simp⟩
  | some h =>
    have hHne := ht.id_ne hh
    have hsome : (guilds G).isSome ∧ (guilds H).isSome := by
      rw [hg, hh]
      exact ⟨rfl, rfl⟩
    obtain ⟨hi', hended, hgone⟩ := inv_endAll (p := 0) hi fun m hm => by
      have h8 : endBit 8 = true ∧ oppositionOf 8 = 0 := by decide
      rw [hends m hm]
      exact h8
    obtain ⟨g', hg', hgrel, hglists⟩ := hended.guild (q := 1) hg (by decide)
    obtain ⟨h', hh', -⟩ := hended.guild (q := 1) hh (by decide)
    rw [List.foldl_append]
    by_cases hl : g.Lists H 1
    · rw [if_pos hl]
      exact ⟨fun _ => hi', fun _ _ hnot => absurd hl hnot⟩
    · rw [if_neg hl]
      -- Every alliance with the other guild has ended.
      have hg0 : ¬ g'.Lists H 0 := by
        rw [← listedBy_iff hg']
        intro hl0
        obtain ⟨j, hj, -⟩ := (listedBy_iff hg).mp (hended.left G H 0 hHne hl0)
        exact hgone ⟨G, H, 8⟩ (hmem ⟨j, hj⟩ hl) hsome.1 hsome.2 hl0
      have hg1 : ¬ g'.Lists H 1 := by rwa [hglists H hHne]
      rw [hcount]
      refine ⟨fun hfine => ?_, fun hsound _ _ => ?_⟩
      · exact inv_oppose hi' hg' hh' hg0 hg1 (by rw [hgrel]; exact hfine rfl hl)
      · by_contra hmany
        exact not_sound_oppose hi' hg' hh' (by rw [hgrel]; omega) hsound

end Requests

/-! ## Runs -/

section Run

variable {w : AllianceWorld} {guilds : Guilds} {G : Int32} {g : GuildRecord}

/-- **A new guild** has no relations, and none has one with it. -/
theorem inv_create (hi : AllianceInv guilds) {q : GuildRecord} (hG : 0 < G)
    (hnone : guilds G = none) (hid : q.guildId = G) (hq : ∀ i, q.alliance i = {}) :
    AllianceInv (Function.update guilds G (some q)) := by
  have ht := hi.tables
  have hempty (B p : Int32) (hB : B ≠ 0) : ¬ q.Lists B p := by
    rintro ⟨i, hi, -⟩
    rw [hq i] at hi
    exact hB hi.symm
  have hfree (p : Int32) : q.relations p = 0 := by
    unfold GuildRecord.relations Ties.count Slots.card
    rw [Finset.card_eq_zero, Finset.filter_eq_empty_iff]
    intro i _
    rw [hq i, Ties.isTie_free (by rfl)]
    exact Bool.false_ne_true
  have hcases (A : Int32) (a : GuildRecord) (ha : Function.update guilds G (some q) A = some a) :
      A = G ∧ a = q ∨ A ≠ G ∧ guilds A = some a := by
    rcases eq_or_ne A G with rfl | hne
    · rw [Function.update_self] at ha
      exact .inl ⟨rfl, (Option.some.inj ha).symm⟩
    · rw [Function.update_of_ne hne] at ha
      exact .inr ⟨hne, ha⟩
  have hknown (A : Int32) (hA : (guilds A).isSome) :
      (Function.update guilds G (some q) A).isSome := by
    rcases eq_or_ne A G with rfl | hne
    · rw [Function.update_self]
      rfl
    · rwa [Function.update_of_ne hne]
  refine ⟨⟨fun A a ha => ?_, fun A a ha i hi => ?_, fun A a ha => ?_, fun A a ha => ?_⟩,
    fun A B hB hl => ?_⟩
  · obtain ⟨rfl, rfl⟩ | ⟨-, ha⟩ := hcases A a ha
    · exact ⟨hG, hid⟩
    · exact ht.id A a ha
  · obtain ⟨rfl, rfl⟩ | ⟨-, ha⟩ := hcases A a ha
    · rw [hq i] at hi
      exact absurd rfl hi
    · exact (ht.entry A a ha i hi).imp_left (hknown _)
  · obtain ⟨rfl, rfl⟩ | ⟨-, ha⟩ := hcases A a ha
    · intro i j hi
      rw [hq i] at hi
      exact absurd rfl hi
    · exact ht.once A a ha
  · obtain ⟨rfl, rfl⟩ | ⟨-, ha⟩ := hcases A a ha
    · rw [hfree, hfree]
      exact ⟨by omega, by omega⟩
    · exact ht.few A a ha
  · obtain ⟨a, ha, hl⟩ := hl
    obtain ⟨rfl, rfl⟩ | ⟨hA, ha⟩ := hcases A a ha
    · exact absurd hl (hempty B 0 hB)
    · obtain ⟨b, hb, hl'⟩ := hi.symm A B hB ⟨a, ha, hl⟩
      refine ⟨b, ?_, hl'⟩
      rw [Function.update_of_ne ?_]
      · exact hb
      · rintro rfl
        rw [hnone] at hb
        cases hb

/-- The relations of a guild without those with a guild that is broken. -/
theorem guildBreakSub_spec (K : Int32) (g : GuildRecord) :
    (guildBreakSub K g).guildId = g.guildId ∧
      ∀ i, (guildBreakSub K g).alliance i = g.alliance i ∧ (g.alliance i).guildId ≠ K ∨
        ((guildBreakSub K g).alliance i).guildId = 0 ∧ (g.alliance i).guildId = K := by
  refine ⟨rfl, fun i => ?_⟩
  unfold guildBreakSub
  dsimp only
  split
  · rename_i hK
    exact .inr ⟨rfl, hK⟩
  · rename_i hK
    exact .inl ⟨rfl, hK⟩

/-- **A guild that is broken** is listed nowhere. -/
theorem inv_break (hi : AllianceInv guilds) (K : Int32) :
    AllianceInv (mapifParseBreakGuild guilds K) := by
  unfold mapifParseBreakGuild
  split
  · exact hi
  · have ht := hi.tables
    have hcases (A : Int32) (a : GuildRecord)
        (ha : (if A = K then none else (guilds A).map (guildBreakSub K)) = some a) :
        A ≠ K ∧ ∃ g, guilds A = some g ∧ guildBreakSub K g = a := by
      split at ha
      · cases ha
      · rename_i hA
        exact ⟨hA, Option.map_eq_some_iff.mp ha⟩
    have hlists (g : GuildRecord) (B p : Int32) (hB : B ≠ 0) :
        (guildBreakSub K g).Lists B p ↔ g.Lists B p ∧ B ≠ K := by
      constructor
      · rintro ⟨i, hid, hkind⟩
        obtain ⟨heq, hK⟩ | ⟨hzero, -⟩ := (guildBreakSub_spec K g).2 i
        · rw [heq] at hid hkind
          exact ⟨⟨i, hid, hkind⟩, hid ▸ hK⟩
        · exact absurd (hid.symm.trans hzero) hB
      · rintro ⟨⟨i, hid, hkind⟩, hK⟩
        obtain ⟨heq, -⟩ | ⟨-, hsame⟩ := (guildBreakSub_spec K g).2 i
        · exact ⟨i, by rw [heq]; exact ⟨hid, hkind⟩⟩
        · exact absurd (hid.symm.trans hsame) hK
    have hkept (g : GuildRecord) (i : Fin maxGuildAlliance)
        (hne : ((guildBreakSub K g).alliance i).guildId ≠ 0) :
        (guildBreakSub K g).alliance i = g.alliance i ∧ (g.alliance i).guildId ≠ K :=
      ((guildBreakSub_spec K g).2 i).resolve_right fun h' => hne h'.1
    have hfew (g : GuildRecord) (p : Int32) : (guildBreakSub K g).relations p ≤ g.relations p := by
      unfold GuildRecord.relations Ties.count Slots.card
      refine Finset.card_le_card fun i hi => ?_
      rw [Finset.mem_filter, Ties.isTie_iff] at hi ⊢
      obtain ⟨heq, -⟩ := hkept g i hi.2.1
      rw [heq] at hi
      exact hi
    refine ⟨⟨fun A a ha => ?_, fun A a ha i hi => ?_, fun A a ha => ?_, fun A a ha => ?_⟩,
      fun A B hB hl => ?_⟩
    · obtain ⟨-, g, hg, rfl⟩ := hcases A a ha
      exact ht.id A g hg
    · obtain ⟨-, g, hg, rfl⟩ := hcases A a ha
      obtain ⟨heq, hK⟩ := hkept g i hi
      rw [heq] at hi ⊢
      rw [if_neg hK, Option.isSome_map]
      exact ht.entry A g hg i hi
    · obtain ⟨-, g, hg, rfl⟩ := hcases A a ha
      intro i j hi hij
      obtain ⟨heq, -⟩ := hkept g i hi
      obtain ⟨heq', -⟩ := hkept g j (hij ▸ hi)
      rw [heq] at hi hij
      rw [heq'] at hij
      exact ht.once A g hg i j hi hij
    · obtain ⟨-, g, hg, rfl⟩ := hcases A a ha
      have hle := ht.few A g hg
      exact ⟨(hfew g 0).trans hle.1, (hfew g 1).trans hle.2⟩
    · obtain ⟨a, ha, hl⟩ := hl
      obtain ⟨hA, g, hg, rfl⟩ := hcases A a ha
      obtain ⟨hl, hBK⟩ := (hlists g B 0 hB).mp hl
      obtain ⟨b, hb, hl'⟩ := hi.symm A B hB ⟨g, hg, hl⟩
      refine ⟨guildBreakSub K b, ?_, (hlists b A 0 (ht.id_ne hg)).mpr ⟨hl', hA⟩⟩
      dsimp only
      rw [if_neg hBK, hb]
      rfl

theorem guilds_withPlayer (accountId : Int32) (f : AlliancePlayer → AlliancePlayer) :
    (w.withPlayer accountId f).guilds = w.guilds := rfl

/-- **A fine step keeps the invariant, and one that is not is not sound.** -/
theorem alliance_step (hi : AllianceInv w.guilds) (e : AllianceEvent) :
    (AllianceFine w e → AllianceInv (allianceStep w e).guilds) ∧
      (AllianceSound (allianceStep w e).guilds → AllianceFine w e) := by
  have hsame {w' : AllianceWorld} (h : w'.guilds = w.guilds) : AllianceInv w'.guilds := h ▸ hi
  cases e with
  | create guildId name master =>
    refine ⟨fun _ => ?_, fun _ => trivial⟩
    unfold allianceStep
    dsimp only
    split
    · rename_i hnew
      exact inv_create hi hnew.1 hnew.2 rfl fun _ => rfl
    · exact hi
  | enters accountId guildId => exact ⟨fun _ => hi, fun _ => trivial⟩
  | leaves accountId => exact ⟨fun _ => hi, fun _ => trivial⟩
  | changes accountId guildId => exact ⟨fun _ => hi, fun _ => trivial⟩
  | agit flag => exact ⟨fun _ => hi, fun _ => trivial⟩
  | request accountId account2 =>
    refine ⟨fun _ => hsame ?_, fun _ => trivial⟩
    change (guildReqalliance w accountId account2).guilds = w.guilds
    unfold guildReqalliance
    repeat' split
    all_goals rfl
  | reply accountId account2 flag =>
    change (AllianceFine w _ →
        AllianceInv (guildReplyReqalliance w accountId account2 flag).guilds) ∧
      (AllianceSound (guildReplyReqalliance w accountId account2 flag).guilds → AllianceFine w _)
    unfold guildReplyReqalliance
    dsimp only [AllianceFine]
    cases hboth : w.both accountId account2 with
    | none => exact ⟨fun _ => hi, fun _ => trivial⟩
    | some players =>
      obtain ⟨sd, tsd⟩ := players
      dsimp only
      cases hacc : acceptedGuilds w sd tsd flag with
      | none =>
        refine ⟨fun _ => hsame ?_, fun _ => trivial⟩
        dsimp only
        split <;> rfl
      | some guilds =>
        obtain ⟨g1, g2⟩ := guilds
        obtain ⟨hg1, hg2, hfew1, hfew2⟩ := acceptedGuilds_spec hacc
        rw [allianceCount_eq (entry_pos hi.tables hg1)] at hfew1
        rw [allianceCount_eq (entry_pos hi.tables hg2)] at hfew2
        exact accepted_iff hi hg1 hg2 hfew1 hfew2
  | delete accountId guildId flag =>
    refine ⟨fun _ => ?_, fun _ => trivial⟩
    change AllianceInv (guildDelalliance w accountId guildId flag).guilds
    unfold guildDelalliance
    split
    · exact hi
    · split
      · exact hi
      · have hend : endBit (flag ||| 8) = true := by
          unfold endBit
          rw [BitVec.getLsbD_or]
          simp
        exact (inv_end hi _ guildId hend).1
  | oppose accountId account2 =>
    change (AllianceFine w _ → AllianceInv (guildOpposition w accountId account2).guilds) ∧
      (AllianceSound (guildOpposition w accountId account2).guilds → AllianceFine w _)
    unfold guildOpposition
    dsimp only [AllianceFine]
    cases hboth : w.both accountId account2 with
    | none => exact ⟨fun _ => hi, fun _ => trivial⟩
    | some players =>
      obtain ⟨sd, tsd⟩ := players
      dsimp only
      cases hg : w.guilds sd.guildId with
      | none => exact ⟨fun _ => hi, fun _ => trivial⟩
      | some g => exact opposed_iff hi hg
  | breakUp guildId => exact ⟨fun _ => inv_break hi guildId, fun _ => trivial⟩

theorem allianceInv_init : AllianceInv (fun _ => none) :=
  ⟨⟨by simp, by simp, by simp, by simp⟩, fun G H _ ⟨g, hg, _⟩ => by cases hg⟩

end Run

/-- **The relations between guilds are sound** throughout a run just if no request is accepted by a
guild of the other's or of an ally of it, and no opposition is declared by a guild that has four. -/
theorem alliance_sound_iff (es : List AllianceEvent) :
    Run.Meets allianceStep (fun w e => AllianceSound (allianceStep w e).guilds) {} es ↔
      Run.Meets allianceStep AllianceFine {} es :=
  Run.meets_iff_of_kept (I := fun w => AllianceInv w.guilds)
    (fun _ e hi hfine => (alliance_step hi e).1 hfine)
    (fun _ e hi => ⟨(alliance_step hi e).2, fun hfine => ((alliance_step hi e).1 hfine).sound⟩)
    allianceInv_init

/-- A guild and a player that is in it. -/
def guildWithPlayer (n : ℕ) : List AllianceEvent :=
  [.create (Int32.ofNat (10000 + n)) (cstr 24 "Guild") {},
    .enters (Int32.ofNat n) (Int32.ofNat (10000 + n))]

/-- **A guild has five oppositions** when one of its players declares them one after the other. -/
theorem alliance_unsound : ¬ ∀ es : List AllianceEvent,
    Run.Meets allianceStep (fun w e => AllianceSound (allianceStep w e).guilds) {} es := by
  intro h
  have hrun := h ((List.range 6).flatMap guildWithPlayer ++
    ([AllianceEvent.oppose 0 1, .oppose 0 2, .oppose 0 3, .oppose 0 4] ++
      [AllianceEvent.oppose 0 5]))
  rw [← List.append_assoc] at hrun
  obtain ⟨-, hlast, -⟩ := Run.meets_append.mp hrun
  have hfive : ((allianceStep (Run.exec allianceStep {} ((List.range 6).flatMap guildWithPlayer ++
      [AllianceEvent.oppose 0 1, .oppose 0 2, .oppose 0 3, .oppose 0 4]))
        (.oppose 0 5)).guilds 10000).any (fun g => 4 < guildGetAllianceCount g 1) = true := by
    decide +kernel
  obtain ⟨g, hg, hmany⟩ := (Option.any_eq_true _ _).mp hfive
  have hfew := hlast.oppositions 10000 g hg
  have hmany' := of_decide_eq_true hmany
  omega

end Nezumi
