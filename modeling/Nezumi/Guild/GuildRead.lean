import Nezumi.Guild.GuildText
import Mathlib.Tactic.IntervalCases
import Mathlib.Tactic.MkIffOfInductiveProp

/-!
# What a written guild reads as (`char/int_guild.c`)

* `Plain`: the texts of a guild have no tabs and no control characters.
* `Named`: the names that are written without a `#` are not blank.
* `sscanf_headText` to `fromstrSkills_text`: what each section reads as. Blanks in front of a text
  are lost, and so is every `#` at its end.
* `interGuildFromstr_tostr`: what the line of a named guild reads as.
-/

namespace Nezumi

open Decimal Scanf

/-- A text without the blanks at its front. -/
def stripped (s : List UInt8) : List UInt8 := s.dropWhile isSpace

/-- A name without the blanks at its front. -/
def trimmed {n : ℕ} (s : CStr n) : CStr n := CStr.ofField n (stripped s.bytes)

/-- A text as the `#` behind it and the blanks before it leave it. -/
def hashed (s : List UInt8) : List UInt8 := suppressHash (stripped (s ++ [35]))

section Texts

variable {f : List Directive} {r s : List UInt8} {n : ℕ}

theorem noSpace_printInts {z : ℤ} {zs : List ℤ} : NoSpace (printInts (z :: zs) ++ r) := by
  cases zs with
  | nil => exact noSpace_ofInt z
  | cons z' zs =>
    change NoSpace (ofInt z ++ 44 :: printInts (z' :: zs) ++ r)
    rw [List.append_assoc]
    exact noSpace_ofInt z

theorem tab_notMem_ofInt {z : ℤ} : (9 : UInt8) ∉ ofInt z := notMem_ofInt rfl (by decide)

theorem tab_notMem_printInts {zs : List ℤ} : (9 : UInt8) ∉ printInts zs :=
  notMem_printInts rfl (by decide) (by decide)

/-- A text with its `#` is never blank. -/
theorem stripped_hash_ne_nil (s : List UInt8) : stripped (s ++ [35]) ≠ [] := by
  unfold stripped
  rw [List.dropWhile_append]
  split
  · simp [isSpace]
  · simp

theorem getLast?_stripped_hash (s : List UInt8) : (stripped (s ++ [35])).getLast? = some 35 := by
  unfold stripped
  rw [List.dropWhile_append]
  split
  · simp [isSpace]
  · simp

theorem tab_notMem_hash (h : Printable s) : (9 : UInt8) ∉ s ++ [35] := by
  simp [tab_notMem h]

/-- **A text with a `#` reads back.** -/
theorem sscanf_hash (h : Printable s) :
    sscanf (.space :: .upto 9 :: f) (9 :: (s ++ 35 :: 9 :: r)) =
      (sscanf f (9 :: r)).add (.text (stripped (s ++ [35]))) := by
  have heq : s ++ 35 :: 9 :: r = (s ++ [35]) ++ 9 :: r := by simp
  rw [heq]
  exact sscanf_word rfl (stripped_hash_ne_nil s) (tab_notMem_hash h)

/-- **A name reads back**, if it is not blank. -/
theorem sscanf_name {t : CStr n} (hplain : Printable t.bytes) (hname : stripped t.bytes ≠ []) :
    sscanf (.space :: .upto 9 :: f) (9 :: (t.bytes ++ 9 :: r)) =
      (sscanf f (9 :: r)).add (.text (stripped t.bytes)) :=
  sscanf_word rfl hname (tab_notMem hplain)

theorem noSpace_of_trimmed {t : CStr n} (h : trimmed t = t) : NoSpace t.bytes := by
  have hbytes : (stripped t.bytes) = t.bytes := by
    have hle : (stripped t.bytes).length ≤ n :=
      (List.dropWhile_sublist _).length_le.trans t.le
    have hne : ∀ c ∈ stripped t.bytes, (decide (c ≠ 0)) = true := fun c hc => by
      simpa using t.ne c ((List.dropWhile_suffix _).subset hc)
    have h' := congrArg CStr.bytes h
    rwa [trimmed, CStr.bytes_ofField, List.take_of_length_le hle,
      List.takeWhile_eq_self_iff.mpr hne] at h'
  rw [← hbytes]
  exact noSpace_dropWhile _

theorem trimmed_of_noSpace {t : CStr n} (h : NoSpace t.bytes) : trimmed t = t := by
  rw [trimmed, stripped, h.dropWhile, CStr.ofField_self]

/-- A name that does not start with a blank is all of its stripped. -/
theorem trimmed_eq_iff {t : CStr n} : trimmed t = t ↔ NoSpace t.bytes :=
  ⟨noSpace_of_trimmed, trimmed_of_noSpace⟩

end Texts

/-! ## Sections -/

/-- A member as it reads back. -/
def GuildMemberRecord.reread (m : GuildMemberRecord) : GuildMemberRecord :=
  { m with position := clampPosition (Int32.ofInt m.position.toInt), name := trimmed m.name }

/-- A position as it reads back. -/
def GuildPosition.reread (i : ℕ) (p : GuildPosition) : GuildPosition :=
  { p with name := positionName i (stripped (p.name.bytes ++ [35])) }

def GuildAlliance.reread (a : GuildAlliance) : GuildAlliance := { a with name := trimmed a.name }

def GuildExplusion.reread (e : GuildExplusion) : GuildExplusion :=
  { e with
    name := trimmed e.name
    acc := CStr.ofField 40 (CStr.ofField 24 (stripped e.acc.bytes)).bytes
    mes := CStr.ofField 40 (hashed e.mes.bytes) }

namespace GuildRecord

/-- The texts have no tabs and no control characters. -/
@[mk_iff]
structure Plain (g : GuildRecord) : Prop where
  name : Printable g.name.bytes
  master : Printable g.master.bytes
  mes1 : Printable g.mes1.bytes
  mes2 : Printable g.mes2.bytes
  member : ∀ i, Printable (g.member i).name.bytes
  position : ∀ i, Printable (g.position i).name.bytes
  alliance : ∀ i, Printable (g.alliance i).name.bytes
  explusion : ∀ i, Printable (g.explusion i).name.bytes ∧ Printable (g.explusion i).acc.bytes ∧
    Printable (g.explusion i).mes.bytes

/-- The names that are saved without a `#` are not blank. -/
structure Named (g : GuildRecord) : Prop where
  name : stripped g.name.bytes ≠ []
  master : stripped g.master.bytes ≠ []
  member : ∀ m ∈ g.savedMembers, stripped m.name.bytes ≠ []
  alliance : ∀ a ∈ g.savedAlliances, stripped a.name.bytes ≠ []
  explusion : ∀ e ∈ g.savedExplusions, stripped e.name.bytes ≠ [] ∧ stripped e.acc.bytes ≠ []

/-- What the first section reads as. -/
def rereadHead (guildExtensionBonus : Int) (g : GuildRecord) : GuildRecord where
  guildId := g.guildId
  guildLv := g.guildLv
  maxMember := clampMembers guildExtensionBonus g.maxMember
  exp := g.exp
  skillPoint := g.skillPoint
  name := trimmed g.name
  master := trimmed g.master
  mes1 := CStr.ofField 60 (hashed g.mes1.bytes)
  mes2 := CStr.ofField 120 (hashed g.mes2.bytes)

/-- The members that are not beyond the last place. -/
def keptMembers (guildExtensionBonus : Int) (g : GuildRecord) : List GuildMemberRecord :=
  (g.savedMembers.map GuildMemberRecord.reread).take
    (clampMembers guildExtensionBonus g.maxMember).toInt.toNat

/-- What a whole line reads as. -/
def reread (guildExtensionBonus : Int) (g : GuildRecord) : GuildRecord :=
  { g.rereadHead guildExtensionBonus with
    skillPoint :=
      leftPoints g.guildLv g.skillPoint ((List.ofFn g.skill).countP fun s => 0 < s.lv)
    member := Slots.fill (fun _ => {}) 0 (g.keptMembers guildExtensionBonus)
    position := fun i => (g.position i).reread i
    emblemLen := g.emblemLen
    emblemId := g.emblemId
    emblemData := fun i => if i.val < g.emblemLen.toInt then g.emblemData i else 0
    alliance := Slots.fill (fun _ => {}) 0 (g.savedAlliances.map GuildAlliance.reread)
    explusion := Slots.fill (fun _ => {}) 0 (g.savedExplusions.map GuildExplusion.reread)
    skill := g.skill }

end GuildRecord

section Reread

variable {bonus : Int} {g : GuildRecord}

theorem reread_member : (g.reread bonus).member =
    Slots.fill (fun _ => {}) 0 (g.keptMembers bonus) := rfl

theorem reread_position : (g.reread bonus).position = fun i => (g.position i).reread i := rfl

theorem reread_alliance : (g.reread bonus).alliance =
    Slots.fill (fun _ => {}) 0 (g.savedAlliances.map GuildAlliance.reread) := rfl

theorem reread_explusion : (g.reread bonus).explusion =
    Slots.fill (fun _ => {}) 0 (g.savedExplusions.map GuildExplusion.reread) := rfl

theorem reread_emblemData : (g.reread bonus).emblemData =
    fun i => if i.val < g.emblemLen.toInt then g.emblemData i else 0 := rfl

end Reread

section Sections

variable {bonus : Int} {g : GuildRecord} {r : List UInt8} {n : ℕ}

theorem isInt_short (x : Int16) : IsInt x.toInt := by
  have h := toInt16_bounds x
  constructor <;> omega

/-- **The head of a line reads back.** -/
theorem fromstrHead_text (hplain : g.Plain) (hnamed : g.Named) (hr : NoSpace r) :
    fromstrHead bonus (g.headText ++ r) =
      some (g.rereadHead bonus, r, hashed g.mes1.bytes) := by
  have hints : ∀ z ∈ [g.guildLv.toInt, g.maxMember.toInt, g.exp.toInt, g.skillPoint.toInt, -1],
      IsInt z := by
    simp only [List.mem_cons, List.not_mem_nil, or_false, forall_eq_or_imp, forall_eq]
    exact ⟨isInt_short _, isInt_short _, isInt_toInt _, isInt_short _, by decide⟩
  have hscan : sscanf guildFormat (g.headText ++ r) =
      ([.int g.guildId, .text (stripped g.name.bytes), .text (stripped g.master.bytes),
        .int (Int32.ofInt g.guildLv.toInt), .int (Int32.ofInt g.maxMember.toInt), .int g.exp,
        .int (Int32.ofInt g.skillPoint.toInt), .int (-1), .text (stripped (g.mes1.bytes ++ [35])),
        .text (stripped (g.mes2.bytes ++ [35]))], some r) := by
    unfold GuildRecord.headText guildFormat
    simp only [List.append_assoc, List.cons_append, List.nil_append]
    rw [sscanf_int (isInt_toInt _) (noDigit_cons.mpr rfl), sscanf_name hplain.name hnamed.name,
      sscanf_name hplain.master hnamed.master, sscanf_space rfl noSpace_printInts]
    have hnums := sscanf_ints (f := [.space, .upto 9, .space, .upto 9, .space]) hints
      (r := 9 :: (g.mes1.bytes ++ 35 :: 9 :: (g.mes2.bytes ++ 35 :: 9 :: r))) (noDigit_cons.mpr rfl)
    rw [sscanf_hash hplain.mes1, sscanf_hash hplain.mes2, sscanf_space rfl hr, sscanf_nil] at hnums
    change sscanf (ints 5 ++ [Directive.space, .upto 9, .space, .upto 9, .space]) _ = _ at hnums
    rw [hnums]
    simp [Result.add]
  unfold fromstrHead
  rw [hscan]
  dsimp only
  rw [Int32.toInt16_ofInt, Int32.toInt16_ofInt, Int32.toInt16_ofInt, Int16.ofInt_toInt,
    Int16.ofInt_toInt, Int16.ofInt_toInt]
  rfl

/-! ### Members -/

theorem isInt_memberInts (m : GuildMemberRecord) : ∀ z ∈ m.ints, IsInt z := by
  simp only [GuildMemberRecord.ints, List.mem_cons, List.not_mem_nil, or_false, forall_eq_or_imp,
    forall_eq]
  exact ⟨isInt_toInt _, isInt_toInt _, isInt_short _, isInt_short _, isInt_short _, isInt_short _,
    isInt_short _, isInt_toInt _, isInt_toInt _, isInt_short _⟩

theorem noSpace_memberText {m : GuildMemberRecord} : NoSpace (guildMemberText m ++ r) := by
  unfold guildMemberText
  rw [List.append_assoc]
  exact noSpace_printInts

theorem sscanf_guildMemberText {m : GuildMemberRecord} (hplain : Printable m.name.bytes)
    (hname : stripped m.name.bytes ≠ []) (hr : NoSpace r) :
    sscanf guildMemberFormat (guildMemberText m ++ r) =
      ((m.ints.map fun z => Value.int (Int32.ofInt z)) ++ [Value.text (stripped m.name.bytes)],
        some r) := by
  have hnums := sscanf_ints (f := [.space, .upto 9, .space]) (isInt_memberInts m)
    (r := 9 :: (m.name.bytes ++ 9 :: r)) (noDigit_cons.mpr rfl)
  rw [sscanf_name hplain hname, sscanf_space rfl hr, sscanf_nil] at hnums
  unfold guildMemberText
  simp only [List.append_assoc, List.cons_append, List.nil_append]
  exact hnums

/-- A loop that reads nothing more leaves the text. -/
theorem fromstrGuildMembers_stop {fuel i : ℕ} (h : (sscanf guildMemberFormat r).1.length ≠ 11) :
    fromstrGuildMembers fuel i r g = (g, r) := by
  cases fuel with
  | zero => rfl
  | succ fuel =>
    rw [fromstrGuildMembers]
    split
    · rename_i heq
      rw [heq] at h
      exact absurd rfl h
    · rfl

/-- **The members read back**, as many as there are places. -/
theorem fromstrGuildMembers_text {ms : List GuildMemberRecord} {fuel i : ℕ}
    (hms : ∀ m ∈ ms, m.used ∧ Printable m.name.bytes ∧ stripped m.name.bytes ≠ []) (hr : NoSpace r)
    (hstop : (sscanf guildMemberFormat r).1.length ≠ 11) (hfuel : ms.length ≤ fuel) :
    fromstrGuildMembers fuel i (ms.flatMap guildMemberText ++ r) g =
      ({ g with
        member := Slots.fill g.member i
          ((ms.map GuildMemberRecord.reread).take (g.maxMember.toInt - i).toNat) }, r) := by
  induction ms generalizing fuel i g with
  | nil => simp [fromstrGuildMembers_stop hstop]
  | cons m ms ih =>
    obtain ⟨hused, hplain, hname⟩ := hms m List.mem_cons_self
    obtain ⟨fuel, rfl⟩ : ∃ n, fuel = n + 1 :=
      ⟨fuel - 1, by rw [List.length_cons] at hfuel; omega⟩
    have hfuel' : ms.length ≤ fuel := by simpa using hfuel
    have hrest : NoSpace (ms.flatMap guildMemberText ++ r) := by
      cases ms with
      | nil => exact hr
      | cons m' ms =>
        rw [List.flatMap_cons, List.append_assoc]
        exact noSpace_memberText
    have hscan := sscanf_guildMemberText hplain hname hrest
    have hacc : 0 < Int32.ofInt m.accountId.toInt := by
      rw [Int32.ofInt_toInt]
      exact of_decide_eq_true hused
    rw [List.flatMap_cons, List.append_assoc, fromstrGuildMembers, hscan]
    simp only [GuildMemberRecord.ints, List.map_cons, List.map_nil, List.cons_append,
      List.nil_append]
    by_cases hi : (i : ℤ) < g.maxMember.toInt
    · obtain ⟨k, hk⟩ : ∃ k, (g.maxMember.toInt - i).toNat = k + 1 :=
        ⟨(g.maxMember.toInt - i).toNat - 1, by omega⟩
      have hk' : (g.maxMember.toInt - (i + 1 : ℕ)).toNat = k := by omega
      rw [if_pos ⟨hi, hacc⟩, ih (fun m' hm' => hms m' (List.mem_cons_of_mem _ hm')) hfuel']
      dsimp only
      rw [hk, hk', List.take_succ_cons, ← Slots.fill_putAt]
      simp only [Int32.toInt16_ofInt, Int16.ofInt_toInt, Int32.ofInt_toInt]
      rfl
    · have hzero : (g.maxMember.toInt - i).toNat = 0 := by omega
      rw [if_neg fun h => hi h.1, ih (fun m' hm' => hms m' (List.mem_cons_of_mem _ hm')) hfuel',
        hzero]
      simp

/-! ### Positions -/

theorem noSpace_positionText {p : GuildPosition} : NoSpace (guildPositionText p ++ r) := by
  unfold guildPositionText
  rw [List.append_assoc]
  exact noSpace_printInts

theorem isInt_pair (x y : Int32) : ∀ z ∈ [x.toInt, y.toInt], IsInt z := by
  simp only [List.mem_cons, List.not_mem_nil, or_false, forall_eq_or_imp, forall_eq]
  exact ⟨isInt_toInt _, isInt_toInt _⟩

theorem sscanf_guildPositionText {p : GuildPosition} (hplain : Printable p.name.bytes)
    (hr : NoSpace r) :
    sscanf guildPositionFormat (guildPositionText p ++ r) =
      ([.int p.mode, .int p.expMode, .text (stripped (p.name.bytes ++ [35]))], some r) := by
  have hnums := sscanf_ints (f := [.space, .upto 9, .space]) (isInt_pair p.mode p.expMode)
    (r := 9 :: (p.name.bytes ++ 35 :: 9 :: r)) (noDigit_cons.mpr rfl)
  rw [sscanf_hash hplain, sscanf_space rfl hr, sscanf_nil] at hnums
  unfold guildPositionText
  simpa [guildPositionFormat, Result.add] using hnums

/-- The positions of a list as they read back from an index on. -/
def rereadPositions : ℕ → List GuildPosition → List GuildPosition
  | _, [] => []
  | i, p :: ps => p.reread i :: rereadPositions (i + 1) ps

/-- **The positions read back.** -/
theorem fromstrGuildPositions_text {ps : List GuildPosition} {fuel i : ℕ}
    (hps : ∀ p ∈ ps, Printable p.name.bytes) (hi : i + ps.length ≤ maxGuildPosition)
    (hr : NoSpace r) (hstop : ∀ vs e, sscanf guildPositionFormat r = (vs, e) →
      ∀ n, vs[2]? = some (.text n) → n.getLast? ≠ some 35) (hfuel : ps.length ≤ fuel) :
    fromstrGuildPositions fuel i (ps.flatMap guildPositionText ++ r) g =
      ({ g with position := Slots.fill g.position i (rereadPositions i ps) }, r) := by
  induction ps generalizing fuel i g with
  | nil =>
    rw [rereadPositions, Slots.fill_nil, List.flatMap_nil, List.nil_append]
    cases fuel with
    | zero => rfl
    | succ fuel =>
      rw [fromstrGuildPositions]
      split
      · rename_i name rest heq
        rw [if_neg (hstop _ _ heq name rfl)]
      · rfl
  | cons p ps ih =>
    obtain ⟨fuel, rfl⟩ : ∃ n, fuel = n + 1 :=
      ⟨fuel - 1, by rw [List.length_cons] at hfuel; omega⟩
    rw [List.length_cons] at hi hfuel
    have hrest : NoSpace (ps.flatMap guildPositionText ++ r) := by
      cases ps with
      | nil => exact hr
      | cons p' ps =>
        rw [List.flatMap_cons, List.append_assoc]
        exact noSpace_positionText
    rw [List.flatMap_cons, List.append_assoc, fromstrGuildPositions,
      sscanf_guildPositionText (hps p List.mem_cons_self) hrest]
    dsimp only
    rw [if_pos (getLast?_stripped_hash _), if_pos (by omega),
      ih (fun p' hp' => hps p' (List.mem_cons_of_mem _ hp')) (by omega) (by omega)]
    dsimp only
    rw [rereadPositions, ← Slots.fill_putAt]
    rfl

theorem rereadPositions_ofFn (t : Fin n → GuildPosition) (i : ℕ) :
    rereadPositions i (List.ofFn t) = List.ofFn fun j => (t j).reread (i + j.val) := by
  induction n generalizing i with
  | zero => rfl
  | succ n ih =>
    rw [List.ofFn_succ, List.ofFn_succ, rereadPositions, ih]
    simp [Nat.add_assoc, Nat.add_comm 1]

/-! ### The emblem -/

theorem hexDigit_lt {n : ℕ} (h : n < 16) :
    hexValue (hexDigit n) = n ∧ (9 : UInt8) ≠ hexDigit n := by
  interval_cases n <;> decide

theorem unhexByte_hexByte (b : UInt8) :
    unhexByte (hexDigit (b.toNat / 16)) (hexDigit (b.toNat % 16)) = b := by
  have hb := b.toNat_lt
  unfold unhexByte
  rw [(hexDigit_lt (by omega)).1, (hexDigit_lt (by omega)).1, Nat.div_add_mod]
  exact UInt8.ofNat_toNat

/-- The two digits of a byte of the emblem. -/
theorem hex_getElem? {bs : List UInt8} {i : ℕ} (h : i < bs.length) :
    (bs.flatMap hexByte ++ r)[2 * i]? = some (hexDigit (bs[i].toNat / 16)) ∧
      (bs.flatMap hexByte ++ r)[2 * i + 1]? = some (hexDigit (bs[i].toNat % 16)) := by
  induction bs generalizing i with
  | nil => simp at h
  | cons b bs ih =>
    rw [List.flatMap_cons, List.append_assoc]
    cases i with
    | zero => exact ⟨rfl, rfl⟩
    | succ i =>
      have h' : i < bs.length := by simpa using h
      exact ih h'

theorem tab_notMem_hex (bs : List UInt8) : (9 : UInt8) ∉ bs.flatMap hexByte ++ [36] := by
  simp only [List.mem_append, List.mem_flatMap, List.mem_singleton, not_or, not_exists, not_and]
  refine ⟨fun b _ hb => ?_, by decide⟩
  have hlt := b.toNat_lt
  simp only [hexByte, List.mem_cons, List.not_mem_nil, or_false] at hb
  obtain hb | hb := hb
  · exact (hexDigit_lt (by omega)).2 hb
  · exact (hexDigit_lt (by omega)).2 hb

/-- **The emblem reads back.** -/
theorem fromstrEmblem_text {q : GuildRecord} (hr : NoSpace r) :
    fromstrEmblem (g.emblemText ++ r) q =
      some ({ q with
        emblemLen := g.emblemLen
        emblemId := g.emblemId
        emblemData := fun i => if i.val < g.emblemLen.toInt then g.emblemData i else 0 }, r) := by
  have hints : ∀ z ∈ [g.emblemLen.toInt, g.emblemId.toInt], IsInt z := by
    simp only [List.mem_cons, List.not_mem_nil, or_false, forall_eq_or_imp, forall_eq]
    exact ⟨isInt_short _, isInt_toInt _⟩
  have hscan : sscanf emblemFormat (g.emblemText ++ r) =
      ([.int (Int32.ofInt g.emblemLen.toInt), .int g.emblemId,
        .text (g.emblem.flatMap hexByte ++ [36])], some r) := by
    have hnums := sscanf_ints (f := [.lit 44, .upto 9, .space]) hints
      (r := 44 :: ((g.emblem.flatMap hexByte ++ [36]) ++ 9 :: r)) (noDigit_cons.mpr rfl)
    rw [sscanf_lit, sscanf_upto (by simp) (tab_notMem_hex _), sscanf_space rfl hr, sscanf_nil]
      at hnums
    unfold GuildRecord.emblemText
    simpa [emblemFormat, Result.add] using hnums
  unfold fromstrEmblem
  rw [hscan]
  dsimp only
  rw [Int32.toInt16_ofInt, Int16.ofInt_toInt]
  congr 3
  funext i
  split
  · rename_i hi
    have hi' : i.val < g.emblem.length := by
      have hlt := i.isLt
      simp only [GuildRecord.emblem, List.length_take, List.length_ofFn]
      omega
    obtain ⟨h1, h2⟩ := hex_getElem? (r := [36]) hi'
    rw [h1, h2]
    simp only [Option.getD_some, unhexByte_hexByte, GuildRecord.emblem, List.getElem_take,
      List.getElem_ofFn]
  · rfl

/-! ### Counted sections -/

theorem fromstrCount_text {k : ℕ} (hk : k < 2 ^ 31) :
    fromstrCount (ofInt k ++ 9 :: r) = some (Int32.ofInt k) := by
  unfold fromstrCount
  rw [sscanf_int ⟨by omega, by omega⟩ (noDigit_cons.mpr rfl)]
  rfl

theorem toNat_count {k : ℕ} (hk : k < 2 ^ 31) : (Int32.ofInt k).toInt.toNat = k := by
  rw [Int32.toInt_ofInt_of_le (by omega) (by omega)]
  rfl

theorem next_ofInt {z : ℤ} : next 9 (some (ofInt z ++ 9 :: r)) = some (9 :: r) :=
  next_append (ofInt_ne_nil z) fun h => tab_notMem_ofInt (List.mem_of_mem_tail h)

theorem next_printInts {b : UInt8} {zs : List ℤ} :
    next 9 (some (b :: (printInts zs ++ 9 :: r))) = some (9 :: r) := next_cons tab_notMem_printInts

theorem sscanf_guildAllianceText {a : GuildAlliance} (hplain : Printable a.name.bytes)
    (hname : stripped a.name.bytes ≠ []) :
    ∃ e, sscanf guildPositionFormat (guildAllianceText a ++ r) =
      ([.int a.guildId, .int a.opposition, .text (stripped a.name.bytes)], e) := by
  have hnums := sscanf_ints (f := [.space, .upto 9, .space]) (isInt_pair a.guildId a.opposition)
    (r := 9 :: (a.name.bytes ++ 9 :: r)) (noDigit_cons.mpr rfl)
  rw [sscanf_name hplain hname, sscanf_skip] at hnums
  unfold guildAllianceText
  exact ⟨_, by simpa [guildPositionFormat, Result.add] using hnums⟩

theorem next_allianceText {a : GuildAlliance} (hplain : Printable a.name.bytes) :
    next 9 (next 9 (some (9 :: (guildAllianceText a ++ r)))) = some (9 :: r) := by
  unfold guildAllianceText
  simp only [List.append_assoc, List.cons_append, List.nil_append]
  rw [next_printInts, next_cons (tab_notMem hplain)]

/-- **The alliances read back.** -/
theorem fromstrAlliances_text {as : List GuildAlliance} {i : ℕ}
    (has : ∀ a ∈ as, Printable a.name.bytes ∧ stripped a.name.bytes ≠ []) :
    fromstrAlliances as.length i (some (9 :: (as.flatMap guildAllianceText ++ r))) g =
      some ({ g with alliance := Slots.fill g.alliance i (as.map GuildAlliance.reread) },
        some (9 :: r)) := by
  induction as generalizing i g with
  | nil => simp [fromstrAlliances]
  | cons a as ih =>
    obtain ⟨hplain, hname⟩ := has a List.mem_cons_self
    obtain ⟨e, he⟩ := sscanf_guildAllianceText (r := as.flatMap guildAllianceText ++ r) hplain hname
    rw [List.flatMap_cons, List.append_assoc, List.length_cons, fromstrAlliances, List.tail_cons,
      he]
    dsimp only
    rw [next_allianceText hplain, ih fun a' ha' => has a' (List.mem_cons_of_mem _ ha')]
    dsimp only
    rw [List.map_cons, ← Slots.fill_putAt]
    rfl

theorem sscanf_guildExplusionText {e : GuildExplusion} (hplain : Printable e.name.bytes ∧
    Printable e.acc.bytes ∧ Printable e.mes.bytes) (hname : stripped e.name.bytes ≠ [])
    (hacc : stripped e.acc.bytes ≠ []) :
    ∃ rest, sscanf guildExplusionFormat (guildExplusionText e ++ r) =
      ([.int e.accountId, .int e.rsv1, .int e.rsv2, .int e.rsv3, .text (stripped e.name.bytes),
        .text (stripped e.acc.bytes), .text (stripped (e.mes.bytes ++ [35]))], rest) := by
  have hints : ∀ z ∈ [e.accountId.toInt, e.rsv1.toInt, e.rsv2.toInt, e.rsv3.toInt], IsInt z := by
    simp only [List.mem_cons, List.not_mem_nil, or_false, forall_eq_or_imp, forall_eq]
    exact ⟨isInt_toInt _, isInt_toInt _, isInt_toInt _, isInt_toInt _⟩
  have hnums := sscanf_ints (f := [.space, .upto 9, .space, .upto 9, .space, .upto 9, .space]) hints
    (r := 9 :: (e.name.bytes ++ 9 :: (e.acc.bytes ++ 9 :: (e.mes.bytes ++ 35 :: 9 :: r))))
    (noDigit_cons.mpr rfl)
  rw [sscanf_name hplain.1 hname, sscanf_name hplain.2.1 hacc, sscanf_hash hplain.2.2,
    sscanf_skip] at hnums
  unfold guildExplusionText
  exact ⟨_, by simpa [guildExplusionFormat, Result.add] using hnums⟩

theorem next_explusionText {e : GuildExplusion} (hplain : Printable e.name.bytes ∧
    Printable e.acc.bytes ∧ Printable e.mes.bytes) :
    next 9 (next 9 (next 9 (next 9 (some (9 :: (guildExplusionText e ++ r)))))) =
      some (9 :: r) := by
  have heq : e.mes.bytes ++ 35 :: 9 :: r = (e.mes.bytes ++ [35]) ++ 9 :: r := by simp
  unfold guildExplusionText
  simp only [List.append_assoc, List.cons_append, List.nil_append]
  rw [next_printInts, next_cons (tab_notMem hplain.1), next_cons (tab_notMem hplain.2.1),
    heq, next_cons (tab_notMem_hash hplain.2.2)]

theorem suppressHash_idem (s : List UInt8) : suppressHash (suppressHash s) = suppressHash s :=
  List.rdropWhile_idempotent ..

/-- **The expulsions read back**, whatever text the one before has left. -/
theorem fromstrExplusions_text {es : List GuildExplusion} {i : ℕ} {stale : List UInt8}
    (hes : ∀ e ∈ es, (Printable e.name.bytes ∧ Printable e.acc.bytes ∧ Printable e.mes.bytes) ∧
      stripped e.name.bytes ≠ [] ∧ stripped e.acc.bytes ≠ []) :
    fromstrExplusions es.length i stale (some (9 :: (es.flatMap guildExplusionText ++ r))) g =
      some ({ g with explusion := Slots.fill g.explusion i (es.map GuildExplusion.reread) },
        some (9 :: r)) := by
  induction es generalizing i g stale with
  | nil => simp [fromstrExplusions]
  | cons e es ih =>
    obtain ⟨hplain, hname, hacc⟩ := hes e List.mem_cons_self
    obtain ⟨rest, hrest⟩ :=
      sscanf_guildExplusionText (r := es.flatMap guildExplusionText ++ r) hplain hname hacc
    rw [List.flatMap_cons, List.append_assoc, List.length_cons, fromstrExplusions, List.tail_cons,
      hrest]
    dsimp only
    rw [next_explusionText hplain, ih fun e' he' => hes e' (List.mem_cons_of_mem _ he')]
    dsimp only
    rw [List.map_cons, ← Slots.fill_putAt]
    rfl

/-! ### Skills -/

theorem isInt_skill (s : GuildSkill) : ∀ z ∈ [s.id.toInt, s.lv.toInt], IsInt z := by
  simp only [List.mem_cons, List.not_mem_nil, or_false, forall_eq_or_imp, forall_eq]
  exact ⟨isInt_short _, isInt_short _⟩

theorem sscanf_guildSkillText {s : GuildSkill} :
    ∃ e, sscanf guildSkillFormat (guildSkillText s ++ r) =
      ([.int (Int32.ofInt s.id.toInt), .int (Int32.ofInt s.lv.toInt)], e) := by
  have hnums := sscanf_ints (f := [.space]) (isInt_skill s) (r := 32 :: r) (noDigit_cons.mpr rfl)
  unfold guildSkillText
  exact ⟨_, by simpa [guildSkillFormat, sscanf_cons_space] using hnums⟩

theorem next_skillText {b : UInt8} {s : GuildSkill} :
    next 32 (some (b :: (guildSkillText s ++ r))) = some (32 :: r) := by
  unfold guildSkillText
  rw [List.append_assoc]
  exact next_cons (notMem_printInts rfl (by decide) (by decide))

theorem ofInt_lv_pos {lv : Int16} : 0 < Int32.ofInt lv.toInt ↔ 0 < lv := by
  have h := toInt16_bounds lv
  rw [Int32.lt_iff_toInt_lt, Int16.lt_iff_toInt_lt,
    Int32.toInt_ofInt_of_le (by omega) (by omega)]
  rfl

/-- **The skills read back**, and are counted. -/
theorem fromstrSkills_text {ss : List GuildSkill} {i j : ℕ} {b : UInt8} :
    fromstrSkills ss.length i j (some (b :: (ss.flatMap guildSkillText ++ r))) g =
      some ({ g with skill := Slots.fill g.skill i ss }, j + ss.countP fun s => 0 < s.lv) := by
  induction ss generalizing i j g b with
  | nil => simp [fromstrSkills]
  | cons s ss ih =>
    obtain ⟨e, he⟩ := sscanf_guildSkillText (s := s) (r := ss.flatMap guildSkillText ++ r)
    rw [List.flatMap_cons, List.append_assoc, List.length_cons, fromstrSkills, List.tail_cons, he]
    dsimp only
    rw [next_skillText, ih]
    simp only [Int32.toInt16_ofInt, Int16.ofInt_toInt, ofInt_lv_pos, List.countP_cons,
      decide_eq_true_eq, ← Slots.fill_putAt]
    congr 2
    split <;> omega

end Sections

/-! ## The whole line -/

section Line

variable {bonus : Int} {g : GuildRecord} {r : List UInt8}

theorem noSpace_flatMap {α : Type} {text : α → List UInt8} {l : List α}
    (h : ∀ x r, NoSpace (text x ++ r)) (hr : NoSpace r) : NoSpace (l.flatMap text ++ r) := by
  cases l with
  | nil => exact hr
  | cons x l =>
    rw [List.flatMap_cons, List.append_assoc]
    exact h x _

/-- A position's text, read as a member, ends behind its second number. -/
theorem sscanf_member_pair {z z' : ℤ} (hz : IsInt z) (hz' : IsInt z') :
    (sscanf guildMemberFormat (printInts [z, z'] ++ 9 :: r)).1.length = 2 := by
  have hfmt : guildMemberFormat =
      .int :: .lit 44 :: .int :: .lit 44 :: (ints 8 ++ [Directive.space, .upto 9, .space]) := rfl
  change (sscanf guildMemberFormat (ofInt z ++ 44 :: ofInt z' ++ 9 :: r)).1.length = 2
  rw [hfmt, List.append_assoc, List.cons_append, sscanf_int hz (noDigit_cons.mpr rfl), sscanf_lit,
    sscanf_int hz' (noDigit_cons.mpr rfl), sscanf_cons_lit]
  rfl

/-- An emblem's text, read as a position, has no `#` at its end. -/
theorem sscanf_position_emblem {z z' : ℤ} {s : List UInt8} (hz : IsInt z) (hz' : IsInt z')
    (hs : (9 : UInt8) ∉ s) (hlast : s.getLast? = some 36) :
    ∀ vs e, sscanf guildPositionFormat (printInts [z, z'] ++ 44 :: (s ++ 9 :: r)) = (vs, e) →
      ∀ n, vs[2]? = some (.text n) → n.getLast? ≠ some 35 := by
  have hzs : ∀ x ∈ [z, z'], IsInt x := by simp [hz, hz']
  have hnums := sscanf_ints (f := [.space, .upto 9, .space]) hzs (r := 44 :: (s ++ 9 :: r))
    (noDigit_cons.mpr rfl)
  have hcomma : NoSpace (44 :: (s ++ 9 :: r)) := noSpace_cons.mpr rfl
  have htext : (9 : UInt8) ∉ 44 :: s := by simp [hs]
  have hupto : sscanf (.upto 9 :: [.space]) (44 :: s ++ 9 :: r) =
      (sscanf [.space] (9 :: r)).add (.text (44 :: s)) := sscanf_upto (by simp) htext
  rw [sscanf_cons_space, hcomma.dropWhile, ← List.cons_append, hupto] at hnums
  intro vs e hscan n hn
  change sscanf guildPositionFormat (printInts [z, z'] ++ 44 :: (s ++ 9 :: r)) = _ at hnums
  rw [hscan] at hnums
  obtain ⟨rfl, -⟩ := Prod.mk.inj hnums
  obtain rfl : 44 :: s = n := by simpa [Result.add] using hn
  cases s with
  | nil => simp at hlast
  | cons b s =>
    rw [List.getLast?_cons_cons, hlast]
    decide

/-- The sections behind the emblem. -/
def GuildRecord.listsText (g : GuildRecord) : List UInt8 :=
  countedText guildAllianceText g.savedAlliances ++
    (countedText guildExplusionText g.savedExplusions ++
      ((List.ofFn g.skill).flatMap guildSkillText ++ [9]))

/-- **The sections behind the emblem read back.** -/
theorem fromstrLists_text {q : GuildRecord} {stale : List UInt8} (hplain : g.Plain)
    (hnamed : g.Named) :
    fromstrLists stale g.listsText q =
      some ({ q with
        alliance := Slots.fill q.alliance 0 (g.savedAlliances.map GuildAlliance.reread)
        explusion := Slots.fill q.explusion 0 (g.savedExplusions.map GuildExplusion.reread)
        skill := g.skill
        skillPoint :=
          leftPoints q.guildLv q.skillPoint ((List.ofFn g.skill).countP fun s => 0 < s.lv) }) := by
  have halliances : ∀ a ∈ g.savedAlliances,
      Printable a.name.bytes ∧ stripped a.name.bytes ≠ [] := by
    intro a ha
    refine ⟨?_, hnamed.alliance a ha⟩
    obtain ⟨i, rfl⟩ := (List.mem_ofFn' _ _).mp (List.mem_filter.mp ha).1
    exact hplain.alliance i
  have hexplusions : ∀ e ∈ g.savedExplusions, (Printable e.name.bytes ∧ Printable e.acc.bytes ∧
      Printable e.mes.bytes) ∧ stripped e.name.bytes ≠ [] ∧ stripped e.acc.bytes ≠ [] := by
    intro e he
    refine ⟨?_, hnamed.explusion e he⟩
    obtain ⟨i, rfl⟩ := (List.mem_ofFn' _ _).mp (List.mem_filter.mp he).1
    exact hplain.explusion i
  have hca : g.savedAlliances.length < 2 ^ 31 :=
    (length_saved_le g.alliance _).trans_lt (by decide)
  have hce : g.savedExplusions.length < 2 ^ 31 :=
    (length_saved_le g.explusion _).trans_lt (by decide)
  have hskills (q' : GuildRecord) :
      fromstrSkills maxGuildSkill 0 0
          (some (9 :: ((List.ofFn g.skill).flatMap guildSkillText ++ [9]))) q' =
        some ({ q' with skill := g.skill }, (List.ofFn g.skill).countP fun s => 0 < s.lv) := by
    have h : fromstrSkills (List.ofFn g.skill).length 0 0
        (some (9 :: ((List.ofFn g.skill).flatMap guildSkillText ++ [9]))) q' = _ :=
      fromstrSkills_text
    rwa [List.length_ofFn, Slots.fill_ofFn, Nat.zero_add] at h
  unfold fromstrLists GuildRecord.listsText countedText
  simp only [Option.bind_eq_bind, Option.pure_def, List.append_assoc, List.cons_append]
  rw [fromstrCount_text hca, Option.bind_some, toNat_count hca, next_ofInt,
    fromstrAlliances_text halliances, Option.bind_some, Option.bind_some, List.tail_cons,
    fromstrCount_text hce, Option.bind_some, toNat_count hce, next_cons tab_notMem_ofInt,
    fromstrExplusions_text hexplusions, Option.bind_some]
  dsimp only
  rw [hskills, Option.bind_some]

/-- **What the line of a named guild reads as.** -/
theorem interGuildFromstr_tostr (hplain : g.Plain) (hnamed : g.Named) :
    interGuildFromstr bonus (interGuildTostr g) = some (g.reread bonus) := by
  have hmembers : ∀ m ∈ g.savedMembers,
      m.used ∧ Printable m.name.bytes ∧ stripped m.name.bytes ≠ [] := by
    intro m hm
    refine ⟨(List.mem_filter.mp hm).2, ?_, hnamed.member m hm⟩
    obtain ⟨i, -, rfl⟩ := List.mem_map.mp (List.mem_filter.mp hm).1
    exact hplain.member i
  have hpositions : ∀ p ∈ List.ofFn g.position, Printable p.name.bytes := by
    intro p hp
    obtain ⟨i, rfl⟩ := (List.mem_ofFn' _ _).mp hp
    exact hplain.position i
  -- The text from each section on.
  obtain ⟨emblem, hemblem⟩ : ∃ t, t = g.emblemText ++ g.listsText := ⟨_, rfl⟩
  obtain ⟨positions, hpos⟩ : ∃ t, t = (List.ofFn g.position).flatMap guildPositionText ++ emblem :=
    ⟨_, rfl⟩
  have hline : interGuildTostr g =
      g.headText ++ (g.savedMembers.flatMap guildMemberText ++ positions) := by
    rw [hpos, hemblem]
    rfl
  have hlists : NoSpace g.listsText := by
    rw [GuildRecord.listsText, countedText, List.append_assoc]
    exact noSpace_ofInt _
  have hsp_emblem : NoSpace emblem := by
    rw [hemblem, GuildRecord.emblemText, List.append_assoc]
    exact noSpace_printInts
  have hsp_pos : NoSpace positions := by
    rw [hpos]
    exact noSpace_flatMap (fun _ _ => noSpace_positionText) hsp_emblem
  have hstop_mem : (sscanf guildMemberFormat positions).1.length ≠ 11 := by
    have hne : List.ofFn g.position ≠ [] := fun h => by
      have hlen := congrArg List.length h
      rw [List.length_ofFn] at hlen
      exact absurd hlen (by decide)
    obtain ⟨p, ps, hps⟩ := List.exists_cons_of_ne_nil hne
    rw [hpos, hps, List.flatMap_cons, guildPositionText, List.append_assoc, List.append_assoc,
      List.cons_append, sscanf_member_pair (isInt_toInt _) (isInt_toInt _)]
    decide
  have hstop_pos : ∀ vs e, sscanf guildPositionFormat emblem = (vs, e) →
      ∀ n, vs[2]? = some (.text n) → n.getLast? ≠ some 35 := by
    have heq : emblem = printInts [g.emblemLen.toInt, g.emblemId.toInt] ++
        44 :: ((g.emblem.flatMap hexByte ++ [36]) ++ 9 :: g.listsText) := by
      rw [hemblem, GuildRecord.emblemText]
      simp
    rw [heq]
    exact sscanf_position_emblem (isInt_short _) (isInt_toInt _) (tab_notMem_hex _) (by simp)
  unfold interGuildFromstr
  rw [hline, fromstrHead_text hplain hnamed
    (noSpace_flatMap (fun _ _ => noSpace_memberText) hsp_pos)]
  simp only [Option.bind_eq_bind, Option.bind_some]
  rw [fromstrGuildMembers_text hmembers hsp_pos hstop_mem
    (length_le_flatMap _ fun m _ => by simp [guildMemberText])]
  dsimp only
  rw [hpos, fromstrGuildPositions_text hpositions (by simp) hsp_emblem hstop_pos
    (length_le_flatMap _ fun p _ => by simp [guildPositionText]), rereadPositions_ofFn]
  dsimp only
  rw [hemblem, fromstrEmblem_text hlists, Option.bind_some]
  dsimp only
  rw [fromstrLists_text hplain hnamed]
  simp [GuildRecord.reread, GuildRecord.rereadHead, GuildRecord.keptMembers]

end Line

end Nezumi
