import Nezumi.Lib.Podium
import Nezumi.Lib.Run
import Mathlib.Data.List.FinRange
import Mathlib.Data.Fintype.Basic
import Mathlib.Order.Fin.Basic

/-!
# The greatest dealers of damage (`map/mob.c`)

A mob keeps a log of the damage that was done to it. When it dies, one pass over the log finds the
players who get the reward and the first claim to its items.

* `damageLog` is what `mob_damage` writes into the log, in its three copies of the same loop.
* `mobRanking` is the pass, `rankStep` one round of it. The killer stands in the first place before
  the pass, with no damage.
* `rankStep_shows`: after every round the three variables show the first places of a ranking in
  order, which has left out the disconnected dealers that a connected one came past, and the killer
  behind it.
* `mobRanking_right_iff`: they are the players of the greatest entries if and only if this ranking
  has three entries and no player is too high in it.
-/

namespace Nezumi

open Podium

/-- `DAMAGELOG_SIZE`. -/
abbrev damagelogSize : ℕ := 30

/-- An entry of `dmglog`. A slot without a `char_id` is free. -/
structure DamageEntry where
  id : Int32 := 0
  dmg : Int32 := 0
deriving DecidableEq

/-- `dmglog`. -/
abbrev DamageLog := Fin damagelogSize → DamageEntry

/-! ## The log -/

/-- The loop over `dmglog`: the slot of the character, or else the one to take. -/
def findDamageSlot (log : DamageLog) (charId : Int32) :
    List (Fin damagelogSize) → (minpos : Fin damagelogSize) → (mindmg : Int32) →
      Fin damagelogSize ⊕ Fin damagelogSize
  | [], minpos, _ => .inr minpos
  | i :: is, minpos, mindmg =>
    if (log i).id = charId then .inl i
    else if (log i).id = 0 then findDamageSlot log charId is i 0
    else if (log i).dmg < mindmg then findDamageSlot log charId is i (log i).dmg
    else findDamageSlot log charId is minpos mindmg

/-- The damage is added to that of the character, or is his first. -/
def addDamage (log : DamageLog) (charId damage : Int32) : DamageLog :=
  match findDamageSlot log charId (List.finRange damagelogSize) 0 0x7fffffff with
  | .inl i => Function.update log i { log i with dmg := (log i).dmg + damage }
  | .inr minpos => Function.update log minpos ⟨charId, damage⟩

/-- Who does damage to a mob, with the `char_id` of the player behind it. -/
inductive Attacker
  | pc (charId : Int32)
  | pet (masterCharId : Int32)
  | mob (masterCharId : Int32)

/-- The player who is logged. -/
def Attacker.charId : Attacker → Int32
  | pc charId => charId
  | pet masterCharId => masterCharId
  | mob masterCharId => masterCharId

/-- The log after some damage. `petRate` is `battle_config.pet_attack_exp_rate`. -/
def damageLog (petRate : Int32) (log : DamageLog) (damage : Int32) : Attacker → DamageLog
  | .pc charId => addDamage log charId damage
  | .pet masterCharId => addDamage log masterCharId ((damage * petRate) / 100)
  | .mob masterCharId => addDamage log masterCharId damage

/-- No character has two entries. -/
def OneEntryEach (log : DamageLog) : Prop :=
  ∀ i j, (log i).id ≠ 0 → (log i).id = (log j).id → i = j

instance (log : DamageLog) : Decidable (OneEntryEach log) :=
  inferInstanceAs (Decidable (∀ _ _, _ → _ → _))

section Log

variable {log : DamageLog} {charId damage : Int32}

/-- A slot is taken only for a character that has none. -/
theorem findDamageSlot_inr {is : List (Fin damagelogSize)} {m minpos : Fin damagelogSize}
    {mindmg : Int32} (h : findDamageSlot log charId is m mindmg = .inr minpos) :
    ∀ i ∈ is, (log i).id ≠ charId := by
  induction is generalizing m mindmg with
  | nil => simp
  | cons i is ih =>
    unfold findDamageSlot at h
    by_cases hid : (log i).id = charId
    · rw [if_pos hid] at h
      cases h
    · rw [if_neg hid] at h
      have hrest : ∀ j ∈ is, (log j).id ≠ charId := by
        split at h
        · exact ih h
        · split at h <;> exact ih h
      intro j hj
      rcases List.mem_cons.mp hj with rfl | hj
      · exact hid
      · exact hrest j hj

/-- Damage gives no character a second entry. -/
theorem oneEntryEach_addDamage (h : OneEntryEach log) :
    OneEntryEach (addDamage log charId damage) := by
  unfold addDamage
  split
  next i hi =>
    intro a b ha hab
    have hid : ∀ c, (Function.update log i { log i with dmg := (log i).dmg + damage } c).id
        = (log c).id := by
      intro c
      by_cases hc : c = i
      · rw [hc, Function.update_self]
      · rw [Function.update_of_ne hc]
    rw [hid] at ha hab
    rw [hid] at hab
    exact h a b ha hab
  next minpos hnew =>
    have hother : ∀ c, (log c).id ≠ charId := fun c =>
      findDamageSlot_inr hnew c (List.mem_finRange c)
    intro a b ha hab
    by_cases hae : a = minpos <;> by_cases hbe : b = minpos
    · rw [hae, hbe]
    · rw [hae, Function.update_self, Function.update_of_ne hbe] at hab
      exact absurd hab.symm (hother b)
    · rw [hbe, Function.update_self, Function.update_of_ne hae] at hab
      exact absurd hab (hother a)
    · rw [Function.update_of_ne hae] at ha hab
      rw [Function.update_of_ne hbe] at hab
      exact h a b ha hab

/-- In every log that begins without entries, no character has two. -/
theorem oneEntryEach_exec (petRate : Int32) (es : List (Int32 × Attacker)) :
    OneEntryEach (Run.exec (fun log e => damageLog petRate log e.1 e.2) (fun _ => {}) es) := by
  have hmeets : Run.Meets (fun log (e : Int32 × Attacker) => damageLog petRate log e.1 e.2)
      (fun _ _ => True) (fun _ => {}) es := Run.meets_of_forall (fun _ _ => trivial) _ _
  refine Run.inv_exec ?_ ?_ hmeets
  · rintro log ⟨damage, _ | _ | _⟩ h - <;> exact oneEntryEach_addDamage h
  · intro i j hi
    exact absurd rfl hi

end Log

/-! ## The players -/

/-- A connection, with what `map_charid2sd` reads of its `session_data`. -/
structure MapSession where
  auth : Bool
  charId : Int32

/-- The connections. A player is named by his own. -/
abbrev MapSessions := List (Option MapSession)

/-- `map_charid2sd`. -/
def mapCharid2sd (session : MapSessions) (charId : Int32) : Option ℕ :=
  session.findIdx? fun sd => sd.any fun sd => sd.auth ∧ sd.charId = charId

/-- A player has one character. -/
theorem mapCharid2sd_inj {session : MapSessions} {a b : Int32}
    (ha : mapCharid2sd session a ≠ none) (hab : mapCharid2sd session a = mapCharid2sd session b) :
    a = b := by
  obtain ⟨k, hk⟩ := Option.ne_none_iff_exists'.mp ha
  obtain ⟨hlt, hsa, -⟩ := List.findIdx?_eq_some_iff_getElem.mp hk
  obtain ⟨_, hsb, -⟩ := List.findIdx?_eq_some_iff_getElem.mp (hab.symm.trans hk)
  cases hs : session[k] with
  | none => simp [hs] at hsa
  | some sd =>
    rw [hs, Option.any_some, decide_eq_true_eq] at hsa hsb
    rw [← hsa.2, hsb.2]

/-! ## The pass -/

/-- The variables of the pass. -/
structure MobRanking where
  mvpSd : Option ℕ
  secondSd : Option ℕ := none
  thirdSd : Option ℕ := none
  mvpDamage0 : Int32 := 0
  mvpDamage1 : Int32 := 0
  mvpDamage2 : Int32 := 0
deriving DecidableEq

/-- One round of the loop. -/
def rankStep (session : MapSessions) (log : DamageLog) (r : MobRanking) (i : Fin damagelogSize) :
    MobRanking :=
  if (log i).id = 0 then r
  else
    let tmpsd := mapCharid2sd session (log i).id
    if r.mvpDamage0 < (log i).dmg then
      -- A disconnected dealer in the first place makes room, and is not moved on.
      if r.mvpSd.isNone then { r with mvpSd := tmpsd, mvpDamage0 := (log i).dmg }
      else ⟨tmpsd, r.mvpSd, r.secondSd, (log i).dmg, r.mvpDamage0, r.mvpDamage1⟩
    else if r.mvpDamage1 < (log i).dmg then
      { r with thirdSd := r.secondSd, secondSd := tmpsd, mvpDamage2 := r.mvpDamage1,
               mvpDamage1 := (log i).dmg }
    else if r.mvpDamage2 < (log i).dmg then
      { r with thirdSd := tmpsd, mvpDamage2 := (log i).dmg }
    else r

/-- The pass over the log. `killer` is the player who dealt the last blow, if it was one. -/
def mobRanking (session : MapSessions) (log : DamageLog) (killer : Option ℕ) : MobRanking :=
  (List.finRange damagelogSize).foldl (rankStep session log) { mvpSd := killer }

section Ranking

variable (session : MapSessions) (log : DamageLog)

/-- The damage of an entry. -/
def loggedDamage (i : Fin damagelogSize) : ℤ := (log i).dmg.toInt

/-- The player of an entry, unless he is disconnected. -/
def loggedPlayer (i : Fin damagelogSize) : Option ℕ := mapCharid2sd session (log i).id

/-- The slots with an entry. -/
def loggedSlots : Finset (Fin damagelogSize) := {i | (log i).id ≠ 0}

/-- **What the pass is for**: the variables are the players of the three greatest entries, in
descending order. -/
def RankingRight (r : MobRanking) : Prop :=
  ∃ top, IsTop (loggedDamage log) 3 (loggedSlots log) top ∧
    r.mvpSd = place (loggedPlayer session log) top 0 ∧
    r.secondSd = place (loggedPlayer session log) top 1 ∧
    r.thirdSd = place (loggedPlayer session log) top 2

/-- A disconnected dealer who had more than all in earlier slots, and less than one in a later. -/
abbrev PassedOver (i : Fin damagelogSize) : Prop :=
  Passed (loggedDamage log) (loggedPlayer session log) (loggedSlots log) i

/-- The number of entries ahead of one, without those that were passed over. -/
def placeInPass (i : Fin damagelogSize) : ℕ :=
  {j ∈ loggedSlots log | ¬ PassedOver session log j ∧ Ahead (loggedDamage log) j i}.card

/-- The number of entries with more damage. -/
def greaterEntries (i : Fin damagelogSize) : ℕ :=
  {j ∈ loggedSlots log | loggedDamage log i < loggedDamage log j}.card

/-- The variables show the first places of a ranking, and the killer behind it. -/
structure ShowsRanking (killer : Option ℕ) (R : List (Fin damagelogSize)) (r : MobRanking) :
    Prop where
  mvpSd : r.mvpSd = shown (loggedPlayer session log) R killer 0
  secondSd : r.secondSd = shown (loggedPlayer session log) R killer 1
  thirdSd : r.thirdSd = shown (loggedPlayer session log) R killer 2
  mvpDamage0 : r.mvpDamage0 = (R[0]?.map fun i => (log i).dmg).getD 0
  mvpDamage1 : r.mvpDamage1 = (R[1]?.map fun i => (log i).dmg).getD 0
  mvpDamage2 : r.mvpDamage2 = (R[2]?.map fun i => (log i).dmg).getD 0

variable {session log} {killer : Option ℕ} {R : List (Fin damagelogSize)} {r : MobRanking}

theorem loggedDamage_lt {i j : Fin damagelogSize} :
    loggedDamage log i < loggedDamage log j ↔ (log i).dmg < (log j).dmg :=
  Int32.lt_iff_toInt_lt.symm

/-- **One round** ranks one more entry. -/
theorem rankStep_shows (h : ShowsRanking session log killer R r) {i : Fin damagelogSize}
    (hid : (log i).id ≠ 0) (hpos : 0 < (log i).dmg) :
    ShowsRanking session log killer (enter (loggedDamage log) (loggedPlayer session log) i R)
      (rankStep session log r i) := by
  obtain ⟨m, s, t, d0, d1, d2⟩ := r
  obtain ⟨h0, h1, h2, hd0, hd1, hd2⟩ := h
  simp only at h0 h1 h2 hd0 hd1 hd2
  subst h0 h1 h2 hd0 hd1 hd2
  unfold rankStep
  rw [if_neg hid]
  match R with
  | [] =>
    cases killer with
    | none => constructor <;> simp [enter, shown, place, hpos, loggedPlayer]
    | some p => constructor <;> simp [enter, shown, place, hpos, loggedPlayer]
  | a :: R =>
    by_cases ha : (log a).dmg < (log i).dmg
    · cases hp : mapCharid2sd session (log a).id with
      | none =>
        constructor <;>
          simp [enter, shown, place, loggedPlayer, loggedDamage_lt, ha, hp]
      | some p =>
        constructor <;>
          simp [enter, shown, place, loggedPlayer, loggedDamage_lt, ha, hp]
    match R with
    | [] => constructor <;> simp [enter, shown, place, hpos, loggedPlayer, loggedDamage_lt, ha]
    | b :: R =>
      by_cases hb : (log b).dmg < (log i).dmg
      · constructor <;> simp [enter, shown, place, loggedPlayer, loggedDamage_lt, ha, hb]
      match R with
      | [] =>
        constructor <;> simp [enter, shown, place, hpos, loggedPlayer, loggedDamage_lt, ha, hb]
      | c :: R =>
        by_cases hc : (log c).dmg < (log i).dmg <;> constructor <;>
          simp [enter, shown, place, loggedPlayer, loggedDamage_lt, ha, hb, hc]

/-- The rounds that are left rank the entries of their slots. -/
theorem foldl_rankStep (hpos : ∀ i, (log i).id ≠ 0 → 0 < (log i).dmg)
    {is : List (Fin damagelogSize)} (his : is.Pairwise (· < ·)) {U : Finset (Fin damagelogSize)}
    (hU : ∀ j ∈ U, ∀ i ∈ is, j < i)
    (hranked : Ranked (loggedDamage log) (loggedPlayer session log) U R)
    (hshows : ShowsRanking session log killer R r) :
    ∃ R', Ranked (loggedDamage log) (loggedPlayer session log)
        (U ∪ {i ∈ is.toFinset | (log i).id ≠ 0}) R' ∧
      ShowsRanking session log killer R' (is.foldl (rankStep session log) r) := by
  induction is generalizing U R r with
  | nil => exact ⟨R, by simpa using hranked, hshows⟩
  | cons i is ih =>
    obtain ⟨hi, his⟩ := List.pairwise_cons.mp his
    have hUi : ∀ j ∈ U, j < i := fun j hj => hU j hj i List.mem_cons_self
    by_cases hid : (log i).id = 0
    · have hstep : rankStep session log r i = r := by
        unfold rankStep
        rw [if_pos hid]
      obtain ⟨R', hR', hr'⟩ := ih his (fun j hj k hk => hU j hj k (List.mem_cons_of_mem i hk))
        hranked hshows
      refine ⟨R', ?_, by rwa [List.foldl_cons, hstep]⟩
      rwa [List.toFinset_cons, Finset.filter_insert, if_neg (not_not.mpr hid)]
    · have hnext : ∀ j ∈ insert i U, ∀ k ∈ is, j < k := by
        intro j hj k hk
        rcases Finset.mem_insert.mp hj with rfl | hj
        · exact hi k hk
        · exact hU j hj k (List.mem_cons_of_mem i hk)
      obtain ⟨R', hR', hr'⟩ := ih his hnext (hranked.enter hUi)
        (rankStep_shows hshows hid (hpos i hid))
      refine ⟨R', ?_, hr'⟩
      rwa [List.toFinset_cons, Finset.filter_insert, if_pos hid, Finset.union_insert,
        ← Finset.insert_union]

/-- **The pass** shows a ranking of the entries that were not passed over. -/
theorem mobRanking_shows (session : MapSessions) (killer : Option ℕ)
    (hpos : ∀ i, (log i).id ≠ 0 → 0 < (log i).dmg) :
    ∃ R, Ranked (loggedDamage log) (loggedPlayer session log) (loggedSlots log) R ∧
      ShowsRanking session log killer R (mobRanking session log killer) := by
  have hfirst : ShowsRanking session log killer [] { mvpSd := killer } := by
    constructor <;> simp [shown]
  obtain ⟨R, hR, hr⟩ := foldl_rankStep hpos (List.pairwise_lt_finRange damagelogSize)
    (U := ∅) (by simp) Ranked.empty hfirst
  refine ⟨R, ?_, hr⟩
  rwa [Finset.empty_union, List.toFinset_finRange] at hR

/-- No player has two entries. -/
theorem oneEach_loggedPlayer (hone : OneEntryEach log) :
    OneEach (loggedPlayer session log) (loggedSlots log) := by
  intro i hi j _ hp heq
  exact hone i j (Finset.mem_filter.mp hi).2 (mapCharid2sd_inj hp heq)

/-- The three variables show the first three places. -/
theorem rankingRight_iff (h : ShowsRanking session log killer R r) :
    RankingRight session log r ↔ ∃ top, IsTop (loggedDamage log) 3 (loggedSlots log) top ∧
      ∀ k < 3, place (loggedPlayer session log) top k
        = shown (loggedPlayer session log) R killer k := by
  unfold RankingRight
  refine exists_congr fun top => and_congr_right fun _ => ?_
  rw [h.mvpSd, h.secondSd, h.thirdSd]
  constructor
  · rintro ⟨h0, h1, h2⟩ k hk
    match k with
    | 0 => exact h0.symm
    | 1 => exact h1.symm
    | 2 => exact h2.symm
  · intro hk
    exact ⟨(hk 0 (by omega)).symm, (hk 1 (by omega)).symm, (hk 2 (by omega)).symm⟩

/-- **The pass is right** if and only if three entries are not passed over, for a killer who is a
player, and no connected dealer of the first three places is higher than the number of the entries
with more damage than his. -/
theorem mobRanking_right_iff (session : MapSessions) (log : DamageLog) (killer : Option ℕ)
    (hone : OneEntryEach log) (hpos : ∀ i, (log i).id ≠ 0 → 0 < (log i).dmg) :
    RankingRight session log (mobRanking session log killer) ↔
      (killer ≠ none → 3 ≤ {i ∈ loggedSlots log | ¬ PassedOver session log i}.card) ∧
        ∀ i ∈ loggedSlots log, loggedPlayer session log i ≠ none →
          placeInPass session log i < 3 → greaterEntries log i ≤ placeInPass session log i := by
  obtain ⟨R, hR, hshows⟩ := mobRanking_shows session killer hpos
  rw [rankingRight_iff hshows, exists_isTop_iff hR.ranks (oneEach_loggedPlayer hone), hR.card_eq]
  refine and_congr_right fun _ => ⟨fun h i hi hp hlt => ?_, fun h k hk hlt hp => ?_⟩
  · obtain ⟨k, hk, rfl⟩ := List.getElem_of_mem (hR.ranks.all i hi hp)
    have hplace : placeInPass session log R[k] = k := hR.card_ahead hk
    rw [hplace] at hlt ⊢
    exact h k hk hlt hp
  · have hplace : placeInPass session log R[k] = k := hR.card_ahead hk
    have := h R[k] (hR.ranks.mem _ (List.getElem_mem hk)) hp (by rw [hplace]; exact hlt)
    rwa [hplace] at this

/-- Four dealers, of whom the greatest is disconnected and the smallest strikes last. -/
theorem mobRanking_right_four :
    RankingRight [some ⟨true, 3⟩, none, some ⟨true, 7⟩, some ⟨false, 5⟩, some ⟨true, 2⟩]
      (fun i => if i = 1 then ⟨7, 40⟩ else if i = 2 then ⟨5, 90⟩ else if i = 8 then ⟨2, 60⟩
        else if i = 9 then ⟨3, 10⟩ else {})
      (mobRanking [some ⟨true, 3⟩, none, some ⟨true, 7⟩, some ⟨false, 5⟩, some ⟨true, 2⟩]
        (fun i => if i = 1 then ⟨7, 40⟩ else if i = 2 then ⟨5, 90⟩ else if i = 8 then ⟨2, 60⟩
          else if i = 9 then ⟨3, 10⟩ else {}) (some 0)) :=
  (mobRanking_right_iff _ _ _ (by decide +kernel) (by decide +kernel)).mpr (by decide +kernel)

/-- A ranking with a player behind all entries is not right. -/
theorem not_rankingRight {session : MapSessions} {log : DamageLog} {r : MobRanking}
    (hcard : (loggedSlots log).card ≤ 1) (hsecond : r.secondSd ≠ none) :
    ¬ RankingRight session log r := by
  rintro ⟨top, htop, -, h1, -⟩
  have hlen := htop.length
  apply hsecond
  rw [h1]
  exact place_of_le (by omega)

/-- Who kills a mob alone is also in the second place. -/
theorem mobRanking_wrong :
    OneEntryEach (fun i => if i = 0 then ⟨3, 50⟩ else {}) ∧
      ¬ RankingRight [some ⟨true, 3⟩] (fun i => if i = 0 then ⟨3, 50⟩ else {})
        (mobRanking [some ⟨true, 3⟩] (fun i => if i = 0 then ⟨3, 50⟩ else {}) (some 0)) :=
  ⟨by decide +kernel, not_rankingRight (by decide +kernel) (by decide +kernel)⟩

end Ranking

end Nezumi
