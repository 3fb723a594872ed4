import Nezumi.Script.MapregLemmas

/-!
# Saving and loading the permanent variables (`map/script.c`)

* `holds_insertReg`: what the tables hold after a line has been entered.
* `holds_loadAll`: lines in order, with names that keep their spelling, are entered as they are.
* `MapregMade`, `holds_scriptLoad`: whatever is loaded comes from the lines of one variable.
* `mapreg_restored`: when the variables come back as they were saved.
-/

namespace Nezumi

open Decimal

/-! ## The string table -/

section Names

variable {strs : StrTable} {p q : VarName}

/-- The name under which a name is entered. -/
def resolve (strs : StrTable) (p : VarName) : VarName :=
  if p.map toLower ∈ strs then p.map toLower else p

theorem toLower_idem (b : UInt8) : toLower (toLower b) = toLower b := by
  unfold toLower
  split
  · rename_i h
    rw [if_neg]
    simp only [Bool.and_eq_true, decide_eq_true_eq, UInt8.le_iff_toNat_le] at h ⊢
    rintro ⟨-, h2⟩
    simp only [UInt8.toNat_add, UInt8.reduceToNat] at h h2
    omega
  · rfl

theorem map_toLower_idem (p : VarName) : (p.map toLower).map toLower = p.map toLower := by
  rw [List.map_map]
  exact List.map_congr_left fun b _ => toLower_idem b

/-- A name stands for itself, or for its spelling in lower case. -/
theorem resolve_cases (strs : StrTable) (p : VarName) :
    resolve strs p = p ∨ (resolve strs p = p.map toLower ∧ p.map toLower ≠ p) := by
  unfold resolve
  split
  · by_cases h : p.map toLower = p
    · exact .inl h
    · exact .inr ⟨rfl, h⟩
  · exact .inl rfl

theorem resolve_eq_self_iff :
    resolve strs p = p ↔ p.map toLower = p ∨ p.map toLower ∉ strs := by
  unfold resolve
  split <;> rename_i h <;> simp [h]

theorem length_resolve (strs : StrTable) (p : VarName) : (resolve strs p).length = p.length := by
  unfold resolve
  split
  · rw [List.length_map]
  · rfl

theorem toLower_eq_iff {b c : UInt8} (hc : c < 65) : toLower b = c ↔ b = c := by
  unfold toLower
  split
  · rename_i h
    simp only [Bool.and_eq_true, decide_eq_true_eq, UInt8.le_iff_toNat_le, UInt8.lt_iff_toNat_lt,
      ← UInt8.toNat_inj, UInt8.toNat_add, UInt8.reduceToNat] at h hc ⊢
    omega
  · rfl

/-- No tab, comma or line's end goes away. -/
theorem plainName_resolve (strs : StrTable) (p : VarName) :
    PlainName (resolve strs p) ↔ PlainName p := by
  have hmem {c : UInt8} (hc : c < 65) : c ∈ p.map toLower ↔ c ∈ p := by
    simp [List.mem_map, toLower_eq_iff hc]
  unfold resolve PlainName
  split
  · rw [hmem (by decide), hmem (by decide), hmem (by decide)]
  · rfl

theorem mem_addStr : q ∈ (addStr strs p).2 ↔ q ∈ strs ∨ q = resolve strs p := by
  unfold addStr resolve
  split
  · rename_i h
    exact ⟨.inl, fun hq => hq.elim id fun hq => hq ▸ h⟩
  · split
    · rename_i h
      exact ⟨.inl, fun hq => hq.elim id fun hq => hq ▸ h⟩
    · rw [List.mem_append, List.mem_singleton]

theorem nodup_addStr (h : strs.Nodup) : (addStr strs p).2.Nodup := by
  unfold addStr
  split
  · exact h
  · split
    · exact h
    · rename_i hp
      refine List.nodup_append.mpr ⟨h, by simp, fun a ha b hb => ?_⟩
      rw [List.mem_singleton.mp hb]
      rintro rfl
      exact hp ha

theorem prefix_addStr (strs : StrTable) (p : VarName) : strs <+: (addStr strs p).2 := by
  unfold addStr
  split
  · exact List.prefix_refl _
  · split
    · exact List.prefix_refl _
    · exact List.prefix_append _ _

/-- The number of a name is that of the name under which it is entered. -/
theorem getElem?_addStr (strs : StrTable) (p : VarName) :
    (addStr strs p).2[(addStr strs p).1]? = some (resolve strs p) := by
  unfold addStr resolve
  split
  · rename_i h
    exact List.getElem?_idxOf h
  · split
    · rename_i h
      exact List.getElem?_idxOf h
    · simp

theorem addStr_cases (strs : StrTable) (p : VarName) :
    (addStr strs p).2 = strs ∨
      ((addStr strs p).2 = strs ++ [p] ∧ (addStr strs p).1 = strs.length) := by
  unfold addStr
  split
  · exact .inl rfl
  · split
    · exact .inl rfl
    · exact .inr ⟨rfl, rfl⟩

end Names

/-! ## The tables -/

section Tables

variable {db : MapregDb} {v w r : Reg}

/-- Every name is entered once, and every key has a name. -/
structure MapregDb.Ok (db : MapregDb) : Prop where
  nodup : db.strs.Nodup
  int : ∀ k, db.strs.length ≤ k.2 → db.mapreg k = none
  str : ∀ k, db.strs.length ≤ k.2 → db.mapregstr k = none

/-- A variable under the name that is entered for it. -/
def Reg.renamed (strs : StrTable) (w : Reg) : Reg := { w with name := resolve strs w.name }

def RegValue.isStr : RegValue → Bool
  | .int _ => false
  | .str _ => true

/-- Two variables that have one place. -/
def SameSlot (v w : Reg) : Prop :=
  v.name = w.name ∧ v.index = w.index ∧ v.value.isStr = w.value.isStr

/-- The value under a key. -/
def MapregDb.valueAt (db : MapregDb) (isStr : Bool) (k : UInt8 × ℕ) : Option RegValue :=
  if isStr then (db.mapregstr k).map .str else (db.mapreg k).map .int

theorem holds_iff : db.Holds r ↔
    ∃ s, db.strs[s]? = some r.name ∧ db.valueAt r.value.isStr (r.index, s) = some r.value := by
  unfold MapregDb.Holds MapregDb.valueAt
  rcases r with ⟨name, i, val | str⟩ <;> simp [RegValue.isStr]

theorem strs_insertReg (db : MapregDb) (w : Reg) :
    (insertReg db w).strs = (addStr db.strs w.name).2 := by
  unfold insertReg
  dsimp only
  split <;> rfl

/-- An insertion writes one place. -/
theorem valueAt_insertReg (b : Bool) (k : UInt8 × ℕ) :
    (insertReg db w).valueAt b k =
      if b = w.value.isStr ∧ k = (w.index, (addStr db.strs w.name).1) then some w.value
      else db.valueAt b k := by
  unfold insertReg MapregDb.valueAt
  rcases hval : w.value with val | str <;> cases b <;> simp [RegValue.isStr, Function.update_apply]
  all_goals
    split
    · simp_all
    · simp_all

theorem valueAt_of_ge (hdb : db.Ok) (b : Bool) {k : UInt8 × ℕ} (hk : db.strs.length ≤ k.2) :
    db.valueAt b k = none := by
  unfold MapregDb.valueAt
  rw [hdb.int k hk, hdb.str k hk]
  split <;> rfl

theorem insertReg_ok (hdb : db.Ok) (w : Reg) : (insertReg db w).Ok := by
  have hvalue (b : Bool) {k : UInt8 × ℕ} (hk : (insertReg db w).strs.length ≤ k.2) :
      (insertReg db w).valueAt b k = none := by
    rw [strs_insertReg] at hk
    have hlt := (List.getElem?_eq_some_iff.mp (getElem?_addStr db.strs w.name)).1
    have hle := (prefix_addStr db.strs w.name).length_le
    rw [valueAt_insertReg, if_neg, valueAt_of_ge hdb b (by omega)]
    rintro ⟨-, rfl⟩
    dsimp only at hk
    omega
  refine ⟨?_, fun k hk => ?_, fun k hk => ?_⟩
  · rw [strs_insertReg]
    exact nodup_addStr hdb.nodup
  · simpa [MapregDb.valueAt] using hvalue false hk
  · simpa [MapregDb.valueAt] using hvalue true hk

/-- **What the tables hold after an insertion.** -/
theorem holds_insertReg (hdb : db.Ok) (w : Reg) : (insertReg db w).Holds r ↔
    r = w.renamed db.strs ∨ (db.Holds r ∧ ¬ SameSlot r (w.renamed db.strs)) := by
  have hnew := getElem?_addStr db.strs w.name
  have hnodup := nodup_addStr (p := w.name) hdb.nodup
  rw [holds_iff, holds_iff]
  simp only [strs_insertReg, valueAt_insertReg]
  constructor
  · rintro ⟨s, hs, hvalue⟩
    split at hvalue
    · -- The place that has been written.
      rename_i hslot
      left
      obtain ⟨-, hk⟩ := hslot
      obtain ⟨hi, rfl⟩ := Prod.mk.inj hk
      rw [hnew] at hs
      obtain ⟨name, i, value⟩ := r
      rw [Reg.renamed, Option.some.inj hs, ← hi, Option.some.inj hvalue]
    · rename_i hslot
      right
      have hold : db.strs[s]? = some r.name := by
        rcases addStr_cases db.strs w.name with heq | ⟨heq, hlen⟩
        · rwa [heq] at hs
        · rw [heq] at hs
          rcases Nat.lt_or_ge s db.strs.length with hlt | hge
          · rwa [List.getElem?_append_left hlt] at hs
          · rw [valueAt_of_ge hdb _ hge] at hvalue
            cases hvalue
      refine ⟨⟨s, hold, hvalue⟩, fun ⟨hname, hi, htype⟩ => hslot ⟨htype, ?_⟩⟩
      rw [hi]
      congr 1
      by_contra hne
      have hs' : (addStr db.strs w.name).2[s]? =
          (addStr db.strs w.name).2[(addStr db.strs w.name).1]? := by
        rw [hs, hnew, hname]
        rfl
      exact hne ((List.getElem?_inj (List.getElem?_eq_some_iff.mp hs).1 hnodup).mp hs')
  · rintro (rfl | ⟨⟨s, hs, hvalue⟩, hslot⟩)
    · refine ⟨_, hnew, ?_⟩
      rw [if_pos ⟨rfl, rfl⟩]
      rfl
    · have hkeep : (addStr db.strs w.name).2[s]? = some r.name := by
        obtain ⟨t, ht⟩ := prefix_addStr db.strs w.name
        rw [← ht, List.getElem?_append_left (List.getElem?_eq_some_iff.mp hs).1, hs]
      refine ⟨s, hkeep, ?_⟩
      rw [if_neg, hvalue]
      rintro ⟨htype, hk⟩
      obtain ⟨hi, rfl⟩ := Prod.mk.inj hk
      refine hslot ⟨?_, hi, htype⟩
      rw [hnew] at hkeep
      exact (Option.some.inj hkeep).symm

/-- Numbers that are not zero and strings that are not empty: others are not stored. -/
def MapregDb.Stored (db : MapregDb) : Prop :=
  (∀ k val, db.mapreg k = some val → val ≠ 0) ∧ ∀ k str, db.mapregstr k = some str → str ≠ []

theorem stored_setreg (h : db.Stored) (num : UInt8 × ℕ) (val : Int32) :
    (mapregSetreg db num val).Stored := by
  refine ⟨fun k v hv => ?_, h.2⟩
  unfold mapregSetreg at hv
  dsimp only at hv
  rw [Function.update_apply] at hv
  split at hv
  · split at hv
    · rename_i hne
      rwa [← Option.some.inj hv]
    · cases hv
  · exact h.1 k v hv

theorem stored_setregstr (h : db.Stored) (num : UInt8 × ℕ) (str : List UInt8) :
    (mapregSetregstr db num str).Stored := by
  refine ⟨h.1, fun k v hv => ?_⟩
  unfold mapregSetregstr at hv
  dsimp only at hv
  rw [Function.update_apply] at hv
  split at hv
  · split at hv
    · cases hv
    · rename_i hne
      rwa [← Option.some.inj hv]
  · exact h.2 k v hv

/-! ## Loading what has been saved -/

/-- The lines of one variable. -/
def loadVar (db : MapregDb) (v : Reg) : MapregDb :=
  (linesOfFile (v.body ++ [10])).foldl loadLine db

theorem newline_notMem_body (hv : v.Permanent) (h : 10 ∉ v.name) : 10 ∉ v.body := by
  have hdigits : ∀ b ∈ ofNat v.index.toNat, b ≠ 10 := by
    rintro b hb rfl
    exact absurd (isDigit_of_mem_ofNat hb) (by decide)
  have htext : 10 ∉ v.value.text := by
    rcases hval : v.value with val | s
    · dsimp only [RegValue.text]
      unfold ofInt
      intro hmem
      split at hmem
      · rcases List.mem_cons.mp hmem with hmem | hmem
        · cases hmem
        · exact absurd (isDigit_of_mem_ofNat hmem) (by decide)
      · exact absurd (isDigit_of_mem_ofNat hmem) (by decide)
    · exact (hv.str s hval).2.1
  unfold Reg.body
  split
  · simp [h, htext]
  · simp only [List.mem_append, List.mem_cons, not_or]
    exact ⟨h, by decide, fun hmem => hdigits 10 hmem rfl, by decide, htext⟩

/-- **A file is read variable by variable.** -/
theorem scriptLoad_save {strs : StrTable} {ints : List (VarName × UInt8 × Int32)}
    {texts : List (VarName × UInt8 × List UInt8)}
    (hperm : ∀ v ∈ savedRegs ints texts, v.Permanent)
    (hnl : ∀ v ∈ savedRegs ints texts, 10 ∉ v.name) :
    scriptLoadMapreg strs (scriptSaveMapreg ints texts) =
      (savedRegs ints texts).foldl loadVar { strs := strs } := by
  have hsave : scriptSaveMapreg ints texts =
      (savedRegs ints texts).flatMap fun v => v.body ++ [10] := by
    unfold scriptSaveMapreg
    refine List.flatMap_congr fun v hv => ?_
    unfold saveMapregSub
    rw [if_pos (hperm v hv).kept]
  rw [hsave]
  change (linesOfFile _).foldl loadLine _ = _
  rw [linesOfFile_flatMap fun v hv => newline_notMem_body (hperm v hv) (hnl v hv)]
  rw [List.foldl_flatMap]
  rfl

theorem loadLine_ok (hdb : db.Ok) (c : List UInt8) : (loadLine db c).Ok := by
  unfold loadLine
  split
  · exact hdb
  · exact insertReg_ok hdb _

theorem loadLines_ok (hdb : db.Ok) (cs : List (List UInt8)) : (cs.foldl loadLine db).Ok := by
  induction cs generalizing db with
  | nil => exact hdb
  | cons c cs ih => exact ih (loadLine_ok hdb c)

theorem loadVars_ok (hdb : db.Ok) (vs : List Reg) : (vs.foldl loadVar db).Ok := by
  induction vs generalizing db with
  | nil => exact hdb
  | cons v vs ih => exact ih (loadLines_ok hdb _)

/-- A variable whose line is in order is entered, and nothing else. -/
theorem loadVar_eq (hv : v.Permanent) (hok : v.LineOk) : loadVar db v = insertReg db v := by
  have hbody := newline_notMem_body hv hok.1
  unfold loadVar
  rcases linesOfFile_fits hbody hok.2.1 with heq | heq <;> rw [heq]
  · simp only [List.foldl_cons, List.foldl_nil]
    unfold loadLine
    rw [readReg_body hv hok (.inr rfl)]
  · have hread := readReg_body hv hok (.inl rfl)
    rw [List.append_nil] at hread
    simp only [List.foldl_cons, List.foldl_nil]
    unfold loadLine
    rw [hread, readReg_newline]

theorem spellingOk_congr {strs strs' : StrTable} {vs : List Reg} (h : ∀ p, p ∈ strs ↔ p ∈ strs') :
    SpellingOk strs vs ↔ SpellingOk strs' vs := by
  induction vs generalizing strs strs' with
  | nil => rfl
  | cons v vs ih =>
    unfold SpellingOk
    have hmem : ∀ p, p ∈ strs ++ [v.name] ↔ p ∈ strs' ++ [v.name] := fun p => by
      rw [List.mem_append, List.mem_append, h]
    rw [h, ih hmem]

theorem spellingOk_insertReg (hself : resolve db.strs v.name = v.name) {vs : List Reg} :
    SpellingOk (insertReg db v).strs vs ↔ SpellingOk (db.strs ++ [v.name]) vs :=
  spellingOk_congr fun p => by
    rw [strs_insertReg, mem_addStr, hself, List.mem_append, List.mem_singleton]

/-- **Lines in order are entered as they are**, if the names keep their spelling. -/
theorem holds_loadAll {vs : List Reg} (hdb : db.Ok) (hperm : ∀ v ∈ vs, v.Permanent)
    (hline : ∀ v ∈ vs, v.LineOk) (hspell : SpellingOk db.strs vs)
    (hkeys : (vs.map fun v => (v.name, v.index)).Nodup)
    (hfree : ∀ r, db.Holds r → (r.name, r.index) ∉ vs.map fun v => (v.name, v.index)) :
    (vs.foldl loadVar db).Holds r ↔ db.Holds r ∨ r ∈ vs := by
  induction vs generalizing db with
  | nil => simp
  | cons v vs ih =>
    obtain ⟨hself, hrest⟩ := hspell
    rw [← resolve_eq_self_iff] at hself
    rw [List.map_cons, List.nodup_cons] at hkeys
    have hrenamed : v.renamed db.strs = v := by
      unfold Reg.renamed
      rw [hself]
    have hnew (r : Reg) : (insertReg db v).Holds r ↔ db.Holds r ∨ r = v := by
      rw [holds_insertReg hdb, hrenamed]
      constructor
      · rintro (h | ⟨h, -⟩)
        · exact .inr h
        · exact .inl h
      · rintro (h | h)
        · refine .inr ⟨h, fun ⟨hname, hi, _⟩ => hfree r h ?_⟩
          rw [hname, hi]
          simp
        · exact .inl h
    rw [List.foldl_cons, loadVar_eq (hperm v (by simp)) (hline v (by simp)),
      ih (insertReg_ok hdb v) (fun v hv => hperm v (by simp [hv]))
        (fun v hv => hline v (by simp [hv])) ((spellingOk_insertReg hself).mpr hrest) hkeys.2,
      hnew, List.mem_cons, or_assoc]
    intro r hr
    rcases (hnew r).mp hr with hr | rfl
    · exact fun hmem => hfree r hr (by simp [hmem])
    · exact hkeys.1

/-! ## Where the variables come from -/

/-- The first line of a variable, and what is left for others. -/
def Reg.firstLine (v : Reg) : List UInt8 := fgetsLine (v.body ++ [10])

def Reg.laterLines (v : Reg) : List (List UInt8) :=
  linesOfFile ((v.body ++ [10]).drop v.firstLine.length)

theorem linesOfFile_body (v : Reg) : linesOfFile (v.body ++ [10]) = v.firstLine :: v.laterLines :=
  linesOfFile_eq (by simp)

theorem length_firstLine (v : Reg) : v.firstLine.length ≤ 1023 := (length_fgetsLine_le _).2

theorem firstLine_prefix (h : 10 ∉ v.body) : v.firstLine <+: v.body ++ [10] := by
  unfold Reg.firstLine
  rcases Nat.lt_or_ge v.body.length 1023 with hlt | hge
  · rw [fgetsLine_short h (by omega)]
  · rw [fgetsLine_long h hge]
    exact (List.take_prefix _ _).trans (List.prefix_append _ _)

/-- Behind a line that fits nothing is left but its end. -/
theorem laterLines_of_fits {c : List UInt8} (h : 10 ∉ v.body) (hlen : v.body.length ≤ 1023)
    (hc : c ∈ v.laterLines) : c = [10] := by
  have hlines := linesOfFile_body v
  rcases linesOfFile_fits h hlen with heq | heq <;> rw [heq] at hlines
  · rw [← (List.cons.inj hlines).2] at hc
    cases hc
  · rw [← (List.cons.inj hlines).2] at hc
    exact List.mem_singleton.mp hc

/-- Of a longer one, less than one buffer is not in the first. -/
theorem length_laterLines {c : List UInt8} (h : 10 ∉ v.body) (hc : c ∈ v.laterLines) :
    c.length ≤ v.body.length - 1022 := by
  have hle := (length_of_mem_linesOfFile hc).1
  unfold Reg.firstLine at hle
  rcases Nat.lt_or_ge v.body.length 1023 with hlt | hge
  · rw [fgetsLine_short h (by omega), List.drop_length] at hle
    simp only [List.length_nil] at hle
    omega
  · rw [fgetsLine_long h hge] at hle
    simp only [List.length_drop, List.length_append, List.length_singleton, List.length_take] at hle
    omega

theorem length_name_le {c : List UInt8} (h : readReg c = some w) : w.name.length ≤ c.length := by
  rw [readReg_eq] at h
  rcases hindexed : scanIndexed c with _ | ⟨buf, i, r⟩
  · rcases hplain : scanPlain c with _ | ⟨buf, i, r⟩
    · rw [hindexed, hplain] at h
      cases h
    · obtain ⟨-, rfl, -, -⟩ := scanPlain_name hplain
      rw [hindexed, hplain] at h
      obtain ⟨value, -, rfl⟩ := Option.map_eq_some_iff.mp h
      exact (List.takeWhile_sublist _).length_le
  · obtain ⟨-, -, -, r', rfl⟩ := scanIndexed_name hindexed
    rw [hindexed] at h
    obtain ⟨value, -, rfl⟩ := Option.map_eq_some_iff.mp h
    simp

theorem holds_loadLine (hdb : db.Ok) {c : List UInt8} (h : (loadLine db c).Holds r) :
    db.Holds r ∨ ∃ w, readReg c = some w ∧ r = w.renamed db.strs := by
  unfold loadLine at h
  split at h
  · exact .inl h
  · rename_i w hread
    rcases (holds_insertReg hdb w).mp h with rfl | ⟨h, -⟩
    · exact .inr ⟨w, hread, rfl⟩
    · exact .inl h

theorem holds_loadLines (hdb : db.Ok) {cs : List (List UInt8)}
    (h : (cs.foldl loadLine db).Holds r) :
    db.Holds r ∨ ∃ c ∈ cs, ∃ w strs, readReg c = some w ∧ r = w.renamed strs := by
  induction cs generalizing db with
  | nil => exact .inl h
  | cons c cs ih =>
    rcases ih (loadLine_ok hdb c) h with h | ⟨c', hc', hread⟩
    · exact (holds_loadLine hdb h).imp_right fun ⟨w, hread⟩ => ⟨c, by simp, w, _, hread⟩
    · exact .inr ⟨c', by simp [hc'], hread⟩

/-- `r` comes from the first line of `u`, or from another one of it. -/
def MapregMade (strs : StrTable) (u r : Reg) : Prop :=
  (∃ w, readReg u.firstLine = some w ∧ r = w.renamed strs) ∨
    ∃ c ∈ u.laterLines, ∃ w strs, readReg c = some w ∧ r = w.renamed strs

theorem holds_loadVar (hdb : db.Ok) {u : Reg} (h : (loadVar db u).Holds r) :
    db.Holds r ∨ MapregMade db.strs u r := by
  unfold loadVar at h
  rw [linesOfFile_body, List.foldl_cons] at h
  rcases holds_loadLines (loadLine_ok hdb _) h with h | h
  · exact (holds_loadLine hdb h).imp_right .inl
  · exact .inr (.inr h)

/-- **Whatever is loaded comes from the lines of one variable.** -/
theorem holds_loadVars (hdb : db.Ok) {vs : List Reg} (h : (vs.foldl loadVar db).Holds r) :
    db.Holds r ∨ ∃ l u l', vs = l ++ u :: l' ∧ MapregMade (l.foldl loadVar db).strs u r := by
  induction vs generalizing db with
  | nil => exact .inl h
  | cons v vs ih =>
    rcases ih (loadLines_ok hdb _) h with h | ⟨l, u, l', rfl, hmade⟩
    · exact (holds_loadVar hdb h).imp_right fun h => ⟨[], v, vs, rfl, h⟩
    · exact .inr ⟨v :: l, u, l', rfl, hmade⟩

theorem length_name_of_made {strs : StrTable} {u : Reg} (h : MapregMade strs u r) :
    r.name.length ≤ 1023 := by
  rcases h with ⟨w, hread, rfl⟩ | ⟨c, hc, w, strs, hread, rfl⟩
  · exact (length_resolve _ _).trans_le ((length_name_le hread).trans (length_firstLine u))
  · exact (length_resolve _ _).trans_le
      ((length_name_le hread).trans (length_of_mem_linesOfFile hc).2)

/-- The place of a variable among those with other keys. -/
theorem split_unique {α β : Type*} {f : α → β} {l l' m m' : List α} {u u' : α}
    (hnodup : ((l ++ u :: l').map f).Nodup) (h : l ++ u :: l' = m ++ u' :: m') (hf : f u = f u') :
    l = m ∧ u = u' := by
  have hl : ((l ++ u :: l').map f)[l.length]? = some (f u) := by simp
  have hm : ((l ++ u :: l').map f)[m.length]? = some (f u) := by
    rw [h, hf]
    simp
  have hlen := (List.getElem?_inj (List.getElem?_eq_some_iff.mp hl).1 hnodup).mp (hl.trans hm.symm)
  obtain ⟨rfl, htail⟩ := List.append_inj h hlen
  exact ⟨rfl, (List.cons.inj htail).1⟩

/-! ## Each variable comes from its own line -/

section OwnLines

variable {vs : List Reg} {P : ℕ → Prop}

theorem body_notMem (hperm : v.Permanent) (hplain : PlainName v.name) : 10 ∉ v.body :=
  newline_notMem_body hperm hplain.2.1

/-- The variable that a loaded one comes from has its name, or one that is spelled differently. -/
theorem source_of_holds (hdb : db.Ok) (hnone : ∀ r, ¬ db.Holds r) (hperm : ∀ v ∈ vs, v.Permanent)
    (hplain : ∀ v ∈ vs, PlainName v.name)
    (hlater : ∀ u ∈ vs, ∀ c ∈ u.laterLines, ∀ w, readReg c = some w → ¬ P w.name.length)
    (hv : v ∈ vs) (hP : P v.name.length) (h : (vs.foldl loadVar db).Holds v) :
    ∃ l u l', vs = l ++ u :: l' ∧ u.index = v.index ∧
      v.name = resolve (l.foldl loadVar db).strs u.name ∧
      OwnRead u { v with name := u.name } u.firstLine := by
  rcases holds_loadVars hdb h with h | ⟨l, u, l', rfl, hmade⟩
  · exact absurd h (hnone v)
  have hu : u ∈ l ++ u :: l' := by simp
  rcases hmade with ⟨w, hread, rfl⟩ | ⟨c, hc, w, strs, hread, rfl⟩
  · have hw : PlainName w.name := (plainName_resolve _ _).mp (hplain _ hv)
    have hprefix := firstLine_prefix (body_notMem (hperm u hu) (hplain u hu))
    rcases readReg_prefix (hplain u hu) hprefix hread with hbad | hown
    · exact absurd hw hbad
    · have hname := hown.1
      refine ⟨l, u, l', rfl, hown.2.1.symm, ?_, ?_⟩
      · rw [← hname]
        rfl
      · rw [← hname]
        exact hown
  · have hlen := length_resolve strs w.name
    dsimp only [Reg.renamed] at hP
    rw [hlen] at hP
    exact absurd hP (hlater u hu c hc w hread)

/-- **Each variable comes from its own line**, if all of them are there, of those whose names have a
length at which no other line counts. -/
theorem own_line (hdb : db.Ok) (hnone : ∀ r, ¬ db.Holds r) (hperm : ∀ v ∈ vs, v.Permanent)
    (hplain : ∀ v ∈ vs, PlainName v.name) (hkeys : (vs.map fun v => (v.name, v.index)).Nodup)
    (hlater : ∀ u ∈ vs, ∀ c ∈ u.laterLines, ∀ w, readReg c = some w → ¬ P w.name.length)
    (hall : ∀ v ∈ vs, (vs.foldl loadVar db).Holds v) {l l' : List Reg} (hsplit : vs = l ++ v :: l')
    (hP : P v.name.length) :
    OwnRead v v v.firstLine ∧ resolve (l.foldl loadVar db).strs v.name = v.name := by
  have hsource {v : Reg} (hv : v ∈ vs) (hP : P v.name.length) :=
    source_of_holds hdb hnone hperm hplain hlater hv hP (hall v hv)
  -- The place of the variable that has the name and the index.
  have hplace {u u' : Reg} {m m' n n' : List Reg} (h : vs = m ++ u :: m') (h' : vs = n ++ u' :: n')
      (hname : u.name = u'.name) (hi : u.index = u'.index) : m = n ∧ u = u' := by
    rw [h] at hkeys
    exact split_unique hkeys (h ▸ h') (Prod.ext hname hi)
  have hv : v ∈ vs := by
    rw [hsplit]
    simp
  obtain ⟨m, u, m', hu, hi, hname, hown⟩ := hsource hv hP
  rcases resolve_cases (m.foldl loadVar db).strs u.name with hself | ⟨hlower, hne⟩
  · rw [hself] at hname
    obtain ⟨rfl, rfl⟩ := hplace hu hsplit hname.symm hi
    exact ⟨hown, hself⟩
  · -- A name that is not in lower case comes from its own line, and keeps its spelling there.
    exfalso
    have hmem : u ∈ vs := by
      rw [hu]
      simp
    have hPu : P u.name.length := by
      rw [hname, length_resolve] at hP
      exact hP
    obtain ⟨n, t, n', ht, hi', hname', -⟩ := hsource hmem hPu
    rcases resolve_cases (n.foldl loadVar db).strs t.name with hself' | ⟨hlower', -⟩
    · rw [hself'] at hname'
      obtain ⟨rfl, rfl⟩ := hplace ht hu hname'.symm hi'
      exact hne (hlower.symm.trans hself')
    · rw [hlower'] at hname'
      rw [hname', map_toLower_idem] at hne
      exact hne rfl

/-- What a line reads as, if it is as a whole in the buffer. -/
theorem lineOk_of_ownRead (hperm : v.Permanent) (hplain : PlainName v.name)
    (hown : OwnRead v v v.firstLine) : v.LineOk := by
  obtain ⟨-, -, hscan, d, hd, hline, hvalue⟩ := hown
  obtain ⟨hlen, hvalue⟩ := readValue_back hperm hd hvalue
  have hfirst := length_firstLine v
  have hbody : v.body.length ≤ 1023 := by
    rw [hline, List.length_append] at hfirst
    rw [body_eq_label, List.length_append]
    omega
  refine ⟨hplain.2.1, hbody, ?_, hvalue⟩
  split at hscan
  · rename_i hi
    rw [if_pos hi]
    refine ⟨hplain.1, ?_⟩
    have hnl := body_notMem hperm hplain
    obtain ⟨e, he, heq⟩ : ∃ e, IsEnd e ∧ v.firstLine = v.body ++ e := by
      rcases linesOfFile_fits hnl hbody with heq | heq <;> rw [linesOfFile_body] at heq
      · exact ⟨[10], .inr rfl, (List.cons.inj heq).1⟩
      · exact ⟨[], .inl rfl, by rw [(List.cons.inj heq).1, List.append_nil]⟩
    have hne : (v.firstLine.take 255).takeWhile (· ≠ 44) ≠ [] := by
      obtain ⟨b, name, hname⟩ := List.exists_cons_of_ne_nil (l := v.name) (by
        rintro hnil
        have := hperm.dollar
        rw [hnil] at this
        cases this)
      have hb := hperm.dollar
      rw [hname] at hb
      obtain rfl := Option.some.inj hb
      have hfirst : ∃ r, v.firstLine = 36 :: r := by
        rw [hline]
        unfold Reg.label
        rw [if_pos hi, hname]
        exact ⟨_, rfl⟩
      obtain ⟨r, hr⟩ := hfirst
      rw [hr]
      simp
    rw [← hasIndex_append v.body he, ← heq, ← scanIndexed_isSome hne, hscan]
    rfl
  · rename_i hi
    rw [if_neg hi]
    exact ⟨hplain.2.2, hscan⟩

theorem length_body_le (hperm : v.Permanent) : v.body.length ≤ v.name.length + 259 := by
  have htext : v.value.text.length ≤ 254 := by
    rcases hval : v.value with val | s
    · have h1 := val.le_toInt
      have h2 := val.toInt_lt
      have := length_ofNat_le_of_lt (n := val.toInt.natAbs) (k := 10) (by omega) (by omega)
      dsimp only [RegValue.text]
      unfold ofInt
      split
      · rw [List.length_cons]
        omega
      · omega
    · have := (hperm.str s hval).2.2
      dsimp only [RegValue.text]
      omega
  have hi := length_ofNat_le_of_lt (n := v.index.toNat) (k := 3) (by omega)
    (by have := v.index.toNat_lt; omega)
  unfold Reg.body
  split <;> simp only [List.length_append, List.length_cons] <;> omega

/-- **No line is longer than the buffer**, if all variables are there. -/
theorem length_body_of_all (hdb : db.Ok) (hnone : ∀ r, ¬ db.Holds r)
    (hperm : ∀ v ∈ vs, v.Permanent) (hplain : ∀ v ∈ vs, PlainName v.name)
    (hkeys : (vs.map fun v => (v.name, v.index)).Nodup)
    (hall : ∀ v ∈ vs, (vs.foldl loadVar db).Holds v) (hv : v ∈ vs) : v.body.length ≤ 1023 := by
  by_contra hlong
  have hlen := length_body_le (hperm v hv)
  have hname : ∀ u ∈ vs, u.name.length ≤ 1023 := by
    intro u hu
    rcases holds_loadVars hdb (hall u hu) with h | ⟨_, _, _, -, hmade⟩
    · exact absurd h (hnone u)
    · exact length_name_of_made hmade
  have hlater : ∀ u ∈ vs, ∀ c ∈ u.laterLines, ∀ w, readReg c = some w → ¬ 765 ≤ w.name.length := by
    intro u hu c hc w hread hge
    have h1 := length_name_le hread
    have h2 := length_laterLines (body_notMem (hperm u hu) (hplain u hu)) hc
    have h3 := length_body_le (hperm u hu)
    have h4 := hname u hu
    omega
  obtain ⟨l, l', hsplit⟩ := List.append_of_mem hv
  have hown := (own_line (P := fun n => 765 ≤ n) hdb hnone hperm hplain hkeys hlater hall hsplit
    (show 765 ≤ v.name.length by omega)).1
  exact hlong (lineOk_of_ownRead (hperm v hv) (hplain v hv) hown).2.1

theorem spellingOk_of_own {strs : StrTable} (hstrs : ∀ p, p ∈ strs ↔ p ∈ db.strs)
    (hperm : ∀ v ∈ vs, v.Permanent) (hline : ∀ v ∈ vs, v.LineOk)
    (hself : ∀ l v l', vs = l ++ v :: l' → resolve (l.foldl loadVar db).strs v.name = v.name) :
    SpellingOk strs vs := by
  induction vs generalizing db strs with
  | nil => trivial
  | cons v vs ih =>
    have hv : resolve db.strs v.name = v.name := hself [] v vs rfl
    have hstrs' : ∀ p, p ∈ strs ++ [v.name] ↔ p ∈ (loadVar db v).strs := by
      intro p
      rw [loadVar_eq (hperm v (by simp)) (hline v (by simp)), strs_insertReg, mem_addStr, hv,
        List.mem_append, List.mem_singleton, hstrs]
    refine ⟨?_, ?_⟩
    · rw [hstrs]
      exact resolve_eq_self_iff.mp hv
    · exact ih hstrs' (fun v hv => hperm v (by simp [hv])) (fun v hv => hline v (by simp [hv]))
        fun l u l' hl => hself (v :: l) u l' (by rw [hl]; rfl)

/-- **Every line is in order and every name keeps its spelling**, if all variables are there. -/
theorem lines_of_all (hdb : db.Ok) (hnone : ∀ r, ¬ db.Holds r)
    (hperm : ∀ v ∈ vs, v.Permanent) (hplain : ∀ v ∈ vs, PlainName v.name)
    (hkeys : (vs.map fun v => (v.name, v.index)).Nodup)
    (hall : ∀ v ∈ vs, (vs.foldl loadVar db).Holds v) :
    (∀ v ∈ vs, v.LineOk) ∧ SpellingOk db.strs vs := by
  have hlater : ∀ u ∈ vs, ∀ c ∈ u.laterLines, ∀ w, readReg c = some w → ¬ True := by
    intro u hu c hc w hread
    have hfits := length_body_of_all hdb hnone hperm hplain hkeys hall hu
    rw [laterLines_of_fits (body_notMem (hperm u hu) (hplain u hu)) hfits hc,
      readReg_newline] at hread
    cases hread
  have hown {l v l'} (hsplit : vs = l ++ v :: l') :=
    own_line (P := fun _ => True) hdb hnone hperm hplain hkeys hlater hall hsplit trivial
  have hline : ∀ v ∈ vs, v.LineOk := by
    intro v hv
    obtain ⟨l, l', hsplit⟩ := List.append_of_mem hv
    exact lineOk_of_ownRead (hperm v hv) (hplain v hv) (hown hsplit).1
  exact ⟨hline, spellingOk_of_own (fun _ => Iff.rfl) hperm hline fun l v l' h => (hown h).2⟩

end OwnLines

end Tables

/-! ## The round trip -/

/-- The variables come back as they were saved: the tables hold them and nothing else. -/
def Restored (strs : StrTable) (ints : List (VarName × UInt8 × Int32))
    (texts : List (VarName × UInt8 × List UInt8)) : Prop :=
  ∀ r, (scriptLoadMapreg strs (scriptSaveMapreg ints texts)).Holds r ↔ r ∈ savedRegs ints texts

/-- **Saving and loading keeps the permanent variables** if every line is in order and every name
keeps its spelling, and for plain names only then. -/
theorem mapreg_restored (strs : StrTable) (ints : List (VarName × UInt8 × Int32))
    (texts : List (VarName × UInt8 × List UInt8)) (hstrs : strs.Nodup)
    (hperm : ∀ v ∈ savedRegs ints texts, v.Permanent)
    (hkeys : ((savedRegs ints texts).map fun v => (v.name, v.index)).Nodup) :
    ((∀ v ∈ savedRegs ints texts, v.LineOk) ∧ SpellingOk strs (savedRegs ints texts) →
      Restored strs ints texts) ∧
    ((∀ v ∈ savedRegs ints texts, PlainName v.name) → Restored strs ints texts →
      (∀ v ∈ savedRegs ints texts, v.LineOk) ∧ SpellingOk strs (savedRegs ints texts)) := by
  have hdb : MapregDb.Ok { strs := strs } := ⟨hstrs, fun _ _ => rfl, fun _ _ => rfl⟩
  have hnone (r : Reg) : ¬ MapregDb.Holds { strs := strs } r := by
    rintro ⟨s, -, h⟩
    rcases r with ⟨_, _, _ | _⟩ <;> cases h
  constructor
  · rintro ⟨hline, hspell⟩ r
    rw [scriptLoad_save hperm fun v hv => (hline v hv).1,
      holds_loadAll hdb hperm hline hspell hkeys fun r h => absurd h (hnone r)]
    exact or_iff_right (hnone r)
  · intro hplain h
    refine lines_of_all hdb hnone hperm hplain hkeys fun v hv => ?_
    rw [← scriptLoad_save hperm fun v hv => (hplain v hv).2.1]
    exact (h v).mpr hv

/-- The greeting `$msg$` and the counter `$n[2]`. -/
def greeting : List (VarName × UInt8 × Int32) × List (VarName × UInt8 × List UInt8) :=
  ([([36, 110], 2, -7)], [([36, 109, 115, 103, 36], 0, [72, 105, 44, 32, 121, 111, 117])])

theorem permanent_greeting : ∀ v ∈ savedRegs greeting.1 greeting.2, v.Permanent := by
  intro v hv
  obtain rfl | rfl : v = ⟨[36, 110], 2, .int (-7)⟩ ∨
      v = ⟨[36, 109, 115, 103, 36], 0, .str [72, 105, 44, 32, 121, 111, 117]⟩ := by
    simpa [savedRegs, greeting] using hv
  · exact ⟨rfl, by decide, by simp, by rintro val ⟨⟩; decide, by rintro s ⟨⟩⟩
  · exact ⟨rfl, by decide, by simp, by rintro val ⟨⟩, by rintro s ⟨⟩; decide⟩

/-- They come back, as the comma in the greeting has no number behind it. -/
theorem mapreg_restored_greeting : Restored [] greeting.1 greeting.2 :=
  (mapreg_restored [] greeting.1 greeting.2 List.nodup_nil permanent_greeting
    (by decide)).1 (by decide +kernel)

/-- The greeting `Hi, 5` is taken for an index and is lost. -/
theorem mapreg_lost : ¬ ∀ (ints : List (VarName × UInt8 × Int32))
    (texts : List (VarName × UInt8 × List UInt8)),
    (∀ v ∈ savedRegs ints texts, v.Permanent) →
    ((savedRegs ints texts).map fun v => (v.name, v.index)).Nodup →
    Restored [] ints texts := by
  intro h
  have hperm : ∀ v ∈ savedRegs [] [([36, 109, 115, 103, 36], 0, [72, 105, 44, 32, 53])],
      v.Permanent := by
    intro v hv
    obtain rfl : v = ⟨[36, 109, 115, 103, 36], 0, .str [72, 105, 44, 32, 53]⟩ := by
      simpa [savedRegs] using hv
    exact ⟨rfl, by decide, by simp, by rintro val ⟨⟩, by rintro s ⟨⟩; decide⟩
  obtain ⟨s, hs, -⟩ := (h [] [([36, 109, 115, 103, 36], 0, [72, 105, 44, 32, 53])] hperm
    (by decide) ⟨[36, 109, 115, 103, 36], 0, .str [72, 105, 44, 32, 53]⟩).mpr (by decide)
  have hempty : (scriptLoadMapreg [] (scriptSaveMapreg []
      [([36, 109, 115, 103, 36], 0, [72, 105, 44, 32, 53])])).strs = [] := by decide +kernel
  rw [hempty] at hs
  cases hs

end Nezumi
