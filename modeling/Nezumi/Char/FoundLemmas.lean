import Nezumi.Char.TableLemmas

/-!
# Indexes of the character table in sessions (`char/char.c`)

* `active`: the data of a connection that may select, create and delete. `Still s s'`: those of `s'`
  come from `s` with the same account and the same indexes.
* `Shown s m sd sh`: the indexes of a session are those of the characters `sh` of its account.
* `Shifted`: the indexes after a row has been deleted. `shifted_repairFound` says that the repair of
  the moved row's owner gives this for every session.
* `shown_shifted`, `shown_fill`, `shown_close`, `shown_foundOf`: what the client is shown afterwards.
-/

namespace Nezumi

variable {conf : CharConf} {now : Int} {s s' s'' : CharServer} {m m' : Chars} {fd : Fin fdSetsize}
  {i j : Nat} {id : Int} {sd sd' : SessionData} {sh : Fin 9 → Option Int}

/-! ## Authenticated sessions -/

/-- The data of a client that is authenticated and not being disconnected. -/
def Session.active (c : Session) : Option SessionData :=
  if c.eof then none else c.data.filter SessionData.auth

def CharServer.active (s : CharServer) (fd : Fin fdSetsize) : Option SessionData :=
  (s.session fd).bind Session.active

theorem Session.active_eq_some {c : Session} :
    c.active = some sd ↔ c.eof = false ∧ c.data = some sd ∧ sd.auth = true := by
  unfold Session.active
  cases c.eof <;> simp [Option.filter_eq_some_iff]

theorem active_eq_some : s.active fd = some sd ↔
    ∃ c, s.session fd = some c ∧ c.eof = false ∧ c.data = some sd ∧ sd.auth = true := by
  simp only [CharServer.active, Option.bind_eq_some_iff, Session.active_eq_some]

theorem data_of_active (h : s.active fd = some sd) : s.data fd = some sd := by
  obtain ⟨c, hc, -, hdata, -⟩ := active_eq_some.mp h
  exact data_eq_some.mpr ⟨c, hc, hdata⟩

/-- The same account and the same indexes. -/
structure SameFound (sd sd' : SessionData) : Prop where
  foundChar : sd'.foundChar = sd.foundChar
  accountId : sd'.accountId = sd.accountId

theorem SameFound.refl (sd : SessionData) : SameFound sd sd := ⟨rfl, rfl⟩

theorem SameFound.trans {a b c : SessionData} (h : SameFound a b) (h' : SameFound b c) :
    SameFound a c := ⟨h'.foundChar.trans h.foundChar, h'.accountId.trans h.accountId⟩

/-- The authenticated sessions of `s'` come from `s`, with the same indexes. -/
abbrev Still : CharServer → CharServer → Prop := Carries Session.active SameFound

theorem still_of_session (h : s'.session = s.session) : Still s s' :=
  carries_of_session SameFound.refl h

theorem Still.trans (h : Still s s') (h' : Still s' s'') : Still s s'' :=
  Carries.trans SameFound.trans h h'

theorem still_updateData (s : CharServer) (fd : Fin fdSetsize) {f : SessionData → SessionData}
    (hf : ∀ sd, SameFound sd (f sd)) (hauth : ∀ sd, (f sd).auth = true → sd.auth = true) :
    Still s (s.updateData fd f) := by
  refine carries_updateSession SameFound.refl s fd fun c sd' hsd' => ?_
  obtain ⟨heof, hdata, ha⟩ := Session.active_eq_some.mp hsd'
  obtain ⟨sd, hsd, rfl⟩ := Option.map_eq_some_iff.mp hdata
  exact ⟨sd, Session.active_eq_some.mpr ⟨heof, hsd, hauth sd ha⟩, hf sd⟩

theorem still_setEof (s : CharServer) (fd : Fin fdSetsize) : Still s (s.setEof fd) :=
  carries_updateSession SameFound.refl s fd fun _ _ hsd' => by
    cases (Session.active_eq_some.mp hsd').1

theorem still_close (s : CharServer) (fd : Fin fdSetsize) :
    Still s { s with session := Function.update s.session fd none } :=
  carries_close SameFound.refl s fd

theorem still_endSelect (s : CharServer) (fd : Fin fdSetsize) : Still s (endSelect s fd) :=
  still_updateData s fd (fun sd => ⟨rfl, rfl⟩) fun _ h => by cases h

/-- The client whose session is changed. -/
theorem active_updateData_self (s : CharServer) (fd : Fin fdSetsize) {f : SessionData → SessionData}
    (hauth : ∀ sd, (f sd).auth = true → sd.auth = true)
    (h : (s.updateData fd f).active fd = some sd') :
    ∃ sd, s.active fd = some sd ∧ sd' = f sd := by
  obtain ⟨c', hc', heof, hdata, ha⟩ := active_eq_some.mp h
  simp only [CharServer.updateData, CharServer.updateSession, Function.update_self,
    Option.map_eq_some_iff] at hc'
  obtain ⟨c, hc, rfl⟩ := hc'
  obtain ⟨sd, hsd, rfl⟩ := Option.map_eq_some_iff.mp hdata
  exact ⟨sd, active_eq_some.mpr ⟨c, hc, heof, hsd, hauth sd ha⟩, rfl⟩

theorem active_updateData_of_ne (s : CharServer) {fd' : Fin fdSetsize} (h : fd' ≠ fd)
    (f : SessionData → SessionData) : (s.updateData fd f).active fd' = s.active fd' := by
  simp [CharServer.active, CharServer.updateData, CharServer.updateSession, Function.update_of_ne h]

theorem sessionOf_none {accountId : Int} (h : s.sessionOf accountId = none)
    (hsd : s.data fd = some sd) : sd.accountId ≠ accountId := by
  have hany := Slots.first_eq_none_iff.mp h fd
  unfold CharServer.data at hsd
  rw [hsd] at hany
  simpa using hany

/-- The session of an account is the one that is found. -/
theorem Unique.sessionOf_eq (hu : Unique s) (hsd : s.data fd = some sd) :
    s.sessionOf sd.accountId = some fd := by
  cases hof : s.sessionOf sd.accountId with
  | none => exact absurd rfl (sessionOf_none hof hsd)
  | some fd' =>
    obtain ⟨sd', hsd', hacc⟩ := sessionOf_some hof
    rw [hu fd' fd sd' sd hsd' hsd hacc]

/-! ## What a client is shown -/

/-- The indexes of a session are those of the characters that its client is shown, which are of its
account. -/
structure Shown (s : CharServer) (m : Chars) (sd : SessionData) (sh : Fin 9 → Option Int) :
    Prop where
  found : ∀ k i, sd.foundChar k = some i →
    ∃ id, sh k = some id ∧ s.At i id ∧ m.owner id = some sd.accountId
  void : ∀ k, sd.foundChar k = none → sh k = none
  inj : ∀ k l id, sh k = some id → sh l = some id → k = l

/-- Indexes and accounts stay. -/
theorem Shown.mono (h : Shown s m sd sh) (hat : ∀ i id, s.At i id → s'.At i id)
    (howner : ∀ id a, m.owner id = some a → m'.owner id = some a) (hf : SameFound sd sd') :
    Shown s' m' sd' sh := by
  refine ⟨fun k i hk => ?_, fun k hk => h.void k ?_, h.inj⟩
  · rw [hf.foundChar] at hk
    obtain ⟨id, hid, hi, ho⟩ := h.found k i hk
    exact ⟨id, hid, hat i id hi, by rw [hf.accountId]; exact howner id _ ho⟩
  · rw [← hf.foundChar]
    exact hk

/-- Who is shown a character has its index. -/
theorem Shown.exists_found (h : Shown s m sd sh) {k : Fin 9} (hk : sh k = some id) :
    ∃ i, sd.foundChar k = some i ∧ s.At i id ∧ m.owner id = some sd.accountId := by
  cases hf : sd.foundChar k with
  | none =>
    rw [h.void k hf] at hk
    cases hk
  | some i =>
    obtain ⟨id', hid', hi, ho⟩ := h.found k i hf
    obtain rfl : id' = id := Option.some.inj (hid'.symm.trans hk)
    exact ⟨i, rfl, hi, ho⟩

/-- The places of two indexes are equal if the indexes are. -/
theorem Shown.place_eq (h : Shown s m sd sh) {k l : Fin 9} (hk : sd.foundChar k = some i)
    (hl : sd.foundChar l = some i) : k = l := by
  obtain ⟨a, ha, hia, -⟩ := h.found k i hk
  obtain ⟨b, hb, hib, -⟩ := h.found l i hl
  obtain rfl : a = b := hia.key.symm.trans hib.key
  exact h.inj k l a ha hb

/-- A void place is void in both. -/
theorem Shown.isNone_iff (h : Shown s m sd sh) (k : Fin 9) :
    (sd.foundChar k).isNone = (sh k).isNone := by
  cases hf : sd.foundChar k with
  | none =>
    rw [h.void k hf]
    rfl
  | some i =>
    obtain ⟨id, hid, -⟩ := h.found k i hf
    rw [hid]
    rfl

/-! ## A row is deleted -/

/-- The indexes of a session after row `i` has been deleted, without those of the row itself. -/
structure Shifted (s : CharServer) (i : Nat) (sd sd' : SessionData) : Prop where
  accountId : sd'.accountId = sd.accountId
  found : ∀ k j, sd.foundChar k = some j → j ≠ i → sd'.foundChar k = some (s.rows.moved i j)
  void : ∀ k, sd.foundChar k = none → sd'.foundChar k = none

/-- The table of `s'` is the one of `s` without row `i`. -/
structure Removed (s : CharServer) (i : Nat) (s' : CharServer) : Prop where
  lt : i < s.charNum
  rows : Pool.Agree ((charDivorce s i).rows.swapRemove i) s'.rows
  charIdCount : s'.charIdCount = s.charIdCount

theorem Removed.tableOk (h : Removed s i s') (ht : TableOk s m) :
    TableOk s' (m.without fun z => z = (s.charDat i).charId) :=
  tableOk_remove ht h.lt h.rows h.charIdCount

theorem Removed.at (h : Removed s i s') (hj : s.At j id) (hne : j ≠ i) :
    s'.At (s.rows.moved i j) id := by
  have hlt : i < (charDivorce s i).rows.num := by
    simp only [CharServer.rows, charNum_charDivorce]
    exact h.lt
  have hmoved : (charDivorce s i).rows.moved i j = s.rows.moved i j :=
    Pool.moved_congr (charNum_charDivorce s i) i j
  rw [← hmoved]
  exact (Pool.designates_swapRemove hlt (at_charDivorce hj i) hne).of_agree h.rows

theorem moved_rows (hj : j ≠ s.charNum - 1) : s.rows.moved i j = j := Pool.moved_of_ne hj i

/-- What is shown and not deleted. -/
theorem shown_shifted (h : Removed s i s') (hsh : Shown s m sd sh) (hsd : Shifted s i sd sd')
    (hnot : ∀ k, sh k ≠ some (s.charDat i).charId) :
    Shown s' (m.without fun z => z = (s.charDat i).charId) sd' sh := by
  -- A place that is filled afterwards was filled before, with another index than `i`.
  have hback : ∀ k j', sd'.foundChar k = some j' → ∃ j id, sh k = some id ∧ s.At j id ∧ j ≠ i ∧
      m.owner id = some sd.accountId ∧ s.rows.moved i j = j' := by
    intro k j' hk
    cases hf : sd.foundChar k with
    | none =>
      rw [hsd.void k hf] at hk
      cases hk
    | some j =>
      obtain ⟨id, hid, hj, ho⟩ := hsh.found k j hf
      have hji : j ≠ i := by
        rintro rfl
        exact hnot k (by rw [hid, ← hj.key]; rfl)
      rw [hsd.found k j hf hji] at hk
      exact ⟨j, id, hid, hj, hji, ho, Option.some.inj hk⟩
  refine ⟨fun k j' hk => ?_, fun k hk => ?_, hsh.inj⟩
  · obtain ⟨j, id, hid, hj, hji, ho, rfl⟩ := hback k j' hk
    refine ⟨id, hid, h.at hj hji, ?_⟩
    rw [Chars.owner_without, hsd.accountId, ho]
    rw [decide_eq_false_iff_not]
    rintro rfl
    exact hnot k hid
  · cases hf : sd.foundChar k with
    | none => exact hsh.void k hf
    | some j =>
      obtain ⟨id, hid, hj, ho⟩ := hsh.found k j hf
      have hji : j ≠ i := by
        rintro rfl
        exact hnot k (by rw [hid, ← hj.key]; rfl)
      rw [hsd.found k j hf hji] at hk
      cases hk

/-- A session without the last index need not be repaired. -/
theorem shifted_of_same (hf : SameFound sd sd')
    (hlast : ∀ k, sd.foundChar k = some (s.charNum - 1) → i = s.charNum - 1) :
    Shifted s i sd sd' := by
  refine ⟨hf.accountId, fun k j hk hne => ?_, fun k hk => by rw [hf.foundChar]; exact hk⟩
  have hj : j ≠ s.charNum - 1 := by
    rintro rfl
    exact hne (hlast k hk).symm
  rw [hf.foundChar, hk, moved_rows hj]

/-- The repair of the moved row's owner, on a table that has the sessions and the size of `s`. -/
theorem shifted_repairFound {t : CharServer} (ht : t.session = s.session) (hnum : t.charNum = s.charNum)
    (hacc : (t.charDat (s.charNum - 1)).accountId = (s.charDat (s.charNum - 1)).accountId)
    (hm : TableOk s m) (hu : Unique s) (hsd' : (repairFound t i).active fd = some sd')
    (hsh : ∀ sd, s.active fd = some sd → ∃ sh, Shown s m sd sh) :
    ∃ sd, s.active fd = some sd ∧ Shifted s i sd sd' := by
  have htu : t.active fd = s.active fd := by unfold CharServer.active; rw [ht]
  have hof : t.sessionOf = s.sessionOf := by unfold CharServer.sessionOf; rw [ht]
  -- Who has the last index is the session that is found.
  have howner : ∀ sd, s.active fd = some sd → ∀ k, sd.foundChar k = some (s.charNum - 1) →
      s.sessionOf (s.charDat (s.charNum - 1)).accountId = some fd := by
    intro sd hsd k hk
    obtain ⟨sh, hsh⟩ := hsh sd hsd
    obtain ⟨id, -, hat, ho⟩ := hsh.found k _ hk
    have hsame := (hm.owner hat).symm.trans ho
    rw [Option.some.inj hsame]
    exact hu.sessionOf_eq (data_of_active hsd)
  unfold repairFound at hsd'
  simp only at hsd'
  rw [hnum, hacc, hof] at hsd'
  have hkept : s.sessionOf (s.charDat (s.charNum - 1)).accountId ≠ some fd →
      s.active fd = some sd' → ∃ sd, s.active fd = some sd ∧ Shifted s i sd sd' :=
    fun hne hsd => ⟨sd', hsd, shifted_of_same (SameFound.refl sd')
      fun k hk => absurd (howner sd' hsd k hk) hne⟩
  split at hsd'
  · rename_i hnone
    rw [htu] at hsd'
    exact hkept (by rw [hnone]; simp) hsd'
  · rename_i fd' hfound
    by_cases hfd : fd = fd'
    · subst hfd
      obtain ⟨sd, hsd, rfl⟩ := active_updateData_self t fd
        (fun sd h => by revert h; split <;> exact id) hsd'
      rw [htu] at hsd
      obtain ⟨sh, hsh⟩ := hsh sd hsd
      refine ⟨sd, hsd, ?_⟩
      split
      · rename_i k hk
        have hklast : sd.foundChar k = some (s.charNum - 1) := by simpa using Slots.first_some hk
        refine ⟨rfl, fun l j hl hne => ?_, fun l hl => ?_⟩
        · by_cases hlk : l = k
          · have hj : j = s.charNum - 1 := by
              rw [hlk, hklast] at hl
              exact (Option.some.inj hl).symm
            have hmoved : s.rows.moved i j = i := by
              rw [hj]
              exact Pool.moved_last s.rows i
            simp only [hlk, Function.update_self, hmoved]
          · have hj : j ≠ s.charNum - 1 := by
              rintro rfl
              exact hlk (hsh.place_eq hl hklast)
            simp only [Function.update_of_ne hlk, hl, moved_rows hj]
        · have hlk : l ≠ k := by
            rintro rfl
            rw [hklast] at hl
            cases hl
          simp only [Function.update_of_ne hlk, hl]
      · rename_i hnone
        refine shifted_of_same (SameFound.refl sd) fun k hk => ?_
        have := Slots.first_eq_none_iff.mp hnone k
        simp [hk] at this
    · rw [active_updateData_of_ne t hfd, htu] at hsd'
      exact hkept (by rw [hfound]; simpa using fun h => hfd h.symm) hsd'

/-! ## The characters of a session -/

/-- The place that moves to a place when place `k` is closed. -/
def closePlace (k p : Fin 9) : Option (Fin 9) :=
  if p < k then some p else if h : p.val + 1 < 9 then some ⟨p + 1, h⟩ else none

theorem closeFound_eq {α : Type*} (f : Fin 9 → Option α) (k p : Fin 9) :
    closeFound f k p = (closePlace k p).bind f := by
  unfold closeFound closePlace
  split
  · rfl
  · split <;> rfl

theorem closePlace_ne (k p q : Fin 9) (h : closePlace k p = some q) : q ≠ k := by
  revert h
  unfold closePlace
  split
  · rintro ⟨⟩
    exact ne_of_lt ‹_›
  · split
    · rintro ⟨⟩ heq
      have := congrArg Fin.val heq
      simp only at this
      omega
    · rintro ⟨⟩

theorem closePlace_inj (k : Fin 9) {p q r : Fin 9} (hp : closePlace k p = some r)
    (hq : closePlace k q = some r) : p = q := by
  unfold closePlace at hp hq
  ext
  split at hp <;> split at hq
  · cases hp
    cases hq
    rfl
  · split at hq
    · cases hp
      have := congrArg Fin.val (Option.some.inj hq)
      simp only at this
      omega
    · cases hq
  · split at hp
    · cases hq
      have := congrArg Fin.val (Option.some.inj hp)
      simp only at this
      omega
    · cases hp
  · split at hp
    · split at hq
      · have h1 := congrArg Fin.val (Option.some.inj hp)
        have h2 := congrArg Fin.val (Option.some.inj hq)
        simp only at h1 h2
        omega
      · cases hq
    · cases hp

/-- The session of the deleted character: the place is closed. -/
theorem shown_close (h : Removed s i s') (hsh : Shown s m sd sh) (hsd : Shifted s i sd sd')
    {k : Fin 9} (hk : sd.foundChar k = some i) :
    Shown s' (m.without fun z => z = (s.charDat i).charId)
      { sd' with foundChar := closeFound sd'.foundChar k } (closeFound sh k) := by
  obtain ⟨idk, hidk, hik, -⟩ := hsh.found k i hk
  have hother : ∀ q, q ≠ k → ∀ id, sh q = some id → id ≠ (s.charDat i).charId := by
    rintro q hq id hid rfl
    exact hq (hsh.inj q k _ hid (by rw [hidk, ← hik.key]; rfl))
  refine ⟨fun p j' hp => ?_, fun p hp => ?_, fun p q id hp hq => ?_⟩
  · simp only [closeFound_eq, Option.bind_eq_some_iff] at hp ⊢
    obtain ⟨q, hq, hqj⟩ := hp
    cases hf : sd.foundChar q with
    | none =>
      rw [hsd.void q hf] at hqj
      cases hqj
    | some j =>
      obtain ⟨id, hid, hj, ho⟩ := hsh.found q j hf
      have hid' := hother q (closePlace_ne k p q hq) id hid
      have hji : j ≠ i := by
        rintro rfl
        exact hid' (by rw [← hj.key]; rfl)
      rw [hsd.found q j hf hji] at hqj
      obtain rfl := Option.some.inj hqj
      refine ⟨id, ⟨q, hq, hid⟩, h.at hj hji, ?_⟩
      rw [Chars.owner_without (by simpa using hid'), hsd.accountId]
      exact ho
  · simp only [closeFound_eq] at hp ⊢
    cases hq : closePlace k p with
    | none => rfl
    | some q =>
      simp only [hq, Option.bind_some] at hp ⊢
      cases hf : sd.foundChar q with
      | none => exact hsh.void q hf
      | some j =>
        obtain ⟨id, hid, hj, -⟩ := hsh.found q j hf
        have hji : j ≠ i := by
          rintro rfl
          exact hother q (closePlace_ne k p q hq) id hid (by rw [← hj.key]; rfl)
        rw [hsd.found q j hf hji] at hp
        cases hp
  · simp only [closeFound_eq, Option.bind_eq_some_iff] at hp hq
    obtain ⟨a, ha, hida⟩ := hp
    obtain ⟨b, hb, hidb⟩ := hq
    obtain rfl := hsh.inj a b id hida hidb
    exact closePlace_inj k ha hb

/-- A new character of the account takes the first void place. -/
theorem shown_fill (hsh : Shown s m sd sh) (hi : s.At i id) (ho : m.owner id = some sd.accountId)
    (hnew : ∀ k, sh k ≠ some id) :
    Shown s m { sd with foundChar := fillFound sd.foundChar i } (fillFound sh id) := by
  have hfirst : Slots.first Option.isNone sd.foundChar = Slots.first Option.isNone sh :=
    Slots.first_congr hsh.isNone_iff
  unfold fillFound
  rw [hfirst]
  cases Slots.first Option.isNone sh with
  | none => exact hsh
  | some k =>
    refine ⟨fun l j hl => ?_, fun l hl => ?_, fun p q id' hp hq => ?_⟩
    · simp only at hl ⊢
      by_cases hlk : l = k
      · rw [hlk, Function.update_self] at hl ⊢
        obtain rfl := Option.some.inj hl
        exact ⟨id, rfl, hi, ho⟩
      · rw [Function.update_of_ne hlk] at hl ⊢
        exact hsh.found l j hl
    · simp only at hl ⊢
      by_cases hlk : l = k
      · rw [hlk, Function.update_self] at hl
        cases hl
      · rw [Function.update_of_ne hlk] at hl ⊢
        exact hsh.void l hl
    · simp only at hp hq
      by_cases hpk : p = k
      · by_cases hqk : q = k
        · rw [hpk, hqk]
        · rw [hpk, Function.update_self] at hp
          rw [Function.update_of_ne hqk] at hq
          exact absurd (hq.trans hp.symm) (hnew q)
      · rw [Function.update_of_ne hpk] at hp
        by_cases hqk : q = k
        · rw [hqk, Function.update_self] at hq
          exact absurd (hp.trans hq.symm) (hnew p)
        · rw [Function.update_of_ne hqk] at hq
          exact hsh.inj p q id' hp hq

/-- The list that a client gets. -/
theorem shown_foundOf (h : TableOk s m) {accountId : Int} (hacc : sd.accountId = accountId)
    (hf : sd.foundChar = fun k => (foundOf s accountId)[k.val]?) :
    Shown s m sd fun k => ((foundOf s accountId).map fun i => (s.charDat i).charId)[k.val]? := by
  have hmem : ∀ i ∈ foundOf s accountId, i < s.charNum ∧ (s.charDat i).accountId = accountId := by
    intro i hi
    simpa using List.mem_filter.mp (List.mem_of_mem_take hi)
  have hnodup : (foundOf s accountId).Nodup :=
    (List.nodup_range.filter _).sublist (List.take_sublist ..)
  refine ⟨fun k i hk => ?_, fun k hk => ?_, fun k l id hk hl => ?_⟩
  · rw [hf] at hk
    obtain ⟨hlt, hown⟩ := hmem i (List.mem_of_getElem? hk)
    refine ⟨(s.charDat i).charId, by simp [hk], at_self hlt, ?_⟩
    rw [h.owner (at_self hlt), hown, hacc]
  · rw [hf] at hk
    simp [hk]
  · simp only [List.getElem?_map, Option.map_eq_some_iff] at hk hl
    obtain ⟨a, ha, hida⟩ := hk
    obtain ⟨b, hb, hidb⟩ := hl
    have hlta := (hmem a (List.mem_of_getElem? ha)).1
    have hltb := (hmem b (List.mem_of_getElem? hb)).1
    have hab : a = b := h.rows.inj.eq (k := id) ⟨hlta, hida⟩ ⟨hltb, hidb⟩
    obtain ⟨hka, hva⟩ := List.getElem?_eq_some_iff.mp ha
    obtain ⟨hkb, hvb⟩ := List.getElem?_eq_some_iff.mp hb
    exact Fin.ext ((hnodup.getElem_inj_iff).mp (hva.trans (hab.trans hvb.symm)))

end Nezumi
