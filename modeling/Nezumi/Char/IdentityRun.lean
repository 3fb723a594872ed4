import Nezumi.Lib.Run
import Nezumi.Char.DeletionLemmas

/-!
# Character identity over whole runs (`char/char.c`)

* A `Roster` is what the server has said: the characters by id, the selection of each account, the
  characters that each client is shown. It knows nothing of indexes.
* `CharIdentity` is what a step must keep to: an index of an authenticated session and of an unused
  entry is the one of the character that is shown or selected, and `0x2afc` is answered with the
  selected character.
* `RosterOk` is the invariant: the table is the roster, and every index designates.
* `charRun_identity`: in a run whose deletions meet no unused entry of the deleted or of a moved row,
  every step keeps to it.
* `charRun_not_identity`: a character is selected, another player's character is deleted, and the
  map-server gets a character of that player.
-/

namespace Nezumi

/-! ## What has been said -/

/-- The characters, the latest selection of each account, and what each client is shown. -/
structure Roster where
  chars : Chars
  selected : Int → Option Selection := fun _ => none
  shown : Fin fdSetsize → Fin 9 → Option Int := fun _ _ => none

abbrev CharWorld := CharServer × Roster

/-- A character enters the map. -/
def Character.entering (s : CharServer) (c : Character) : Character :=
  { c with status := c.status.entering s }

/-- A character gets the sex of its account. -/
def Character.withSex (sex : Nat) (c : Character) : Character :=
  { c with status := { c.status with sex := sex } }

namespace Roster

/-- One character is changed. -/
def modify (ro : Roster) (charId : Int) (f : Character → Character) : Roster :=
  { ro with chars := Function.update ro.chars charId ((ro.chars charId).map f) }

/-- A client creates a character. -/
def create (conf : CharConf) (ro : Roster) (fd : Fin fdSetsize) (charId accountId : Int)
    (dat : List UInt8) : Roster :=
  match newCharName conf dat with
  | none => ro
  | some name =>
    { ro with
      chars := Function.update ro.chars charId
        (some ⟨newChar conf charId accountId name dat, [], []⟩)
      shown := Function.update ro.shown fd (fillFound (ro.shown fd) charId) }

/-- A client deletes a character. -/
def delete (ro : Roster) (fd : Fin fdSetsize) (charId : Int) : Roster :=
  match Slots.first (fun o => o = some charId) (ro.shown fd) with
  | none => ro
  | some k =>
    { ro with
      chars := ro.chars.without fun id => id = charId
      shown := Function.update ro.shown fd (closeFound (ro.shown fd) k) }

/-- A client with some data selects a character. -/
def select (ro : Roster) (s : CharServer) (sd : SessionData) (charId : Int) : Roster :=
  { ro.modify charId (Character.entering s) with
    selected := Function.update ro.selected sd.accountId (some ⟨charId, sd.sex⟩) }

/-- The selected character of an account is sent. -/
def send (ro : Roster) (accountId : Int) : Roster :=
  match ro.selected accountId with
  | none => ro
  | some sel => ro.modify sel.charId (Character.withSex sel.sex)

/-- What a packet says, at a step `e` from `s`. -/
def observe (conf : CharConf) (s : CharServer) (e : CharEvent) (ro : Roster) : CharOut → Roster
  | .charList fd ids => { ro with shown := Function.update ro.shown fd fun k => ids[k.val]? }
  | .charNew fd charId =>
    match e, s.data fd with
    | .client _ (.create dat), some sd => ro.create conf fd charId sd.accountId dat
    | _, _ => ro
  | .charDeleted fd =>
    match e with
    | .client _ (.delete charId _) => ro.delete fd charId
    | _ => ro
  | .mapServer fd charId _ _ =>
    match s.data fd with
    | some sd => ro.select s sd charId
    | none => ro
  | .charData a => ro.send a.accountId
  | .error .. | .toLogin .. | .refused .. => ro

/-- What a step says, from a server `s`, with its packets. -/
def next (conf : CharConf) (s : CharServer) (ro : Roster) (e : CharEvent) (out : List CharOut) :
    Roster :=
  match e with
  | .accountDeleted accountId =>
    { ro with chars := ro.chars.without fun id => ro.chars.owner id = some accountId }
  | .mapChange r =>
    if (ro.chars r.charId).isSome then
      { ro with selected := Function.update ro.selected r.accountId (some ⟨r.charId, r.sex⟩) }
    else ro
  | _ => out.foldl (fun ro o => ro.observe conf s e o) ro

end Roster

/-- A step of the server and of the roster, at a time. -/
def rosterStep (conf : CharConf) (w : CharWorld) (t : Int × CharEvent) : CharWorld :=
  ((charRun conf w.1 t.1 t.2).1, w.2.next conf w.1 t.2 (charRun conf w.1 t.1 t.2).2)

/-- Indexes are those of the characters that are shown and selected, and the map-server gets the
selected one. -/
structure CharIdentity (conf : CharConf) (w : CharWorld) (t : Int × CharEvent) : Prop where
  found : ∀ fd sd, (rosterStep conf w t).1.active fd = some sd → ∀ k i, sd.foundChar k = some i →
    ∃ id, (rosterStep conf w t).2.shown fd k = some id ∧ (rosterStep conf w t).1.At i id ∧
      ((rosterStep conf w t).1.charDat i).accountId = sd.accountId
  pending : ∀ e, (∃ j, e = (rosterStep conf w t).1.authFifo.entry j) → e.Pending →
    (rosterStep conf w t).1.At e.charPos e.charId ∧
      ((rosterStep conf w t).1.charDat e.charPos).accountId = e.accountId ∧
      (rosterStep conf w t).2.selected e.accountId = some ⟨e.charId, e.sex⟩
  selected : ∀ fd id map server, .mapServer fd id map server ∈ (charRun conf w.1 t.1 t.2).2 →
    ∃ k, w.2.shown fd k = some id
  answer : ∀ a, .charData a ∈ (charRun conf w.1 t.1 t.2).2 →
    ∃ sel, w.2.selected a.accountId = some sel ∧
      (rosterStep conf w t).2.chars sel.charId = some a.character ∧
      a.character.status.accountId = a.accountId

/-- A deletion meets no unused entry of a row that is deleted or moved, a map-server names the owner
of a character, and it does not ask for the character 0 with the ids of a void entry. -/
def DeletionOk (conf : CharConf) (w : CharWorld) (t : Int × CharEvent) : Prop :=
  match t.2 with
  | .client fd (.delete charId email) =>
    ∀ i ∈ deletedIndex conf w.1 fd charId email, ∀ j, (w.1.authFifo.entry j).Pending →
      (w.1.authFifo.entry j).charPos ≠ i ∧ (w.1.authFifo.entry j).charPos ≠ w.1.charNum - 1
  | .accountDeleted accountId =>
    ∀ j, (w.1.authFifo.entry j).Pending → (w.1.authFifo.entry j).accountId ≠ accountId ∧
      (w.1.authFifo.entry j).charPos < keptRows w.1 accountId
  | .mapChange r =>
    ∀ i ∈ charIndex w.1 fun c => c.charId = r.charId, (w.1.charDat i).accountId = r.accountId
  | .mapAuth r =>
    r.charId = 0 → (Slots.first (AuthEntry.serves conf r) w.1.authFifo.entry).isNone = true
  | _ => True

instance (conf : CharConf) (w : CharWorld) (t : Int × CharEvent) :
    Decidable (DeletionOk conf w t) :=
  match t with
  | (_, .client _ (.delete _ _)) => inferInstanceAs (Decidable (∀ _ ∈ _, ∀ _, _ → _ ∧ _))
  | (_, .accountDeleted _) => inferInstanceAs (Decidable (∀ _, _ → _ ∧ _))
  | (_, .mapChange _) => inferInstanceAs (Decidable (∀ _ ∈ _, _))
  | (_, .mapAuth _) => inferInstanceAs (Decidable (_ → _))
  | (_, .client _ (.connect _)) | (_, .client _ (.select _)) | (_, .client _ (.create _))
  | (_, .accept _ _) | (_, .close _) | (_, .loginAnswer _ _ _ _) | (_, .emailAnswer _ _ _)
  | (_, .loginInfo _) | (_, .disconnect _) | (_, .mapBack _) | (_, .servers _ _ _ _) => .isTrue trivial

/-! ## The invariant -/

/-- The entries of the ring, one unused one for an account. -/
structure RingOk (s : CharServer) (m : Chars) (selected : Int → Option Selection) : Prop where
  front : s.authFifo.Front AuthEntry.accountId AuthEntry.Pending
  entry : ∀ j, (s.authFifo.entry j).Pending → Pends s m selected (s.authFifo.entry j)

structure RosterOk (s : CharServer) (ro : Roster) : Prop where
  unique : Unique s
  table : TableOk s ro.chars
  counter : 0 < s.charIdCount
  shown : ∀ fd sd, s.active fd = some sd → Shown s ro.chars sd (ro.shown fd)
  ring : RingOk s ro.chars ro.selected

variable {conf : CharConf} {now : Int} {s s' : CharServer} {ro : Roster} {m m' : Chars}
  {selected selected' : Int → Option Selection} {fd : Fin fdSetsize} {sd : SessionData}
  {out : List CharOut} {e : CharEvent}

theorem RingOk.mono (h : RingOk s m selected) (hat : ∀ i id, s.At i id → s'.At i id)
    (howner : ∀ id a, m.owner id = some a → m'.owner id = some a)
    (hring : s'.authFifo = s.authFifo) : RingOk s' m' selected :=
  ⟨by rw [hring]; exact h.front, fun j hj => by
    rw [hring] at hj ⊢
    exact (h.entry j hj).mono hat howner⟩

/-- An entry is used. -/
theorem RingOk.used (h : RingOk s m selected) {i : Fin authFifoSize}
    (hat : ∀ i id, s.At i id → s'.At i id)
    (howner : ∀ id a, m.owner id = some a → m'.owner id = some a)
    (hring : s'.authFifo = s.authFifo.modify i fun e => { e with delflag := 1 }) :
    RingOk s' m' selected := by
  have hlive (e : AuthEntry) : ¬ { e with delflag := 1 }.Pending := fun h => by
    have := h.1
    simp at this
  constructor
  · rw [hring]
    exact KeyRing.front_modify h.front (f := fun e => { e with delflag := 1 }) (fun _ => rfl)
      (fun e he => absurd he (hlive e)) i
  · intro j hj
    rw [hring, KeyRing.entry_modify] at hj ⊢
    by_cases hji : j = i
    · rw [hji, Function.update_self] at hj
      exact absurd hj (hlive _)
    · rw [Function.update_of_ne hji] at hj ⊢
      exact (h.entry j hj).mono hat howner

theorem RingOk.of_used (h : RingOk s m selected) (hat : ∀ i id, s.At i id → s'.At i id)
    (howner : ∀ id a, m.owner id = some a → m'.owner id = some a) (hring : RingUsed s s') :
    RingOk s' m' selected := by
  rcases hring with hring | ⟨i, hring⟩
  · exact h.mono hat howner hring
  · exact h.used hat howner hring

/-- An entry is put into the ring: it is the only unused one of its account. -/
theorem RingOk.put (h : RingOk s m selected) {v : AuthEntry}
    (hat : ∀ i id, s.At i id → s'.At i id)
    (howner : ∀ id a, m.owner id = some a → m'.owner id = some a)
    (hring : s'.authFifo = s.authFifo.put AuthEntry.accountId v)
    (hsel : ∀ a, a ≠ v.accountId → selected' a = selected a)
    (hv : v.Pending → Pends s' m' selected' v) : RingOk s' m' selected' := by
  constructor
  · rw [hring]
    exact KeyRing.front_put h.front v
  · intro j hj
    rw [hring, KeyRing.entry_put] at hj ⊢
    by_cases hne : j = (s.authFifo.place AuthEntry.accountId v.accountId).1
    · rw [hne, Function.update_self] at hj ⊢
      exact hv hj
    · rw [Function.update_of_ne hne] at hj ⊢
      have hkey := h.front.key_ne_of_put hj hne
      have hp := (h.entry j hj).mono hat howner
      exact ⟨hp.place, hp.owner, by rw [hsel _ hkey]; exact hp.selected⟩

/-- A put of an entry that no map-server can use. -/
theorem RingOk.put_login (h : RingOk s m selected) {v : AuthEntry} (hv : v.delflag = 2)
    (hrows : s'.rows = s.rows)
    (hring : s'.authFifo = s.authFifo.put AuthEntry.accountId v) : RingOk s' m selected :=
  h.put (fun i id hi => by unfold CharServer.At; rw [hrows]; exact hi) (fun _ _ => id) hring
    (fun _ _ => rfl) fun hp => by
      have := hp.1
      rw [hv] at this
      simp at this

/-! ## Steps that say nothing -/

theorem Roster.observe_quiet {o : CharOut} (h : o.quiet = true) : ro.observe conf s e o = ro := by
  cases o <;> first | rfl | cases h

theorem foldl_observe_quiet (h : ∀ o ∈ out, o.quiet = true) :
    out.foldl (fun ro o => ro.observe conf s e o) ro = ro := by
  induction out with
  | nil => rfl
  | cons o out ih =>
    rw [List.foldl_cons, Roster.observe_quiet (h o List.mem_cons_self)]
    exact ih fun o' ho' => h o' (List.mem_cons_of_mem _ ho')

theorem at_of_rows (h : s'.rows = s.rows) (i : Nat) (id : Int) (hi : s.At i id) : s'.At i id := by
  unfold CharServer.At
  rw [h]
  exact hi

/-- The sessions keep their indexes, and the table is the same. -/
theorem RosterOk.still (h : RosterOk s ro) (hu : Unique s') (hs : Still s s')
    (hrows : s'.rows = s.rows) (hcount : s'.charIdCount = s.charIdCount)
    (hring : RingOk s' ro.chars ro.selected) : RosterOk s' ro := by
  refine ⟨hu, h.table.of_rows hrows hcount, by rw [hcount]; exact h.counter, fun fd sd' hsd' => ?_,
    hring⟩
  obtain ⟨sd, hsd, hf⟩ := hs.view fd sd' hsd'
  exact (h.shown fd sd hsd).mono (at_of_rows hrows) (fun _ _ => id) hf

theorem RosterOk.idle (h : RosterOk s ro) (hu : Unique s') (hi : Idle s s' out) : RosterOk s' ro :=
  h.still hu hi.still hi.rows hi.charIdCount
    (h.ring.of_used (at_of_rows hi.rows) (fun _ _ => id) hi.ring)

/-! ## Lists, selections and creations -/

/-- A client gets the list of its characters. -/
theorem RosterOk.granted (h : RosterOk s ro) (hu : Unique s') {accountId : Int}
    (hg : Granted s fd accountId s' out) :
    RosterOk s' { ro with shown := Function.update ro.shown fd fun k =>
      ((foundOf s accountId).map fun i => (s.charDat i).charId)[k.val]? } := by
  refine ⟨hu, h.table.of_rows hg.rows hg.charIdCount, by rw [hg.charIdCount]; exact h.counter,
    fun fd' sd' hsd' => ?_, h.ring.of_used (at_of_rows hg.rows) (fun _ _ => id) hg.ring⟩
  by_cases hfd : fd' = fd
  · rw [hfd] at hsd' ⊢
    obtain ⟨hacc, hfound⟩ := hg.self sd' hsd'
    simp only [Function.update_self]
    exact (shown_foundOf h.table hacc hfound).mono (at_of_rows hg.rows) (fun _ _ => id)
      (SameFound.refl sd')
  · rw [hg.others fd' hfd] at hsd'
    simp only [Function.update_of_ne hfd]
    exact (h.shown fd' sd' hsd').mono (at_of_rows hg.rows) (fun _ _ => id) (SameFound.refl sd')

/-- A change of a character that leaves its account. -/
theorem owner_modify (m : Chars) (id : Int) {f : Character → Character}
    (hf : ∀ c, (f c).status.accountId = c.status.accountId) :
    Chars.owner (Function.update m id ((m id).map f)) = m.owner := by
  funext x
  unfold Chars.owner
  by_cases hx : x = id
  · rw [hx, Function.update_self]
    cases m id with
    | none => rfl
    | some c => simp [hf]
  · rw [Function.update_of_ne hx]

theorem at_modify {i : Nat} {f : Character → Character}
    (hrows : s'.rows = s.rows.modify i f) (hf : ∀ c, (f c).charId = c.charId) (j : Nat) (id : Int)
    (hj : s.At j id) : s'.At j id := by
  unfold CharServer.At
  rw [hrows]
  exact Pool.designates_modify (hf _) hj

/-- A selection. -/
theorem RosterOk.select (h : RosterOk s ro) (hu : Unique s') (hactive : s.active fd = some sd)
    {ip : UInt32} {ch : Nat} (hs : Selected s fd sd ip s' out ch) :
    RosterOk s' (ro.select s sd (s.charDat ch).charId) := by
  obtain ⟨k, hk⟩ := hs.found
  obtain ⟨id, -, hat, ho⟩ := (h.shown fd sd hactive).found k ch hk
  obtain rfl : (s.charDat ch).charId = id := hat.key
  have hat' := at_modify hs.rows fun _ => rfl
  have howner := owner_modify ro.chars (s.charDat ch).charId (f := Character.entering s) fun _ => rfl
  have howner' (x a : Int) (hx : ro.chars.owner x = some a) :
      Chars.owner (Function.update ro.chars (s.charDat ch).charId
        ((ro.chars (s.charDat ch).charId).map (Character.entering s))) x = some a := by
    rw [howner]
    exact hx
  refine ⟨hu, tableOk_modify h.table hat rfl hs.rows hs.charIdCount,
    by rw [hs.charIdCount]; exact h.counter, fun fd' sd' hsd' => ?_, ?_⟩
  · obtain ⟨sd0, hsd0, hf⟩ := hs.still.view fd' sd' hsd'
    exact (h.shown fd' sd0 hsd0).mono hat' howner' hf
  · refine h.ring.put hat' howner' hs.ring (fun a ha => Function.update_of_ne ha ..) fun _ => ?_
    exact ⟨hat' ch _ hat, howner' _ _ ho, Function.update_self ..⟩

/-- A creation. -/
theorem RosterOk.create (h : RosterOk s ro) (hu : Unique s') (hactive : s.active fd = some sd)
    {dat : List UInt8} {name : CStr 24} (hc : Created conf s fd sd dat s' out name) :
    RosterOk s' (ro.create conf fd s.charIdCount sd.accountId dat) := by
  unfold Roster.create
  rw [hc.allowed]
  simp only
  obtain ⟨c, hcdef⟩ : ∃ c : Character,
      c = ⟨newChar conf s.charIdCount sd.accountId name dat, [], []⟩ := ⟨_, rfl⟩
  have hrows := hc.rows
  rw [← hcdef] at hrows ⊢
  have hcid : c.charId = s.charIdCount := by rw [hcdef]; rfl
  have hcacc : c.status.accountId = sd.accountId := by rw [hcdef]; rfl
  -- The counter is above the ids of all characters.
  have hold (x a : Int) (hx : ro.chars.owner x = some a) : x ≠ s.charIdCount := by
    obtain ⟨d, hd, -⟩ := Option.map_eq_some_iff.mp hx
    exact (h.table.ids x d hd).2.ne
  have hat' (j : Nat) (id : Int) (hj : s.At j id) : s'.At j id := by
    unfold CharServer.At
    rw [hrows]
    exact Pool.designates_push c hj
  have howner' (x a : Int) (hx : ro.chars.owner x = some a) :
      Chars.owner (Function.update ro.chars s.charIdCount (some c)) x = some a := by
    unfold Chars.owner
    rw [Function.update_of_ne (hold x a hx)]
    exact hx
  refine ⟨hu, tableOk_push h.table hcid h.counter hrows hc.charIdCount, ?_, fun fd' sd' hsd' => ?_,
    h.ring.mono hat' howner' hc.ring⟩
  · have := h.counter
    rw [hc.charIdCount]
    omega
  · by_cases hfd : fd' = fd
    · rw [hfd] at hsd' ⊢
      obtain ⟨sd0, hsd0, rfl⟩ := hc.self sd' hsd'
      obtain rfl : sd0 = sd := Option.some.inj (hsd0.symm.trans hactive)
      have hsh := h.shown fd sd0 hsd0
      simp only [Function.update_self]
      refine shown_fill (hsh.mono hat' howner' (SameFound.refl sd0)) ?_ ?_ fun k hk => ?_
      · have hlast := Pool.designates_push_last Character.charId s.rows c
        rw [← hrows, hcid] at hlast
        exact hlast
      · unfold Chars.owner
        rw [Function.update_self]
        exact congrArg some hcacc
      · obtain ⟨_, -, -, ho⟩ := hsh.exists_found hk
        exact hold _ _ ho rfl
    · rw [hc.others fd' hfd] at hsd'
      simp only [Function.update_of_ne hfd]
      exact (h.shown fd' sd' hsd').mono hat' howner' (SameFound.refl sd')

/-! ## Deletions -/

/-- The deletion of one character. -/
theorem RosterOk.delete (h : RosterOk s ro) (hactive : s.active fd = some sd) {k : Fin 9} {i : Nat}
    (hu : Unique (deleteFound s fd k i)) (hk : sd.foundChar k = some i)
    (hok : ∀ j, (s.authFifo.entry j).Pending →
      (s.authFifo.entry j).charPos ≠ i ∧ (s.authFifo.entry j).charPos ≠ s.charNum - 1)
    (hring : (deleteFound s fd k i).authFifo = s.authFifo) :
    RosterOk (deleteFound s fd k i) (ro.delete fd (s.charDat i).charId) := by
  have hsh := h.shown fd sd hactive
  obtain ⟨id, hid, hat, ho⟩ := hsh.found k i hk
  obtain rfl : (s.charDat i).charId = id := hat.key
  have hr : Removed s i (deleteFound s fd k i) := removed_deleteFound fd k hat.lt
  -- The client is shown the character at the same place.
  have hplace : Slots.first (fun o => decide (o = some (s.charDat i).charId)) (ro.shown fd) =
      some k := by
    rw [Slots.first_eq_some_iff]
    refine ⟨by simpa using hid, fun l hl => ?_⟩
    rw [decide_eq_false_iff_not]
    exact fun heq => hl.ne (hsh.inj l k _ heq hid)
  unfold Roster.delete
  rw [hplace]
  refine ⟨hu, hr.tableOk h.table, by rw [hr.charIdCount]; exact h.counter, fun fd' sd' hsd' => ?_, ?_⟩
  · obtain ⟨sd0, sd1, hsd0, hshift, heq⟩ := shifted_deleteFound h.table h.unique hsd'
      fun sd hsd => ⟨_, h.shown fd' sd hsd⟩
    by_cases hfd : fd' = fd
    · rw [hfd] at hsd0 heq ⊢
      obtain rfl : sd0 = sd := Option.some.inj (hsd0.symm.trans hactive)
      rw [if_pos rfl] at heq
      simp only [Function.update_self]
      rw [heq]
      exact shown_close hr hsh hshift hk
    · rw [if_neg hfd] at heq
      simp only [Function.update_of_ne hfd]
      rw [heq]
      refine shown_shifted hr (h.shown fd' sd0 hsd0) hshift fun l hl => ?_
      -- Another session has another account.
      obtain ⟨_, -, -, ho'⟩ := (h.shown fd' sd0 hsd0).exists_found hl
      exact hfd (h.unique fd' fd sd0 sd (data_of_active hsd0) (data_of_active hactive)
        (Option.some.inj (ho'.symm.trans ho)))
  · refine ⟨by rw [hring]; exact h.ring.front, fun j hj => ?_⟩
    rw [hring] at hj ⊢
    obtain ⟨hi, hlast⟩ := hok j hj
    exact (h.ring.entry j hj).remove hr hi hlast h.table

theorem authFifo_updateData (t : CharServer) (fd : Fin fdSetsize) (f : SessionData → SessionData) :
    (t.updateData fd f).authFifo = t.authFifo := rfl

theorem authFifo_deleteFound (s : CharServer) (fd : Fin fdSetsize) (k : Fin 9) (i : Nat) :
    (deleteFound s fd k i).authFifo = s.authFifo := by
  unfold deleteFound
  simp only
  split
  · rw [authFifo_updateData, authFifo_charNum, authFifo_repairFound, authFifo_moveLast,
      authFifo_charDivorce]
  · rw [authFifo_updateData, authFifo_charNum, authFifo_charDivorce]

/-- The deletion of an account. -/
theorem RosterOk.accountDeleted (h : RosterOk s ro) {accountId : Int}
    (hok : ∀ j, (s.authFifo.entry j).Pending → (s.authFifo.entry j).accountId ≠ accountId ∧
      (s.authFifo.entry j).charPos < keptRows s accountId) :
    RosterOk (accountDeleted s accountId)
      { ro with chars := ro.chars.without fun id => ro.chars.owner id = some accountId } := by
  have hstart : AccountLoop accountId ro.chars ro.shown ro.selected s fun _ => false := by
    constructor
    · rw [Chars.without_none]
      exact h.table
    · exact h.unique
    · intro fd sd hsd _
      rw [Chars.without_none]
      exact h.shown fd sd hsd
    · intro _ hid
      cases hid
    · intro j hj
      rw [Chars.without_none]
      exact ⟨h.ring.entry j hj, hok j hj⟩
  have hend := accountLoop_end h.table.keyed s.charNum s 0 _ hstart (by omega) fun j hj _ => by omega
  obtain ⟨gone, hloop⟩ := hend.loop
  -- All characters of the account are gone.
  have hgone : gone = fun id => decide (ro.chars.owner id = some accountId) := by
    funext id
    cases hid : gone id with
    | true => exact (decide_eq_true (hloop.owned id hid)).symm
    | false =>
      refine (decide_eq_false fun ho => ?_).symm
      rw [← Chars.owner_without hid] at ho
      obtain ⟨i, hi, ha⟩ := hloop.table.exists_at ho
      exact hend.none_left i hi.lt ha
  rw [hgone] at hloop
  unfold Nezumi.accountDeleted
  obtain ⟨t, ht⟩ : ∃ t, t = deleteAccountLoop accountId s.charNum s 0 := ⟨_, rfl⟩
  rw [← ht] at hloop hend ⊢
  -- Who is disconnected is the session of the account.
  have hstill : Still t (disconnectPlayer t accountId) ∧
      ∀ fd sd, (disconnectPlayer t accountId).active fd = some sd → sd.accountId ≠ accountId := by
    unfold disconnectPlayer
    cases hof : t.sessionOf accountId with
    | none => exact ⟨still_of_session rfl, fun fd sd hsd => sessionOf_none hof (data_of_active hsd)⟩
    | some fd' =>
      refine ⟨still_setEof t fd', fun fd sd hsd hacc => ?_⟩
      have hne : fd ≠ fd' := by
        rintro rfl
        rw [active_setEof_self] at hsd
        cases hsd
      rw [active_setEof_of_ne hne] at hsd
      have hfd := hloop.unique.sessionOf_eq (data_of_active hsd)
      rw [hacc, hof] at hfd
      exact hne (Option.some.inj hfd).symm
  have hrows : (disconnectPlayer t accountId).rows = t.rows := by
    unfold disconnectPlayer
    split <;> rfl
  have hcount : (disconnectPlayer t accountId).charIdCount = t.charIdCount := by
    unfold disconnectPlayer
    split <;> rfl
  have hring : (disconnectPlayer t accountId).authFifo = t.authFifo := by
    unfold disconnectPlayer
    split <;> rfl
  refine ⟨(keeps_disconnectPlayer t accountId).unique hloop.unique,
    hloop.table.of_rows hrows hcount, by rw [hcount, hend.charIdCount]; exact h.counter,
    fun fd sd' hsd' => ?_, ⟨by rw [hring, hend.ring]; exact h.ring.front, fun j hj => ?_⟩⟩
  · have hne := hstill.2 fd sd' hsd'
    obtain ⟨sd, hsd, hf⟩ := hstill.1.view fd sd' hsd'
    rw [hf.accountId] at hne
    exact (hloop.shown fd sd hsd hne).mono (at_of_rows hrows) (fun _ _ => id) hf
  · rw [hring] at hj ⊢
    exact (hloop.pending j hj).1.mono (at_of_rows hrows) fun _ _ => id

/-! ## Answers to the map-servers -/

/-- The answer to `0x2afc` is the selected character. -/
theorem RosterOk.mapAuth (h : RosterOk s ro) (conf : CharConf) (r : MapRequest)
    (hok : r.charId = 0 → (Slots.first (AuthEntry.serves conf r) s.authFifo.entry).isNone = true) :
    RosterOk (mapAuth conf s r).1
        ((mapAuth conf s r).2.foldl (fun ro o => ro.observe conf s (.mapAuth r) o) ro) ∧
      ∀ a, .charData a ∈ (Nezumi.mapAuth conf s r).2 →
        ∃ sel, ro.selected a.accountId = some sel ∧
          ((Nezumi.mapAuth conf s r).2.foldl (fun ro o => ro.observe conf s (.mapAuth r) o) ro).chars
            sel.charId = some a.character ∧
          a.character.status.accountId = a.accountId := by
  have hu : Unique (Nezumi.mapAuth conf s r).1 := (keeps_mapAuth conf s r).unique h.unique
  unfold Nezumi.mapAuth at hu ⊢
  cases hfirst : Slots.first (AuthEntry.serves conf r) s.authFifo.entry with
  | none =>
    simp only
    exact ⟨h, by simp⟩
  | some i =>
    have hserves := Slots.first_some hfirst
    simp only [AuthEntry.serves, Bool.and_eq_true, decide_eq_true_eq] at hserves
    obtain ⟨⟨⟨⟨⟨⟨hacc, hid⟩, -⟩, -⟩, -⟩, -⟩, hflag⟩ := hserves
    have hpending : (s.authFifo.entry i).Pending := by
      refine ⟨hflag, fun hzero => ?_⟩
      have := hok (hid.symm.trans hzero)
      rw [hfirst] at this
      cases this
    have hp := h.ring.entry i hpending
    generalize hv : s.authFifo.entry i = v at hp hacc hid
    rw [hfirst] at hu
    simp only [hv] at hu ⊢
    obtain ⟨t, ht⟩ : ∃ t, t = { s with
        authFifo := s.authFifo.modify i fun e => { e with delflag := 1 }
        charDat := Function.update s.charDat v.charPos { s.charDat v.charPos with sex := v.sex } } :=
      ⟨_, rfl⟩
    rw [← ht] at hu ⊢
    have hrows : t.rows = s.rows.modify v.charPos (Character.withSex v.sex) := by
      rw [ht]
      exact rows_update s v.charPos fun c => { c with sex := v.sex }
    have hsel : ro.selected r.accountId = some ⟨v.charId, v.sex⟩ := by rw [← hacc]; exact hp.selected
    have hat' := at_modify hrows fun _ => rfl
    have howner := owner_modify ro.chars v.charId (f := Character.withSex v.sex) fun _ => rfl
    have howner' (x a : Int) (hx : ro.chars.owner x = some a) :
        Chars.owner (Function.update ro.chars v.charId
          ((ro.chars v.charId).map (Character.withSex v.sex))) x = some a := by
      rw [howner]
      exact hx
    have htable := tableOk_modify h.table hp.place rfl hrows (by rw [ht])
    have hsend : ro.send r.accountId = ro.modify v.charId (Character.withSex v.sex) := by
      unfold Roster.send
      rw [hsel]
    simp only [List.foldl_cons, List.foldl_nil, Roster.observe, hsend]
    have hstill : Still s t := still_of_session (by rw [ht])
    refine ⟨⟨hu, htable, by rw [ht]; exact h.counter, fun fd sd' hsd' => ?_, ?_⟩, fun a ha => ?_⟩
    · obtain ⟨sd, hsd, hf⟩ := hstill.view fd sd' hsd'
      exact (h.shown fd sd hsd).mono hat' howner' hf
    · exact h.ring.used hat' howner' (by rw [ht])
    · simp only [List.mem_singleton, CharOut.charData.injEq] at ha
      rw [ha]
      have hat := hat' v.charPos v.charId hp.place
      refine ⟨_, hsel, htable.get hat, ?_⟩
      have ho := htable.owner hat
      rw [howner' _ _ hp.owner] at ho
      exact (Option.some.inj ho).symm.trans hacc

/-! ## Steps -/

/-- A client's packet. -/
theorem rosterOk_parseChar (h : RosterOk s ro) (p : ClientPacket)
    (hok : DeletionOk conf (s, ro) (now, .client fd p)) :
    RosterOk (parseChar conf now s fd p).1
        ((parseChar conf now s fd p).2.foldl (fun ro o => ro.observe conf s (.client fd p) o) ro) ∧
      (∀ fd' id map server, .mapServer fd' id map server ∈ (parseChar conf now s fd p).2 →
        ∃ k, ro.shown fd' k = some id) ∧
      ∀ a, .charData a ∉ (parseChar conf now s fd p).2 := by
  have hu : Unique (parseChar conf now s fd p).1 := unique_charRun conf s now (.client fd p) h.unique
  -- A packet that does nothing to the characters.
  have hidle {s' : CharServer} {out : List CharOut} (hu : Unique s') (hi : Idle s s' out) :
      RosterOk s' (out.foldl (fun ro o => ro.observe conf s (.client fd p) o) ro) ∧
        (∀ fd' id map server, .mapServer fd' id map server ∈ out →
          ∃ k, ro.shown fd' k = some id) ∧ ∀ a, .charData a ∉ out := by
    rw [foldl_observe_quiet hi.quiet]
    exact ⟨h.idle hu hi, fun fd' id map server ho => (by cases hi.quiet _ ho),
      fun a ho => (by cases hi.quiet _ ho)⟩
  unfold parseChar at hu ⊢
  cases hc : s.session fd with
  | none =>
    rw [hc] at hu
    exact hidle hu (idle_refl s (by simp))
  | some c =>
    rw [hc] at hu
    simp only at hu ⊢
    by_cases hoff : (!s.loginFd || c.eof) = true
    · rw [if_pos hoff] at hu ⊢
      exact hidle hu (idle_of_still (still_close s fd) rfl rfl rfl (by simp))
    rw [if_neg hoff] at hu ⊢
    simp only [Bool.or_eq_true, Bool.not_eq_true', not_or, Bool.not_eq_false, Bool.not_eq_true] at hoff
    have hsetEof (code : Nat) : Idle s (s.setEof fd) [.error fd 0x6c code] :=
      idle_setEof s fd (by simp [CharOut.quiet])
    cases hdata : c.data.filter SessionData.auth with
    | none =>
      rw [hdata] at hu
      cases p with
      | connect r =>
        rcases connectRequest_outcome conf now s fd c r with hi | hg
        · exact hidle hu hi
        · have hgranted := h.granted hu hg
          simp only at hgranted ⊢
          rw [hg.out]
          exact ⟨hgranted, by simp, by simp⟩
      | _ => exact hidle hu (hsetEof 0)
    | some sd =>
      rw [hdata] at hu
      have hactive : s.active fd = some sd := by
        unfold CharServer.active Session.active
        rw [hc]
        simp only [Option.bind_some, hoff.2, Bool.false_eq_true, if_false]
        exact hdata
      have hsd := data_of_active hactive
      -- A selection, from a server that has the table of `s`.
      have hselect {t : CharServer} {sd' : SessionData} {slot : Int} (ht : RosterOk t ro)
          (hta : t.active fd = some sd') (hsame : ∀ id, ro.select t sd' id = ro.select s sd id)
          (hut : Unique (charSelect conf now t fd c.ip sd' slot).1)
          (hround : ∀ o : List CharOut, Idle t (charSelect conf now t fd c.ip sd' slot).1 o →
            RosterOk (charSelect conf now t fd c.ip sd' slot).1 ro) :
          RosterOk (charSelect conf now t fd c.ip sd' slot).1
              ((charSelect conf now t fd c.ip sd' slot).2.foldl
                (fun ro o => ro.observe conf s (.client fd p) o) ro) ∧
            (∀ fd' id map server,
              .mapServer fd' id map server ∈ (charSelect conf now t fd c.ip sd' slot).2 →
                ∃ k, ro.shown fd' k = some id) ∧
            ∀ a, .charData a ∉ (charSelect conf now t fd c.ip sd' slot).2 := by
        rcases charSelect_outcome conf now t fd c.ip sd' slot with hi | ⟨ch, hs⟩
        · rw [foldl_observe_quiet hi.quiet]
          exact ⟨hround _ hi, fun fd' id map server ho => (by cases hi.quiet _ ho),
            fun a ho => (by cases hi.quiet _ ho)⟩
        · obtain ⟨map, server, hout⟩ := hs.out
          have hro := ht.select hut hta hs
          rw [hsame] at hro
          rw [hout]
          simp only [List.foldl_cons, List.foldl_nil, Roster.observe, hsd]
          refine ⟨hro, fun fd' id map' server' ho => ?_, by simp⟩
          simp only [List.mem_singleton, CharOut.mapServer.injEq] at ho
          obtain ⟨k, hk⟩ := hs.found
          obtain ⟨id', hid', hat, -⟩ := (ht.shown fd sd' hta).found k ch hk
          exact ⟨k, by rw [ho.1, ho.2.1, hid', ← hat.key]; rfl⟩
      cases p with
      | connect r => exact hidle hu (hsetEof 0)
      | select slot =>
        exact hselect h hactive (fun _ => rfl) hu fun _ hi => h.idle hu hi
      | create dat =>
        rcases charCreate_outcome conf s fd sd dat with hi | ⟨name, hcreated⟩
        · exact hidle hu hi
        · have hro := h.create hu hactive hcreated
          simp only at hro ⊢
          rw [hcreated.out]
          simp only [List.foldl_cons, List.foldl_nil, Roster.observe, hsd]
          exact ⟨hro, by simp, by simp⟩
      | delete charId email =>
        rcases charDelete_outcome conf now c.ip hactive hoff.1 charId email with
          hi | ⟨slot, heq⟩ | ⟨k, i, hk, hid, hdel, heq⟩
        · exact hidle hu hi
        · simp only [heq] at hu ⊢
          obtain ⟨t, ht⟩ : ∃ t, t = s.updateData fd fun sd => { sd with email := eMailOf email } :=
            ⟨_, rfl⟩
          have hstill : Still s t := by
            rw [ht]
            exact still_updateData s fd (fun _ => ⟨rfl, rfl⟩) fun _ => id
          have hkeeps : Keeps s t := by
            rw [ht]
            exact keeps_updateData s fd (fun _ => rfl) fun _ => id
          have hta : t.active fd = some { sd with email := eMailOf email } := by
            rw [ht]
            unfold CharServer.active CharServer.updateData CharServer.updateSession
            simp only [Function.update_self, hc, Option.map_some, Option.bind_some]
            obtain ⟨heof, hcd, hauth⟩ := Session.active_eq_some.mp
              (show c.active = some sd by simpa [CharServer.active, hc] using hactive)
            exact Session.active_eq_some.mpr ⟨heof, by rw [hcd]; rfl, hauth⟩
          have htro : RosterOk t ro := h.still (hkeeps.unique h.unique) hstill (by rw [ht]; rfl)
            (by rw [ht]; rfl) (h.ring.mono (at_of_rows (by rw [ht]; rfl)) (fun _ _ => id)
              (by rw [ht]; rfl))
          rw [← ht] at hu ⊢
          obtain ⟨hro, hshown, hno⟩ := hselect htro hta (fun _ => by rw [ht]; rfl) hu
            fun _ hi => htro.idle hu hi
          refine ⟨hro, fun fd' id map server ho => hshown fd' id map server (by simpa using ho),
            fun a ho => hno a (by simpa using ho)⟩
        · simp only [heq] at hu ⊢
          simp only [List.foldl_cons, List.foldl_nil, Roster.observe]
          subst hid
          exact ⟨h.delete hactive hu hk (fun j hj => hok i hdel j hj) (authFifo_deleteFound ..),
            by simp, by simp⟩

/-- A character changes to another map-server. -/
theorem RosterOk.mapChange (h : RosterOk s ro) (r : MapRequest)
    (hok : ∀ i ∈ charIndex s fun c => c.charId = r.charId, (s.charDat i).accountId = r.accountId) :
    RosterOk (mapChange s r) (ro.next conf s (.mapChange r) out) := by
  have hu : Unique (Nezumi.mapChange s r) := (keeps_mapChange s r).unique h.unique
  unfold Nezumi.mapChange at hu ⊢
  simp only [Roster.next]
  cases hidx : charIndex s fun c => c.charId = r.charId with
  | none =>
    -- No row has the id, so there is no such character.
    have hnone : ro.chars r.charId = none := by
      by_contra hne
      obtain ⟨c, hc⟩ := Option.ne_none_iff_exists'.mp hne
      obtain ⟨i, hi, he, hkey⟩ := h.table.rows.index r.charId c hc
      have htest := charIndex_none hidx hi
      rw [decide_eq_false_iff_not] at htest
      refine htest ?_
      rw [← he] at hkey
      exact hkey
    simp only [hnone]
    exact h
  | some i =>
    rw [hidx] at hu
    simp only at hu ⊢
    obtain ⟨hlt, htest⟩ := charIndex_some hidx
    have hat : s.At i r.charId := ⟨hlt, of_decide_eq_true htest⟩
    have hown := hok i hidx
    have hsome : (ro.chars r.charId).isSome = true := by
      rw [h.table.get hat]
      rfl
    rw [if_pos hsome]
    refine ⟨hu, h.table.of_rows rfl rfl, h.counter, fun fd sd hsd => ?_, ?_⟩
    · exact (h.shown fd sd hsd).mono (at_of_rows rfl) (fun _ _ => id) (SameFound.refl sd)
    · refine h.ring.put (at_of_rows rfl) (fun _ _ => id) rfl
        (fun a ha => Function.update_of_ne ha ..) fun _ => ⟨hat, ?_, Function.update_self ..⟩
      rw [h.table.owner hat, hown]

theorem idle_emailAnswer (s : CharServer) (accountId : Int) (email : CStr 40) (time : Int) :
    Idle s (emailAnswer s accountId email time) [] := by
  unfold emailAnswer
  split
  · exact idle_refl s (by simp)
  · refine idle_of_still ?_ rfl rfl rfl (by simp)
    exact still_updateData s _ (fun _ => ⟨rfl, rfl⟩) fun _ => id

theorem idle_disconnectPlayer (s : CharServer) (accountId : Int) :
    Idle s (disconnectPlayer s accountId) [] := by
  unfold disconnectPlayer
  split
  · exact idle_setEof s _ (by simp)
  · exact idle_refl s (by simp)

theorem rosterOk_step (conf : CharConf) (w : CharWorld) (t : Int × CharEvent)
    (h : RosterOk w.1 w.2) (hok : DeletionOk conf w t) :
    RosterOk (rosterStep conf w t).1 (rosterStep conf w t).2 := by
  obtain ⟨s, ro⟩ := w
  obtain ⟨now, e⟩ := t
  have hu : Unique (charRun conf s now e).1 := unique_charRun conf s now e h.unique
  unfold rosterStep
  simp only
  cases e with
  | accept fd ip =>
    simp only [charRun] at hu ⊢
    have hi : Idle s (if (s.session fd).isSome then s
        else { s with session := Function.update s.session fd (some { ip := ip }) }) [] := by
      split
      · exact idle_refl s (by simp)
      · exact idle_of_still (carries_accept SameFound.refl rfl s fd) rfl rfl rfl (by simp)
    exact h.idle hu hi
  | close fd =>
    have hi : Idle s { s with session := Function.update s.session fd none } [] :=
      idle_of_still (still_close s fd) rfl rfl rfl (by simp)
    exact h.idle hu hi
  | client fd p => exact (rosterOk_parseChar h p hok).1
  | loginAnswer accountId error email time =>
    simp only [charRun] at hu ⊢
    rcases loginAnswer_outcome conf now s accountId error email time with hi | ⟨fd, hg⟩
    · have hro := h.idle hu hi
      simp only [Roster.next]
      rwa [foldl_observe_quiet hi.quiet]
    · have hro := h.granted hu hg
      simp only [Roster.next]
      rw [hg.out]
      exact hro
  | emailAnswer accountId email time =>
    simp only [charRun] at hu ⊢
    exact h.idle hu (idle_emailAnswer s accountId email time)
  | loginInfo r =>
    simp only [charRun] at hu ⊢
    exact h.still hu (still_of_session rfl) rfl rfl (h.ring.put_login rfl rfl rfl)
  | accountDeleted accountId =>
    simp only [charRun]
    exact h.accountDeleted hok
  | disconnect accountId =>
    simp only [charRun] at hu ⊢
    exact h.idle hu (idle_disconnectPlayer s accountId)
  | mapBack r =>
    simp only [charRun] at hu ⊢
    exact h.still hu (still_of_session rfl) rfl rfl (h.ring.put_login rfl rfl rfl)
  | mapChange r =>
    simp only [charRun]
    exact h.mapChange r hok
  | mapAuth r =>
    simp only [charRun]
    exact (h.mapAuth conf r hok).1
  | servers loginFd server onlineChars charDatTimer =>
    simp only [charRun] at hu ⊢
    exact h.still hu (still_of_session rfl) rfl rfl (h.ring.mono (at_of_rows rfl) (fun _ _ => id) rfl)

/-! ## Runs -/

/-- What an answer of the login-server says is no selection and no character. -/
theorem out_loginAnswer {accountId : Int} {error : Bool} {email : CStr 40} {time : Int} {o : CharOut}
    (ho : o ∈ (charRun conf s now (.loginAnswer accountId error email time)).2) :
    o.quiet = true ∨ ∃ fd ids, o = .charList fd ids := by
  simp only [charRun] at ho
  rcases loginAnswer_outcome conf now s accountId error email time with hi | ⟨fd, hg⟩
  · exact .inl (hi.quiet o ho)
  · rw [hg.out] at ho
    exact .inr ⟨fd, _, by simpa using ho⟩

theorem out_mapAuth (conf : CharConf) (s : CharServer) (r : MapRequest) (fd : Fin fdSetsize) (id : Int)
    (map : CStr 16) (server : Fin maxMapServers) :
    .mapServer fd id map server ∉ (mapAuth conf s r).2 := by
  unfold mapAuth
  split <;> simp

/-- What the invariant says of a step. -/
theorem charIdentity_of_rosterOk (conf : CharConf) (w : CharWorld) (t : Int × CharEvent)
    (h : RosterOk w.1 w.2) (hok : DeletionOk conf w t) : CharIdentity conf w t := by
  have h' := rosterOk_step conf w t h hok
  obtain ⟨s, ro⟩ := w
  obtain ⟨now, e⟩ := t
  refine ⟨fun fd sd hsd k i hk => ?_, ?_, fun fd id map server ho => ?_, fun a ha => ?_⟩
  · obtain ⟨id, hid, hat, hown⟩ := (h'.shown fd sd hsd).found k i hk
    rw [h'.table.owner hat] at hown
    exact ⟨id, hid, hat, Option.some.inj hown⟩
  · rintro e ⟨j, rfl⟩ hj
    have hp := h'.ring.entry j hj
    exact ⟨hp.place, hp.accountId h'.table, hp.selected⟩
  · cases e with
    | client fd' p => exact (rosterOk_parseChar h p hok).2.1 fd id map server ho
    | loginAnswer accountId error email time =>
      rcases out_loginAnswer ho with hq | ⟨_, _, heq⟩
      · cases hq
      · cases heq
    | mapAuth r =>
      simp only [charRun] at ho
      exact absurd ho (out_mapAuth conf s r fd id map server)
    | _ => simp [charRun] at ho
  · cases e with
    | client fd' p => exact absurd ha ((rosterOk_parseChar h p hok).2.2 a)
    | loginAnswer accountId error email time =>
      rcases out_loginAnswer ha with hq | ⟨_, _, heq⟩
      · cases hq
      · cases heq
    | mapAuth r =>
      simp only [charRun] at ha
      have hans := (h.mapAuth conf r hok).2 a ha
      simpa only [rosterStep, charRun, Roster.next] using hans
    | _ => simp [charRun] at ha

/-- A server without connections and without unused entries, and the characters of its table. -/
structure RosterStart (w : CharWorld) : Prop where
  session : ∀ fd, w.1.session fd = none
  entry : ∀ j, ¬ (w.1.authFifo.entry j).Pending
  table : TableOk w.1 w.2.chars
  counter : 0 < w.1.charIdCount

theorem RosterStart.rosterOk {w : CharWorld} (h : RosterStart w) : RosterOk w.1 w.2 := by
  have hdata (fd : Fin fdSetsize) : w.1.data fd = none := by simp [CharServer.data, h.session]
  refine ⟨fun fd fd' sd sd' hsd => ?_, h.table, h.counter, fun fd sd hsd => ?_,
    ⟨fun j hj => absurd hj (h.entry j), fun j hj => absurd hj (h.entry j)⟩⟩
  · rw [hdata] at hsd
    cases hsd
  · have := data_of_active hsd
    rw [hdata] at this
    cases this

/-- **Character identity.** In a run whose deletions meet no unused entry of a row that is deleted or
moved, every index of a session and of an unused entry is the one of the character that is shown or
selected, and every `0x2afc` is answered with the selected character. -/
theorem charRun_identity (conf : CharConf) {w : CharWorld} {es : List (Int × CharEvent)}
    (hs : RosterStart w) (hm : Run.Meets (rosterStep conf) (DeletionOk conf) w es) :
    Run.Meets (rosterStep conf) (CharIdentity conf) w es :=
  Run.meets_of_inv (I := fun w => RosterOk w.1 w.2) (rosterOk_step conf)
    (charIdentity_of_rosterOk conf) hs.rosterOk hm

/-- The account that a character is sent for, and the account of the character. -/
def CharOut.owners : CharOut → Option (Int × Int)
  | .charData a => some (a.accountId, a.character.status.accountId)
  | _ => none

/-- A character is sent for its account. -/
theorem CharIdentity.owners {conf : CharConf} {w : CharWorld} {t : Int × CharEvent}
    (h : CharIdentity conf w t) (p : Int × Int)
    (hp : p ∈ (charRun conf w.1 t.1 t.2).2.filterMap CharOut.owners) : p.1 = p.2 := by
  obtain ⟨o, ho, heq⟩ := List.mem_filterMap.mp hp
  cases o with
  | charData a =>
    obtain rfl := Option.some.inj heq
    obtain ⟨-, -, -, hown⟩ := h.answer a ho
    exact hown.symm
  | _ => cases heq

/-- A server with one map-server and no characters. -/
def emptyServer : CharServer where
  server k := if k.val = 0 then some { map := [cstr 16 "new_1-1.gat"] } else none

/-- A client connects for an account and is let in. -/
def enters (fd : Fin fdSetsize) (accountId : Int) : List (Int × CharEvent) :=
  [(1000, .accept fd 7), (1000, .client fd (.connect ⟨accountId, 11, 12, 1⟩)),
    (1000, .loginAnswer accountId false (cstr 40 "player@example.com") 0)]

/-- A client creates a character in a slot. -/
def creates (fd : Fin fdSetsize) (name : String) (slot : UInt8) : Int × CharEvent :=
  (1000, .client fd (.create ((cstr 24 name).bytes ++
    List.replicate (24 - (cstr 24 name).bytes.length) 0 ++ [5, 5, 5, 5, 5, 5, slot, 0, 0, 1, 0])))

def deletes (fd : Fin fdSetsize) (charId : Int) : Int × CharEvent :=
  (1000, .client fd (.delete charId (cstr 40 "player@example.com")))

/-- Two players create characters, one selects, the map-server asks, the other deletes. -/
theorem charRun_identity_players :
    Run.Meets (rosterStep {}) (CharIdentity {}) (emptyServer, { chars := fun _ => none })
      (enters ⟨5, by decide⟩ 2000001 ++ enters ⟨6, by decide⟩ 2000002 ++
        [creates ⟨5, by decide⟩ "Alice" 0, creates ⟨6, by decide⟩ "Bobby" 0,
          (1000, .client ⟨6, by decide⟩ (.select 0)),
          (1000, .mapAuth ⟨2000002, 500001, 11, 12, 7, 1⟩), deletes ⟨5, by decide⟩ 500000,
          (1000, .mapChange ⟨2000002, 500001, 11, 12, 7, 1⟩), (1000, .accountDeleted 2000001)]) :=
  charRun_identity {} ⟨fun _ => rfl, fun _ h => h.2 rfl, tableOk_empty rfl, by decide⟩
    (by decide +kernel)

/-- A player selects the last character of the table. Another player deletes a character, so the last
one moves, and creates one, which takes its index. The map-server gets the new character. -/
theorem charRun_not_identity :
    ¬ Run.Meets (rosterStep {}) (CharIdentity {}) (emptyServer, { chars := fun _ => none })
      (enters ⟨5, by decide⟩ 2000001 ++ enters ⟨6, by decide⟩ 2000002 ++
        [creates ⟨5, by decide⟩ "Alice" 0, creates ⟨6, by decide⟩ "Bobby" 0,
          (1000, .client ⟨6, by decide⟩ (.select 0)), deletes ⟨5, by decide⟩ 500000,
          creates ⟨5, by decide⟩ "Annie" 0, (1000, .mapAuth ⟨2000002, 500001, 11, 12, 7, 1⟩)]) := by
  rintro ⟨-, -, -, -, -, -, -, -, -, -, -, h, -⟩
  exact absurd (h.owners (2000002, 2000001) (by decide +kernel)) (by decide)

end Nezumi
