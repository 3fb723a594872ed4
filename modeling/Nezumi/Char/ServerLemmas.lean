import Nezumi.Char.Server

/-!
# Sessions of the char-server

* `Keeps s s'`: a session of `s'` is a session of `s` with the same ids, and it is authenticated only
  if it was before. All packets but `0x65` and `0x2713` do this (`keeps_charRun`).
* `attempts`: a `0x65` request is taken up. `parseChar_connect` says what it does then.
* `loginAnswer_cases`: what `0x2713` does.
* `Unique`: no two sessions have one account. Every step keeps it (`unique_charRun`).
-/

namespace Nezumi

/-- The ids that a session has given. -/
def SessionData.ids (sd : SessionData) : ConnectRequest :=
  ⟨sd.accountId, sd.loginId1, sd.loginId2, sd.sex⟩

variable {conf : CharConf} {now : Int} {s s' s'' : CharServer} {fd fd' : Fin fdSetsize}

/-! ## The data of a session -/

theorem data_eq_some {sd : SessionData} :
    s.data fd = some sd ↔ ∃ c, s.session fd = some c ∧ c.data = some sd := by
  simp [CharServer.data, Option.bind_eq_some_iff]

theorem data_update_self (o : Option Session) :
    { s with session := Function.update s.session fd o }.data fd = o.bind Session.data := by
  simp [CharServer.data]

theorem data_update_of_ne (o : Option Session) (h : fd' ≠ fd) :
    { s with session := Function.update s.session fd o }.data fd' = s.data fd' := by
  simp [CharServer.data, Function.update_of_ne h]

theorem data_updateData_self (s : CharServer) (fd : Fin fdSetsize) (f : SessionData → SessionData) :
    (s.updateData fd f).data fd = (s.data fd).map f := by
  unfold CharServer.updateData CharServer.updateSession
  rw [data_update_self]
  unfold CharServer.data
  cases s.session fd <;> rfl

theorem data_updateData_of_ne (s : CharServer) (f : SessionData → SessionData) (h : fd' ≠ fd) :
    (s.updateData fd f).data fd' = s.data fd' := data_update_of_ne _ h

@[simp] theorem data_setEof (s : CharServer) (fd fd' : Fin fdSetsize) :
    (s.setEof fd).data fd' = s.data fd' := by
  unfold CharServer.setEof CharServer.updateSession
  by_cases h : fd' = fd
  · rw [h, data_update_self]
    unfold CharServer.data
    cases s.session fd <;> rfl
  · exact data_update_of_ne _ h

/-- The session that an answer for an account is given to. -/
theorem sessionOf_some {accountId : Int} (h : s.sessionOf accountId = some fd) :
    ∃ sd, s.data fd = some sd ∧ sd.accountId = accountId := by
  have hany := Slots.first_some h
  rw [Option.any_eq_true] at hany
  obtain ⟨sd, hsd, ha⟩ := hany
  exact ⟨sd, hsd, by simpa using ha⟩

/-! ## What a step leaves of the sessions -/

/-- What `v` shows of a session of `s'` comes from the session of `s` on the same connection. -/
structure Carries (v : Session → Option SessionData) (R : SessionData → SessionData → Prop)
    (s s' : CharServer) : Prop where
  view : ∀ fd sd', (s'.session fd).bind v = some sd' →
    ∃ sd, (s.session fd).bind v = some sd ∧ R sd sd'

section Carries

variable {v : Session → Option SessionData} {R : SessionData → SessionData → Prop}

theorem Carries.trans (hR : ∀ {a b c}, R a b → R b c → R a c) (h : Carries v R s s')
    (h' : Carries v R s' s'') : Carries v R s s'' := by
  constructor
  intro fd sd'' hsd''
  obtain ⟨sd', hsd', hr'⟩ := h'.view fd sd'' hsd''
  obtain ⟨sd, hsd, hr⟩ := h.view fd sd' hsd'
  exact ⟨sd, hsd, hR hr hr'⟩

theorem carries_of_view (hR : ∀ a, R a a)
    (h : ∀ fd, (s'.session fd).bind v = (s.session fd).bind v) : Carries v R s s' :=
  ⟨fun fd sd' hsd => ⟨sd', by rw [← h fd]; exact hsd, hR sd'⟩⟩

theorem carries_of_session (hR : ∀ a, R a a) (h : s'.session = s.session) : Carries v R s s' :=
  carries_of_view hR fun fd => by rw [h]

theorem carries_updateSession (hR : ∀ a, R a a) (s : CharServer) (fd : Fin fdSetsize)
    {f : Session → Session} (hf : ∀ c sd', v (f c) = some sd' → ∃ sd, v c = some sd ∧ R sd sd') :
    Carries v R s (s.updateSession fd f) := by
  constructor
  intro fd' sd' hsd'
  unfold CharServer.updateSession at hsd'
  by_cases h : fd' = fd
  · simp only [h, Function.update_self, Option.bind_eq_some_iff, Option.map_eq_some_iff] at hsd'
    obtain ⟨_, ⟨c, hc, rfl⟩, hv⟩ := hsd'
    obtain ⟨sd, hsd, hr⟩ := hf c sd' hv
    exact ⟨sd, by rw [h, hc]; exact hsd, hr⟩
  · simp only [Function.update_of_ne h] at hsd'
    exact ⟨sd', hsd', hR sd'⟩

theorem carries_close (hR : ∀ a, R a a) (s : CharServer) (fd : Fin fdSetsize) :
    Carries v R s { s with session := Function.update s.session fd none } := by
  constructor
  intro fd' sd' hsd'
  by_cases h : fd' = fd
  · simp [h] at hsd'
  · simp only [Function.update_of_ne h] at hsd'
    exact ⟨sd', hsd', hR sd'⟩

theorem carries_accept (hR : ∀ a, R a a) {ip : UInt32} (hv : v { ip := ip } = none)
    (s : CharServer) (fd : Fin fdSetsize) :
    Carries v R s { s with session := Function.update s.session fd (some { ip := ip }) } := by
  constructor
  intro fd' sd' hsd'
  by_cases h : fd' = fd
  · simp [h, hv] at hsd'
  · simp only [Function.update_of_ne h] at hsd'
    exact ⟨sd', hsd', hR sd'⟩

end Carries

/-! ## Steps that authenticate nobody -/

/-- The same ids, and authenticated only if it was before. -/
structure Kept (sd sd' : SessionData) : Prop where
  ids : sd'.ids = sd.ids
  auth : sd'.auth = true → sd.auth = true

theorem Kept.refl (sd : SessionData) : Kept sd sd := ⟨rfl, id⟩

theorem Kept.trans {a b c : SessionData} (h : Kept a b) (h' : Kept b c) : Kept a c :=
  ⟨h'.ids.trans h.ids, h.auth ∘ h'.auth⟩

/-- Every session of `s'` is a session of `s`, with the same ids, and authenticated only if it was
before. -/
abbrev Keeps : CharServer → CharServer → Prop := Carries Session.data Kept

theorem keeps_of_session (h : s'.session = s.session) : Keeps s s' :=
  carries_of_session Kept.refl h

theorem Keeps.trans (h : Keeps s s') (h' : Keeps s' s'') : Keeps s s'' :=
  Carries.trans Kept.trans h h'

/-- The data of one session change, not its ids, and it is not authenticated by it. -/
theorem keeps_updateData (s : CharServer) (fd : Fin fdSetsize) {f : SessionData → SessionData}
    (hids : ∀ sd, (f sd).ids = sd.ids) (hauth : ∀ sd, (f sd).auth = true → sd.auth = true) :
    Keeps s (s.updateData fd f) := by
  refine carries_updateSession Kept.refl s fd fun c sd' hsd' => ?_
  obtain ⟨sd, hsd, rfl⟩ := Option.map_eq_some_iff.mp hsd'
  exact ⟨sd, hsd, hids sd, hauth sd⟩

theorem keeps_setEof (s : CharServer) (fd : Fin fdSetsize) : Keeps s (s.setEof fd) :=
  carries_updateSession Kept.refl s fd fun _ sd' hsd' => ⟨sd', hsd', Kept.refl sd'⟩

theorem keeps_close (s : CharServer) (fd : Fin fdSetsize) :
    Keeps s { s with session := Function.update s.session fd none } :=
  carries_close Kept.refl s fd

theorem session_charDivorce (s : CharServer) (i : Nat) : (charDivorce s i).session = s.session := by
  unfold charDivorce
  simp only
  split
  · split <;> rfl
  · rfl

theorem keeps_charDivorce (s : CharServer) (i : Nat) : Keeps s (charDivorce s i) :=
  keeps_of_session (session_charDivorce s i)

theorem keeps_moveLast (s : CharServer) (i : Nat) : Keeps s (moveLast s i) := keeps_of_session rfl

theorem keeps_charNum (s : CharServer) (n : Nat) : Keeps s { s with charNum := n } :=
  keeps_of_session rfl

theorem keeps_repairFound (s : CharServer) (i : Nat) : Keeps s (repairFound s i) := by
  unfold repairFound
  simp only
  split
  · exact keeps_of_session rfl
  · refine keeps_updateData s _ (fun sd => ?_) (fun sd => ?_)
    · split <;> rfl
    · split <;> exact id

theorem keeps_deleteFound (s : CharServer) (fd : Fin fdSetsize) (k : Fin 9) (i : Nat) :
    Keeps s (deleteFound s fd k i) := by
  have hdivorce := keeps_charDivorce s i
  have hmove := (hdivorce.trans (keeps_moveLast _ i)).trans (keeps_repairFound _ i)
  unfold deleteFound
  simp only
  split
  · exact (hmove.trans (keeps_charNum ..)).trans (keeps_updateData _ fd (fun _ => rfl) fun _ => id)
  · exact (hdivorce.trans (keeps_charNum ..)).trans
      (keeps_updateData _ fd (fun _ => rfl) fun _ => id)

theorem keeps_deleteAccountLoop (accountId : Int) (fuel : Nat) (s : CharServer) (i : Nat) :
    Keeps s (deleteAccountLoop accountId fuel s i) := by
  induction fuel generalizing s i with
  | zero => exact keeps_of_session rfl
  | succ fuel ih =>
    have hdivorce := keeps_charDivorce s i
    have hmove := hdivorce.trans (keeps_moveLast _ i)
    unfold deleteAccountLoop
    split
    · split
      · simp only
        split
        · split
          · exact (hmove.trans (keeps_charNum ..)).trans (ih _ i)
          · exact ((hmove.trans (keeps_repairFound _ i)).trans (keeps_charNum ..)).trans
              (ih _ (i + 1))
        · exact (hdivorce.trans (keeps_charNum ..)).trans (ih _ (i + 1))
      · exact ih s (i + 1)
    · exact keeps_of_session rfl

theorem keeps_disconnectPlayer (s : CharServer) (accountId : Int) :
    Keeps s (disconnectPlayer s accountId) := by
  unfold disconnectPlayer
  split
  · exact keeps_setEof s _
  · exact keeps_of_session rfl

theorem keeps_accountDeleted (s : CharServer) (accountId : Int) :
    Keeps s (accountDeleted s accountId) :=
  (keeps_deleteAccountLoop accountId s.charNum s 0).trans (keeps_disconnectPlayer _ accountId)

theorem keeps_endSelect (s : CharServer) (fd : Fin fdSetsize) : Keeps s (endSelect s fd) :=
  keeps_updateData s fd (fun _ => rfl) fun _ h => by cases h

theorem keeps_charSelect (conf : CharConf) (now : Int) (s : CharServer) (fd : Fin fdSetsize)
    (ip : UInt32) (sd : SessionData) (slot : Int) :
    Keeps s (charSelect conf now s fd ip sd slot).1 := by
  unfold charSelect
  split
  · exact keeps_of_session rfl
  · split
    · exact keeps_endSelect s fd
    · split
      · exact (keeps_setEof s fd).trans (keeps_endSelect _ fd)
      · split
        · exact (keeps_setEof s fd).trans (keeps_endSelect _ fd)
        · refine Keeps.trans ?_ (keeps_endSelect _ fd)
          exact keeps_of_session rfl

theorem keeps_charCreate (conf : CharConf) (s : CharServer) (fd : Fin fdSetsize) (sd : SessionData)
    (dat : List UInt8) : Keeps s (charCreate conf s fd sd dat).1 := by
  unfold charCreate makeNewChar
  simp only
  split
  · exact keeps_of_session rfl
  · split
    · exact keeps_of_session rfl
    · split
      · exact keeps_of_session rfl
      · rename_i s' i hmake
        have hsession : s'.session = s.session := by
          split at hmake
          · cases hmake
          · split at hmake
            · cases hmake
            · split at hmake
              · cases hmake
              · split at hmake
                · cases hmake
                · split at hmake
                  · cases hmake
                  · split at hmake
                    · cases hmake
                    · cases hmake
                      rfl
        exact (keeps_of_session hsession).trans (keeps_updateData s' fd (fun _ => rfl) fun _ => id)

theorem keeps_charDelete (conf : CharConf) (now : Int) (s : CharServer) (fd : Fin fdSetsize)
    (ip : UInt32) (sd : SessionData) (charId : Int) (email : CStr 40) :
    Keeps s (charDelete conf now s fd ip sd charId email).1 := by
  unfold charDelete
  simp only
  split
  · split
    · exact keeps_of_session rfl
    · split
      · exact keeps_of_session rfl
      · refine Keeps.trans ?_ (keeps_charSelect ..)
        exact keeps_updateData s fd (fun _ => rfl) fun _ => id
  · split
    · exact keeps_of_session rfl
    · split
      · exact keeps_of_session rfl
      · exact keeps_deleteFound ..

theorem keeps_emailAnswer (s : CharServer) (accountId : Int) (email : CStr 40) (time : Int) :
    Keeps s (emailAnswer s accountId email time) := by
  unfold emailAnswer
  split
  · exact keeps_of_session rfl
  · exact keeps_updateData s _ (fun _ => rfl) fun _ => id

theorem keeps_mapChange (s : CharServer) (r : MapRequest) : Keeps s (mapChange s r) := by
  unfold mapChange
  split <;> exact keeps_of_session rfl

theorem keeps_mapAuth (conf : CharConf) (s : CharServer) (r : MapRequest) :
    Keeps s (mapAuth conf s r).1 := by
  unfold mapAuth
  split <;> exact keeps_of_session rfl

/-! ## Connection requests -/

/-- A request is taken up: the connection is there, it has not been authenticated, and no other
connection has the account. -/
def CharServer.attempts (s : CharServer) (fd : Fin fdSetsize) (r : ConnectRequest) : Bool :=
  (s.session fd).any fun c =>
    s.loginFd && !c.eof && (c.data.filter SessionData.auth).isNone && maxServers ≤ r.accountId &&
      (Slots.first (fun o : Option Session => (o.bind Session.data).any fun sd =>
        sd.accountId = r.accountId) (Function.update s.session fd none)).isNone

/-- The entry of the ring that a request is accepted with. -/
def CharServer.opened (conf : CharConf) (s : CharServer) (fd : Fin fdSetsize) (r : ConnectRequest) :
    Option (Fin authFifoSize) :=
  (s.session fd).bind fun c => Slots.first (AuthEntry.opens conf r c.ip) s.authFifo.entry

/-- What a request does that is taken up: the session has its ids and is authenticated only by an
entry of the ring, which is used then. -/
structure Attempted (conf : CharConf) (s : CharServer) (fd : Fin fdSetsize) (r : ConnectRequest)
    (s' : CharServer) : Prop where
  account : ∀ fd' sd, fd' ≠ fd → s.data fd' = some sd → sd.accountId ≠ r.accountId
  others : ∀ fd', fd' ≠ fd → s'.data fd' = s.data fd'
  self : ∀ sd', s'.data fd = some sd' →
    sd'.ids = r ∧ (sd'.auth = true → (s.opened conf fd r).isSome = true)
  used : ∀ i, s.opened conf fd r = some i → (s'.authFifo.entry i).delflag = 1

theorem keeps_connectRequest_refused (conf : CharConf) (now : Int) (s : CharServer)
    (fd : Fin fdSetsize) (c : Session) {r : ConnectRequest}
    (h : r.accountId < maxServers ∨ (Slots.first (fun o : Option Session =>
      (o.bind Session.data).any fun sd => sd.accountId = r.accountId)
        (Function.update s.session fd none)).isSome = true) :
    Keeps s (connectRequest conf now s fd c r).1 := by
  unfold connectRequest
  split
  · exact keeps_setEof s fd
  · rename_i hid
    obtain ⟨i, hi⟩ := Option.isSome_iff_exists.mp (h.resolve_left hid)
    rw [hi]
    exact ((keeps_setEof s fd).trans (keeps_setEof _ i)).trans
      (keeps_updateData _ i (fun _ => rfl) fun _ h => by cases h)

/-- The request that is taken up, from a connection `c`. -/
theorem connectRequest_attempted (conf : CharConf) (now : Int) {c : Session} {r : ConnectRequest}
    (hc : s.session fd = some c) (hid : ¬ r.accountId < maxServers)
    (hfree : Slots.first (fun o : Option Session =>
      (o.bind Session.data).any fun sd => sd.accountId = r.accountId)
        (Function.update s.session fd none) = none) :
    Attempted conf s fd r (connectRequest conf now s fd c r).1 := by
  have haccount : ∀ fd' sd, fd' ≠ fd → s.data fd' = some sd → sd.accountId ≠ r.accountId := by
    intro fd' sd hne hsd
    have hany := Slots.first_eq_none_iff.mp hfree fd'
    rw [Function.update_of_ne hne] at hany
    unfold CharServer.data at hsd
    rw [hsd] at hany
    simpa using hany
  have hopened : s.opened conf fd r =
      Slots.first (AuthEntry.opens conf r c.ip) s.authFifo.entry := by
    simp [CharServer.opened, hc]
  unfold connectRequest
  rw [if_neg hid, hfree]
  simp only
  -- The session with the ids of the request, before the ring is searched.
  obtain ⟨t, ht⟩ : ∃ t, t = s.updateSession fd fun c => { c with data := some (takeUp c.data r) } :=
    ⟨_, rfl⟩
  have hself : t.data fd = some (takeUp c.data r) := by
    rw [ht, CharServer.updateSession, data_update_self, hc]
    rfl
  have hothers : ∀ fd', fd' ≠ fd → t.data fd' = s.data fd' := by
    intro fd' hne
    rw [ht]
    exact data_update_of_ne _ hne
  have hfifo : t.authFifo = s.authFifo := by rw [ht]; rfl
  rw [← ht, hfifo]
  cases hfirst : Slots.first (AuthEntry.opens conf r c.ip) s.authFifo.entry with
  | none =>
    have hstop : s.opened conf fd r = none := hopened.trans hfirst
    simp only
    split
    · refine ⟨haccount, hothers, fun sd' hsd' => ?_, by simp [hstop]⟩
      obtain rfl : takeUp c.data r = sd' := by simpa [hself] using hsd'
      exact ⟨rfl, by simp [takeUp]⟩
    · refine ⟨haccount, fun fd' hne => ?_, fun sd' hsd' => ?_, by simp [hstop]⟩
      · rw [data_setEof]
        exact hothers fd' hne
      · rw [data_setEof] at hsd'
        obtain rfl : takeUp c.data r = sd' := by simpa [hself] using hsd'
        exact ⟨rfl, by simp [takeUp]⟩
  | some i =>
    have hsome : s.opened conf fd r = some i := hopened.trans hfirst
    obtain ⟨u, hu⟩ : ∃ u, u = { t with
        authFifo := s.authFifo.modify i fun e => { e with delflag := 1 } } := ⟨_, rfl⟩
    have hudata : ∀ fd', u.data fd' = t.data fd' := by
      intro fd'
      rw [hu]
      rfl
    have hused : ∀ j, s.opened conf fd r = some j → (u.authFifo.entry j).delflag = 1 := by
      intro j hj
      obtain rfl : i = j := by simpa [hsome] using hj
      rw [hu]
      simp
    have hrefused : Attempted conf s fd r (u.setEof fd) := by
      refine ⟨haccount, fun fd' hne => ?_, fun sd' hsd' => ?_, hused⟩
      · rw [data_setEof, hudata]
        exact hothers fd' hne
      · rw [data_setEof, hudata] at hsd'
        obtain rfl : takeUp c.data r = sd' := by simpa [hself] using hsd'
        exact ⟨rfl, by simp [hsome]⟩
    simp only [← hu]
    split
    · split
      · exact hrefused
      · refine ⟨haccount, fun fd' hne => ?_, fun sd' hsd' => ?_, hused⟩
        · simp only [sendChars]
          rw [data_updateData_of_ne _ _ hne, hudata]
          exact hothers fd' hne
        · simp only [sendChars] at hsd'
          rw [data_updateData_self, hudata, hself] at hsd'
          obtain rfl := Option.some.inj hsd'
          exact ⟨rfl, by simp [hsome]⟩
    · exact hrefused

/-- A connection request is refused, or it is taken up. -/
theorem parseChar_connect (conf : CharConf) (now : Int) (s : CharServer) (fd : Fin fdSetsize)
    (r : ConnectRequest) :
    (s.attempts fd r = false ∧ Keeps s (parseChar conf now s fd (.connect r)).1) ∨
      (s.attempts fd r = true ∧ Attempted conf s fd r (parseChar conf now s fd (.connect r)).1) := by
  unfold parseChar CharServer.attempts
  cases hc : s.session fd with
  | none => exact .inl ⟨rfl, keeps_of_session rfl⟩
  | some c =>
    simp only [Option.any_some]
    split
    · rename_i hoff
      refine .inl ⟨?_, keeps_close s fd⟩
      rw [Bool.or_eq_true, Bool.not_eq_true'] at hoff
      rcases hoff with hoff | hoff <;> simp [hoff]
    · rename_i hon
      rw [Bool.or_eq_true, Bool.not_eq_true', not_or, Bool.not_eq_false, Bool.not_eq_true] at hon
      rw [hon.1, hon.2]
      cases hdata : c.data.filter SessionData.auth with
      | some sd => exact .inl ⟨by simp, keeps_setEof s fd⟩
      | none =>
        simp only
        by_cases hid : r.accountId < maxServers
        · exact .inl ⟨by simp; omega, keeps_connectRequest_refused conf now s fd c (.inl hid)⟩
        · cases hfree : Slots.first (fun o : Option Session => (o.bind Session.data).any fun sd =>
              sd.accountId = r.accountId) (Function.update s.session fd none) with
          | some i =>
            exact .inl ⟨by simp, keeps_connectRequest_refused conf now s fd c (.inr (by simp [hfree]))⟩
          | none => exact .inr ⟨by simp; omega, connectRequest_attempted conf now hc hid hfree⟩

/-! ## Answers of the login-server -/

/-- The server lets an account in whose login has been accepted. -/
def CharServer.letsIn (conf : CharConf) (s : CharServer) (now accountId : Int) : Bool :=
  usersOk conf s accountId && !alwaysOnlineTimer s now accountId

/-- An answer authenticates the first session of the account, or nobody. -/
theorem loginAnswer_cases (conf : CharConf) (now : Int) (s : CharServer) (accountId : Int)
    (error : Bool) (email : CStr 40) (time : Int) :
    (Keeps s (loginAnswer conf now s accountId error email time).1 ∧
      (∀ fd ids, .charList fd ids ∉ (loginAnswer conf now s accountId error email time).2) ∧
      ((s.sessionOf accountId).isSome = true → error = false → s.letsIn conf now accountId = false)) ∨
    ∃ fd sd ids, s.sessionOf accountId = some fd ∧ s.data fd = some sd ∧ error = false ∧
      s.letsIn conf now accountId = true ∧
      (loginAnswer conf now s accountId error email time).2 = [.charList fd ids] ∧
      (∀ fd', fd' ≠ fd →
        (loginAnswer conf now s accountId error email time).1.data fd' = s.data fd') ∧
      ∃ sd', (loginAnswer conf now s accountId error email time).1.data fd = some sd' ∧
        sd'.ids = sd.ids := by
  unfold loginAnswer CharServer.letsIn
  cases hof : s.sessionOf accountId with
  | none => exact .inl ⟨keeps_of_session rfl, by simp, by simp⟩
  | some fd =>
    simp only
    split
    · rename_i herror
      exact .inl ⟨keeps_of_session rfl, by simp, by simp [herror]⟩
    · rename_i herror
      split
      · rename_i husers
        split
        · rename_i honline
          refine .inl ⟨keeps_updateData s fd (fun _ => rfl) fun _ h => ?_, by simp, by simp [honline]⟩
          cases h
        · rename_i honline
          obtain ⟨sd, hsd, -⟩ := sessionOf_some hof
          refine .inr ⟨fd, sd, _, rfl, hsd, by simpa using herror, by simp [husers, honline], rfl,
            fun fd' hne => ?_, ?_⟩
          · simp only [sendChars]
            rw [data_updateData_of_ne _ _ hne, data_updateData_of_ne _ _ hne]
          · simp only [sendChars]
            rw [data_updateData_self, data_updateData_self, hsd]
            exact ⟨_, rfl, rfl⟩
      · rename_i husers
        exact .inl ⟨keeps_of_session rfl, by simp, by simp [husers]⟩

/-! ## Steps -/

/-- The steps that may authenticate a session. -/
def CharEvent.authenticates : CharEvent → Bool
  | .client _ (.connect _) | .loginAnswer .. => true
  | _ => false

/-- All other steps authenticate nobody. -/
theorem keeps_charRun (conf : CharConf) (s : CharServer) (now : Int) {e : CharEvent}
    (he : e.authenticates = false) : Keeps s (charRun conf s now e).1 := by
  cases e with
  | accept fd ip =>
    simp only [charRun]
    split
    · exact keeps_of_session rfl
    · exact carries_accept Kept.refl rfl s fd
  | close fd => exact keeps_close s fd
  | client fd p =>
    simp only [charRun]
    unfold parseChar
    cases hc : s.session fd with
    | none => exact keeps_of_session rfl
    | some c =>
      simp only
      split
      · exact keeps_close s fd
      · cases p with
        | connect r => cases he
        | select slot =>
          cases c.data.filter SessionData.auth with
          | none => exact keeps_setEof s fd
          | some sd => exact keeps_charSelect ..
        | create dat =>
          cases c.data.filter SessionData.auth with
          | none => exact keeps_setEof s fd
          | some sd => exact keeps_charCreate ..
        | delete charId email =>
          cases c.data.filter SessionData.auth with
          | none => exact keeps_setEof s fd
          | some sd => exact keeps_charDelete ..
  | loginAnswer accountId error email time => cases he
  | emailAnswer accountId email time =>
    simp only [charRun]
    exact keeps_emailAnswer s accountId email time
  | accountDeleted accountId =>
    simp only [charRun]
    exact keeps_accountDeleted s accountId
  | disconnect accountId =>
    simp only [charRun]
    exact keeps_disconnectPlayer s accountId
  | mapChange r =>
    simp only [charRun]
    exact keeps_mapChange s r
  | mapAuth r =>
    simp only [charRun]
    exact keeps_mapAuth conf s r
  | loginInfo | mapBack | servers => exact keeps_of_session rfl

/-- No two sessions have one account. -/
def Unique (s : CharServer) : Prop :=
  ∀ fd fd' sd sd', s.data fd = some sd → s.data fd' = some sd' → sd.accountId = sd'.accountId →
    fd = fd'

theorem Keeps.unique (h : Keeps s s') (hu : Unique s) : Unique s' := by
  intro fd fd' sd sd' hsd hsd' hacc
  obtain ⟨td, htd, ⟨hids, -⟩⟩ := h.view fd sd hsd
  obtain ⟨td', htd', ⟨hids', -⟩⟩ := h.view fd' sd' hsd'
  refine hu fd fd' td td' htd htd' ?_
  have hacc1 := congrArg ConnectRequest.accountId hids
  have hacc2 := congrArg ConnectRequest.accountId hids'
  exact (hacc1.symm.trans hacc).trans hacc2

theorem Attempted.unique {r : ConnectRequest} (h : Attempted conf s fd r s') (hu : Unique s) :
    Unique s' := by
  intro a b sd sd' hsd hsd' hacc
  by_cases ha : a = fd
  · by_cases hb : b = fd
    · rw [ha, hb]
    · rw [ha] at hsd
      have hids := congrArg ConnectRequest.accountId (h.self sd hsd).1
      rw [h.others b hb] at hsd'
      exact absurd (hacc.symm.trans hids) (h.account b sd' hb hsd')
  · rw [h.others a ha] at hsd
    by_cases hb : b = fd
    · rw [hb] at hsd'
      have hids := congrArg ConnectRequest.accountId (h.self sd' hsd').1
      exact absurd (hacc.trans hids) (h.account a sd ha hsd)
    · rw [h.others b hb] at hsd'
      exact hu a b sd sd' hsd hsd' hacc

theorem unique_charRun (conf : CharConf) (s : CharServer) (now : Int) (e : CharEvent)
    (hu : Unique s) : Unique (charRun conf s now e).1 := by
  cases he : e.authenticates with
  | false => exact (keeps_charRun conf s now he).unique hu
  | true =>
    cases e with
    | client fd p =>
      cases p with
      | connect r =>
        rcases parseChar_connect conf now s fd r with ⟨-, hk⟩ | ⟨-, ha⟩
        · exact hk.unique hu
        · exact ha.unique hu
      | _ => cases he
    | loginAnswer accountId error email time =>
      rcases loginAnswer_cases conf now s accountId error email time with
        ⟨hk, -, -⟩ | ⟨fd, sd, ids, -, hsd, -, -, -, hothers, sd', hsd', hids⟩
      · exact hk.unique hu
      · have hkeep : ∀ fd' td', (loginAnswer conf now s accountId error email time).1.data fd' =
            some td' → ∃ td, s.data fd' = some td ∧ td'.accountId = td.accountId := by
          intro fd' td' htd'
          by_cases hne : fd' = fd
          · rw [hne, hsd'] at htd'
            obtain rfl := Option.some.inj htd'
            exact ⟨sd, by rw [hne]; exact hsd, congrArg ConnectRequest.accountId hids⟩
          · rw [hothers fd' hne] at htd'
            exact ⟨td', htd', rfl⟩
        intro a b ta tb hta htb hacc
        obtain ⟨ua, hua, haa⟩ := hkeep a ta hta
        obtain ⟨ub, hub, hab⟩ := hkeep b tb htb
        exact hu a b ua ub hua hub ((haa.symm.trans hacc).trans hab)
    | _ => cases he

end Nezumi
