import Nezumi.Lib.Run
import Nezumi.Login.AnswerLemmas
import Nezumi.Login.AccountLemmas
import Nezumi.Login.Step

/-!
# Login identity over whole runs (`login/login.c`)

* A `Registry` lists the accounts that have been created and not deleted since.
* `KeysOk` is the invariant: the registry is the part of the table that has names, its ids are
  different and below the counter, and a deleted entry has the id `-1`.
* `loginRun_identity`: in a run without a login that an entry without a name would accept, each
  login that is authorized is one for an account of the registry, by its name and its password.
* `loginRun_not_identity`: an empty name and the password of a deleted account are authorized.
-/

namespace Nezumi

abbrev Registry := List AccountKey

/-- What a step says about the accounts: those that are added to the table, and the one that a
deletion finds. -/
def registryStep (conf : LoginConf) (reg : Registry) (s s' : LoginState) (e : LoginEvent) :
    Registry :=
  match e with
  | .login _ | .create .. => reg ++ s'.keys.drop s.keys.length
  | .delete name =>
    match searchAccountIndex conf s.authDat name with
    | none => reg
    | some i => reg.filter fun a => a.id ≠ (s.authDat.getD i default).accountId
  | _ => reg

/-- A run of the server and of the registry. -/
def identityStep (env : LoginEnv) (w : LoginState × Registry) (e : LoginEvent) :
    LoginState × Registry :=
  (loginStep env w.1 e, registryStep env.conf w.2 w.1 (loginStep env w.1 e) e)

/-- An authorized login is one for an account of the registry: its name is the given one, its
password matches, and its id is the one that is reported. -/
structure LoginIdentity (env : LoginEnv) (db : Accounts) (reg : Registry) (p : ClientLogin) :
    Prop where
  account : (mmoAuth env.libc env.conf db p.account p.call).1 = -1 →
    ∃ a, Designates env.conf.strictAccountNameCompare reg (loginName env.conf db p.account) a ∧
      a.id = (mmoAuth env.libc env.conf db p.account p.call).2.1.accountId ∧
      passwordCheck env.libc a.pass p.account.passwd (passwordKey p.account p.call) = true

/-- What the registry promises after a step: different ids, and an authorized login is one for an
account of the registry. -/
structure IdentityOk (env : LoginEnv) (w : LoginState × Registry) (e : LoginEvent) : Prop where
  ids : ((identityStep env w e).2.map AccountKey.id).Nodup
  login : ∀ p, e = .login p → LoginIdentity env w.1.toAccounts (identityStep env w e).2 p

instance (libc : Libc) (conf : LoginConf) (a : AuthDat) (account : MmoAccount) (call : LoginCall) :
    Decidable (Accepts libc conf a account call) :=
  decidable_of_iff
    ((conf.clientVersionToConnect = 0 ∨ account.version = conf.clientVersionToConnect ∨
        a.sex = 2) ∧ (account.passwdenc > 0 → call.md5key.isSome) ∧
      passwordCheck libc a.pass account.passwd (passwordKey account call) = true ∧ a.state = 0 ∧
      (a.banUntilTime = 0 ∨ a.banUntilTime ≤ call.now) ∧
      (a.connectUntilTime = 0 ∨ call.now ≤ a.connectUntilTime))
    ⟨fun ⟨a, b, c, d, e, f⟩ => ⟨a, b, c, d, e, f⟩, fun ⟨a, b, c, d, e, f⟩ => ⟨a, b, c, d, e, f⟩⟩

/-- A login with an empty name is not one that the first entry without a name would accept. -/
def NameOk (env : LoginEnv) (w : LoginState × Registry) (e : LoginEvent) : Prop :=
  match e with
  | .login p =>
    p.account.userid = CStr.empty →
      ∀ a ∈ w.1.authDat.find? (fun a => a.userid = CStr.empty),
        ¬ Accepts env.libc env.conf a p.account p.call
  | _ => True

instance (env : LoginEnv) (w : LoginState × Registry) (e : LoginEvent) :
    Decidable (NameOk env w e) :=
  match e with
  | .login _ => inferInstanceAs (Decidable (_ → ∀ _ ∈ _, ¬ _))
  | .request _ | .status _ _ | .ban _ _ _ | .sex _ _ | .create _ _ _ _ _ | .delete _
  | .servers _ _ => .isTrue trivial

/-! ## The invariant -/

/-- The table with its counter, and the registry. -/
structure KeysOk (keys : List AccountKey) (count : Int) (reg : Registry) : Prop where
  named : reg = keys.filter fun a => a.name ≠ CStr.empty
  ids : (reg.map AccountKey.id).Nodup
  nonneg : 0 ≤ count
  bound : ∀ a ∈ keys, a.id < count
  live : ∀ a ∈ keys, a.name ≠ CStr.empty → 0 ≤ a.id
  dead : ∀ a ∈ keys, a.name = CStr.empty → a.id = -1

/-- The entry of a deleted account. -/
def AccountKey.deleted (a : AccountKey) : AccountKey := { a with id := -1, name := CStr.empty }

theorem keys_deleted (l : List AuthDat) (i : Nat) :
    (l.modify i AuthDat.deleted).map AuthDat.key = (l.map AuthDat.key).modify i AccountKey.deleted := by
  apply List.ext_getElem?
  intro j
  rw [List.getElem?_map, List.getElem?_modify, List.getElem?_modify, List.getElem?_map]
  cases l[j]? with
  | none => rfl
  | some a => by_cases h : i = j <;> simp [h, AuthDat.key, AuthDat.deleted, AccountKey.deleted]

/-- A new account with the next id. -/
theorem KeysOk.append {keys : List AccountKey} {count : Int} {reg : Registry}
    (h : KeysOk keys count reg) {a : AccountKey} (hid : a.id = count) (hname : a.name ≠ CStr.empty) :
    KeysOk (keys ++ [a]) (count + 1) (reg ++ [a]) := by
  have hcount := h.nonneg
  refine ⟨?_, ?_, by omega, ?_, ?_, ?_⟩
  · rw [h.named, List.filter_append]
    simp [hname]
  · rw [List.map_append, List.nodup_append]
    refine ⟨h.ids, by simp, ?_⟩
    intro x hx y hy
    obtain ⟨b, hb, rfl⟩ := List.mem_map.mp hx
    have hbound := h.bound b (by rw [h.named] at hb; exact (List.mem_filter.mp hb).1)
    have hy' : y = a.id := by simpa using hy
    omega
  · intro b hb
    rcases List.mem_append.mp hb with hb | hb
    · have := h.bound b hb
      omega
    · obtain rfl : b = a := by simpa using hb
      omega
  · intro b hb hbn
    rcases List.mem_append.mp hb with hb | hb
    · exact h.live b hb hbn
    · obtain rfl : b = a := by simpa using hb
      omega
  · intro b hb hbn
    rcases List.mem_append.mp hb with hb | hb
    · exact h.dead b hb hbn
    · obtain rfl : b = a := by simpa using hb
      exact absurd hbn hname

/-- Deleting the account of an entry takes exactly that account from the entries with names. -/
theorem filter_modify_deleted {keys : List AccountKey} {i : Nat} {a : AccountKey}
    (hids : ((keys.filter fun a => a.name ≠ CStr.empty).map AccountKey.id).Nodup)
    (hlive : ∀ b ∈ keys, b.name ≠ CStr.empty → 0 ≤ b.id)
    (hdead : ∀ b ∈ keys, b.name = CStr.empty → b.id = -1) (ha : keys[i]? = some a) :
    (keys.modify i AccountKey.deleted).filter (fun b => b.name ≠ CStr.empty) =
      (keys.filter fun b => b.name ≠ CStr.empty).filter fun b => b.id ≠ a.id := by
  induction keys generalizing i with
  | nil => simp at ha
  | cons b bs ih =>
    have hlive' : ∀ c ∈ bs, c.name ≠ CStr.empty → 0 ≤ c.id :=
      fun c hc => hlive c (List.mem_cons_of_mem _ hc)
    have hdead' : ∀ c ∈ bs, c.name = CStr.empty → c.id = -1 :=
      fun c hc => hdead c (List.mem_cons_of_mem _ hc)
    cases i with
    | zero =>
      obtain rfl : b = a := by simpa using ha
      -- No other account has the id of the head.
      have hrest : (bs.filter fun c => c.name ≠ CStr.empty).filter (fun c => c.id ≠ b.id) =
          bs.filter fun c => c.name ≠ CStr.empty := by
        rw [List.filter_eq_self]
        intro c hc
        obtain ⟨hcm, hcn⟩ := List.mem_filter.mp hc
        by_cases hb : b.name = CStr.empty
        · have hbid := hdead b List.mem_cons_self hb
          have hcid := hlive' c hcm (by simpa using hcn)
          simp only [decide_eq_true_eq]
          omega
        · rw [List.filter_cons_of_pos (by simpa using hb), List.map_cons, List.nodup_cons] at hids
          simp only [decide_eq_true_eq]
          intro heq
          exact hids.1 (heq ▸ List.mem_map_of_mem hc)
      rw [List.modify_zero_cons, List.filter_cons_of_neg (by simp [AccountKey.deleted])]
      by_cases hb : b.name = CStr.empty
      · rw [List.filter_cons_of_neg (by simpa using hb), hrest]
      · rw [List.filter_cons_of_pos (by simpa using hb), List.filter_cons_of_neg (by simp), hrest]
    | succ i =>
      rw [List.getElem?_cons_succ] at ha
      have ham := List.mem_of_getElem? ha
      rw [List.modify_succ_cons]
      by_cases hb : b.name = CStr.empty
      · rw [List.filter_cons_of_neg (by simpa using hb)] at hids
        rw [List.filter_cons_of_neg (by simpa using hb), List.filter_cons_of_neg (by simpa using hb)]
        exact ih hids hlive' hdead' ha
      · rw [List.filter_cons_of_pos (by simpa using hb), List.map_cons, List.nodup_cons] at hids
        -- The head has another id than the deleted entry.
        have hne : b.id ≠ a.id := by
          by_cases han : a.name = CStr.empty
          · have haid := hdead' a ham han
            have hbid := hlive b List.mem_cons_self hb
            omega
          · intro heq
            exact hids.1 (heq ▸ List.mem_map_of_mem
              (List.mem_filter.mpr ⟨ham, by simpa using han⟩))
        rw [List.filter_cons_of_pos (by simpa using hb), List.filter_cons_of_pos (by simpa using hb),
          List.filter_cons_of_pos (by simpa using hne), ih hids.2 hlive' hdead' ha]

theorem KeysOk.delete {keys : List AccountKey} {count : Int} {reg : Registry}
    (h : KeysOk keys count reg) {i : Nat} {a : AccountKey} (ha : keys[i]? = some a) :
    KeysOk (keys.modify i AccountKey.deleted) count (reg.filter fun b => b.id ≠ a.id) := by
  have hmem {b : AccountKey} (hb : b ∈ keys.modify i AccountKey.deleted) :
      b ∈ keys ∨ ∃ c ∈ keys, b = c.deleted := by
    obtain ⟨j, hj⟩ := List.mem_iff_getElem?.mp hb
    rw [List.getElem?_modify] at hj
    cases hc : keys[j]? with
    | none => simp [hc] at hj
    | some c =>
      by_cases hij : i = j
      · exact .inr ⟨c, List.mem_of_getElem? hc, by simpa [hc, hij] using hj.symm⟩
      · exact .inl (by
          have : c = b := by simpa [hc, hij] using hj
          exact this ▸ List.mem_of_getElem? hc)
  have hreg := h.named
  subst hreg
  refine ⟨(filter_modify_deleted h.ids h.live h.dead ha).symm, ?_, h.nonneg, ?_, ?_, ?_⟩
  · exact h.ids.sublist (List.Sublist.map _ List.filter_sublist)
  · intro b hb
    rcases hmem hb with hb | ⟨c, -, rfl⟩
    · exact h.bound b hb
    · have := h.nonneg
      simp only [AccountKey.deleted]
      omega
  · intro b hb hbn
    rcases hmem hb with hb | ⟨c, -, rfl⟩
    · exact h.live b hb hbn
    · simp [AccountKey.deleted] at hbn
  · intro b hb hbn
    rcases hmem hb with hb | ⟨c, -, rfl⟩
    · exact h.dead b hb hbn
    · rfl

/-- A search by name among all entries is one among the accounts, for a name that is not empty. -/
theorem KeysOk.designates {keys : List AccountKey} {count : Int} {reg : Registry}
    (h : KeysOk keys count reg) {strict : Bool} {name : CStr 24} {a : AccountKey}
    (ha : Designates strict keys name a) (hname : name ≠ CStr.empty) :
    Designates strict reg name a := by
  have hreg {b : AccountKey} : b ∈ reg ↔ b ∈ keys ∧ b.name ≠ CStr.empty := by
    rw [h.named]
    simp
  have hlive : a.name ≠ CStr.empty := by
    rcases ha.name with heq | ⟨-, hcase, -⟩
    · rw [heq]
      exact hname
    · exact fun hempty => hname (strcasecmp_empty hcase hempty)
  refine ⟨hreg.mpr ⟨ha.mem, hlive⟩, ha.name.imp id fun ⟨hs, hcase, honly⟩ => ⟨hs, hcase, ?_⟩⟩
  exact fun b hb => honly b (hreg.mp hb).1

/-! ## Steps -/

/-- The events that keep the keys and the counter. -/
theorem keys_of_found {s : LoginState} {accountId : Int} {i : Nat} {b : AuthDat}
    (h : searchAccountIndex2 s.authDat accountId = some i)
    (hb : b.key = (s.authDat.getD i default).key) :
    (s.authDat.set i b).map AuthDat.key = s.keys := by
  obtain ⟨a, ha, -⟩ := searchAccountIndex2_some h
  have hget : s.authDat.getD i default = a := by simp [List.getD, ha]
  exact keys_set ha (by rw [hb, hget])

theorem changeStatus_keys (s : LoginState) (accountId statut : Int) :
    (changeStatus s accountId statut).1.keys = s.keys ∧
      (changeStatus s accountId statut).1.accountIdCount = s.accountIdCount := by
  unfold changeStatus
  cases hi : searchAccountIndex2 s.authDat accountId with
  | none => exact ⟨rfl, rfl⟩
  | some i =>
    simp only
    split
    · exact ⟨rfl, rfl⟩
    · split
      · exact ⟨keys_of_found hi rfl, rfl⟩
      · exact ⟨rfl, rfl⟩

theorem banRequest_keys (libc : Libc) (now : Int) (s : LoginState) (accountId : Int)
    (delta : BanDelta) : (banRequest libc now s accountId delta).1.keys = s.keys ∧
      (banRequest libc now s accountId delta).1.accountIdCount = s.accountIdCount := by
  unfold banRequest
  cases hi : searchAccountIndex2 s.authDat accountId with
  | none => exact ⟨rfl, rfl⟩
  | some i =>
    simp only
    split
    · exact ⟨rfl, rfl⟩
    · cases banTimestamp libc now (s.authDat.getD i default) delta with
      | none => exact ⟨rfl, rfl⟩
      | some timestamp =>
        simp only
        split
        · exact ⟨keys_of_found hi rfl, rfl⟩
        · exact ⟨rfl, rfl⟩

theorem changeSex_keys (s : LoginState) (accountId gm : Int) :
    (changeSex s accountId gm).1.keys = s.keys ∧
      (changeSex s accountId gm).1.accountIdCount = s.accountIdCount := by
  unfold changeSex
  cases hi : searchAccountIndex2 s.authDat accountId with
  | none => exact ⟨rfl, rfl⟩
  | some i =>
    simp only
    split
    · exact ⟨rfl, rfl⟩
    · exact ⟨keys_of_found hi rfl, rfl⟩

theorem authRequest_accounts (conf : LoginConf) (mem : Nat → AuthDat) (buf : Bytes.Buf)
    (s : LoginState) (r : AuthRequest) :
    (authRequest conf mem buf s r).1.toAccounts = s.toAccounts := by
  unfold authRequest
  split <;> rfl

theorem parseLogin_accounts (libc : Libc) (conf : LoginConf) (buf : Bytes.Buf) (s : LoginState)
    (p : ClientLogin) : (parseLogin libc conf buf s p).1.toAccounts =
      (mmoAuth libc conf s.toAccounts p.account p.call).2.2 := by
  unfold parseLogin
  simp only
  split
  · split
    · rfl
    · split
      · rfl
      · split <;> rfl
  · rfl

/-- A creation of the administration tool adds nothing, or an account with a name of four characters
at least and the next id. -/
theorem ladminAccountCreation_cases (libc : Libc) (conf : LoginConf) (now : Int) (db : Accounts)
    (userid pass : CStr 24) (sex : UInt8) (email : CStr 40) :
    let db' := ladminAccountCreation libc conf now db userid pass sex email
    let id := skipGmIds db.authDat db.authDat.length db.accountIdCount
    db' = db ∨ userid ≠ CStr.empty ∧
      db'.keys = db.keys ++ [⟨id, userid, storedPass libc conf pass.bytes⟩] ∧
      db'.accountIdCount = id + 1 := by
  intro db' id
  unfold db' ladminAccountCreation
  split
  · exact .inl rfl
  · rename_i hlen
    have hne : userid ≠ CStr.empty := by
      rintro rfl
      simp [CStr.empty] at hlen
    split
    · exact .inl rfl
    · split
      · exact .inl rfl
      · split
        · exact .inl rfl
        · simp only
          split
          · exact .inl rfl
          · split
            · exact .inl rfl
            · exact .inr ⟨hne, createAccount_keys ..⟩

/-- The next id is the counter while all ids are below it. -/
theorem KeysOk.skipGmIds {db : Accounts} {reg : Registry}
    (h : KeysOk db.keys db.accountIdCount reg) :
    Nezumi.skipGmIds db.authDat db.authDat.length db.accountIdCount = db.accountIdCount :=
  skipGmIds_eq (fun a ha => h.bound a.key (List.mem_map_of_mem ha)) _

/-- The state of a run. -/
def RegistryOk (w : LoginState × Registry) : Prop := KeysOk w.1.keys w.1.accountIdCount w.2

theorem registryOk_login (env : LoginEnv) {w : LoginState × Registry} (h : RegistryOk w)
    (p : ClientLogin) : RegistryOk (identityStep env w (.login p)) := by
  have hdb : (loginStep env w.1 (.login p)).toAccounts =
      (mmoAuth env.libc env.conf w.1.toAccounts p.account p.call).2.2 := parseLogin_accounts ..
  unfold RegistryOk identityStep registryStep
  simp only [hdb]
  rcases mmoAuth_cases env.libc env.conf w.1.toAccounts p.account p.call with
    ⟨-, hkeys, hcount⟩ | ⟨id, -, hasks, hnext, hkeys, hcount, -⟩ | ⟨-, -, -, -, -, -, -, hkeys, hcount, -⟩
  · rw [hkeys, hcount, List.drop_length, List.append_nil]
    exact h
  · obtain ⟨hlen, -, -⟩ := asksCreation_lengths hasks
    rw [hkeys, hcount, List.drop_left, hnext, KeysOk.skipGmIds h]
    apply KeysOk.append h rfl
    intro hempty
    have hcut := length_cutSuffix p.account.userid
    rw [show cutSuffix p.account.userid = CStr.empty from hempty] at hcut
    simp only [CStr.empty, List.length_nil] at hcut
    omega
  · rw [hkeys, hcount, List.drop_length, List.append_nil]
    exact h

theorem ladminAccountDeletion_eq (conf : LoginConf) (db : Accounts) (name : CStr 24) :
    ladminAccountDeletion conf db name = deleteAccount conf db name := by
  unfold ladminAccountDeletion
  split
  · rename_i hnone
    rw [deleteAccount, hnone]
  · rfl

theorem registryOk_delete (env : LoginEnv) {w : LoginState × Registry} (h : RegistryOk w)
    (name : CStr 24) : RegistryOk (identityStep env w (.delete name)) := by
  have hdb : (loginStep env w.1 (.delete name)).toAccounts =
      deleteAccount env.conf w.1.toAccounts name := ladminAccountDeletion_eq ..
  unfold RegistryOk identityStep registryStep
  simp only [hdb]
  cases hi : searchAccountIndex env.conf w.1.authDat name with
  | none =>
    simp only [deleteAccount, hi]
    exact h
  | some i =>
    obtain ⟨a, ha, -⟩ := searchAccountIndex_some hi
    have hget : w.1.authDat.getD i default = a := by simp [List.getD, ha]
    simp only [deleteAccount, hi, Accounts.keys, keys_deleted, hget]
    exact KeysOk.delete h (a := a.key) (by simp [Accounts.keys, ha])

theorem registryOk_step (env : LoginEnv) (w : LoginState × Registry) (e : LoginEvent)
    (h : RegistryOk w) : RegistryOk (identityStep env w e) := by
  have hsame {s' : LoginState} (hk : s'.keys = w.1.keys ∧ s'.accountIdCount = w.1.accountIdCount) :
      RegistryOk (s', w.2) := by
    unfold RegistryOk
    rw [hk.1, hk.2]
    exact h
  cases e with
  | login p => exact registryOk_login env h p
  | request r =>
    have hacc := authRequest_accounts env.conf env.mem env.buf w.1 r
    exact hsame ⟨congrArg Accounts.keys hacc, congrArg Accounts.accountIdCount hacc⟩
  | status accountId statut => exact hsame (changeStatus_keys ..)
  | ban now accountId delta => exact hsame (banRequest_keys ..)
  | sex accountId gm => exact hsame (changeSex_keys ..)
  | create now userid pass sex email =>
    unfold RegistryOk identityStep registryStep loginStep loginRun
    simp only
    rcases ladminAccountCreation_cases env.libc env.conf now w.1.toAccounts userid pass sex email with
      hsame | ⟨hne, hkeys, hcount⟩
    · rw [hsame, List.drop_length, List.append_nil]
      exact h
    · rw [hkeys, hcount, List.drop_left, KeysOk.skipGmIds h]
      exact KeysOk.append h rfl hne
  | delete name => exact registryOk_delete env h name
  | servers => exact h

/-! ## Runs -/

/-- What the invariant says about a login. -/
theorem loginIdentity_of_registryOk (env : LoginEnv) {w : LoginState × Registry} (h : RegistryOk w)
    {p : ClientLogin} (hok : NameOk env w (.login p)) :
    LoginIdentity env w.1.toAccounts (identityStep env w (.login p)).2 p := by
  have hdb : (loginStep env w.1 (.login p)).toAccounts =
      (mmoAuth env.libc env.conf w.1.toAccounts p.account p.call).2.2 := parseLogin_accounts ..
  constructor
  intro hres
  rcases mmoAuth_cases env.libc env.conf w.1.toAccounts p.account p.call with
    ⟨hrefused, -, -⟩ | ⟨id, -, hasks, -, hkeys, -, hid⟩ |
    ⟨i, a, -, hasks, hfound, hget, hacc, hkeys, -, hid⟩
  · exact absurd hres hrefused
  · obtain ⟨-, hpass, henc⟩ := asksCreation_lengths hasks
    refine ⟨⟨id, cutSuffix p.account.userid, storedPass env.libc env.conf p.account.passwd⟩,
      ⟨?_, .inl ?_⟩, hid.symm, passwordCheck_storedPass (by omega) _⟩
    · simp only [identityStep, registryStep, hdb, hkeys, List.drop_left]
      simp
    · simp [loginName, hasks]
  · have hname : p.account.userid ≠ CStr.empty := by
      intro hempty
      rw [hempty] at hfound
      obtain ⟨b, hb, hfind⟩ := searchAccountIndex_empty hfound
      obtain rfl : a = b := by simpa [hget] using hb
      exact hok hempty a hfind hacc
    obtain ⟨b, hb, hdes⟩ := searchAccountIndex_some hfound
    obtain rfl : a = b := by simpa [hget] using hb
    refine ⟨a.key, ?_, hid.symm, hacc.password⟩
    simp only [identityStep, registryStep, hdb, hkeys, List.drop_length, List.append_nil, loginName,
      hasks, Bool.false_eq_true, if_false]
    exact KeysOk.designates h hdes hname

theorem identityOk_of_registryOk (env : LoginEnv) (w : LoginState × Registry) (e : LoginEvent)
    (h : RegistryOk w) (hok : NameOk env w e) : IdentityOk env w e := by
  refine ⟨(registryOk_step env w e h).ids, ?_⟩
  rintro p rfl
  exact loginIdentity_of_registryOk env h hok

/-- The accounts that the server starts with: they have names and different ids below the
counter. -/
structure IdentityStart (w : LoginState × Registry) : Prop where
  reg : w.2 = w.1.keys
  names : ∀ a ∈ w.1.keys, a.name ≠ CStr.empty
  ids : (w.1.keys.map AccountKey.id).Nodup
  bounds : ∀ a ∈ w.1.keys, 0 ≤ a.id ∧ a.id < w.1.accountIdCount
  count : 0 ≤ w.1.accountIdCount

theorem IdentityStart.registryOk {w : LoginState × Registry} (h : IdentityStart w) :
    RegistryOk w where
  named := by
    rw [h.reg, eq_comm, List.filter_eq_self]
    intro a ha
    simpa using h.names a ha
  ids := by rw [h.reg]; exact h.ids
  nonneg := h.count
  bound a ha := (h.bounds a ha).2
  live a ha _ := (h.bounds a ha).1
  dead a ha hname := absurd hname (h.names a ha)

/-- **Login identity.** In a run without a login that the first entry without a name would accept,
the accounts always have different ids, and every authorized login reports an account that has been
created and not deleted, by its name and its password. -/
theorem loginRun_identity (env : LoginEnv) {w : LoginState × Registry} {es : List LoginEvent}
    (hs : IdentityStart w) (hm : Run.Meets (identityStep env) (NameOk env) w es) :
    Run.Meets (identityStep env) (IdentityOk env) w es :=
  Run.meets_of_inv (fun w e hI _ => registryOk_step env w e hI) (identityOk_of_registryOk env)
    hs.registryOk hm

/-- A login in plain text. -/
def plainLogin (userid passwd : String) : ClientLogin where
  userid := (cstr 24 userid).bytes
  passwd := (cstr 24 passwd).bytes
  call := { now := 1000, rand1 := 11, rand2 := 12, ip := 7 }

/-- An account is created, used and deleted, and its name is given to another one. -/
theorem loginRun_identity_alice :
    Run.Meets (identityStep { libc := plainLibc }) (IdentityOk { libc := plainLibc }) ({}, [])
      [.login (plainLogin "alice_F" "sesame"), .login (plainLogin "alice" "sesame"),
        .delete (cstr 24 "alice"), .login (plainLogin "alice" "sesame"),
        .create 1000 (cstr 24 "alice") (cstr 24 "porridge") 77 (cstr 40 "a@a.com"),
        .login (plainLogin "alice" "porridge")] :=
  loginRun_identity { libc := plainLibc }
    ⟨rfl, by simp [Accounts.keys], by simp [Accounts.keys], by simp [Accounts.keys], by decide⟩
    (by decide)

/-- An account is created and deleted. The empty name with its password is then authorized, as the
account `-1`. -/
theorem loginRun_not_identity :
    ¬ Run.Meets (identityStep { libc := plainLibc }) (IdentityOk { libc := plainLibc }) ({}, [])
      [.login (plainLogin "alice_F" "sesame"), .delete (cstr 24 "alice"),
        .login (plainLogin "" "sesame")] := by
  rintro ⟨-, -, h, -⟩
  obtain ⟨a, hdes, -⟩ := (h.login (plainLogin "" "sesame") rfl).account (by decide)
  have hreg : (identityStep { libc := plainLibc }
      (identityStep { libc := plainLibc }
        (identityStep { libc := plainLibc } ({}, []) (.login (plainLogin "alice_F" "sesame")))
        (.delete (cstr 24 "alice")))
      (.login (plainLogin "" "sesame"))).2 = [] := by decide
  have hmem := hdes.mem
  rw [hreg] at hmem
  cases hmem

end Nezumi
