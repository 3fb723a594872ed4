import Nezumi.Login.Account

/-!
# What the account functions do

* `searchAccountIndex_some`: the entry a search by name finds matches it, exactly or as the only
  one.
* `mmoAuth_cases`: a login refuses, creates an account or accepts one, and the table keeps the
  names, ids and passwords of the others.
* `passwordCheck_storedPass`: the password that an account is created with is accepted for it.
-/

namespace Nezumi

/-- What an account is known by. -/
structure AccountKey where
  id : Int
  name : CStr 24
  pass : CStr 32
  deriving DecidableEq

def AuthDat.key (a : AuthDat) : AccountKey := ⟨a.accountId, a.userid, a.pass⟩

/-- The keys of the table. -/
def Accounts.keys (db : Accounts) : List AccountKey := db.authDat.map AuthDat.key

theorem keys_set {l : List AuthDat} {i : Nat} {a b : AuthDat} (ha : l[i]? = some a)
    (hk : b.key = a.key) : (l.set i b).map AuthDat.key = l.map AuthDat.key := by
  apply List.ext_getElem?
  intro j
  rw [List.getElem?_map, List.getElem?_map, List.getElem?_set]
  split
  · rename_i hij
    subst hij
    obtain ⟨hlt, rfl⟩ := List.getElem?_eq_some_iff.mp ha
    simp [hlt, hk]
  · rfl

theorem keys_modify {l : List AuthDat} {i : Nat} {f : AuthDat → AuthDat}
    (hk : ∀ a, (f a).key = a.key) : (l.modify i f).map AuthDat.key = l.map AuthDat.key := by
  apply List.ext_getElem?
  intro j
  rw [List.getElem?_map, List.getElem?_map, List.getElem?_modify]
  cases l[j]? with
  | none => rfl
  | some a => by_cases h : i = j <;> simp [h, hk]

/-! ## Names -/

theorem strcasecmp_refl {n : Nat} (a : CStr n) : strcasecmp a a = true := by simp [strcasecmp]

theorem strcasecmp_empty {n : Nat} {a b : CStr n} (h : strcasecmp a b = true)
    (ha : a = CStr.empty) : b = CStr.empty := by
  subst ha
  ext1
  have hnil : [] = b.bytes.map tolower := by simpa [strcasecmp, CStr.empty] using h
  simpa [CStr.empty] using hnil.symm

/-- The loop finds an exact match, or the only match ignoring case. -/
theorem searchLoop_some {name : CStr 24} {l : List AuthDat} {n quantity i : Nat} {idx : Option Nat}
    (h : searchLoop name l n quantity idx = some i) :
    (∃ j a, l[j]? = some a ∧ i = n + j ∧ a.userid = name) ∨
    (quantity + l.countP (fun a => strcasecmp a.userid name) = 1 ∧
      (idx = some i ∨ ∃ j a, l[j]? = some a ∧ i = n + j ∧ strcasecmp a.userid name = true)) := by
  induction l generalizing n quantity idx with
  | nil =>
    simp only [searchLoop] at h
    split at h
    · exact .inr ⟨by simpa using ‹quantity = 1›, .inl h⟩
    · cases h
  | cons a as ih =>
    -- A match in the tail is one of the whole list, an index further on.
    have hshift {P : AuthDat → Prop} (ht : ∃ j b, as[j]? = some b ∧ i = n + 1 + j ∧ P b) :
        ∃ j b, (a :: as)[j]? = some b ∧ i = n + j ∧ P b := by
      obtain ⟨j, b, hb, hi, hP⟩ := ht
      exact ⟨j + 1, b, by simpa using hb, by omega, hP⟩
    simp only [searchLoop] at h
    split at h
    · rename_i hcase
      split at h
      · rename_i heq
        cases h
        exact .inl ⟨0, a, rfl, rfl, heq⟩
      · rcases ih h with hex | ⟨hq, hidx⟩
        · exact .inl (hshift hex)
        · refine .inr ⟨by simp only [List.countP_cons, hcase, if_true]; omega, .inr ?_⟩
          rcases hidx with hidx | hidx
          · cases hidx
            exact ⟨0, a, rfl, rfl, hcase⟩
          · exact hshift hidx
    · rename_i hcase
      rcases ih h with hex | ⟨hq, hidx⟩
      · exact .inl (hshift hex)
      · refine .inr ⟨by simp only [List.countP_cons, hcase]; simpa using hq, hidx.imp id hshift⟩

/-- A test that one entry of a list passes is passed by that entry only. -/
theorem eq_of_countP_one {α : Type*} {p : α → Bool} {l : List α} (h : l.countP p = 1) {a b : α}
    (ha : a ∈ l) (hpa : p a = true) (hb : b ∈ l) (hpb : p b = true) : a = b := by
  rw [List.countP_eq_length_filter, List.length_eq_one_iff] at h
  obtain ⟨c, hc⟩ := h
  have hmem {x : α} (hx : x ∈ l) (hpx : p x = true) : x = c := by
    have : x ∈ l.filter p := List.mem_filter.mpr ⟨hx, hpx⟩
    simpa [hc] using this
  rw [hmem ha hpa, hmem hb hpb]

/-- The account `a` is what the name stands for: its name is the given one, or, without strict
comparison, it is the only account of that name ignoring case. -/
structure Designates (strict : Bool) (keys : List AccountKey) (name : CStr 24) (a : AccountKey) :
    Prop where
  mem : a ∈ keys
  name : a.name = name ∨
    strict = false ∧ strcasecmp a.name name = true ∧
      ∀ b ∈ keys, strcasecmp b.name name = true → b = a

theorem searchAccountIndex_some {conf : LoginConf} {db : Accounts} {name : CStr 24} {i : Nat}
    (h : searchAccountIndex conf db.authDat name = some i) :
    ∃ a, db.authDat[i]? = some a ∧ Designates conf.strictAccountNameCompare db.keys name a.key := by
  have hmem {j : Nat} {a : AuthDat} (ha : db.authDat[j]? = some a) : a.key ∈ db.keys :=
    List.mem_map_of_mem (List.mem_of_getElem? ha)
  unfold searchAccountIndex at h
  split at h
  · obtain ⟨hi, heq, -⟩ := List.findIdx?_eq_some_iff_getElem.mp h
    have hget := List.getElem?_eq_getElem hi
    exact ⟨_, hget, hmem hget, .inl (by simpa [AuthDat.key] using heq)⟩
  · rename_i hstrict
    rcases searchLoop_some h with ⟨j, a, ha, hij, heq⟩ | ⟨hq, hidx⟩
    · obtain rfl : i = j := by omega
      exact ⟨a, ha, hmem ha, .inl heq⟩
    · rcases hidx with hidx | ⟨j, a, ha, hij, hcase⟩
      · cases hidx
      · obtain rfl : i = j := by omega
        refine ⟨a, ha, hmem ha, .inr ⟨by simpa using hstrict, hcase, ?_⟩⟩
        intro b hb hbcase
        obtain ⟨b', hb', rfl⟩ := List.mem_map.mp hb
        rw [eq_of_countP_one (p := fun a => strcasecmp a.userid name) (by simpa using hq) hb' hbcase
          (List.mem_of_getElem? ha) hcase]

/-- A search with the empty name finds the first entry without a name. -/
theorem searchAccountIndex_empty {conf : LoginConf} {authDat : List AuthDat} {i : Nat}
    (h : searchAccountIndex conf authDat CStr.empty = some i) :
    ∃ a, authDat[i]? = some a ∧ authDat.find? (fun a => a.userid = CStr.empty) = some a := by
  have hfind : searchAccountIndex conf authDat CStr.empty =
      authDat.findIdx? fun a => a.userid = CStr.empty := by
    unfold searchAccountIndex
    split
    · rfl
    · have hloop : ∀ (l : List AuthDat) (n : Nat), searchLoop CStr.empty l n 0 none =
          (l.findIdx? fun a => a.userid = CStr.empty).map (n + ·) := by
        intro l
        induction l with
        | nil => simp [searchLoop]
        | cons a as ih =>
          intro n
          by_cases ha : a.userid = CStr.empty
          · simp [searchLoop, List.findIdx?_cons, ha, strcasecmp_refl]
          · have hcase : strcasecmp a.userid CStr.empty = false := by
              rw [Bool.eq_false_iff]
              intro hcase
              apply ha
              ext1
              simpa [strcasecmp, CStr.empty] using hcase
            simp only [searchLoop, hcase, Bool.false_eq_true, if_false, ih, List.findIdx?_cons, ha,
              decide_false, Option.map_map]
            congr 1
            funext j
            simp
            omega
      simpa using hloop authDat 0
  rw [hfind] at h
  obtain ⟨hi, heq, hlt⟩ := List.findIdx?_eq_some_iff_getElem.mp h
  refine ⟨_, List.getElem?_eq_getElem hi, ?_⟩
  rw [List.find?_eq_some_iff_getElem]
  exact ⟨heq, i, hi, rfl, fun j hj => by simpa using hlt j hj⟩

/-! ## Passwords -/

theorem memcmp_self (n : Nat) (a : List UInt8) : memcmp n a a = true := by simp [memcmp]

theorem takeWhile_take {α : Type*} {p : α → Bool} {l : List α} {n : Nat}
    (h : (l.takeWhile p).length ≤ n) : (l.take n).takeWhile p = l.takeWhile p := by
  induction l generalizing n with
  | nil => simp
  | cons a as ih =>
    by_cases ha : p a = true
    · rw [List.takeWhile_cons_of_pos ha] at h ⊢
      cases n with
      | zero => simp at h
      | succ n =>
        rw [List.take_succ_cons, List.takeWhile_cons_of_pos ha, ih (by simpa using h)]
    · cases n with
      | zero => simp [List.takeWhile_cons_of_neg ha]
      | succ n => simp [List.takeWhile_cons_of_neg ha]

theorem passwordCheck_storedPass {libc : Libc} {conf : LoginConf} {passwd : List UInt8}
    (h : (strOf passwd).length ≤ 32) (key : List UInt8) :
    passwordCheck libc (storedPass libc conf passwd) passwd key = true := by
  unfold passwordCheck storedPass
  split
  · simp [memcmp_self]
  · have hbytes : (CStr.ofField 32 passwd).bytes = strOf passwd := takeWhile_take h
    rw [hbytes]
    simp

/-! ## Creation -/

theorem skipGmIds_eq {authDat : List AuthDat} {count : Int}
    (h : ∀ a ∈ authDat, a.accountId < count) (fuel : Nat) :
    skipGmIds authDat fuel count = count := by
  cases fuel with
  | zero => rfl
  | succ fuel =>
    unfold skipGmIds
    rw [if_neg]
    simp only [List.any_eq_true, decide_eq_true_eq, not_exists, not_and]
    intro a ha heq
    have := h a ha
    omega

/-- A creation adds one account, with the next id. -/
theorem createAccount_keys (libc : Libc) (conf : LoginConf) (now : Int) (db : Accounts)
    (userid : CStr 24) (passwd : List UInt8) (sex : Nat) (email : Option (CStr 40)) :
    let id := skipGmIds db.authDat db.authDat.length db.accountIdCount
    let db' := createAccount libc conf now db userid passwd sex email
    db'.keys = db.keys ++ [⟨id, userid, storedPass libc conf passwd⟩] ∧
      db'.accountIdCount = id + 1 := by
  intro id db'
  constructor
  · simp [db', id, createAccount, initNewAccount, addAccount, Accounts.keys, AuthDat.key]
  · unfold db' createAccount addAccount initNewAccount
    simp only
    split <;> rfl

theorem length_cutSuffix (name : CStr 24) :
    (cutSuffix name).bytes.length = name.bytes.length - 2 := by
  simp [cutSuffix]

theorem asksCreation_lengths {conf : LoginConf} {db : Accounts} {account : MmoAccount}
    (h : asksCreation conf db account = true) :
    6 ≤ account.userid.bytes.length ∧ (strOf account.passwd).length ≤ 24 ∧
      account.passwdenc = 0 := by
  simp only [asksCreation, Bool.and_eq_true, decide_eq_true_eq] at h
  exact ⟨h.1.1.1.1.1.1.1.2, h.2, h.1.1.1.1.1.1.1.1⟩

/-! ## Logins -/

/-- The account would be accepted for the request. -/
structure Accepts (libc : Libc) (conf : LoginConf) (a : AuthDat) (account : MmoAccount)
    (call : LoginCall) : Prop where
  version : conf.clientVersionToConnect = 0 ∨ account.version = conf.clientVersionToConnect ∨
    a.sex = 2
  hasKey : account.passwdenc > 0 → call.md5key.isSome
  password : passwordCheck libc a.pass account.passwd (passwordKey account call) = true
  state : a.state = 0
  ban : a.banUntilTime = 0 ∨ a.banUntilTime ≤ call.now
  limit : a.connectUntilTime = 0 ∨ call.now ≤ a.connectUntilTime

theorem checkAccount_key (libc : Libc) (a : AuthDat) (account : MmoAccount) (call : LoginCall) :
    (checkAccount libc a account call).2.key = a.key := by
  unfold checkAccount
  split
  · rfl
  · split
    · rfl
    · split
      · rfl
      · split
        · rfl
        · simp only
          split <;> rfl

theorem checkAccount_accepts {libc : Libc} {conf : LoginConf} {a : AuthDat} {account : MmoAccount}
    {call : LoginCall} (hv : versionRefused conf account (some a) = false)
    (h : (checkAccount libc a account call).1 = -1) : Accepts libc conf a account call := by
  unfold checkAccount at h
  split at h
  · cases h
  · rename_i hkey
    split at h
    · cases h
    · rename_i hpass
      split at h
      · rename_i hstate
        simp only at h
        split at h <;> omega
      · rename_i hstate
        split at h
        · cases h
        · rename_i hban
          simp only at h
          split at h
          · cases h
          · rename_i hlimit
            refine ⟨?_, ?_, by simpa [passwordKey] using hpass, by simpa using hstate,
              by omega, by omega⟩
            · simp only [versionRefused, Option.all_some, Bool.and_eq_false_iff,
                decide_eq_false_iff_not, not_not] at hv
              rcases hv with (hv | hv) | hv
              · exact .inl hv
              · exact .inr (.inl hv)
              · exact .inr (.inr hv)
            · intro henc
              rw [Option.isSome_iff_ne_none]
              exact fun hnone => hkey ⟨henc, hnone⟩

theorem acceptLogin_keys (db : Accounts) (account : MmoAccount) (call : LoginCall) (i : Nat) :
    (acceptLogin db account call i).2.2.keys = db.keys ∧
      (acceptLogin db account call i).2.2.accountIdCount = db.accountIdCount :=
  ⟨keys_modify fun _ => rfl, rfl⟩

/-- The name that a login is for. -/
def loginName (conf : LoginConf) (db : Accounts) (account : MmoAccount) : CStr 24 :=
  if asksCreation conf db account then cutSuffix account.userid else account.userid

/-- What `mmo_auth` does. -/
inductive MmoAuthCase (libc : Libc) (conf : LoginConf) (db : Accounts) (account : MmoAccount)
    (call : LoginCall) (r : Int × MmoAccount × Accounts) : Prop where
  /-- The login is refused. -/
  | refused (result : r.1 ≠ -1) (keys : r.2.2.keys = db.keys)
      (count : r.2.2.accountIdCount = db.accountIdCount)
  /-- An account is created. -/
  | created (id : Int) (result : r.1 = -1) (asks : asksCreation conf db account = true)
      (next : id = skipGmIds db.authDat db.authDat.length db.accountIdCount)
      (keys : r.2.2.keys = db.keys ++
        [⟨id, cutSuffix account.userid, storedPass libc conf account.passwd⟩])
      (count : r.2.2.accountIdCount = id + 1) (accountId : r.2.1.accountId = id)
  /-- An account that exists is accepted. -/
  | accepted (i : Nat) (a : AuthDat) (result : r.1 = -1)
      (asks : asksCreation conf db account = false)
      (found : searchAccountIndex conf db.authDat account.userid = some i)
      (get : db.authDat[i]? = some a) (accepts : Accepts libc conf a account call)
      (keys : r.2.2.keys = db.keys) (count : r.2.2.accountIdCount = db.accountIdCount)
      (accountId : r.2.1.accountId = a.accountId)

theorem mmoAuth_cases (libc : Libc) (conf : LoginConf) (db : Accounts) (account : MmoAccount)
    (call : LoginCall) :
    MmoAuthCase libc conf db account call (mmoAuth libc conf db account call) := by
  unfold mmoAuth
  cases hasks : asksCreation conf db account with
  | true =>
    simp only [if_true]
    split
    · exact .refused (by simp) rfl rfl
    · split
      · exact .refused (by simp) rfl rfl
      · split
        · exact .refused (by simp) rfl rfl
        · split
          · exact .refused (by simp) rfl rfl
          · obtain ⟨hkeys, hcount⟩ := createAccount_keys libc conf call.now db
              (cutSuffix account.userid) account.passwd
              (sexOf (account.userid.bytes.getD (account.userid.bytes.length - 1) 0)) none
            refine .created _ rfl hasks rfl ?_ ?_ ?_
            · rw [(acceptLogin_keys ..).1, hkeys]
            · rw [(acceptLogin_keys ..).2, hcount]
            · simp [acceptLogin, createAccount, initNewAccount, addAccount]
  | false =>
    simp only [Bool.false_eq_true, if_false]
    split
    · exact .refused (by simp) rfl rfl
    · rename_i hv
      split
      · exact .refused (by simp) rfl rfl
      · rename_i i hfound
        obtain ⟨a, ha, -⟩ := searchAccountIndex_some hfound
        have hget : db.authDat.getD i default = a := by simp [List.getD, ha]
        have hkeys : Accounts.keys { db with
            authDat := db.authDat.set i (checkAccount libc a
              { account with userid := a.userid } call).2 } = db.keys :=
          keys_set ha (checkAccount_key ..)
        rw [hfound] at hv
        simp only [hget, Option.map_some] at hv ⊢
        split
        · rename_i hres
          have hacc : Accepts libc conf a account call := by
            have h := checkAccount_accepts
              (show versionRefused conf { account with userid := a.userid } (some a) = false by
                simpa [versionRefused] using hv) hres
            exact ⟨h.version, h.hasKey, h.password, h.state, h.ban, h.limit⟩
          refine .accepted i a rfl hasks hfound ha hacc ?_ rfl ?_
          · rw [(acceptLogin_keys ..).1, hkeys]
          · have hlt : i < db.authDat.length := (List.getElem?_eq_some_iff.mp ha).1
            have hid := congrArg AccountKey.id
              (checkAccount_key libc a { account with userid := a.userid } call)
            simpa [acceptLogin, List.getD, hlt, AuthDat.key] using hid
        · rename_i hres
          exact .refused hres hkeys rfl

end Nezumi
