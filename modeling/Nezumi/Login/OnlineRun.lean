import Nezumi.Login.Online
import Nezumi.Lib.Run
import Mathlib.Tactic.Push

/-!
# Who is online, over runs (`login/login.c`)

* `OnlineOk`: an account is online if and only if it is in the last list of a connected char-server,
  and every entry is of one.
* `PacketOk`: a `0x271a` has the accounts of the last list, and says how many they are.
* `OnlineFits`: the number of users that a list comes with is 0 or that of its accounts, and the table
  has room.
* `onlineRun_exact_iff`: every step of a run keeps the two if and only if every step of it fits.
-/

namespace Nezumi

/-- The login-server, and beside it the last list of every char-server. -/
structure OnlineWorld where
  server : LoginOnline := {}
  last : Fin maxServers → List (BitVec 32) := fun _ => []

/-- The last lists after a step. -/
def lastAfter (w : OnlineWorld) : OnlineEvent → Fin maxServers → List (BitVec 32)
  | .connect _ => w.last
  | .disconnect id => Function.update w.last id []
  | .list id p => if w.server.connected id then Function.update w.last id p.accounts else w.last

/-- Behind a step that is undefined nothing is defined. -/
def onlineStep : Option OnlineWorld → OnlineEvent → Option OnlineWorld
  | none, _ => none
  | some w, e => (onlineRun w.server e).map fun r => { server := r.1, last := lastAfter w e }

def OnlineOk (w : OnlineWorld) : Prop :=
  (∀ a, checkOnlinePlayer w.server a ↔ ∃ id, w.server.connected id ∧ a ∈ w.last id) ∧
    ∀ e ∈ w.server.onlineDb, w.server.connected e.server

/-- A packet says what it contains: the accounts of a list, in some order. -/
def PacketOk (accounts : List (BitVec 32)) (p : OnlinePacket) : Prop :=
  p.len = 6 + 4 * p.accounts.length ∧ p.count = p.accounts.length ∧ p.accounts.Perm accounts

/-- A step is defined, keeps the table right, and sends packets to other servers that say what they
contain. -/
def OnlineStepOk : Option OnlineWorld → OnlineEvent → Prop
  | none, _ => False
  | some w, e => ∃ r, onlineRun w.server e = some r ∧ OnlineOk ⟨r.1, lastAfter w e⟩ ∧
    match e with
    | .list id p => ∀ x ∈ r.2, x.1 ≠ id ∧ PacketOk p.accounts x.2
    | _ => r.2 = []

/-- The most entries that the table can have. -/
def onlineRoom : Nat := 65280

def OnlineFits : Option OnlineWorld → OnlineEvent → Prop
  | none, _ => False
  | some w, .list id p => w.server.connected id →
    (p.users = 0 ∨ p.users.toNat = p.accounts.length ∨
      ∀ k, w.server.connected k → k = id) ∧
    (w.server.onlineDb.filter fun e => e.server ≠ id).length + p.accounts.length ≤ onlineRoom
  | some _, _ => True

/-- The table is not longer than its size, which grows in blocks. -/
def LoginOnline.Sized (s : LoginOnline) : Prop :=
  s.onlineMax.toNat % 256 = 0 ∧ 0 < s.onlineMax.toNat ∧ s.onlineDb.length ≤ s.onlineMax.toNat

structure OnlineInv (w : OnlineWorld) : Prop where
  lists : ∀ id, (w.server.accountsOf id).Perm (w.last id)
  connected : ∀ e ∈ w.server.onlineDb, w.server.connected e.server
  sized : w.server.Sized

/-! ## The table -/

section Table

variable {s : LoginOnline} {id : Fin maxServers} {a : BitVec 32} {accounts : List (BitVec 32)}

/-- What a removal leaves. -/
theorem removeOnline_perm (s : LoginOnline) (id : Fin maxServers) :
    (removeOnline s id).onlineDb.Perm (s.onlineDb.filter fun e => e.server ≠ id) := by
  have h := Unordered.sweep_kept (fun e : OnlineEntry => decide (e.server = id)) s.onlineDb
  simpa [removeOnline] using h

theorem removeOnline_sized (h : s.Sized) (id : Fin maxServers) : (removeOnline s id).Sized := by
  obtain ⟨hblock, hpos, hlen⟩ := h
  refine ⟨hblock, hpos, ?_⟩
  rw [(removeOnline_perm s id).length_eq]
  exact (List.length_filter_le _ _).trans hlen

theorem accountsOf_perm {s s' : LoginOnline} (h : s.onlineDb.Perm s'.onlineDb)
    (id : Fin maxServers) : (s.accountsOf id).Perm (s'.accountsOf id) := (h.filter _).map _

theorem accountsOf_removeOnline (s : LoginOnline) (id k : Fin maxServers) :
    ((removeOnline s id).accountsOf k).Perm (if k = id then [] else s.accountsOf k) := by
  refine ((removeOnline_perm s id).filter _ |>.map _).trans ?_
  rw [List.filter_filter]
  split
  · rename_i hk
    rw [List.filter_eq_nil_iff.mpr fun e _ => by simp [hk]]
    rfl
  · rename_i hk
    rw [List.filter_congr fun e _ => show (decide (e.server = k) && decide (e.server ≠ id)) =
      decide (e.server = k) by by_cases he : e.server = k <;> simp_all]
    rfl

/-- One more entry, while there is room. -/
theorem addOnline_sized (h : s.Sized) (hroom : s.onlineDb.length < onlineRoom) :
    ∃ s', addOnline id s a = some s' ∧ s'.onlineDb = s.onlineDb ++ [⟨a, id⟩] ∧
      s'.connected = s.connected ∧ s'.users = s.users ∧ s'.Sized := by
  obtain ⟨hblock, hpos, hlen⟩ := h
  have hlt := s.onlineMax.isLt
  have hadd : (s.onlineMax + 256).toNat = (s.onlineMax.toNat + 256) % 2 ^ 16 := by
    rw [BitVec.toNat_add]
    rfl
  unfold onlineRoom at hroom
  unfold addOnline
  dsimp only
  by_cases hfull : s.onlineDb.length ≥ s.onlineMax.toNat
  · rw [if_pos hfull, if_neg]
    · refine ⟨_, rfl, rfl, rfl, rfl, ?_, ?_, ?_⟩
      · dsimp only
        omega
      · dsimp only
        omega
      · dsimp only
        rw [List.length_append, List.length_singleton]
        omega
    · intro hzero
      rw [hzero] at hadd
      simp at hadd
      omega
  · rw [if_neg hfull, if_neg]
    · refine ⟨_, rfl, rfl, rfl, rfl, hblock, hpos, ?_⟩
      dsimp only
      rw [List.length_append, List.length_singleton]
      omega
    · intro hzero
      rw [hzero] at hpos
      exact absurd hpos (lt_irrefl _)

/-- A table that is full gets no more entries. -/
theorem addOnline_full (h : s.Sized) (hfull : s.onlineDb.length = onlineRoom) :
    addOnline id s a = none := by
  obtain ⟨hblock, -, hlen⟩ := h
  have hlt := s.onlineMax.isLt
  unfold onlineRoom at hfull
  have hmax : s.onlineMax = 65280 := by
    apply BitVec.eq_of_toNat_eq
    change s.onlineMax.toNat = 65280
    omega
  unfold addOnline
  dsimp only
  rw [hfull, hmax]
  rfl

theorem sized_length (h : s.Sized) : s.onlineDb.length ≤ onlineRoom := by
  obtain ⟨hblock, -, hlen⟩ := h
  have hlt := s.onlineMax.isLt
  unfold onlineRoom
  omega

/-- **The entries of a list** are put behind the others. -/
theorem addOnlines_sized (h : s.Sized) (hroom : s.onlineDb.length + accounts.length ≤ onlineRoom) :
    ∃ s', accounts.foldlM (addOnline id) s = some s' ∧
      s'.onlineDb = s.onlineDb ++ accounts.map (fun a => ⟨a, id⟩) ∧
      s'.connected = s.connected ∧ s'.users = s.users ∧ s'.Sized := by
  induction accounts generalizing s with
  | nil => exact ⟨s, rfl, by simp, rfl, rfl, h⟩
  | cons a accounts ih =>
    rw [List.length_cons] at hroom
    obtain ⟨s₁, hadd, hdb, hconn, husers, hsized⟩ := @addOnline_sized _ id a h (by omega)
    obtain ⟨s₂, hfold, hdb₂, hconn₂, husers₂, hsized₂⟩ := ih hsized <| by
      rw [hdb, List.length_append, List.length_singleton]
      omega
    refine ⟨s₂, ?_, ?_, hconn₂.trans hconn, husers₂.trans husers, hsized₂⟩
    · rw [List.foldlM_cons, hadd]
      exact hfold
    · rw [hdb₂, hdb, List.append_assoc]
      rfl

/-- **A list that there is no room for.** -/
theorem addOnlines_full (h : s.Sized) (hroom : onlineRoom < s.onlineDb.length + accounts.length) :
    accounts.foldlM (addOnline id) s = none := by
  induction accounts generalizing s with
  | nil => exact absurd (sized_length h) (by simpa using hroom)
  | cons a accounts ih =>
    rw [List.foldlM_cons]
    rcases (sized_length h).lt_or_eq with hlt | heq
    · obtain ⟨s₁, hadd, hdb, -, -, hsized⟩ := @addOnline_sized _ id a h hlt
      rw [hadd]
      refine ih hsized ?_
      rw [hdb, List.length_append, List.length_singleton]
      rw [List.length_cons] at hroom
      omega
    · rw [addOnline_full h heq]
      rfl

end Table

/-! ## Steps -/

section Steps

variable {w : OnlineWorld}

/-- The invariant says who is online. -/
theorem OnlineInv.ok (h : OnlineInv w) : OnlineOk w := by
  refine ⟨fun a => ?_, h.connected⟩
  unfold checkOnlinePlayer
  rw [List.any_eq_true]
  constructor
  · rintro ⟨e, he, ha⟩
    refine ⟨e.server, h.connected e he, (h.lists e.server).mem_iff.mp ?_⟩
    exact List.mem_map.mpr ⟨e, List.mem_filter.mpr ⟨he, by simp⟩, of_decide_eq_true ha⟩
  · rintro ⟨id, -, ha⟩
    obtain ⟨e, he, rfl⟩ := List.mem_map.mp ((h.lists id).mem_iff.mpr ha)
    exact ⟨e, (List.mem_filter.mp he).1, by simp⟩

theorem connect_inv (h : OnlineInv w) (id : Fin maxServers) :
    OnlineInv ⟨charConnect w.server id, w.last⟩ := by
  unfold charConnect
  split
  · exact h
  · refine ⟨h.lists, fun e he => ?_, h.sized⟩
    dsimp only
    rw [Function.update_apply]
    split
    · rfl
    · exact h.connected e he

theorem disconnect_inv (h : OnlineInv w) (id : Fin maxServers) :
    OnlineInv ⟨charDisconnect w.server id, Function.update w.last id []⟩ := by
  unfold charDisconnect
  split
  · refine ⟨fun k => (accountsOf_removeOnline _ id k).trans ?_, fun e he => ?_,
      removeOnline_sized h.sized id⟩
    · dsimp only
      rw [Function.update_apply]
      split
      · rfl
      · exact h.lists k
    · have hmem := (removeOnline_perm _ id).mem_iff.mp he
      obtain ⟨he, hne⟩ := List.mem_filter.mp hmem
      change Function.update w.server.connected id false e.server
      rw [Function.update_of_ne (by simpa using hne)]
      exact h.connected e he
  · rename_i hoff
    -- A server that is not connected has no entries.
    refine ⟨fun k => ?_, h.connected, h.sized⟩
    dsimp only
    rw [Function.update_apply]
    split
    · rename_i hk
      subst hk
      have hnone : w.server.accountsOf k = [] := by
        unfold LoginOnline.accountsOf
        rw [List.filter_eq_nil_iff.mpr, List.map_nil]
        intro e he
        have hon := h.connected e he
        simp only [decide_eq_true_eq]
        rintro rfl
        exact hoff hon
      rw [hnone]
    · exact h.lists k

/-- A list puts the accounts of its server in the place of those before. -/
theorem list_inv (h : OnlineInv w) {id : Fin maxServers} {p : OnlineUsers}
    (hon : w.server.connected id) {s : LoginOnline}
    (hdb : s.onlineDb = (removeOnline w.server id).onlineDb ++ p.accounts.map (fun a => ⟨a, id⟩))
    (hconn : s.connected = w.server.connected) (hsized : s.Sized) :
    OnlineInv ⟨s, Function.update w.last id p.accounts⟩ := by
  refine ⟨fun k => ?_, fun e he => ?_, hsized⟩
  · have hsplit : s.accountsOf k = (removeOnline w.server id).accountsOf k ++
        if k = id then p.accounts else [] := by
      unfold LoginOnline.accountsOf
      rw [hdb, List.filter_append, List.map_append, List.filter_map]
      congr 1
      split
      · rename_i hk
        subst hk
        simp [Function.comp_def]
      · rename_i hk
        simp [Function.comp_def, Ne.symm hk]
    have hrest := accountsOf_removeOnline w.server id k
    dsimp only
    rw [hsplit, Function.update_apply]
    split
    · rename_i hk
      rw [if_pos hk] at hrest
      rw [hrest.eq_nil]
      rfl
    · rename_i hk
      rw [if_neg hk] at hrest
      rw [List.append_nil]
      exact hrest.trans (h.lists k)
  · dsimp only at he ⊢
    rw [hconn]
    rw [hdb] at he
    rcases List.mem_append.mp he with he | he
    · have hmem := (removeOnline_perm w.server id).mem_iff.mp he
      exact h.connected e (List.mem_filter.mp hmem).1
    · obtain ⟨a, -, rfl⟩ := List.mem_map.mp he
      exact hon

/-- What a list of a connected server makes, if there is room for it. -/
theorem onlineList_some (h : OnlineInv w) {id : Fin maxServers} {p : OnlineUsers}
    (hon : w.server.connected id)
    (hroom : (w.server.onlineDb.filter fun e => e.server ≠ id).length + p.accounts.length ≤
      onlineRoom) :
    ∃ s, OnlineInv ⟨s, Function.update w.last id p.accounts⟩ ∧ s.connected = w.server.connected ∧
      onlineList w.server id p = some (s, if p.users.toNat > 0 then charifSendallwos s id
        { len := (6 + 4 * p.users.toNat) % 2 ^ 16, count := p.users.toNat,
          accounts := s.accountsOf id } else []) := by
  have hsized := removeOnline_sized (s := { w.server with
    users := Function.update w.server.users id p.users.toNat }) h.sized id
  have hperm := removeOnline_perm { w.server with
    users := Function.update w.server.users id p.users.toNat } id
  obtain ⟨s, hfold, hdb, hconn, husers, hsized'⟩ := @addOnlines_sized _ id p.accounts
    hsized (by rw [hperm.length_eq]; exact hroom)
  refine ⟨s, list_inv h hon hdb hconn hsized', hconn, ?_⟩
  have huser : s.users id = p.users.toNat := by
    rw [husers]
    exact Function.update_self ..
  unfold onlineList
  rw [if_pos hon]
  dsimp only
  rw [hfold]
  dsimp only [Option.bind_eq_bind, Option.bind_some]
  rw [huser, Nat.mod_eq_of_lt p.users.isLt]
  split <;> rfl

theorem onlineList_none (h : OnlineInv w) {id : Fin maxServers} {p : OnlineUsers}
    (hon : w.server.connected id)
    (hroom : onlineRoom <
      (w.server.onlineDb.filter fun e => e.server ≠ id).length + p.accounts.length) :
    onlineList w.server id p = none := by
  have hsized := removeOnline_sized (s := { w.server with
    users := Function.update w.server.users id p.users.toNat }) h.sized id
  have hperm := removeOnline_perm { w.server with
    users := Function.update w.server.users id p.users.toNat } id
  unfold onlineList
  rw [if_pos hon]
  dsimp only
  rw [addOnlines_full hsized (by rw [hperm.length_eq]; exact hroom)]
  rfl

/-- A packet says what it contains if and only if the number of users is that of the accounts. -/
theorem packetOk_iff (h : OnlineInv w) {id : Fin maxServers} {p : OnlineUsers}
    (hlast : w.last id = p.accounts) :
    PacketOk p.accounts { len := (6 + 4 * p.users.toNat) % 2 ^ 16, count := p.users.toNat,
                          accounts := w.server.accountsOf id } ↔
      p.users.toNat = p.accounts.length := by
  have hperm := h.lists id
  rw [hlast] at hperm
  have hlen := hperm.length_eq
  have hfits := p.fits
  unfold PacketOk
  dsimp only
  rw [hlen]
  constructor
  · exact fun hok => hok.2.1
  · intro husers
    refine ⟨?_, husers, hperm⟩
    rw [husers, Nat.mod_eq_of_lt hfits]

/-- **A step** keeps the table right and sends what it should if and only if it fits. -/
theorem onlineStepOk_iff (h : OnlineInv w) (e : OnlineEvent) :
    OnlineStepOk (some w) e ↔ OnlineFits (some w) e := by
  cases e with
  | connect id =>
    exact iff_of_true ⟨_, rfl, (connect_inv h id).ok, rfl⟩ trivial
  | disconnect id =>
    exact iff_of_true ⟨_, rfl, (disconnect_inv h id).ok, rfl⟩ trivial
  | list id p =>
    unfold OnlineStepOk OnlineFits onlineRun lastAfter
    dsimp only
    by_cases hon : w.server.connected id
    swap
    · have hsame : onlineList w.server id p = some (w.server, []) := by
        unfold onlineList
        rw [if_neg hon]
      rw [hsame, if_neg hon]
      exact iff_of_true ⟨_, rfl, h.ok, fun x hx => absurd hx List.not_mem_nil⟩
        fun hyes => absurd hyes hon
    rw [if_pos hon]
    rcases Nat.lt_or_ge onlineRoom ((w.server.onlineDb.filter fun e => e.server ≠ id).length +
      p.accounts.length) with hfull | hroom
    · rw [onlineList_none h hon hfull]
      refine iff_of_false (fun ⟨r, hr, _⟩ => by cases hr) fun hfits => ?_
      exact absurd (hfits hon).2 (Nat.not_le.mpr hfull)
    obtain ⟨s, hinv, hconn, hlist⟩ := onlineList_some h hon hroom
    rw [hlist]
    have hpacket := packetOk_iff hinv (Function.update_self ..)
    dsimp only at hpacket
    have hmem (x : Fin maxServers × OnlinePacket) (q : OnlinePacket) :
        x ∈ charifSendallwos s id q ↔ w.server.connected x.1 ∧ x.1 ≠ id ∧ x.2 = q := by
      unfold charifSendallwos
      rw [hconn]
      rcases x with ⟨k, q'⟩
      simp only [List.mem_map, List.mem_filter, List.mem_finRange, true_and, Prod.mk.injEq,
        Bool.and_eq_true, decide_eq_true_eq]
      constructor
      · rintro ⟨k', ⟨hk, hne⟩, rfl, rfl⟩
        exact ⟨hk, hne, rfl⟩
      · rintro ⟨hk, hne, rfl⟩
        exact ⟨k, ⟨hk, hne⟩, rfl, rfl⟩
    constructor
    · rintro ⟨r, hr, -, hsent⟩
      obtain rfl := Option.some.inj hr
      refine fun _ => ⟨?_, hroom⟩
      by_cases hzero : p.users = 0
      · exact .inl hzero
      have hpos : p.users.toNat > 0 := by
        rw [gt_iff_lt, Nat.pos_iff_ne_zero]
        exact fun h0 => hzero (BitVec.eq_of_toNat_eq (by rw [h0]; rfl))
      dsimp only at hsent
      rw [if_pos hpos] at hsent
      refine .inr ?_
      by_contra hno
      push Not at hno
      obtain ⟨hne, k, hk, hkid⟩ := hno
      exact hne (hpacket.mp (hsent (k, _) ((hmem _ _).mpr ⟨hk, hkid, rfl⟩)).2)
    · intro hfits
      refine ⟨_, rfl, hinv.ok, fun x hx => ?_⟩
      split at hx
      · rename_i hpos
        obtain ⟨hk, hkid, hx⟩ := (hmem _ _).mp hx
        refine ⟨hkid, ?_⟩
        rw [hx]
        rcases (hfits hon).1 with h0 | heq | honly
        · rw [h0] at hpos
          exact absurd hpos (lt_irrefl _)
        · exact hpacket.mpr heq
        · exact absurd (honly _ hk) hkid
      · exact absurd hx List.not_mem_nil

/-- What a step that fits keeps. -/
theorem onlineInv_step (s : Option OnlineWorld) (e : OnlineEvent)
    (h : ∃ w, s = some w ∧ OnlineInv w) (he : OnlineFits s e) :
    ∃ w, onlineStep s e = some w ∧ OnlineInv w := by
  obtain ⟨w, rfl, h⟩ := h
  cases e with
  | connect id => exact ⟨_, rfl, connect_inv h id⟩
  | disconnect id => exact ⟨_, rfl, disconnect_inv h id⟩
  | list id p =>
    unfold onlineStep onlineRun lastAfter
    dsimp only
    by_cases hon : w.server.connected id
    · obtain ⟨s, hinv, -, hlist⟩ := onlineList_some h hon (he hon).2
      rw [hlist, if_pos hon]
      exact ⟨_, rfl, hinv⟩
    · unfold onlineList
      rw [if_neg hon, if_neg hon]
      exact ⟨_, rfl, h⟩

end Steps

theorem onlineInv_init : OnlineInv {} :=
  ⟨fun _ => .refl _, fun _ he => absurd he List.not_mem_nil, rfl, by decide, by decide⟩

/-- **Who is online**, over every run: every step keeps the table right and sends packets that say
what they contain if and only if every list comes with no users, or with as many as it has accounts,
or there is no other server to tell, and there is room for it. -/
theorem onlineRun_exact_iff (es : List OnlineEvent) :
    Run.Meets onlineStep OnlineStepOk (some {}) es ↔
      Run.Meets onlineStep OnlineFits (some {}) es := by
  refine Run.meets_iff_of_kept (I := fun s => ∃ w, s = some w ∧ OnlineInv w) onlineInv_step
    (fun s e h => ?_) ⟨{}, rfl, onlineInv_init⟩
  obtain ⟨w, rfl, h⟩ := h
  exact onlineStepOk_iff h e

/-- **A hidden player**: two accounts are in the game, and the list comes with one user. -/
theorem onlineRun_hidden : ¬ ∀ es, Run.Meets onlineStep OnlineStepOk (some {}) es := by
  intro h
  obtain ⟨-, -, ⟨r, hr, -, hsent⟩, -⟩ :=
    h [.connect 0, .connect 1, .list 0 ⟨1, [2000000, 2000001], by decide⟩]
  obtain rfl := Option.some.inj hr
  have hcount := (hsent (1, ⟨10, 1, [2000000, 2000001]⟩) (by decide)).2.2.1
  exact absurd hcount (by decide)

end Nezumi
