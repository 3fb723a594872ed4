import Nezumi.Map.Chat
import Nezumi.Lib.Run
import Mathlib.Data.List.Perm.Basic
import Mathlib.Data.List.Nodup
import Mathlib.Tactic.Push

/-!
# The rooms and their players (`map/chat.c`)

* `ChatOk`: a player is listed in the room of its `chatID`, once, and in no other one; `users` counts
  the listed players of a room; and a player's room has an owner.
* `ChatFits`: a player who joins a room is in none, and the room has a place left.
* `chatRun_exact_iff`: every step of a run keeps the rooms in order if and only if every step fits.
-/

namespace Nezumi

/-- The players of a room, in the order of the table. -/
def ChatData.listed (cd : ChatData) : List Nat := (List.range cd.users).filterMap cd.usersd

/-- How often a player is listed in a room. -/
def ChatWorld.listings (w : ChatWorld) (sd : Nat) (id : Int) : Nat :=
  (w.chat id).elim 0 fun cd => cd.listed.count sd

structure ChatOk (w : ChatWorld) : Prop where
  ids : ∀ sd id, id ≠ 0 → ((w.player sd).chatID = id ↔
    w.listings sd id = 1 ∧ ∀ id' ≠ id, w.listings sd id' = 0)
  users : ∀ id cd, w.chat id = some cd →
    cd.users = cd.listed.length ∧ cd.listed.Nodup ∧ cd.users ≤ usersdSize
  owner : ∀ id cd, w.chat id = some cd → cd.owner = .first →
    ∃ sd others, cd.listed = sd :: others ∧ cd.usersd 0 = some sd

/-- Behind a step that is undefined nothing is defined. -/
def chatStep (checkBadWord : CStr 60 → Bool) (w : Option ChatWorld) (e : ChatEvent) :
    Option ChatWorld := w.bind fun w => chatRun checkBadWord w e

def ChatStepOk (checkBadWord : CStr 60 → Bool) (w : Option ChatWorld) (e : ChatEvent) : Prop :=
  ∃ w', chatStep checkBadWord w e = some w' ∧ ChatOk w'

/-- A player who is let into a room is in none, and the room has a place left. -/
def ChatFits : Option ChatWorld → ChatEvent → Prop
  | none, _ => False
  | some w, .join sd chatid pass => ∀ cd, w.chat chatid = some cd →
    cd.lets (w.player sd) chatid pass → (w.player sd).chatID = 0 ∧ cd.users < usersdSize
  | some _, _ => True

/-! ## The invariant -/

/-- A room with its players. -/
structure RoomOk (cd : ChatData) (l : List Nat) : Prop where
  users : cd.users = l.length
  table : ∀ i < l.length, cd.usersd i = l[i]?
  nodup : l.Nodup
  size : l.length ≤ usersdSize
  owner : cd.owner = .first → l ≠ []

structure ChatInv (w : ChatWorld) : Prop where
  rooms : ∀ id cd, w.chat id = some cd →
    ∃ l, RoomOk cd l ∧ ∀ sd, sd ∈ l ↔ (w.player sd).chatID = id
  chat : ∀ sd, (w.player sd).chatID ≠ 0 → ∃ cd, w.chat (w.player sd).chatID = some cd
  npc : ∀ nd, (w.npc nd).chatId ≠ 0 →
    ∃ cd, w.chat (w.npc nd).chatId = some cd ∧ cd.owner = .npc nd
  void : w.object 0 = none

section Rooms

variable {cd : ChatData} {l : List Nat} {k sd : Nat}

/-- The table lists the players of a room. -/
theorem RoomOk.listed (h : RoomOk cd l) : cd.listed = l := by
  have hmap : (List.range l.length).map cd.usersd = l.map some := by
    refine List.ext_getElem (by simp) fun i hi _ => ?_
    have hi' : i < l.length := by simpa using hi
    rw [List.getElem_map, List.getElem_range, List.getElem_map, h.table i hi',
      List.getElem?_eq_getElem hi']
  unfold ChatData.listed
  rw [h.users]
  calc (List.range l.length).filterMap cd.usersd
      = ((List.range l.length).map cd.usersd).filterMap id := by
        rw [List.filterMap_map]
        rfl
    _ = (l.map some).filterMap id := by rw [hmap]
    _ = l := by
      rw [List.filterMap_map]
      exact List.filterMap_some

/-- A listed player has a place. -/
theorem RoomOk.place (h : RoomOk cd l) (hsd : sd ∈ l) :
    ∃ k, cd.place sd = some k ∧ l[k]? = some sd := by
  obtain ⟨j, hj, rfl⟩ := List.mem_iff_getElem.mp hsd
  rcases hp : cd.place l[j] with _ | k
  · have hno := List.find?_eq_none.mp hp j (by rw [List.mem_range, h.users]; exact hj)
    rw [h.table j hj, List.getElem?_eq_getElem hj] at hno
    exact absurd (decide_eq_true rfl) hno
  · have hk : k < l.length := by
      have := List.mem_of_find?_eq_some hp
      rwa [List.mem_range, h.users] at this
    have hat : cd.usersd k = some l[j] := by simpa using List.find?_some hp
    exact ⟨k, rfl, by rw [← h.table k hk, hat]⟩

/-- A player comes in. -/
theorem RoomOk.join (h : RoomOk cd l) (hsd : sd ∉ l) (hroom : cd.users < usersdSize) :
    RoomOk { cd with
      usersd := Function.update cd.usersd cd.users (some sd)
      users := cd.users + 1 } (l ++ [sd]) := by
  refine ⟨by simp [h.users], fun i hi => ?_, ?_, ?_, fun _ => by simp⟩
  · dsimp only
    rw [List.length_append, List.length_singleton] at hi
    rw [Function.update_apply, h.users]
    split
    · rename_i heq
      rw [heq, List.getElem?_concat_length]
    · rename_i hne
      rw [List.getElem?_append_left (by omega)]
      exact h.table i (by omega)
  · exact List.nodup_append.mpr ⟨h.nodup, List.nodup_singleton _, by
      rintro a ha b hb rfl
      rw [List.mem_singleton.mp hb] at ha
      exact hsd ha⟩
  · rw [List.length_append, List.length_singleton, ← h.users]
    exact hroom

/-- A player goes out, and is not the last one of a player's room. -/
theorem RoomOk.close (h : RoomOk cd l) (hk : k < l.length)
    (hmore : cd.owner = .first → cd.users - 1 ≠ 0) : RoomOk (cd.close k) (l.eraseIdx k) := by
  have hlen := List.length_eraseIdx_of_lt hk
  have husers := h.users
  refine ⟨?_, fun i hi => ?_, h.nodup.sublist (List.eraseIdx_sublist ..), ?_, fun hfirst => ?_⟩
  · change cd.users - 1 = _
    rw [hlen, husers]
  · change (if k ≤ i ∧ i < cd.users - 1 then cd.usersd (i + 1) else cd.usersd i) = _
    rw [List.getElem?_eraseIdx]
    rw [hlen] at hi
    by_cases hki : i < k
    · rw [if_neg (by omega), if_pos hki]
      exact h.table i (by omega)
    · rw [if_pos (by omega), if_neg hki]
      exact h.table (i + 1) (by omega)
  · rw [hlen]
    exact (Nat.sub_le _ _).trans h.size
  · have hne := hmore hfirst
    rw [← List.length_pos_iff, hlen]
    omega

/-- Who is left in a room. -/
theorem mem_eraseIdx_iff (hnodup : l.Nodup) (hk : l[k]? = some sd) {sd' : Nat} :
    sd' ∈ l.eraseIdx k ↔ sd' ∈ l ∧ sd' ≠ sd := by
  obtain ⟨hlt, rfl⟩ := List.getElem?_eq_some_iff.mp hk
  have hperm := List.getElem_cons_eraseIdx_perm hlt
  have hnot := (List.nodup_cons.mp (hperm.nodup_iff.mpr hnodup)).1
  rw [← hperm.mem_iff, List.mem_cons]
  constructor
  · exact fun hmem => ⟨.inr hmem, fun heq => hnot (heq ▸ hmem)⟩
  · exact fun ⟨hor, hne⟩ => hor.resolve_left hne

/-- The owner changes places with another player. -/
theorem RoomOk.swap (h : RoomOk cd l) {sd' : Nat} {x y : Int} (h0 : cd.usersd 0 = some sd)
    (hpos : 0 < l.length) (hk : k < l.length) (hsd' : cd.usersd k = some sd') :
    ∃ l', RoomOk { cd with
      usersd := Function.update (Function.update cd.usersd 0 (some sd')) k (some sd)
      x := x
      y := y } l' ∧ l'.Perm l := by
  rw [h.table 0 hpos, List.getElem?_eq_getElem hpos] at h0
  rw [h.table k hk, List.getElem?_eq_getElem hk] at hsd'
  obtain rfl := Option.some.inj h0
  obtain rfl := Option.some.inj hsd'
  have hperm := List.set_set_perm hpos hk
  refine ⟨_, ⟨?_, fun i hi => ?_, hperm.nodup_iff.mpr h.nodup, ?_, fun hfirst => ?_⟩, hperm⟩
  · rw [hperm.length_eq]
    exact h.users
  · rw [hperm.length_eq] at hi
    dsimp only
    rw [Function.update_apply, Function.update_apply, List.getElem?_set, List.getElem?_set,
      h.table i hi, List.length_set]
    by_cases hik : i = k
    · rw [if_pos hik, if_pos hik.symm, if_pos (by omega)]
    · rw [if_neg hik, if_neg (Ne.symm hik)]
      by_cases hi0 : i = 0
      · rw [if_pos hi0, if_pos hi0.symm, if_pos (by omega)]
      · rw [if_neg hi0, if_neg (Ne.symm hi0)]
  · rw [hperm.length_eq]
    exact h.size
  · rw [← List.length_pos_iff, hperm.length_eq]
    exact hpos

end Rooms

/-! ## The objects -/

section Objects

variable {w w' : ChatWorld} {id : Int} {cd cd' : ChatData} {n sd : Nat} {obj : MapObject}

/-- The room of an id is an object. -/
theorem chat_eq_some_iff : w.chat id = some cd ↔
    0 ≤ id ∧ id < maxFlooritem ∧ w.object id.toNat = some (.chat cd) := by
  unfold ChatWorld.chat
  split
  · rename_i hid
    rcases h : w.object id.toNat with _ | _ | cd' <;> simp [hid]
  · rename_i hid
    constructor
    · exact nofun
    · exact fun h => absurd ⟨h.1, h.2.1⟩ hid

theorem chat_congr (h : w'.object = w.object) : w'.chat = w.chat := by
  funext id
  unfold ChatWorld.chat
  rw [h]

/-- A room is written over. -/
theorem chat_setChat (h : w.chat id = some cd) (cd' : ChatData) (id' : Int) :
    (w.setChat id cd').chat id' = if id' = id then some cd' else w.chat id' := by
  obtain ⟨h0, hmax, -⟩ := chat_eq_some_iff.mp h
  unfold ChatWorld.chat ChatWorld.setChat
  dsimp only
  by_cases heq : id' = id
  · rw [heq, if_pos ⟨h0, hmax⟩, if_pos rfl, Function.update_self]
  · rw [if_neg heq]
    split
    · rename_i hid'
      rw [Function.update_of_ne (by omega)]
    · rfl

theorem chat_delobject (h : w.chat id = some cd) (id' : Int) :
    (mapDelobject w id.toNat).chat id' = if id' = id then none else w.chat id' := by
  obtain ⟨h0, hmax, hobj⟩ := chat_eq_some_iff.mp h
  unfold mapDelobject
  rw [if_neg (by rw [hobj]; exact nofun)]
  unfold ChatWorld.chat
  dsimp only
  by_cases heq : id' = id
  · rw [heq, if_pos ⟨h0, hmax⟩, if_pos rfl, Function.update_self]
  · rw [if_neg heq]
    split
    · rename_i hid'
      rw [Function.update_of_ne (by omega)]
    · rfl

theorem freeObject_some {object : Nat → Option MapObject} {n i k : Nat}
    (h : freeObject object n i = some k) : object k = none ∧ i ≤ k ∧ k < i + n := by
  induction n generalizing i with
  | zero => cases h
  | succ n ih =>
    unfold freeObject at h
    split at h
    · rename_i hnone
      obtain rfl := Option.some.inj h
      exact ⟨Option.isNone_iff_eq_none.mp hnone, le_rfl, by omega⟩
    · obtain ⟨hk, hik, hkn⟩ := ih h
      exact ⟨hk, by omega, by omega⟩

/-- An object gets a place that was free. -/
theorem mapAddobject_some (h : mapAddobject w obj = some (n, w')) :
    w.object n = none ∧ 2 ≤ n ∧ n < maxFlooritem ∧ w'.player = w.player ∧ w'.npc = w.npc ∧
      w'.object = Function.update w.object n (some obj) := by
  unfold mapAddobject at h
  dsimp only at h
  obtain ⟨k, hk, heq⟩ := Option.map_eq_some_iff.mp h
  obtain ⟨rfl, rfl⟩ := Prod.mk.inj heq
  obtain ⟨hfree, hle, hlt⟩ := freeObject_some hk
  refine ⟨hfree, ?_, ?_, rfl, rfl, rfl⟩ <;> split at hle <;> split at hlt <;> omega

/-- The room that an object is. -/
def MapObject.room : MapObject → Option ChatData
  | .chat cd => some cd
  | .other => none

/-- A new object, seen from the rooms. -/
theorem chat_addobject (hmax : n < maxFlooritem)
    (hobj : w'.object = Function.update w.object n (some obj)) (id' : Int) :
    w'.chat id' = if id' = n then obj.room else w.chat id' := by
  unfold ChatWorld.chat
  rw [hobj]
  by_cases heq : id' = n
  · rw [if_pos heq, heq, if_pos (by omega), Int.toNat_natCast, Function.update_self]
    cases obj <;> rfl
  · rw [if_neg heq]
    split
    · rename_i hid'
      rw [Function.update_of_ne (by omega)]
    · rfl

end Objects

/-! ## Steps -/

section Steps

variable {w w' : ChatWorld} {id : Int} {cd cd' : ChatData} {l l' : List Nat}

theorem ChatInv.ne_zero (h : ChatInv w) (hcd : w.chat id = some cd) : id ≠ 0 := by
  rintro rfl
  obtain ⟨-, -, hobj⟩ := chat_eq_some_iff.mp hcd
  rw [Int.toNat_zero, h.void] at hobj
  cases hobj

/-- **A room is put** in the place of an id. Only players of this room, or of none, are in another
one afterwards. -/
theorem ChatInv.put (h : ChatInv w)
    (hchat : ∀ id', w'.chat id' = if id' = id then some cd' else w.chat id') (hroom : RoomOk cd' l')
    (hl' : ∀ sd, sd ∈ l' ↔ (w'.player sd).chatID = id)
    (hother : ∀ sd, (w'.player sd).chatID = (w.player sd).chatID ∨
      ((w.player sd).chatID = 0 ∨ (w.player sd).chatID = id) ∧
        ((w'.player sd).chatID = 0 ∨ (w'.player sd).chatID = id))
    (hnpc : ∀ nd, (w'.npc nd).chatId ≠ 0 → (w'.npc nd).chatId = id ∧ cd'.owner = .npc nd ∨
      (w'.npc nd).chatId ≠ id ∧ (w'.npc nd).chatId = (w.npc nd).chatId)
    (hvoid : w'.object 0 = none) : ChatInv w' := by
  refine ⟨fun id' cd₁ hcd₁ => ?_, fun sd hsd => ?_, fun nd hnd => ?_, hvoid⟩
  · rw [hchat] at hcd₁
    split at hcd₁
    · rename_i heq
      obtain rfl := Option.some.inj hcd₁
      exact ⟨l', hroom, fun sd => by rw [heq]; exact hl' sd⟩
    · rename_i hne
      obtain ⟨l₁, hroom₁, hl₁⟩ := h.rooms id' cd₁ hcd₁
      refine ⟨l₁, hroom₁, fun sd => ?_⟩
      rw [hl₁]
      have hid' := h.ne_zero hcd₁
      rcases hother sd with hsame | ⟨hold, hnew⟩
      · rw [hsame]
      · constructor <;> intro heq <;> omega
  · by_cases heq : (w'.player sd).chatID = id
    · exact ⟨cd', by rw [hchat, if_pos heq]⟩
    · have hsame : (w'.player sd).chatID = (w.player sd).chatID :=
        (hother sd).resolve_right fun hor => hor.2.elim hsd heq
      rw [hchat, if_neg heq, hsame]
      exact h.chat sd (hsame ▸ hsd)
  · rcases hnpc nd hnd with ⟨heq, howner⟩ | ⟨hne, hsame⟩
    · exact ⟨cd', by rw [hchat, if_pos heq], howner⟩
    · rw [hchat, if_neg hne, hsame]
      exact h.npc nd (hsame ▸ hnd)

/-- **A room is changed** that NPCs keep if they have it. -/
theorem ChatInv.change (h : ChatInv w) (hcd : w.chat id = some cd) (hroom : RoomOk cd' l')
    (howner : cd'.owner = cd.owner) {player : Nat → ChatPlayer}
    (hl' : ∀ sd, sd ∈ l' ↔ (player sd).chatID = id)
    (hother : ∀ sd, (player sd).chatID = (w.player sd).chatID ∨
      ((w.player sd).chatID = 0 ∨ (w.player sd).chatID = id) ∧
        ((player sd).chatID = 0 ∨ (player sd).chatID = id)) :
    ChatInv { w.setChat id cd' with player := player } := by
  refine h.put (fun id' => ?_) hroom hl' hother (fun nd hnd => ?_) ?_
  · exact (congrFun (chat_congr (w := w.setChat id cd') rfl) id').trans (chat_setChat hcd cd' id')
  · by_cases heq : (w.npc nd).chatId = id
    · obtain ⟨cd₁, hcd₁, hnd₁⟩ := h.npc nd hnd
      rw [heq, hcd] at hcd₁
      obtain rfl := Option.some.inj hcd₁
      exact .inl ⟨heq, howner.trans hnd₁⟩
    · exact .inr ⟨heq, rfl⟩
  · obtain ⟨h0, -, -⟩ := chat_eq_some_iff.mp hcd
    have hid := h.ne_zero hcd
    change Function.update w.object id.toNat _ 0 = none
    rw [Function.update_of_ne (by omega)]
    exact h.void

/-- **A room is deleted**, and its players are in none. -/
theorem ChatInv.delete (h : ChatInv w)
    (hchat : ∀ id', w'.chat id' = if id' = id then none else w.chat id')
    (hplayer : ∀ sd, (w'.player sd).chatID = if (w.player sd).chatID = id then 0
      else (w.player sd).chatID)
    (hnpc : ∀ nd, (w'.npc nd).chatId ≠ 0 →
      (w'.npc nd).chatId ≠ id ∧ (w'.npc nd).chatId = (w.npc nd).chatId)
    (hvoid : w'.object 0 = none) : ChatInv w' := by
  refine ⟨fun id' cd₁ hcd₁ => ?_, fun sd hsd => ?_, fun nd hnd => ?_, hvoid⟩
  · rw [hchat] at hcd₁
    split at hcd₁
    · cases hcd₁
    rename_i hne
    obtain ⟨l₁, hroom₁, hl₁⟩ := h.rooms id' cd₁ hcd₁
    refine ⟨l₁, hroom₁, fun sd => ?_⟩
    have hid' := h.ne_zero hcd₁
    rw [hl₁, hplayer]
    split
    · rename_i heq
      rw [heq]
      exact iff_of_false (Ne.symm hne) (Ne.symm hid')
    · rfl
  · rw [hplayer] at hsd ⊢
    split at hsd
    · exact absurd rfl hsd
    rename_i hne
    rw [if_neg hne, hchat, if_neg hne]
    exact h.chat sd hsd
  · obtain ⟨hne, hsame⟩ := hnpc nd hnd
    rw [hchat, if_neg hne, hsame]
    exact h.npc nd (hsame ▸ hnd)

/-- What a deletion leaves. -/
theorem mapDelobject_frame (w : ChatWorld) (n : Nat) : (mapDelobject w n).player = w.player ∧
    (mapDelobject w n).npc = w.npc ∧ (w.object 0 = none → (mapDelobject w n).object 0 = none) := by
  unfold mapDelobject
  split
  · exact ⟨rfl, rfl, id⟩
  · refine ⟨rfl, rfl, fun h => ?_⟩
    dsimp only
    rw [Function.update_apply]
    split
    · rfl
    · exact h

/-- **A player leaves**, or is in no room. -/
theorem chatLeavechat_spec (h : ChatInv w) (sd : Nat) :
    ∃ w', chatLeavechat w sd = some w' ∧ ChatInv w' ∧ w'.npc = w.npc ∧
      ∀ cd, w.chat (w.player sd).chatID = some cd → cd.owner ≠ .first →
        ∃ cd', w'.chat (w.player sd).chatID = some cd' ∧ cd'.owner = cd.owner ∧
          cd'.users + 1 = cd.users := by
  unfold chatLeavechat
  dsimp only
  rcases hcd : w.chat (w.player sd).chatID with _ | cd
  · exact ⟨w, rfl, h, rfl, nofun⟩
  obtain ⟨l, hroom, hl⟩ := h.rooms _ _ hcd
  obtain ⟨k, hplace, hk⟩ := hroom.place ((hl sd).mpr rfl)
  obtain ⟨hlt, hat⟩ := List.getElem?_eq_some_iff.mp hk
  have hid := h.ne_zero hcd
  have husers := hroom.users
  dsimp only
  rw [hplace]
  dsimp only
  -- The player who leaves is in no room, the others stay where they are.
  have hplayer (sd' : Nat) : (Function.update w.player sd { w.player sd with chatID := 0 } sd').chatID
      = if sd' = sd then 0 else (w.player sd').chatID := by
    rw [Function.update_apply]
    split <;> rfl
  have hleft (sd' : Nat) : sd' ∈ l.eraseIdx k ↔
      (Function.update w.player sd { w.player sd with chatID := 0 } sd').chatID =
        (w.player sd).chatID := by
    rw [mem_eraseIdx_iff hroom.nodup hk, hplayer, hl]
    split
    · rename_i heq
      rw [heq]
      exact iff_of_false (fun hand => hand.2 rfl) (Ne.symm hid)
    · rename_i hne
      exact and_iff_left hne
  have hother (sd' : Nat) :
      (Function.update w.player sd { w.player sd with chatID := 0 } sd').chatID =
        (w.player sd').chatID ∨ ((w.player sd').chatID = 0 ∨
          (w.player sd').chatID = (w.player sd).chatID) ∧
        ((Function.update w.player sd { w.player sd with chatID := 0 } sd').chatID = 0 ∨
          (Function.update w.player sd { w.player sd with chatID := 0 } sd').chatID =
            (w.player sd).chatID) := by
    rw [hplayer]
    split
    · rename_i heq
      rw [heq]
      exact .inr ⟨.inr rfl, .inl rfl⟩
    · exact .inl rfl
  have hstay {cd' : ChatData} (howner : cd'.owner = cd.owner) (husers' : cd'.users = cd.users - 1)
      (hroom' : RoomOk cd' (l.eraseIdx k)) :
      ∃ w', some ((pcSetchatid w sd 0).setChat (w.player sd).chatID cd') = some w' ∧ ChatInv w' ∧
        w'.npc = w.npc ∧ ∀ cd₁, some cd = some cd₁ → cd₁.owner ≠ .first →
          ∃ cd', w'.chat (w.player sd).chatID = some cd' ∧ cd'.owner = cd₁.owner ∧
            cd'.users + 1 = cd₁.users := by
    refine ⟨_, rfl, h.change hcd hroom' howner hleft hother, rfl, fun cd₁ heq _ => ?_⟩
    obtain rfl := Option.some.inj heq
    refine ⟨cd', ?_, howner, by omega⟩
    have hcd' : (pcSetchatid w sd 0).chat (w.player sd).chatID = some cd := hcd
    rw [chat_setChat hcd', if_pos rfl]
  split
  · -- The last player of a player's room.
    rename_i hlast
    have hone : l = [sd] := by
      rw [husers] at hlast
      rcases l with _ | ⟨a, _ | ⟨b, l⟩⟩
      · exact absurd hlt (Nat.not_lt_zero k)
      · obtain rfl : k = 0 := by simpa using hlt
        rw [← hat]
        rfl
      · simp at hlast
    obtain ⟨hplayer', hnpc', hvoid'⟩ :=
      mapDelobject_frame (pcSetchatid w sd 0) (w.player sd).chatID.toNat
    have hcd' : (pcSetchatid w sd 0).chat (w.player sd).chatID = some cd := hcd
    refine ⟨_, rfl, h.delete (chat_delobject hcd') (fun sd' => ?_) (fun nd hnd => ?_)
      (hvoid' h.void), hnpc', ?_⟩
    · rw [hplayer']
      change (Function.update w.player sd _ sd').chatID = _
      rw [hplayer]
      have hmem := hl sd'
      rw [hone, List.mem_singleton] at hmem
      simp only [hmem]
    · rw [hnpc'] at hnd ⊢
      refine ⟨fun heq => ?_, rfl⟩
      obtain ⟨cd₁, hcd₁, hnd₁⟩ := h.npc nd hnd
      change (w.npc nd).chatId = _ at heq
      rw [heq, hcd] at hcd₁
      obtain rfl := Option.some.inj hcd₁
      rw [hlast.2] at hnd₁
      cases hnd₁
    · intro cd₁ heq howner
      obtain rfl := Option.some.inj heq
      exact absurd hlast.2 howner
  · rename_i hmore
    have hclose := hroom.close hlt fun hfirst h0 => hmore ⟨h0, hfirst⟩
    split
    · rename_i hfirst
      -- The next player is the owner.
      have hpos : 0 < (l.eraseIdx k).length := List.length_pos_iff.mpr (hclose.owner hfirst.2)
      rw [hclose.table 0 hpos, List.getElem?_eq_getElem hpos]
      exact hstay rfl rfl ⟨hclose.users, hclose.table, hclose.nodup, hclose.size, hclose.owner⟩
    · exact hstay rfl rfl hclose

/-- A step that does not touch the rooms. -/
theorem ChatInv.frame (h : ChatInv w) (hchat : w'.chat = w.chat)
    (hplayer : ∀ sd, (w'.player sd).chatID = (w.player sd).chatID) (hnpc : w'.npc = w.npc)
    (hvoid : w'.object 0 = none) : ChatInv w' := by
  refine ⟨fun id cd hcd => ?_, fun sd hsd => ?_, fun nd hnd => ?_, hvoid⟩
  · rw [hchat] at hcd
    simpa only [hplayer] using h.rooms id cd hcd
  · rw [hplayer] at hsd ⊢
    rw [hchat]
    exact h.chat sd hsd
  · rw [hnpc] at hnd ⊢
    rw [hchat]
    exact h.npc nd hnd

/-- The id of a free object is of no room. -/
theorem chat_free {n : Nat} (hfree : w.object n = none) : w.chat n = none := by
  rcases hcd : w.chat n with _ | cd
  · rfl
  · obtain ⟨-, -, hobj⟩ := chat_eq_some_iff.mp hcd
    rw [Int.toNat_natCast, hfree] at hobj
    cases hobj

theorem ChatInv.chatID_ne (h : ChatInv w) {n : Nat} (hn : 2 ≤ n) (hfree : w.object n = none)
    (sd : Nat) : (w.player sd).chatID ≠ n := by
  intro heq
  obtain ⟨cd, hcd⟩ := h.chat sd (by omega)
  rw [heq, chat_free hfree] at hcd
  cases hcd

theorem ChatInv.chatId_ne (h : ChatInv w) {n : Nat} (hn : 2 ≤ n) (hfree : w.object n = none)
    (nd : Nat) : (w.npc nd).chatId ≠ n := by
  intro heq
  obtain ⟨cd, hcd, -⟩ := h.npc nd (by omega)
  rw [heq, chat_free hfree] at hcd
  cases hcd

theorem chatCreatechat_inv (h : ChatInv w) (sd : Nat) (p : ChatParams) :
    ChatInv (chatCreatechat w sd p) := by
  unfold chatCreatechat
  split
  · exact h
  rename_i hzero
  rw [not_not] at hzero
  split
  · exact h
  rename_i n w₁ hadd
  obtain ⟨hfree, hn, hmax, hplayer, hnpc, hobj⟩ := mapAddobject_some hadd
  have hnew (sd' : Nat) : ((pcSetchatid w₁ sd n).player sd').chatID =
      if sd' = sd then (n : Int) else (w.player sd').chatID := by
    unfold pcSetchatid
    rw [hplayer]
    dsimp only
    rw [Function.update_apply]
    split <;> rfl
  have hroom {cd : ChatData} (husers : cd.users = 1) (h0 : cd.usersd 0 = some sd) :
      RoomOk cd [sd] := by
    refine ⟨husers, fun i hi => ?_, List.nodup_singleton _,
      (by decide : 1 ≤ usersdSize), fun _ => List.cons_ne_nil _ _⟩
    obtain rfl : i = 0 := by simpa using hi
    exact h0
  have hset : (pcSetchatid w₁ sd n).chat = w₁.chat := chat_congr rfl
  have hchat (id' : Int) := (congrFun hset id').trans (chat_addobject hmax hobj id')
  refine h.put hchat (hroom rfl (by dsimp only; rw [Function.update_self])) (fun sd' => ?_)
    (fun sd' => ?_) (fun nd hnd => .inr ?_) ?_
  · rw [hnew, List.mem_singleton]
    split
    · rename_i heq
      exact iff_of_true heq rfl
    · rename_i hne
      exact iff_of_false hne (h.chatID_ne hn hfree sd')
  · rw [hnew]
    split
    · rename_i heq
      rw [heq]
      exact .inr ⟨.inl hzero, .inr rfl⟩
    · exact .inl rfl
  · have hsame : (pcSetchatid w₁ sd n).npc = w.npc := hnpc
    rw [hsame]
    exact ⟨h.chatId_ne hn hfree nd, rfl⟩
  · change w₁.object 0 = none
    rw [hobj, Function.update_of_ne (by omega)]
    exact h.void

theorem chatCreatenpcchat_inv (h : ChatInv w) (nd : Nat) (limit pub : Int) (title : CStr 60) :
    ChatInv (chatCreatenpcchat w nd limit pub title) := by
  unfold chatCreatenpcchat
  split
  · exact h
  rename_i n w₁ hadd
  obtain ⟨hfree, hn, hmax, hplayer, hnpc, hobj⟩ := mapAddobject_some hadd
  have hroom {cd : ChatData} (husers : cd.users = 0) (howner : cd.owner = .npc nd) :
      RoomOk cd [] := by
    refine ⟨husers, fun i hi => absurd hi (Nat.not_lt_zero i), List.nodup_nil, Nat.zero_le _, ?_⟩
    intro hfirst
    rw [howner] at hfirst
    cases hfirst
  have hchat (npc : Nat → ChatNpc) (id' : Int) :=
    have hset : ({ w₁ with npc := npc } : ChatWorld).chat = w₁.chat := chat_congr rfl
    (congrFun hset id').trans (chat_addobject hmax hobj id')
  refine h.put (hchat _) (hroom rfl rfl) (fun sd' => ?_) (fun sd' => .inl ?_) (fun nd' hnd' => ?_) ?_
  · dsimp only
    rw [hplayer]
    exact iff_of_false List.not_mem_nil (h.chatID_ne hn hfree sd')
  · dsimp only
    rw [hplayer]
  · dsimp only
    rw [Function.update_apply, hnpc]
    split
    · rename_i heq
      exact .inl ⟨rfl, by rw [heq]⟩
    · exact .inr ⟨h.chatId_ne hn hfree nd', rfl⟩
  · change w₁.object 0 = none
    rw [hobj, Function.update_of_ne (by omega)]
    exact h.void

/-- **A player joins** a room that has a place, and was in none. -/
theorem chatJoinchat_spec (h : ChatInv w) {sd : Nat} {chatid : Int} {pass : CStr 8}
    (hfits : ChatFits (some w) (.join sd chatid pass)) :
    ∃ w', chatJoinchat w sd chatid pass = some w' ∧ ChatInv w' := by
  unfold chatJoinchat
  rcases hcd : w.chat chatid with _ | cd
  · exact ⟨w, rfl, h⟩
  dsimp only
  split
  swap
  · exact ⟨w, rfl, h⟩
  rename_i hlets
  obtain ⟨hzero, hroom⟩ := hfits cd hcd hlets
  rw [if_pos hroom]
  obtain ⟨l, hok, hl⟩ := h.rooms _ _ hcd
  have hid := h.ne_zero hcd
  have hnot : sd ∉ l := fun hsd => hid (((hl sd).mp hsd).symm.trans hzero)
  have hplayer (sd' : Nat) :
      (Function.update w.player sd { w.player sd with chatID := chatid } sd').chatID =
        if sd' = sd then chatid else (w.player sd').chatID := by
    rw [Function.update_apply]
    split <;> rfl
  refine ⟨_, rfl, h.change hcd (hok.join hnot hroom) rfl (fun sd' => ?_) fun sd' => ?_⟩
  · change sd' ∈ l ++ [sd] ↔
      (Function.update w.player sd { w.player sd with chatID := chatid } sd').chatID = chatid
    rw [hplayer, List.mem_append, List.mem_singleton]
    split
    · rename_i heq
      exact iff_of_true (.inr heq) rfl
    · rename_i hne
      rw [or_iff_left hne]
      exact hl sd'
  · change (Function.update w.player sd { w.player sd with chatID := chatid } sd').chatID = _ ∨
      _ ∧ ((Function.update w.player sd { w.player sd with chatID := chatid } sd').chatID = 0 ∨
        (Function.update w.player sd { w.player sd with chatID := chatid } sd').chatID = chatid)
    rw [hplayer]
    split
    · rename_i heq
      rw [heq]
      exact .inr ⟨.inl hzero, .inr rfl⟩
    · exact .inl rfl

/-- The owner of a room is the first player in it. -/
theorem ownedBy_iff {sd : Nat} : cd.ownedBy sd ↔ cd.owner = .first ∧ cd.usersd 0 = some sd := by
  unfold ChatData.ownedBy
  rw [Bool.and_eq_true, decide_eq_true_eq, decide_eq_true_eq]

theorem chatChangechatowner_inv (h : ChatInv w) (sd : Nat) (name : CStr 24) :
    ChatInv (chatChangechatowner w sd name) := by
  unfold chatChangechatowner
  dsimp only
  rcases hcd : w.chat (w.player sd).chatID with _ | cd
  · exact h
  dsimp only
  split
  swap
  · exact h
  rename_i howned
  split
  · exact h
  rename_i k hnamed
  split
  · exact h
  rename_i sd' hsd'
  obtain ⟨hfirst, h0⟩ := ownedBy_iff.mp howned
  obtain ⟨l, hok, hl⟩ := h.rooms _ _ hcd
  have hk : k < l.length := by
    have hmem := List.mem_of_find?_eq_some hnamed
    rwa [List.mem_range, hok.users] at hmem
  obtain ⟨l', hok', hperm⟩ := hok.swap (x := (w.player sd').x) (y := (w.player sd').y) h0
    (List.length_pos_iff.mpr (hok.owner hfirst)) hk hsd'
  exact h.change hcd hok' rfl (fun sd₁ => by rw [hperm.mem_iff]; exact hl sd₁) fun sd₁ => .inl rfl

theorem chatChangechatstatus_inv (h : ChatInv w) (checkBadWord : CStr 60 → Bool) (sd : Nat)
    (p : ChatParams) : ChatInv (chatChangechatstatus checkBadWord w sd p) := by
  unfold chatChangechatstatus
  dsimp only
  rcases hcd : w.chat (w.player sd).chatID with _ | cd
  · exact h
  dsimp only
  split
  swap
  · exact h
  split
  · exact h
  obtain ⟨l, hok, hl⟩ := h.rooms _ _ hcd
  have hok' : RoomOk { cd with
      limit := UInt8.ofNat p.limit, pub := p.pub, pass := p.pass, title := p.title } l :=
    ⟨hok.users, hok.table, hok.nodup, hok.size, hok.owner⟩
  exact h.change hcd hok' rfl hl fun _ => .inl rfl

theorem chatKickchat_spec (h : ChatInv w) (sd : Nat) (name : CStr 24) :
    ∃ w', chatKickchat w sd name = some w' ∧ ChatInv w' := by
  unfold chatKickchat
  split
  · exact ⟨w, rfl, h⟩
  split
  swap
  · exact ⟨w, rfl, h⟩
  split
  · exact ⟨w, rfl, h⟩
  rename_i sd' _
  obtain ⟨w', hleave, hinv, -⟩ := chatLeavechat_spec h sd'
  exact ⟨w', hleave, hinv⟩

/-- **All players are kicked** out of a room of an NPC. -/
theorem kickLoop_spec (h : ChatInv w) (hcd : w.chat id = some cd) (howner : cd.owner ≠ .first)
    {fuel : Nat} (hfuel : cd.users < fuel) :
    ∃ w' cd', kickLoop id fuel w = some w' ∧ ChatInv w' ∧ w'.npc = w.npc ∧
      w'.chat id = some cd' ∧ cd'.users = 0 ∧ cd'.owner = cd.owner := by
  induction fuel generalizing w cd with
  | zero => exact absurd hfuel (Nat.not_lt_zero _)
  | succ fuel ih =>
    unfold kickLoop
    rw [hcd]
    dsimp only
    split
    swap
    · rename_i hnone
      exact ⟨w, cd, rfl, h, rfl, hcd, by omega, rfl⟩
    rename_i hpos
    obtain ⟨l, hok, hl⟩ := h.rooms _ _ hcd
    have husers := hok.users
    have hlt : cd.users - 1 < l.length := by omega
    rw [hok.table _ hlt, List.getElem?_eq_getElem hlt]
    dsimp only
    -- The last player is in this room.
    have hsd := (hl _).mp (List.getElem_mem hlt)
    obtain ⟨w₁, hleave, hinv₁, hnpc₁, hroom₁⟩ := chatLeavechat_spec h l[cd.users - 1]
    rw [hsd] at hroom₁
    obtain ⟨cd₁, hcd₁, howner₁, husers₁⟩ := hroom₁ cd hcd howner
    obtain ⟨w₂, cd₂, hloop, hinv₂, hnpc₂, hcd₂, husers₂, howner₂⟩ :=
      ih hinv₁ hcd₁ (by rw [howner₁]; exact howner) (by omega)
    exact ⟨w₂, cd₂, by rw [hleave]; exact hloop, hinv₂, hnpc₂.trans hnpc₁, hcd₂, husers₂,
      howner₂.trans howner₁⟩

/-- The room of an NPC is its own. -/
theorem ChatInv.npc_owner (h : ChatInv w) {nd : Nat} (hcd : w.chat (w.npc nd).chatId = some cd) :
    cd.owner = .npc nd := by
  obtain ⟨cd₁, hcd₁, howner⟩ := h.npc nd (h.ne_zero hcd)
  rw [hcd] at hcd₁
  obtain rfl := Option.some.inj hcd₁
  exact howner

theorem chatNpckickall_spec (h : ChatInv w) (nd : Nat) :
    ∃ w', chatNpckickall w nd = some w' ∧ ChatInv w' := by
  unfold chatNpckickall
  split
  · exact ⟨w, rfl, h⟩
  rename_i cd hcd
  obtain ⟨w', -, hloop, hinv, -⟩ := kickLoop_spec h hcd (by rw [h.npc_owner hcd]; exact nofun)
    (Nat.lt_succ_self cd.users)
  exact ⟨w', hloop, hinv⟩

theorem chatDeletenpcchat_spec (h : ChatInv w) (nd : Nat) :
    ∃ w', chatDeletenpcchat w nd = some w' ∧ ChatInv w' := by
  unfold chatDeletenpcchat
  split
  · exact ⟨w, rfl, h⟩
  rename_i cd hcd
  obtain ⟨w', cd', hloop, hinv, hnpc, hcd', husers, howner⟩ :=
    kickLoop_spec h hcd (by rw [h.npc_owner hcd]; exact nofun) (Nat.lt_succ_self cd.users)
  have hkick : chatNpckickall w nd = some w' := by
    unfold chatNpckickall
    rw [hcd]
    exact hloop
  rw [hkick]
  obtain ⟨l, hok, hl⟩ := hinv.rooms _ _ hcd'
  have hnil : l = [] := List.length_eq_zero_iff.mp (hok.users.symm.trans husers)
  obtain ⟨hplayer', hnpc', hvoid'⟩ := mapDelobject_frame w' (w.npc nd).chatId.toNat
  refine ⟨_, rfl, @ChatInv.delete _ _ (w.npc nd).chatId hinv (fun id' => ?_) (fun sd => ?_)
    (fun nd' hnd' => ?_) (hvoid' hinv.void)⟩
  · exact (congrFun (chat_congr rfl) id').trans (chat_delobject hcd' id')
  · change ((mapDelobject w' _).player sd).chatID = _
    rw [hplayer', if_neg]
    rw [← hl, hnil]
    exact List.not_mem_nil
  · dsimp only at hnd' ⊢
    rw [Function.update_apply] at hnd' ⊢
    split at hnd'
    · exact absurd rfl hnd'
    rename_i hne
    rw [if_neg hne]
    refine ⟨fun heq => ?_, rfl⟩
    obtain ⟨cd₁, hcd₁, howner₁⟩ := hinv.npc nd' hnd'
    rw [heq, hcd'] at hcd₁
    obtain rfl := Option.some.inj hcd₁
    rw [howner, h.npc_owner hcd] at howner₁
    exact hne (ChatOwner.npc.inj howner₁).symm

theorem chatRun_delOther (checkBadWord : CStr 60 → Bool) (w : ChatWorld) (n : ℕ) :
    chatRun checkBadWord w (.delOther n) = match w.object n with
      | some .other => some (mapDelobject w n)
      | _ => some w := rfl

/-- **The step lemma.** -/
theorem chatRun_spec (checkBadWord : CStr 60 → Bool) (h : ChatInv w) (e : ChatEvent)
    (hfits : ChatFits (some w) e) : ∃ w', chatRun checkBadWord w e = some w' ∧ ChatInv w' := by
  cases e with
  | create sd p => exact ⟨_, rfl, chatCreatechat_inv h sd p⟩
  | join sd chatid pass => exact chatJoinchat_spec h hfits
  | leave sd =>
    obtain ⟨w', hleave, hinv, -⟩ := chatLeavechat_spec h sd
    exact ⟨w', hleave, hinv⟩
  | changeOwner sd name => exact ⟨_, rfl, chatChangechatowner_inv h sd name⟩
  | changeStatus sd p => exact ⟨_, rfl, chatChangechatstatus_inv h checkBadWord sd p⟩
  | kick sd name => exact chatKickchat_spec h sd name
  | createNpc nd limit pub title => exact ⟨_, rfl, chatCreatenpcchat_inv h nd limit pub title⟩
  | kickAll nd => exact chatNpckickall_spec h nd
  | deleteNpc nd => exact chatDeletenpcchat_spec h nd
  | move sd vender m x y =>
    refine ⟨_, rfl, h.frame (chat_congr rfl) (fun sd' => ?_) rfl h.void⟩
    dsimp only
    rw [Function.update_apply]
    split
    · rename_i heq
      rw [heq]
    · rfl
  | addOther =>
    refine ⟨_, rfl, ?_⟩
    rcases hadd : mapAddobject w .other with _ | ⟨n, w₁⟩
    · exact h
    obtain ⟨hfree, hn, hmax, hplayer, hnpc, hobj⟩ := mapAddobject_some hadd
    refine h.frame ?_ (fun sd => by rw [← hplayer]; rfl) hnpc ?_
    · funext id
      refine (chat_addobject hmax hobj id).trans ?_
      split
      · rename_i heq
        rw [heq, chat_free hfree]
        rfl
      · rfl
    · change w₁.object 0 = none
      rw [hobj, Function.update_of_ne (by omega)]
      exact h.void
  | delOther n =>
    rw [chatRun_delOther]
    split
    swap
    · exact ⟨w, rfl, h⟩
    rename_i hother
    refine ⟨_, rfl, ?_⟩
    unfold mapDelobject
    rw [if_neg (by rw [hother]; exact nofun)]
    refine h.frame ?_ (fun _ => rfl) rfl ?_
    · funext id
      unfold ChatWorld.chat
      dsimp only
      split
      · by_cases heq : id.toNat = n
        · rw [heq, hother, Function.update_self]
        · rw [Function.update_of_ne heq]
      · rfl
    · dsimp only
      rw [Function.update_apply]
      split
      · rfl
      · exact h.void

/-- The invariant says who is listed where. -/
theorem ChatInv.ok (h : ChatInv w) : ChatOk w := by
  have hlistings (sd : Nat) (id : Int) :
      w.listings sd id = if (w.player sd).chatID = id ∧ id ≠ 0 then 1 else 0 := by
    unfold ChatWorld.listings
    rcases hcd : w.chat id with _ | cd
    · rw [if_neg]
      · rfl
      rintro ⟨rfl, hne⟩
      obtain ⟨cd, hcd'⟩ := h.chat sd hne
      rw [hcd] at hcd'
      cases hcd'
    · obtain ⟨l, hok, hl⟩ := h.rooms _ _ hcd
      change cd.listed.count sd = _
      have hid := h.ne_zero hcd
      rw [hok.listed, hok.nodup.count]
      simp only [hl, hid, ne_eq, not_false_eq_true, and_true]
  refine ⟨fun sd id hid => ?_, fun id cd hcd => ?_, fun id cd hcd hfirst => ?_⟩
  · rw [hlistings]
    constructor
    · intro heq
      refine ⟨if_pos ⟨heq, hid⟩, fun id' hid' => ?_⟩
      rw [hlistings, if_neg]
      exact fun hand => hid' (hand.1.symm.trans heq)
    · rintro ⟨hone, -⟩
      by_contra hne
      rw [if_neg fun hand => hne hand.1] at hone
      cases hone
  · obtain ⟨l, hok, -⟩ := h.rooms _ _ hcd
    rw [hok.listed, hok.users]
    exact ⟨rfl, hok.nodup, hok.size⟩
  · obtain ⟨l, hok, -⟩ := h.rooms _ _ hcd
    rw [hok.listed]
    rcases hl : l with _ | ⟨sd, others⟩
    · exact absurd hl (hok.owner hfirst)
    · refine ⟨sd, others, rfl, ?_⟩
      rw [hok.table 0 (by rw [hl]; exact Nat.succ_pos _), hl]
      rfl

/-- **A step keeps the rooms in order** if and only if it fits. -/
theorem chatStepOk_iff (checkBadWord : CStr 60 → Bool) (h : ChatInv w) (e : ChatEvent) :
    ChatStepOk checkBadWord (some w) e ↔ ChatFits (some w) e := by
  constructor
  swap
  · intro hfits
    obtain ⟨w', hrun, hinv⟩ := chatRun_spec checkBadWord h e hfits
    exact ⟨w', hrun, hinv.ok⟩
  rintro ⟨w', hrun, hok⟩
  cases e with
  | join sd chatid pass =>
    intro cd hcd hlets
    change chatJoinchat w sd chatid pass = some w' at hrun
    unfold chatJoinchat at hrun
    rw [hcd] at hrun
    dsimp only at hrun
    rw [if_pos hlets] at hrun
    split at hrun
    swap
    · cases hrun
    rename_i hroom
    refine ⟨?_, hroom⟩
    by_contra hzero
    -- The player is still listed in the room it was in.
    obtain rfl := Option.some.inj hrun
    obtain ⟨cd₁, hcd₁⟩ := h.chat sd hzero
    obtain ⟨l₁, hok₁, hl₁⟩ := h.rooms _ _ hcd₁
    have hne : chatid ≠ (w.player sd).chatID := by
      unfold ChatData.lets at hlets
      simp only [Bool.and_eq_true, decide_eq_true_eq] at hlets
      exact hlets.2
    have hself : (Function.update w.player sd { w.player sd with chatID := chatid } sd).chatID =
        chatid := by rw [Function.update_self]
    have hnone := ((hok.ids sd chatid (h.ne_zero hcd)).mp hself).2 _ (Ne.symm hne)
    unfold ChatWorld.listings at hnone
    have hsame : (pcSetchatid (w.setChat chatid { cd with
        usersd := Function.update cd.usersd cd.users (some sd)
        users := cd.users + 1 }) sd chatid).chat (w.player sd).chatID = some cd₁ := by
      refine (congrFun (chat_congr rfl) _).trans ((chat_setChat hcd _ _).trans ?_)
      rw [if_neg (Ne.symm hne)]
      exact hcd₁
    rw [hsame] at hnone
    change cd₁.listed.count sd = 0 at hnone
    rw [hok₁.listed, List.count_eq_zero] at hnone
    exact hnone ((hl₁ sd).mpr rfl)
  | _ => trivial

end Steps

/-- The players and the NPCs when there are no rooms. -/
def noChats (players : Nat → ChatPlayer) (npcs : Nat → ChatNpc) : ChatWorld where
  player sd := { players sd with chatID := 0 }
  npc nd := { npcs nd with chatId := 0 }

theorem chatInv_init (players : Nat → ChatPlayer) (npcs : Nat → ChatNpc) :
    ChatInv (noChats players npcs) := by
  refine ⟨fun id cd hcd => ?_, fun sd hsd => absurd rfl hsd, fun nd hnd => absurd rfl hnd, rfl⟩
  obtain ⟨-, -, hobj⟩ := chat_eq_some_iff.mp hcd
  cases hobj

/-- **The rooms are in order** after every step of a run if and only if in every step a player who is
let into a room is in none, and the room has a place left. -/
theorem chatRun_exact_iff (checkBadWord : CStr 60 → Bool) (players : Nat → ChatPlayer)
    (npcs : Nat → ChatNpc) (es : List ChatEvent) :
    Run.Meets (chatStep checkBadWord) (ChatStepOk checkBadWord) (some (noChats players npcs)) es ↔
      Run.Meets (chatStep checkBadWord) ChatFits (some (noChats players npcs)) es := by
  refine Run.meets_iff_of_kept (I := fun s => ∃ w, s = some w ∧ ChatInv w) (fun s e h hfits => ?_)
    (fun s e h => ?_) ⟨_, rfl, chatInv_init players npcs⟩
  · obtain ⟨w, rfl, h⟩ := h
    obtain ⟨w', hrun, hinv⟩ := chatRun_spec checkBadWord h e hfits
    exact ⟨w', hrun, hinv⟩
  · obtain ⟨w, rfl, h⟩ := h
    exact chatStepOk_iff checkBadWord h e

/-- **A player in two rooms**: two players open rooms, and one joins the other. -/
theorem chatRun_both : ¬ ∀ checkBadWord players npcs es,
    Run.Meets (chatStep checkBadWord) (ChatStepOk checkBadWord)
      (some (noChats players npcs)) es := by
  intro h
  let p : ChatParams := { limit := 20, pub := 1, pass := default, title := default }
  obtain ⟨-, -, ⟨w, hw, hok⟩, -⟩ := h (fun _ => false) (fun _ => {}) (fun _ => {})
    [.create 1 p, .create 2 p, .join 2 2 default]
  obtain rfl := Option.some.inj hw
  exact absurd (((hok.ids 2 2 (by decide)).mp (by decide)).2 3 (by decide))
    (by decide)

end Nezumi
