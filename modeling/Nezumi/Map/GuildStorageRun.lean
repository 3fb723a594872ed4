import Nezumi.Map.GuildStorage
import Nezumi.Map.StorageRun

/-!
# The storages of guilds are saved (`map/storage.c`, `map/intif.c`)

* `StorKeeps stor sd r marked`: a move keeps who the player is, and an unmarked one keeps the
  storage.
* `Clean w g`: the copy of a guild is marked, or the same as what the char-server was told.
* `GuildStorageOk`: the copies in use are clean, and so are those that can be opened.
* `guildStorageOk_step`: every step keeps this.
* `guildStorage_saved`: so nothing is lost when a session ends.
-/

namespace Nezumi

variable {n : ℕ}

theorem sortItems_perm (t : Fin n → Item) : (List.ofFn (sortItems t)).Perm (List.ofFn t) := by
  have hlen : ((List.ofFn t).mergeSort fun i1 i2 => storageCompItem i1 i2 ≤ 0).length = n := by
    rw [List.length_mergeSort, List.length_ofFn]
  have heq : List.ofFn (sortItems t) =
      (List.ofFn t).mergeSort fun i1 i2 => storageCompItem i1 i2 ≤ 0 := by
    apply List.ext_get
    · rw [List.length_ofFn, hlen]
    · intro i h1 h2
      rw [List.get_ofFn]
      rfl
  rw [heq]
  exact List.mergeSort_perm _ _

/-! ## Moves -/

/-- Who the player is, and which storage is open, stay. -/
structure SameUser (sd sd' : MapSessionData) : Prop extends SamePlayer sd sd' where
  storageFlag : sd'.storageFlag = sd.storageFlag

section Moves

variable {db : ItemDb} {sd : MapSessionData} {stor : Storage n} {item : Item} {amount : Int}

theorem SameUser.refl (sd : MapSessionData) : SameUser sd sd := ⟨⟨rfl, rfl⟩, rfl⟩

theorem SameUser.pcAdditem : SameUser sd (pcAdditem db sd item amount).2 := by
  obtain ⟨_, _, _, h⟩ := pcAdditem_frame db sd item amount
  rw [h]
  exact ⟨⟨rfl, rfl⟩, rfl⟩

theorem SameUser.pcDelitem (i : Fin maxInventory) : SameUser sd (pcDelitem sd i amount) := by
  obtain ⟨_, _, _, h⟩ := pcDelitem_frame sd i amount
  rw [h]
  exact ⟨⟨rfl, rfl⟩, rfl⟩

theorem SameUser.pcCartAdditem : SameUser sd (pcCartAdditem db sd item amount).2 := by
  unfold Nezumi.pcCartAdditem
  dsimp only
  split
  · exact .refl sd
  · cases itemAdditem db sd.cart item amount with
    | none => exact .refl sd
    | some r => exact ⟨⟨rfl, rfl⟩, rfl⟩

theorem SameUser.pcCartDelitem (i : Fin maxCart) : SameUser sd (pcCartDelitem db sd i amount) := by
  unfold Nezumi.pcCartDelitem
  dsimp only
  split
  · exact .refl sd
  · split <;> exact ⟨⟨rfl, rfl⟩, rfl⟩

theorem storAdditem_status :
    (storAdditem db stor item amount).2.storageStatus = stor.storageStatus := by
  unfold storAdditem
  cases itemAdditem db stor.slots item amount <;> rfl

theorem storDelitem_status {i : Fin n} :
    (storDelitem stor i amount).2.storageStatus = stor.storageStatus := by
  unfold storDelitem
  dsimp only
  split
  · rfl
  · split <;> rfl

theorem storDelitem_of_ne_zero {i : Fin n} (h : (storDelitem stor i amount).1 ≠ 0) :
    (storDelitem stor i amount).2 = stor := by
  unfold storDelitem at h ⊢
  dsimp only at h ⊢
  split at h
  · rename_i hempty
    rw [if_pos hempty]
  · split at h <;> exact absurd rfl h

/-- What a move leaves of a storage and a player. -/
structure StorKeeps (stor : Storage n) (sd : MapSessionData) (r : Storage n × MapSessionData)
    (marked : Bool) : Prop where
  user : SameUser sd r.2
  status : r.1.storageStatus = stor.storageStatus
  unmarked : marked = false → r.1 = stor

theorem StorKeeps.refused {marked : Bool} : StorKeeps stor sd (stor, sd) marked :=
  ⟨.refl sd, rfl, fun _ => rfl⟩

theorem storAdd_keeps (i : Fin maxInventory) :
    StorKeeps stor sd (storAdd db stor sd i amount)
      (storTakes n stor && (storAdditem db stor (sd.inventory i) amount).1 == 0) := by
  unfold storAdd
  split
  · rename_i htakes
    dsimp only
    split
    · rename_i hadd
      exact ⟨.pcDelitem i, storAdditem_status, fun h => by simp [htakes, hadd] at h⟩
    · rename_i hadd
      exact ⟨.refl sd, storAdditem_status, fun _ => storAdditem_of_ne_zero hadd⟩
  · exact .refused

theorem storGet_keeps (i : Fin n) :
    StorKeeps stor sd (storGet db stor sd i amount)
      (stor.storageStatus == 1 && decide (amount ≤ (stor.slots i).amount.toInt) &&
        (pcAdditem db sd (stor.slots i) amount).1 == 0 &&
        (storDelitem stor i amount).1 == 0) := by
  unfold storGet
  split
  · rename_i hopen
    dsimp only
    split
    · rename_i hadd
      refine ⟨.pcAdditem, storDelitem_status, fun h => storDelitem_of_ne_zero ?_⟩
      simpa [hopen.1, hopen.2, hadd] using h
    · exact ⟨.pcAdditem, rfl, fun _ => rfl⟩
  · exact .refused

theorem storAddfromcart_keeps (idx : Int) :
    StorKeeps stor sd (storAddfromcart db stor sd idx amount)
      ((slotAt maxCart idx).any fun i =>
        storTakes n stor && decide (amount ≤ (sd.cart i).amount.toInt) && decide (amount > 0) &&
          (storAdditem db stor (sd.cart i) amount).1 == 0) := by
  unfold storAddfromcart
  split
  · rename_i htakes
    cases slotAt maxCart idx with
    | none => exact .refused
    | some i =>
      dsimp only
      split
      · rename_i hamount
        split
        · rename_i hadd
          refine ⟨.pcCartDelitem i, storAdditem_status, fun h => ?_⟩
          simp [htakes, hamount.1, hamount.2, hadd] at h
        · rename_i hadd
          exact ⟨.refl sd, storAdditem_status, fun _ => storAdditem_of_ne_zero hadd⟩
      · exact .refused
  · exact .refused

theorem storGettocart_keeps (idx : Int) :
    StorKeeps stor sd (storGettocart db stor sd idx amount)
      ((slotAt n idx).any fun i =>
        stor.storageStatus == 1 && decide (amount ≤ (stor.slots i).amount.toInt) &&
          decide (amount > 0) && (pcCartAdditem db sd (stor.slots i) amount).1 == 0 &&
          (storDelitem stor i amount).1 == 0) := by
  unfold storGettocart
  split
  · rename_i hopen
    cases slotAt n idx with
    | none => exact .refused
    | some i =>
      dsimp only
      split
      · rename_i hamount
        split
        · rename_i hadd
          refine ⟨.pcCartAdditem, storDelitem_status, fun h => storDelitem_of_ne_zero ?_⟩
          simpa [hopen, hamount.1, hamount.2, hadd] using h
        · exact ⟨.pcCartAdditem, rfl, fun _ => rfl⟩
      · exact .refused
  · exact .refused

/-- **The moves with the storage of a guild.** -/
theorem ofGuild_spec (db : ItemDb) {w : StorageWorld} (mv : StorageMove)
    (hsd : w.players sd.id = some sd)
    (hguild : w.guild sd.guildId) :
    ∃ stor sd', mv.ofGuild db w sd = { w with
        players := w.players.set sd'
        guildStorage := Function.update w.guildStorage sd.guildId stor } ∧
      StorKeeps (w.guildStorage sd.guildId) sd (stor, sd')
        (mv.marks db (w.guildStorage sd.guildId) sd) := by
  have hmove {f : Storage maxGuildStorage → MapSessionData →
      Storage maxGuildStorage × MapSessionData} {marked : Bool}
      (hf : StorKeeps (w.guildStorage sd.guildId) sd (f (w.guildStorage sd.guildId) sd) marked) :
      ∃ stor sd', withGuildStorage w sd f = { w with
          players := w.players.set sd'
          guildStorage := Function.update w.guildStorage sd.guildId stor } ∧
        StorKeeps (w.guildStorage sd.guildId) sd (stor, sd') marked := by
    unfold withGuildStorage
    rw [if_pos hguild]
    exact ⟨_, _, rfl, hf⟩
  cases mv with
  | add i amount =>
    exact hmove (f := fun stor sd => storAdd db stor sd i amount) (storAdd_keeps i)
  | get idx amount =>
    dsimp only [StorageMove.ofGuild, StorageMove.marks]
    cases slotAt maxGuildStorage idx with
    | none =>
      refine ⟨w.guildStorage sd.guildId, sd, ?_, .refused⟩
      rw [players_set_self hsd, Function.update_eq_self]
    | some i => exact hmove (f := fun stor sd => storGet db stor sd i amount) (storGet_keeps i)
  | addfromcart idx amount =>
    exact hmove (f := fun stor sd => storAddfromcart db stor sd idx amount)
      (storAddfromcart_keeps idx)
  | gettocart idx amount =>
    exact hmove (f := fun stor sd => storGettocart db stor sd idx amount) (storGettocart_keeps idx)

/-- **The moves with the storage of the account.** -/
theorem ofAccount_spec (db : ItemDb) {w : StorageWorld} (mv : StorageMove)
    (hsd : w.players sd.id = some sd) :
    ∃ storage sd', mv.ofAccount db w sd =
        { w with players := w.players.set sd', storage := storage } ∧ SameUser sd sd' := by
  cases mv with
  | add i amount => exact ⟨_, _, rfl, (storAdd_keeps i).user⟩
  | get idx amount =>
    dsimp only [StorageMove.ofAccount]
    cases slotAt maxStorage idx with
    | none => exact ⟨w.storage, sd, by rw [players_set_self hsd], .refl sd⟩
    | some i => exact ⟨_, _, rfl, (storGet_keeps i).user⟩
  | addfromcart idx amount => exact ⟨_, _, rfl, (storAddfromcart_keeps idx).user⟩
  | gettocart idx amount => exact ⟨_, _, rfl, (storGettocart_keeps idx).user⟩

end Moves

/-! ## Copies -/

namespace SameContents

variable {s t : Storage maxGuildStorage}

theorem refl (s : Storage maxGuildStorage) : SameContents s s := ⟨.refl _, rfl⟩

/-- The order of the slots does not matter. -/
theorem sort (h : SameContents s t) : SameContents (sortageGsortitem s) t :=
  ⟨(sortItems_perm s.slots).trans h.1, h.2⟩

/-- Nor does the status. -/
theorem status (h : SameContents s t) (status : ℕ) :
    SameContents { s with storageStatus := status } t := ⟨h.1, h.2⟩

end SameContents

/-- The copy of a guild is marked, or what the char-server was told. -/
def Clean (w : GuildStorageWorld) (g : Int) : Prop :=
  w.modified g ∨ SameContents (w.gstor g) (w.sent g)

/-- The copies that are in use, or that can be opened without asking, are clean. An answer under way
is for a guild whose storage is already in the table, and for its member. -/
structure GuildStorageOk (w : GuildStorageWorld) : Prop where
  ids : ∀ a sd, w.player a = some sd → sd.id = a
  users : ∀ a sd, w.player a = some sd → sd.storageFlag →
    w.inMemory sd.guildId ∧ Clean w sd.guildId
  opened : ∀ g, w.inMemory g → (w.gstor g).storageStatus = 0 → Clean w g
  known : ∀ g, w.inMemory g → w.world.guild g
  asked : ∀ ans ∈ w.answers, w.inMemory ans.guildId ∧
    ∀ sd, w.player ans.accountId = some sd → sd.guildId = ans.guildId

/-- What a step may do to the copies. -/
structure Advances (w w' : GuildStorageWorld) : Prop where
  inMemory : ∀ g, w.inMemory g → w'.inMemory g
  clean : ∀ g, w.inMemory g → Clean w g → Clean w' g
  opened : ∀ g, w'.inMemory g → (w'.gstor g).storageStatus = 0 → Clean w' g
  known : ∀ g, w'.inMemory g → w'.world.guild g

section Steps

variable {db : ItemDb} {w w' : GuildStorageWorld} {a g : Int} {sd sd' : MapSessionData}

theorem Clean.of_eq (h : Clean w g) (hgstor : w'.gstor g = w.gstor g)
    (hmodified : w'.modified g = w.modified g) (hsent : w'.sent g = w.sent g) : Clean w' g := by
  unfold Clean
  rwa [hgstor, hmodified, hsent]

/-- Nothing happens to the copies. -/
theorem Advances.of_eq (h : GuildStorageOk w) (hmem : w'.inMemory = w.inMemory)
    (hgstor : w'.world.guildStorage = w.world.guildStorage) (hmodified : w'.modified = w.modified)
    (hsent : w'.sent = w.sent) (hguild : ∀ g, w.world.guild g → w'.world.guild g) :
    Advances w w' := by
  have hclean (g : Int) (hg : Clean w g) : Clean w' g :=
    hg.of_eq (congrFun hgstor g) (congrFun hmodified g) (congrFun hsent g)
  refine ⟨fun g hg => ?_, fun g _ => hclean g, fun g hg hstatus => hclean g ?_, fun g hg => ?_⟩
  · rwa [hmem]
  · rw [hmem] at hg
    unfold GuildStorageWorld.gstor at hstatus
    rw [hgstor] at hstatus
    exact h.opened g hg hstatus
  · rw [hmem] at hg
    exact hguild g (h.known g hg)

/-- Something happens to the copy of one guild. -/
theorem Advances.of_guild (h : GuildStorageOk w) (hknown : w.world.guild g)
    (hmem : w'.inMemory = Function.update w.inMemory g true)
    (hguild : w'.world.guild = w.world.guild)
    (hother : ∀ i ≠ g, w'.gstor i = w.gstor i ∧ w'.modified i = w.modified i ∧ w'.sent i = w.sent i)
    (hclean : w.inMemory g → Clean w g → Clean w' g)
    (hopened : (w'.gstor g).storageStatus = 0 → Clean w' g) : Advances w w' := by
  have hin (i : Int) (hi : i ≠ g) : w'.inMemory i = w.inMemory i := by
    rw [hmem, Function.update_of_ne hi]
  refine ⟨fun i hm => ?_, fun i hm hc => ?_, fun i hm hstatus => ?_, fun i hm => ?_⟩
  all_goals
    rcases eq_or_ne i g with rfl | hi
  · rw [hmem, Function.update_self]
  · rwa [hin i hi]
  · exact hclean hm hc
  · exact hc.of_eq (hother i hi).1 (hother i hi).2.1 (hother i hi).2.2
  · exact hopened hstatus
  · rw [(hother i hi).1] at hstatus
    rw [hin i hi] at hm
    exact (h.opened i hm hstatus).of_eq (hother i hi).1 (hother i hi).2.1 (hother i hi).2.2
  · rwa [hguild]
  · rw [hin i hi] at hm
    rw [hguild]
    exact h.known i hm

/-- The players and the answers of a step. -/
theorem GuildStorageOk.next (h : GuildStorageOk w) (hadv : Advances w w')
    (hplayers : ∀ i s, w'.player i = some s → w.player i = some s ∨
      s.id = i ∧ (s.storageFlag → w'.inMemory s.guildId ∧ Clean w' s.guildId) ∧
        ∀ ans ∈ w.answers, ans.accountId = i → s.guildId = ans.guildId)
    (hanswers : ∀ ans ∈ w'.answers, ans ∈ w.answers ∨ w'.inMemory ans.guildId ∧
      ∀ s, w'.player ans.accountId = some s → s.guildId = ans.guildId) : GuildStorageOk w' where
  ids i s hs := by
    obtain hs | ⟨hid, -⟩ := hplayers i s hs
    · exact h.ids i s hs
    · exact hid
  users i s hs hflag := by
    obtain hs | ⟨-, huser, -⟩ := hplayers i s hs
    · obtain ⟨hmem, hclean⟩ := h.users i s hs hflag
      exact ⟨hadv.inMemory _ hmem, hadv.clean _ hmem hclean⟩
    · exact huser hflag
  opened := hadv.opened
  known := hadv.known
  asked ans hans := by
    obtain hold | hnew := hanswers ans hans
    · obtain ⟨hmem, hmember⟩ := h.asked ans hold
      refine ⟨hadv.inMemory _ hmem, fun s hs => ?_⟩
      obtain hs | ⟨-, -, hguild⟩ := hplayers ans.accountId s hs
      · exact hmember s hs
      · exact hguild ans hold rfl
    · exact hnew

/-- A step of one player. -/
theorem GuildStorageOk.user (h : GuildStorageOk w) (hsd : w.player a = some sd)
    (hsame : SamePlayer sd sd') (hadv : Advances w w')
    (hplayers : w'.world.players = w.world.players.set sd')
    (hflag : sd'.storageFlag → w'.inMemory sd.guildId ∧ Clean w' sd.guildId)
    (hanswers : ∀ ans ∈ w'.answers, ans ∈ w.answers) : GuildStorageOk w' := by
  refine h.next hadv (fun i s hs => ?_) fun ans hans => .inl (hanswers ans hans)
  unfold GuildStorageWorld.player at hs
  rw [hplayers] at hs
  obtain ⟨rfl, rfl⟩ | ⟨-, hs⟩ := players_set hs
  · refine .inr ⟨rfl, ?_, fun ans hans hacc => ?_⟩
    · rw [hsame.guildId]
      exact hflag
    · rw [hsame.guildId]
      refine (h.asked ans hans).2 sd ?_
      rw [hacc, hsame.id, h.ids a sd hsd]
      exact hsd
  · exact .inl hs

/-! ## The functions -/

/-- What the char-server has after the copy of a guild was sent to it, if marked. -/
def sentAfter (w : GuildStorageWorld) (g : Int) : Int → Storage maxGuildStorage :=
  if w.modified g then Function.update w.sent g (w.gstor g) else w.sent

theorem sendModified_eq : w.sendModified g = { w with sent := sentAfter w g } := by
  unfold GuildStorageWorld.sendModified sentAfter
  split <;> rfl

theorem sentAfter_of_ne {i : Int} (hi : i ≠ g) : sentAfter w g i = w.sent i := by
  unfold sentAfter
  split
  · rw [Function.update_of_ne hi]
  · rfl

/-- What was clean is then what the char-server has. -/
theorem Clean.sent (h : Clean w g) : SameContents (w.gstor g) (sentAfter w g g) := by
  unfold sentAfter
  split
  · rw [Function.update_self]
    exact .refl _
  · rename_i hmodified
    exact h.resolve_left hmodified

/-- The end of a session: the copy is sent if marked, closed, and perhaps sorted. -/
def endSession (w : GuildStorageWorld) (sd : MapSessionData) (stor : Storage maxGuildStorage) :
    GuildStorageWorld :=
  { w.create sd.guildId with
    world := { w.world with
      players := w.world.players.set { sd with storageFlag := false }
      guildStorage := Function.update w.world.guildStorage sd.guildId stor }
    sent := sentAfter w sd.guildId }

theorem storageGuildStorageclose_eq (hguild : w.world.guild sd.guildId) :
    storageGuildStorageclose w sd =
      endSession w sd (sortageGsortitem { w.gstor sd.guildId with storageStatus := 0 }) := by
  unfold storageGuildStorageclose
  rw [if_pos hguild]
  simp [sendModified_eq, chrifSave, endSession, GuildStorageWorld.setGstor,
    GuildStorageWorld.setPlayer, GuildStorageWorld.create, GuildStorageWorld.gstor, sentAfter]

theorem storageGuildStorageQuit_eq (hmem : w.inMemory sd.guildId) :
    storageGuildStorageQuit w sd =
      endSession w sd { w.gstor sd.guildId with storageStatus := 0 } := by
  unfold storageGuildStorageQuit
  rw [if_pos hmem]
  simp [sendModified_eq, chrifSave, endSession, GuildStorageWorld.setGstor,
    GuildStorageWorld.setPlayer, GuildStorageWorld.create, GuildStorageWorld.gstor, hmem]

/-- **The end of a session.** What the char-server has is what is in memory, up to order. -/
theorem endSession_ok (h : GuildStorageOk w) (hsd : w.player a = some sd) (hflag : sd.storageFlag)
    {stor : Storage maxGuildStorage}
    (hstor : ∀ t, SameContents (w.gstor sd.guildId) t → SameContents stor t) :
    GuildStorageOk (endSession w sd stor) ∧
      SameContents ((endSession w sd stor).gstor sd.guildId)
        ((endSession w sd stor).sent sd.guildId) := by
  obtain ⟨hmem, hclean⟩ := h.users a sd hsd hflag
  have hgstor : (endSession w sd stor).gstor sd.guildId = stor := Function.update_self ..
  have hsame : SameContents ((endSession w sd stor).gstor sd.guildId)
      ((endSession w sd stor).sent sd.guildId) := by
    rw [hgstor]
    exact hstor _ hclean.sent
  have hadv : Advances w (endSession w sd stor) := by
    refine .of_guild h (h.known _ hmem) rfl rfl (fun i hi => ⟨?_, rfl, sentAfter_of_ne hi⟩)
      (fun _ _ => .inr hsame) fun _ => .inr hsame
    exact Function.update_of_ne hi ..
  have huser : SamePlayer sd { sd with storageFlag := false } := ⟨rfl, rfl⟩
  exact ⟨h.user hsd huser hadv rfl nofun fun _ hans => hans, hsame⟩

theorem close_ok (h : GuildStorageOk w) (hsd : w.player a = some sd) (hflag : sd.storageFlag) :
    GuildStorageOk (storageGuildStorageclose w sd) ∧
      SameContents ((storageGuildStorageclose w sd).gstor sd.guildId)
        ((storageGuildStorageclose w sd).sent sd.guildId) := by
  rw [storageGuildStorageclose_eq (h.known _ (h.users a sd hsd hflag).1)]
  exact endSession_ok h hsd hflag fun t ht => (ht.status 0).sort

theorem quit_ok (h : GuildStorageOk w) (hsd : w.player a = some sd) (hflag : sd.storageFlag) :
    GuildStorageOk (storageGuildStorageQuit w sd) ∧
      SameContents ((storageGuildStorageQuit w sd).gstor sd.guildId)
        ((storageGuildStorageQuit w sd).sent sd.guildId) := by
  rw [storageGuildStorageQuit_eq (h.users a sd hsd hflag).1]
  exact endSession_ok h hsd hflag fun t ht => ht.status 0

/-- A player goes. -/
theorem GuildStorageOk.erase (h : GuildStorageOk w) (a : Int) :
    GuildStorageOk
      { w with world := { w.world with players := Function.update w.world.players a none } } := by
  refine h.next (.of_eq h rfl rfl rfl rfl fun _ hg => hg) (fun i s hs => .inl ?_)
    fun ans hans => .inl hans
  unfold GuildStorageWorld.player at hs ⊢
  dsimp only at hs
  rcases eq_or_ne i a with rfl | hi
  · rw [Function.update_self] at hs
    cases hs
  · rwa [Function.update_of_ne hi] at hs

/-- A player who uses no storage of a guild, or the same as before, is overwritten. -/
theorem GuildStorageOk.setPlayer (h : GuildStorageOk w) (hsd : w.player a = some sd)
    (hsame : SamePlayer sd sd') (hflag : sd'.storageFlag → sd.storageFlag)
    {storage : Int → Storage maxStorage} :
    GuildStorageOk
      { w with world := { w.world with players := w.world.players.set sd', storage := storage } } :=
  h.user hsd hsame (.of_eq h rfl rfl rfl rfl fun _ hg => hg) rfl
    (fun hf => h.users a sd hsd (hflag hf)) fun _ hans => hans

/-- **A move with the storage of a guild.** It marks what it changes. -/
theorem storageGuildMove_ok (h : GuildStorageOk w) (hsd : w.player a = some sd)
    (hflag : sd.storageFlag) (mv : StorageMove) :
    GuildStorageOk (storageGuildMove db w sd mv) := by
  obtain ⟨hmem, hclean⟩ := h.users a sd hsd hflag
  have hguild := h.known _ hmem
  have hplayer : w.world.players sd.id = some sd := by
    rw [h.ids a sd hsd]
    exact hsd
  obtain ⟨stor, sd', heq, hkeeps⟩ := ofGuild_spec db mv hplayer hguild
  unfold storageGuildMove
  dsimp only
  rw [if_pos hguild, heq]
  generalize hmarked : mv.marks db (w.gstor sd.guildId) sd = marked
  change mv.marks db (w.world.guildStorage sd.guildId) sd = marked at hmarked
  rw [hmarked] at hkeeps
  set w' : GuildStorageWorld := { w.create sd.guildId with
    world := { w.world with
      players := w.world.players.set sd'
      guildStorage := Function.update w.world.guildStorage sd.guildId stor }
    modified := Function.update w.modified sd.guildId (w.modified sd.guildId || marked) } with hw'
  have hgstor : w'.gstor sd.guildId = stor := Function.update_self ..
  have hmodified : w'.modified sd.guildId = (w.modified sd.guildId || marked) :=
    Function.update_self ..
  have hclean' : Clean w' sd.guildId := by
    unfold Clean
    rw [hmodified, hgstor]
    cases hm : marked with
    | true => exact .inl (by simp)
    | false =>
      have hstor : stor = w.gstor sd.guildId := hkeeps.unmarked hm
      rw [hstor, Bool.or_false]
      exact hclean
  have hadv : Advances w w' := by
    refine .of_guild h hguild rfl rfl (fun i hi => ⟨?_, ?_, rfl⟩) (fun _ _ => hclean')
      fun _ => hclean'
    · exact Function.update_of_ne hi ..
    · exact Function.update_of_ne hi ..
  exact h.user hsd hkeeps.user.toSamePlayer hadv rfl (fun _ => ⟨Function.update_self .., hclean'⟩)
    fun _ hans => hans

/-- **The storage is opened**, or the char-server is asked for it. -/
theorem storageGuildStorageopen_ok (h : GuildStorageOk w) (hsd : w.player a = some sd) :
    GuildStorageOk (storageGuildStorageopen w sd) := by
  unfold storageGuildStorageopen
  dsimp only
  split
  · exact h
  split
  · rename_i hmem
    split
    · exact h
    · rename_i hstatus
      have hclean := h.opened _ hmem (not_not.mp hstatus)
      set w' := (w.setGstor sd.guildId { w.gstor sd.guildId with storageStatus := 1 }).setPlayer
        { sd with storageFlag := true }
      have hgstor : w'.gstor sd.guildId = { w.gstor sd.guildId with storageStatus := 1 } :=
        Function.update_self ..
      have hclean' : Clean w' sd.guildId := by
        obtain hm | hsame := hclean
        · exact .inl hm
        · exact .inr (hgstor ▸ hsame.status 1)
      have hadv : Advances w w' := by
        refine .of_guild h (h.known _ hmem) ?_ rfl (fun i hi => ⟨?_, rfl, rfl⟩)
          (fun _ _ => hclean') fun _ => hclean'
        · exact (Function.update_eq_self_iff.mpr hmem.symm).symm
        · exact Function.update_of_ne hi ..
      have huser : SamePlayer sd { sd with storageFlag := true } := ⟨rfl, rfl⟩
      exact h.user hsd huser hadv rfl (fun _ => ⟨hmem, hclean'⟩) fun _ hans => hans
  split
  · rename_i hmem hguild
    have hadv : Advances w { (w.create sd.guildId).setGstor sd.guildId
        { w.gstor sd.guildId with storageStatus := 1 } with
        answers := w.answers ++ [⟨sd.id, sd.guildId, w.sent sd.guildId⟩] } := by
      refine .of_guild h hguild rfl rfl (fun i hi => ⟨?_, rfl, rfl⟩) (fun hm => absurd hm hmem)
        fun hs => ?_
      · exact Function.update_of_ne hi ..
      · -- A storage that was asked for stays closed to others.
        simp [GuildStorageWorld.gstor, GuildStorageWorld.setGstor] at hs
    refine h.next hadv (fun i s hs => .inl hs) fun ans hans => ?_
    obtain hans | hans := List.mem_append.mp hans
    · exact .inl hans
    · obtain rfl := List.mem_singleton.mp hans
      refine .inr ⟨Function.update_self .., fun s hs => ?_⟩
      have hs' : w.player sd.id = some s := hs
      rw [h.ids a sd hsd, hsd] at hs'
      rw [← Option.some.inj hs']
  · exact h

/-- **An answer arrives.** -/
theorem intifParseLoadGuildStorage_ok (h : GuildStorageOk w) {ans : GuildStorageAnswer}
    {rest : List GuildStorageAnswer} (hans : w.answers = ans :: rest) :
    GuildStorageOk { intifParseLoadGuildStorage w ans with answers := rest } := by
  obtain ⟨hmem, hmember⟩ := h.asked ans (by simp [hans])
  have hguild := h.known _ hmem
  have hrest (i : GuildStorageAnswer) (hi : i ∈ rest) : i ∈ w.answers := by simp [hans, hi]
  have hcreate : Function.update w.inMemory ans.guildId true = w.inMemory :=
    Function.update_eq_self_iff.mpr hmem.symm
  unfold intifParseLoadGuildStorage
  dsimp only
  split
  · cases hsd : w.player ans.accountId with
    | none =>
      dsimp only [GuildStorageWorld.create]
      rw [hcreate]
      exact h.next (.of_eq h rfl rfl rfl rfl fun _ hg => hg) (fun i s hs => .inl hs)
        fun i hi => .inl (hrest i hi)
    | some sd =>
      dsimp only
      set w' : GuildStorageWorld := { ((w.create ans.guildId).setGstor ans.guildId
          { ans.contents with storageStatus := 1 }).setPlayer { sd with storageFlag := true } with
        modified := Function.update w.modified ans.guildId false
        sent := Function.update w.sent ans.guildId ans.contents
        answers := rest }
      have hgstor : w'.gstor ans.guildId = { ans.contents with storageStatus := 1 } :=
        Function.update_self ..
      have hsent : w'.sent ans.guildId = ans.contents := Function.update_self ..
      have hclean : Clean w' ans.guildId := by
        refine .inr ?_
        rw [hgstor, hsent]
        exact (SameContents.refl _).status 1
      have hadv : Advances w w' := by
        refine .of_guild h hguild rfl rfl (fun i hi => ⟨?_, ?_, ?_⟩) (fun _ _ => hclean)
          fun _ => hclean
        all_goals exact Function.update_of_ne hi ..
      have huser : SamePlayer sd { sd with storageFlag := true } := ⟨rfl, rfl⟩
      refine h.user hsd huser hadv rfl (fun _ => ?_) hrest
      rw [hmember sd hsd]
      exact ⟨Function.update_self .., hclean⟩
  · exact h.next (.of_eq h rfl rfl rfl rfl fun _ hg => hg) (fun i s hs => .inl hs)
      fun i hi => .inl (hrest i hi)

theorem chrifSave_ok (h : GuildStorageOk w) (hsd : w.player a = some sd) :
    GuildStorageOk (chrifSave w sd) := by
  unfold chrifSave
  split
  · rename_i hflag
    obtain ⟨hmem, hclean⟩ := h.users a sd hsd hflag
    unfold storageGuildStoragesave
    rw [if_pos (h.known _ hmem), sendModified_eq]
    have hclean' : Clean { w.create sd.guildId with
        sent := sentAfter (w.create sd.guildId) sd.guildId } sd.guildId := .inr hclean.sent
    have hadv : Advances w { w.create sd.guildId with
        sent := sentAfter (w.create sd.guildId) sd.guildId } :=
      .of_guild h (h.known _ hmem) rfl rfl (fun i hi => ⟨rfl, rfl, sentAfter_of_ne hi⟩)
        (fun _ _ => hclean') fun _ => hclean'
    exact h.next hadv (fun i s hs => .inl hs) fun ans hans => .inl hans
  · exact h

/-- **Every step keeps the copies clean.** -/
theorem guildStorageOk_step (h : GuildStorageOk w) (e : GuildStorageEvent) :
    GuildStorageOk (guildStorageStep db w e) := by
  have hwith {f : MapSessionData → GuildStorageWorld} (a : Int)
      (hf : ∀ sd, w.player a = some sd → GuildStorageOk (f sd)) :
      GuildStorageOk (withPlayer w a f) := by
    unfold withPlayer
    cases hsd : w.player a with
    | none => exact h
    | some sd => exact hf sd hsd
  cases e with
  | connect sd =>
    dsimp only [guildStorageStep]
    split
    · rename_i hmay
      refine h.next (.of_eq h rfl rfl rfl rfl fun _ hg => hg) (fun i s hs => ?_)
        fun ans hans => .inl hans
      obtain ⟨rfl, rfl⟩ | ⟨-, hs⟩ := players_set (w := w.world) hs
      · exact .inr ⟨rfl, nofun, fun ans hans hacc => absurd hacc (hmay.2 ans hans)⟩
      · exact .inl hs
    · exact h
  | guildopen a => exact hwith a fun sd hsd => storageGuildStorageopen_ok h hsd
  | loaded =>
    dsimp only [guildStorageStep]
    cases hans : w.answers with
    | nil => exact h
    | cons ans rest => exact intifParseLoadGuildStorage_ok h hans
  | accountopen a stor =>
    refine hwith a fun sd hsd => ?_
    have huser : SamePlayer sd { sd with storageFlag := false } := ⟨rfl, rfl⟩
    exact h.setPlayer hsd huser nofun
  | move a mv =>
    refine hwith a fun sd hsd => ?_
    split
    · rename_i hflag
      exact storageGuildMove_ok h hsd hflag mv
    · have hplayer : w.world.players sd.id = some sd := by
        rw [h.ids a sd hsd]
        exact hsd
      obtain ⟨storage, sd', heq, hsame⟩ := ofAccount_spec db mv hplayer
      rw [heq]
      exact h.setPlayer hsd hsame.toSamePlayer fun hf => hsame.storageFlag ▸ hf
  | close a =>
    refine hwith a fun sd hsd => ?_
    split
    · rename_i hflag
      exact (close_ok h hsd hflag).1
    · have huser : SamePlayer sd { sd with storageFlag := false } := ⟨rfl, rfl⟩
      exact h.setPlayer hsd huser nofun
  | save a => exact hwith a fun sd hsd => chrifSave_ok h hsd
  | quit a =>
    refine hwith a fun sd hsd => ?_
    dsimp only
    split
    · rename_i hflag
      exact (quit_ok h hsd hflag).1.erase a
    · exact h.erase a
  | change a sd' =>
    refine hwith a fun sd hsd => ?_
    have huser : SamePlayer sd { sd' with
      id := sd.id, guildId := sd.guildId, storageFlag := sd.storageFlag } := ⟨rfl, rfl⟩
    exact h.setPlayer hsd huser fun hf => hf
  | guild g =>
    refine h.next (.of_eq h rfl rfl rfl rfl fun i hi => ?_) (fun i s hs => .inl hs)
      fun ans hans => .inl hans
    rcases eq_or_ne i g with rfl | hne
    · exact Function.update_self ..
    · exact (Function.update_of_ne hne ..).trans hi

/-- What the step of a session's end gives. -/
theorem GuildStorageOk.saved (h : GuildStorageOk w) (e : GuildStorageEvent) :
    GuildStorageSaved db w e := by
  cases e with
  | close a =>
    intro sd hsd hflag
    have hstep : guildStorageStep db w (.close a) = storageGuildStorageclose w sd := by
      dsimp only [guildStorageStep, withPlayer]
      rw [hsd]
      exact if_pos hflag
    rw [hstep]
    exact (close_ok h hsd hflag).2
  | quit a =>
    intro sd hsd hflag
    have hstep : guildStorageStep db w (.quit a) = { storageGuildStorageQuit w sd with
        world := { (storageGuildStorageQuit w sd).world with
          players := Function.update (storageGuildStorageQuit w sd).world.players a none } } := by
      dsimp only [guildStorageStep, withPlayer]
      rw [hsd]
      simp [hflag]
    rw [hstep]
    exact (quit_ok h hsd hflag).2
  | _ => trivial

end Steps

theorem guildStorageOk_start (sent : Int → Storage maxGuildStorage) :
    GuildStorageOk (guildStorageStart sent) where
  ids a sd hsd := by cases hsd
  users a sd hsd := by cases hsd
  opened g hmem := by cases hmem
  known g hmem := by cases hmem
  asked ans hans := by cases hans

/-- **The storages of guilds are saved.** In every run from the start of the map server, whatever
the members of the guilds open, move, close or leave, the end of a session leaves the char-server
with the contents that are in memory, up to the order of the slots. -/
theorem guildStorage_saved (db : ItemDb) (sent : Int → Storage maxGuildStorage)
    (es : List GuildStorageEvent) :
    Run.Meets (guildStorageStep db) (GuildStorageSaved db) (guildStorageStart sent) es := by
  have hall : Run.Meets (guildStorageStep db) (fun _ _ => True) (guildStorageStart sent) es :=
    Run.meets_of_forall (fun _ _ => trivial) _ _
  exact Run.meets_of_inv (I := GuildStorageOk) (fun _ e h _ => guildStorageOk_step h e)
    (fun _ e h _ => h.saved e) (guildStorageOk_start sent) hall

end Nezumi
