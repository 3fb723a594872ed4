import Nezumi.Map.Storage
import Mathlib.Data.List.OfFn

/-!
# The storages of guilds between two servers (`map/storage.c`, `map/intif.c`)

The map server asks the char-server for the storage of a guild when a member opens it for the first
time, works on its copy from then on, and sends the copy back when the member stops using it. It
does so only if the copy is marked by `modified_storage_flag`.

* `GuildStorageWorld`: the players and the copies, what the char-server was last told, and its
  answers under way.
* `StorageMove`: the moves between a player and a storage, and which of them mark it.
* `storageGuildStorageopen` to `chrifSave`: the functions of the same names, as far as they concern
  the storages of guilds.
* `guildStorageStep`: what can happen.

A mark is set by `guild_storage_delitem` itself, and for an insertion by
`clif_guildstorageitemadded`, which `guild_storage_additem` calls whenever it inserts.
-/

namespace Nezumi

variable {n : ℕ}

/-- `storage_comp_item` -/
def storageCompItem (i1 i2 : Item) : Int :=
  if i1.nameid = i2.nameid then 0
  else if i1.nameid = 0 ∨ i1.amount = 0 then 1
  else if i2.nameid = 0 ∨ i2.amount = 0 then -1
  else i1.nameid.toInt - i2.nameid.toInt

/-- The `qsort` of a table of items. -/
def sortItems (t : Fin n → Item) (i : Fin n) : Item :=
  ((List.ofFn t).mergeSort fun i1 i2 => storageCompItem i1 i2 ≤ 0).get (i.cast (by simp))

/-- `sortage_gsortitem` -/
def sortageGsortitem (gstor : Storage maxGuildStorage) : Storage maxGuildStorage :=
  { gstor with slots := sortItems gstor.slots }

/-- An answer of the char-server to a request for a storage. -/
structure GuildStorageAnswer where
  accountId : Int
  guildId : Int
  contents : Storage maxGuildStorage

/-- The map server, and what it has told the char-server. -/
structure GuildStorageWorld where
  world : StorageWorld
  /-- The guilds whose storage is in `guild_storage_db`. -/
  inMemory : Int → Bool := fun _ => false
  /-- `modified_storage_flag` -/
  modified : Int → Bool := fun _ => false
  /-- What was last sent to the char-server or loaded from it: what a restart brings back. -/
  sent : Int → Storage maxGuildStorage
  /-- The answers under way, the oldest first. -/
  answers : List GuildStorageAnswer := []

namespace GuildStorageWorld

variable (w : GuildStorageWorld) (g : Int)

/-- The copy of the storage of a guild. -/
def gstor : Storage maxGuildStorage := w.world.guildStorage g

/-- The player of an account. -/
def player (a : Int) : Option MapSessionData := w.world.players a

/-- The copy of a guild is overwritten. -/
def setGstor (stor : Storage maxGuildStorage) : GuildStorageWorld :=
  { w with
    world := { w.world with guildStorage := Function.update w.world.guildStorage g stor } }

/-- The data of a player is overwritten. -/
def setPlayer (sd : MapSessionData) : GuildStorageWorld :=
  { w with world := { w.world with players := w.world.players.set sd } }

/-- `guild2storage`, where the guild is found. A new storage is empty. -/
def create : GuildStorageWorld := { w with inMemory := Function.update w.inMemory g true }

/-- `intif_send_guild_storage`, when the storage is marked. The mark stays. -/
def sendModified : GuildStorageWorld :=
  if w.modified g then { w with sent := Function.update w.sent g (w.gstor g) } else w

end GuildStorageWorld

/-! ## Moves -/

/-- A move between a player and a storage, with what the client sends. -/
inductive StorageMove
  | add (i : Fin maxInventory) (amount : Int)
  | get (idx amount : Int)
  | addfromcart (idx amount : Int)
  | gettocart (idx amount : Int)
deriving DecidableEq

namespace StorageMove

variable (db : ItemDb)

/-- The move with the storage of the account. -/
def ofAccount (w : StorageWorld) (sd : MapSessionData) : StorageMove → StorageWorld
  | add i amount => storageStorageadd db w sd i amount
  | get idx amount =>
    match slotAt maxStorage idx with
    | none => w
    | some i => storageStorageget db w sd i amount
  | addfromcart idx amount => storageStorageaddfromcart db w sd idx amount
  | gettocart idx amount => storageStoragegettocart db w sd idx amount

/-- The move with the storage of the guild. -/
def ofGuild (w : StorageWorld) (sd : MapSessionData) : StorageMove → StorageWorld
  | add i amount => storageGuildStorageadd db w sd i amount
  | get idx amount =>
    match slotAt maxGuildStorage idx with
    | none => w
    | some i => storageGuildStorageget db w sd i amount
  | addfromcart idx amount => storageGuildStorageaddfromcart db w sd idx amount
  | gettocart idx amount => storageGuildStoragegettocart db w sd idx amount

/-- `guild_storage_additem` calls `clif_guildstorageitemadded`. -/
def additemMarks (stor : Storage maxGuildStorage) (item : Item) (amount : Int) : Bool :=
  (guildStorageAdditem db stor item amount).1 == 0

/-- `guild_storage_delitem` reaches its end. -/
def delitemMarks (stor : Storage maxGuildStorage) (i : Fin maxGuildStorage) (amount : Int) :
    Bool :=
  (guildStorageDelitem stor i amount).1 == 0

/-- The move sets `modified_storage_flag`. -/
def marks (stor : Storage maxGuildStorage) (sd : MapSessionData) : StorageMove → Bool
  | add i amount => storTakes maxGuildStorage stor && additemMarks db stor (sd.inventory i) amount
  | get idx amount => (slotAt maxGuildStorage idx).any fun i =>
    stor.storageStatus == 1 && decide (amount ≤ (stor.slots i).amount.toInt) &&
      (pcAdditem db sd (stor.slots i) amount).1 == 0 && delitemMarks stor i amount
  | addfromcart idx amount => (slotAt maxCart idx).any fun i =>
    storTakes maxGuildStorage stor && decide (amount ≤ (sd.cart i).amount.toInt) &&
      decide (amount > 0) && additemMarks db stor (sd.cart i) amount
  | gettocart idx amount => (slotAt maxGuildStorage idx).any fun i =>
    stor.storageStatus == 1 && decide (amount ≤ (stor.slots i).amount.toInt) &&
      decide (amount > 0) && (pcCartAdditem db sd (stor.slots i) amount).1 == 0 &&
      delitemMarks stor i amount

end StorageMove

section Sessions

variable (db : ItemDb) (w : GuildStorageWorld)

/-- The moves `storage_guild_storageadd` to `storage_guild_storagegettocart`, with the mark. -/
def storageGuildMove (sd : MapSessionData) (mv : StorageMove) : GuildStorageWorld :=
  let g := sd.guildId
  if w.world.guild g then
    { w.create g with
      world := mv.ofGuild db w.world sd
      modified := Function.update w.modified g (w.modified g || mv.marks db (w.gstor g) sd) }
  else w

/-- `storage_guild_storageopen` -/
def storageGuildStorageopen (sd : MapSessionData) : GuildStorageWorld :=
  let g := sd.guildId
  if g ≤ 0 then w
  else if w.inMemory g then
    if (w.gstor g).storageStatus ≠ 0 then w
    else
      (w.setGstor g { w.gstor g with storageStatus := 1 }).setPlayer { sd with storageFlag := true }
  else if w.world.guild g then
    -- The char-server answers with the contents that it was sent last.
    { (w.create g).setGstor g { w.gstor g with storageStatus := 1 } with
      answers := w.answers ++ [⟨sd.id, g, w.sent g⟩] }
  else w

/-- `intif_parse_LoadGuildStorage` -/
def intifParseLoadGuildStorage (ans : GuildStorageAnswer) : GuildStorageWorld :=
  let g := ans.guildId
  if 0 < g ∧ w.world.guild g then
    match w.player ans.accountId with
    | none => w.create g
    | some sd =>
      { ((w.create g).setGstor g { ans.contents with storageStatus := 1 }).setPlayer
          { sd with storageFlag := true } with
        modified := Function.update w.modified g false
        sent := Function.update w.sent g ans.contents }
  else w

/-- `storage_guild_storagesave` -/
def storageGuildStoragesave (sd : MapSessionData) : GuildStorageWorld :=
  if w.world.guild sd.guildId then (w.create sd.guildId).sendModified sd.guildId else w

/-- `chrif_save` -/
def chrifSave (sd : MapSessionData) : GuildStorageWorld :=
  if sd.storageFlag then storageGuildStoragesave w sd else w

/-- `storage_guild_storageclose` -/
def storageGuildStorageclose (sd : MapSessionData) : GuildStorageWorld :=
  let g := sd.guildId
  if w.world.guild g then
    let w := (w.create g).sendModified g
    let w := w.setGstor g { w.gstor g with storageStatus := 0 }
    let sd := { sd with storageFlag := false }
    let w := chrifSave (w.setPlayer sd) sd
    w.setGstor g (sortageGsortitem (w.gstor g))
  else w

/-- `storage_guild_storage_quit` -/
def storageGuildStorageQuit (sd : MapSessionData) : GuildStorageWorld :=
  let g := sd.guildId
  if w.inMemory g then
    let w := w.sendModified g
    let w := w.setGstor g { w.gstor g with storageStatus := 0 }
    let sd := { sd with storageFlag := false }
    chrifSave (w.setPlayer sd) sd
  else w

end Sessions

/-! ## Runs -/

/-- What can happen. A player of any guild comes online, opens the storage of the guild or that of
the account, moves items, closes, is saved and goes; an answer arrives; other code works on a player
or the map server gets to know a guild. -/
inductive GuildStorageEvent
  | connect (sd : MapSessionData)
  | guildopen (a : Int)
  | loaded
  | accountopen (a : Int) (stor : Storage maxStorage)
  | move (a : Int) (mv : StorageMove)
  | close (a : Int)
  | save (a : Int)
  | quit (a : Int)
  | change (a : Int) (sd : MapSessionData)
  | guild (g : Int)

/-- The answers come in order: what a player has asked for is answered before the account is let in
again. -/
def mayConnect (w : GuildStorageWorld) (a : Int) : Prop :=
  w.player a = none ∧ ∀ ans ∈ w.answers, ans.accountId ≠ a

instance (w : GuildStorageWorld) (a : Int) : Decidable (mayConnect w a) :=
  inferInstanceAs (Decidable (_ ∧ _))

/-- A player does something, if online. -/
def withPlayer (w : GuildStorageWorld) (a : Int) (f : MapSessionData → GuildStorageWorld) :
    GuildStorageWorld :=
  (w.player a).elim w f

def guildStorageStep (db : ItemDb) (w : GuildStorageWorld) : GuildStorageEvent → GuildStorageWorld
  | .connect sd => if mayConnect w sd.id then w.setPlayer { sd with storageFlag := false } else w
  | .guildopen a => withPlayer w a (storageGuildStorageopen w)
  | .loaded =>
    match w.answers with
    | [] => w
    | ans :: rest => { intifParseLoadGuildStorage w ans with answers := rest }
  | .accountopen a stor =>
    withPlayer w a fun sd =>
      { w with
        world := { w.world with
          players := w.world.players.set { sd with storageFlag := false }
          storage := Function.update w.world.storage a stor } }
  | .move a mv =>
    withPlayer w a fun sd =>
      if sd.storageFlag then storageGuildMove db w sd mv
      else { w with world := mv.ofAccount db w.world sd }
  | .close a =>
    withPlayer w a fun sd =>
      if sd.storageFlag then storageGuildStorageclose w sd
      else w.setPlayer { sd with storageFlag := false }
  | .save a => withPlayer w a (chrifSave w)
  | .quit a =>
    withPlayer w a fun sd =>
      let w := if sd.storageFlag then storageGuildStorageQuit w sd else w
      { w with world := { w.world with players := Function.update w.world.players a none } }
  | .change a sd' =>
    withPlayer w a fun sd =>
      w.setPlayer { sd' with id := sd.id, guildId := sd.guildId, storageFlag := sd.storageFlag }
  | .guild g => { w with world := { w.world with guild := Function.update w.world.guild g true } }

/-- The map server starts: nobody is online and no storage is in memory. The char-server has what it
has. -/
def guildStorageStart (sent : Int → Storage maxGuildStorage) : GuildStorageWorld where
  world := { players := fun _ => none }
  sent := sent

/-- Two storages hold the same, in some order. -/
def SameContents (s t : Storage maxGuildStorage) : Prop :=
  (List.ofFn s.slots).Perm (List.ofFn t.slots) ∧ s.storageAmount = t.storageAmount

/-- When the member who uses a storage closes it or goes, what was last sent to the char-server or
loaded from it is what is in memory. -/
def GuildStorageSaved (db : ItemDb) (w : GuildStorageWorld) (e : GuildStorageEvent) : Prop :=
  match e with
  | .close a | .quit a => ∀ sd, w.player a = some sd → sd.storageFlag →
    SameContents ((guildStorageStep db w e).gstor sd.guildId)
      ((guildStorageStep db w e).sent sd.guildId)
  | _ => True

end Nezumi
