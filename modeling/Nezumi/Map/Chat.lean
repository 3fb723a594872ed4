import Nezumi.Common.Mmo
import Mathlib.Logic.Function.Basic

/-!
# Chat rooms (`map/chat.c`)

A room is an object of the map-server with a table of 20 places for its players. The owner of a
player's room is whoever is in the first place, as `owner` points to it.

* `chatCreatechat`, `chatJoinchat`, `chatLeavechat`, `chatChangechatowner`, `chatChangechatstatus` and
  `chatKickchat` are what the players do.
* `chatCreatenpcchat`, `chatNpckickall` and `chatDeletenpcchat` are what the scripts do.
* `mapAddobject` and `mapDelobject` keep the table of the objects.

What is undefined in the source, a write outside of the table or a loop without an end, is `none`.
The packets to the clients and the events of the rooms are left out.
-/

namespace Nezumi

/-- `MAX_FLOORITEM`, the size of `object`. -/
def maxFlooritem : Nat := 500000

/-- The places of `usersd`. -/
def usersdSize : Nat := 20

/-- What `owner` points to: the first place of the table, or `owner_`, which has an NPC. -/
inductive ChatOwner
  | first
  | npc (nd : Nat)
deriving DecidableEq

/-- `struct chat_data` -/
structure ChatData where
  pass : CStr 8 := default
  title : CStr 60 := default
  limit : UInt8
  users : Nat
  pub : UInt8
  usersd : Nat → Option Nat := fun _ => none
  owner : ChatOwner
  m : Int
  x : Int
  y : Int

/-- An object of the map-server: a room or something else. -/
inductive MapObject
  | other
  | chat (cd : ChatData)

/-- What the rooms need of `struct map_session_data`. -/
structure ChatPlayer where
  chatID : Int := 0
  name : CStr 24 := default
  vender : Bool := false
  m : Int := 0
  x : Int := 0
  y : Int := 0

/-- What the rooms need of `struct npc_data`. -/
structure ChatNpc where
  chatId : Int := 0
  m : Int := 0
  x : Int := 0
  y : Int := 0

/-- The players, the NPCs and the objects. -/
structure ChatWorld where
  player : Nat → ChatPlayer := fun _ => {}
  npc : Nat → ChatNpc := fun _ => {}
  object : Nat → Option MapObject := fun _ => none
  firstFreeObjectId : Nat := 2

/-! ## Objects -/

/-- The first free place from `i` on, `n` places far. -/
def freeObject (object : Nat → Option MapObject) : Nat → Nat → Option Nat
  | 0, _ => none
  | n + 1, i => if (object i).isNone then some i else freeObject object n (i + 1)

/-- `map_addobject`. No place is 0 in the source. -/
def mapAddobject (w : ChatWorld) (obj : MapObject) : Option (Nat × ChatWorld) :=
  let first := if w.firstFreeObjectId < 2 ∨ w.firstFreeObjectId ≥ maxFlooritem then 2
    else w.firstFreeObjectId
  (freeObject w.object (maxFlooritem - first) first).map fun i =>
    (i, { w with firstFreeObjectId := i, object := Function.update w.object i (some obj) })

/-- `map_delobject` -/
def mapDelobject (w : ChatWorld) (id : Nat) : ChatWorld :=
  if (w.object id).isNone then w
  else { w with
    object := Function.update w.object id none
    firstFreeObjectId := if w.firstFreeObjectId > id then id else w.firstFreeObjectId }

/-- The room that `map_id2bl` finds. -/
def ChatWorld.chat (w : ChatWorld) (id : Int) : Option ChatData :=
  if 0 ≤ id ∧ id < maxFlooritem then
    match w.object id.toNat with
    | some (.chat cd) => some cd
    | _ => none
  else none

def ChatWorld.setChat (w : ChatWorld) (id : Int) (cd : ChatData) : ChatWorld :=
  { w with object := Function.update w.object id.toNat (some (.chat cd)) }

/-- `pc_setchatid` -/
def pcSetchatid (w : ChatWorld) (sd : Nat) (id : Int) : ChatWorld :=
  { w with player := Function.update w.player sd { w.player sd with chatID := id } }

/-! ## Players -/

/-- The parameters of a room that a client sends. -/
structure ChatParams where
  limit : Nat
  pub : UInt8
  pass : CStr 8
  title : CStr 60

/-- `chat_createchat` -/
def chatCreatechat (w : ChatWorld) (sd : Nat) (p : ChatParams) : ChatWorld :=
  if (w.player sd).chatID ≠ 0 then w
  else
    match mapAddobject w (.chat
      { limit := UInt8.ofNat p.limit
        pub := p.pub
        users := 1
        pass := p.pass
        title := p.title
        owner := .first
        usersd := Function.update (fun _ => none) 0 (some sd)
        m := (w.player sd).m
        x := (w.player sd).x
        y := (w.player sd).y }) with
    | none => w
    | some (id, w) => pcSetchatid w sd id

/-- The tests of `chat_joinchat`. -/
def ChatData.lets (cd : ChatData) (sd : ChatPlayer) (chatid : Int) (pass : CStr 8) : Bool :=
  cd.m = sd.m && cd.limit.toNat > cd.users && (cd.pub ≠ 0 || pass = cd.pass) && !sd.vender &&
    chatid ≠ sd.chatID

/-- `chat_joinchat` -/
def chatJoinchat (w : ChatWorld) (sd : Nat) (chatid : Int) (pass : CStr 8) : Option ChatWorld :=
  match w.chat chatid with
  | none => some w
  | some cd =>
    if cd.lets (w.player sd) chatid pass then
      if cd.users < usersdSize then
        some (pcSetchatid (w.setChat chatid
          { cd with
            usersd := Function.update cd.usersd cd.users (some sd)
            users := cd.users + 1 }) sd chatid)
      else none
    else some w

/-- The place of a player in a room. -/
def ChatData.place (cd : ChatData) (sd : Nat) : Option Nat :=
  (List.range cd.users).find? fun i => cd.usersd i = some sd

/-- The players behind a place move up. -/
def ChatData.close (cd : ChatData) (leavechar : Nat) : ChatData :=
  { cd with
    users := cd.users - 1
    usersd := fun i =>
      if leavechar ≤ i ∧ i < cd.users - 1 then cd.usersd (i + 1) else cd.usersd i }

/-- `chat_leavechat`. Where the type of the owner is looked at, the first place has a player. -/
def chatLeavechat (w : ChatWorld) (sd : Nat) : Option ChatWorld :=
  let id := (w.player sd).chatID
  match w.chat id with
  | none => some w
  | some cd =>
    match cd.place sd with
    | none => some w
    | some leavechar =>
      let w := pcSetchatid w sd 0
      if cd.users - 1 = 0 ∧ cd.owner = .first then some (mapDelobject w id.toNat)
      else
        let cd := cd.close leavechar
        if leavechar = 0 ∧ cd.owner = .first then
          (cd.usersd 0).map fun sd' =>
            w.setChat id { cd with x := (w.player sd').x, y := (w.player sd').y }
        else some (w.setChat id cd)

/-- A player owns a room. -/
def ChatData.ownedBy (cd : ChatData) (sd : Nat) : Bool :=
  cd.owner = .first && cd.usersd 0 = some sd

/-- The first player of some name from place `i` on. -/
def ChatWorld.named (w : ChatWorld) (cd : ChatData) (i : Nat) (name : CStr 24) : Option Nat :=
  (List.range cd.users).find? fun k =>
    i ≤ k && (cd.usersd k).any fun sd => (w.player sd).name = name

/-- `chat_changechatowner` -/
def chatChangechatowner (w : ChatWorld) (sd : Nat) (nextownername : CStr 24) : ChatWorld :=
  let id := (w.player sd).chatID
  match w.chat id with
  | none => w
  | some cd =>
    if cd.ownedBy sd then
      match w.named cd 1 nextownername with
      | none => w
      | some nextowner =>
        match cd.usersd nextowner with
        | none => w
        | some sd' => w.setChat id
          { cd with
            usersd := Function.update (Function.update cd.usersd 0 (some sd')) nextowner (some sd)
            x := (w.player sd').x
            y := (w.player sd').y }
    else w

/-- `chat_changechatstatus`, with the test for bad words. -/
def chatChangechatstatus (checkBadWord : CStr 60 → Bool) (w : ChatWorld) (sd : Nat)
    (p : ChatParams) : ChatWorld :=
  let id := (w.player sd).chatID
  match w.chat id with
  | none => w
  | some cd =>
    if cd.ownedBy sd then
      if checkBadWord p.title then w
      else w.setChat id
        { cd with limit := UInt8.ofNat p.limit, pub := p.pub, pass := p.pass, title := p.title }
    else w

/-- `chat_kickchat` -/
def chatKickchat (w : ChatWorld) (sd : Nat) (kickusername : CStr 24) : Option ChatWorld :=
  match w.chat (w.player sd).chatID with
  | none => some w
  | some cd =>
    if cd.ownedBy sd then
      match (w.named cd 0 kickusername).bind cd.usersd with
      | none => some w
      | some sd' => chatLeavechat w sd'
    else some w

/-! ## NPCs -/

/-- `chat_createnpcchat` -/
def chatCreatenpcchat (w : ChatWorld) (nd : Nat) (limit pub : Int) (title : CStr 60) : ChatWorld :=
  match mapAddobject w (.chat
    { limit := UInt8.ofInt limit
      pub := UInt8.ofInt pub
      users := 0
      title := title
      owner := .npc nd
      m := (w.npc nd).m
      x := (w.npc nd).x
      y := (w.npc nd).y }) with
  | none => w
  | some (id, w) => { w with npc := Function.update w.npc nd { w.npc nd with chatId := id } }

/-- The loop of `chat_npckickall`. Every round takes a player off, or the loop has no end: the number
of the players and one more round are fuel enough. -/
def kickLoop (id : Int) : Nat → ChatWorld → Option ChatWorld
  | 0, _ => none
  | fuel + 1, w =>
    match w.chat id with
    | none => none
    | some cd =>
      if cd.users > 0 then
        match cd.usersd (cd.users - 1) with
        | none => none
        | some sd => (chatLeavechat w sd).bind (kickLoop id fuel)
      else some w

/-- `chat_npckickall`, for the room of an NPC. -/
def chatNpckickall (w : ChatWorld) (nd : Nat) : Option ChatWorld :=
  match w.chat (w.npc nd).chatId with
  | none => some w
  | some cd => kickLoop (w.npc nd).chatId (cd.users + 1) w

/-- `chat_deletenpcchat` -/
def chatDeletenpcchat (w : ChatWorld) (nd : Nat) : Option ChatWorld :=
  match w.chat (w.npc nd).chatId with
  | none => some w
  | some _ => (chatNpckickall w nd).map fun w' =>
    { mapDelobject w' (w.npc nd).chatId.toNat with
      npc := Function.update w'.npc nd { w'.npc nd with chatId := 0 } }

/-- What can happen to the rooms. -/
inductive ChatEvent
  | create (sd : Nat) (p : ChatParams)
  | join (sd : Nat) (chatid : Int) (pass : CStr 8)
  | leave (sd : Nat)
  | changeOwner (sd : Nat) (name : CStr 24)
  | changeStatus (sd : Nat) (p : ChatParams)
  | kick (sd : Nat) (name : CStr 24)
  | createNpc (nd : Nat) (limit pub : Int) (title : CStr 60)
  | kickAll (nd : Nat)
  | deleteNpc (nd : Nat)
  /-- A player is somewhere else, or has a shop. -/
  | move (sd : Nat) (vender : Bool) (m x y : Int)
  /-- An object that is no room comes or goes. -/
  | addOther
  | delOther (id : Nat)

def chatRun (checkBadWord : CStr 60 → Bool) (w : ChatWorld) : ChatEvent → Option ChatWorld
  | .create sd p => some (chatCreatechat w sd p)
  | .join sd chatid pass => chatJoinchat w sd chatid pass
  | .leave sd => chatLeavechat w sd
  | .changeOwner sd name => some (chatChangechatowner w sd name)
  | .changeStatus sd p => some (chatChangechatstatus checkBadWord w sd p)
  | .kick sd name => chatKickchat w sd name
  | .createNpc nd limit pub title => some (chatCreatenpcchat w nd limit pub title)
  | .kickAll nd => chatNpckickall w nd
  | .deleteNpc nd => chatDeletenpcchat w nd
  | .move sd vender m x y =>
    let player := { w.player sd with vender := vender, m := m, x := x, y := y }
    some { w with player := Function.update w.player sd player }
  | .addOther => some (((mapAddobject w .other).map Prod.snd).getD w)
  | .delOther id =>
    match w.object id with
    | some .other => some (mapDelobject w id)
    | _ => some w

end Nezumi
