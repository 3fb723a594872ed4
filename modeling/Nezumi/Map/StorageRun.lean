import Nezumi.Map.StorageLemmas
import Nezumi.Lib.Run
import Mathlib.Algebra.BigOperators.Group.Finset.Basic

/-!
# Moves between the containers of a map server (`map/storage.c`, `map/pc.c`, `map/clif.c`)

* `Container`: the inventories and the carts of the players, the storages of the accounts and those
  of the guilds.
* `StorageWorldOk`: the slots are in range, and the weights and the numbers of used slots are those of the
  slots.
* `Transferred`: units of one item identity leave a container and reach another one.
* `storageStep_moves`: every move of a client does nothing, or transfers.
* `storageRun_conserves`: so in every run, whatever the clients send.
-/

namespace Nezumi

/-- Where items can be. -/
inductive Container
  | inventory (id : Int)
  | cart (id : Int)
  | storage (id : Int)
  | guildStorage (guildId : Int)
deriving DecidableEq

/-- A part of a player. -/
def Part.of (id : Int) : Part → Container
  | .inventory => .inventory id
  | .cart => .cart id

/-- What a container holds, by a count of units. -/
def holds (w : StorageWorld) (f : Identity → ℤ) : Container → ℤ
  | .inventory id => (w.players id).elim 0 fun sd => partWorth f sd .inventory
  | .cart id => (w.players id).elim 0 fun sd => partWorth f sd .cart
  | .storage id => worth f (w.storage id).slots
  | .guildStorage g => worth f (w.guildStorage g).slots

/-- The units of an item identity in a container. -/
def contents (w : StorageWorld) (c : Container) (k : Identity) : ℤ := holds w (ofIdentity k) c

/-- The six packets that move items. -/
inductive MoveKind
  | putItemToCart
  | getItemFromCart
  | moveToKafra
  | moveFromKafra
  | moveToKafraFromCart
  | moveFromKafraToCart

/-- The container that the storage window of a player shows. -/
def kafra (sd : MapSessionData) : Container :=
  if sd.storageFlag then .guildStorage sd.guildId else .storage sd.id

/-- Where a move takes items from, and where to. -/
def MoveKind.ends (sd : MapSessionData) : MoveKind → Container × Container
  | .putItemToCart => (.inventory sd.id, .cart sd.id)
  | .getItemFromCart => (.cart sd.id, .inventory sd.id)
  | .moveToKafra => (.inventory sd.id, kafra sd)
  | .moveFromKafra => (kafra sd, .inventory sd.id)
  | .moveToKafraFromCart => (.cart sd.id, kafra sd)
  | .moveFromKafraToCart => (kafra sd, .cart sd.id)

/-- The handler of a packet. -/
def clifParseMove (conf : StorageConf) (db : ItemDb) (w : StorageWorld) (sd : MapSessionData)
    (index : UInt16) (amount : Int32) : MoveKind → StorageWorld
  | .putItemToCart => clifParsePutItemToCart conf db w sd index amount
  | .getItemFromCart => clifParseGetItemFromCart db w sd index amount
  | .moveToKafra => clifParseMoveToKafra db w sd index amount
  | .moveFromKafra => clifParseMoveFromKafra db w sd index amount
  | .moveToKafraFromCart => clifParseMoveToKafraFromCart db w sd index amount
  | .moveFromKafraToCart => clifParseMoveFromKafraToCart db w sd index amount

/-- What can happen: a client sends a move, with any index and amount, or what the handlers look at
changes. -/
inductive StorageEvent
  | move (kind : MoveKind) (id : Int) (index : UInt16) (amount : Int32)
  | session (id npcId venderId tradePartner gmLevel : Int) (storageFlag : Bool)
  | status (id : Int) (storageStatus : Nat)
  | guildStatus (guildId : Int) (storageStatus : Nat)
  | guild (guildId : Int) (found : Bool)

def storageStep (conf : StorageConf) (db : ItemDb) (w : StorageWorld) :
    StorageEvent → StorageWorld
  | .move kind id index amount =>
    match w.players id with
    | none => w
    | some sd => clifParseMove conf db w sd index amount kind
  | .session id npcId venderId tradePartner gmLevel storageFlag =>
    match w.players id with
    | none => w
    | some sd =>
      { w with
        players := w.players.set
          { sd with
            npcId := npcId
            venderId := venderId
            tradePartner := tradePartner
            gmLevel := gmLevel
            storageFlag := storageFlag } }
  | .status id n =>
    { w with
      storage := Function.update w.storage id { w.storage id with storageStatus := n } }
  | .guildStatus g n =>
    { w with
      guildStorage :=
        Function.update w.guildStorage g { w.guildStorage g with storageStatus := n } }
  | .guild g found => { w with guild := Function.update w.guild g found }

/-- The belongings are in order. -/
structure StorageWorldOk (db : ItemDb) (w : StorageWorld) : Prop where
  player : ∀ id sd, w.players id = some sd → sd.id = id ∧ PlayerStock db sd
  storage : ∀ id, StorageOk (w.storage id)
  guildStorage : ∀ g, StorageOk (w.guildStorage g)

/-- `q` units of `k` have left a container and reached another one, and nothing else has moved. -/
def Flow (w w' : StorageWorld) (src dst : Container) (k : Identity) (q : Int) : Prop :=
  ∀ f c, holds w' f c =
    holds w f c + (if c = dst then q * f k else 0) - if c = src then q * f k else 0

/-- One container has lost what another one has gained, and no other one has changed. -/
def Transferred (w w' : StorageWorld) (src dst : Container) : Prop :=
  ∃ k q, 1 ≤ q ∧ Flow w w' src dst k q

/-- A move is refused, and nothing has changed, or it goes where it should. -/
def MoveOk (conf : StorageConf) (db : ItemDb) (w : StorageWorld) : StorageEvent → Prop
  | .move kind id index amount => ∀ sd, w.players id = some sd →
    clifParseMove conf db w sd index amount kind = w ∨
      Transferred w (clifParseMove conf db w sd index amount kind) (kind.ends sd).1
        (kind.ends sd).2
  | _ => True

/-- The containers that the players can reach are among these. -/
def Covers (cs : Finset Container) (w : StorageWorld) : Prop :=
  ∀ id sd, w.players id = some sd →
    {.inventory id, .cart id, .storage id, .guildStorage sd.guildId} ⊆ cs

section Steps

variable {conf : StorageConf} {db : ItemDb} {w : StorageWorld} {sd sd' : MapSessionData} {id : Int}

/-- What a move leaves to the run: the belongings in order, and the players who they were. -/
structure MoveKeeps (db : ItemDb) (w w' : StorageWorld) : Prop where
  ok : StorageWorldOk db w'
  players : ∀ id sd', w'.players id = some sd' → ∃ sd, w.players id = some sd ∧
    sd'.guildId = sd.guildId

theorem MoveKeeps.refl (h : StorageWorldOk db w) : MoveKeeps db w w := ⟨h, fun _ sd hsd => ⟨sd, hsd, rfl⟩⟩

theorem players_set_self (hsd : w.players sd.id = some sd) : w.players.set sd = w.players := by
  unfold Players.set
  rw [← hsd]
  exact Function.update_eq_self _ _

theorem players_set {i : Int} {s : MapSessionData} (hs : w.players.set sd' i = some s) :
    i = sd'.id ∧ s = sd' ∨ i ≠ sd'.id ∧ w.players i = some s := by
  unfold Players.set at hs
  rcases eq_or_ne i sd'.id with rfl | hi
  · rw [Function.update_self] at hs
    exact .inl ⟨rfl, (Option.some.inj hs).symm⟩
  · rw [Function.update_of_ne hi] at hs
    exact .inr ⟨hi, hs⟩

/-- One player, and perhaps its storage, have changed. -/
theorem StorageWorldOk.keeps (h : StorageWorldOk db w) (hsd : w.players sd.id = some sd)
    (hsame : SamePlayer sd sd') (hstock : PlayerStock db sd')
    {storage : Int → Storage maxStorage} {guildStorage : Int → Storage maxGuildStorage}
    (hstorage : ∀ i, StorageOk (storage i)) (hguild : ∀ g, StorageOk (guildStorage g)) :
    MoveKeeps db w { w with
      players := w.players.set sd', storage := storage, guildStorage := guildStorage } := by
  refine ⟨⟨fun i s hs => ?_, hstorage, hguild⟩, fun i s hs => ?_⟩
  · obtain ⟨rfl, rfl⟩ | ⟨-, hs⟩ := players_set hs
    · exact ⟨rfl, hstock⟩
    · exact h.player i s hs
  · obtain ⟨rfl, rfl⟩ | ⟨-, hs⟩ := players_set hs
    · exact ⟨sd, by rw [hsame.id]; exact hsd, hsame.guildId⟩
    · exact ⟨s, hs, rfl⟩

theorem storageOk_update {n : ℕ} {stors : Int → Storage n} {stor : Storage n} {i : Int}
    (h : ∀ j, StorageOk (stors j)) (hstor : StorageOk stor) (j : Int) :
    StorageOk (Function.update stors i stor j) := by
  rcases eq_or_ne j i with rfl | hj
  · rw [Function.update_self]
    exact hstor
  · rw [Function.update_of_ne hj]
    exact h j

/-- What the players hold after one of them has changed. -/
theorem holds_set_part (hsd : w.players sd.id = some sd) (hid : sd'.id = sd.id) (f : Identity → ℤ)
    {storage : Int → Storage maxStorage} {guildStorage : Int → Storage maxGuildStorage} (i : Int)
    (p : Part) :
    holds { w with players := w.players.set sd', storage := storage, guildStorage := guildStorage } f
        (p.of i) =
      holds w f (p.of i) + if i = sd.id then partWorth f sd' p - partWorth f sd p else 0 := by
  rcases eq_or_ne i sd.id with rfl | hi
  · cases p <;> simp [Part.of, holds, Players.set, hid, hsd]
  · cases p <;> simp [Part.of, holds, Players.set, hid, hi]

@[simp] theorem Part.of_inj {p p' : Part} {i j : Int} : p.of i = p'.of j ↔ i = j ∧ p = p' := by
  cases p <;> cases p' <;> simp [Part.of]

@[simp] theorem Part.of_ne_storage {p : Part} {i j : Int} : p.of i ≠ .storage j := by
  cases p <;> simp [Part.of]

@[simp] theorem Part.of_ne_guildStorage {p : Part} {i j : Int} : p.of i ≠ .guildStorage j := by
  cases p <;> simp [Part.of]

/-- **Inventory and cart of a player.** -/
theorem carried_transferred {src dst : Part} {k : Identity} {q : Int}
    (hsd : w.players sd.id = some sd) (h : Carried db sd sd' src dst k q) :
    Transferred w { w with players := w.players.set sd' } (src.of sd.id) (dst.of sd.id) := by
  have hparts (f : Identity → ℤ) (i : Int) (p : Part) :
      holds { w with players := w.players.set sd' } f (p.of i) =
        holds w f (p.of i) + (if p.of i = dst.of sd.id then q * f k else 0) -
          if p.of i = src.of sd.id then q * f k else 0 := by
    refine (holds_set_part hsd h.same.id f i p).trans ?_
    rw [h.worth f p]
    by_cases hi : i = sd.id <;> simp [hi]
    ring
  refine ⟨k, q, h.pos, fun f c => ?_⟩
  cases c with
  | inventory i => exact hparts f i .inventory
  | cart i => exact hparts f i .cart
  | storage i =>
    rw [if_neg Part.of_ne_storage.symm, if_neg Part.of_ne_storage.symm]
    simp [holds]
  | guildStorage g =>
    rw [if_neg Part.of_ne_guildStorage.symm, if_neg Part.of_ne_guildStorage.symm]
    simp [holds]

theorem carried_keeps (h : StorageWorldOk db w) (hsd : w.players sd.id = some sd) {src dst : Part}
    {k : Identity} {q : Int} (hc : Carried db sd sd' src dst k q) :
    MoveKeeps db w { w with players := w.players.set sd' } :=
  h.keeps hsd hc.same hc.player h.storage h.guildStorage

theorem Flow.swap {w' : StorageWorld} {src dst : Container} {k : Identity} {q : Int}
    (h : Flow w w' src dst k (-q)) : Flow w w' dst src k q := by
  intro f c
  rw [h f c]
  split <;> split <;> ring

/-- **The storage of an account and a part of its player.** -/
theorem stored_flow {r : Storage maxStorage × MapSessionData} {p : Part} {k : Identity} {q : Int}
    (hsd : w.players sd.id = some sd) (h : Stored db (w.storage sd.id) sd r p k q) :
    Flow w { w with
      players := w.players.set r.2, storage := Function.update w.storage sd.id r.1 }
      (p.of sd.id) (.storage sd.id) k q := by
  have hparts (f : Identity → ℤ) (i : Int) (p' : Part) :
      holds { w with
        players := w.players.set r.2, storage := Function.update w.storage sd.id r.1 } f (p'.of i) =
        holds w f (p'.of i) - if p'.of i = p.of sd.id then q * f k else 0 := by
    refine (holds_set_part hsd h.same.id f i p').trans ?_
    rw [h.part f p']
    by_cases hi : i = sd.id <;> by_cases hp : p' = p <;> simp [hi, hp]
    ring
  intro f c
  cases c with
  | inventory i =>
    rw [if_neg (show Container.inventory i ≠ .storage sd.id from nofun), add_zero]
    exact hparts f i .inventory
  | cart i =>
    rw [if_neg (show Container.cart i ≠ .storage sd.id from nofun), add_zero]
    exact hparts f i .cart
  | storage i =>
    rw [if_neg Part.of_ne_storage.symm, sub_zero]
    rcases eq_or_ne i sd.id with rfl | hi
    · simpa [holds] using h.shift f
    · simp [holds, hi]
  | guildStorage g =>
    rw [if_neg Part.of_ne_guildStorage.symm]
    simp [holds]

/-- **The storage of a guild and a part of a player.** -/
theorem guildStored_flow {r : Storage maxGuildStorage × MapSessionData} {p : Part} {k : Identity}
    {q : Int} (hsd : w.players sd.id = some sd)
    (h : Stored db (w.guildStorage sd.guildId) sd r p k q) :
    Flow w { w with
      players := w.players.set r.2
      guildStorage := Function.update w.guildStorage sd.guildId r.1 }
      (p.of sd.id) (.guildStorage sd.guildId) k q := by
  have hparts (f : Identity → ℤ) (i : Int) (p' : Part) :
      holds { w with
        players := w.players.set r.2
        guildStorage := Function.update w.guildStorage sd.guildId r.1 } f (p'.of i) =
        holds w f (p'.of i) - if p'.of i = p.of sd.id then q * f k else 0 := by
    refine (holds_set_part hsd h.same.id f i p').trans ?_
    rw [h.part f p']
    by_cases hi : i = sd.id <;> by_cases hp : p' = p <;> simp [hi, hp]
    ring
  intro f c
  cases c with
  | inventory i =>
    rw [if_neg (show Container.inventory i ≠ .guildStorage sd.guildId from nofun), add_zero]
    exact hparts f i .inventory
  | cart i =>
    rw [if_neg (show Container.cart i ≠ .guildStorage sd.guildId from nofun), add_zero]
    exact hparts f i .cart
  | storage i =>
    rw [if_neg Part.of_ne_storage.symm]
    simp [holds]
  | guildStorage g =>
    rw [if_neg Part.of_ne_guildStorage.symm, sub_zero]
    rcases eq_or_ne g sd.guildId with rfl | hg
    · simpa [holds] using h.shift f
    · simp [holds, hg]

/-- What a step keeps, and where its items go. -/
structure Moves (db : ItemDb) (w w' : StorageWorld) (src dst : Container) : Prop where
  keeps : MoveKeeps db w w'
  ends : w' = w ∨ Transferred w w' src dst

theorem Moves.refused (h : StorageWorldOk db w) (src dst : Container) : Moves db w w src dst :=
  ⟨.refl h, .inl rfl⟩

/-- A move with the storage of an account, from what it does to the two tables. -/
theorem withStorage_moves (h : StorageWorldOk db w) (hsd : w.players sd.id = some sd)
    {f : Storage maxStorage → MapSessionData → Storage maxStorage × MapSessionData} {p : Part}
    {src dst : Container}
    (hf : f (w.storage sd.id) sd = (w.storage sd.id, sd) ∨
      (∃ k q, 1 ≤ q ∧ Stored db (w.storage sd.id) sd (f (w.storage sd.id) sd) p k q ∧
        src = p.of sd.id ∧ dst = .storage sd.id) ∨
      ∃ k q, 1 ≤ q ∧ Stored db (w.storage sd.id) sd (f (w.storage sd.id) sd) p k (-q) ∧
        src = .storage sd.id ∧ dst = p.of sd.id) :
    Moves db w (withStorage w sd f) src dst := by
  unfold withStorage
  dsimp only
  obtain hf | ⟨k, q, hq, hs, rfl, rfl⟩ | ⟨k, q, hq, hs, rfl, rfl⟩ := hf
  · rw [hf, players_set_self hsd, Function.update_eq_self]
    exact .refused h _ _
  · exact ⟨h.keeps hsd hs.same hs.player (storageOk_update h.storage hs.storage) h.guildStorage,
      .inr ⟨k, q, hq, stored_flow hsd hs⟩⟩
  · exact ⟨h.keeps hsd hs.same hs.player (storageOk_update h.storage hs.storage) h.guildStorage,
      .inr ⟨k, q, hq, (stored_flow hsd hs).swap⟩⟩

/-- A move with the storage of a guild, from what it does to the two tables. -/
theorem withGuildStorage_moves (h : StorageWorldOk db w) (hsd : w.players sd.id = some sd)
    {f : Storage maxGuildStorage → MapSessionData → Storage maxGuildStorage × MapSessionData}
    {p : Part} {src dst : Container}
    (hf : f (w.guildStorage sd.guildId) sd = (w.guildStorage sd.guildId, sd) ∨
      (∃ k q, 1 ≤ q ∧
        Stored db (w.guildStorage sd.guildId) sd (f (w.guildStorage sd.guildId) sd) p k q ∧
        src = p.of sd.id ∧ dst = .guildStorage sd.guildId) ∨
      ∃ k q, 1 ≤ q ∧
        Stored db (w.guildStorage sd.guildId) sd (f (w.guildStorage sd.guildId) sd) p k (-q) ∧
        src = .guildStorage sd.guildId ∧ dst = p.of sd.id) :
    Moves db w (withGuildStorage w sd f) src dst := by
  unfold withGuildStorage
  split
  swap
  · exact .refused h _ _
  dsimp only
  obtain hf | ⟨k, q, hq, hs, rfl, rfl⟩ | ⟨k, q, hq, hs, rfl, rfl⟩ := hf
  · rw [hf, players_set_self hsd, Function.update_eq_self]
    exact .refused h _ _
  · exact ⟨h.keeps hsd hs.same hs.player h.storage (storageOk_update h.guildStorage hs.storage),
      .inr ⟨k, q, hq, guildStored_flow hsd hs⟩⟩
  · exact ⟨h.keeps hsd hs.same hs.player h.storage (storageOk_update h.guildStorage hs.storage),
      .inr ⟨k, q, hq, (guildStored_flow hsd hs).swap⟩⟩

/-- A step between inventory and cart, from what it does to the player. -/
theorem carried_moves (h : StorageWorldOk db w) (hsd : w.players sd.id = some sd) {src dst : Part}
    (hc : sd' = sd ∨ ∃ k q, Carried db sd sd' src dst k q) :
    Moves db w { w with players := w.players.set sd' } (src.of sd.id) (dst.of sd.id) := by
  obtain rfl | ⟨k, q, hc⟩ := hc
  · rw [players_set_self hsd]
    exact .refused h _ _
  · exact ⟨carried_keeps h hsd hc, .inr (carried_transferred hsd hc)⟩

/-- **A move of a client**, with any index and amount. -/
theorem clifParseMove_moves (conf : StorageConf) (h : StorageWorldOk db w) (hsd : w.players sd.id = some sd) (index : UInt16)
    (amount : Int32) (kind : MoveKind) :
    Moves db w (clifParseMove conf db w sd index amount kind) (kind.ends sd).1
      (kind.ends sd).2 := by
  have hstock := (h.player _ sd hsd).2
  cases kind with
  | putItemToCart =>
    dsimp only [clifParseMove, clifParsePutItemToCart, MoveKind.ends]
    split
    · exact .refused h _ _
    · exact carried_moves h hsd (pcPutitemtocart_moves conf hstock _ _)
  | getItemFromCart =>
    dsimp only [clifParseMove, clifParseGetItemFromCart, MoveKind.ends]
    split
    · exact .refused h _ _
    · exact carried_moves h hsd (pcGetitemfromcart_moves hstock _ _)
  | moveToKafra =>
    dsimp only [clifParseMove, clifParseMoveToKafra, MoveKind.ends, kafra]
    split
    · exact .refused h _ _
    split
    · exact .refused h _ _
    rename_i i _
    split
    · exact .refused h _ _
    rename_i hamount
    split
    · exact .refused h _ _
    have hle : amount.toInt ≤ (sd.inventory i).amount.toInt := by omega
    split
    · refine withGuildStorage_moves (p := .inventory) h hsd ?_
      refine (storAdd_moves (h.guildStorage sd.guildId) hstock i hle).imp id fun ⟨k, q, hq, hs⟩ => ?_
      exact .inl ⟨k, q, hq, hs, rfl, rfl⟩
    · refine withStorage_moves (p := .inventory) h hsd ?_
      refine (storAdd_moves (h.storage sd.id) hstock i hle).imp id fun ⟨k, q, hq, hs⟩ => ?_
      exact .inl ⟨k, q, hq, hs, rfl, rfl⟩
  | moveFromKafra =>
    dsimp only [clifParseMove, clifParseMoveFromKafra, MoveKind.ends, kafra]
    split
    · exact .refused h _ _
    split
    · split
      · exact .refused h _ _
      rename_i i _
      split
      · exact .refused h _ _
      refine withGuildStorage_moves (p := .inventory) h hsd ?_
      refine (storGet_moves (h.guildStorage sd.guildId) hstock i _).imp id fun ⟨k, q, hq, hs⟩ => ?_
      exact .inr ⟨k, q, hq, hs, rfl, rfl⟩
    · split
      · exact .refused h _ _
      rename_i i _
      split
      · exact .refused h _ _
      refine withStorage_moves (p := .inventory) h hsd ?_
      refine (storGet_moves (h.storage sd.id) hstock i _).imp id fun ⟨k, q, hq, hs⟩ => ?_
      exact .inr ⟨k, q, hq, hs, rfl, rfl⟩
  | moveToKafraFromCart =>
    dsimp only [clifParseMove, clifParseMoveToKafraFromCart, MoveKind.ends, kafra]
    split
    · exact .refused h _ _
    split
    · refine withGuildStorage_moves (p := .cart) h hsd ?_
      refine (storAddfromcart_moves (h.guildStorage sd.guildId) hstock _ _).imp id
        fun ⟨k, q, hq, hs⟩ => ?_
      exact .inl ⟨k, q, hq, hs, rfl, rfl⟩
    · refine withStorage_moves (p := .cart) h hsd ?_
      refine (storAddfromcart_moves (h.storage sd.id) hstock _ _).imp id fun ⟨k, q, hq, hs⟩ => ?_
      exact .inl ⟨k, q, hq, hs, rfl, rfl⟩
  | moveFromKafraToCart =>
    dsimp only [clifParseMove, clifParseMoveFromKafraToCart, MoveKind.ends, kafra]
    split
    · exact .refused h _ _
    split
    · refine withGuildStorage_moves (p := .cart) h hsd ?_
      refine (storGettocart_moves (h.guildStorage sd.guildId) hstock _ _).imp id
        fun ⟨k, q, hq, hs⟩ => ?_
      exact .inr ⟨k, q, hq, hs, rfl, rfl⟩
    · refine withStorage_moves (p := .cart) h hsd ?_
      refine (storGettocart_moves (h.storage sd.id) hstock _ _).imp id fun ⟨k, q, hq, hs⟩ => ?_
      exact .inr ⟨k, q, hq, hs, rfl, rfl⟩

/-- **The step lemma.** -/
theorem storageStep_keeps (conf : StorageConf) (h : StorageWorldOk db w) (e : StorageEvent) :
    MoveKeeps db w (storageStep conf db w e) := by
  cases e with
  | move kind id index amount =>
    dsimp only [storageStep]
    cases hsd : w.players id with
    | none => exact .refl h
    | some sd =>
      obtain ⟨rfl, -⟩ := h.player id sd hsd
      exact (clifParseMove_moves conf h hsd index amount kind).keeps
  | session id npcId venderId tradePartner gmLevel storageFlag =>
    dsimp only [storageStep]
    cases hsd : w.players id with
    | none => exact .refl h
    | some sd =>
      obtain ⟨rfl, hstock⟩ := h.player id sd hsd
      have hstock' : PlayerStock db { sd with
          npcId := npcId
          venderId := venderId
          tradePartner := tradePartner
          gmLevel := gmLevel
          storageFlag := storageFlag } :=
        ⟨hstock.slots, hstock.inventory, hstock.cart, hstock.weight, hstock.cartWeight,
          hstock.cartNum⟩
      refine h.keeps hsd ?_ hstock' h.storage h.guildStorage
      exact ⟨rfl, rfl⟩
  | status id n =>
    have hid := h.storage id
    exact ⟨⟨h.player, storageOk_update h.storage ⟨hid.slots, hid.storageAmount⟩, h.guildStorage⟩,
      fun _ sd hsd => ⟨sd, hsd, rfl⟩⟩
  | guildStatus g n =>
    have hg := h.guildStorage g
    exact ⟨⟨h.player, h.storage, storageOk_update h.guildStorage ⟨hg.slots, hg.storageAmount⟩⟩,
      fun _ sd hsd => ⟨sd, hsd, rfl⟩⟩
  | guild g found =>
    exact ⟨⟨h.player, h.storage, h.guildStorage⟩, fun _ sd hsd => ⟨sd, hsd, rfl⟩⟩

/-- **Every move does nothing, or transfers.** -/
theorem storageStep_moves (h : StorageWorldOk db w) (e : StorageEvent) : MoveOk conf db w e := by
  cases e with
  | move kind id index amount =>
    intro sd hsd
    obtain ⟨rfl, -⟩ := h.player id sd hsd
    exact (clifParseMove_moves conf h hsd index amount kind).ends
  | _ => trivial

end Steps

section Runs

variable {conf : StorageConf} {db : ItemDb} {w : StorageWorld} {cs : Finset Container}

/-- The ends of a move are covered. -/
theorem Covers.ends {sd : MapSessionData} (hcs : Covers cs w) (hsd : w.players sd.id = some sd)
    (kind : MoveKind) : (kind.ends sd).1 ∈ cs ∧ (kind.ends sd).2 ∈ cs := by
  have hsub := hcs sd.id sd hsd
  have hkafra : kafra sd ∈ cs := by
    unfold kafra
    split <;> exact hsub (by simp)
  cases kind <;> refine ⟨?_, ?_⟩ <;> first | exact hkafra | exact hsub (by simp [MoveKind.ends])

theorem MoveKeeps.covers {w' : StorageWorld} (h : MoveKeeps db w w') (hcs : Covers cs w) :
    Covers cs w' := by
  intro id sd' hsd'
  obtain ⟨sd, hsd, hguild⟩ := h.players id sd' hsd'
  rw [hguild]
  exact hcs id sd hsd

/-- A transfer between containers of a set leaves the total of the set. -/
theorem Transferred.sum {w' : StorageWorld} {src dst : Container} (h : Transferred w w' src dst)
    (hsrc : src ∈ cs) (hdst : dst ∈ cs) (f : Identity → ℤ) :
    ∑ c ∈ cs, holds w' f c = ∑ c ∈ cs, holds w f c := by
  obtain ⟨k, q, -, hflow⟩ := h
  simp only [hflow f, Finset.sum_sub_distrib, Finset.sum_add_distrib, Finset.sum_ite_eq', hsrc,
    hdst, if_true]
  ring

/-- **Every step leaves the totals.** -/
theorem storageStep_sum (h : StorageWorldOk db w) (hcs : Covers cs w) (e : StorageEvent)
    (f : Identity → ℤ) : ∑ c ∈ cs, holds (storageStep conf db w e) f c = ∑ c ∈ cs, holds w f c := by
  cases e with
  | move kind id index amount =>
    dsimp only [storageStep]
    cases hsd : w.players id with
    | none => rfl
    | some sd =>
      obtain ⟨rfl, -⟩ := h.player id sd hsd
      obtain ⟨hsrc, hdst⟩ := hcs.ends hsd kind
      obtain heq | htransfer := (clifParseMove_moves conf h hsd index amount kind).ends
      · dsimp only
        rw [heq]
      · exact htransfer.sum hsrc hdst f
  | session id npcId venderId tradePartner gmLevel storageFlag =>
    dsimp only [storageStep]
    cases hsd : w.players id with
    | none => rfl
    | some sd =>
      obtain ⟨rfl, -⟩ := h.player id sd hsd
      refine Finset.sum_congr rfl fun c _ => ?_
      cases c with
      | inventory i =>
        rcases eq_or_ne i sd.id with rfl | hi <;> simp [holds, partWorth, Players.set, *]
      | cart i =>
        rcases eq_or_ne i sd.id with rfl | hi <;> simp [holds, partWorth, Players.set, *]
      | storage i => rfl
      | guildStorage g => rfl
  | status id n =>
    refine Finset.sum_congr rfl fun c _ => ?_
    cases c with
    | storage i => rcases eq_or_ne i id with rfl | hi <;> simp [storageStep, holds, *]
    | _ => rfl
  | guildStatus g n =>
    refine Finset.sum_congr rfl fun c _ => ?_
    cases c with
    | guildStorage i => rcases eq_or_ne i g with rfl | hi <;> simp [storageStep, holds, *]
    | _ => rfl
  | guild g found =>
    refine Finset.sum_congr rfl fun c _ => ?_
    cases c <;> rfl

/-- **Moves conserve**, in every run: all the belongings stay in order, every move is refused or
goes from its one container to its other, and what all the containers hold of an identity together
stays the same. -/
theorem storageRun_conserves (conf : StorageConf) (db : ItemDb) {w : StorageWorld}
    {es : List StorageEvent} (hw : StorageWorldOk db w) :
    StorageWorldOk db (Run.exec (storageStep conf db) w es) ∧
      Run.Meets (storageStep conf db) (MoveOk conf db) w es ∧
      ∀ cs, Covers cs w → ∀ k, ∑ c ∈ cs, contents (Run.exec (storageStep conf db) w es) c k =
        ∑ c ∈ cs, contents w c k := by
  have hall : Run.Meets (storageStep conf db) (fun _ _ => True) w es :=
    Run.meets_of_forall (fun _ _ => trivial) w es
  refine ⟨?_, ?_, fun cs hcs k => ?_⟩
  · exact Run.inv_exec (I := StorageWorldOk db) (fun _ e h _ => (storageStep_keeps conf h e).ok) hw hall
  · exact Run.meets_of_inv (fun _ e h _ => (storageStep_keeps conf h e).ok)
      (fun _ e h _ => storageStep_moves h e) hw hall
  · induction es generalizing w with
    | nil => rfl
    | cons e es ih =>
      have hkeep := storageStep_keeps conf hw e
      exact (ih hkeep.ok hall.2 (hkeep.covers hcs)).trans (storageStep_sum hw hcs e (ofIdentity k))

end Runs

theorem storageOk_empty {n : ℕ} : StorageOk (n := n) {} := by
  refine ⟨fun _ => .inl ⟨rfl, rfl⟩, ?_⟩
  simp [used, Slots.card, Item.zero]

/-- A player with three red potions. -/
def potionKeeper : MapSessionData where
  id := 1
  weight := itemWeight (fun _ => none) { nameid := 501 } 3
  maxWeight := 20000
  cartMaxWeight := 8000
  inventory := slotsOf [{ nameid := 501, amount := 3, identify := true }]
  inventoryData i := if i.val = 0 then some (itemdbSearch (fun _ => none) 501) else none

def keeperWorld : StorageWorld where
  players id := if id = 1 then some potionKeeper else none

theorem keeperWorld_ok : StorageWorldOk (fun _ => none) keeperWorld := by
  refine ⟨fun id sd hsd => ?_, fun _ => storageOk_empty, fun _ => storageOk_empty⟩
  unfold keeperWorld at hsd
  dsimp only at hsd
  split at hsd
  · rename_i hid
    obtain rfl := Option.some.inj hsd
    exact ⟨hid.symm, by decide +kernel, by decide +kernel, by decide +kernel, by decide +kernel,
      by decide +kernel, by decide +kernel⟩
  · cases hsd

/-- Two potions go to the cart, one comes back, and one goes to the storage. -/
theorem storageRun_conserves_potions :
    let es : List StorageEvent := [.move .putItemToCart 1 2 2, .move .getItemFromCart 1 2 1,
      .status 1 1, .move .moveToKafra 1 2 1]
    StorageWorldOk (fun _ => none) (Run.exec (storageStep {} fun _ => none) keeperWorld es) ∧
      Run.Meets (storageStep {} fun _ => none) (MoveOk {} fun _ => none) keeperWorld es ∧
      ∀ cs, Covers cs keeperWorld → ∀ k,
        ∑ c ∈ cs, contents (Run.exec (storageStep {} fun _ => none) keeperWorld es) c k =
          ∑ c ∈ cs, contents keeperWorld c k :=
  storageRun_conserves {} (fun _ => none) keeperWorld_ok

-- The last one finds its potion in the storage.
example : ((Run.exec (storageStep {} fun _ => none) keeperWorld [.move .putItemToCart 1 2 2,
    .status 1 1, .move .moveToKafra 1 2 1]).storage 1).storageAmount = 1 := by
  decide

end Nezumi
