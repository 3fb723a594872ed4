import Nezumi.Lib.Run
import Nezumi.Map.TradeLemmas

/-!
# Trades over whole runs (`map/trade.c`)

A run is a sequence of trade packets of any players, in any order, and of anything else that
changes a player's belongings in between.

* `PlayersOk` is the invariant; `playersOk_step` says that every event keeps it.
* `tradeTransfer_conserves`: a transfer never makes or loses an item, and never any zeny.
* `tradeRun_atomic`: in a run whose transfers all have room, each of them moves every offer.
* `tradeRun_not_atomic`: the stacking test of `trade_check` does not find this room.
-/

namespace Nezumi

/-- What can happen to the players. -/
inductive TradeEvent (db : ItemDb) where
  | request (id targetId : Int) (nearCheck : Bool)
  | ack (id : Int) (type : Nat)
  | additem (id idx amount : Int)
  | ok (id : Int)
  | cancel (id : Int)
  | commit (id : Int)
  /-- Anything that leaves the trade of a player alone: the player's other data become those of
  `sd`. -/
  | other (id : Int) (sd : MapSessionData) (slots : SlotsOk db sd)

/-- Another state of a player, with the trade it is in. -/
def keepDeal (old sd : MapSessionData) : MapSessionData :=
  { sd with
    id := old.id
    tradePartner := old.tradePartner
    dealItemIndex := old.dealItemIndex
    dealItemAmount := old.dealItemAmount
    dealZeny := old.dealZeny
    dealLocked := old.dealLocked }

def tradeStep (conf : TradeConf) (db : ItemDb) (w : Players) : TradeEvent db → Players
  | .request id targetId nearCheck =>
    (w id).elim w fun sd => tradeTraderequest conf w sd targetId nearCheck
  | .ack id type => (w id).elim w fun sd => tradeTradeack w sd type
  | .additem id idx amount => (w id).elim w fun sd => tradeTradeadditem w sd idx amount
  | .ok id => (w id).elim w fun sd => tradeTradeok w sd
  | .cancel id => (w id).elim w fun sd => tradeTradecancel w sd
  | .commit id => (w id).elim w fun sd => tradeTradecommit db w sd
  | .other id sd' _ => (w id).elim w fun sd => w.set (keepDeal sd sd')

/-- The lines of an offer name slots, with `short` amounts. -/
def DealOk (sd : MapSessionData) : Prop :=
  ∀ k, sd.dealItemAmount k < 2 ^ 15 ∧
    (0 < sd.dealItemAmount k → ∃ n, dealSlot (sd.dealItemIndex k) = some n)

/-- A player as the server keeps it: under its id, with a well-formed inventory, not in a trade
with itself. -/
structure PlayerOk (db : ItemDb) (id : Int) (sd : MapSessionData) : Prop where
  slots : SlotsOk db sd
  ne_zero : id ≠ 0
  key : sd.id = id
  partner : sd.tradePartner ≠ id
  deal : DealOk sd

/-- The invariant of a run. -/
def PlayersOk (db : ItemDb) (w : Players) : Prop := ∀ id sd, w id = some sd → PlayerOk db id sd

/-- Players with any belongings and no trade. -/
structure TradeStart (db : ItemDb) (w : Players) : Prop where
  zero : w 0 = none
  player : ∀ id sd, w id = some sd → SlotsOk db sd ∧ sd.id = id ∧ sd.tradePartner = 0 ∧
    (∀ k, sd.dealItemAmount k = 0) ∧ sd.dealZeny = 0 ∧ sd.dealLocked = 0

/-- The checks of `trade_tradecommit` that lead to the transfer. -/
def tradeAccepted (db : ItemDb) (sd targetSd : MapSessionData) : Bool :=
  sd.dealLocked > 0 && targetSd.dealLocked = 2 && !impossibleTradeCheck sd &&
    !tradeRestrictions sd && !impossibleTradeCheck targetSd && tradeZenyOk sd targetSd &&
    tradeCheck db sd targetSd

/-- The items and the zeny of both together are unchanged. -/
structure Conserved (sd targetSd sd' targetSd' : MapSessionData) : Prop where
  items : ∀ k, stock sd'.inventory k + stock targetSd'.inventory k =
    stock sd.inventory k + stock targetSd.inventory k
  zeny : sd'.zeny + targetSd'.zeny = sd.zeny + targetSd.zeny

/-- Inventories and zeny of both are exactly as before. -/
structure Unmoved (sd targetSd sd' targetSd' : MapSessionData) : Prop where
  inventory : sd'.inventory = sd.inventory
  inventoryT : targetSd'.inventory = targetSd.inventory
  zeny : sd'.zeny = sd.zeny
  zenyT : targetSd'.zeny = targetSd.zeny

/-- A commit is atomic: everything offered has moved, or nothing has, and nothing is made or
lost. -/
def TradeAtomic (conf : TradeConf) (db : ItemDb) (w : Players) : TradeEvent db → Prop
  | .commit id => ∀ sd targetSd, w id = some sd → w sd.tradePartner = some targetSd →
    ∃ sd' targetSd', tradeStep conf db w (.commit id) id = some sd' ∧
      tradeStep conf db w (.commit id) sd.tradePartner = some targetSd' ∧
      (Moved sd targetSd sd' targetSd' ∨ Unmoved sd targetSd sd' targetSd') ∧
      Conserved sd targetSd sd' targetSd'
  | _ => True

/-- A commit that leads to a transfer has room for it. -/
def CommitRoom (db : ItemDb) (w : Players) : TradeEvent db → Prop
  | .commit id => ∀ sd targetSd, w id = some sd → w sd.tradePartner = some targetSd →
    tradeAccepted db sd targetSd → TradeRoom db sd targetSd
  | _ => True

instance (db : ItemDb) (w : Players) (e : TradeEvent db) : Decidable (CommitRoom db w e) :=
  match e with
  | .commit id =>
    decidable_of_iff
      (((w id).all fun sd => (w sd.tradePartner).all fun targetSd =>
        !tradeAccepted db sd targetSd || decide (TradeRoom db sd targetSd)) = true)
      (by
        simp only [CommitRoom, Option.all_eq_true, Bool.or_eq_true, Bool.not_eq_true',
          decide_eq_true_eq]
        refine ⟨fun h sd targetSd hsd ht hacc => ?_, fun h sd hsd targetSd ht => ?_⟩
        · exact (h sd hsd targetSd ht).resolve_left (by rw [hacc]; decide)
        · cases hacc : tradeAccepted db sd targetSd with
          | false => exact .inl rfl
          | true => exact .inr (h sd targetSd hsd ht hacc))
  | .request .. | .ack .. | .additem .. | .ok _ | .cancel _ | .other .. => .isTrue trivial

section Steps

variable {db : ItemDb} {w : Players} {sd targetSd : MapSessionData} {id : Int}

theorem dealLine_bounds (hdeal : ∀ k, sd.dealItemAmount k < 2 ^ 15) {k : Fin 10} {l : Line}
    (h : dealLine sd k = some l) : 0 < l.2 ∧ l.2 < 2 ^ 15 := by
  unfold dealLine at h
  split at h
  · rename_i hpos
    obtain ⟨n, -, rfl⟩ := Option.map_eq_some_iff.mp h
    exact ⟨hpos, hdeal k⟩
  · cases h

/-- Lines that pass `impossible_trade_check` are backed by the slots. -/
theorem impossibleTradeCheck_room (hdeal : ∀ k, sd.dealItemAmount k < 2 ^ 15)
    {inventory : Inventory} {ks : List (Fin 10)} (hinv : ∀ i, 0 ≤ (inventory i).amount.toInt)
    (h : impossibleTradeCheck.go sd inventory ks = false) (n : Fin maxInventory) :
    Sums.tally (linesOf sd ks) n ≤ (inventory n).amount.toInt := by
  induction ks generalizing inventory with
  | nil => exact hinv n
  | cons k ks ih =>
    rw [impossibleTradeCheck.go] at h
    split at h
    · cases h
    split at h
    · rename_i hline
      rw [linesOf_cons, hline]
      exact ih hinv h
    · rename_i idx amount hline
      obtain ⟨hpos, hlt⟩ := dealLine_bounds hdeal hline
      have hold := hinv idx
      have hmax := (inventory idx).amount.toInt_lt
      have hleft : ((inventory idx).withAmount
          ((inventory idx).amount.toInt - amount)).amount.toInt =
          (inventory idx).amount.toInt - amount :=
        toInt_ofInt (by dsimp only at hpos hlt; omega) (by dsimp only at hpos; omega)
      dsimp only at h
      split at h
      · cases h
      rename_i hnn
      rw [hleft] at hnn
      have hrest := ih (fun i => ?_) h
      · rw [linesOf_cons, hline, Option.toList_some, List.singleton_append, Sums.tally_cons]
        rcases eq_or_ne idx n with rfl | hne
        · rw [Function.update_self, hleft] at hrest
          rw [if_pos rfl]
          omega
        · rw [Function.update_of_ne hne.symm] at hrest
          rw [if_neg hne]
          omega
      · rcases eq_or_ne i idx with rfl | hne
        · rw [Function.update_self, hleft]
          omega
        · rw [Function.update_of_ne hne]
          exact hinv i

theorem PlayerOk.side (h : PlayerOk db id sd) (hcheck : impossibleTradeCheck sd = false) :
    Side db sd sd (linesOf sd (List.finRange 10)) := by
  have hdeal := fun k => (h.deal k).1
  refine ⟨h.slots, fun l hl => ?_, fun _ _ => rfl,
    impossibleTradeCheck_room hdeal (fun i => (h.slots i).amount) hcheck⟩
  obtain ⟨k, -, hk⟩ := List.mem_filterMap.mp hl
  exact (dealLine_bounds hdeal hk).1

theorem tradeGive_conserves (db : ItemDb) {p : MapSessionData × MapSessionData} {k : Fin 10}
    (hs : SlotsOk db p.1) (ht : SlotsOk db p.2) :
    SlotsOk db (tradeGive db p k).1 ∧ SlotsOk db (tradeGive db p k).2 ∧
      ∀ f : Identity → ℤ,
        worth f (tradeGive db p k).1.inventory + worth f (tradeGive db p k).2.inventory =
          worth f p.1.inventory + worth f p.2.inventory := by
  obtain ⟨sd, targetSd⟩ := p
  dsimp only at hs ht
  unfold tradeGive
  dsimp only
  cases hline : dealLine sd k with
  | none => exact ⟨hs, ht, fun _ => rfl⟩
  | some l =>
    obtain ⟨n, amount⟩ := l
    dsimp only
    generalize hq : (if (sd.inventory n).amount.toInt < amount then (sd.inventory n).amount.toInt
      else amount) = q
    have hle : q ≤ (sd.inventory n).amount.toInt := by split at hq <;> omega
    have hlt : q < 2 ^ 15 := by have := (sd.inventory n).amount.toInt_lt; omega
    split
    · rename_i hpos
      have hokT : SlotsOk db (pcAdditem db targetSd (sd.inventory n) q).2 := ht.pcAdditem hlt
      split
      · rename_i hret
        have hn := nameid_ne_zero ((hs n).nameid_pos (by omega))
        refine ⟨hs.pcDelitem hpos hle, hokT, fun f => ?_⟩
        rw [pcAdditem_worth_of_ok f hret hlt]
        dsimp only
        rw [hs.pcDelitem_eq hpos hle]
        dsimp only
        rw [worth_update, Item.worth_takeAway f hn hpos hle]
        abel
      · rename_i hret
        refine ⟨hs, hokT, fun f => ?_⟩
        dsimp only
        rw [pcAdditem_of_ne_zero hret]
    · exact ⟨hs, ht, fun _ => rfl⟩

/-- A line that is given is used up. -/
theorem tradeGive_dealOk (db : ItemDb) {p : MapSessionData × MapSessionData} (k : Fin 10)
    (hs : DealOk p.1) (ht : DealOk p.2) :
    DealOk (tradeGive db p k).1 ∧ DealOk (tradeGive db p k).2 := by
  constructor
  · obtain ⟨_, _, _, index, amount, hline, h⟩ := (tradeGive_frame db p k).1
    rw [h]
    intro j
    dsimp only
    rcases eq_or_ne j k with rfl | hj
    · rw [Function.update_self, Function.update_self]
      rcases hline with hle | ⟨rfl, rfl⟩
      · exact ⟨by omega, fun hpos => by omega⟩
      · exact hs j
    · rw [Function.update_of_ne hj, Function.update_of_ne hj]
      exact hs j
  · obtain ⟨_, _, _, h⟩ := (tradeGive_frame db p k).2
    rw [h]
    exact ht

theorem exchange_dealOk (db : ItemDb) {p : MapSessionData × MapSessionData} (ks : List (Fin 10))
    (hs : DealOk p.1) (ht : DealOk p.2) :
    DealOk (ks.foldl (tradeGiveBoth db) p).1 ∧ DealOk (ks.foldl (tradeGiveBoth db) p).2 := by
  induction ks generalizing p with
  | nil => exact ⟨hs, ht⟩
  | cons k ks ih =>
    obtain ⟨hs1, ht1⟩ := tradeGive_dealOk db k hs ht
    obtain ⟨ht2, hs2⟩ := tradeGive_dealOk db (p := (tradeGive db p k).swap) k ht1 hs1
    exact ih (p := tradeGiveBoth db p k) hs2 ht2

theorem exchange_conserves (db : ItemDb) {p : MapSessionData × MapSessionData}
    (ks : List (Fin 10)) (hs : SlotsOk db p.1) (ht : SlotsOk db p.2) :
    SlotsOk db (ks.foldl (tradeGiveBoth db) p).1 ∧ SlotsOk db (ks.foldl (tradeGiveBoth db) p).2 ∧
      ∀ f : Identity → ℤ,
        worth f (ks.foldl (tradeGiveBoth db) p).1.inventory +
            worth f (ks.foldl (tradeGiveBoth db) p).2.inventory =
          worth f p.1.inventory + worth f p.2.inventory := by
  induction ks generalizing p with
  | nil => exact ⟨hs, ht, fun _ => rfl⟩
  | cons k ks ih =>
    obtain ⟨hs1, ht1, hw1⟩ := tradeGive_conserves db (k := k) hs ht
    obtain ⟨ht2, hs2, hw2⟩ := tradeGive_conserves db (p := (tradeGive db p k).swap) (k := k) ht1 hs1
    obtain ⟨hs3, ht3, hw3⟩ := ih (p := tradeGiveBoth db p k) hs2 ht2
    refine ⟨hs3, ht3, fun f => ?_⟩
    have h1 := hw1 f
    have h2 := hw2 f
    rw [List.foldl_cons, hw3 f]
    simp only [tradeGiveBoth, Prod.fst_swap, Prod.snd_swap] at h2 ⊢
    omega

/-- **A transfer makes and loses nothing**, whatever `pc_additem` refuses. -/
theorem tradeTransfer_conserves (hs : SlotsOk db sd) (ht : SlotsOk db targetSd) :
    SlotsOk db (tradeTransfer db sd targetSd).1 ∧ SlotsOk db (tradeTransfer db sd targetSd).2 ∧
      Conserved sd targetSd (tradeTransfer db sd targetSd).1 (tradeTransfer db sd targetSd).2 := by
  obtain ⟨hok, hokT, hworth⟩ := exchange_conserves db (p := (sd, targetSd)) (List.finRange 10) hs ht
  obtain ⟨hz, hzT⟩ := tradeTransfer_zeny db sd targetSd
  exact ⟨hok, hokT, fun k => hworth (ofIdentity k), by omega⟩

/-! ## The invariant -/

theorem PlayersOk.set {sd : MapSessionData} (h : PlayersOk db w) (hsd : PlayerOk db id sd) :
    PlayersOk db (w.set sd) := by
  intro id' sd' hsd'
  rcases eq_or_ne id' sd.id with rfl | hne
  · rw [Players.set, Function.update_self] at hsd'
    obtain rfl := Option.some.inj hsd'
    rw [hsd.key]
    exact hsd
  · rw [Players.set, Function.update_of_ne hne] at hsd'
    exact h id' sd' hsd'

/-- A player whose slots are left alone, or rearranged well, and whose lines are left or well. -/
theorem PlayerOk.of_partner_zero (h : PlayerOk db id sd) {sd' : MapSessionData}
    (hslots : SlotsOk db sd') (hkey : sd'.id = sd.id) (hpartner : sd'.tradePartner = 0)
    (hdeal : DealOk sd') :
    PlayerOk db id sd' :=
  ⟨hslots, h.ne_zero, hkey.trans h.key, by rw [hpartner]; exact h.ne_zero.symm, hdeal⟩

theorem PlayerOk.clearDeal (h : PlayerOk db id sd) : PlayerOk db id (clearDeal sd) :=
  h.of_partner_zero h.slots rfl rfl fun _ =>
    ⟨show (0 : Int) < 2 ^ 15 by decide, fun h0 => absurd (show (0 : Int) < 0 from h0) (by decide)⟩

theorem PlayersOk.tradeTradecancel (h : PlayersOk db w) (hsd : PlayerOk db id sd) :
    PlayersOk db (tradeTradecancel w sd) := by
  unfold Nezumi.tradeTradecancel
  split
  · exact h
  · rename_i targetSd ht
    exact (h.set hsd.clearDeal).set (h _ _ ht).clearDeal

/-- A player with the same slots and lines, in a trade with someone else. -/
theorem PlayerOk.of_same (h : PlayerOk db id sd) {sd' : MapSessionData}
    (hinv : sd'.inventory = sd.inventory) (hdata : sd'.inventoryData = sd.inventoryData)
    (hkey : sd'.id = sd.id) (hpartner : sd'.tradePartner ≠ id)
    (hindex : sd'.dealItemIndex = sd.dealItemIndex)
    (hamount : sd'.dealItemAmount = sd.dealItemAmount) : PlayerOk db id sd' := by
  refine ⟨?_, h.ne_zero, hkey.trans h.key, hpartner, ?_⟩
  · unfold SlotsOk
    rw [hinv, hdata]
    exact h.slots
  · unfold DealOk
    rw [hindex, hamount]
    exact h.deal

theorem PlayersOk.tradeTraderequest (h : PlayersOk db w) (conf : TradeConf)
    (hsd : PlayerOk db id sd) (targetId : Int) (nearCheck : Bool) :
    PlayersOk db (tradeTraderequest conf w sd targetId nearCheck) := by
  unfold Nezumi.tradeTraderequest
  split
  · exact h
  rename_i targetSd ht
  have htarget := h _ _ ht
  split
  · exact h
  split
  · exact h
  split
  · exact h.tradeTradecancel hsd
  split
  · exact h
  split
  · exact h
  split
  · exact h
  rename_i hne
  rw [hsd.key, htarget.key] at hne
  have hleft : PlayerOk db targetId { targetSd with tradePartner := sd.id } :=
    htarget.of_same rfl rfl rfl (by rw [hsd.key]; exact hne) rfl rfl
  have hright : PlayerOk db id { sd with tradePartner := targetSd.id } :=
    hsd.of_same rfl rfl rfl (by rw [htarget.key]; exact Ne.symm hne) rfl rfl
  exact (h.set hleft).set hright

theorem PlayersOk.tradeTradeack (h : PlayersOk db w) (hsd : PlayerOk db id sd) (type : Nat) :
    PlayersOk db (tradeTradeack w sd type) := by
  unfold Nezumi.tradeTradeack
  split
  · exact h
  split
  · exact h
  rename_i targetSd ht
  have htarget := h _ _ ht
  split
  · have hleft : PlayerOk db id { sd with dealLocked := 0, tradePartner := 0 } :=
      hsd.of_same rfl rfl rfl hsd.ne_zero.symm rfl rfl
    have hright : PlayerOk db sd.tradePartner
        { targetSd with dealLocked := 0, tradePartner := 0 } :=
      htarget.of_same rfl rfl rfl htarget.ne_zero.symm rfl rfl
    exact (h.set hleft).set hright
  · exact h

theorem PlayersOk.tradeTradeadditem (h : PlayersOk db w) (hsd : PlayerOk db id sd)
    (idx amount : Int) : PlayersOk db (tradeTradeadditem w sd idx amount) := by
  unfold Nezumi.tradeTradeadditem
  split
  · exact h
  split
  · exact h
  split
  · split
    · split
      · exact h.set (hsd.of_same rfl rfl rfl hsd.partner rfl rfl)
      · split
        · exact h.tradeTradecancel hsd
        · exact h
    · exact h
  rename_i n hn
  split
  swap
  · exact h
  rename_i hamount
  split
  · exact h
  rename_i k hk
  dsimp only
  split
  · exact h
  split
  · exact h.tradeTradecancel hsd
  · have hnew : PlayerOk db id { sd with
        dealItemIndex := Function.update sd.dealItemIndex k idx
        dealItemAmount := Function.update sd.dealItemAmount k amount } := by
      refine ⟨hsd.slots, hsd.ne_zero, hsd.key, hsd.partner, fun j => ?_⟩
      dsimp only
      rcases eq_or_ne j k with rfl | hj
      · rw [Function.update_self, Function.update_self]
        have := (sd.inventory n).amount.toInt_lt
        exact ⟨by omega, fun _ => ⟨n, hn⟩⟩
      · rw [Function.update_of_ne hj, Function.update_of_ne hj]
        exact hsd.deal j
    split
    · exact h.tradeTradecancel hnew
    · exact h.set hnew

theorem PlayersOk.tradeTradeok (h : PlayersOk db w) (hsd : PlayerOk db id sd) :
    PlayersOk db (tradeTradeok w sd) := by
  unfold Nezumi.tradeTradeok
  split
  · exact h.tradeTradecancel hsd
  split
  · exact h.tradeTradecancel hsd
  split
  · exact h.tradeTradecancel hsd
  split
  · exact h
  · exact h.set (hsd.of_same rfl rfl rfl hsd.partner rfl rfl)

/-- The players of a transfer, after it. -/
theorem PlayerOk.transfer {idT : Int} (hsd : PlayerOk db id sd)
    (htarget : PlayerOk db idT targetSd) :
    PlayerOk db id (tradeTransfer db sd targetSd).1 ∧
      PlayerOk db idT (tradeTransfer db sd targetSd).2 := by
  obtain ⟨hok, hokT, -⟩ := tradeTransfer_conserves hsd.slots htarget.slots
  have hapart := foldl_tradeGiveBoth_apart db (sd, targetSd) (List.finRange 10)
  obtain ⟨hdeal, hdealT⟩ := exchange_dealOk db (p := (sd, targetSd)) (List.finRange 10)
    hsd.deal htarget.deal
  have hid := congrArg MapSessionData.id hapart.1
  have hidT := congrArg MapSessionData.id hapart.2
  exact ⟨hsd.of_partner_zero hok hid rfl hdeal, htarget.of_partner_zero hokT hidT rfl hdealT⟩

theorem PlayersOk.tradeTradecommit (h : PlayersOk db w) (hsd : PlayerOk db id sd) :
    PlayersOk db (tradeTradecommit db w sd) := by
  unfold Nezumi.tradeTradecommit
  split
  · exact h
  rename_i targetSd ht
  have htarget := h _ _ ht
  split
  swap
  · exact h
  have hlocked : PlayerOk db id { sd with dealLocked := 2 } :=
    hsd.of_same rfl rfl rfl hsd.partner rfl rfl
  have hset := h.set hlocked
  dsimp only
  split
  swap
  · exact hset
  split
  · exact hset.tradeTradecancel hlocked
  split
  · exact hset.tradeTradecancel hlocked
  split
  · exact hset.tradeTradecancel htarget
  split
  swap
  · exact hset.tradeTradecancel hlocked
  split
  · exact hset.tradeTradecancel hlocked
  · have hboth := hlocked.transfer htarget
    exact (hset.set hboth.1).set hboth.2

theorem PlayersOk.elim (h : PlayersOk db w) {f : MapSessionData → Players}
    (hf : ∀ sd, PlayerOk db id sd → PlayersOk db (f sd)) : PlayersOk db ((w id).elim w f) := by
  cases hsd : w id with
  | none => exact h
  | some sd => exact hf sd (h id sd hsd)

/-- **Every event keeps the invariant.** -/
theorem playersOk_step (conf : TradeConf) (h : PlayersOk db w) (e : TradeEvent db) :
    PlayersOk db (tradeStep conf db w e) := by
  cases e with
  | request id targetId nearCheck =>
    exact h.elim fun sd hsd => h.tradeTraderequest conf hsd targetId nearCheck
  | ack id type => exact h.elim fun sd hsd => h.tradeTradeack hsd type
  | additem id idx amount => exact h.elim fun sd hsd => h.tradeTradeadditem hsd idx amount
  | ok id => exact h.elim fun sd hsd => h.tradeTradeok hsd
  | cancel id => exact h.elim fun sd hsd => h.tradeTradecancel hsd
  | commit id => exact h.elim fun sd hsd => h.tradeTradecommit hsd
  | other id sd' slots =>
    refine h.elim fun sd hsd => ?_
    have hnew : PlayerOk db id (keepDeal sd sd') :=
      ⟨slots, hsd.ne_zero, hsd.key, hsd.partner, hsd.deal⟩
    exact h.set hnew

theorem playersOk_start (h : TradeStart db w) : PlayersOk db w := by
  intro id sd hsd
  obtain ⟨hslots, hkey, hpartner, hamount, -⟩ := h.player id sd hsd
  have hne : id ≠ 0 := by
    rintro rfl
    rw [h.zero] at hsd
    cases hsd
  refine ⟨hslots, hne, hkey, by rw [hpartner]; exact hne.symm, fun k => ?_⟩
  rw [hamount k]
  exact ⟨by decide, fun h0 => absurd h0 (by decide)⟩

end Steps

/-! ## Atomicity -/

section Atomic

variable {db : ItemDb} {w : Players} {sd targetSd : MapSessionData} {id : Int}

/-- The inventories and the zeny of every player are as before. -/
def Untouched (w w' : Players) : Prop :=
  ∀ id sd, w id = some sd → ∃ sd', w' id = some sd' ∧ sd'.inventory = sd.inventory ∧
    sd'.zeny = sd.zeny

theorem Untouched.refl (w : Players) : Untouched w w := fun _ sd h => ⟨sd, h, rfl, rfl⟩

theorem Untouched.set {w' : Players} (h : Untouched w w') (sd sd' : MapSessionData)
    (hsd : w sd.id = some sd) (hkey : sd'.id = sd.id) (hinv : sd'.inventory = sd.inventory)
    (hzeny : sd'.zeny = sd.zeny) : Untouched w (w'.set sd') := by
  intro id old hold
  rcases eq_or_ne id sd'.id with rfl | hne
  · rw [hkey, hsd] at hold
    obtain rfl := Option.some.inj hold
    exact ⟨sd', by rw [Players.set, Function.update_self], hinv, hzeny⟩
  · obtain ⟨new, hnew, h1, h2⟩ := h id old hold
    exact ⟨new, by rw [Players.set, Function.update_of_ne hne]; exact hnew, h1, h2⟩

theorem Untouched.trans {w' w'' : Players} (h : Untouched w w') (h' : Untouched w' w'') :
    Untouched w w'' := by
  intro id sd hsd
  obtain ⟨sd', hsd', h1, h2⟩ := h id sd hsd
  obtain ⟨sd'', hsd'', h3, h4⟩ := h' id sd' hsd'
  exact ⟨sd'', hsd'', h3.trans h1, h4.trans h2⟩

/-- A cancelled trade leaves the inventories and the zeny alone. -/
theorem untouched_tradeTradecancel (h : PlayersOk db w) (hsd : w id = some sd) :
    Untouched w (tradeTradecancel w sd) := by
  unfold tradeTradecancel
  split
  · exact .refl w
  · rename_i targetSd ht
    have hkey := (h id sd hsd).key
    have hkeyT := (h _ _ ht).key
    have hone := (Untouched.refl w).set sd (clearDeal sd) (by rw [hkey]; exact hsd) rfl rfl rfl
    exact hone.set targetSd (clearDeal targetSd) (by rw [hkeyT]; exact ht) rfl rfl rfl

/-- **`trade_tradecommit`** leaves the inventories and the zeny alone, or its checks pass and it
makes the transfer. -/
theorem tradeTradecommit_cases (h : PlayersOk db w) (hsd : w id = some sd)
    (ht : w sd.tradePartner = some targetSd) :
    Untouched w (tradeTradecommit db w sd) ∨
      (tradeAccepted db sd targetSd = true ∧
        tradeTradecommit db w sd =
          ((w.set { sd with dealLocked := 2 }).set
            (tradeTransfer db { sd with dealLocked := 2 } targetSd).1).set
              (tradeTransfer db { sd with dealLocked := 2 } targetSd).2) := by
  have hok := h id sd hsd
  have hset := h.set (show PlayerOk db id { sd with dealLocked := 2 } from
    hok.of_same rfl rfl rfl hok.partner rfl rfl)
  have hsame : (w.set { sd with dealLocked := 2 }) id = some { sd with dealLocked := 2 } := by
    rw [Players.set, hok.key, Function.update_self]
  have hother : (w.set { sd with dealLocked := 2 }) sd.tradePartner = some targetSd := by
    rw [Players.set, hok.key, Function.update_of_ne hok.partner]
    exact ht
  have hlock : Untouched w (w.set { sd with dealLocked := 2 }) :=
    (Untouched.refl w).set sd _ (by rw [hok.key]; exact hsd) rfl rfl rfl
  have hcancel := hlock.trans (untouched_tradeTradecancel hset hsame)
  have hcancelT := hlock.trans (untouched_tradeTradecancel hset hother)
  unfold tradeTradecommit
  rw [ht]
  dsimp only
  split
  swap
  · exact .inl (.refl w)
  rename_i hlocks
  split
  swap
  · exact .inl hlock
  rename_i htwo
  split
  · exact .inl hcancel
  rename_i h1
  split
  · exact .inl hcancel
  rename_i h2
  split
  · exact .inl hcancelT
  rename_i h3
  split
  swap
  · exact .inl hcancel
  rename_i h4
  split
  · exact .inl hcancel
  rename_i h5
  refine .inr ⟨?_, rfl⟩
  have h1' : impossibleTradeCheck sd = false := Bool.eq_false_iff.mpr h1
  have h4' : tradeZenyOk sd targetSd = true := h4
  rw [Bool.not_eq_true', Bool.not_eq_false] at h5
  have h5' : tradeCheck db sd targetSd = true := h5
  simp [tradeAccepted, hlocks.1, htwo, h1', h4', h5', tradeRestrictions, h3]

/-- **A commit that has room is atomic.** -/
theorem tradeAtomic_step (conf : TradeConf) (h : PlayersOk db w) (e : TradeEvent db)
    (hroom : CommitRoom db w e) : TradeAtomic conf db w e := by
  cases e with
  | commit id =>
    intro sd targetSd hsd ht
    have hok := h id sd hsd
    have htarget := h _ _ ht
    have hstep : tradeStep conf db w (.commit id) = tradeTradecommit db w sd := by
      change (w id).elim w (fun sd => tradeTradecommit db w sd) = _
      rw [hsd, Option.elim_some]
    rw [hstep]
    obtain hun | ⟨hacc, heq⟩ := tradeTradecommit_cases h hsd ht
    · obtain ⟨sd', hsd', hinv, hzeny⟩ := hun id sd hsd
      obtain ⟨targetSd', ht', hinvT, hzenyT⟩ := hun _ targetSd ht
      refine ⟨sd', targetSd', hsd', ht', .inr ⟨hinv, hinvT, hzeny, hzenyT⟩, ?_, ?_⟩
      · intro k
        rw [hinv, hinvT]
      · rw [hzeny, hzenyT]
    · have hlocked : PlayerOk db id { sd with dealLocked := 2 } :=
        hok.of_same rfl rfl rfl hok.partner rfl rfl
      simp only [tradeAccepted, Bool.and_eq_true, Bool.not_eq_true', decide_eq_true_eq] at hacc
      have hroom' := hroom sd targetSd hsd ht (by simp [tradeAccepted, hacc])
      have hboth := hlocked.transfer htarget
      obtain ⟨-, -, hcons⟩ := tradeTransfer_conserves hlocked.slots htarget.slots
      obtain ⟨hmoved, -, -⟩ := tradeTransfer_moved (hlocked.side hacc.1.1.1.1.2)
        (htarget.side hacc.1.1.2) (⟨hroom'.check, hroom'.weights⟩ : TradeRoom db
          { sd with dealLocked := 2 } targetSd)
      rw [heq]
      refine ⟨_, _, ?_, ?_, .inl ⟨hmoved.items, hmoved.itemsT, hmoved.zeny, hmoved.zenyT⟩,
        ⟨hcons.items, hcons.zeny⟩⟩
      · rw [Players.set, hboth.2.key, Function.update_of_ne hok.partner.symm, Players.set,
          hboth.1.key, Function.update_self]
      · rw [Players.set, hboth.2.key, Function.update_self]
  | _ => trivial

/-- **Trades are atomic** in every run whose transfers all have room. -/
theorem tradeRun_atomic (conf : TradeConf) (db : ItemDb) {w : Players} {es : List (TradeEvent db)}
    (hw : TradeStart db w) (hroom : Run.Meets (tradeStep conf db) (CommitRoom db) w es) :
    Run.Meets (tradeStep conf db) (TradeAtomic conf db) w es :=
  Run.meets_of_inv (fun _ e h _ => playersOk_step conf h e)
    (fun _ e h hroom => tradeAtomic_step conf h e hroom) (playersOk_start hw) hroom

/-- A player with an identified red potion to trade. -/
def potionOwner : MapSessionData where
  id := 1
  maxWeight := 20000
  inventory := slotsOf [{ nameid := 501, amount := 1, identify := true }]
  inventoryData i := if i.val = 0 then some (itemdbSearch (fun _ => none) 501) else none

/-- A player with `1000` zeny, a red potion that is not identified, and `others` in all other
slots. -/
def potionCollector (others : Item) : MapSessionData where
  id := 2
  zeny := 1000
  maxWeight := 20000
  inventory i := if i.val = 0 then { nameid := 501, amount := 1 } else others
  inventoryData i := if i.val = 0 then some (itemdbSearch (fun _ => none) 501)
    else if others.nameid = 0 then none
    else some (itemdbSearch (fun _ => none) others.nameid.toInt)

/-- The two of them. -/
def potionPlayers (others : Item) : Players
  | 1 => some potionOwner
  | 2 => some (potionCollector others)
  | _ => none

theorem potionPlayers_start (others : Item) (hown : SlotsOk (fun _ => none) potionOwner)
    (hothers : SlotsOk (fun _ => none) (potionCollector others)) :
    TradeStart (fun _ => none) (potionPlayers others) := by
  refine ⟨rfl, fun id sd hsd => ?_⟩
  unfold potionPlayers at hsd
  split at hsd
  · obtain rfl := Option.some.inj hsd
    exact ⟨hown, rfl, rfl, fun _ => rfl, rfl, rfl⟩
  · obtain rfl := Option.some.inj hsd
    exact ⟨hothers, rfl, rfl, fun _ => rfl, rfl, rfl⟩
  · cases hsd

/-- A trade of the potion for `100` zeny. -/
def potionTrade : List (TradeEvent fun _ => none) :=
  [.request 1 2 false, .ack 2 3, .additem 1 2 1, .additem 2 0 100, .ok 1, .ok 2, .commit 1]

/-- The players of the trade before its last step, the commit of the second one. -/
def potionTraded (others : Item) : Players :=
  Run.exec (tradeStep {} fun _ => none) (potionPlayers others) potionTrade

/-- The potion does not stack with the one that is not identified, but `trade_check` thinks so:
into a full inventory, it does not move, and the zeny does. -/
theorem tradeRun_not_atomic : ¬∀ conf db w es, TradeStart db w →
    Run.Meets (tradeStep conf db) (TradeAtomic conf db) w es := by
  intro h
  let yellow : Item := { nameid := 503, amount := 1, identify := true }
  have hrun := h {} (fun _ => none) (potionPlayers yellow) (potionTrade ++ [TradeEvent.commit 2])
    (potionPlayers_start yellow (by decide) (by decide))
  have hlast := (Run.meets_append.mp hrun).2.1
  change TradeAtomic {} (fun _ => none) (potionTraded yellow) (.commit 2) at hlast
  obtain ⟨sd, hsd⟩ := Option.isSome_iff_exists.mp
    (show (potionTraded yellow 2).isSome = true by decide +kernel)
  obtain ⟨targetSd, ht⟩ := Option.isSome_iff_exists.mp
    (show (potionTraded yellow 1).isSome = true by decide +kernel)
  have hpartner : (potionTraded yellow 2).map MapSessionData.tradePartner = some 1 := by
    decide +kernel
  rw [hsd] at hpartner
  obtain ⟨sd', targetSd', hsd', -, hmoved, -⟩ := hlast sd targetSd hsd
    (by rw [Option.some.inj hpartner]; exact ht)
  -- The collector has paid and has no identified potion.
  have hvalues : ((potionTraded yellow 2).all fun sd => (potionTraded yellow 1).all fun targetSd =>
      (tradeStep {} (fun _ => none) (potionTraded yellow) (.commit 2) 2).all fun sd' =>
        decide (sd'.zeny ≠ sd.zeny ∧
          let k := Item.identity { nameid := 501, identify := true }
          stock sd'.inventory k ≠
            stock sd.inventory k - offered sd k + offered targetSd k)) = true := by
    decide +kernel
  rw [hsd, ht, hsd'] at hvalues
  simp only [Option.all_some, decide_eq_true_eq] at hvalues
  rcases hmoved with hm | hu
  · exact hvalues.2 (hm.items _)
  · exact hvalues.1 hu.zeny

/-- With a free slot, the same trade has room, and is atomic. -/
theorem tradeRun_atomic_potion :
    Run.Meets (tradeStep {} fun _ => none) (TradeAtomic {} fun _ => none)
      (potionPlayers Item.zero) (potionTrade ++ [TradeEvent.commit 2]) := by
  exact tradeRun_atomic {} (fun _ => none)
    (potionPlayers_start Item.zero (by decide +kernel) (by decide +kernel)) (by decide +kernel)

end Atomic

end Nezumi
