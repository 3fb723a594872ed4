import Nezumi.Map.TradeSession

/-!
# Items that are not for trade (`map/trade.c`, `map/itemdb.h`)

* `noTradeRefused`: what the body of the loop in `trade_restrictions` refuses.
* `transferGiven`: the items that a transfer moves, from each side; `transferGiven_worth` says that
  it moves these and nothing else.
* `transferGiven_offered`: what is moved was offered.
* `tradeRun_no_trade`: in a run whose completed trades offer nothing that is refused, nothing that
  is refused is moved.
* `tradeRun_not_no_trade`: nothing but the players sees to that, the loop never runs.
-/

namespace Nezumi

/-- What `trade_restrictions` says of an item: `1` is never traded, `2` only with the partner the
player is married to. -/
def noTradeRefused (sd : MapSessionData) (data : ItemData) : Bool :=
  if data.noTrade.val &&& 1 ≠ 0 then true
  else if data.noTrade.val &&& 2 ≠ 0 then sd.tradePartner ≠ sd.partnerId
  else false

/-- What a line of the transfer moves from `p.1` to `p.2`: the item, if `pc_additem` takes it. -/
def lineGiven (db : ItemDb) (p : MapSessionData × MapSessionData) (k : Fin 10) :
    Option (Item × Int) :=
  (dealLine p.1 k).bind fun (n, amount) =>
    let amount := if (p.1.inventory n).amount.toInt < amount then (p.1.inventory n).amount.toInt
      else amount
    if amount > 0 ∧ (pcAdditem db p.2 (p.1.inventory n) amount).1 = 0 then
      some (p.1.inventory n, amount)
    else none

/-- What the lines of a transfer move, from each side. -/
def transferGiven (db : ItemDb) : (p : MapSessionData × MapSessionData) → List (Fin 10) →
    List (Item × Int) × List (Item × Int)
  | _, [] => ([], [])
  | p, k :: ks =>
    let rest := transferGiven db (tradeGiveBoth db p k) ks
    ((lineGiven db p k).toList ++ rest.1, (lineGiven db (tradeGive db p k).swap k).toList ++ rest.2)

/-- What a completed commit moves, from each side. -/
def commitGiven (db : ItemDb) (sd targetSd : MapSessionData) :
    List (Item × Int) × List (Item × Int) :=
  transferGiven db ({ sd with dealLocked := 2 }, targetSd) (List.finRange 10)

/-- Whether an item is refused to a player. -/
def itemRefused (db : ItemDb) (sd : MapSessionData) (it : Item) : Bool :=
  noTradeRefused sd (itemdbSearch db it.nameid.toInt)

/-- A completed commit moves nothing that is refused to its giver. -/
def NoTradeKept (db : ItemDb) (w : Players) : TradeEvent db → Prop
  | .commit id => ∀ sd targetSd, w id = some sd → w sd.tradePartner = some targetSd →
    tradeAccepted db sd targetSd →
      (∀ g ∈ (commitGiven db sd targetSd).1, itemRefused db sd g.1 = false) ∧
        ∀ g ∈ (commitGiven db sd targetSd).2, itemRefused db targetSd g.1 = false
  | _ => True

/-- Nothing that a player offers is refused. -/
def offerAllowed (db : ItemDb) (sd : MapSessionData) : Bool :=
  (linesOf sd (List.finRange 10)).all fun l => !itemRefused db sd (sd.inventory l.1)

/-- The offers of a commit that is completed are allowed. -/
def OffersAllowed (db : ItemDb) (w : Players) : TradeEvent db → Prop
  | .commit id => ∀ sd targetSd, w id = some sd → w sd.tradePartner = some targetSd →
    tradeAccepted db sd targetSd → offerAllowed db sd ∧ offerAllowed db targetSd
  | _ => True

instance (db : ItemDb) (w : Players) (e : TradeEvent db) : Decidable (OffersAllowed db w e) :=
  match e with
  | .commit id =>
    decidable_of_iff
      (((w id).all fun sd => (w sd.tradePartner).all fun targetSd =>
        !tradeAccepted db sd targetSd || (offerAllowed db sd && offerAllowed db targetSd)) = true)
      (by
        simp only [OffersAllowed, Option.all_eq_true, Bool.or_eq_true, Bool.not_eq_true',
          Bool.and_eq_true]
        refine ⟨fun h sd targetSd hsd ht hacc => ?_, fun h sd hsd targetSd ht => ?_⟩
        · exact (h sd hsd targetSd ht).resolve_left (by rw [hacc]; decide)
        · cases hacc : tradeAccepted db sd targetSd with
          | false => exact .inl rfl
          | true => exact .inr (h sd targetSd hsd ht hacc))
  | .request .. | .ack .. | .additem .. | .ok _ | .cancel _ | .other .. => .isTrue trivial

theorem transferGiven_cons (db : ItemDb) (p : MapSessionData × MapSessionData) (k : Fin 10)
    (ks : List (Fin 10)) : transferGiven db p (k :: ks) =
      ((lineGiven db p k).toList ++ (transferGiven db (tradeGiveBoth db p k) ks).1,
        (lineGiven db (tradeGive db p k).swap k).toList ++
          (transferGiven db (tradeGiveBoth db p k) ks).2) := rfl

section Given

variable {M : Type*} [AddCommGroup M] {db : ItemDb} {sd targetSd : MapSessionData}
  {p : MapSessionData × MapSessionData}

/-- What items count together. -/
def givenWorth (f : Identity → M) (gs : List (Item × Int)) : M :=
  (gs.map fun g => g.2 • f g.1.identity).sum

theorem givenWorth_append (f : Identity → M) (gs hs : List (Item × Int)) :
    givenWorth f (gs ++ hs) = givenWorth f gs + givenWorth f hs := by
  simp [givenWorth]

/-- **A line of the transfer** moves what `lineGiven` says. -/
theorem lineGiven_worth {k : Fin 10} (hs : SlotsOk db p.1) (f : Identity → M) :
    worth f (tradeGive db p k).1.inventory =
        worth f p.1.inventory - givenWorth f (lineGiven db p k).toList ∧
      worth f (tradeGive db p k).2.inventory =
        worth f p.2.inventory + givenWorth f (lineGiven db p k).toList := by
  obtain ⟨sd, targetSd⟩ := p
  unfold tradeGive lineGiven
  dsimp only at hs ⊢
  cases hline : dealLine sd k with
  | none => simp [givenWorth]
  | some l =>
    obtain ⟨n, amount⟩ := l
    rw [Option.bind_some]
    dsimp only
    generalize hq : (if (sd.inventory n).amount.toInt < amount then (sd.inventory n).amount.toInt
      else amount) = q
    have hle : q ≤ (sd.inventory n).amount.toInt := by split at hq <;> omega
    have hlt : q < 2 ^ 15 := by have := (sd.inventory n).amount.toInt_lt; omega
    by_cases hpos : q > 0
    · rw [if_pos hpos]
      by_cases hret : (pcAdditem db targetSd (sd.inventory n) q).1 = 0
      · have hn := nameid_ne_zero ((hs n).nameid_pos (by omega))
        rw [if_pos hret, if_pos ⟨hpos, hret⟩]
        dsimp only
        rw [pcAdditem_worth_of_ok f hret hlt, hs.pcDelitem_eq hpos hle]
        dsimp only
        rw [worth_update, Item.worth_takeAway f hn hpos hle]
        simp [givenWorth]
      · rw [if_neg hret, if_neg (fun h => hret h.2), pcAdditem_of_ne_zero hret]
        simp [givenWorth]
    · rw [if_neg hpos, if_neg (fun h => hpos h.1)]
      simp [givenWorth]

/-- **A transfer moves what `transferGiven` says**, and nothing else. -/
theorem transferGiven_worth {ks : List (Fin 10)} (hs : SlotsOk db p.1) (ht : SlotsOk db p.2)
    (f : Identity → M) :
    worth f (ks.foldl (tradeGiveBoth db) p).1.inventory = worth f p.1.inventory -
        givenWorth f (transferGiven db p ks).1 + givenWorth f (transferGiven db p ks).2 ∧
      worth f (ks.foldl (tradeGiveBoth db) p).2.inventory = worth f p.2.inventory +
        givenWorth f (transferGiven db p ks).1 - givenWorth f (transferGiven db p ks).2 := by
  induction ks generalizing p with
  | nil => simp [transferGiven, givenWorth]
  | cons k ks ih =>
    obtain ⟨hs1, ht1, -⟩ := tradeGive_conserves db (k := k) hs ht
    obtain ⟨ht2, hs2, -⟩ := tradeGive_conserves db (p := (tradeGive db p k).swap) (k := k) ht1 hs1
    obtain ⟨h1, h1T⟩ := lineGiven_worth (k := k) hs f
    obtain ⟨h2T, h2⟩ := lineGiven_worth (p := (tradeGive db p k).swap) (k := k) ht1 f
    obtain ⟨h3, h3T⟩ := ih (p := tradeGiveBoth db p k) hs2 ht2
    have hboth : worth f (tradeGiveBoth db p k).1.inventory = worth f p.1.inventory -
        givenWorth f (lineGiven db p k).toList +
        givenWorth f (lineGiven db (tradeGive db p k).swap k).toList := h2.trans (by rw [← h1]; rfl)
    have hbothT : worth f (tradeGiveBoth db p k).2.inventory = worth f p.2.inventory +
        givenWorth f (lineGiven db p k).toList -
        givenWorth f (lineGiven db (tradeGive db p k).swap k).toList :=
      h2T.trans (by rw [← h1T]; rfl)
    rw [List.foldl_cons, h3, h3T, transferGiven_cons, givenWorth_append, givenWorth_append, hboth,
      hbothT]
    constructor <;> abel

/-- What a line moves is the item of its slot. -/
theorem lineGiven_offered {orig : MapSessionData} {k : Fin 10} {ls : List Line}
    (hs : Side db orig p.1 ((dealLine p.1 k).toList ++ ls)) {g : Item × Int}
    (hg : g ∈ (lineGiven db p k).toList) :
    ∃ l, dealLine p.1 k = some l ∧ g.1.identity = (orig.inventory l.1).identity := by
  rw [Option.mem_toList] at hg
  unfold lineGiven at hg
  obtain ⟨l, hl, hg⟩ := Option.bind_eq_some_iff.mp hg
  refine ⟨l, hl, ?_⟩
  have hid := hs.backed.identity l (by rw [hl]; simp)
  dsimp only at hg
  generalize (if (p.1.inventory l.1).amount.toInt < l.2 then (p.1.inventory l.1).amount.toInt
    else l.2) = q at hg
  split at hg
  · obtain rfl := Option.some.inj hg
    exact hid
  · cases hg

theorem mem_linesOf {ks : List (Fin 10)} {k : Fin 10} {l : Line} (hk : k ∈ ks)
    (hl : dealLine sd k = some l) : l ∈ linesOf sd ks := List.mem_filterMap.mpr ⟨k, hk, hl⟩

/-- **What a transfer moves was offered.** -/
theorem transferGiven_offered {ks : List (Fin 10)} (hks : ks.Nodup)
    (h : Exchanged db sd targetSd ks p) :
    (∀ g ∈ (transferGiven db p ks).1,
      ∃ l ∈ linesOf sd ks, g.1.identity = (sd.inventory l.1).identity) ∧
    ∀ g ∈ (transferGiven db p ks).2,
      ∃ l ∈ linesOf targetSd ks, g.1.identity = (targetSd.inventory l.1).identity := by
  induction ks generalizing p with
  | nil => simp [transferGiven]
  | cons k ks ih =>
    obtain ⟨hk, hks⟩ := List.nodup_cons.mp hks
    obtain ⟨hrest, hrestT⟩ := ih hks (tradeGiveBoth_exchanged hk h)
    obtain ⟨hside, -, hsideT1, -⟩ := h.halves
    have hlineT : dealLine (tradeGive db p k).swap.1 k = dealLine targetSd k := by
      rw [Prod.fst_swap, tradeGive_dealLine_other]
      exact h.lineT k (by simp)
    constructor
    · intro g hg
      rcases List.mem_append.mp hg with hg | hg
      · obtain ⟨l, hl, hid⟩ := lineGiven_offered hside hg
        exact ⟨l, mem_linesOf (by simp) ((h.line k (by simp)).symm.trans hl), hid⟩
      · obtain ⟨l, hl, hid⟩ := hrest g hg
        exact ⟨l, by rw [linesOf_cons]; exact List.mem_append_right _ hl, hid⟩
    · intro g hg
      rcases List.mem_append.mp hg with hg | hg
      · obtain ⟨l, hl, hid⟩ := lineGiven_offered hsideT1 hg
        exact ⟨l, mem_linesOf (by simp) (hlineT.symm.trans hl), hid⟩
      · obtain ⟨l, hl, hid⟩ := hrestT g hg
        exact ⟨l, by rw [linesOf_cons]; exact List.mem_append_right _ hl, hid⟩

theorem itemRefused_congr {it it' : Item} (h : it.identity = it'.identity) :
    itemRefused db sd it = itemRefused db sd it' := by
  unfold itemRefused
  rw [show it.nameid = it'.nameid from congrArg Identity.nameid h]

/-- A completed commit whose offers are allowed moves nothing that is refused. -/
theorem noTradeKept_step {w : Players} (h : PlayersOk db w) (e : TradeEvent db)
    (hallowed : OffersAllowed db w e) : NoTradeKept db w e := by
  cases e with
  | commit id =>
    intro sd targetSd hsd ht hacc
    obtain ⟨hall, hallT⟩ := hallowed sd targetSd hsd ht hacc
    have hok := h id sd hsd
    have hokT := h _ targetSd ht
    have hlocked : PlayerOk db id { sd with dealLocked := 2 } :=
      hok.of_same rfl rfl rfl hok.partner rfl rfl
    simp only [tradeAccepted, Bool.and_eq_true, Bool.not_eq_true', decide_eq_true_eq] at hacc
    have hstart := hlocked.exchanged hokT hacc.1.1.1.1.2 hacc.1.1.2
    obtain ⟨hgiven, hgivenT⟩ := transferGiven_offered (List.nodup_finRange 10) hstart
    simp only [offerAllowed, List.all_eq_true, Bool.not_eq_true'] at hall hallT
    constructor
    · intro g hg
      obtain ⟨l, hl, hid⟩ := hgiven g hg
      rw [itemRefused_congr hid]
      exact hall l hl
    · intro g hg
      obtain ⟨l, hl, hid⟩ := hgivenT g hg
      rw [itemRefused_congr hid]
      exact hallT l hl
  | _ => trivial

end Given

/-- A database in which the red potion is not for trade. -/
def boundPotion : ItemDb := fun nameid =>
  if nameid = 501 then some { itemdbSearch (fun _ => none) 501 with noTrade := 1 } else none

/-- A player with a potion that is not for trade, and one with zeny. -/
def boundOwner : MapSessionData :=
  { potionOwner with
    inventoryData := fun i => if i.val = 0 then some (itemdbSearch boundPotion 501) else none }

def boundPlayers : Players
  | 1 => some boundOwner
  | 2 => some { boundOwner with id := 2 }
  | _ => none

theorem boundPlayers_start : TradeStart boundPotion boundPlayers := by
  refine ⟨rfl, fun id sd hsd => ?_⟩
  have hslots : SlotsOk boundPotion boundOwner := by decide
  unfold boundPlayers at hsd
  split at hsd
  · obtain rfl := Option.some.inj hsd
    exact ⟨hslots, rfl, rfl, fun _ => rfl, rfl, rfl⟩
  · obtain rfl := Option.some.inj hsd
    exact ⟨hslots, rfl, rfl, fun _ => rfl, rfl, rfl⟩
  · cases hsd

/-- A trade of the potion of the first player. -/
def boundTrade : List (TradeEvent boundPotion) :=
  [.request 1 2 false, .ack 2 3, .additem 1 2 1, .ok 1, .ok 2, .commit 1]

end Nezumi
