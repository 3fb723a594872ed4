import Nezumi.Map.TradeRun

/-!
# Trade sessions (`map/trade.c`)

* `SessionsClean`: partners name each other, and a player without one has no offer left.
* `exchange_clean`: a transfer uses up every line of both offers.
* `sessionOk_step`: every event keeps the invariant, unless it refuses a trade with an offer in it.
* `tradeRun_sessions_iff`: the sessions of a run are clean if and only if no trade is refused after
  an item or zeny was offered in it.
* `tradeRun_not_sessions`: `trade_tradeack` leaves an offer behind that `trade_tradecancel` would
  have cleared.
-/

namespace Nezumi

/-- Nothing is offered. -/
structure DealEmpty (sd : MapSessionData) : Prop where
  amount : ∀ k, sd.dealItemAmount k = 0
  zeny : sd.dealZeny = 0

instance (sd : MapSessionData) : Decidable (DealEmpty sd) :=
  decidable_of_iff (_ ∧ _) ⟨fun h => ⟨h.1, h.2⟩, fun h => ⟨h.amount, h.zeny⟩⟩

/-- The trade state of a player who is in no trade. -/
structure DealClean (sd : MapSessionData) : Prop extends DealEmpty sd where
  index : ∀ k, sd.dealItemIndex k = 0
  locked : sd.dealLocked = 0

/-- Partners name each other, and who has none has a clean trade state. -/
structure SessionsClean (w : Players) : Prop where
  partner : ∀ id sd, w id = some sd → sd.tradePartner ≠ 0 →
    ∃ targetSd, w sd.tradePartner = some targetSd ∧ targetSd.tradePartner = id
  clean : ∀ id sd, w id = some sd → sd.tradePartner = 0 → DealClean sd

/-- A line that comes to an offer names a slot that holds its amount. -/
def LinesBacked (w w' : Players) : Prop :=
  ∀ id sd sd' k, w id = some sd → w' id = some sd' → sd.dealItemAmount k = 0 →
    sd'.dealItemAmount k ≠ 0 → ∃ n, dealSlot (sd'.dealItemIndex k) = some n ∧
      sd'.dealItemAmount k ≤ (sd'.inventory n).amount.toInt

/-- What holds after a step. -/
def SessionStep (conf : TradeConf) (db : ItemDb) (w : Players) (e : TradeEvent db) : Prop :=
  SessionsClean (tradeStep conf db w e) ∧ LinesBacked w (tradeStep conf db w e)

/-- A trade is refused only while nothing is offered in it. -/
def RefusedEmpty (db : ItemDb) (w : Players) : TradeEvent db → Prop
  | .ack id type => type = 4 → ∀ sd targetSd, w id = some sd → w sd.tradePartner = some targetSd →
    DealEmpty sd ∧ DealEmpty targetSd
  | _ => True

instance (db : ItemDb) (w : Players) (e : TradeEvent db) : Decidable (RefusedEmpty db w e) :=
  match e with
  | .ack id type =>
    decidable_of_iff
      (type = 4 → ((w id).all fun sd => (w sd.tradePartner).all fun targetSd =>
        decide (DealEmpty sd ∧ DealEmpty targetSd)) = true)
      (by
        simp only [RefusedEmpty, Option.all_eq_true, decide_eq_true_eq]
        exact ⟨fun h ht sd targetSd hsd htarget => h ht sd hsd targetSd htarget,
          fun h ht sd hsd targetSd htarget => h ht sd targetSd hsd htarget⟩)
  | .request .. | .additem .. | .ok _ | .cancel _ | .commit _ | .other .. => .isTrue trivial

/-- The lines of an offer: no amount is negative, and an unused line has no index. -/
structure LinesTidy (sd : MapSessionData) : Prop where
  nonneg : ∀ k, 0 ≤ sd.dealItemAmount k
  index : ∀ k, sd.dealItemAmount k = 0 → sd.dealItemIndex k = 0

/-- The invariant of a run. -/
structure SessionOk (db : ItemDb) (w : Players) : Prop extends SessionsClean w where
  players : PlayersOk db w
  tidy : ∀ id sd, w id = some sd → LinesTidy sd

/-! ## The lines of a transfer -/

section Transfer

variable {db : ItemDb} {sd targetSd : MapSessionData} {p : MapSessionData × MapSessionData}

/-- A line that stays where it is leaves the others backed. -/
theorem Backed.tail {orig inventory : Inventory} {l : Line} {ls : List Line}
    (h : Backed orig inventory (l :: ls)) : Backed orig inventory ls := by
  have hpos := (h.line).1
  refine ⟨fun x hx => h.pos x (by simp [hx]), fun x hx => h.identity x (by simp [hx]), fun n => ?_⟩
  have hroom := h.room n
  rw [Sums.tally_cons] at hroom
  split at hroom <;> omega

/-- A line that is backed is used up by the transfer, and leaves the others backed, whether
`pc_additem` takes it or not. -/
theorem tradeGive_backed {orig origT : MapSessionData} {ls lsT : List Line} {k : Fin 10}
    (hs : Side db orig p.1 ((dealLine p.1 k).toList ++ ls)) (ht : Side db origT p.2 lsT) :
    Side db orig (tradeGive db p k).1 ls ∧ Side db origT (tradeGive db p k).2 lsT ∧
      (dealLine p.1 k ≠ none →
        (tradeGive db p k).1.dealItemAmount k = 0 ∧ (tradeGive db p k).1.dealItemIndex k = 0) := by
  obtain ⟨sd, targetSd⟩ := p
  dsimp only at hs ht
  unfold tradeGive
  dsimp only
  cases hline : dealLine sd k with
  | none =>
    rw [hline] at hs
    exact ⟨hs, ht, fun h => absurd rfl h⟩
  | some l =>
    obtain ⟨n, q⟩ := l
    rw [hline] at hs
    have hback : Backed orig.inventory sd.inventory ((n, q) :: ls) := hs.backed
    obtain ⟨hq, hle⟩ := hback.line
    dsimp only at hq hle
    have hlt : q < 2 ^ 15 := by have := (sd.inventory n).amount.toInt_lt; omega
    dsimp only
    rw [if_neg (show ¬(sd.inventory n).amount.toInt < q by omega), if_pos hq]
    refine ⟨?_, ht.receive hlt, fun _ => by simp⟩
    split
    · have hdel := hs.slots.pcDelitem_eq hq hle
      refine ⟨hs.slots.pcDelitem hq hle, ?_⟩
      dsimp only
      rw [hdel]
      exact hback.take
    · exact ⟨hs.slots, hback.tail⟩

/-- A running transfer: the lines of both offers that are left are backed. -/
structure Exchanged (db : ItemDb) (sd targetSd : MapSessionData) (ks : List (Fin 10))
    (p : MapSessionData × MapSessionData) : Prop where
  side : Side db sd p.1 (linesOf sd ks)
  sideT : Side db targetSd p.2 (linesOf targetSd ks)
  line : ∀ k ∈ ks, dealLine p.1 k = dealLine sd k
  lineT : ∀ k ∈ ks, dealLine p.2 k = dealLine targetSd k

/-- The lines of both offers that are not left are used up. -/
structure UsedUp (ks : List (Fin 10)) (p : MapSessionData × MapSessionData) : Prop where
  used : ∀ k ∉ ks, dealLine p.1 k = none
  usedT : ∀ k ∉ ks, dealLine p.2 k = none
  tidy : LinesTidy p.1
  tidyT : LinesTidy p.2

theorem LinesTidy.of_update {sd' : MapSessionData} {k : Fin 10} {index amount : Int}
    (h : LinesTidy sd) (hi : sd'.dealItemIndex = Function.update sd.dealItemIndex k index)
    (ha : sd'.dealItemAmount = Function.update sd.dealItemAmount k amount)
    (hpos : 0 ≤ amount) (hzero : amount = 0 → index = 0) : LinesTidy sd' := by
  constructor <;> intro j <;> rw [ha] <;> rcases eq_or_ne j k with rfl | hj
  · rw [Function.update_self]
    exact hpos
  · rw [Function.update_of_ne hj]
    exact h.nonneg j
  · rw [Function.update_self, hi, Function.update_self]
    exact hzero
  · rw [Function.update_of_ne hj, hi, Function.update_of_ne hj]
    exact h.index j

theorem dealLine_of_zero {k : Fin 10} (h : sd.dealItemAmount k = 0) : dealLine sd k = none := by
  unfold dealLine
  rw [if_neg (by omega)]

theorem tradeGive_of_none {k : Fin 10} (h : dealLine p.1 k = none) : tradeGive db p k = p := by
  obtain ⟨sd, targetSd⟩ := p
  dsimp only at h
  unfold tradeGive
  dsimp only
  rw [h]

/-- A line that is given is used up, and the offers stay tidy. -/
theorem tradeGive_tidy {orig origT : MapSessionData} {ls lsT : List Line} {k : Fin 10}
    (hs : Side db orig p.1 ((dealLine p.1 k).toList ++ ls)) (ht : Side db origT p.2 lsT)
    (hp : LinesTidy p.1) (hpT : LinesTidy p.2) :
    LinesTidy (tradeGive db p k).1 ∧ LinesTidy (tradeGive db p k).2 ∧
      dealLine (tradeGive db p k).1 k = none := by
  obtain ⟨-, -, hused⟩ := tradeGive_backed hs ht
  obtain ⟨⟨_, _, _, index, amount, -, h1⟩, _, _, _, h2⟩ := tradeGive_frame db p k
  have htidyT : LinesTidy (tradeGive db p k).2 := by
    rw [h2]
    exact ⟨hpT.nonneg, hpT.index⟩
  by_cases hline : dealLine p.1 k = none
  · rw [tradeGive_of_none hline]
    exact ⟨hp, hpT, hline⟩
  · obtain ⟨ha, hi⟩ := hused hline
    refine ⟨?_, htidyT, dealLine_of_zero ha⟩
    rw [h1] at ha hi ⊢
    dsimp only at ha hi
    rw [Function.update_self] at ha hi
    subst ha hi
    exact hp.of_update rfl rfl le_rfl fun _ => rfl

theorem tradeGiveBoth_dealLine (db : ItemDb) (p : MapSessionData × MapSessionData) {k j : Fin 10}
    (hj : j ≠ k) : dealLine (tradeGiveBoth db p k).1 j = dealLine p.1 j ∧
      dealLine (tradeGiveBoth db p k).2 j = dealLine p.2 j := by
  unfold tradeGiveBoth
  rw [Prod.fst_swap, Prod.snd_swap, tradeGive_dealLine_other, tradeGive_dealLine db _ hj,
    Prod.snd_swap, Prod.fst_swap, tradeGive_dealLine db p hj, tradeGive_dealLine_other]
  exact ⟨rfl, rfl⟩

/-- The sides before and after the first half of a line. -/
theorem Exchanged.halves {k : Fin 10} {ks : List (Fin 10)}
    (h : Exchanged db sd targetSd (k :: ks) p) :
    Side db sd p.1 ((dealLine p.1 k).toList ++ linesOf sd ks) ∧
      Side db targetSd p.2 (linesOf targetSd (k :: ks)) ∧
      Side db targetSd (tradeGive db p k).swap.1
        ((dealLine (tradeGive db p k).swap.1 k).toList ++ linesOf targetSd ks) ∧
      Side db sd (tradeGive db p k).swap.2 (linesOf sd ks) := by
  have hside := h.side
  rw [linesOf_cons, ← h.line k (by simp)] at hside
  obtain ⟨hside1, hsideT1, -⟩ := tradeGive_backed hside h.sideT
  have hlineT : dealLine (tradeGive db p k).swap.1 k = dealLine targetSd k := by
    rw [Prod.fst_swap, tradeGive_dealLine_other]
    exact h.lineT k (by simp)
  rw [linesOf_cons, ← hlineT] at hsideT1
  exact ⟨hside, h.sideT, hsideT1, hside1⟩

/-- **A line both ways.** -/
theorem tradeGiveBoth_exchanged {k : Fin 10} {ks : List (Fin 10)} (hk : k ∉ ks)
    (h : Exchanged db sd targetSd (k :: ks) p) :
    Exchanged db sd targetSd ks (tradeGiveBoth db p k) := by
  obtain ⟨-, -, hsideT1, hside1⟩ := h.halves
  obtain ⟨hsideT2, hside2, -⟩ := tradeGive_backed hsideT1 hside1
  have hne : ∀ j ∈ ks, j ≠ k := by rintro j hj rfl; exact hk hj
  refine ⟨hside2, hsideT2, fun j hj => ?_, fun j hj => ?_⟩
  · rw [(tradeGiveBoth_dealLine db p (hne j hj)).1]
    exact h.line j (by simp [hj])
  · rw [(tradeGiveBoth_dealLine db p (hne j hj)).2]
    exact h.lineT j (by simp [hj])

theorem tradeGiveBoth_usedUp {k : Fin 10} {ks : List (Fin 10)}
    (h : Exchanged db sd targetSd (k :: ks) p) (hu : UsedUp (k :: ks) p) :
    UsedUp ks (tradeGiveBoth db p k) := by
  obtain ⟨hside, hsideT, hsideT1, hside1⟩ := h.halves
  obtain ⟨htidy1, htidyT1, hused1⟩ := tradeGive_tidy hside hsideT hu.tidy hu.tidyT
  obtain ⟨htidyT2, htidy2, husedT2⟩ := tradeGive_tidy hsideT1 hside1 htidyT1 htidy1
  have hfirst : dealLine (tradeGiveBoth db p k).1 k = none := by
    unfold tradeGiveBoth
    rw [Prod.fst_swap, tradeGive_dealLine_other, Prod.snd_swap]
    exact hused1
  refine ⟨fun j hj => ?_, fun j hj => ?_, htidy2, htidyT2⟩
  · rcases eq_or_ne j k with rfl | hjk
    · exact hfirst
    · rw [(tradeGiveBoth_dealLine db p hjk).1]
      exact hu.used j (by simp [hj, hjk])
  · rcases eq_or_ne j k with rfl | hjk
    · exact husedT2
    · rw [(tradeGiveBoth_dealLine db p hjk).2]
      exact hu.usedT j (by simp [hj, hjk])

theorem exchange_usedUp {ks : List (Fin 10)} (hks : ks.Nodup)
    (h : Exchanged db sd targetSd ks p) (hu : UsedUp ks p) :
    UsedUp [] (ks.foldl (tradeGiveBoth db) p) := by
  induction ks generalizing p with
  | nil => exact hu
  | cons k ks ih =>
    obtain ⟨hk, hks⟩ := List.nodup_cons.mp hks
    exact ih hks (tradeGiveBoth_exchanged hk h) (tradeGiveBoth_usedUp h hu)

/-- A transfer that begins. -/
theorem PlayerOk.exchanged {id idT : Int} (hsd : PlayerOk db id sd) (ht : PlayerOk db idT targetSd)
    (hcheck : impossibleTradeCheck sd = false) (hcheckT : impossibleTradeCheck targetSd = false) :
    Exchanged db sd targetSd (List.finRange 10) (sd, targetSd) :=
  ⟨hsd.side hcheck, ht.side hcheckT, fun _ _ => rfl, fun _ _ => rfl⟩

/-- An offer whose lines are all used up. -/
theorem LinesTidy.clean (h : LinesTidy sd) (hdeal : DealOk sd) (hused : ∀ k, dealLine sd k = none) :
    (∀ k, sd.dealItemAmount k = 0) ∧ ∀ k, sd.dealItemIndex k = 0 := by
  have hzero : ∀ k, sd.dealItemAmount k = 0 := by
    intro k
    have hnn := h.nonneg k
    by_contra hne
    obtain ⟨n, hn⟩ := (hdeal k).2 (by omega)
    have hk := hused k
    unfold dealLine at hk
    rw [if_pos (by omega), hn] at hk
    cases hk
  exact ⟨hzero, fun k => h.index k (hzero k)⟩

/-- **A transfer uses up both offers.** -/
theorem exchange_clean {id idT : Int} (hsd : PlayerOk db id sd) (ht : PlayerOk db idT targetSd)
    (htidy : LinesTidy sd) (htidyT : LinesTidy targetSd)
    (hcheck : impossibleTradeCheck sd = false) (hcheckT : impossibleTradeCheck targetSd = false) :
    DealClean (tradeTransfer db sd targetSd).1 ∧ DealClean (tradeTransfer db sd targetSd).2 := by
  have hend := exchange_usedUp (List.nodup_finRange 10) (hsd.exchanged ht hcheck hcheckT)
    ⟨fun k hk => absurd (List.mem_finRange k) hk, fun k hk => absurd (List.mem_finRange k) hk,
      htidy, htidyT⟩
  obtain ⟨hdeal, hdealT⟩ := exchange_dealOk db (p := (sd, targetSd)) (List.finRange 10)
    hsd.deal ht.deal
  obtain ⟨ha, hi⟩ := hend.tidy.clean hdeal fun k => hend.used k (by simp)
  obtain ⟨haT, hiT⟩ := hend.tidyT.clean hdealT fun k => hend.usedT k (by simp)
  exact ⟨⟨⟨ha, rfl⟩, hi, rfl⟩, ⟨⟨haT, rfl⟩, hiT, rfl⟩⟩

end Transfer

/-! ## What an event does to the sessions -/

section Steps

variable {db : ItemDb} {w : Players} {sd targetSd sd' targetSd' : MapSessionData} {id : Int}

theorem SessionOk.zero (h : SessionOk db w) : w 0 = none := by
  cases hw : w 0 with
  | none => rfl
  | some sd => exact absurd rfl (h.players 0 sd hw).ne_zero

/-- A player who stays in the trade it is in. -/
theorem SessionOk.set (h : SessionOk db w) (hsd : w id = some sd) (hok : PlayerOk db id sd')
    (hpartner : sd'.tradePartner = sd.tradePartner) (htidy : LinesTidy sd')
    (hclean : sd.tradePartner = 0 → DealClean sd') : SessionOk db (w.set sd') := by
  have hself : (w.set sd') id = some sd' := by rw [Players.set, hok.key, Function.update_self]
  have hother : ∀ i, i ≠ id → (w.set sd') i = w i := fun i hi => by
    rw [Players.set, hok.key, Function.update_of_ne hi]
  refine ⟨⟨fun i si hi hp => ?_, fun i si hi hp => ?_⟩, h.players.set hok, fun i si hi => ?_⟩
  all_goals rcases eq_or_ne i id with rfl | hne
  · rw [hself] at hi
    obtain rfl := Option.some.inj hi
    rw [hpartner] at hp
    obtain ⟨t, ht, htp⟩ := h.partner i sd hsd hp
    rw [hpartner, hother _ (h.players i sd hsd).partner]
    exact ⟨t, ht, htp⟩
  · rw [hother i hne] at hi
    obtain ⟨t, ht, htp⟩ := h.partner i si hi hp
    rcases eq_or_ne si.tradePartner id with he | hn
    · rw [he, hsd] at ht
      obtain rfl := Option.some.inj ht
      exact ⟨sd', by rw [he]; exact hself, hpartner.trans htp⟩
    · exact ⟨t, by rw [hother _ hn]; exact ht, htp⟩
  · rw [hself] at hi
    obtain rfl := Option.some.inj hi
    exact hclean (hpartner.symm.trans hp)
  · rw [hother i hne] at hi
    exact h.clean i si hi hp
  · rw [hself] at hi
    obtain rfl := Option.some.inj hi
    exact htidy
  · rw [hother i hne] at hi
    exact h.tidy i si hi

theorem DealClean.tidy (h : DealClean sd) : LinesTidy sd :=
  ⟨fun k => (h.amount k).ge, fun k _ => h.index k⟩

/-- Two players whose trade begins or ends: nobody else has one of them as a partner. -/
theorem SessionOk.set_both (h : SessionOk db w) (hsd : w id = some sd)
    {idT : Int} (ht : w idT = some targetSd) (hne : id ≠ idT) (hok : PlayerOk db id sd')
    (hokT : PlayerOk db idT targetSd')
    (hold : sd.tradePartner = 0 ∧ targetSd.tradePartner = 0 ∨
      sd.tradePartner = idT ∧ targetSd.tradePartner = id)
    (hnew : sd'.tradePartner = 0 ∧ targetSd'.tradePartner = 0 ∨
      sd'.tradePartner = idT ∧ targetSd'.tradePartner = id)
    (hclean : DealClean sd') (hcleanT : DealClean targetSd') :
    SessionOk db ((w.set sd').set targetSd') := by
  have hT : ((w.set sd').set targetSd') idT = some targetSd' := by
    rw [Players.set, hokT.key, Function.update_self]
  have hS : ((w.set sd').set targetSd') id = some sd' := by
    rw [Players.set, hokT.key, Function.update_of_ne hne, Players.set, hok.key,
      Function.update_self]
  have hother : ∀ i, i ≠ id → i ≠ idT → ((w.set sd').set targetSd') i = w i := fun i h1 h2 => by
    rw [Players.set, hokT.key, Function.update_of_ne h2, Players.set, hok.key,
      Function.update_of_ne h1]
  have hid := (h.players id sd hsd).ne_zero
  have hidT := (h.players idT targetSd ht).ne_zero
  have hapart : ∀ i si, w i = some si → i ≠ id → i ≠ idT → si.tradePartner ≠ 0 →
      si.tradePartner ≠ id ∧ si.tradePartner ≠ idT := by
    intro i si hi h1 h2 hp
    obtain ⟨t, hwt, htp⟩ := h.partner i si hi hp
    constructor
    · intro he
      rw [he, hsd] at hwt
      obtain rfl := Option.some.inj hwt
      have := (h.players i si hi).ne_zero
      rcases hold with ⟨h0, -⟩ | ⟨h0, -⟩ <;> omega
    · intro he
      rw [he, ht] at hwt
      obtain rfl := Option.some.inj hwt
      have := (h.players i si hi).ne_zero
      rcases hold with ⟨-, h0⟩ | ⟨-, h0⟩ <;> omega
  refine ⟨⟨fun i si hi hp => ?_, fun i si hi hp => ?_⟩, (h.players.set hok).set hokT,
    fun i si hi => ?_⟩
  all_goals
    rcases eq_or_ne i id with rfl | h1
    · rw [hS] at hi
      obtain rfl := Option.some.inj hi
      first
        | exact hclean
        | exact hclean.tidy
        | exact ⟨targetSd', by rw [(hnew.resolve_left fun h0 => hp h0.1).1]; exact hT,
            (hnew.resolve_left fun h0 => hp h0.1).2⟩
    rcases eq_or_ne i idT with rfl | h2
    · rw [hT] at hi
      obtain rfl := Option.some.inj hi
      first
        | exact hcleanT
        | exact hcleanT.tidy
        | exact ⟨sd', by rw [(hnew.resolve_left fun h0 => hp h0.2).2]; exact hS,
            (hnew.resolve_left fun h0 => hp h0.2).1⟩
    rw [hother i h1 h2] at hi
  · obtain ⟨hn, hnT⟩ := hapart i si hi h1 h2 hp
    rw [hother _ hn hnT]
    exact h.partner i si hi hp
  · exact h.clean i si hi hp
  · exact h.tidy i si hi

/-- The lines of every offer stay as they are or go away. -/
def LinesKept (w w' : Players) : Prop :=
  ∀ id sd, w id = some sd → ∃ sd', w' id = some sd' ∧
    ∀ k, sd'.dealItemAmount k = sd.dealItemAmount k ∨ sd'.dealItemAmount k = 0

theorem LinesKept.refl (w : Players) : LinesKept w w := fun _ sd h => ⟨sd, h, fun _ => .inl rfl⟩

theorem LinesKept.trans {w' w'' : Players} (h : LinesKept w w') (h' : LinesKept w' w'') :
    LinesKept w w'' := by
  intro id sd hsd
  obtain ⟨sd', hsd', h1⟩ := h id sd hsd
  obtain ⟨sd'', hsd'', h2⟩ := h' id sd' hsd'
  refine ⟨sd'', hsd'', fun k => ?_⟩
  rcases h2 k with h2 | h2
  · rw [h2]
    exact h1 k
  · exact .inr h2

theorem LinesKept.set (sd : MapSessionData) (hsd : w sd'.id = some sd)
    (h : ∀ k, sd'.dealItemAmount k = sd.dealItemAmount k ∨ sd'.dealItemAmount k = 0) :
    LinesKept w (w.set sd') := by
  intro id old hold
  rcases eq_or_ne id sd'.id with rfl | hne
  · rw [hsd] at hold
    obtain rfl := Option.some.inj hold
    exact ⟨sd', by rw [Players.set, Function.update_self], h⟩
  · exact ⟨old, by rw [Players.set, Function.update_of_ne hne]; exact hold, fun _ => .inl rfl⟩

theorem LinesKept.set_both (sd targetSd : MapSessionData) (hsd : w sd'.id = some sd)
    (ht : w targetSd'.id = some targetSd)
    (hne : sd'.id ≠ targetSd'.id)
    (h : ∀ k, sd'.dealItemAmount k = sd.dealItemAmount k ∨ sd'.dealItemAmount k = 0)
    (hT : ∀ k, targetSd'.dealItemAmount k = targetSd.dealItemAmount k ∨
      targetSd'.dealItemAmount k = 0) : LinesKept w ((w.set sd').set targetSd') := by
  refine (LinesKept.set sd hsd h).trans (.set targetSd ?_ hT)
  rw [Players.set, Function.update_of_ne hne.symm]
  exact ht

theorem LinesKept.backed {w' : Players} (h : LinesKept w w') : LinesBacked w w' := by
  intro id sd sd' k hsd hsd' hzero hne
  obtain ⟨sd'', hsd'', hk⟩ := h id sd hsd
  rw [hsd'] at hsd''
  obtain rfl := Option.some.inj hsd''
  rcases hk k with hk | hk
  · exact absurd (hk.trans hzero) hne
  · exact absurd hk hne

/-- The partner of a player names it. -/
theorem SessionOk.partner_eq (h : SessionOk db w) (hsd : w id = some sd)
    (ht : w sd.tradePartner = some targetSd) :
    targetSd.tradePartner = id ∧ id ≠ sd.tradePartner := by
  have hne : sd.tradePartner ≠ 0 := fun h0 => by
    rw [h0, h.zero] at ht
    cases ht
  obtain ⟨t, hwt, htp⟩ := h.partner id sd hsd hne
  rw [ht] at hwt
  obtain rfl := Option.some.inj hwt
  exact ⟨htp, (h.players id sd hsd).partner.symm⟩

theorem clearDeal_clean (h : LinesTidy sd) : DealClean (clearDeal sd) := by
  refine ⟨⟨fun _ => rfl, rfl⟩, fun k => ?_, rfl⟩
  by_cases h0 : sd.dealItemAmount k = 0
  · exact (if_neg (not_not.mpr h0)).trans (h.index k h0)
  · exact if_pos h0

/-- **`trade_tradecancel`**, of a player whose lines may just have changed. -/
theorem SessionOk.cancel (h : SessionOk db w) (hsd : w id = some sd) (hok : PlayerOk db id sd')
    (hpartner : sd'.tradePartner = sd.tradePartner) (htidy : LinesTidy sd') :
    SessionOk db (tradeTradecancel w sd') ∧ LinesKept w (tradeTradecancel w sd') := by
  unfold tradeTradecancel
  split
  · exact ⟨h, .refl w⟩
  · rename_i targetSd ht
    rw [hpartner] at ht
    obtain ⟨htp, hne⟩ := h.partner_eq hsd ht
    have hokT := h.players _ targetSd ht
    constructor
    · exact h.set_both hsd ht hne hok.clearDeal hokT.clearDeal (.inr ⟨rfl, htp⟩) (.inl ⟨rfl, rfl⟩)
        (clearDeal_clean htidy) (clearDeal_clean (h.tidy _ _ ht))
    · refine LinesKept.set_both sd targetSd ?_ ?_ ?_ (fun _ => .inr rfl)
        fun _ => .inr rfl
      · exact (congrArg w hok.key).trans hsd
      · exact (congrArg w hokT.key).trans ht
      · change sd'.id ≠ targetSd.id
        rw [hok.key, hokT.key]
        exact hne

/-- A clean player in a trade that begins. -/
theorem DealClean.withPartner (h : DealClean sd) (p : Int) :
    DealClean { sd with tradePartner := p } := ⟨⟨h.amount, h.zeny⟩, h.index, h.locked⟩

theorem SessionOk.request (h : SessionOk db w) (conf : TradeConf) (hsd : w id = some sd)
    (targetId : Int) (nearCheck : Bool) :
    SessionOk db (tradeTraderequest conf w sd targetId nearCheck) ∧
      LinesKept w (tradeTraderequest conf w sd targetId nearCheck) := by
  have hok := h.players id sd hsd
  unfold tradeTraderequest
  split
  · exact ⟨h, .refl w⟩
  rename_i targetSd ht
  have hokT := h.players _ _ ht
  split
  · exact ⟨h, .refl w⟩
  split
  · exact ⟨h, .refl w⟩
  rename_i hfreeT
  split
  · exact h.cancel hsd hok rfl (h.tidy id sd hsd)
  rename_i hfree
  split
  · exact ⟨h, .refl w⟩
  split
  · exact ⟨h, .refl w⟩
  split
  · exact ⟨h, .refl w⟩
  rename_i hne
  rw [not_not] at hfreeT hfree
  rw [hok.key, hokT.key] at hne
  have hnew : PlayerOk db id { sd with tradePartner := targetSd.id } :=
    hok.of_same rfl rfl rfl (by rw [hokT.key]; exact Ne.symm hne) rfl rfl
  have hnewT : PlayerOk db targetId { targetSd with tradePartner := sd.id } :=
    hokT.of_same rfl rfl rfl (by rw [hok.key]; exact hne) rfl rfl
  constructor
  · exact h.set_both ht hsd (Ne.symm hne) hnewT hnew (.inl ⟨hfreeT, hfree⟩)
      (.inr ⟨hok.key, hokT.key⟩) ((h.clean _ _ ht hfreeT).withPartner sd.id)
      ((h.clean _ _ hsd hfree).withPartner targetSd.id)
  · refine LinesKept.set_both targetSd sd ?_ ?_ ?_ (fun _ => .inl rfl)
      fun _ => .inl rfl
    · exact (congrArg w hokT.key).trans ht
    · exact (congrArg w hok.key).trans hsd
    · change targetSd.id ≠ sd.id
      rw [hok.key, hokT.key]
      exact Ne.symm hne

/-- A player who leaves a trade in which it has offered nothing. -/
theorem DealEmpty.left (h : DealEmpty sd) (htidy : LinesTidy sd) :
    DealClean { sd with dealLocked := 0, tradePartner := 0 } :=
  ⟨⟨h.amount, h.zeny⟩, fun k => htidy.index k (h.amount k), rfl⟩

theorem SessionOk.ack (h : SessionOk db w) (hsd : w id = some sd) (type : Nat)
    (hempty : RefusedEmpty db w (.ack id type)) :
    SessionOk db (tradeTradeack w sd type) ∧ LinesKept w (tradeTradeack w sd type) := by
  have hok := h.players id sd hsd
  unfold tradeTradeack
  split
  · exact ⟨h, .refl w⟩
  split
  · exact ⟨h, .refl w⟩
  rename_i targetSd ht
  split
  swap
  · exact ⟨h, .refl w⟩
  rename_i htype
  have hokT := h.players _ _ ht
  obtain ⟨htp, hne⟩ := h.partner_eq hsd ht
  obtain ⟨hemptyS, hemptyT⟩ := hempty htype sd targetSd hsd ht
  have hnew : PlayerOk db id { sd with dealLocked := 0, tradePartner := 0 } :=
    hok.of_same rfl rfl rfl hok.ne_zero.symm rfl rfl
  have hnewT : PlayerOk db sd.tradePartner { targetSd with dealLocked := 0, tradePartner := 0 } :=
    hokT.of_same rfl rfl rfl hokT.ne_zero.symm rfl rfl
  constructor
  · exact h.set_both hsd ht hne hnew hnewT (.inr ⟨rfl, htp⟩) (.inl ⟨rfl, rfl⟩)
      (hemptyS.left (h.tidy _ _ hsd)) (hemptyT.left (h.tidy _ _ ht))
  · refine LinesKept.set_both sd targetSd ?_ ?_ ?_ (fun _ => .inl rfl)
      fun _ => .inl rfl
    · exact (congrArg w hok.key).trans hsd
    · exact (congrArg w hokT.key).trans ht
    · change sd.id ≠ targetSd.id
      rw [hok.key, hokT.key]
      exact hne

/-- A player in a trade who offers zeny or presses `ok`. -/
theorem SessionOk.offer (h : SessionOk db w) (hsd : w id = some sd)
    (ht : w sd.tradePartner = some targetSd) (dealZeny dealLocked : Int) :
    SessionOk db (w.set { sd with dealZeny := dealZeny, dealLocked := dealLocked }) ∧
      LinesKept w (w.set { sd with dealZeny := dealZeny, dealLocked := dealLocked }) := by
  have hok := h.players id sd hsd
  have hnew : PlayerOk db id { sd with dealZeny := dealZeny, dealLocked := dealLocked } :=
    hok.of_same rfl rfl rfl hok.partner rfl rfl
  have htidy := h.tidy id sd hsd
  refine ⟨h.set hsd hnew rfl ⟨htidy.nonneg, htidy.index⟩ fun h0 => ?_,
    LinesKept.set sd ((congrArg w hok.key).trans hsd) fun _ => .inl rfl⟩
  rw [h0, h.zero] at ht
  cases ht

theorem SessionOk.additem (h : SessionOk db w) (hsd : w id = some sd) (idx amount : Int) :
    SessionOk db (tradeTradeadditem w sd idx amount) ∧
      LinesBacked w (tradeTradeadditem w sd idx amount) := by
  have hok := h.players id sd hsd
  have htidy := h.tidy id sd hsd
  have hstay : SessionOk db w ∧ LinesBacked w w := ⟨h, (LinesKept.refl w).backed⟩
  have hcancel : ∀ sd', PlayerOk db id sd' → sd'.tradePartner = sd.tradePartner → LinesTidy sd' →
      SessionOk db (tradeTradecancel w sd') ∧ LinesBacked w (tradeTradecancel w sd') := by
    intro sd' hok' hp' htidy'
    obtain ⟨h1, h2⟩ := h.cancel hsd hok' hp' htidy'
    exact ⟨h1, h2.backed⟩
  unfold tradeTradeadditem
  split
  · exact hstay
  rename_i targetSd ht
  split
  · exact hstay
  split
  · split
    · split
      · obtain ⟨h1, h2⟩ := h.offer hsd ht amount sd.dealLocked
        exact ⟨h1, h2.backed⟩
      · split
        · exact hcancel sd hok rfl htidy
        · exact hstay
    · exact hstay
  rename_i n hn
  split
  swap
  · exact hstay
  rename_i hamount
  split
  · exact hstay
  rename_i k hk
  dsimp only
  split
  · exact hstay
  split
  · exact hcancel sd hok rfl htidy
  have hnew : PlayerOk db id { sd with
      dealItemIndex := Function.update sd.dealItemIndex k idx
      dealItemAmount := Function.update sd.dealItemAmount k amount } := by
    refine ⟨hok.slots, hok.ne_zero, hok.key, hok.partner, fun j => ?_⟩
    dsimp only
    rcases eq_or_ne j k with rfl | hj
    · rw [Function.update_self, Function.update_self]
      have := (sd.inventory n).amount.toInt_lt
      exact ⟨by omega, fun _ => ⟨n, hn⟩⟩
    · rw [Function.update_of_ne hj, Function.update_of_ne hj]
      exact hok.deal j
  have htidy' : LinesTidy { sd with
      dealItemIndex := Function.update sd.dealItemIndex k idx
      dealItemAmount := Function.update sd.dealItemAmount k amount } :=
    htidy.of_update rfl rfl hamount.1.le fun h0 => by omega
  split
  · exact hcancel _ hnew rfl htidy'
  refine ⟨h.set hsd hnew rfl htidy' fun h0 => ?_, fun i si si' j hi hi' hzero hne => ?_⟩
  · rw [h0, h.zero] at ht
    cases ht
  rcases eq_or_ne i sd.id with rfl | hi0
  · rw [hok.key, hsd] at hi
    obtain rfl := Option.some.inj hi
    rw [Players.set, Function.update_self] at hi'
    obtain rfl := Option.some.inj hi'
    dsimp only at hne ⊢
    rcases eq_or_ne j k with rfl | hj
    · rw [Function.update_self, Function.update_self]
      exact ⟨n, hn, hamount.2⟩
    · rw [Function.update_of_ne hj] at hne
      exact absurd hzero hne
  · rw [Players.set, Function.update_of_ne hi0, hi] at hi'
    obtain rfl := Option.some.inj hi'
    exact absurd hzero hne

theorem SessionOk.ok (h : SessionOk db w) (hsd : w id = some sd) :
    SessionOk db (tradeTradeok w sd) ∧ LinesKept w (tradeTradeok w sd) := by
  have hcancel := h.cancel hsd (h.players id sd hsd) rfl (h.tidy id sd hsd)
  unfold tradeTradeok
  split
  · exact hcancel
  split
  · exact hcancel
  split
  · exact hcancel
  split
  · exact ⟨h, .refl w⟩
  · rename_i targetSd ht
    exact h.offer hsd ht sd.dealZeny 1

theorem SessionOk.commit (h : SessionOk db w) (hsd : w id = some sd) :
    SessionOk db (tradeTradecommit db w sd) ∧ LinesKept w (tradeTradecommit db w sd) := by
  have hok := h.players id sd hsd
  have htidy := h.tidy id sd hsd
  unfold tradeTradecommit
  split
  · exact ⟨h, .refl w⟩
  rename_i targetSd ht
  split
  swap
  · exact ⟨h, .refl w⟩
  obtain ⟨htp, hne⟩ := h.partner_eq hsd ht
  have hokT := h.players _ targetSd ht
  obtain ⟨hset, hkept⟩ := h.offer hsd ht sd.dealZeny 2
  have hlocked : PlayerOk db id { sd with dealLocked := 2 } :=
    hok.of_same rfl rfl rfl hok.partner rfl rfl
  have hself : (w.set { sd with dealLocked := 2 }) id = some { sd with dealLocked := 2 } := by
    rw [Players.set, hok.key, Function.update_self]
  have hother : (w.set { sd with dealLocked := 2 }) sd.tradePartner = some targetSd := by
    rw [Players.set, hok.key, Function.update_of_ne hok.partner]
    exact ht
  have htidyL : LinesTidy { sd with dealLocked := 2 } := ⟨htidy.nonneg, htidy.index⟩
  obtain ⟨hcancel, hkeptC⟩ := hset.cancel hself hlocked rfl htidyL
  obtain ⟨hcancelT, hkeptT⟩ := hset.cancel hother hokT rfl (h.tidy _ _ ht)
  dsimp only
  split
  swap
  · exact ⟨hset, hkept⟩
  split
  · exact ⟨hcancel, hkept.trans hkeptC⟩
  rename_i hcheck
  split
  · exact ⟨hcancel, hkept.trans hkeptC⟩
  split
  · exact ⟨hcancelT, hkept.trans hkeptT⟩
  rename_i hcheckT
  split
  swap
  · exact ⟨hcancel, hkept.trans hkeptC⟩
  split
  · exact ⟨hcancel, hkept.trans hkeptC⟩
  rw [Bool.not_eq_true] at hcheck hcheckT
  obtain ⟨hend, hendT⟩ := hlocked.transfer hokT
  obtain ⟨hclean, hcleanT⟩ := exchange_clean hlocked hokT htidyL (h.tidy _ _ ht) hcheck hcheckT
  constructor
  · exact hset.set_both hself hother hne hend hendT (.inr ⟨rfl, htp⟩) (.inl ⟨rfl, rfl⟩) hclean
      hcleanT
  · refine hkept.trans (.set_both { sd with dealLocked := 2 } targetSd
      ?_ ?_ ?_ (fun k => .inr (hclean.amount k)) fun k => .inr (hcleanT.amount k))
    · rw [hend.key]
      exact hself
    · rw [hendT.key]
      exact hother
    · rw [hend.key, hendT.key]
      exact hne

/-- Anything else that happens to a player. -/
theorem SessionOk.other (h : SessionOk db w) (hsd : w id = some sd) (slots : SlotsOk db sd') :
    SessionOk db (w.set (keepDeal sd sd')) ∧ LinesKept w (w.set (keepDeal sd sd')) := by
  have hok := h.players id sd hsd
  have htidy := h.tidy id sd hsd
  have hnew : PlayerOk db id (keepDeal sd sd') :=
    ⟨slots, hok.ne_zero, hok.key, hok.partner, hok.deal⟩
  refine ⟨h.set hsd hnew rfl ⟨htidy.nonneg, htidy.index⟩ fun h0 => ?_,
    LinesKept.set sd ((congrArg w hok.key).trans hsd) fun _ => .inl rfl⟩
  have hclean := h.clean id sd hsd h0
  exact ⟨⟨hclean.amount, hclean.zeny⟩, hclean.index, hclean.locked⟩

theorem SessionOk.elim (h : SessionOk db w) {f : MapSessionData → Players}
    (hf : ∀ sd, w id = some sd → SessionOk db (f sd) ∧ LinesBacked w (f sd)) :
    SessionOk db ((w id).elim w f) ∧ LinesBacked w ((w id).elim w f) := by
  cases hsd : w id with
  | none => exact ⟨h, (LinesKept.refl w).backed⟩
  | some sd => exact hf sd hsd

/-- **Every event keeps the sessions clean**, unless it refuses an offer. -/
theorem sessionOk_step (conf : TradeConf) (h : SessionOk db w) (e : TradeEvent db)
    (hempty : RefusedEmpty db w e) :
    SessionOk db (tradeStep conf db w e) ∧ LinesBacked w (tradeStep conf db w e) := by
  cases e with
  | request id targetId nearCheck =>
    exact h.elim fun sd hsd => (h.request conf hsd targetId nearCheck).imp_right (·.backed)
  | ack id type => exact h.elim fun sd hsd => (h.ack hsd type hempty).imp_right (·.backed)
  | additem id idx amount => exact h.elim fun sd hsd => h.additem hsd idx amount
  | ok id => exact h.elim fun sd hsd => (h.ok hsd).imp_right (·.backed)
  | cancel id =>
    exact h.elim fun sd hsd =>
      (h.cancel hsd (h.players id sd hsd) rfl (h.tidy id sd hsd)).imp_right (·.backed)
  | commit id => exact h.elim fun sd hsd => (h.commit hsd).imp_right (·.backed)
  | other id sd' slots => exact h.elim fun sd hsd => (h.other hsd slots).imp_right (·.backed)

/-- A refusal leaves the offers as they are. -/
theorem refusedEmpty_of_clean (conf : TradeConf) (h : SessionOk db w) (e : TradeEvent db)
    (hclean : SessionsClean (tradeStep conf db w e)) : RefusedEmpty db w e := by
  cases e with
  | ack id type =>
    rintro rfl sd targetSd hsd ht
    have hok := h.players id sd hsd
    have hokT := h.players _ targetSd ht
    obtain ⟨-, hne⟩ := h.partner_eq hsd ht
    have hstep : tradeStep conf db w (.ack id 4) =
        (w.set { sd with dealLocked := 0, tradePartner := 0 }).set
          { targetSd with dealLocked := 0, tradePartner := 0 } := by
      change (w id).elim w (fun sd => tradeTradeack w sd 4) = _
      rw [hsd, Option.elim_some]
      unfold tradeTradeack
      rw [if_neg (by decide), ht]
      rfl
    rw [hstep] at hclean
    have hS := hclean.clean id { sd with dealLocked := 0, tradePartner := 0 } (by
      rw [Players.set, hokT.key, Function.update_of_ne hne, Players.set, hok.key,
        Function.update_self]) rfl
    have hT := hclean.clean sd.tradePartner { targetSd with dealLocked := 0, tradePartner := 0 }
      (by rw [Players.set, hokT.key, Function.update_self]) rfl
    exact ⟨⟨hS.amount, hS.zeny⟩, ⟨hT.amount, hT.zeny⟩⟩
  | _ => trivial

end Steps

/-! ## Runs -/

/-- Players in no trade, with nothing left of one. -/
structure SessionStart (db : ItemDb) (w : Players) : Prop extends TradeStart db w where
  index : ∀ id sd, w id = some sd → ∀ k, sd.dealItemIndex k = 0

theorem sessionOk_start {db : ItemDb} {w : Players} (h : SessionStart db w) : SessionOk db w := by
  have hclean : ∀ id sd, w id = some sd → DealClean sd := by
    intro id sd hsd
    obtain ⟨-, -, -, hamount, hzeny, hlocked⟩ := h.player id sd hsd
    exact ⟨⟨hamount, hzeny⟩, h.index id sd hsd, hlocked⟩
  refine ⟨⟨fun id sd hsd hp => ?_, fun id sd hsd _ => hclean id sd hsd⟩,
    playersOk_start h.toTradeStart, fun id sd hsd => (hclean id sd hsd).tidy⟩
  obtain ⟨-, -, hpartner, -⟩ := h.player id sd hsd
  exact absurd hpartner hp

/-- **Sessions are clean** after every step of a run, if and only if no trade is refused after
something was offered in it. -/
theorem tradeRun_sessions_iff (conf : TradeConf) (db : ItemDb) {w : Players}
    {es : List (TradeEvent db)} (hw : SessionStart db w) :
    Run.Meets (tradeStep conf db) (SessionStep conf db) w es ↔
      Run.Meets (tradeStep conf db) (RefusedEmpty db) w es := by
  refine Run.meets_iff_of_kept (I := SessionOk db) (fun w e h hempty => ?_) (fun w e h => ?_)
    (sessionOk_start hw)
  · exact (sessionOk_step conf h e hempty).1
  · refine ⟨fun hstep => refusedEmpty_of_clean conf h e hstep.1, fun hempty => ?_⟩
    obtain ⟨hok, hlines⟩ := sessionOk_step conf h e hempty
    exact ⟨hok.toSessionsClean, hlines⟩

theorem potionPlayers_session : SessionStart (fun _ => none) (potionPlayers Item.zero) := by
  refine ⟨potionPlayers_start Item.zero (by decide) (by decide), ?_⟩
  intro id sd hsd k
  unfold potionPlayers at hsd
  split at hsd
  · obtain rfl := Option.some.inj hsd
    rfl
  · obtain rfl := Option.some.inj hsd
    rfl
  · cases hsd

/-- A trade that is refused before anything is offered, and then one that is made. -/
theorem tradeRun_sessions_potion :
    Run.Meets (tradeStep {} fun _ => none) (SessionStep {} fun _ => none) (potionPlayers Item.zero)
      ([TradeEvent.request 1 2 false, .ack 2 4] ++ potionTrade ++ [TradeEvent.commit 2]) :=
  (tradeRun_sessions_iff {} (fun _ => none) potionPlayers_session).mpr (by decide)

/-- **A refusal leaves the offer behind.** The owner offers its potion before the collector has
answered, and the collector refuses. -/
theorem tradeRun_not_sessions : ¬∀ conf db w es, SessionStart db w →
    Run.Meets (tradeStep conf db) (SessionStep conf db) w es := by
  intro h
  have hrun := h {} (fun _ => none) (potionPlayers Item.zero)
    ([TradeEvent.request 1 2 false, .additem 1 2 1] ++ [TradeEvent.ack 2 4]) potionPlayers_session
  have hlast := (Run.meets_append.mp hrun).2.1.1
  let w := tradeStep {} (fun _ => none) (Run.exec (tradeStep {} fun _ => none)
    (potionPlayers Item.zero) [.request 1 2 false, .additem 1 2 1]) (.ack 2 4)
  have hleft : ((w 1).all fun sd => sd.tradePartner = 0 ∧ sd.dealItemAmount 0 = 1) = true := by
    decide
  obtain ⟨sd, hsd⟩ := Option.isSome_iff_exists.mp (show (w 1).isSome = true by decide)
  rw [hsd, Option.all_some, decide_eq_true_eq] at hleft
  have := (hlast.clean 1 sd hsd hleft.1).amount 0
  omega

end Nezumi
