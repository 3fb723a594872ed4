import Nezumi.Map.PcLemmas
import Nezumi.Map.Vending

/-!
# What a purchase from a player's shop does (`map/vending.c`)

* `vendingCheck_eq_some_iff`: what the checking loop accepts, `Vendable`.
* `vendorCart_stock_iff`: the vendor's cart loses what was asked exactly when every slot holds the
  total asked of it; the buyer's side is `pcAdditems_worth_iff`.
* `vendingPurchasereq_allOrNothing_iff`: exactly when a purchase is all or nothing.
-/

namespace Nezumi

section Check

variable (db : ItemDb) (sd vsd : MapSessionData)

/-- What a line costs. -/
def VendSale.cost (s : VendSale) : Int := (vsd.vending s.offer).value.toNat * s.amount

/-- The item id of a line, in the vendor's cart. -/
def VendSale.nameid (s : VendSale) : Int := (vsd.cart s.idx).nameid.toInt

/-- What a line weighs. -/
def VendSale.weight (s : VendSale) : Int := itemdbWeight db (s.nameid vsd) * s.amount

/-- The announced total. -/
def vendTotal (ss : List VendSale) : Int := (ss.map (VendSale.cost vsd)).sum

/-- The units that the lines take from an offer. -/
def vendOffered (ss : List VendSale) (j : Fin maxVending) : Int :=
  Sums.tally (ss.map fun s => (s.offer, s.amount)) j

/-- The number of lines that `pc_checkadditem` wants a new slot for. -/
def vendNew (ss : List VendSale) : Nat :=
  ss.countP fun s => pcCheckadditem db sd (s.nameid vsd) s.amount = .new

/-- The bounds on the running total. -/
def VendZeny (z : Int) : Prop := (0 ≤ z ∧ z ≤ sd.zeny) ∧ z ≤ maxZeny ∧ z + vsd.zeny ≤ maxZeny

/-- What `vending_purchasereq` requires of a request, line by line against the unchanged
inventory, before it moves anything. -/
structure Vendable (lines : List VendLine) (ss : List VendSale) : Prop where
  shop : vsd.venderId ≠ 0 ∧ vsd.venderId ≠ sd.id
  length : 1 ≤ lines.length ∧ lines.length ≤ maxVending
  sales : lines.map (VendLine.sale vsd) = ss.map some
  amount : ∀ s ∈ ss, 0 < s.amount
  zeny : Sums.Running (VendZeny sd vsd) (VendSale.cost vsd) 0 ss
  weight : Sums.Running (· + sd.weight ≤ sd.maxWeight) (VendSale.weight db vsd) 0 ss
  offers : ∀ j, vendOffered ss j ≤ (vsd.vending j).amount.toNat
  stack : ∀ s ∈ ss, pcCheckadditem db sd (s.nameid vsd) s.amount ≠ .overamount
  slots : vendNew db sd vsd ss ≤ pcInventoryblank sd

instance : DecidablePred (VendZeny sd vsd) := fun _ => inferInstanceAs (Decidable (_ ∧ _))

variable {db sd vsd}

theorem VendLine.sale_amount {l : VendLine} {s : VendSale} (h : l.sale vsd = some s) :
    s.amount = l.amount.toNat := by
  unfold VendLine.sale at h
  split at h
  · cases h
  · split at h
    · cases h
    · obtain rfl := Option.some.inj h
      rfl

theorem vendOffered_cons (s : VendSale) (ss : List VendSale) (j : Fin maxVending) :
    vendOffered (s :: ss) j = (if s.offer = j then s.amount else 0) + vendOffered ss j :=
  Sums.tally_cons _ _ _

theorem vendOffered_nonneg {ss : List VendSale} (h : ∀ s ∈ ss, 0 < s.amount)
    (j : Fin maxVending) : 0 ≤ vendOffered ss j :=
  Sums.tally_nonneg (by simpa using fun s hs => le_of_lt (h s hs)) j

/-- What one line passes. -/
structure VendSale.Passes (db : ItemDb) (sd vsd : MapSessionData) (blank : Nat)
    (vending : Fin maxVending → Int) (z w : Int) (new : Nat) (s : VendSale) : Prop where
  amount : 0 < s.amount
  zeny : VendZeny sd vsd (z + s.cost vsd)
  weight : w + s.weight db vsd + sd.weight ≤ sd.maxWeight
  offer : s.amount ≤ vending s.offer
  stack : pcCheckadditem db sd (s.nameid vsd) s.amount ≠ .overamount
  slots : pcCheckadditem db sd (s.nameid vsd) s.amount = .new → new + 1 ≤ blank

/-- One line of the checking loop. -/
theorem vendingCheck_cons {blank : Nat} {vending : Fin maxVending → Int} {z w : Int} {new : Nat}
    {l : VendLine} {ls : List VendLine} {r : Int × List VendSale} :
    vendingCheck db sd vsd blank vending z w new (l :: ls) = some r ↔
      ∃ s, l.sale vsd = some s ∧ s.Passes db sd vsd blank vending z w new ∧
        ∃ r', vendingCheck db sd vsd blank
          (Function.update vending s.offer (vending s.offer - s.amount)) (z + s.cost vsd)
          (w + s.weight db vsd) (new + vendNew db sd vsd [s]) ls = some r' ∧
          r = (r'.1, s :: r'.2) := by
  rw [vendingCheck]
  dsimp only
  cases hs : l.sale vsd with
  | none => simp
  | some s =>
    have hamount := VendLine.sale_amount hs
    have hcount : (if pcCheckadditem db sd (s.nameid vsd) s.amount = .new then new + 1 else new) =
        new + vendNew db sd vsd [s] := by
      simp only [vendNew, List.countP_singleton, decide_eq_true_eq]
      split <;> rfl
    dsimp only
    rw [show (vsd.cart s.idx).nameid.toInt = s.nameid vsd from rfl, hcount,
      show ((vsd.vending s.offer).value.toNat : Int) * s.amount = s.cost vsd from rfl,
      show itemdbWeight db (s.nameid vsd) * s.amount = s.weight db vsd from rfl]
    simp only [Option.some.injEq, exists_eq_left']
    constructor
    · intro h
      split at h
      · cases h
      split at h
      · cases h
      split at h
      · cases h
      split at h
      · cases h
      split at h
      · cases h
      split at h
      · cases h
      rename_i h1 h2 h3 h4 h5 h6
      obtain ⟨r', hr', rfl⟩ := Option.map_eq_some_iff.mp h
      refine ⟨⟨by omega, ?_, by omega, by omega, fun h => h6 (.inl h), fun h => ?_⟩, r', hr', rfl⟩
      · unfold VendZeny
        omega
      · by_contra hlt
        refine h6 (.inr ⟨h, ?_⟩)
        simp only [vendNew, List.countP_singleton, h, decide_true, if_true]
        omega
    · rintro ⟨hp, r', hr', rfl⟩
      have hz := hp.zeny
      unfold VendZeny at hz
      rw [if_neg (by have := hp.amount; omega), if_neg (by omega), if_neg (by omega),
        if_neg (by have := hp.weight; omega), if_neg (by have := hp.offer; omega), if_neg, hr']
      · rfl
      · rintro (h | ⟨h, hlt⟩)
        · exact hp.stack h
        · have := hp.slots h
          simp only [vendNew, List.countP_singleton, h, decide_true, if_true] at hlt
          omega

theorem vendTotal_cons (s : VendSale) (ss : List VendSale) :
    vendTotal vsd (s :: ss) = s.cost vsd + vendTotal vsd ss := by simp [vendTotal]

theorem vendNew_cons (s : VendSale) (ss : List VendSale) :
    vendNew db sd vsd (s :: ss) = vendNew db sd vsd [s] + vendNew db sd vsd ss := by
  simp [vendNew, List.countP_cons, Nat.add_comm]

/-- The offers of a list: one line, and the rest against what it leaves. -/
theorem offers_cons {vending : Fin maxVending → Int} {s : VendSale} {ss : List VendSale}
    (hs : 0 < s.amount) (hss : ∀ s ∈ ss, 0 < s.amount) :
    (∀ j, vendOffered (s :: ss) j = 0 ∨ vendOffered (s :: ss) j ≤ vending j) ↔
      s.amount ≤ vending s.offer ∧
        ∀ j, vendOffered ss j = 0 ∨ vendOffered ss j ≤
          Function.update vending s.offer (vending s.offer - s.amount) j := by
  have hnn := vendOffered_nonneg hss
  simp only [vendOffered_cons]
  constructor
  · intro h
    have hj := h s.offer
    rw [if_pos rfl] at hj
    have hj' := hnn s.offer
    refine ⟨by omega, fun j => ?_⟩
    rcases eq_or_ne j s.offer with rfl | hne
    · rw [Function.update_self]
      omega
    · rw [Function.update_of_ne hne]
      simpa [hne.symm] using h j
  · rintro ⟨hle, h⟩ j
    have hj := h j
    rcases eq_or_ne j s.offer with rfl | hne
    · rw [Function.update_self] at hj
      rw [if_pos rfl]
      omega
    · rw [Function.update_of_ne hne] at hj
      simpa [hne.symm] using hj

/-- **The checking loop.** -/
theorem vendingCheck_eq_some_iff {blank : Nat} {vending : Fin maxVending → Int} {z w : Int}
    {new : Nat} {lines : List VendLine} {r : Int × List VendSale} :
    vendingCheck db sd vsd blank vending z w new lines = some r ↔
      lines.map (VendLine.sale vsd) = r.2.map some ∧
      (∀ s ∈ r.2, 0 < s.amount) ∧
      (∀ s ∈ r.2, pcCheckadditem db sd (s.nameid vsd) s.amount ≠ .overamount) ∧
      Sums.Running (VendZeny sd vsd) (VendSale.cost vsd) z r.2 ∧
      Sums.Running (· + sd.weight ≤ sd.maxWeight) (VendSale.weight db vsd) w r.2 ∧
      (∀ j, vendOffered r.2 j = 0 ∨ vendOffered r.2 j ≤ vending j) ∧
      (vendNew db sd vsd r.2 = 0 ∨ new + vendNew db sd vsd r.2 ≤ blank) ∧
      r.1 = z + vendTotal vsd r.2 := by
  obtain ⟨total, ss⟩ := r
  dsimp only
  induction lines generalizing vending z w new total ss with
  | nil =>
    simp only [vendingCheck, Option.some.injEq, Prod.mk.injEq, List.map_nil, List.nil_eq,
      List.map_eq_nil_iff]
    constructor
    · rintro ⟨rfl, rfl⟩
      simp [vendOffered, vendNew, vendTotal]
    · rintro ⟨rfl, -, -, -, -, -, -, rfl⟩
      simp [vendTotal]
  | cons l ls ih =>
    rw [vendingCheck_cons]
    cases ss with
    | nil => simp
    | cons s ss =>
      simp only [List.map_cons, List.cons.injEq, List.forall_mem_cons, Sums.running_cons,
        vendTotal_cons, vendNew_cons s ss]
      have hone : vendNew db sd vsd [s] =
          if pcCheckadditem db sd (s.nameid vsd) s.amount = .new then 1 else 0 := by
        simp [vendNew, List.countP_singleton]
      constructor
      · rintro ⟨s', hs', hp, ⟨total', ss'⟩, hr', heq⟩
        simp only [Prod.mk.injEq, List.cons.injEq] at heq
        obtain ⟨rfl, rfl, rfl⟩ := heq
        obtain ⟨h1, h2, h3, h4, h5, h6, h7, h8⟩ := (ih _ _).mp hr'
        refine ⟨⟨hs', h1⟩, ⟨hp.amount, h2⟩, ⟨hp.stack, h3⟩, ⟨hp.zeny, h4⟩, ⟨hp.weight, h5⟩,
          (offers_cons hp.amount h2).mpr ⟨hp.offer, h6⟩, ?_, by omega⟩
        have hslots := hp.slots
        by_cases hnew : pcCheckadditem db sd (s.nameid vsd) s.amount = .new
        · have := hslots hnew
          rw [hone, if_pos hnew] at h7 ⊢
          omega
        · rw [hone, if_neg hnew] at h7 ⊢
          omega
      · rintro ⟨⟨hs, h1⟩, ⟨hamount, h2⟩, ⟨hstack, h3⟩, ⟨hzeny, h4⟩, ⟨hweight, h5⟩, h6, h7, h8⟩
        obtain ⟨hoffer, h6⟩ := (offers_cons hamount h2).mp h6
        refine ⟨s, hs, ⟨hamount, hzeny, hweight, hoffer, hstack, fun hnew => ?_⟩,
          (total, ss), (ih _ _).mpr ⟨h1, h2, h3, h4, h5, h6, ?_, by omega⟩, rfl⟩
        · rw [hone, if_pos hnew] at h7
          omega
        · omega

/-- What the request does, when every line passes. -/
theorem vendingPurchasereq_of_vendable {lines : List VendLine} {ss : List VendSale}
    (h : Vendable db sd vsd lines ss) :
    vendingPurchasereq db sd vsd lines =
      ss.foldl (vendingSell db) ((pcPayzeny sd (vendTotal vsd ss)).2,
        pcGetzeny vsd (vendTotal vsd ss)) := by
  have hcheck : vendingCheck db sd vsd (pcInventoryblank sd)
      (fun j => (vsd.vending j).amount.toNat) 0 0 0 lines = some (0 + vendTotal vsd ss, ss) :=
    vendingCheck_eq_some_iff.mpr ⟨h.sales, h.amount, h.stack, h.zeny, h.weight,
      fun j => .inr (h.offers j), .inr (by rw [zero_add]; exact h.slots), rfl⟩
  unfold vendingPurchasereq
  rw [if_neg h.shop.1, if_neg h.shop.2, if_neg (by have := h.length; omega), hcheck, zero_add]

/-- A request that is not accepted changes nothing. -/
theorem vendingPurchasereq_of_refused {lines : List VendLine}
    (h : ∀ ss, ¬Vendable db sd vsd lines ss) :
    vendingPurchasereq db sd vsd lines = (sd, vsd) := by
  unfold vendingPurchasereq
  split
  · rfl
  rename_i h1
  split
  · rfl
  rename_i h2
  split
  · rfl
  rename_i h3
  split
  · rfl
  rename_i total ss hcheck
  obtain ⟨hsales, hamount, hstack, hzeny, hweight, hoffers, hslots, -⟩ :=
    vendingCheck_eq_some_iff.mp hcheck
  dsimp only at hoffers hslots
  refine absurd ⟨⟨h1, h2⟩, ⟨by omega, by omega⟩, hsales, hamount, hzeny, hweight, fun j => ?_,
    hstack, by omega⟩ (h ss)
  have := hoffers j
  omega

end Check

/-! ## The vendor's side -/

section Vendor

variable {db : ItemDb}

/-- The units that the lines take from a cart slot. -/
def vendListed (ss : List VendSale) (i : Fin maxCart) : Int :=
  Sums.tally (ss.map fun s => (s.idx, s.amount)) i

/-- Every cart slot that is asked for holds an item, and all that is asked of it. -/
def CartRoom (cart : Cart) (ss : List VendSale) : Prop :=
  ∀ i, vendListed ss i ≠ 0 → (cart i).nameid ≠ 0 ∧ vendListed ss i ≤ (cart i).amount.toInt

theorem vendListed_cons (s : VendSale) (ss : List VendSale) (i : Fin maxCart) :
    vendListed (s :: ss) i = (if s.idx = i then s.amount else 0) + vendListed ss i :=
  Sums.tally_cons _ _ _

theorem vendListed_nonneg {ss : List VendSale} (h : ∀ s ∈ ss, 0 < s.amount) (i : Fin maxCart) :
    0 ≤ vendListed ss i :=
  Sums.tally_nonneg (by simpa using fun s hs => le_of_lt (h s hs)) i

theorem vendListed_pos {ss : List VendSale} (h : ∀ s ∈ ss, 0 < s.amount) {s : VendSale}
    (hs : s ∈ ss) : 0 < vendListed ss s.idx :=
  Sums.tally_pos (x := (s.idx, s.amount)) (by simpa using h) (List.mem_map.mpr ⟨s, hs, rfl⟩)

theorem exists_of_vendListed {ss : List VendSale} {i : Fin maxCart} (h : vendListed ss i ≠ 0) :
    ∃ s ∈ ss, s.idx = i := by
  obtain ⟨_, hx, he⟩ := Sums.exists_of_tally_ne_zero h
  obtain ⟨s, hs, rfl⟩ := List.mem_map.mp hx
  exact ⟨s, hs, he⟩

/-- A cart after a line: nothing is taken from a slot that does not hold the amount. -/
def cartTake (cart : Cart) (s : VendSale) : Cart :=
  if (cart s.idx).nameid = 0 ∨ (cart s.idx).amount.toInt < s.amount then cart
  else Function.update cart s.idx ((cart s.idx).takeAway s.amount)

theorem vendingSell_cart (db : ItemDb) {p : MapSessionData × MapSessionData} {s : VendSale}
    (hs : 0 < s.amount) : (vendingSell db p s).2.cart = cartTake p.2.cart s :=
  pcCartDelitem_cart hs

theorem vendingSells_cart {p : MapSessionData × MapSessionData} {ss : List VendSale}
    (h : ∀ s ∈ ss, 0 < s.amount) :
    (ss.foldl (vendingSell db) p).2.cart = ss.foldl cartTake p.2.cart := by
  induction ss generalizing p with
  | nil => rfl
  | cons s ss ih =>
    rw [List.foldl_cons, ih fun s' hs' => h s' (by simp [hs']), vendingSell_cart db (h s (by simp)),
      List.foldl_cons]

theorem vendingSells_zeny {p : MapSessionData × MapSessionData} {ss : List VendSale} :
    (ss.foldl (vendingSell db) p).1.zeny = p.1.zeny ∧
      (ss.foldl (vendingSell db) p).2.zeny = p.2.zeny := by
  induction ss generalizing p with
  | nil => exact ⟨rfl, rfl⟩
  | cons s ss ih =>
    have h1 : (vendingSell db p s).1.zeny = p.1.zeny := pcAdditem_zeny
    have h2 : (vendingSell db p s).2.zeny = p.2.zeny := pcCartDelitem_zeny
    rw [List.foldl_cons, ih.1, ih.2]
    exact ⟨h1, h2⟩

/-- The units of an identity that the lines ask for, the slots holding `ident`. -/
def vendAsked (ident : Fin maxCart → Identity) (ss : List VendSale) (k : Identity) : Int :=
  Sums.tally (ss.map fun s => (ident s.idx, s.amount)) k

theorem vendAsked_cons (ident : Fin maxCart → Identity) (s : VendSale) (ss : List VendSale)
    (k : Identity) :
    vendAsked ident (s :: ss) k =
      (if ident s.idx = k then s.amount else 0) + vendAsked ident ss k :=
  Sums.tally_cons _ _ _

/-- The slots of a cart hold the identities `ident`, if anything. -/
def Holds (cart : Cart) (ident : Fin maxCart → Identity) : Prop :=
  ∀ i, (cart i).nameid = 0 ∨ (cart i).identity = ident i

theorem cartTake_of_room {cart : Cart} {s : VendSale} (hn : (cart s.idx).nameid ≠ 0)
    (hle : s.amount ≤ (cart s.idx).amount.toInt) :
    cartTake cart s = Function.update cart s.idx ((cart s.idx).takeAway s.amount) :=
  if_neg (by rintro (h | h); exacts [hn h, by omega])

theorem cartTake_of_not_room {cart : Cart} {s : VendSale}
    (h : ¬((cart s.idx).nameid ≠ 0 ∧ s.amount ≤ (cart s.idx).amount.toInt)) :
    cartTake cart s = cart :=
  if_pos (by rw [not_and_or, not_not, not_le] at h; exact h)

/-- What is left in a slot is the same item, or nothing. -/
theorem takeAway_identity (it : Item) (q : Int) :
    (it.takeAway q).nameid = 0 ∨ (it.takeAway q).identity = it.identity := by
  unfold Item.takeAway
  split
  · exact .inr rfl
  · split
    · exact .inl rfl
    · exact .inr rfl

theorem holds_cartTake {cart : Cart} {ident : Fin maxCart → Identity} (h : Holds cart ident)
    (s : VendSale) : Holds (cartTake cart s) ident := by
  by_cases hroom : (cart s.idx).nameid ≠ 0 ∧ s.amount ≤ (cart s.idx).amount.toInt
  · rw [cartTake_of_room hroom.1 hroom.2]
    intro i
    rcases eq_or_ne i s.idx with rfl | hi
    · rw [Function.update_self]
      rw [← (h s.idx).resolve_left hroom.1]
      exact takeAway_identity _ _
    · rw [Function.update_of_ne hi]
      exact h i
  · rw [cartTake_of_not_room hroom]
    exact h

/-- A line takes from the cart at most what it asks for, and all of it when there is room. -/
theorem stock_cartTake {cart : Cart} {ident : Fin maxCart → Identity} {s : VendSale}
    (h : Holds cart ident) (hs : 0 < s.amount) (hn : (cart s.idx).nameid ≠ 0)
    (hle : s.amount ≤ (cart s.idx).amount.toInt) (k : Identity) :
    stock (cartTake cart s) k = stock cart k - if ident s.idx = k then s.amount else 0 := by
  unfold stock
  rw [cartTake_of_room hn hle, worth_update, Item.worth_takeAway _ hn hs hle,
    (h s.idx).resolve_left hn]
  simp only [ofIdentity, smul_eq_mul, mul_ite, mul_one, mul_zero]
  omega

theorem stock_cartTakes_ge {cart : Cart} {ident : Fin maxCart → Identity} {ss : List VendSale}
    (h : Holds cart ident) (hss : ∀ s ∈ ss, 0 < s.amount) (k : Identity) :
    stock cart k - vendAsked ident ss k ≤ stock (ss.foldl cartTake cart) k := by
  induction ss generalizing cart with
  | nil => simp [vendAsked]
  | cons s ss ih =>
    have hs := hss s (by simp)
    have hrest := ih (holds_cartTake h s) fun s' hs' => hss s' (by simp [hs'])
    rw [List.foldl_cons, vendAsked_cons]
    by_cases hroom : (cart s.idx).nameid ≠ 0 ∧ s.amount ≤ (cart s.idx).amount.toInt
    · rw [stock_cartTake h hs hroom.1 hroom.2] at hrest
      omega
    · rw [cartTake_of_not_room hroom] at hrest ⊢
      split <;> omega

/-- Room for a list: for its first line, and for the rest in what is left. -/
theorem cartRoom_cons {cart : Cart} {s : VendSale} {ss : List VendSale} (hs : 0 < s.amount)
    (hss : ∀ s ∈ ss, 0 < s.amount) (hn : (cart s.idx).nameid ≠ 0)
    (hle : s.amount ≤ (cart s.idx).amount.toInt) :
    CartRoom cart (s :: ss) ↔ CartRoom (cartTake cart s) ss := by
  have hnn := vendListed_nonneg hss
  unfold CartRoom
  simp only [vendListed_cons, cartTake_of_room hn hle]
  refine forall_congr' fun i => ?_
  rcases eq_or_ne i s.idx with rfl | hi
  · rw [if_pos rfl, Function.update_self]
    have hi := hnn s.idx
    rcases eq_or_ne (vendListed ss s.idx) 0 with h0 | h0
    · simp [h0, hs.ne', hn, hle]
    · constructor
      · intro h _
        obtain ⟨hname, hleft⟩ := Item.takeAway_left hs (by omega) (h (by omega)).2
        rw [hname, hleft]
        exact ⟨hn, by have := (h (by omega)).2; omega⟩
      · intro h _
        obtain ⟨hne, hlisted⟩ := h h0
        refine ⟨hn, ?_⟩
        rcases eq_or_ne (cart s.idx).amount.toInt s.amount with hall | hlt
        · rw [Item.takeAway_all hs hall] at hne
          exact absurd rfl hne
        · rw [Item.takeAway_of_lt hs (by omega), Item.withAmount_left _ hs.le hle] at hlisted
          omega
  · rw [if_neg (Ne.symm hi), zero_add, Function.update_of_ne hi]

/-- **The vendor's side.** The cart loses what was asked, by every identity, exactly when its
slots hold it. -/
theorem vendorCart_stock_iff (cart : Cart) {ident : Fin maxCart → Identity} {ss : List VendSale}
    (h : Holds cart ident) (hss : ∀ s ∈ ss, 0 < s.amount) :
    (∀ k, stock (ss.foldl cartTake cart) k = stock cart k - vendAsked ident ss k) ↔
      CartRoom cart ss := by
  induction ss generalizing cart with
  | nil => simp [vendAsked, CartRoom, vendListed]
  | cons s ss ih =>
    have hs := hss s (by simp)
    have hss' : ∀ s ∈ ss, 0 < s.amount := fun s' hs' => hss s' (by simp [hs'])
    by_cases hroom : (cart s.idx).nameid ≠ 0 ∧ s.amount ≤ (cart s.idx).amount.toInt
    · rw [cartRoom_cons hs hss' hroom.1 hroom.2, ← ih (cartTake cart s) (holds_cartTake h s) hss']
      refine forall_congr' fun k => ?_
      rw [List.foldl_cons, vendAsked_cons, stock_cartTake h hs hroom.1 hroom.2]
      omega
    · -- A line that takes nothing is missing from what the cart loses.
      refine iff_of_false (fun hall => ?_) fun hcart => hroom ?_
      · have hk := hall (ident s.idx)
        have hge := stock_cartTakes_ge h hss' (ident s.idx)
        rw [List.foldl_cons, cartTake_of_not_room hroom, vendAsked_cons, if_pos rfl] at hk
        omega
      · have hi := vendListed_nonneg hss' s.idx
        have := hcart s.idx (by rw [vendListed_cons, if_pos rfl]; omega)
        rw [vendListed_cons, if_pos rfl] at this
        exact ⟨this.1, by omega⟩

end Vendor

/-! ## The buyer's side and the whole request -/

section Purchase

variable {db : ItemDb} {sd vsd : MapSessionData}

/-- What the lines hand to `pc_additem`. -/
def vendItems (cart : Cart) (ss : List VendSale) : List (Item × Int) :=
  ss.map fun s => (cart s.idx, s.amount)

theorem pcAdditems_withAmount {cart cart' : Cart} {ss : List VendSale} (sd : MapSessionData)
    (h : ∀ s ∈ ss, ∃ a, cart' s.idx = (cart s.idx).withAmount a) :
    pcAdditems db sd (vendItems cart' ss) = pcAdditems db sd (vendItems cart ss) := by
  induction ss generalizing sd with
  | nil => rfl
  | cons s ss ih =>
    obtain ⟨a, ha⟩ := h s (by simp)
    have hrest := ih (pcAdditem db sd (cart s.idx) s.amount).2 fun s' hs' => h s' (by simp [hs'])
    simp only [vendItems, pcAdditems, List.map_cons, List.foldl_cons] at hrest ⊢
    rw [ha, pcAdditem_withAmount, hrest]

/-- While the cart holds what is asked of it, the buyer gets the items it held at the start. -/
theorem vendingSells_buyer (db : ItemDb) {p : MapSessionData × MapSessionData} {ss : List VendSale}
    (hss : ∀ s ∈ ss, 0 < s.amount) (hcart : CartRoom p.2.cart ss) :
    (ss.foldl (vendingSell db) p).1 = pcAdditems db p.1 (vendItems p.2.cart ss) := by
  induction ss generalizing p with
  | nil => rfl
  | cons s ss ih =>
    have hs := hss s (by simp)
    have hss' : ∀ s ∈ ss, 0 < s.amount := fun s' hs' => hss s' (by simp [hs'])
    have hi := vendListed_nonneg hss' s.idx
    obtain ⟨hn, hle⟩ := hcart s.idx (by rw [vendListed_cons, if_pos rfl]; omega)
    rw [vendListed_cons, if_pos rfl] at hle
    have hrest := (cartRoom_cons hs hss' hn (by omega)).mp hcart
    have hcart' := vendingSell_cart db (p := p) hs
    rw [List.foldl_cons, ih hss' (by rw [hcart']; exact hrest), hcart', pcAdditems_withAmount]
    · rfl
    · intro s' hs'
      rw [cartTake_of_room hn (by omega)]
      rcases eq_or_ne s'.idx s.idx with he | hne
      · rw [he, Function.update_self]
        have := vendListed_pos hss' hs'
        rw [he] at this
        rw [Item.takeAway_of_lt hs (by omega)]
        exact ⟨_, rfl⟩
      · rw [Function.update_of_ne hne]
        exact ⟨_, (Item.withAmount_self _).symm⟩

theorem askedFor_vendItems (cart : Cart) (ss : List VendSale) (k : Identity) :
    askedFor (ofIdentity k) (vendItems cart ss) = vendAsked (fun i => (cart i).identity) ss k := by
  unfold askedFor vendItems vendAsked Sums.tally
  rw [List.map_map, List.map_map]
  congr 1
  apply List.map_congr_left
  intro s _
  simp only [Function.comp_apply, ofIdentity, smul_eq_mul, mul_ite, mul_one, mul_zero]

theorem weightsFit_vendItems {ss : List VendSale}
    (h : Sums.Running (· + sd.weight ≤ sd.maxWeight) (VendSale.weight db vsd) 0 ss) :
    WeightsFit db sd.maxWeight sd.weight (vendItems vsd.cart ss) := by
  unfold WeightsFit vendItems
  rw [Sums.running_map, ← zero_add sd.weight, Sums.running_shift]
  exact h

variable (db sd vsd)

/-- The purchase as the client asked for it, or none of it. -/
def VendAllOrNothing (lines : List VendLine) : Prop :=
  let r := vendingPurchasereq db sd vsd lines
  ((∀ ss, ¬Vendable db sd vsd lines ss) → r = (sd, vsd)) ∧
    ∀ ss, Vendable db sd vsd lines ss →
      r.1.zeny = sd.zeny - vendTotal vsd ss ∧
      (r.2.zeny = vsd.zeny + vendTotal vsd ss ∧ r.2.zeny ≤ maxZeny) ∧
      ∀ k, stock r.1.inventory k =
          stock sd.inventory k + vendAsked (fun i => (vsd.cart i).identity) ss k ∧
        stock r.2.cart k =
          stock vsd.cart k - vendAsked (fun i => (vsd.cart i).identity) ss k

/-- There is room for the whole request, not only for each of its lines. -/
structure VendRoom (ss : List VendSale) : Prop where
  /-- The cart holds items, and all that is asked of each slot. -/
  cart : ∀ i, vendListed ss i ≠ 0 →
    0 < (vsd.cart i).nameid.toInt ∧ vendListed ss i ≤ (vsd.cart i).amount.toInt
  /-- The buyer's stacks have room for the totals and the slots for the new stacks. -/
  fits : Bins.Fits (stackRule db) (cells sd.inventory) (requests (vendItems vsd.cart ss))
  /-- `pc_payzeny` refuses to leave a player with more than `MAX_ZENY`. -/
  zeny : vendTotal vsd ss = 0 ∨ sd.zeny - vendTotal vsd ss ≤ maxZeny

variable {db sd vsd}

theorem vendable_total {lines : List VendLine} {ss : List VendSale}
    (h : Vendable db sd vsd lines ss) :
    (0 ≤ vendTotal vsd ss ∧ vendTotal vsd ss ≤ sd.zeny) ∧
      vsd.zeny + vendTotal vsd ss ≤ maxZeny := by
  have hne : ss ≠ [] := by
    rintro rfl
    have hlen := congrArg List.length h.sales
    rw [List.length_map, List.length_map] at hlen
    have := h.length.1
    rw [hlen] at this
    exact absurd this (by simp)
  have hz := h.zeny.total hne
  rw [zero_add] at hz
  change VendZeny sd vsd (vendTotal vsd ss) at hz
  unfold VendZeny at hz
  exact ⟨hz.1, by omega⟩

/-- The items of an accepted request change hands, by identity, exactly when there is room for
all of them. -/
theorem vendingSells_stock_iff {lines : List VendLine} {ss : List VendSale}
    (h : Vendable db sd vsd lines ss) (sd' vsd' : MapSessionData)
    (hinv : sd'.inventory = sd.inventory) (hw : sd'.weight = sd.weight)
    (hmax : sd'.maxWeight = sd.maxWeight) (hcart : vsd'.cart = vsd.cart) :
    (∀ k, stock (ss.foldl (vendingSell db) (sd', vsd')).1.inventory k =
        stock sd.inventory k + vendAsked (fun i => (vsd.cart i).identity) ss k ∧
      stock (ss.foldl (vendingSell db) (sd', vsd')).2.cart k =
        stock vsd.cart k - vendAsked (fun i => (vsd.cart i).identity) ss k) ↔
      (∀ i, vendListed ss i ≠ 0 →
        0 < (vsd.cart i).nameid.toInt ∧ vendListed ss i ≤ (vsd.cart i).amount.toInt) ∧
      Bins.Fits (stackRule db) (cells sd.inventory) (requests (vendItems vsd.cart ss)) := by
  have hvendor := vendorCart_stock_iff vsd.cart (fun i => .inr rfl) h.amount
  rw [forall_and, vendingSells_cart h.amount]
  dsimp only
  rw [hcart, hvendor]
  by_cases hroom : CartRoom vsd.cart ss
  · have hbuyer := vendingSells_buyer db (p := (sd', vsd')) h.amount
      (by rw [hcart]; exact hroom)
    have hF : ∀ f ∈ Set.range ofIdentity, ∀ k, 0 ≤ f k := by
      rintro _ ⟨k', rfl⟩ k
      unfold ofIdentity
      split <;> decide
    have ha : ∀ l ∈ vendItems vsd.cart ss, 0 < l.2 := by
      intro l hl
      obtain ⟨s, hs, rfl⟩ := List.mem_map.mp hl
      exact h.amount s hs
    have hiff := pcAdditems_worth_iff db sd' hF ha
      (fun l _ => ⟨ofIdentity l.1.identity, ⟨_, rfl⟩, by simp [ofIdentity]⟩)
      (by rw [hw, hmax]; exact weightsFit_vendItems h.weight)
    rw [Set.forall_mem_range, hinv] at hiff
    simp only [askedFor_vendItems] at hiff
    rw [hbuyer, and_iff_left hroom, hcart]
    unfold stock
    rw [hiff]
    refine and_congr_left fun _ => ?_
    constructor
    · intro hn i hi
      obtain ⟨s, hs, rfl⟩ := exists_of_vendListed hi
      exact ⟨hn _ (List.mem_map.mpr ⟨s, hs, rfl⟩), (hroom _ hi).2⟩
    · intro hall l hl
      obtain ⟨s, hs, rfl⟩ := List.mem_map.mp hl
      exact (hall s.idx (vendListed_pos h.amount hs).ne').1
  · refine iff_of_false (fun h' => hroom h'.2) fun h' => hroom fun i hi => ?_
    exact ⟨nameid_ne_zero (h'.1 i hi).1, (h'.1 i hi).2⟩

/-- **A purchase is all or nothing exactly when an accepted request has room as a whole.** -/
theorem vendingPurchasereq_allOrNothing_iff (db : ItemDb) (sd vsd : MapSessionData)
    (lines : List VendLine) :
    VendAllOrNothing db sd vsd lines ↔
      ∀ ss, Vendable db sd vsd lines ss → VendRoom db sd vsd ss := by
  unfold VendAllOrNothing
  dsimp only
  rw [and_iff_right vendingPurchasereq_of_refused]
  refine forall₂_congr fun ss h => ?_
  have htotal := vendable_total h
  have hpay := pcPayzeny_zeny_iff (.inl htotal.1.2)
  have hget := pcGetzeny_zeny htotal.2
  have hframe := pcGetzeny_frame vsd (vendTotal vsd ss)
  have hstock := vendingSells_stock_iff h (pcPayzeny sd (vendTotal vsd ss)).2
    (pcGetzeny vsd (vendTotal vsd ss)) (by simp) (by simp) (by simp) (by rw [hframe])
  rw [vendingPurchasereq_of_vendable h, vendingSells_zeny.1, vendingSells_zeny.2, hstock, hpay,
    hget]
  constructor
  · rintro ⟨hz, -, hcart, hfits⟩
    exact ⟨hcart, hfits, hz⟩
  · rintro ⟨hcart, hfits, hz⟩
    exact ⟨hz, ⟨rfl, htotal.2⟩, hcart, hfits⟩

/-- A vendor with ten red potions in the cart. -/
def potionVendor : MapSessionData where
  id := 2
  venderId := 2
  inventory := slotsOf []
  inventoryData _ := none
  cart := slotsOf [{ nameid := 501, amount := 10, identify := true }]
  vendNum := 1
  vending _ := { index := 0, amount := 10, value := 100 }

/-- A buyer whose stack of red potions is nearly full. -/
def potionCustomer : MapSessionData where
  id := 1
  zeny := 5000
  maxWeight := 20000
  inventory := slotsOf [{ nameid := 501, amount := 29995, identify := true }]
  inventoryData i := if i.val = 0 then some (itemdbSearch (fun _ => none) 501) else none

/-- Two lines that each top the stack up to the limit: the second is paid for and lost. -/
theorem vendingPurchasereq_not_allOrNothing :
    ¬∀ db sd vsd lines, VendAllOrNothing db sd vsd lines := by
  intro h
  let line : VendSale := { idx := ⟨0, by decide⟩, offer := ⟨0, by decide⟩, amount := 5 }
  have hsales : Vendable (fun _ => none) potionCustomer potionVendor [⟨5, 2⟩, ⟨5, 2⟩]
      [line, line] := by
    constructor <;> decide
  have hgain := ((h _ potionCustomer potionVendor [⟨5, 2⟩, ⟨5, 2⟩]).2 _ hsales).2.2
    (Item.identity { nameid := 501, identify := true })
  revert hgain
  decide +kernel

end Purchase

end Nezumi
