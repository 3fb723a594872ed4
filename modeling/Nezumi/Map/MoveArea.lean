import Nezumi.Map.BlockRun

/-!
# The objects that come out of sight (`map/map.c`)

When a player takes a step, the rectangle of cells that it sees moves with it.

* `mapForeachinmovearea` is the function of the same name. A straight step searches a stripe of
  cells, like `map_foreachinarea`. A diagonal one goes through the whole rectangle for the cells at
  its edges.
* `MoveSearchOk`: the function is called for what the rectangle has left behind.
* `Strays`: an object at the border of the map that a diagonal step takes for one at the edge.
* `MoveFits`: there is room in `bl_list`, and there are no such objects in it.
* `moveArea_exact_iff`: a search calls what it should if and only if that is so.
-/

namespace Nezumi

open Chain

/-- The rectangle after a step. -/
def Rect.shift (r : Rect) (dx dy : Int) : Rect := ⟨r.x0 + dx, r.y0 + dy, r.x1 + dx, r.y1 + dy⟩

/-- The stripe of cells that a straight step is about. -/
def Rect.stripe (r : Rect) (dx dy : Int) : Rect :=
  if dx = 0 then
    if dy < 0 then { r with y0 := r.y1 + dy + 1 } else { r with y1 := r.y0 + dy - 1 }
  else
    if dx < 0 then { r with x0 := r.x1 + dx + 1 } else { r with x1 := r.x0 + dx - 1 }

/-- The cells at the edges that a diagonal step is about. -/
def Rect.atEdge (r : Rect) (dx dy : Int) (bl : BlockList) : Bool :=
  (dx > 0 && bl.x < r.x0 + dx) || (dx < 0 && bl.x > r.x1 + dx) ||
    (dy > 0 && bl.y < r.y0 + dy) || (dy < 0 && bl.y > r.y1 + dy)

/-- One loop of a diagonal step over a list. -/
def noteEdgeObjects (s : Blocks) (blockcount : Nat) (r : Rect) (dx dy : Int) (type : BlType)
    (acc objs : List Nat) : List Nat :=
  objs.foldl (fun acc o =>
    if typeWanted type (s.bl o) && r.holds (s.bl o) && r.atEdge dx dy (s.bl o) &&
        decide (blockcount + acc.length < blListMax)
      then acc ++ [o] else acc) acc

/-- What a diagonal step notes of one block. -/
def noteEdgeBlock (s : Blocks) (fuel blockcount : Nat) (m : Int) (r : Rect) (dx dy : Int)
    (type : BlType) (acc : List Nat) (b : Int) : List Nat :=
  let list start := walk s.links.next fuel start
  match type with
  | .nul => noteEdgeObjects s blockcount r dx dy .nul
      (noteEdgeObjects s blockcount r dx dy .nul acc (list (s.block m b))) (list (s.blockMob m b))
  | .mob => noteEdgeObjects s blockcount r dx dy .nul acc (list (s.blockMob m b))
  | type => noteEdgeObjects s blockcount r dx dy type acc (list (s.block m b))

variable (md : MapSizes)

/-- The objects that `map_foreachinmovearea` notes behind the first `blockcount` ones of
`bl_list`. -/
def noteMovearea (s : Blocks) (fuel blockcount : Nat) (m : Int) (r : Rect) (dx dy : Int)
    (type : BlType) : List Nat :=
  if dx = 0 ∨ dy = 0 then noteArea md s fuel blockcount m (r.stripe dx dy) type
  else (areaBlocks md m (r.clamp md m)).foldl
    (noteEdgeBlock s fuel blockcount m (r.clamp md m) dx dy type) []

/-- `map_foreachinmovearea`, on any state that the maps are a part of. -/
def mapForeachinmovearea {σ : Type} (view : σ → Blocks) (func : σ → Nat → σ) (fuel blockcount : Nat)
    (st : σ) (m : Int) (r : Rect) (dx dy : Int) (type : BlType) : σ × List Nat :=
  callObjects view func st (noteMovearea md (view st) fuel blockcount m r dx dy type)

/-- The objects that a step leaves behind: in the rectangle, but not in the one after the step. -/
def leftBehind (s : Blocks) (linked : Finset Nat) (m : Int) (r : Rect) (dx dy : Int)
    (type : BlType) : Finset Nat :=
  linked.filter fun o => (s.bl o).m = m ∧ typeWanted type (s.bl o) ∧ r.holds (s.bl o) ∧
    ¬ (r.shift dx dy).holds (s.bl o)

/-- A search finds the objects that a step leaves behind, each once. It calls each that is still in
its list when its turn comes, and so all of them if the function takes none off its list. -/
def MoveSearchOk (s : Blocks) (linked : Finset Nat) (fuel blockcount : Nat) (m : Int) (r : Rect)
    (dx dy : Int) (type : BlType) : Prop :=
  ∃ objs : List Nat, objs.Nodup ∧ objs.toFinset = leftBehind s linked m r dx dy type ∧
    ∀ (σ : Type) (view : σ → Blocks) (func : σ → Nat → σ) (st : σ), view st = s →
      let calls := (mapForeachinmovearea md view func fuel blockcount st m r dx dy type).2
      mapForeachinmovearea md view func fuel blockcount st m r dx dy type =
        callObjects view func st objs ∧
      calls.Sublist objs ∧
      (∀ before o after, objs = before ++ o :: after →
        (o ∈ calls ↔ (view (callObjects view func st before).1).linked o)) ∧
      ((∀ st o o', (view st).linked o' → (view (func st o)).linked o') → calls = objs)

/-- The object is at a border of the map that the rectangle reaches over, on the side that the step
leaves, and stays in the rectangle. -/
def Strays (m : Int) (r : Rect) (dx dy : Int) (bl : BlockList) : Prop :=
  dx ≠ 0 ∧ dy ≠ 0 ∧ r.holds bl ∧ (r.shift dx dy).holds bl ∧
    (0 < dx ∧ r.x0 < 0 ∧ bl.x = 0 ∨ dx < 0 ∧ md.xs m ≤ r.x1 ∧ bl.x = md.xs m - 1 ∨
      0 < dy ∧ r.y0 < 0 ∧ bl.y = 0 ∨ dy < 0 ∧ md.ys m ≤ r.y1 ∧ bl.y = md.ys m - 1)

/-- No object that a search is for strays into it. -/
def NoStrays (s : Blocks) (linked : Finset Nat) (m : Int) (r : Rect) (dx dy : Int) (type : BlType) :
    Prop :=
  ∀ o ∈ linked, (s.bl o).m = m → typeWanted type (s.bl o) → ¬ Strays md m r dx dy (s.bl o)

/-- The objects that a step is about, in the order of the search, whether or not there is room for
them. -/
def moveWanted (s : Blocks) (fuel : Nat) (m : Int) (r : Rect) (dx dy : Int) (type : BlType) :
    List Nat :=
  if dx = 0 ∨ dy = 0 then areaWanted md s fuel m (r.stripe dx dy) type
  else (areaWanted md s fuel m r type).filter fun o => (r.clamp md m).atEdge dx dy (s.bl o)

/-- There is room for what a step leaves behind, and there are no strays, or no room for them behind
the others. -/
def MoveFits (s : Blocks) (linked : Finset Nat) (fuel blockcount : Nat) (m : Int) (r : Rect)
    (dx dy : Int) (type : BlType) : Prop :=
  blockcount + (leftBehind s linked m r dx dy type).card ≤ blListMax ∧
    (NoStrays md s linked m r dx dy type ∨
      blockcount + (leftBehind s linked m r dx dy type).card = blListMax ∧
        ∀ o ∈ (moveWanted md s fuel m r dx dy type).take (leftBehind s linked m r dx dy type).card,
          ¬ Strays md m r dx dy (s.bl o))

/-! ## What is noted -/

section Noted

variable {md : MapSizes} {s : Blocks} {lists : Slot → List Nat} {linked : Finset Nat}
  {fuel blockcount : Nat} {m : Int} {r : Rect} {dx dy : Int} {type : BlType}

/-- A diagonal step passes over the objects that are not at an edge. -/
theorem noteEdgeObjects_eq (acc objs : List Nat) :
    noteEdgeObjects s blockcount r dx dy type acc objs =
      noteObjects s blockcount r type acc (objs.filter fun o => r.atEdge dx dy (s.bl o)) := by
  unfold noteEdgeObjects noteObjects
  rw [List.foldl_filter]
  congr 1
  funext acc o
  cases r.atEdge dx dy (s.bl o) <;> simp

theorem noteEdgeBlock_take (acc : List Nat) (b : Int) :
    noteEdgeBlock s fuel blockcount m r dx dy type (acc.take (blListMax - blockcount)) b =
      (acc ++ (blockWanted s fuel m r type b).filter fun o => r.atEdge dx dy (s.bl o)).take
        (blListMax - blockcount) := by
  unfold noteEdgeBlock blockWanted
  cases type <;> dsimp only
  case nul =>
    rw [noteEdgeObjects_eq, noteEdgeObjects_eq, noteObjects_take, noteObjects_take,
      List.append_assoc, List.filter_append, List.filter_comm, List.filter_comm (wanted s r .nul)]
  all_goals rw [noteEdgeObjects_eq, noteObjects_take, List.filter_comm]

/-- **The loops of a step** note what there is room for. -/
theorem noteMovearea_eq : noteMovearea md s fuel blockcount m r dx dy type =
    (moveWanted md s fuel m r dx dy type).take (blListMax - blockcount) := by
  unfold noteMovearea moveWanted
  split
  · exact noteArea_eq
  have hfold (bs : List Int) (acc : List Nat) :
      bs.foldl (noteEdgeBlock s fuel blockcount m (r.clamp md m) dx dy type)
        (acc.take (blListMax - blockcount)) =
      (acc ++ (bs.flatMap (blockWanted s fuel m (r.clamp md m) type)).filter fun o =>
        (r.clamp md m).atEdge dx dy (s.bl o)).take (blListMax - blockcount) := by
    induction bs generalizing acc with
    | nil => simp
    | cons b bs ih =>
      rw [List.foldl_cons, noteEdgeBlock_take, ih, List.flatMap_cons, List.filter_append,
        List.append_assoc]
  have h := hfold (areaBlocks md m (r.clamp md m)) []
  rw [List.take_nil, List.nil_append] at h
  exact h

theorem BlocksOk.moveWanted_nodup (h : BlocksOk md s lists linked) (hfuel : linked.card ≤ fuel) :
    (moveWanted md s fuel m r dx dy type).Nodup := by
  unfold moveWanted
  split
  · exact h.areaWanted_nodup hfuel
  · exact (h.areaWanted_nodup hfuel).filter _

theorem Rect.holds_iff {bl : BlockList} :
    r.holds bl ↔ r.x0 ≤ bl.x ∧ bl.x ≤ r.x1 ∧ r.y0 ≤ bl.y ∧ bl.y ≤ r.y1 := by
  simp [Rect.holds, and_assoc]

theorem Rect.atEdge_iff {bl : BlockList} :
    r.atEdge dx dy bl ↔ 0 < dx ∧ bl.x < r.x0 + dx ∨ dx < 0 ∧ r.x1 + dx < bl.x ∨
      0 < dy ∧ bl.y < r.y0 + dy ∨ dy < 0 ∧ r.y1 + dy < bl.y := by
  simp [Rect.atEdge, or_assoc]

/-- The rectangle on the map has the cells of the rectangle that are on the map. -/
theorem clamp_holds_iff {bl : BlockList} (hx : 0 ≤ bl.x ∧ bl.x < md.xs m)
    (hy : 0 ≤ bl.y ∧ bl.y < md.ys m) : (r.clamp md m).holds bl ↔ r.holds bl := by
  rw [Rect.holds_iff, Rect.holds_iff]
  unfold Rect.clamp
  dsimp only
  split <;> split <;> split <;> split <;> omega

/-- The stripe of a straight step has the cells that the step leaves behind. -/
theorem stripe_holds_iff {bl : BlockList} (hstep : -1 ≤ dx ∧ dx ≤ 1 ∧ -1 ≤ dy ∧ dy ≤ 1)
    (hr : r.x0 ≤ r.x1 ∧ r.y0 ≤ r.y1) (hstraight : dx = 0 ∨ dy = 0) :
    (r.stripe dx dy).holds bl ↔ r.holds bl ∧ ¬ (r.shift dx dy).holds bl := by
  rw [Rect.holds_iff, Rect.holds_iff, Rect.holds_iff]
  unfold Rect.stripe Rect.shift
  split
  · split <;> dsimp only <;> omega
  · split <;> dsimp only <;> omega

/-- One side of a rectangle. A step of one cell leaves behind what stands at the side on the map, or
the map ends there and the side of the rectangle does not. -/
theorem side_iff {c lo hi size d : Int} (hd : d = 1 ∨ d = -1) (hc : 0 ≤ c ∧ c < size)
    (hin : lo ≤ c ∧ c ≤ hi) :
    (0 < d ∧ c < (if lo < 0 then 0 else lo) + d ∨
        d < 0 ∧ (if size ≤ hi then size - 1 else hi) + d < c) ↔
      ¬ (lo + d ≤ c ∧ c ≤ hi + d) ∨ 0 < d ∧ lo < 0 ∧ c = 0 ∨ d < 0 ∧ size ≤ hi ∧ c = size - 1 := by
  obtain rfl | rfl := hd
  · split <;> omega
  · split <;> split <;> omega

/-- At an edge of the rectangle on the map there are the cells that a diagonal step leaves behind,
and those of its strays. -/
theorem atEdge_iff {bl : BlockList} (hstep : -1 ≤ dx ∧ dx ≤ 1 ∧ -1 ≤ dy ∧ dy ≤ 1)
    (hx : 0 ≤ bl.x ∧ bl.x < md.xs m) (hy : 0 ≤ bl.y ∧ bl.y < md.ys m)
    (hdiag : ¬ (dx = 0 ∨ dy = 0)) (hr : r.holds bl) :
    (r.clamp md m).atEdge dx dy bl ↔ ¬ (r.shift dx dy).holds bl ∨ Strays md m r dx dy bl := by
  have hin := Rect.holds_iff.mp hr
  have hxside := side_iff (d := dx) (by omega) hx ⟨hin.1, hin.2.1⟩
  have hyside := side_iff (d := dy) (by omega) hy ⟨hin.2.2.1, hin.2.2.2⟩
  have hedge : (r.clamp md m).atEdge dx dy bl ↔
      (¬ (r.x0 + dx ≤ bl.x ∧ bl.x ≤ r.x1 + dx) ∨
        0 < dx ∧ r.x0 < 0 ∧ bl.x = 0 ∨ dx < 0 ∧ md.xs m ≤ r.x1 ∧ bl.x = md.xs m - 1) ∨
      (¬ (r.y0 + dy ≤ bl.y ∧ bl.y ≤ r.y1 + dy) ∨
        0 < dy ∧ r.y0 < 0 ∧ bl.y = 0 ∨ dy < 0 ∧ md.ys m ≤ r.y1 ∧ bl.y = md.ys m - 1) := by
    rw [← hxside, ← hyside, Rect.atEdge_iff]
    unfold Rect.clamp
    rw [or_assoc]
  have hshift : (r.shift dx dy).holds bl ↔ (r.x0 + dx ≤ bl.x ∧ bl.x ≤ r.x1 + dx) ∧
      r.y0 + dy ≤ bl.y ∧ bl.y ≤ r.y1 + dy := by
    rw [Rect.holds_iff, ← and_assoc]
    rfl
  have hdx : dx ≠ 0 := fun h => hdiag (.inl h)
  have hdy : dy ≠ 0 := fun h => hdiag (.inr h)
  unfold Strays
  rw [hedge, hshift]
  generalize (r.x0 + dx ≤ bl.x ∧ bl.x ≤ r.x1 + dx) = staysx
  generalize (r.y0 + dy ≤ bl.y ∧ bl.y ≤ r.y1 + dy) = staysy
  by_cases hsx : staysx <;> by_cases hsy : staysy <;> simp [hr, hdx, hdy, hsx, hsy, or_assoc]

/-- **What a step is about**: the objects that it leaves behind, and its strays. -/
theorem BlocksOk.mem_moveWanted (h : BlocksOk md s lists linked) (hfuel : linked.card ≤ fuel)
    (hstep : -1 ≤ dx ∧ dx ≤ 1 ∧ -1 ≤ dy ∧ dy ≤ 1) (hr : r.x0 ≤ r.x1 ∧ r.y0 ≤ r.y1) {o : Nat} :
    o ∈ moveWanted md s fuel m r dx dy type ↔
      o ∈ leftBehind s linked m r dx dy type ∨
        o ∈ linked ∧ (s.bl o).m = m ∧ typeWanted type (s.bl o) ∧ Strays md m r dx dy (s.bl o) := by
  unfold moveWanted leftBehind
  rw [Finset.mem_filter]
  by_cases hmem : o ∈ linked ∧ (s.bl o).m = m ∧ typeWanted type (s.bl o)
  · obtain ⟨ho, hm, htype⟩ := hmem
    have hhas := h.has o ho
    simp only [MapSizes.has, Bool.and_eq_true, decide_eq_true_eq] at hhas
    rw [hm] at hhas
    have hx : 0 ≤ (s.bl o).x ∧ (s.bl o).x < md.xs m := by omega
    have hy : 0 ≤ (s.bl o).y ∧ (s.bl o).y < md.ys m := by omega
    split
    · rename_i hstraight
      rw [h.mem_areaWanted hfuel, clamp_holds_iff hx hy, stripe_holds_iff hstep hr hstraight]
      have hno : ¬ Strays md m r dx dy (s.bl o) := fun hs => hstraight.elim hs.1 hs.2.1
      simp [ho, hm, htype, hno]
    · rename_i hdiag
      rw [List.mem_filter, h.mem_areaWanted hfuel, clamp_holds_iff hx hy]
      by_cases hin : r.holds (s.bl o)
      · rw [atEdge_iff hstep hx hy hdiag hin]
        simp [ho, hm, htype, hin]
      · have hno : ¬ Strays md m r dx dy (s.bl o) := fun hs => hin hs.2.2.1
        simp [hin, hno]
  · have hout (type' : BlType) (r' : Rect) (htype : type' = type) :
        o ∉ areaWanted md s fuel m r' type' := by
      rw [htype, h.mem_areaWanted hfuel]
      exact fun hin => hmem ⟨hin.1, hin.2.1, hin.2.2.1⟩
    constructor
    · intro hin
      split at hin
      · exact absurd hin (hout _ _ rfl)
      · exact absurd (List.mem_of_mem_filter hin) (hout _ _ rfl)
    · rintro (⟨ho, hm, htype, -⟩ | ⟨ho, hm, htype, -⟩) <;> exact absurd ⟨ho, hm, htype⟩ hmem

end Noted

/-! ## The search -/

section Search

variable {md : MapSizes} {s : Blocks} {lists : Slot → List Nat} {linked : Finset Nat}
  {fuel blockcount : Nat} {m : Int} {r : Rect} {dx dy : Int} {type : BlType}

theorem mem_leftBehind {o : Nat} : o ∈ leftBehind s linked m r dx dy type ↔
    o ∈ linked ∧ (s.bl o).m = m ∧ typeWanted type (s.bl o) ∧ r.holds (s.bl o) ∧
      ¬ (r.shift dx dy).holds (s.bl o) := Finset.mem_filter

/-- A search calls what it should if and only if that is what it notes. -/
theorem BlocksOk.moveSearch_noted_iff (h : BlocksOk md s lists linked) (hfuel : linked.card ≤ fuel)
    (hstep : -1 ≤ dx ∧ dx ≤ 1 ∧ -1 ≤ dy ∧ dy ≤ 1) (hr : r.x0 ≤ r.x1 ∧ r.y0 ≤ r.y1) :
    MoveSearchOk md s linked fuel blockcount m r dx dy type ↔
      (noteMovearea md s fuel blockcount m r dx dy type).toFinset =
        leftBehind s linked m r dx dy type := by
  have hsub : (noteMovearea md s fuel blockcount m r dx dy type).Sublist
      (moveWanted md s fuel m r dx dy type) := by
    rw [noteMovearea_eq]
    exact List.take_sublist _ _
  have hnodup : (noteMovearea md s fuel blockcount m r dx dy type).Nodup :=
    (h.moveWanted_nodup hfuel).sublist hsub
  have hlinked : ∀ o ∈ noteMovearea md s fuel blockcount m r dx dy type, s.linked o := by
    intro o ho
    rw [← h.mem]
    rcases (h.mem_moveWanted hfuel hstep hr).mp (hsub.subset ho) with ho | ho
    · exact (mem_leftBehind.mp ho).1
    · exact ho.1
  constructor
  · rintro ⟨objs, -, hobjs, hcalls⟩
    -- A function that does nothing is called for all that is noted.
    obtain ⟨-, -, -, hkept⟩ := hcalls Blocks id (fun st _ => st) s rfl
    have hall := hkept fun _ _ _ hl => hl
    unfold mapForeachinmovearea at hall
    rw [id, callObjects_of_kept hlinked fun _ _ _ hl => hl] at hall
    rw [hall, hobjs]
  · intro hfound
    refine ⟨_, hnodup, hfound, fun σ view func st hst => ?_⟩
    have hcalls : mapForeachinmovearea md view func fuel blockcount st m r dx dy type =
        callObjects view func st (noteMovearea md s fuel blockcount m r dx dy type) := by
      unfold mapForeachinmovearea
      rw [hst]
    dsimp only
    rw [hcalls]
    refine ⟨rfl, callObjects_sublist, fun before o after hobjs => ?_, fun hkept => ?_⟩
    · rw [hobjs] at hnodup ⊢
      exact mem_callObjects hnodup
    · refine callObjects_of_kept (fun o ho => ?_) hkept
      rw [hst]
      exact hlinked o ho

/-- All that a step is about is left behind if and only if there are no strays. -/
theorem BlocksOk.moveWanted_leftBehind_iff (h : BlocksOk md s lists linked)
    (hfuel : linked.card ≤ fuel) (hstep : -1 ≤ dx ∧ dx ≤ 1 ∧ -1 ≤ dy ∧ dy ≤ 1)
    (hr : r.x0 ≤ r.x1 ∧ r.y0 ≤ r.y1) :
    (moveWanted md s fuel m r dx dy type).toFinset = leftBehind s linked m r dx dy type ↔
      NoStrays md s linked m r dx dy type := by
  constructor
  · intro heq o ho hm htype hstray
    have hmem : o ∈ leftBehind s linked m r dx dy type := by
      rw [← heq, List.mem_toFinset, h.mem_moveWanted hfuel hstep hr]
      exact .inr ⟨ho, hm, htype, hstray⟩
    exact (mem_leftBehind.mp hmem).2.2.2.2 hstray.2.2.2.1
  · intro hno
    ext o
    rw [List.mem_toFinset, h.mem_moveWanted hfuel hstep hr]
    exact or_iff_left fun ⟨ho, hm, htype, hs⟩ => hno o ho hm htype hs

theorem BlocksOk.leftBehind_subset (h : BlocksOk md s lists linked) (hfuel : linked.card ≤ fuel)
    (hstep : -1 ≤ dx ∧ dx ≤ 1 ∧ -1 ≤ dy ∧ dy ≤ 1) (hr : r.x0 ≤ r.x1 ∧ r.y0 ≤ r.y1) :
    leftBehind s linked m r dx dy type ⊆ (moveWanted md s fuel m r dx dy type).toFinset := by
  intro o ho
  rw [List.mem_toFinset, h.mem_moveWanted hfuel hstep hr]
  exact .inl ho

/-- **A search calls what it should** if and only if there is room for that, and nothing strays
into it. -/
theorem BlocksOk.moveSearch_iff (h : BlocksOk md s lists linked) (hfuel : linked.card ≤ fuel)
    (hstep : -1 ≤ dx ∧ dx ≤ 1 ∧ -1 ≤ dy ∧ dy ≤ 1) (hr : r.x0 ≤ r.x1 ∧ r.y0 ≤ r.y1)
    (hcount : blockcount ≤ blListMax) :
    MoveSearchOk md s linked fuel blockcount m r dx dy type ↔
      MoveFits md s linked fuel blockcount m r dx dy type := by
  have hnodup : (moveWanted md s fuel m r dx dy type).Nodup := h.moveWanted_nodup hfuel
  have hsubset : leftBehind s linked m r dx dy type ⊆ (moveWanted md s fuel m r dx dy type).toFinset :=
    h.leftBehind_subset hfuel hstep hr
  have hleast := Finset.card_le_card hsubset
  rw [List.toFinset_card_of_nodup hnodup] at hleast
  rw [h.moveSearch_noted_iff hfuel hstep hr, noteMovearea_eq]
  unfold MoveFits
  constructor
  · intro hfound
    have hcard : (leftBehind s linked m r dx dy type).card =
        ((moveWanted md s fuel m r dx dy type).take (blListMax - blockcount)).length := by
      rw [← hfound, List.toFinset_card_of_nodup (hnodup.sublist (List.take_sublist _ _))]
    have hroom : (leftBehind s linked m r dx dy type).card ≤ blListMax - blockcount :=
      hcard.trans_le (List.length_take_le _ _)
    refine ⟨by omega, ?_⟩
    rcases Nat.lt_or_ge (leftBehind s linked m r dx dy type).card (blListMax - blockcount)
      with hless | hfull
    · left
      rw [List.length_take] at hcard
      rw [List.take_of_length_le (by omega)] at hfound
      exact (h.moveWanted_leftBehind_iff hfuel hstep hr).mp hfound
    · refine .inr ⟨by omega, fun o ho hstray => ?_⟩
      rw [Nat.le_antisymm hroom hfull, ← List.mem_toFinset, hfound] at ho
      exact (mem_leftBehind.mp ho).2.2.2.2 hstray.2.2.2.1
  · rintro ⟨hroom, hno | ⟨hfull, hno⟩⟩
    · have hall := (h.moveWanted_leftBehind_iff hfuel hstep hr).mpr hno
      rw [List.take_of_length_le, hall]
      rw [← List.toFinset_card_of_nodup hnodup, hall]
      omega
    · have hcard : blListMax - blockcount = (leftBehind s linked m r dx dy type).card := by omega
      rw [hcard]
      -- None of the first ones strays, and they are as many as should be called.
      refine Finset.eq_of_subset_of_card_le (fun o ho => ?_) ?_
      · rw [List.mem_toFinset] at ho
        rcases (h.mem_moveWanted hfuel hstep hr).mp (List.mem_of_mem_take ho) with hleft | hstray
        · exact hleft
        · exact absurd hstray.2.2.2 (hno o ho)
      · rw [List.toFinset_card_of_nodup (hnodup.sublist (List.take_sublist _ _)), List.length_take]
        omega

end Search

/-- **What comes out of sight**, in every run: a step calls what it leaves behind, each once, if and
only if `bl_list` has room for that, and nothing strays into it. -/
theorem moveArea_exact_iff (md : MapSizes) (bl : Nat → BlockList) {es : List BlockEvent}
    (hplaces : Run.Meets (blockStep md) (PlaceOk md) { bl := bl } es) :
    ∃ lists linked, BlocksOk md (Run.exec (blockStep md) { bl := bl } es) lists linked ∧
      ∀ fuel blockcount m r dx dy type, es.length ≤ fuel → blockcount ≤ blListMax →
        -1 ≤ dx ∧ dx ≤ 1 ∧ -1 ≤ dy ∧ dy ≤ 1 → r.x0 ≤ r.x1 ∧ r.y0 ≤ r.y1 →
        (MoveSearchOk md (Run.exec (blockStep md) { bl := bl } es) linked fuel blockcount m r dx dy
            type ↔
          MoveFits md (Run.exec (blockStep md) { bl := bl } es) linked fuel blockcount m r dx dy
            type) := by
  obtain ⟨lists, linked, h, hcard⟩ := blocksOk_run (blocksOk_empty md bl) hplaces
  rw [Finset.card_empty, Nat.zero_add] at hcard
  exact ⟨lists, linked, h, fun fuel blockcount m r dx dy type hfuel hcount hstep hr =>
    h.moveSearch_iff (hcard.trans hfuel) hstep hr hcount⟩

/-- A player in a map walks on from a monster. -/
theorem moveArea_exact_iff_walk :
    let bl (o : Nat) : BlockList :=
      { m := 0, x := if o = 0 then 10 else 5, y := 7, type := if o = 0 then .pc else .mob }
    let es : List BlockEvent := [.add 0, .add 1]
    ∃ lists linked, BlocksOk smallMap (Run.exec (blockStep smallMap) { bl := bl } es) lists linked ∧
      ∀ fuel blockcount m r dx dy type, es.length ≤ fuel → blockcount ≤ blListMax →
        -1 ≤ dx ∧ dx ≤ 1 ∧ -1 ≤ dy ∧ dy ≤ 1 → r.x0 ≤ r.x1 ∧ r.y0 ≤ r.y1 →
        (MoveSearchOk smallMap (Run.exec (blockStep smallMap) { bl := bl } es) linked fuel
            blockcount m r dx dy type ↔
          MoveFits smallMap (Run.exec (blockStep smallMap) { bl := bl } es) linked fuel blockcount m
            r dx dy type) :=
  moveArea_exact_iff smallMap _ ⟨trivial, trivial, trivial⟩

/-- **A player near the corner of the map** takes a diagonal step away from it, and a monster at the
border that stays in sight is taken for one that comes out of it. -/
theorem moveArea_stray : ¬ ∀ md bl es, Run.Meets (blockStep md) (PlaceOk md) { bl := bl } es →
    ∃ lists linked, BlocksOk md (Run.exec (blockStep md) { bl := bl } es) lists linked ∧
      ∀ fuel m r dx dy type, es.length ≤ fuel →
        -1 ≤ dx ∧ dx ≤ 1 ∧ -1 ≤ dy ∧ dy ≤ 1 → r.x0 ≤ r.x1 ∧ r.y0 ≤ r.y1 →
        MoveSearchOk md (Run.exec (blockStep md) { bl := bl } es) linked fuel 0 m r dx dy type := by
  intro h
  let bl (o : Nat) : BlockList :=
    { m := 0, x := if o = 0 then 3 else 0, y := 3, type := if o = 0 then .pc else .mob }
  obtain ⟨lists, linked, -, hsearch⟩ :=
    h smallMap bl [.add 0, .add 1] ⟨trivial, trivial, trivial⟩
  have hsearch := hsearch 2 0 ⟨-2, -2, 8, 8⟩ 1 1 .mob le_rfl (by decide) (by decide)
  obtain ⟨objs, -, hobjs, hcalls⟩ := hsearch
  obtain ⟨-, -, -, hkept⟩ := hcalls Blocks id (fun st _ => st) _ rfl
  have hall : [1] = objs := hkept fun _ _ _ hl => hl
  have hmem : (1 : Nat) ∈ objs.toFinset := by rw [← hall]; exact List.mem_singleton_self 1
  rw [hobjs] at hmem
  exact (mem_leftBehind.mp hmem).2.2.2.2 (by decide)

end Nezumi
