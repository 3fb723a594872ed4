import Nezumi.Map.BlockLemmas
import Nezumi.Lib.Run

/-!
# Objects come, go and move (`map/map.c`)

* `BlockEvent`: objects are added to the lists of the blocks and taken off them, and get new
  coordinates.
* `PlaceOk`: an object in a list gets no coordinates of another block.
* `SearchOk`: what a search calls.
* `blockRun_index`: in every run the lists are in order, and a search that has room calls what it
  should.
* `blockRun_overflow`: one that has no room does not.
-/

namespace Nezumi

open Chain

inductive BlockEvent
  | add (o : Nat)
  | del (o : Nat)
  | place (o : Nat) (m x y : Int)

def blockStep (md : MapSizes) (s : Blocks) : BlockEvent → Blocks
  | .add o => (mapAddblock md s o).2
  | .del o => mapDelblock md s o
  | .place o m x y => { s with bl := Function.update s.bl o { s.bl o with m := m, x := x, y := y } }

/-- New coordinates are for an object in no list, or of the block that it is in. -/
def PlaceOk (md : MapSizes) (s : Blocks) : BlockEvent → Prop
  | .place o m x y => s.links.prev o = .null ∨ m = (s.bl o).m ∧
    md.has { s.bl o with m := m, x := x, y := y } ∧
    md.blockOf m x y = md.blockOf (s.bl o).m (s.bl o).x (s.bl o).y
  | _ => True

/-- The objects that a search is for. -/
def searched (md : MapSizes) (s : Blocks) (linked : Finset Nat) (m : Int) (r : Rect)
    (type : BlType) : Finset Nat :=
  linked.filter fun o => (s.bl o).m = m ∧ typeWanted type (s.bl o) ∧ (r.clamp md m).holds (s.bl o)

/-- A search finds the objects that it is for, each once, in whatever its function works on. It calls
each that is still in its list when its turn comes, and so all of them if the function takes none off
its list. -/
def SearchOk (md : MapSizes) (s : Blocks) (linked : Finset Nat) (fuel blockcount : Nat) (m : Int)
    (r : Rect) (type : BlType) : Prop :=
  ∃ objs : List Nat, objs.Nodup ∧ objs.toFinset = searched md s linked m r type ∧
    ∀ (σ : Type) (view : σ → Blocks) (func : σ → Nat → σ) (st : σ), view st = s →
      let calls := (mapForeachinarea md view func fuel blockcount st m r type).2
      mapForeachinarea md view func fuel blockcount st m r type = callObjects view func st objs ∧
      calls.Sublist objs ∧
      (∀ before o after, objs = before ++ o :: after →
        (o ∈ calls ↔ (view (callObjects view func st before).1).linked o)) ∧
      ((∀ st o o', (view st).linked o' → (view (func st o)).linked o') → calls = objs)

section Runs

variable {md : MapSizes} {s : Blocks} {lists : Slot → List Nat} {linked : Finset Nat}

/-- **The step lemma.** -/
theorem blocksOk_step (h : BlocksOk md s lists linked) (e : BlockEvent) (he : PlaceOk md s e) :
    ∃ lists' linked', BlocksOk md (blockStep md s e) lists' linked' ∧
      linked'.card ≤ linked.card + 1 := by
  cases e with
  | add o => exact h.addblock o
  | del o =>
    obtain ⟨lists', linked', hok, hcard⟩ := h.delblock o
    exact ⟨lists', linked', hok, hcard.trans (Nat.le_succ _)⟩
  | place o m x y => exact ⟨lists, linked, h.place rfl he, Nat.le_succ _⟩

theorem blocksOk_run {es : List BlockEvent} (h : BlocksOk md s lists linked)
    (hplaces : Run.Meets (blockStep md) (PlaceOk md) s es) :
    ∃ lists' linked', BlocksOk md (Run.exec (blockStep md) s es) lists' linked' ∧
      linked'.card ≤ linked.card + es.length := by
  induction es generalizing s lists linked with
  | nil => exact ⟨lists, linked, h, le_rfl⟩
  | cons e es ih =>
    obtain ⟨lists₁, linked₁, h₁, hcard₁⟩ := blocksOk_step h e hplaces.1
    obtain ⟨lists₂, linked₂, h₂, hcard₂⟩ := ih h₁ hplaces.2
    exact ⟨lists₂, linked₂, h₂, by rw [List.length_cons]; omega⟩

/-- Maps without objects. -/
theorem blocksOk_empty (md : MapSizes) (bl : Nat → BlockList) :
    BlocksOk md { bl := bl } (fun _ => []) ∅ := by
  refine ⟨⟨fun _ => List.nodup_nil, fun k => ?_, fun k o => ?_, fun _ _ => rfl⟩, fun o => ?_,
    fun o ho => absurd ho (Finset.notMem_empty o), fun m => rfl⟩
  · change Blocks.starts _ k = none
    unfold Blocks.starts
    split <;> rfl
  · simp
  · simp [Blocks.linked]

theorem mem_searched {m : Int} {r : Rect} {type : BlType} {o : Nat} :
    o ∈ searched md s linked m r type ↔ o ∈ linked ∧ (s.bl o).m = m ∧ typeWanted type (s.bl o) ∧
      (r.clamp md m).holds (s.bl o) := Finset.mem_filter

/-- **A search that has room.** -/
theorem BlocksOk.search (h : BlocksOk md s lists linked) {fuel blockcount : Nat} {m : Int} {r : Rect}
    {type : BlType} (hfuel : linked.card ≤ fuel) (hm : 0 ≤ m)
    (hroom : blockcount + (searched md s linked m r type).card ≤ blListMax) :
    SearchOk md s linked fuel blockcount m r type := by
  have hnodup : (areaWanted md s fuel m r type).Nodup := h.areaWanted_nodup hfuel
  have hfound : (areaWanted md s fuel m r type).toFinset = searched md s linked m r type := by
    ext o
    rw [List.mem_toFinset, h.mem_areaWanted hfuel, mem_searched]
  refine ⟨areaWanted md s fuel m r type, hnodup, hfound, fun σ view func st hst => ?_⟩
  have hcalls : mapForeachinarea md view func fuel blockcount st m r type =
      callObjects view func st (areaWanted md s fuel m r type) := by
    unfold mapForeachinarea
    rw [if_neg (by omega), noteArea_eq, hst, List.take_of_length_le]
    rw [← List.toFinset_card_of_nodup hnodup, hfound]
    omega
  dsimp only
  rw [hcalls]
  refine ⟨rfl, callObjects_sublist, fun before o after hobjs => ?_, fun hkept => ?_⟩
  · rw [hobjs] at hnodup ⊢
    exact mem_callObjects hnodup
  · refine callObjects_of_kept (fun o ho => ?_) hkept
    rw [hst, ← h.mem]
    exact ((h.mem_areaWanted hfuel).mp ho).1

end Runs

/-- **The blocks are indexed** in every run: every object in a list is exactly once in the list of
its block, properly linked, and the players of every map are counted; and a search for which
`bl_list` has room calls the objects that it is for. -/
theorem blockRun_index (md : MapSizes) (bl : Nat → BlockList) {es : List BlockEvent}
    (hplaces : Run.Meets (blockStep md) (PlaceOk md) { bl := bl } es) :
    ∃ lists linked, BlocksOk md (Run.exec (blockStep md) { bl := bl } es) lists linked ∧
      ∀ fuel blockcount m r type, es.length ≤ fuel → 0 ≤ m →
        blockcount +
          (searched md (Run.exec (blockStep md) { bl := bl } es) linked m r type).card ≤ blListMax →
        SearchOk md (Run.exec (blockStep md) { bl := bl } es) linked fuel blockcount m r type := by
  obtain ⟨lists, linked, h, hcard⟩ := blocksOk_run (blocksOk_empty md bl) hplaces
  rw [Finset.card_empty, Nat.zero_add] at hcard
  exact ⟨lists, linked, h, fun fuel blockcount m r type hfuel hm hroom =>
    h.search (hcard.trans hfuel) hm hroom⟩

/-- A map of four blocks. -/
def smallMap : MapSizes where
  mapNum := 1
  xs _ := 16
  ys _ := 16

/-- A player and a monster on a map; the player walks into another block. -/
theorem blockRun_index_walk :
    let bl (o : Nat) : BlockList := { m := 0, x := 7, y := 7, type := if o = 0 then .pc else .mob }
    let es : List BlockEvent := [.add 0, .add 1, .del 0, .place 0 0 8 7, .add 0]
    ∃ lists linked, BlocksOk smallMap (Run.exec (blockStep smallMap) { bl := bl } es) lists linked ∧
      ∀ fuel blockcount m r type, es.length ≤ fuel → 0 ≤ m →
        blockcount + (searched smallMap (Run.exec (blockStep smallMap) { bl := bl } es) linked m r
          type).card ≤ blListMax →
        SearchOk smallMap (Run.exec (blockStep smallMap) { bl := bl } es) linked fuel blockcount m r
          type :=
  blockRun_index smallMap _ ⟨trivial, trivial, trivial, .inl (by decide), trivial, trivial⟩

section Overflow

variable {md : MapSizes} {s : Blocks} {o : Nat}

theorem mapAddblock_bl (md : MapSizes) (s : Blocks) (o : Nat) : (mapAddblock md s o).2.bl = s.bl := by
  unfold mapAddblock
  split
  · rfl
  dsimp only
  split
  · rfl
  split <;> rfl

theorem pushFront_linked {L : Chain.Links Nat} {start : Option Nat} {c : Nat}
    (h : c = o ∨ L.prev c ≠ .null) : (pushFront L start o).prev c ≠ .null := by
  rw [pushFront_prev]
  split
  · simp
  split
  · simp
  · rename_i hc
    exact h.resolve_left hc

/-- An object on a map is in a list when it has been added, as are those that were. -/
theorem mapAddblock_linked {c : Nat} (h : c = o ∧ md.has (s.bl o) ∨ s.linked c) :
    (mapAddblock md s o).2.linked c := by
  rw [linked_iff] at h ⊢
  unfold mapAddblock
  split
  · rename_i hne
    obtain ⟨rfl, -⟩ | h := h
    · exact hne
    · exact h
  dsimp only
  split
  · rename_i hhas
    refine h.resolve_left fun hc => ?_
    rw [hc.2] at hhas
    cases hhas
  split <;> exact pushFront_linked (h.imp And.left id)

/-- Objects that are added one after the other are in the lists then. -/
theorem adds_linked {os : List Nat} (hhas : ∀ o, md.has (s.bl o)) {c : Nat}
    (hc : c ∈ os ∨ s.linked c) :
    (Run.exec (blockStep md) s (os.map .add)).linked c ∧
      (Run.exec (blockStep md) s (os.map .add)).bl = s.bl := by
  induction os generalizing s with
  | nil => exact ⟨hc.resolve_left (List.not_mem_nil), rfl⟩
  | cons o os ih =>
    have hbl : (blockStep md s (.add o)).bl = s.bl := mapAddblock_bl md s o
    obtain ⟨hlinked, heq⟩ := ih (s := blockStep md s (.add o)) (by rw [hbl]; exact hhas) <| by
      rcases hc with hc | hc
      · rcases List.mem_cons.mp hc with rfl | hc
        · exact .inr (mapAddblock_linked (.inl ⟨rfl, hhas c⟩))
        · exact .inl hc
      · exact .inr (mapAddblock_linked (.inr hc))
    exact ⟨hlinked, heq.trans hbl⟩

theorem meets_adds (md : MapSizes) (s : Blocks) (os : List Nat) :
    Run.Meets (blockStep md) (PlaceOk md) s (os.map .add) := by
  induction os generalizing s with
  | nil => trivial
  | cons o os ih => exact ⟨trivial, ih _⟩

/-- **A search notes no more than `BL_LIST_MAX` objects**, so that of more it misses some. -/
theorem blockRun_overflow : ¬∀ md bl es,
    Run.Meets (blockStep md) (PlaceOk md) { bl := bl } es →
    ∃ lists linked, BlocksOk md (Run.exec (blockStep md) { bl := bl } es) lists linked ∧
      ∀ fuel m r type, es.length ≤ fuel → 0 ≤ m →
        SearchOk md (Run.exec (blockStep md) { bl := bl } es) linked fuel 0 m r type := by
  intro h
  obtain ⟨n, hn⟩ : ∃ n, blListMax < n := ⟨_, Nat.lt_succ_self _⟩
  let npcs : Blocks := { bl := fun _ => { type := .npc } }
  have hhas (o : Nat) : smallMap.has (npcs.bl o) := rfl
  obtain ⟨lists, linked, hok, hsearch⟩ :=
    h smallMap npcs.bl ((List.range n).map .add) (meets_adds _ _ _)
  have hall (o : Nat) (ho : o ∈ Finset.range n) :
      (Run.exec (blockStep smallMap) npcs ((List.range n).map .add)).linked o ∧
        (Run.exec (blockStep smallMap) npcs ((List.range n).map .add)).bl = npcs.bl :=
    adds_linked hhas (.inl (List.mem_range.mpr (Finset.mem_range.mp ho)))
  obtain ⟨objs, hnodup, hobjs, hcalls⟩ := hsearch _ 0 ⟨0, 0, 15, 15⟩ .nul le_rfl le_rfl
  obtain ⟨-, -, -, hkept⟩ := hcalls Blocks id (fun s _ => s) _ rfl
  have hkept := hkept fun _ _ _ hlinked => hlinked
  -- All objects are searched for.
  have hsub : Finset.range n ⊆ objs.toFinset := by
    intro o ho
    obtain ⟨hlinked, hbl⟩ := hall o ho
    rw [hobjs, mem_searched]
    rw [hok.mem]
    refine ⟨hlinked, ?_⟩
    change ((Run.exec (blockStep smallMap) npcs ((List.range n).map .add)).bl o).m = 0 ∧ _
    rw [hbl]
    exact ⟨rfl, rfl, rfl⟩
  have hmany := Finset.card_le_card hsub
  rw [Finset.card_range, List.toFinset_card_of_nodup hnodup] at hmany
  -- Not more than fit are called.
  have hfew : objs.length ≤ blListMax := by
    rw [← hkept]
    unfold mapForeachinarea
    rw [if_neg (by decide), noteArea_eq]
    refine callObjects_sublist.length_le.trans ?_
    rw [Nat.sub_zero]
    exact List.length_take_le _ _
  omega

end Overflow

end Nezumi
