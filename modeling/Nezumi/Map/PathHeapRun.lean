import Nezumi.Lib.BinaryHeap
import Nezumi.Lib.Run
import Nezumi.Map.PathHeap

/-!
# The heap of the path search over whole runs (`map/path.c`)

* `siftUp_ordered`, `siftDown_hole`: the loops keep the order of the costs.
* `ordered_push`, `ordered_update`, `ordered_pop`: so do the functions.
* `heapStep` is one call, `HeapCall.Called` what the search sees to before it: an entry is pushed
  when it is not in the heap, and the cost of one that is only goes down, before
  `update_heap_path`.
* `heapRun_right`: after every call the heap is ordered and has the entries that were pushed and not
  yet popped, and what is popped costs least.
-/

namespace Nezumi

open BinaryHeap

/-! ## The loops -/

section Loops

variable {cost : Nat → Int} {heap : Nat → Nat} {tp : Nat → TmpPath} {idx n h k : Nat}

theorem siftUp_ordered (fuel : Nat) (hn : h < n) (hfuel : h ≤ fuel)
    (hole : Hole n (cost ∘ heap) (h + 1)) (habove : Above n (cost ∘ heap) (h + 1) (cost idx)) :
    Ordered n (cost ∘ siftUp cost idx fuel heap h) := by
  induction fuel generalizing heap h with
  | zero =>
    unfold siftUp
    rw [Function.comp_update]
    exact hole.fill (by omega) habove fun h2 => by omega
  | succ fuel ih =>
    unfold siftUp
    dsimp only
    split_ifs with hlt
    · have hparent : (h + 1) / 2 = (h - 1) / 2 + 1 := by omega
      have hx : cost idx ≤ (cost ∘ heap) ((h + 1) / 2) := by
        rw [hparent]
        exact hlt.2.le
      obtain ⟨hole', habove'⟩ := hole.up (by omega) (by omega) hx
      rw [hparent] at hole' habove'
      apply ih (by omega) (by omega)
      · rw [Function.comp_update]
        exact hole'
      · rw [Function.comp_update]
        exact habove'
    · rw [Function.comp_update]
      refine hole.fill (by omega) habove fun h2 => ?_
      rw [show (h + 1) / 2 = (h - 1) / 2 + 1 by omega]
      exact not_lt.mp fun hcost => hlt ⟨by omega, hcost⟩

/-- The hole stays one, and ends where no two children are. -/
theorem siftDown_hole (fuel : Nat) (hn : heap 0 = n) (hh : h < n) (hk : k = 2 * h + 2)
    (hfuel : n ≤ fuel + h) (hole : Hole n (cost ∘ heap) (h + 1)) :
    let r := siftDown cost fuel heap h k
    Hole n (cost ∘ r.1) (r.2.1 + 1) ∧ n ≤ r.2.2 := by
  induction fuel generalizing heap h k with
  | zero => omega
  | succ fuel ih =>
    unfold siftDown
    dsimp only
    by_cases hlt : k < heap 0
    · rw [if_pos hlt]
      -- The cheaper child goes up.
      have hstep : ∀ c, (c = k ∨ c = k - 1) → cost (heap (c + 1)) ≤ cost (heap (k + 1)) →
          cost (heap (c + 1)) ≤ cost (heap k) →
          let r := siftDown cost fuel (Function.update heap (h + 1) (heap (c + 1))) c (c * 2 + 2)
          Hole n (cost ∘ r.1) (r.2.1 + 1) ∧ n ≤ r.2.2 := by
        intro c hc hright hleft
        apply ih
        · rw [Function.update_of_ne (by omega), hn]
        · omega
        · omega
        · omega
        · rw [Function.comp_update]
          refine hole.down (by omega) (by omega) (by omega) fun j hj hp => ?_
          obtain rfl | rfl : j = k ∨ j = k + 1 := by omega
          · exact hleft
          · exact hright
      split_ifs with hcost
      · refine hstep (k - 1) (.inr rfl) ?_ ?_
        · rw [show k - 1 + 1 = k by omega]
          exact hcost.le
        · rw [show k - 1 + 1 = k by omega]
      · exact hstep k (.inl rfl) le_rfl (not_lt.mp hcost)
    · rw [if_neg hlt]
      refine ⟨hole, ?_⟩
      show n ≤ k
      omega

/-! ## The functions -/

/-- The costs of the entries, in the order of the heap. -/
def costs (tp : Nat → TmpPath) (heap : Nat → Nat) : Nat → Int := (fun i => (tp i).cost) ∘ heap

theorem ordered_push (ho : Ordered (heap 0) (costs tp heap)) (idx : Nat) :
    Ordered (heap 0 + 1) (costs tp (pushHeapPath heap tp idx)) := by
  unfold pushHeapPath
  dsimp only
  rw [Function.update_self, Nat.add_sub_cancel]
  have ho' : Ordered (heap 0) (costs tp (Function.update heap 0 (heap 0 + 1))) :=
    ho.congr fun j h1 _ => by
      unfold costs
      rw [Function.comp_apply, Function.comp_apply, Function.update_of_ne (by omega)]
  exact siftUp_ordered _ (by omega) le_rfl ho'.hole_end (above_of_leaf (by omega))

/-- A heap that is ordered but for one entry, which may cost less than it did. -/
theorem ordered_update {old : Nat → TmpPath} {heap' : Nat → Nat}
    (ho : Ordered (heap 0) (costs old heap))
    (hinj : ∀ i j, 1 ≤ i → i ≤ heap 0 → 1 ≤ j → j ≤ heap 0 → heap i = heap j → i = j)
    (hless : (tp idx).cost ≤ (old idx).cost) (hother : ∀ i, i ≠ idx → (tp i).cost = (old i).cost)
    (heq : updateHeapPath heap tp idx = some heap') : Ordered (heap 0) (costs tp heap') := by
  unfold updateHeapPath at heq
  dsimp only at heq
  split_ifs at heq with hfound
  obtain rfl := Option.some.inj heq
  obtain hend | ⟨hlt, hat⟩ := @findHeap_spec heap idx (heap 0) 0
  · exact absurd (hend.trans (Nat.zero_add _)) hfound
  · rw [Nat.zero_add] at hlt
    generalize findHeap heap idx (heap 0) 0 = h at hlt hat
    have hsame : ∀ j, 1 ≤ j → j ≤ heap 0 → j ≠ h + 1 → costs tp heap j = costs old heap j := by
      intro j h1 hn hne
      refine hother _ fun hj => hne (hinj j (h + 1) h1 hn (by omega) (by omega) ?_)
      rw [hj, hat]
    apply siftUp_ordered _ hlt le_rfl
    · refine ⟨fun j h2 hn hne hp => ?_, fun h2 j hn hp => ?_⟩
      · have := ho j h2 hn
        rwa [← hsame j (by omega) hn hne, ← hsame (j / 2) (by omega) (by omega) hp] at this
      · have := (ho.hole (h + 1)).around h2 j hn hp
        rwa [← hsame j (by omega) hn (by omega), ← hsame ((h + 1) / 2) (by omega) (by omega)
          (by omega)] at this
    · intro j hn hp
      have hold := ho j (by omega) hn
      rw [hp, ← hsame j (by omega) hn (by omega)] at hold
      refine hless.trans (le_trans (le_of_eq ?_) hold)
      unfold costs
      rw [Function.comp_apply, hat]

theorem ordered_pop (hn : heap 0 = n + 1) (ho : Ordered (n + 1) (costs tp heap)) :
    Ordered n (costs tp (popHeapPath heap tp).2) := by
  rcases Nat.eq_zero_or_pos n with rfl | hpos
  · intro j h2 hj
    omega
  unfold popHeapPath
  dsimp only
  rw [hn, Nat.add_sub_cancel, Function.update_self]
  have hole : Hole n (costs tp (Function.update heap 0 n)) (0 + 1) :=
    ((ho.mono (Nat.le_succ n)).congr fun j h1 _ => by
      unfold costs
      rw [Function.comp_apply, Function.comp_apply, Function.update_of_ne (by omega)]).hole 1
  obtain ⟨hole', hend⟩ := siftDown_hole n (Function.update_self ..) hpos rfl (by omega) hole
  obtain ⟨-, hlt, hk, hz⟩ := siftDown_rearranges (fun i => (tp i).cost) (Function.update heap 0 n) n
    (Function.update_self ..) hpos rfl 0
  revert hole' hend hlt hk hz
  generalize siftDown (fun i => (tp i).cost) n (Function.update heap 0 n) 0 2 = r
  intro hole' hend hlt hk hz
  obtain ⟨heap', h, k⟩ := r
  dsimp only at hole' hend hlt hk hz ⊢
  split_ifs with hlast
  · -- The hole has one child left, the last entry.
    have hchild : k / 2 = h + 1 := by omega
    have hleast : Above n ((fun i => (tp i).cost) ∘ heap') (h + 1) ((tp (heap' k)).cost) := by
      intro j hj hp
      obtain rfl : j = k := by omega
      exact le_rfl
    have hdown := hole'.down (Nat.succ_pos _) hchild (hlast.trans hz).le hleast
    have hplace : k = k - 1 + 1 := by omega
    apply siftUp_ordered _ (show k - 1 < n by omega) le_rfl
    · rw [Function.comp_update, ← hplace]
      exact hdown
    · exact above_of_leaf (show n < 2 * (k - 1 + 1) by omega)
  · have hleaf : n < 2 * (h + 1) := by omega
    exact siftUp_ordered _ hlt le_rfl hole' (above_of_leaf hleaf)

end Loops

/-! ## Runs -/

/-- The table and the heap, and the entries that have been pushed and not yet been popped. -/
structure HeapState where
  tp : Nat → TmpPath
  heap : Nat → Nat
  held : Multiset Nat

/-- A call of the search, with what it writes to the entry before it. -/
inductive HeapCall where
  | push (idx : Nat) (p : TmpPath)
  | update (idx : Nat) (p : TmpPath)
  | pop
  /-- an entry is written to without a call -/
  | write (idx : Nat) (p : TmpPath)

/-- No state where the program exits. -/
def heapStep (s : Option HeapState) (e : HeapCall) : Option HeapState :=
  s.bind fun s =>
    match e with
    | .push idx p =>
      let tp := Function.update s.tp idx p
      some ⟨tp, pushHeapPath s.heap tp idx, idx ::ₘ s.held⟩
    | .update idx p =>
      let tp := Function.update s.tp idx p
      (updateHeapPath s.heap tp idx).map fun heap => ⟨tp, heap, s.held⟩
    | .pop =>
      let r := popHeapPath s.heap s.tp
      some ⟨s.tp, r.2, s.held.erase r.1⟩
    | .write idx p => some { s with tp := Function.update s.tp idx p }

/-- What the search sees to. An entry is pushed when it is new or has been popped, it is updated in
the heap when its cost has gone down, and there is an entry when one is popped. Nothing else is
written to the cost of an entry of the heap. -/
def HeapCall.Called (s : HeapState) : HeapCall → Prop
  | .push idx _ => idx ∉ s.held
  | .update idx p => idx ∈ s.held ∧ p.cost ≤ (s.tp idx).cost
  | .pop => s.heap 0 ≠ 0
  | .write idx p => idx ∈ s.held → p.cost = (s.tp idx).cost

instance (s : HeapState) (e : HeapCall) : Decidable (e.Called s) := by
  unfold HeapCall.Called
  split <;> infer_instance

/-- The array is a binary heap: no entry costs less than its parent. `heap[0]` is the number of
entries, so place `h` of the heap is the element `h + 1`. -/
def MinHeap (s : HeapState) : Prop :=
  ∀ h, 0 < h → h < s.heap 0 →
    (s.tp (s.heap ((h - 1) / 2 + 1))).cost ≤ (s.tp (s.heap (h + 1))).cost

/-- A call leaves a heap of the entries that are held, and an entry that it pops costs least. -/
def HeapRight (s : Option HeapState) (e : HeapCall) : Prop :=
  ∃ old new, s = some old ∧ heapStep s e = some new ∧ MinHeap new ∧
    entries new.heap = new.held ∧
    (e = .pop → (popHeapPath old.heap old.tp).1 ∈ old.held ∧
      ∀ i ∈ old.held, (old.tp (popHeapPath old.heap old.tp).1).cost ≤ (old.tp i).cost)

/-- The invariant. An entry is in the heap once. -/
structure HeapState.Ok (s : HeapState) : Prop where
  ordered : Ordered (s.heap 0) (costs s.tp s.heap)
  held : entries s.heap = s.held
  nodup : s.held.Nodup

section Run

variable {s : HeapState} {idx : Nat} {p : TmpPath}

theorem minHeap_of_ordered (h : Ordered (s.heap 0) (costs s.tp s.heap)) : MinHeap s := by
  intro k hpos hlt
  have := h (k + 1) (by omega) (by omega)
  rwa [show (k + 1) / 2 = (k - 1) / 2 + 1 by omega] at this

/-- The entries of the heap are written to apart from their costs. -/
theorem costs_update_of_eq (hcost : idx ∈ entries s.heap → p.cost = (s.tp idx).cost) {j : Nat}
    (h1 : 1 ≤ j) (hn : j ≤ s.heap 0) :
    costs (Function.update s.tp idx p) s.heap j = costs s.tp s.heap j := by
  unfold costs
  rw [Function.comp_apply, Function.comp_apply]
  by_cases hj : s.heap j = idx
  · have hmem : idx ∈ entries s.heap := Rearrange.mem_values.2 ⟨j, Finset.mem_Icc.2 ⟨h1, hn⟩, hj⟩
    rw [hj, Function.update_self, hcost hmem]
  · rw [Function.update_of_ne hj]

/-- An entry stands at one place. -/
theorem HeapState.Ok.inj (h : s.Ok) (i j : Nat) (hi1 : 1 ≤ i) (hin : i ≤ s.heap 0) (hj1 : 1 ≤ j)
    (hjn : j ≤ s.heap 0) (heq : s.heap i = s.heap j) : i = j := by
  have hnodup : (entries s.heap).Nodup := h.held.symm ▸ h.nodup
  unfold entries Rearrange.values at hnodup
  exact Multiset.inj_on_of_nodup_map hnodup i (Finset.mem_Icc.2 ⟨hi1, hin⟩) j
    (Finset.mem_Icc.2 ⟨hj1, hjn⟩) heq

theorem ok_push (h : s.Ok) (hidx : idx ∉ s.held) :
    (⟨Function.update s.tp idx p, pushHeapPath s.heap (Function.update s.tp idx p) idx,
      idx ::ₘ s.held⟩ : HeapState).Ok := by
  obtain ⟨hentries, hzero, -⟩ := entries_push s.heap (Function.update s.tp idx p) idx
  refine ⟨?_, by rw [hentries, h.held], Multiset.nodup_cons.2 ⟨hidx, h.nodup⟩⟩
  dsimp only
  rw [hzero]
  apply ordered_push
  exact h.ordered.congr fun j h1 hn =>
    costs_update_of_eq (fun hmem => absurd (h.held ▸ hmem) hidx) h1 hn

theorem ok_update (h : s.Ok) (hidx : idx ∈ s.held) (hcost : p.cost ≤ (s.tp idx).cost) :
    ∃ heap, updateHeapPath s.heap (Function.update s.tp idx p) idx = some heap ∧
      (⟨Function.update s.tp idx p, heap, s.held⟩ : HeapState).Ok := by
  have hmem : idx ∈ entries s.heap := h.held ▸ hidx
  obtain ⟨heap, heq, hentries, hzero, -⟩ := entries_update (Function.update s.tp idx p) hmem
  refine ⟨heap, heq, ?_, hentries.trans h.held, h.nodup⟩
  dsimp only
  rw [hzero]
  refine ordered_update h.ordered h.inj ?_ (fun i hi => ?_) heq
  · rw [Function.update_self]
    exact hcost
  · rw [Function.update_of_ne hi]

/-- **What is popped costs least**, and the rest stays a heap. -/
theorem ok_pop (h : s.Ok) (hpos : s.heap 0 ≠ 0) :
    (⟨s.tp, (popHeapPath s.heap s.tp).2, s.held.erase (popHeapPath s.heap s.tp).1⟩ :
        HeapState).Ok ∧
      (popHeapPath s.heap s.tp).1 ∈ s.held ∧
      ∀ i ∈ s.held, (s.tp (popHeapPath s.heap s.tp).1).cost ≤ (s.tp i).cost := by
  obtain ⟨hentries, hzero, -⟩ := entries_pop s.heap s.tp hpos
  obtain ⟨n, hn⟩ := Nat.exists_eq_add_one_of_ne_zero hpos
  rw [h.held] at hentries
  refine ⟨⟨?_, ?_, h.nodup.erase _⟩, ?_, fun i hi => ?_⟩
  · have hzero' : (popHeapPath s.heap s.tp).2 0 = n := by omega
    dsimp only
    rw [hzero']
    exact ordered_pop hn (hn ▸ h.ordered)
  · dsimp only
    rw [← hentries, Multiset.erase_cons_head]
  · rw [← hentries]
    exact Multiset.mem_cons_self _ _
  · have hmem : i ∈ entries s.heap := h.held.symm ▸ hi
    obtain ⟨j, hj, rfl⟩ := Rearrange.mem_values.1 hmem
    obtain ⟨h1, hjn⟩ := Finset.mem_Icc.1 hj
    exact h.ordered.top h1 hjn

theorem ok_write (h : s.Ok) (hcost : idx ∈ s.held → p.cost = (s.tp idx).cost) :
    HeapState.Ok { s with tp := Function.update s.tp idx p } where
  ordered := h.ordered.congr fun _ h1 hn =>
    costs_update_of_eq (fun hmem => hcost (h.held ▸ hmem)) h1 hn
  held := h.held
  nodup := h.nodup

/-- **A call keeps the invariant** and does what it is to do. -/
theorem heapStep_ok (h : s.Ok) (e : HeapCall) (hcall : e.Called s) :
    (∃ new, heapStep (some s) e = some new ∧ new.Ok) ∧ HeapRight (some s) e := by
  have hright {new : HeapState} (heq : heapStep (some s) e = some new) (hok : new.Ok)
      (hpop : e = .pop → (popHeapPath s.heap s.tp).1 ∈ s.held ∧
        ∀ i ∈ s.held, (s.tp (popHeapPath s.heap s.tp).1).cost ≤ (s.tp i).cost) :
      (∃ new, heapStep (some s) e = some new ∧ new.Ok) ∧ HeapRight (some s) e :=
    ⟨⟨new, heq, hok⟩, s, new, rfl, heq, minHeap_of_ordered hok.ordered, hok.held, hpop⟩
  cases e with
  | push idx p => exact hright rfl (ok_push h hcall) (by rintro ⟨⟩)
  | update idx p =>
    obtain ⟨heap, heq, hok⟩ := ok_update h hcall.1 hcall.2
    refine hright ?_ hok (by rintro ⟨⟩)
    show (updateHeapPath s.heap _ idx).map _ = _
    rw [heq]
    rfl
  | pop =>
    obtain ⟨hok, hleast⟩ := ok_pop h hcall
    exact hright rfl hok fun _ => hleast
  | write idx p => exact hright rfl (ok_write h hcall) (by rintro ⟨⟩)

/-- **The heap of the path search.** From an empty heap, every call leaves an ordered heap of the
entries that are held, and what is popped costs least. -/
theorem heapRun_right {tp : Nat → TmpPath} {heap : Nat → Nat} (hempty : heap 0 = 0)
    {es : List HeapCall}
    (hcalled : Run.Meets heapStep (fun o e => ∀ s ∈ o, e.Called s) (some ⟨tp, heap, 0⟩) es) :
    Run.Meets heapStep HeapRight (some ⟨tp, heap, 0⟩) es := by
  refine Run.meets_of_inv (I := fun o => ∃ s, o = some s ∧ s.Ok) ?_ ?_ ⟨_, rfl, ?_⟩ hcalled
  · rintro _ e ⟨s, rfl, hs⟩ hcall
    exact (heapStep_ok hs e (hcall s rfl)).1
  · rintro _ e ⟨s, rfl, hs⟩ hcall
    exact (heapStep_ok hs e (hcall s rfl)).2
  · refine ⟨fun j h2 hj => ?_, ?_, Multiset.nodup_zero⟩
    · dsimp only at hj
      omega
    · unfold entries
      dsimp only
      rw [hempty]
      rfl

end Run

/-- Three entries are pushed, the dearest one becomes the cheapest, is popped and is pushed
again. -/
theorem heapRun_right_three :
    Run.Meets heapStep HeapRight (some ⟨fun _ => {}, fun _ => 0, 0⟩)
      [.push 3 { cost := 7 }, .push 5 { cost := 2 }, .push 4 { cost := 9 }, .update 4 { cost := 1 },
        .pop, .write 4 { flag := true }, .push 4 { cost := 6 }, .pop, .pop, .pop] :=
  heapRun_right rfl (by decide +kernel)

end Nezumi
