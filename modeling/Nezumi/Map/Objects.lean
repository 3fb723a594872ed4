import Mathlib.Data.Set.Lattice
import Mathlib.Order.Bounds.Defs
import Nezumi.Lib.Run
import Nezumi.Map.Block
import Nezumi.Map.Chat

/-!
# The table of temporary objects (`map/map.c`)

Items on the floor, units of skills and chat rooms have an entry in `object`, whose index is their
id. `first_free_object_id` and `last_object_id` are cached bounds of the entries.

* `ObjectState` is the table with its bounds, `id_db`, and what the functions read of the blocks. A
  block is known by its address.
* `mapAddobject`, `mapDelobjectnofree`, `mapDelobject`, `mapForeachobject` are the functions of the
  same names. A callback of `map_foreachobject` may change everything.
* `Bounded`: the invariant of the two bounds.
* `objects_run`: in every reachable state `map_addobject` returns the lowest free id, and in
  `map_foreachobject` every object of the type has its turn. The function is called on it if it is
  in the list of a map then.
* `object_not_visited`: an object that is not, such as a chat room, is left out.
-/

namespace Nezumi

structure ObjectState where
  object : ℕ → Option ℕ := fun _ => none
  firstFree : ℕ := 0
  last : ℕ := 0
  idDb : ℕ → Option ℕ := fun _ => none
  /-- `bl->prev != NULL` -/
  onMap : ℕ → Bool := fun _ => false
  /-- `bl->type` -/
  blType : ℕ → ℕ := fun _ => 0
  freed : List ℕ := []
  blListCount : ℕ := 0

namespace ObjectState

variable (s : ObjectState)

/-- The first entry from `i` on without an object, or the end of the table. -/
def freeFrom (object : ℕ → Option ℕ) : ℕ → ℕ → ℕ
  | 0, i => i
  | n + 1, i => if (object i).isSome then freeFrom object n (i + 1) else i

/-- `map_addobject`, with `none` for `NULL`. -/
def mapAddobject : Option ℕ → ℕ × ObjectState
  | none => (0, s)
  | some bl =>
    let first := if s.firstFree < 2 ∨ maxFlooritem ≤ s.firstFree then 2 else s.firstFree
    let s := { s with firstFree := first }
    let i := freeFrom s.object (maxFlooritem - first) first
    if maxFlooritem ≤ i then (0, s)
    else
      (i, { s with
        firstFree := i
        last := if s.last < i then i else s.last
        object := Function.update s.object i (some bl)
        idDb := Function.update s.idDb i (some bl) })

/-- The loop that lowers `last_object_id`. -/
def lastUsed (object : ℕ → Option ℕ) : ℕ → ℕ
  | 0 => 0
  | n + 1 => if 2 < n + 1 ∧ object (n + 1) = none then lastUsed object n else n + 1

/-- What `map_delobjectnofree` and `map_delobject` have in common. -/
def takeOut (id : ℕ) (obj : ℕ) : ObjectState :=
  let object := Function.update s.object id none
  { s with
    onMap := Function.update s.onMap obj false
    idDb := Function.update s.idDb id none
    object
    firstFree := if id < s.firstFree then id else s.firstFree
    last := lastUsed object s.last }

/-- `map_delobjectnofree` -/
def mapDelobjectnofree (id : Fin maxFlooritem) : ObjectState :=
  match s.object id with
  | none => s
  | some obj => s.takeOut id obj

/-- `map_delobject` -/
def mapDelobject (id : Fin maxFlooritem) : ObjectState :=
  match s.object id with
  | none => s
  | some obj => { s.takeOut id obj with freed := s.freed ++ [obj] }

/-- One round of the loop that fills `bl_list`. -/
def collectObject (type : ℕ) (l : List ℕ) (i : ℕ) : List ℕ :=
  match s.object i with
  | none => l
  | some bl =>
    if type ≠ 0 ∧ s.blType bl ≠ type then l
    else if blListMax ≤ s.blListCount + l.length then l
    else l ++ [bl]

/-- The blocks that are put into `bl_list`. -/
def collected (type : ℕ) : List ℕ :=
  (List.range' 2 (s.last + 1 - 2)).foldl (s.collectObject type) []

/-- The turns of the blocks, each with the state before it. -/
def turns (func : ObjectState → ℕ → ObjectState) : List ℕ → ObjectState → List (ℕ × ObjectState)
  | [], _ => []
  | bl :: bls, s => (bl, s) :: turns func bls (if s.onMap bl then func s bl else s)

/-- The turns of a traversal. -/
def turnsOf (func : ObjectState → ℕ → ObjectState) (type : ℕ) : List (ℕ × ObjectState) :=
  let bls := s.collected type
  turns func bls { s with blListCount := s.blListCount + bls.length }

/-- `map_foreachobject`: the blocks on which the function is called. -/
def mapForeachobject (func : ObjectState → ℕ → ObjectState) (type : ℕ) : List ℕ :=
  ((s.turnsOf func type).filter fun t => t.2.onMap t.1).map Prod.fst

end ObjectState

/-- The calls, and what the rest of the server does to a block. -/
inductive ObjectEvent
  | add (bl : Option ℕ)
  | delnofree (id : Fin maxFlooritem)
  | del (id : Fin maxFlooritem)
  | block (bl : ℕ) (onMap : Bool) (type : ℕ)

namespace ObjectState

def step (s : ObjectState) : ObjectEvent → ObjectState
  | .add bl => (s.mapAddobject bl).2
  | .delnofree id => s.mapDelobjectnofree id
  | .del id => s.mapDelobject id
  | .block bl onMap type =>
    { s with onMap := Function.update s.onMap bl onMap, blType := Function.update s.blType bl type }

/-! ## What is promised -/

/-- The objects of a type, in the order of their ids. Type `0` stands for all types. -/
def liveOf (s : ObjectState) (type : ℕ) : List ℕ :=
  ((List.range' 2 (maxFlooritem - 2)).filterMap s.object).filter fun bl =>
    type = 0 ∨ s.blType bl = type

structure Right (s : ObjectState) : Prop where
  /-- An id lies between the two bounds. -/
  live : ∀ i, s.object i ≠ none → 2 ≤ i ∧ i ≤ s.last ∧ s.last < maxFlooritem
  /-- All ids below the first bound are used. -/
  used : ∀ i, 2 ≤ i → i < s.firstFree → s.object i ≠ none
  /-- A new object gets the lowest free id, and the others keep theirs. -/
  lowest : ∀ bl, (s.mapAddobject (some bl)).1 ≠ 0 →
    IsLeast {i | 2 ≤ i ∧ i < maxFlooritem ∧ s.object i = none} (s.mapAddobject (some bl)).1 ∧
      (s.mapAddobject (some bl)).2.object =
        Function.update s.object (s.mapAddobject (some bl)).1 (some bl)
  /-- It gets none only if all are used. -/
  full : ∀ bl, (s.mapAddobject (some bl)).1 = 0 → ∀ i, 2 ≤ i → i < maxFlooritem → s.object i ≠ none
  /-- Every object of the type has its turn, and is called if it is in the list of a map then. -/
  visit : ∀ func type, (s.turnsOf func type).map Prod.fst = s.liveOf type ∧
    s.mapForeachobject func type =
      ((s.turnsOf func type).filter fun t => t.2.onMap t.1).map Prod.fst

/-! ## The bounds -/

structure Bounded (s : ObjectState) : Prop where
  live : ∀ i, s.object i ≠ none → 2 ≤ i ∧ i ≤ s.last
  used : ∀ i, 2 ≤ i → i < s.firstFree → s.object i ≠ none
  lt : s.last < maxFlooritem
  count : s.blListCount = 0

section Steps

variable {s : ObjectState} {i n : ℕ}

theorem freeFrom_spec (object : ℕ → Option ℕ) (n i : ℕ) :
    i ≤ freeFrom object n i ∧ freeFrom object n i ≤ i + n ∧
      (∀ j, i ≤ j → j < freeFrom object n i → object j ≠ none) ∧
      (freeFrom object n i < i + n → object (freeFrom object n i) = none) := by
  induction n generalizing i with
  | zero =>
    refine ⟨le_rfl, le_rfl, fun j h h' => ?_, fun h => absurd h (lt_irrefl _)⟩
    exact absurd h' (not_lt.mpr h)
  | succ n ih =>
    unfold freeFrom
    by_cases hi : (object i).isSome
    · rw [if_pos hi]
      obtain ⟨h1, h2, h3, h4⟩ := ih (i + 1)
      refine ⟨by omega, by omega, fun j hj hlt => ?_, fun h => h4 (by omega)⟩
      rcases hj.eq_or_lt with rfl | hj
      · exact Option.isSome_iff_ne_none.mp hi
      · exact h3 j hj hlt
    · rw [if_neg hi]
      exact ⟨le_rfl, Nat.le_add_right _ _, fun j h h' => absurd h' (not_lt.mpr h),
        fun _ => Option.not_isSome_iff_eq_none.mp hi⟩

theorem lastUsed_spec (object : ℕ → Option ℕ) (n : ℕ) : lastUsed object n ≤ n ∧
    ∀ i, 2 ≤ i → lastUsed object n < i → i ≤ n → object i = none := by
  induction n with
  | zero => exact ⟨le_rfl, fun i h _ h' => by omega⟩
  | succ n ih =>
    unfold lastUsed
    split
    · rename_i h
      refine ⟨ih.1.trans n.le_succ, fun i h2 hlt hle => ?_⟩
      rcases hle.eq_or_lt with rfl | hle
      · exact h.2
      · exact ih.2 i h2 hlt (Nat.le_of_lt_succ hle)
    · exact ⟨le_rfl, fun i _ hlt hle => absurd hle (not_le.mpr hlt)⟩

/-- The entry from which `map_addobject` searches: the ones before it are used. -/
theorem Bounded.exists_first (h : s.Bounded) : ∃ first, 2 ≤ first ∧ first ≤ maxFlooritem ∧
    (if s.firstFree < 2 ∨ maxFlooritem ≤ s.firstFree then 2 else s.firstFree) = first ∧
    ∀ i, 2 ≤ i → i < first → s.object i ≠ none := by
  split
  · exact ⟨2, le_rfl, by decide, rfl, fun i h2 hlt => absurd hlt (not_lt.mpr h2)⟩
  · exact ⟨s.firstFree, by omega, by omega, rfl, h.used⟩

/-- The lowest free id, if there is one. -/
theorem Bounded.add_cases (h : s.Bounded) (bl : ℕ) :
    (∃ first, s.mapAddobject (some bl) = (0, { s with firstFree := first }) ∧
      first ≤ maxFlooritem ∧ ∀ i, 2 ≤ i → i < maxFlooritem → s.object i ≠ none) ∨
    ∃ i, s.mapAddobject (some bl) = (i, { s with
        firstFree := i
        last := if s.last < i then i else s.last
        object := Function.update s.object i (some bl)
        idDb := Function.update s.idDb i (some bl) }) ∧
      2 ≤ i ∧ i < maxFlooritem ∧ s.object i = none ∧
      ∀ j, 2 ≤ j → j < i → s.object j ≠ none := by
  obtain ⟨first, h2, hmax, hfirst, hused⟩ := h.exists_first
  obtain ⟨h1, hle, hbelow, hfree⟩ := freeFrom_spec s.object (maxFlooritem - first) first
  have hall : ∀ j, 2 ≤ j → j < freeFrom s.object (maxFlooritem - first) first →
      s.object j ≠ none := by
    intro j hj hlt
    rcases lt_or_ge j first with hjf | hjf
    · exact hused j hj hjf
    · exact hbelow j hjf hlt
  unfold mapAddobject
  dsimp only
  rw [hfirst]
  by_cases hfull : maxFlooritem ≤ freeFrom s.object (maxFlooritem - first) first
  · exact .inl ⟨first, if_pos hfull, hmax, fun i hi hlt => hall i hi (hlt.trans_le hfull)⟩
  · exact .inr ⟨_, if_neg hfull, h2.trans h1, not_le.mp hfull, hfree (by omega), hall⟩

theorem Bounded.add (h : s.Bounded) (bl : Option ℕ) : (s.mapAddobject bl).2.Bounded := by
  cases bl with
  | none => exact h
  | some bl =>
    rcases h.add_cases bl with ⟨first, heq, hle, hfull⟩ | ⟨i, heq, h2, hmax, hfree, hbelow⟩
    · rw [heq]
      exact { h with used := fun i hi hlt => hfull i hi (hlt.trans_le hle) }
    · rw [heq]
      refine ⟨fun j hj => ?_, fun j hj hlt => ?_, ?_, h.count⟩
      · dsimp only at hj ⊢
        by_cases hji : j = i
        · subst hji
          refine ⟨h2, ?_⟩
          split <;> omega
        · rw [Function.update_of_ne hji] at hj
          obtain ⟨h2j, hlast⟩ := h.live j hj
          refine ⟨h2j, ?_⟩
          split <;> omega
      · dsimp only at hlt ⊢
        rw [Function.update_of_ne (Nat.ne_of_lt hlt)]
        exact hbelow j hj hlt
      · have hlt := h.lt
        dsimp only
        split <;> omega

theorem Bounded.takeOut (h : s.Bounded) (id obj : ℕ) : (s.takeOut id obj).Bounded := by
  obtain ⟨hle, hnone⟩ := lastUsed_spec (Function.update s.object id none) s.last
  refine ⟨fun i hi => ?_, fun i h2 hlt => ?_, hle.trans_lt h.lt, h.count⟩
  · have hid : i ≠ id := by
      rintro rfl
      exact hi (Function.update_self ..)
    have hi' : s.object i ≠ none := by
      have heq : (s.takeOut id obj).object i = s.object i := Function.update_of_ne hid _ _
      rwa [heq] at hi
    obtain ⟨h2, hlast⟩ := h.live i hi'
    refine ⟨h2, ?_⟩
    by_contra hgt
    exact hi (hnone i h2 (not_le.mp hgt) hlast)
  · unfold ObjectState.takeOut at hlt ⊢
    dsimp only at hlt ⊢
    have hid : i ≠ id ∧ i < s.firstFree := by
      split at hlt <;> omega
    rw [Function.update_of_ne hid.1]
    exact h.used i h2 hid.2

theorem Bounded.step (h : s.Bounded) (e : ObjectEvent) : (s.step e).Bounded := by
  cases e with
  | add bl => exact h.add bl
  | delnofree id =>
    unfold ObjectState.step mapDelobjectnofree
    dsimp only
    split
    · exact h
    · exact h.takeOut _ _
  | del id =>
    unfold ObjectState.step mapDelobject
    dsimp only
    split
    · exact h
    · rename_i obj _
      exact { h.takeOut id obj with }
  | block bl onMap type => exact { h with }

theorem bounded_init : ({} : ObjectState).Bounded where
  live _ hi := absurd rfl hi
  used _ _ hlt := absurd hlt (Nat.not_lt_zero _)
  lt := by decide
  count := rfl

end Steps

/-! ## Traversals -/

section Traversals

variable {s : ObjectState}

/-- With room in `bl_list` nothing is left out. -/
theorem collect_foldl (type : ℕ) (is : List ℕ) (l : List ℕ)
    (hroom : s.blListCount + l.length + is.length ≤ blListMax) :
    is.foldl (s.collectObject type) l =
      l ++ (is.filterMap s.object).filter fun bl => type = 0 ∨ s.blType bl = type := by
  induction is generalizing l with
  | nil => exact (List.append_nil l).symm
  | cons i is ih =>
    rw [List.length_cons] at hroom
    rw [List.foldl_cons, List.filterMap_cons]
    cases hobj : s.object i with
    | none =>
      have hround : s.collectObject type l i = l := by
        unfold collectObject
        rw [hobj]
      rw [hround]
      exact ih l (by omega)
    | some bl =>
      have hround : s.collectObject type l i =
          if type ≠ 0 ∧ s.blType bl ≠ type then l else l ++ [bl] := by
        unfold collectObject
        rw [hobj]
        dsimp only
        rw [if_neg (show ¬ blListMax ≤ s.blListCount + l.length by omega)]
      dsimp only
      rw [hround, List.filter_cons]
      by_cases htype : type ≠ 0 ∧ s.blType bl ≠ type
      · rw [if_pos htype, if_neg (by simpa using htype)]
        exact ih l (by omega)
      · rw [if_neg htype, if_pos (by simp; grind), ih _ (by simp; omega), List.append_assoc]
        rfl

/-- Every object of the type is collected. -/
theorem Bounded.collected_eq (h : s.Bounded) (type : ℕ) : s.collected type = s.liveOf type := by
  have hlt := h.lt
  have hroom : s.blListCount + ([] : List ℕ).length + (List.range' 2 (s.last + 1 - 2)).length ≤
      blListMax := by
    rw [h.count, List.length_nil, List.length_range']
    unfold maxFlooritem at hlt
    unfold blListMax
    omega
  unfold collected liveOf
  rw [collect_foldl type _ _ hroom, List.nil_append]
  congr 1
  have hsplit : List.range' 2 (maxFlooritem - 2) = List.range' 2 (s.last + 1 - 2) ++
      List.range' (2 + (s.last + 1 - 2)) (maxFlooritem - 2 - (s.last + 1 - 2)) := by
    rw [List.range'_append_1]
    congr 1
    omega
  have hrest : (List.range' (2 + (s.last + 1 - 2))
      (maxFlooritem - 2 - (s.last + 1 - 2))).filterMap s.object = [] := by
    refine List.filterMap_eq_nil_iff.mpr fun i hi => ?_
    rw [List.mem_range'_1] at hi
    by_contra hlive
    have := (h.live i hlive).2
    omega
  rw [hsplit, List.filterMap_append, hrest, List.append_nil]

theorem turns_fst (func : ObjectState → ℕ → ObjectState) (bls : List ℕ) (s : ObjectState) :
    (turns func bls s).map Prod.fst = bls := by
  induction bls generalizing s with
  | nil => rfl
  | cons bl bls ih => exact congrArg (bl :: ·) (ih _)

theorem Bounded.right (h : s.Bounded) : s.Right where
  live i hi := ⟨(h.live i hi).1, (h.live i hi).2, h.lt⟩
  used := h.used
  lowest bl hne := by
    rcases h.add_cases bl with ⟨first, heq, -⟩ | ⟨i, heq, h2, hmax, hfree, hbelow⟩
    · exact absurd (congrArg Prod.fst heq) hne
    · rw [heq]
      refine ⟨⟨⟨h2, hmax, hfree⟩, ?_⟩, rfl⟩
      rintro j ⟨hj, -, hjfree⟩
      by_contra hlt
      exact hbelow j hj (not_le.mp hlt) hjfree
  full bl hzero := by
    rcases h.add_cases bl with ⟨first, heq, -, hfull⟩ | ⟨i, heq, h2, -⟩
    · exact hfull
    · rw [heq] at hzero
      dsimp only at hzero
      omega
  visit func type := ⟨(turns_fst _ _ _).trans (h.collected_eq type), rfl⟩

end Traversals

/-- **Temporary objects.** After any calls a new object gets the lowest free id, and a traversal has
a turn for every object of its type. -/
theorem objects_run (es : List ObjectEvent) : (Run.exec step {} es).Right :=
  (Run.inv_exec (fun _ e hI (_ : True) => hI.step e) bounded_init
    (Run.meets_of_forall (fun _ _ => trivial) _ es)).right

/-- A chat room is an object that is in no list of a map. A traversal leaves it out. -/
theorem object_not_visited : ¬ ∀ (es : List ObjectEvent) (type id bl : ℕ),
    (Run.exec step {} es).object id = some bl →
    type = 0 ∨ (Run.exec step {} es).blType bl = type →
    bl ∈ (Run.exec step {} es).mapForeachobject (fun s _ => s) type := by
  intro h
  have hmem := h [.add (some 7)] 0 2 7 (by decide) (.inl rfl)
  exact absurd hmem (by decide)

end ObjectState

end Nezumi
