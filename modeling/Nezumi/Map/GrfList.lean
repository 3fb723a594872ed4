import Mathlib.Logic.Relation
import Nezumi.Lib.FrontChain
import Nezumi.Map.GrfEntry

/-!
# The file list (`map/grfio.c`)

The files that the map server knows are in an array, which grows by 1024 entries at a time. Their
names are looked up through 256 chains of entries.

* `FileList` is `filelist`, as long as `filelist_maxentry`, with `filelist_entrys` and
  `filelist_hash`. A link of -1 is `none`. The locale is that of C.
* `filelistFind`, `filelistAdd`, `filelistModify` and `filelistAdjust` are the functions of the same
  names. A file is told by its index in the array.
* `FileList.exec` is a run of calls, `lastStored` what a name was last stored with.
* `fileList_maps`: the file list is a map by names without their case, at any time of any run.
-/

namespace Nezumi

open FrontChain

/-- One round of `filehash`. A `char` above 127 is negative. -/
def filehashRound (hash : UInt32) (c : UInt8) : UInt32 :=
  (hash <<< 1) + (hash >>> 7) * 9 + (tolower c).toInt8.toInt32.toUInt32

/-- `filehash` -/
def filehash (fname : List UInt8) : Fin 256 :=
  Fin.ofNat 256 ((fname.foldl filehashRound 0) &&& 255).toNat

/-- What `strcasecmp` compares of a name. -/
def fileName (fname : List UInt8) : List UInt8 := fname.map tolower

def FileEntry.name (e : FileEntry) : List UInt8 := fileName e.fn.bytes

abbrev FileList := Table FileEntry (Fin 256)

/-- `FILELIST_ADDS` -/
def filelistAdds : ℕ := 1024

namespace FileList

/-- The list at the start, after `hashinit`. -/
def init : FileList := ⟨[], 0, fun _ => none⟩

/-- `filelist_find` -/
def filelistFind (t : FileList) (fname : List UInt8) : Option (Option ℕ) :=
  t.find FileEntry.name filehash (fileName fname)

/-- `filelist_add` -/
def filelistAdd (t : FileList) (entry : FileEntry) : ℕ × FileList :=
  let t := if t.nodes.length ≤ t.count then
    t.grow (List.replicate filelistAdds ⟨{}, some 0⟩) else t
  (t.count, t.push FileEntry.name filehash entry)

/-- `filelist_modify` -/
def filelistModify (t : FileList) (entry : FileEntry) : Option (ℕ × FileList) := do
  match ← filelistFind t entry.fn.bytes with
  | some fentry => return (fentry, t.replace fentry entry)
  | none => return filelistAdd t entry

/-- `filelist_adjust` -/
def filelistAdjust (t : FileList) : FileList := if t.count < t.nodes.length then t.shrink else t

/-- The entry of a name. -/
def entryOf (t : FileList) (fname : List UInt8) : Option (Option FileEntry) :=
  (filelistFind t fname).map fun r => r.bind t.valueAt

end FileList

/-! ## Runs -/

inductive FileCall
  | find (fname : List UInt8)
  | modify (entry : FileEntry)
  | adjust
  deriving DecidableEq

namespace FileList

def step (t : FileList) : FileCall → Option FileList
  | .find fname => (filelistFind t fname).map fun _ => t
  | .modify entry => (filelistModify t entry).map Prod.snd
  | .adjust => some (filelistAdjust t)

def exec (calls : List FileCall) : Option FileList := calls.foldlM step init

/-- An entry is linked to another one. -/
def Linked (t : FileList) (i j : ℕ) : Prop :=
  i < t.count ∧ ∃ nd, t.nodes[i]? = some nd ∧ nd.next = some j

end FileList

/-- The entries that have been stored. -/
def storedEntries (calls : List FileCall) : List FileEntry :=
  calls.filterMap fun | .modify entry => some entry | _ => none

/-- The entry that was stored last under a name. -/
def lastStored (calls : List FileCall) (name : List UInt8) : Option FileEntry :=
  (storedEntries calls).reverse.find? fun e => e.name = name

/-! ## One call -/

section Hash

theorem tolower_tolower (c : UInt8) : tolower (tolower c) = tolower c := by
  unfold tolower
  split_ifs with h1 h2
  · exact absurd h2.2 (by
      have hlo := UInt8.le_iff_toNat_le.mp h1.1
      have hhi := UInt8.le_iff_toNat_le.mp h1.2
      rw [UInt8.le_iff_toNat_le, UInt8.toNat_add]
      have h65 : (65 : UInt8).toNat = 65 := rfl
      have h90 : (90 : UInt8).toNat = 90 := rfl
      have h32 : (32 : UInt8).toNat = 32 := rfl
      omega)
  · rfl
  · rfl

/-- **The hash respects the comparison**: it does not see the case of letters. -/
theorem filehash_fileName (fname : List UInt8) : filehash (fileName fname) = filehash fname := by
  unfold filehash fileName
  rw [List.foldl_map]
  congr 4
  funext hash c
  unfold filehashRound
  rw [tolower_tolower]

end Hash

namespace FileList

variable {t : FileList} {stored : List UInt8 → Option FileEntry} {entry : FileEntry}
  {fname : List UInt8}

/-- What holds of the list between two calls. -/
abbrev Stores (t : FileList) (stored : List UInt8 → Option FileEntry) : Prop :=
  Keeps FileEntry.name filehash t stored

theorem Stores.entryOf (h : Stores t stored) (fname : List UInt8) :
    entryOf t fname = some (stored (fileName fname)) := by
  obtain ⟨r, hr, hstored, -⟩ := h.find_spec (fileName fname)
  unfold FileList.entryOf filelistFind
  rw [hr, Option.map_some, hstored]

/-- `filelist_add` stores a new name. -/
theorem Stores.filelistAdd (h : Stores t stored) (hnew : stored entry.name = none) :
    Stores (filelistAdd t entry).2 (Function.update stored entry.name (some entry)) := by
  unfold FileList.filelistAdd
  dsimp only
  have hgrow := h.grow (List.replicate filelistAdds ⟨{}, some 0⟩)
  split
  · rename_i hfull
    apply hgrow.push _ hnew
    show t.count < (t.nodes ++ _).length
    have := h.count_le
    rw [List.length_append, List.length_replicate]
    unfold filelistAdds
    omega
  · rename_i hroom
    exact h.push (not_le.mp hroom) hnew

/-- **`filelist_modify` stores an entry under its name.** -/
theorem Stores.filelistModify (h : Stores t stored) (entry : FileEntry) :
    ∃ i t', filelistModify t entry = some (i, t') ∧
      Stores t' (Function.update stored entry.name (some entry)) := by
  obtain ⟨r, hr, hstored, hfound⟩ := h.find_spec entry.name
  unfold FileList.filelistModify
  have hfind : filelistFind t entry.fn.bytes = some r := hr
  rw [hfind, Option.bind_eq_bind, Option.bind_some]
  cases r with
  | none => exact ⟨_, _, rfl, h.filelistAdd hstored.symm⟩
  | some i =>
    obtain ⟨hi, old, hold, hkey⟩ := hfound i rfl
    exact ⟨i, t.replace i entry, rfl, h.replace hi hold hkey⟩

theorem Stores.filelistAdjust (h : Stores t stored) : Stores (filelistAdjust t) stored := by
  unfold FileList.filelistAdjust
  split
  · exact h.shrink
  · exact h

/-- Two names are found in one entry only if they differ in the case of letters. -/
theorem Stores.not_shared (h : Stores t stored) {fname' : List UInt8} {i : ℕ}
    (hi : filelistFind t fname = some (some i)) (hi' : filelistFind t fname' = some (some i)) :
    fileName fname = fileName fname' := by
  obtain ⟨r, hr, -, hfound⟩ := h.find_spec (fileName fname)
  obtain ⟨r', hr', -, hfound'⟩ := h.find_spec (fileName fname')
  obtain ⟨-, a, ha, hname⟩ := hfound i (Option.some.inj (hr.symm.trans hi))
  obtain ⟨-, a', ha', hname'⟩ := hfound' i (Option.some.inj (hr'.symm.trans hi'))
  obtain rfl := Option.some.inj (ha.symm.trans ha')
  exact hname.symm.trans hname'

/-- A chain leads to older entries only. -/
theorem Stores.descending (h : Stores t stored) {i j : ℕ} (hij : Relation.TransGen (Linked t) i j) :
    j < i := by
  have hstep (i j : ℕ) (hij : Linked t i j) : j < i := by
    obtain ⟨hi, nd, hnd, hnext⟩ := hij
    exact Keeps.descending h hi hnd hnext
  induction hij with
  | single hij => exact hstep i _ hij
  | tail _ hjk ih => exact (hstep _ _ hjk).trans ih

/-! ## Every run -/

/-- Other calls store nothing. -/
theorem lastStored_other {calls : List FileCall} {call : FileCall} (h : storedEntries [call] = []) :
    lastStored (calls ++ [call]) = lastStored calls := by
  have happend : storedEntries (calls ++ [call]) = storedEntries calls := by
    rw [storedEntries, List.filterMap_append]
    show storedEntries calls ++ storedEntries [call] = _
    rw [h, List.append_nil]
  funext name
  unfold lastStored
  rw [happend]

theorem lastStored_modify (calls : List FileCall) (entry : FileEntry) :
    lastStored (calls ++ [FileCall.modify entry]) =
      Function.update (lastStored calls) entry.name (some entry) := by
  funext name
  unfold lastStored storedEntries
  rw [List.filterMap_append, List.reverse_append]
  show List.find? _ (entry :: _) = _
  rw [List.find?_cons]
  rcases eq_or_ne name entry.name with rfl | hne
  · simp
  · simp [Function.update_of_ne hne, Ne.symm hne]

/-- **One call**: the list stores what it has been given. -/
theorem stores_step {calls : List FileCall} (h : Stores t (lastStored calls)) (call : FileCall) :
    ∃ t', step t call = some t' ∧ Stores t' (lastStored (calls ++ [call])) := by
  cases call with
  | find fname =>
    obtain ⟨r, hr, -, -⟩ := h.find_spec (fileName fname)
    refine ⟨t, congrArg (Option.map fun _ => t) hr, ?_⟩
    rw [lastStored_other rfl]
    exact h
  | modify entry =>
    obtain ⟨i, t', hmodify, hstores⟩ := h.filelistModify entry
    refine ⟨t', congrArg (Option.map Prod.snd) hmodify, ?_⟩
    rw [lastStored_modify]
    exact hstores
  | adjust =>
    refine ⟨_, rfl, ?_⟩
    rw [lastStored_other rfl]
    exact h.filelistAdjust

/-- **Every run** ends, with a list that stores what it has been given. -/
theorem stores_exec (calls : List FileCall) :
    ∃ t, exec calls = some t ∧ Stores t (lastStored calls) := by
  induction calls using List.reverseRecOn with
  | nil => exact ⟨init, rfl, Keeps.empty⟩
  | append_singleton calls call ih =>
    obtain ⟨t, hexec, h⟩ := ih
    obtain ⟨t', hstep, h'⟩ := stores_step h call
    refine ⟨t', ?_, h'⟩
    unfold exec at hexec ⊢
    rw [List.foldlM_append, hexec]
    simpa using hstep

end FileList

/-- **The file list is a map by names without their case.** After every run of calls, which all
return, a name is found if and only if it has been stored, with the entry that was stored last; two
names that differ in more than case are never found in one entry; and no chain comes back to an entry
it has passed. -/
theorem fileList_maps (calls : List FileCall) :
    ∃ t, FileList.exec calls = some t ∧
      (∀ fname, FileList.entryOf t fname = some (lastStored calls (fileName fname))) ∧
      (∀ fname fname' i, FileList.filelistFind t fname = some (some i) →
        FileList.filelistFind t fname' = some (some i) → fileName fname = fileName fname') ∧
      ∀ i, ¬Relation.TransGen (FileList.Linked t) i i := by
  obtain ⟨t, hexec, h⟩ := FileList.stores_exec calls
  refine ⟨t, hexec, h.entryOf, fun fname fname' i => h.not_shared, fun i hi => ?_⟩
  exact lt_irrefl i (h.descending hi)

end Nezumi
