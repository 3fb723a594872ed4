import Mathlib.Logic.Function.Basic
import Mathlib.Tactic.Common
import Nezumi.Lib.Run

/-!
# Saving a file (`common/lock.c`)

The servers write their text files through `lock_fopen` and `lock_fclose`: into a new file, which
then takes the place of the old one.

* `LockFile`: the names that `sprintf` makes of the name of a file, which differ from each other.
* `lockFopen`, `lockFclose`: the functions of the same names. The second gives the disk after each
  of its operations, any of which may fail.
* `LockEvent`: a save that is cut off at any place, by an error or the end of the server, or not.
* `lockRun_safe`: under the name of the file there is never a part of a content, and the content
  that was last written to its end is on the disk.
-/

namespace Nezumi

/-- The names of the file, of the previous one and of the new ones. -/
inductive LockFile
  | file
  | previous
  | tmp (no : ℕ)
deriving DecidableEq

abbrev Disk := LockFile → Option (List UInt8)

/-- `remove` -/
def Disk.remove (d : Disk) (f : LockFile) : Disk := Function.update d f none

/-- `rename`, which does nothing without the first file. -/
def Disk.rename (d : Disk) (f g : LockFile) : Disk :=
  match d f with
  | none => d
  | some content => Function.update (d.remove f) g (some content)

/-- `fopen` and all that is written. -/
def Disk.put (d : Disk) (f : LockFile) (content : List UInt8) : Disk :=
  Function.update d f (some content)

/-- The loop of `lock_fopen`. -/
def lockFopenLoop (d : Disk) (no : ℕ) : ℕ :=
  if (d (.tmp no)).isSome ∧ no < 9999 then lockFopenLoop d (no + 1) else no
termination_by 9999 - no

/-- The number of the new file that `lock_fopen` opens. -/
def lockFopen (d : Disk) : ℕ := lockFopenLoop d 1

/-- The operations of `lock_fclose` that fail. -/
structure LockFails where
  removePrevious : Bool := false
  backup : Bool := false
  removeFile : Bool := false
  replace : Bool := false
deriving DecidableEq

/-- The disk at the start of `lock_fclose`, whose `fclose` has not failed, and after each of its
operations. -/
def lockFclose (d : Disk) (no : ℕ) (fails : LockFails) : List Disk :=
  let d₁ := if (d .previous).isSome ∧ fails.removePrevious = false then d.remove .previous else d
  let d₂ := if fails.backup then d₁ else d₁.rename .file .previous
  let d₃ := if (d₂ .file).isSome ∧ fails.removeFile = false then d₂.remove .file else d₂
  let d₄ := if fails.replace then d₃ else d₃.rename (.tmp no) .file
  [d, d₁, d₂, d₃, d₄]

/-- The disk, and as a ghost what has been written to its end, in order. -/
structure LockWorld where
  disk : Disk := fun _ => none
  written : List (List UInt8) := []

/-- A save: it ends in the middle of what is written, of which a part is on the disk, or after some
operations of `lock_fclose`. -/
inductive LockEvent
  | torn (part : List UInt8)
  | closed (content : List UInt8) (fails : LockFails) (ops : Fin 5)

def lockStep (w : LockWorld) : LockEvent → LockWorld
  | .torn part => { w with disk := w.disk.put (.tmp (lockFopen w.disk)) part }
  | .closed content fails ops =>
    { disk := (lockFclose (w.disk.put (.tmp (lockFopen w.disk)) content) (lockFopen w.disk)
        fails).get ops
      written := w.written ++ [content] }

/-! ## What is on the disk -/

/-- Where there is a content of these under a name, or nothing. -/
def Disk.Among (d : Disk) (written : List (List UInt8)) : Prop :=
  (∀ x, d .file = some x → x ∈ written) ∧ ∀ x, d .previous = some x → x ∈ written

/-- A content is there under the name of the file, or of the new file. -/
def Disk.Has (d : Disk) (no : ℕ) (content : List UInt8) : Prop :=
  d .file = some content ∨ d (.tmp no) = some content

section Operations

variable {d : Disk} {written : List (List UInt8)} {no : ℕ} {content : List UInt8}

theorem Disk.Among.remove (h : d.Among written) (f : LockFile) : (d.remove f).Among written := by
  unfold Disk.remove
  refine ⟨fun x hx => ?_, fun x hx => ?_⟩ <;> rw [Function.update_apply] at hx <;> split at hx
  · cases hx
  · exact h.1 x hx
  · cases hx
  · exact h.2 x hx

theorem Disk.Among.put (h : d.Among written) (no : ℕ) (x : List UInt8) :
    (d.put (.tmp no) x).Among written := by
  unfold Disk.put
  refine ⟨fun y hy => h.1 y ?_, fun y hy => h.2 y ?_⟩
  · rwa [Function.update_of_ne (by simp)] at hy
  · rwa [Function.update_of_ne (by simp)] at hy

theorem Disk.put_of_ne {f g : LockFile} (h : f ≠ g) (x : List UInt8) : (d.put g x) f = d f :=
  Function.update_of_ne h _ _

/-- A content moves to another name. -/
theorem Disk.Among.rename (h : d.Among written) {f : LockFile} (g : LockFile)
    (hf : ∀ x, d f = some x → x ∈ written) : (d.rename f g).Among written := by
  unfold Disk.rename
  split
  · exact h
  · rename_i content hcontent
    have hmem := hf content hcontent
    have hremove := h.remove f
    refine ⟨fun x hx => ?_, fun x hx => ?_⟩ <;> rw [Function.update_apply] at hx <;> split at hx
    · exact Option.some.inj hx ▸ hmem
    · exact hremove.1 x hx
    · exact Option.some.inj hx ▸ hmem
    · exact hremove.2 x hx

theorem tmp_remove {f : LockFile} (hf : f ≠ .tmp no) : (d.remove f) (.tmp no) = d (.tmp no) :=
  Function.update_of_ne hf.symm _ _

theorem tmp_rename (no : ℕ) : (d.rename .file .previous) (.tmp no) = d (.tmp no) := by
  unfold Disk.rename
  cases d .file with
  | none => rfl
  | some content => exact (Function.update_of_ne (by simp) _ _).trans (tmp_remove (by simp))

/-- **`lock_fclose`** at any of its operations: what is under the names of the file has been written
to its end, and the new content is there. -/
theorem lockFclose_spec (h : d.Among written) (hnew : d (.tmp no) = some content)
    (hmem : content ∈ written) (fails : LockFails) :
    ∀ d' ∈ lockFclose d no fails, d'.Among written ∧ d'.Has no content := by
  unfold lockFclose
  extract_lets d₁ d₂ d₃ d₄
  have h₁ : d₁.Among written ∧ d₁ (.tmp no) = some content := by
    simp only [d₁]
    split
    · exact ⟨h.remove _, (tmp_remove (by simp)).trans hnew⟩
    · exact ⟨h, hnew⟩
  have h₂ : d₂.Among written ∧ d₂ (.tmp no) = some content := by
    simp only [d₂]
    split
    · exact h₁
    · exact ⟨h₁.1.rename _ h₁.1.1, (tmp_rename no).trans h₁.2⟩
  have h₃ : d₃.Among written ∧ d₃ (.tmp no) = some content := by
    simp only [d₃]
    split
    · exact ⟨h₂.1.remove _, (tmp_remove (by simp)).trans h₂.2⟩
    · exact h₂
  have h₄ : d₄.Among written ∧ d₄.Has no content := by
    simp only [d₄]
    split
    · exact ⟨h₃.1, .inr h₃.2⟩
    · refine ⟨h₃.1.rename _ fun x hx => ?_, .inl ?_⟩
      · obtain rfl := Option.some.inj (h₃.2.symm.trans hx)
        exact hmem
      · unfold Disk.rename
        rw [h₃.2]
        exact Function.update_self _ _ _
  simp only [List.forall_mem_cons, List.not_mem_nil, false_implies, implies_true, and_true]
  exact ⟨⟨h, .inr hnew⟩, ⟨h₁.1, .inr h₁.2⟩, ⟨h₂.1, .inr h₂.2⟩, ⟨h₃.1, .inr h₃.2⟩, h₄⟩

/-- A save that is not cut off puts the content in the place of the old one, which it keeps. -/
theorem lockFclose_saved (hnew : d (.tmp no) = some content) :
    ∃ d', (lockFclose d no {}).getLast? = some d' ∧ d' .file = some content ∧
      d' (.tmp no) = none ∧ (∀ x, d .file = some x → d' .previous = some x) := by
  have h₁ : ∃ d₁ : Disk, (if (d .previous).isSome then d.remove .previous else d) = d₁ ∧
      d₁ .file = d .file ∧ d₁ (.tmp no) = some content := by
    refine ⟨_, rfl, ?_⟩
    split
    · exact ⟨Function.update_of_ne (by simp) _ _, (tmp_remove (by simp)).trans hnew⟩
    · exact ⟨rfl, hnew⟩
  obtain ⟨d₁, heq₁, hfile₁, htmp₁⟩ := h₁
  obtain ⟨d₂, heq₂⟩ : ∃ d₂, d₁.rename .file .previous = d₂ := ⟨_, rfl⟩
  have hfile₂ : d₂ .file = none := by
    rw [← heq₂]
    unfold Disk.rename
    cases hfile : d₁ .file with
    | none => exact hfile
    | some x => exact (Function.update_of_ne (by simp) _ _).trans (Function.update_self _ _ _)
  have hprev₂ : ∀ x, d .file = some x → d₂ .previous = some x := by
    intro x hx
    rw [← heq₂]
    unfold Disk.rename
    rw [hfile₁, hx]
    exact Function.update_self _ _ _
  have htmp₂ : d₂ (.tmp no) = some content := by rw [← heq₂, tmp_rename, htmp₁]
  refine ⟨d₂.rename (.tmp no) .file, ?_, ?_, ?_, fun x hx => ?_⟩
  · simp [lockFclose, heq₁, heq₂, hfile₂]
  · unfold Disk.rename
    rw [htmp₂]
    exact Function.update_self _ _ _
  · unfold Disk.rename
    rw [htmp₂]
    exact (Function.update_of_ne (by simp) _ _).trans (Function.update_self _ _ _)
  · unfold Disk.rename
    rw [htmp₂]
    exact (Function.update_of_ne (by simp) _ _).trans
      ((Function.update_of_ne (by simp) _ _).trans (hprev₂ x hx))

end Operations

/-! ## Runs -/

/-- `lock_fopen` finds a name that is not used. -/
def NameFree (w : LockWorld) (_ : LockEvent) : Prop := w.disk (.tmp (lockFopen w.disk)) = none

structure LockInv (w : LockWorld) : Prop where
  among : w.disk.Among w.written
  last : ∀ s ∈ w.written.getLast?, ∃ no, w.disk.Has no s

theorem Disk.Among.mono {d : Disk} {written : List (List UInt8)} (h : d.Among written)
    (content : List UInt8) : d.Among (written ++ [content]) :=
  ⟨fun x hx => List.mem_append_left _ (h.1 x hx), fun x hx => List.mem_append_left _ (h.2 x hx)⟩

/-- **The step lemma.** -/
theorem lockStep_inv {w : LockWorld} (h : LockInv w) (e : LockEvent) (hfree : NameFree w e) :
    LockInv (lockStep w e) := by
  cases e with
  | torn part =>
    refine ⟨h.among.put _ _, fun s hs => ?_⟩
    obtain ⟨no, hhas⟩ := h.last s hs
    refine ⟨no, hhas.imp (fun hfile => ?_) fun htmp => ?_⟩
    · exact (Disk.put_of_ne (show LockFile.file ≠ .tmp (lockFopen w.disk) by simp) part).trans hfile
    · have hne : LockFile.tmp no ≠ .tmp (lockFopen w.disk) := by
        intro heq
        rw [heq, show w.disk _ = none from hfree] at htmp
        cases htmp
      exact (Disk.put_of_ne hne part).trans htmp
  | closed content fails ops =>
    have hspec := lockFclose_spec ((h.among.mono content).put (lockFopen w.disk) content)
      (Function.update_self _ _ _) (List.mem_append_right _ (List.mem_singleton_self _)) fails
    obtain ⟨hamong, hhas⟩ := hspec _ (List.get_mem (lockFclose
      (w.disk.put (.tmp (lockFopen w.disk)) content) (lockFopen w.disk) fails) ops)
    refine ⟨hamong, fun s hs => ?_⟩
    obtain rfl : content = s := by
      rw [show (lockStep w (.closed content fails ops)).written = w.written ++ [content] from rfl,
        List.getLast?_concat] at hs
      exact Option.some.inj hs
    exact ⟨_, hhas⟩

/-- **Saving is safe.** However the saves are cut off, and whichever operations of `lock_fclose`
fail: as long as `lock_fopen` finds a name that is not used, what is under the name of the file and
of the previous one has been written to its end, and what was last written to its end is on the
disk. -/
theorem lockRun_safe (es : List LockEvent) (hfree : Run.Meets lockStep NameFree {} es) :
    LockInv (Run.exec lockStep {} es) :=
  Run.inv_exec (I := LockInv) (fun _ e h hf => lockStep_inv h e hf)
    ⟨⟨fun _ h => (by cases h), fun _ h => (by cases h)⟩, fun _ h => (by cases h)⟩ hfree

theorem lockFopen_one {d : Disk} (h : d (.tmp 1) = none) : lockFopen d = 1 := by
  unfold lockFopen
  rw [lockFopenLoop, if_neg]
  simp [h]

theorem lockStep_closed {w : LockWorld} {no : ℕ} (h : lockFopen w.disk = no)
    (content : List UInt8) (fails : LockFails) (ops : Fin 5) :
    (lockStep w (.closed content fails ops)).disk =
      (lockFclose (w.disk.put (.tmp no) content) no fails).get ops := by
  subst h
  rfl

/-- The second save is cut off in the middle. -/
theorem lockRun_safe_cut : LockInv (Run.exec lockStep {} [.closed [1] {} (Fin.last 4), .torn [2]]) := by
  have hdisk : (lockStep {} (.closed [1] {} (Fin.last 4))).disk (.tmp 1) = none := by
    rw [lockStep_closed (lockFopen_one rfl)]
    rfl
  refine lockRun_safe _ ⟨rfl, ?_, trivial⟩
  unfold NameFree
  rw [lockFopen_one hdisk]
  exact hdisk

end Nezumi
