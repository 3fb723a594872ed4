import Nezumi.Lib.Decimal
import Mathlib.Data.List.Infix

/-!
# Permanent map variables (`map/script.c`)

The variables of the server, whose names start with `$`, live in two tables, `mapreg_db` for numbers
and `mapregstr_db` for strings (names that end with `$`). Their key is an array index above the
number of the name in the string table. Those whose names do not start with `$@` are kept in a file,
a line for each.

* `addStr` is `add_str`: a name is entered once, and one in lower case stands for all its spellings.
* `mapregSetreg` and `mapregSetregstr`, `scriptSaveMapreg` and `scriptLoadMapreg` are the functions
  of the same names. `numdb_foreach` visits the variables in the order in which they are given here.
-/

namespace Nezumi

open Decimal

/-- A name of the string table, without its end. -/
abbrev VarName := List UInt8

instance : LawfulBEq VarName := inferInstance

/-- `tolower` -/
def toLower (b : UInt8) : UInt8 := if 65 ≤ b && b ≤ 90 then b + 32 else b

/-- The names that have been entered, in `str_data` and `str_buf`. -/
abbrev StrTable := List VarName

/-- `add_str` -/
def addStr (strs : StrTable) (p : VarName) : Nat × StrTable :=
  if p.map toLower ∈ strs then (strs.idxOf (p.map toLower), strs)
  else if p ∈ strs then (strs.idxOf p, strs)
  else (strs.length, strs ++ [p])

/-- A value of a variable. -/
inductive RegValue
  | int (v : Int32)
  | str (s : List UInt8)
deriving DecidableEq

/-- A variable, or an element of an array. -/
structure Reg where
  name : VarName
  index : UInt8
  value : RegValue
deriving DecidableEq

/-- `mapreg_db` and `mapregstr_db`, with the string table. A key is an index and the number of a
name. -/
structure MapregDb where
  strs : StrTable
  mapreg : UInt8 × Nat → Option Int32 := fun _ => none
  mapregstr : UInt8 × Nat → Option (List UInt8) := fun _ => none

/-- `mapreg_setreg` -/
def mapregSetreg (db : MapregDb) (num : UInt8 × Nat) (val : Int32) : MapregDb :=
  { db with mapreg := Function.update db.mapreg num (if val ≠ 0 then some val else none) }

/-- `mapreg_setregstr` -/
def mapregSetregstr (db : MapregDb) (num : UInt8 × Nat) (str : List UInt8) : MapregDb :=
  { db with mapregstr := Function.update db.mapregstr num (if str = [] then none else some str) }

/-! ## Saving -/

/-- The value as it is printed. -/
def RegValue.text : RegValue → List UInt8
  | .int v => ofInt v.toInt
  | .str s => s

/-- The line of a variable, without its end. -/
def Reg.body (v : Reg) : List UInt8 :=
  if v.index = 0 then v.name ++ 9 :: v.value.text
  else v.name ++ 44 :: (ofNat v.index.toNat ++ 9 :: v.value.text)

/-- `script_save_mapreg_intsub`, `script_save_mapreg_strsub` -/
def saveMapregSub (v : Reg) : List UInt8 := if v.name[1]? ≠ some 64 then v.body ++ [10] else []

/-- The variables in the order in which they are saved, the numbers first. -/
def savedRegs (ints : List (VarName × UInt8 × Int32))
    (strs : List (VarName × UInt8 × List UInt8)) : List Reg :=
  ints.map (fun (name, i, v) => ⟨name, i, .int v⟩) ++ strs.map fun (name, i, s) => ⟨name, i, .str s⟩

/-- `script_save_mapreg` -/
def scriptSaveMapreg (ints : List (VarName × UInt8 × Int32))
    (strs : List (VarName × UInt8 × List UInt8)) : List UInt8 :=
  (savedRegs ints strs).flatMap saveMapregSub

/-! ## Loading -/

/-- What `fgets` reads into a `line[1024]`: up to a line's end, and at most `1023` bytes. -/
def fgetsLine (file : List UInt8) : List UInt8 :=
  let text := (file.take 1023).takeWhile (· ≠ 10)
  if text.length < (file.take 1023).length then text ++ [10] else text

/-- The lines that a loop of `fgets` reads, at most `n`. -/
def fgetsLines : Nat → List UInt8 → List (List UInt8)
  | 0, _ => []
  | _ + 1, [] => []
  | n + 1, b :: file =>
    fgetsLine (b :: file) :: fgetsLines n ((b :: file).drop (fgetsLine (b :: file)).length)

/-- The conversion `%d`: `strtol` keeps to the range of a `long`, of which an `int` takes the low
half. -/
def scanD (bs : List UInt8) : Option (Int32 × List UInt8) :=
  (scanInt bs).map fun (z, r) => (Int32.ofInt (max (-2 ^ 63) (min z (2 ^ 63 - 1))), r)

/-- `sscanf(line, "%255[^,],%d\t%n", ...)`: the name, the index and what is left. -/
def scanIndexed (line : List UInt8) : Option (VarName × UInt8 × List UInt8) :=
  let buf := (line.take 255).takeWhile (· ≠ 44)
  if buf = [] then none
  else
    match line.drop buf.length with
    | 44 :: r => (scanD r).map fun (i, r) => (buf, i.toUInt32.toUInt8, r.dropWhile isSpace)
    | _ => none

/-- `sscanf(line, "%[^\t]\t%n", ...)`: the name and what is left. -/
def scanPlain (line : List UInt8) : Option (VarName × UInt8 × List UInt8) :=
  let buf := line.takeWhile (· ≠ 9)
  if buf = [] then none else some (buf, 0, (line.drop buf.length).dropWhile isSpace)

/-- What `script_load_mapreg` finds in a line. -/
def readReg (line : List UInt8) : Option Reg :=
  match (scanIndexed line).or (scanPlain line) with
  | none => none
  | some (buf, i, rest) =>
    if buf.getLast? = some 36 then
      let str := rest.takeWhile fun b => b ≠ 10 && b ≠ 13
      if str = [] then none else some ⟨buf, i, .str str⟩
    else (scanD rest).map fun (v, _) => ⟨buf, i, .int v⟩

/-- What `script_load_mapreg` does with what it has found. -/
def insertReg (db : MapregDb) (v : Reg) : MapregDb :=
  let (s, strs) := addStr db.strs v.name
  match v.value with
  | .int val =>
    { db with strs := strs, mapreg := Function.update db.mapreg (v.index, s) (some val) }
  | .str str =>
    { db with strs := strs, mapregstr := Function.update db.mapregstr (v.index, s) (some str) }

/-- A line of `script_load_mapreg`. -/
def loadLine (db : MapregDb) (line : List UInt8) : MapregDb :=
  match readReg line with
  | none => db
  | some v => insertReg db v

/-- `script_load_mapreg`, into empty tables and with the names that have been entered before. -/
def scriptLoadMapreg (strs : StrTable) (file : List UInt8) : MapregDb :=
  (fgetsLines file.length file).foldl loadLine { strs := strs }

/-! ## What the file keeps -/

/-- The variables of the tables. -/
def MapregDb.Holds (db : MapregDb) (v : Reg) : Prop :=
  ∃ s, db.strs[s]? = some v.name ∧
    match v.value with
    | .int val => db.mapreg (v.index, s) = some val
    | .str str => db.mapregstr (v.index, s) = some str

/-- A permanent variable: its name starts with `$` but not with `$@` and says the type of its value,
and the value is one that is stored: a number is not zero, a string is not empty, has no line end
and is shorter than `255` bytes. -/
structure Reg.Permanent (v : Reg) : Prop where
  dollar : v.name[0]? = some 36
  kept : v.name[1]? ≠ some 64
  typed : (∃ s, v.value = .str s) ↔ v.name.getLast? = some 36
  int : ∀ val, v.value = .int val → val ≠ 0
  str : ∀ s, v.value = .str s → s ≠ [] ∧ 10 ∉ s ∧ s.length < 255

/-- A comma among the first `256` bytes, the first one, and a number behind it. -/
def hasIndex (body : List UInt8) : Bool :=
  let buf := (body.take 255).takeWhile (· ≠ 44)
  match body.drop buf.length with
  | 44 :: r => (scanInt r).isSome
  | _ => false

/-- What the line of a variable has to be like: the name has no line end, all fits into the buffer;
no part of a name or value without an index looks like one, and a name with an index has no comma
and is not too long; and a string does not start with a blank and has no carriage return. -/
def Reg.LineOk (v : Reg) : Prop :=
  10 ∉ v.name ∧ v.body.length ≤ 1023 ∧
    (if v.index = 0 then 9 ∉ v.name ∧ hasIndex v.body = false
    else 44 ∉ v.name ∧ v.name.length ≤ 255) ∧
    match v.value with
    | .int _ => True
    | .str s => (∀ b ∈ s.head?, isSpace b = false) ∧ 13 ∉ s

instance (v : Reg) : Decidable v.LineOk := by
  unfold Reg.LineOk
  haveI : Decidable (match v.value with
    | .int _ => True
    | .str s => (∀ b ∈ s.head?, isSpace b = false) ∧ 13 ∉ s) :=
    match v.value with
    | .int _ => .isTrue trivial
    | .str s => @instDecidableAnd _ _ (Option.decidableForallMem s.head?) inferInstance
  infer_instance

/-- No name is read as its lower-case spelling, which has been entered before it. -/
def SpellingOk : StrTable → List Reg → Prop
  | _, [] => True
  | strs, v :: vs =>
    (v.name.map toLower = v.name ∨ v.name.map toLower ∉ strs) ∧ SpellingOk (strs ++ [v.name]) vs

instance SpellingOk.decidable : (strs : StrTable) → (vs : List Reg) → Decidable (SpellingOk strs vs)
  | _, [] => .isTrue trivial
  | strs, v :: vs =>
    haveI := SpellingOk.decidable (strs ++ [v.name]) vs
    inferInstanceAs (Decidable (_ ∧ _))

end Nezumi
