import Nezumi.Common.Mmo
import Nezumi.Common.Text
import Nezumi.Lib.Fill

/-!
# The lines of the characters' file (`char/char.c`, text-file build)

* `CharRecord` is what a line holds of `struct mmo_charstatus`, with the variables of the character.
* `mmoCharTostr` and `mmoCharFromstr` are the functions of the same names. A pointer into a line is
  what is left of the line.
* `readEntries` is the loop of the five lists behind the fields. Each list has its own entry.
* The buffers are as long as the texts need.
-/

namespace Nezumi

open Decimal Scanf

/-- `MAX_SKILL` -/
def maxSkill : ℕ := 1100

/-- `MAX_PORTAL_MEMO` -/
def maxPortalMemo : ℕ := 3

/-- `GLOBAL_REG_NUM` -/
def globalRegNum : ℕ := 700

/-- `struct point` -/
structure MapPoint where
  map : CStr 16 := default
  x : Int16 := 0
  y : Int16 := 0
deriving DecidableEq

/-- `struct skill` -/
structure SkillSlot where
  id : UInt16 := 0
  lv : UInt8 := 0
  flag : UInt8 := 0
deriving DecidableEq

/-- The fields of `struct mmo_charstatus` that are saved, and the variables of `global_reg_db`. The
ids are as large as an `int`. -/
structure CharRecord where
  charId : Int32 := 0
  accountId : Int32 := 0
  charNum : Fin 32 := 0
  name : CStr 24 := default
  cls : Int16 := 0
  baseLevel : UInt8 := 0
  jobLevel : UInt8 := 0
  baseExp : Int32 := 0
  jobExp : Int32 := 0
  zeny : Int32 := 0
  hp : Int32 := 0
  maxHp : Int32 := 0
  sp : Int32 := 0
  maxSp : Int32 := 0
  str : Int16 := 0
  agi : Int16 := 0
  vit : Int16 := 0
  int : Int16 := 0
  dex : Int16 := 0
  luk : Int16 := 0
  statusPoint : Int16 := 0
  skillPoint : Int16 := 0
  option : Int16 := 0
  karma : Int16 := 0
  manner : Int16 := 0
  partyId : Int32 := 0
  guildId : Int32 := 0
  petId : Int32 := 0
  hair : Int16 := 0
  hairColor : Int16 := 0
  clothesColor : Int16 := 0
  weapon : Int16 := 0
  shield : Int16 := 0
  headTop : Int16 := 0
  headMid : Int16 := 0
  headBottom : Int16 := 0
  lastPoint : MapPoint := {}
  savePoint : MapPoint := {}
  partnerId : Int32 := 0
  memoPoint : Fin maxPortalMemo → MapPoint := fun _ => {}
  inventory : Fin maxInventory → Item := fun _ => Item.zero
  cart : Fin maxCart → Item := fun _ => Item.zero
  skill : Fin maxSkill → SkillSlot := fun _ => {}
  globalReg : List GlobalReg := []

/-! ## Writing -/

/-- Numbers with commas between them. -/
def numbersText (vs : List Int32) : List UInt8 := commas (vs.map int2string)

def byteInt (v : UInt8) : Int32 := Int32.ofNat v.toNat

/-- Where a character with no last point is put. -/
def startPoint : MapPoint := { map := cstr 16 "prontera.gat", x := 273, y := 354 }

/-- The last point, which must not be void. -/
def CharRecord.savedPoint (p : CharRecord) : MapPoint :=
  if p.lastPoint.map.bytes = [] then startPoint else p.lastPoint

/-- A map and some numbers. -/
def pointText (point : MapPoint) (more : List Int32) : List UInt8 :=
  point.map.bytes ++ 44 :: numbersText (point.x.toInt32 :: point.y.toInt32 :: more)

/-- The fields of a line before the lists. -/
def CharRecord.headText (p : CharRecord) : List UInt8 :=
  int2string p.charId ++ 9 ::
  (numbersText [p.accountId, Int32.ofNat p.charNum.val] ++ 9 ::
  (p.name.bytes ++ 9 ::
  (numbersText [p.cls.toInt32, byteInt p.baseLevel, byteInt p.jobLevel] ++ 9 ::
  (numbersText [p.baseExp, p.jobExp, p.zeny] ++ 9 ::
  (numbersText [p.hp, p.maxHp, p.sp, p.maxSp] ++ 9 ::
  (numbersText [p.str.toInt32, p.agi.toInt32, p.vit.toInt32, p.int.toInt32, p.dex.toInt32,
    p.luk.toInt32] ++ 9 ::
  (numbersText [p.statusPoint.toInt32, p.skillPoint.toInt32] ++ 9 ::
  (numbersText [p.option.toInt32, p.karma.toInt32, p.manner.toInt32] ++ 9 ::
  (numbersText [p.partyId, p.guildId, p.petId] ++ 9 ::
  (numbersText [p.hair.toInt32, p.hairColor.toInt32, p.clothesColor.toInt32] ++ 9 ::
  (numbersText [p.weapon.toInt32, p.shield.toInt32, p.headTop.toInt32, p.headMid.toInt32,
    p.headBottom.toInt32] ++ 9 ::
  (pointText p.savedPoint [] ++ 9 ::
  pointText p.savePoint [p.partnerId]))))))))))))

/-- The memo points that are used. Nothing stands between them. -/
def memoPointsText (memo : Fin maxPortalMemo → MapPoint) : List UInt8 :=
  (List.ofFn memo).flatMap fun point => if point.map.bytes ≠ [] then pointText point [] else []

/-- The items in the slots that are used. -/
def itemsText {n : ℕ} (items : Fin n → Item) : List UInt8 :=
  (List.ofFn items).flatMap fun it => if it.nameid ≠ 0 then itemText it else []

/-- The id that a skill with a level gets in its place of the skill tree. -/
def fixedId (i : Fin maxSkill) (s : SkillSlot) : UInt16 :=
  if s.lv ≠ 0 ∧ s.id = 0 then UInt16.ofNat i.val else s.id

/-- A skill that is not only lent by a card or a plagiarised skill. -/
def savedSkill (i : Fin maxSkill) (s : SkillSlot) : Bool :=
  fixedId i s ≠ 0 && s.flag ≠ 1 && s.flag ≠ 13

/-- The level of a skill without what a card adds. -/
def savedLevel (s : SkillSlot) : Int32 :=
  if s.flag = 0 then byteInt s.lv else byteInt s.flag - 2

def skillsText (skill : Fin maxSkill → SkillSlot) : List UInt8 :=
  (List.finRange maxSkill).flatMap fun i =>
    if savedSkill i (skill i) then
      numbersText [Int32.ofNat (fixedId i (skill i)).toNat, savedLevel (skill i)] ++ [32]
    else []

def regText (r : GlobalReg) : List UInt8 :=
  r.str.bytes ++ 44 :: (int2string (Int32.ofBitVec r.value) ++ [32])

/-- `mmo_char_tostr` -/
def mmoCharTostr (p : CharRecord) : List UInt8 :=
  p.headText ++ 9 ::
  (memoPointsText p.memoPoint ++ 9 ::
  (itemsText p.inventory ++ 9 ::
  (itemsText p.cart ++ 9 ::
  (skillsText p.skill ++ 9 ::
  (p.globalReg.flatMap regText ++ [9])))))

/-! ## Reading -/

/-- The format of the fields, with so many ids of a party, a guild and a pet, and so many numbers at
the end. -/
def charFormat (ids last : ℕ) : List Directive :=
  .int :: .space ::
  (ints 2 ++ .space :: .upto 9 :: .space ::
  (ints 3 ++ .space :: (ints 3 ++ .space :: (ints 4 ++ .space :: (ints 6 ++ .space ::
  (ints 2 ++ .space :: (ints 3 ++ .space :: (ints ids ++ .space :: (ints 3 ++ .space ::
  (ints 5 ++ .space :: .upto 44 :: .lit 44 ::
  (ints 2 ++ .space :: .upto 44 :: .lit 44 :: ints last)))))))))))

/-- The numbers among some values. -/
def numbersOf (vs : List Value) : List Int32 := vs.filterMap fun
  | .int v => some v
  | _ => none

/-- The texts among some values. -/
def textsOf (vs : List Value) : List (List UInt8) := vs.filterMap fun
  | .text s => some s
  | _ => none

/-- `tmp_int` and the texts of a line, in the newest layout that fits, and what is left. Older
layouts have no partner, and the oldest no pet. -/
def charValues (str : List UInt8) : Option (List Int32 × List (List UInt8) × List UInt8) :=
  match sscanf (charFormat 3 3) str with
  | (vs, some rest) => some (numbersOf vs, textsOf vs, rest)
  | (_, none) =>
    match sscanf (charFormat 3 2) str with
    | (vs, some rest) => some (numbersOf vs ++ [0], textsOf vs, rest)
    | (_, none) =>
      match sscanf (charFormat 2 2) str with
      | (vs, some rest) =>
        some ((numbersOf vs).take 26 ++ 0 :: (numbersOf vs).drop 26 ++ [0], textsOf vs, rest)
      | (_, none) => none

/-- A number that is cut down to a limit. -/
def atMost (limit : Int32) (v : Int16) : Int16 := if limit < v.toInt32 then limit.toInt16 else v

/-- The fields of a character, from `tmp_int` and the texts. -/
def charOfValues (maxHairStyle maxHairColor : Int32) (n : ℕ → Int32) (text : ℕ → List UInt8) :
    CharRecord where
  charId := n 0
  accountId := n 1
  charNum := Fin.ofNat 32 (n 2).toUInt32.toNat
  name := CStr.ofField 24 (text 0)
  cls := (n 3).toInt16
  baseLevel := (n 4).toUInt32.toUInt8
  jobLevel := (n 5).toUInt32.toUInt8
  baseExp := n 6
  jobExp := n 7
  zeny := n 8
  hp := n 9
  maxHp := n 10
  sp := n 11
  maxSp := n 12
  str := (n 13).toInt16
  agi := (n 14).toInt16
  vit := (n 15).toInt16
  int := (n 16).toInt16
  dex := (n 17).toInt16
  luk := (n 18).toInt16
  statusPoint := (n 19).toInt16
  skillPoint := (n 20).toInt16
  option := (n 21).toInt16
  karma := (n 22).toInt16
  manner := (n 23).toInt16
  partyId := n 24
  guildId := n 25
  petId := n 26
  hair := atMost maxHairStyle (n 27).toInt16
  hairColor := atMost maxHairColor (n 28).toInt16
  clothesColor := (n 29).toInt16
  weapon := (n 30).toInt16
  shield := (n 31).toInt16
  headTop := (n 32).toInt16
  headMid := (n 33).toInt16
  headBottom := (n 34).toInt16
  lastPoint := { map := CStr.ofField 16 (text 1), x := (n 35).toInt16, y := (n 36).toInt16 }
  savePoint := { map := CStr.ofField 16 (text 2), x := (n 37).toInt16, y := (n 38).toInt16 }
  partnerId := n 39

/-- A text without a blank at its front. -/
def skipBlank (str : List UInt8) : List UInt8 := if str.head? = some 32 then str.tail else str

/-- The loop over a list of entries. It ends at a tab, at the end and where `stop` says so. `code`
is what is returned where no entry can be read. -/
def readEntries {σ ν : Type} (code : Int) (stop : σ → List UInt8 → Bool)
    (entry : List UInt8 → Option (ν × List UInt8)) (store : σ → ν → σ) :
    ℕ → List UInt8 → σ → Except Int (σ × List UInt8)
  | 0, str, s => .ok (s, str)
  | fuel + 1, str, s =>
    if str = [] ∨ str.head? = some 9 ∨ stop s str then .ok (s, str)
    else
      match entry str with
      | none => .error code
      | some (v, rest) => readEntries code stop entry store fuel (skipBlank rest) (store s v)

/-- `"%[^,],%d,%d%n"` -/
def memoEntry (str : List UInt8) : Option (MapPoint × List UInt8) :=
  match sscanf (.upto 44 :: .lit 44 :: ints 2) str with
  | ([.text map, .int x, .int y], some rest) =>
    some ({ map := CStr.ofField 16 map, x := x.toInt16, y := y.toInt16 }, rest)
  | _ => none

/-- An item of the inventory or the cart. -/
def itemEntry (str : List UInt8) : Option (Item × List UInt8) :=
  match sscanf itemFormat str with
  | (vs, some rest) => (itemOfInts vs).map fun it => (it, rest)
  | (_, none) => none

/-- `"%d,%d%n"` -/
def skillEntry (str : List UInt8) : Option ((Int32 × Int32) × List UInt8) :=
  match sscanf (ints 2) str with
  | ([.int id, .int lv], some rest) => some ((id, lv), rest)
  | _ => none

/-- `"%[^,],%d%n"`, or `",%d%n"` for a variable without a name. -/
def regEntry (str : List UInt8) : Option ((List UInt8 × Int32) × List UInt8) :=
  match sscanf [.upto 44, .lit 44, .int] str with
  | ([.text name, .int value], some rest) => some ((name, value), rest)
  | _ =>
    if str.head? = some 44 then
      match sscanf [.lit 44, .int] str with
      | ([.int value], some rest) => some (([], value), rest)
      | _ => none
    else none

/-- A skill is stored in its place. -/
def storeSkill (skill : Fin maxSkill → SkillSlot) (v : Int32 × Int32) : Fin maxSkill → SkillSlot :=
  fun i =>
    if 0 < v.1 ∧ v.1.toInt = i.val ∧ 0 < v.2 then
      { id := v.1.toUInt32.toUInt16, lv := v.2.toUInt32.toUInt8 }
    else skill i

/-- A variable is stored behind the others, if it has a name and a value and is none of them. -/
def storeReg (regs : List GlobalReg) (v : List UInt8 × Int32) : List GlobalReg :=
  if v.1 ≠ [] ∧ v.2 ≠ 0 ∧ ∀ r ∈ regs, r.str.bytes ≠ v.1 then
    regs ++ [{ str := CStr.ofField 32 v.1, value := v.2.toBitVec }]
  else regs

/-- An entry is stored behind the others. -/
def storeNext {n : ℕ} {α : Type} (s : ℕ × (Fin n → α)) (v : α) : ℕ × (Fin n → α) :=
  (s.1 + 1, Slots.putAt s.2 s.1 v)

/-- The lists of a line behind its fields. -/
def readLists (p : CharRecord) (str : List UInt8) : Except Int CharRecord := do
  let fuel := str.length + 1
  let (memo, str) ← readEntries (-3) (fun s _ => maxPortalMemo ≤ s.1) memoEntry storeNext fuel
    str (0, fun _ => {})
  let (inventory, str) ← readEntries (-4) (fun _ _ => false) itemEntry storeNext fuel str.tail
    (0, fun _ => Item.zero)
  let (cart, str) ← readEntries (-5) (fun _ _ => false) itemEntry storeNext fuel str.tail
    (0, fun _ => Item.zero)
  let (skill, str) ← readEntries (-6) (fun _ _ => false) skillEntry storeSkill fuel str.tail
    fun _ => {}
  let (regs, _) ← readEntries (-7)
    (fun s str => str.head? = some 10 ∨ str.head? = some 13 ∨ globalRegNum ≤ s.length) regEntry
    storeReg fuel str.tail []
  return { p with
    memoPoint := memo.2
    inventory := inventory.2
    cart := cart.2
    skill := skill
    globalReg := regs }

/-- The code for a character that is there already. -/
def duplicate (charDat : List CharRecord) (p : CharRecord) : Option Int :=
  charDat.findSome? fun q =>
    if q.charId = p.charId then some (-1) else if q.name = p.name then some (-2) else none

/-- `mmo_char_fromstr`: the character of a line, or the code that is returned. -/
def mmoCharFromstr (maxHairStyle maxHairColor : Int32) (charDat : List CharRecord)
    (str : List UInt8) : Except Int CharRecord :=
  match charValues str with
  | none => .error 0
  | some (ns, ss, rest) =>
    let p := charOfValues maxHairStyle maxHairColor (fun i => ns.getD i 0) fun i => ss.getD i []
    match duplicate charDat p with
    | some code => .error code
    | none =>
      if rest.head? = some 10 ∨ rest.head? = some 13 then .ok p
      else readLists p rest.tail

end Nezumi
