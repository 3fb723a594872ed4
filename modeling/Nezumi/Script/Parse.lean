import Nezumi.Script.Mapreg
import Nezumi.Lib.BackPatch

/-!
# Compiling a script (`map/script.c`)

`parse_script` reads the text of a script and writes its code into `script_buf`. All scripts share one
string table, `str_data`, in which builtin functions and constants have their entries, too. Labels
live in it while a script is compiled.

* A pointer into the text is what is left of the text. The text ends with the list.
* `Compiler` is the state of the compiler: the string table, the buffer and `parse_cmd`. A parser is a
  `StateT` of it. It has no result where the source calls `exit`, and where it reads behind the text.
* `Compiler.words`, `Compiler.names` and `Compiler.lines` are ghosts: what has been read, the
  arguments of `add_str` and the number of commands.
* The parsers have an argument for the depth of the recursion.
-/

namespace Nezumi

open Decimal BackPatch

/-- The codes, and the types of the entries of the string table. -/
inductive Code
  | nop | pos | int | param | func | str | constStr | arg | name | eol | retInfo
  | lor | land | le | lt | ge | gt | eq | ne
  | xor | or | and | add | sub | mul | div | mod | neg | lnot | not | rShift | lShift
deriving DecidableEq

/-- The number of a code. -/
def Code.num : Code → ℕ
  | nop => 0 | pos => 1 | int => 2 | param => 3 | func => 4 | str => 5 | constStr => 6 | arg => 7
  | name => 8 | eol => 9 | retInfo => 10
  | lor => 11 | land => 12 | le => 13 | lt => 14 | ge => 15 | gt => 16 | eq => 17 | ne => 18
  | xor => 19 | or => 20 | and => 21 | add => 22 | sub => 23 | mul => 24 | div => 25 | mod => 26
  | neg => 27 | lnot => 28 | not => 29 | rShift => 30 | lShift => 31

/-- `struct str_data` -/
structure StrData where
  str : VarName := []
  type : Code := .nop
  backpatch : ℤ := -1
  label : ℤ := -1
  func : Option ℕ := none
  val : Int32 := 0
deriving DecidableEq

def labelNextline : ℕ := 1

def labelStart : ℕ := 2

/-- What stands in a script: a reference to a name, with its entry and the place of its code; a label
with its entry, the number of commands before it and its place; a reference to the next line with
the place of its code; the start of a line; and the arguments of a function. -/
inductive Word
  | ref (name : VarName) (l : ℕ) (site fin : ℕ)
  | label (name : VarName) (l : ℕ) (line : ℕ) (pos : ℕ)
  | next (site fin : ℕ)
  | line (pos : ℕ)
  | call
deriving DecidableEq

structure Compiler where
  strData : ℕ → StrData := fun _ => {}
  strNum : ℕ := labelStart
  scriptBuf : Mem := fun _ => 0
  scriptPos : ℕ := 0
  scriptlabelDb : List (VarName × ℕ) := []
  parseCmd : ℕ := 0
  first : Bool := true
  words : List Word := []
  names : List VarName := []
  lines : ℕ := 0

abbrev Parser := StateT Compiler Option

/-! ## The string table -/

/-- `search_str` -/
def searchStr (c : Compiler) (p : VarName) : Option ℕ :=
  (List.range' labelStart (c.strNum - labelStart)).find? fun i => (c.strData i).str = p

/-- A new entry. -/
def Compiler.newStr (c : Compiler) (p : VarName) : Compiler :=
  { c with strData := Function.update c.strData c.strNum { str := p }, strNum := c.strNum + 1 }

/-- `add_str` -/
def Compiler.addStr (c : Compiler) (p : VarName) : ℕ × Compiler :=
  match searchStr c (p.map toLower) with
  | some i => (i, c)
  | none =>
    match searchStr c p with
    | some i => (i, c)
    | none => (c.strNum, c.newStr p)

/-- `add_str` in a script. -/
def Compiler.enter (c : Compiler) (p : VarName) : ℕ × Compiler :=
  ((c.addStr p).1, { (c.addStr p).2 with names := c.names ++ [p] })

def Parser.addStr (p : VarName) : Parser ℕ := do
  let c ← get
  set (c.enter p).2
  return (c.enter p).1

/-- A change of one entry. -/
def Compiler.setStr (c : Compiler) (l : ℕ) (f : StrData → StrData) : Compiler :=
  { c with strData := Function.update c.strData l (f (c.strData l)) }

/-! ## The code -/

/-- `add_scriptb` -/
def addScriptb (b : UInt8) : Parser Unit :=
  modify fun c =>
    { c with scriptBuf := Function.update c.scriptBuf c.scriptPos b, scriptPos := c.scriptPos + 1 }

/-- The bytes of `add_scriptc`. -/
def comBytes : ℕ → ℕ → List UInt8
  | 0, _ => []
  | f + 1, a =>
    if 0x40 ≤ a then UInt8.ofNat (a % 0x40 + 0x40) :: comBytes f ((a - 0x40) / 64)
    else [UInt8.ofNat a]

/-- The bytes of `add_scripti` of a number that is not negative. -/
def intBytes : ℕ → ℕ → List UInt8
  | 0, _ => []
  | f + 1, a =>
    if 0x40 ≤ a then UInt8.ofNat (a % 0x40 + 0xc0) :: intBytes f ((a - 0x40) / 64)
    else [UInt8.ofNat (a + 0x80)]

/-- `add_scriptc` -/
def addScriptc (a : Code) : Parser Unit := (comBytes (a.num + 1) a.num).forM addScriptb

/-- `add_scripti`. Of a negative number the last byte is written. -/
def addScripti (a : Int32) : Parser Unit :=
  if a < 0 then addScriptb (byteOf a.toInt 0 ||| 0x80)
  else (intBytes (a.toInt.toNat + 1) a.toInt.toNat).forM addScriptb

/-- Three bytes of a number. -/
def addOperand (z : ℤ) : Parser Unit := do
  addScriptb (byteOf z 0)
  addScriptb (byteOf z 1)
  addScriptb (byteOf z 2)

/-- `add_scriptl` -/
def addScriptl (l : ℕ) : Parser Unit := do
  let c ← get
  let d := c.strData l
  match d.type with
  | .pos => do
    addScriptc .pos
    addOperand d.label
  | .nop => do
    addScriptc .name
    modify fun c => c.setStr l fun d => { d with backpatch := c.scriptPos }
    addOperand d.backpatch
  | .int => addScripti d.val
  | _ => do
    addScriptc .name
    addOperand l

/-- `set_label` -/
def setLabel (l pos : ℕ) : Parser Unit :=
  modify fun c =>
    let c' := c.setStr l fun d => { d with type := .pos, label := pos }
    { c' with
      scriptBuf := patch (some 1) pos (c.scriptPos + 1) (c.strData l).backpatch c.scriptBuf }

/-! ## The text -/

/-- `/* .. */`, behind the first byte. -/
def skipBlock : UInt8 → List UInt8 → List UInt8
  | _, [] => []
  | prev, b :: t => if prev = 42 ∧ b = 47 then t else skipBlock b t

def skipSpaceLoop : ℕ → List UInt8 → List UInt8
  | 0, p => p
  | f + 1, p =>
    match p.dropWhile isSpace with
    | 47 :: 47 :: t => skipSpaceLoop f (t.dropWhile (· ≠ 10))
    | 47 :: 42 :: t => skipSpaceLoop f (skipBlock 47 (42 :: t))
    | p => p

/-- `skip_space` -/
def skipSpace (p : List UInt8) : List UInt8 := skipSpaceLoop (p.length + 1) p

/-- `isalnum` -/
def isAlnum (b : UInt8) : Bool := isDigit b || (65 ≤ b && b ≤ 90) || (97 ≤ b && b ≤ 122)

/-- The bytes of a word. One from `0x81` on takes the next with it. -/
def skipWordBytes : List UInt8 → List UInt8
  | [] => []
  | [b] => if isAlnum b || b = 95 || 0x81 ≤ b then [] else [b]
  | b :: b' :: t =>
    if 0x81 ≤ b then skipWordBytes t
    else if isAlnum b || b = 95 then skipWordBytes (b' :: t)
    else b :: b' :: t

def skipByte (b : UInt8) : List UInt8 → List UInt8
  | [] => []
  | a :: t => if a = b then t else a :: t

/-- `skip_word` -/
def skipWord (p : List UInt8) : List UInt8 :=
  skipByte 36 (skipWordBytes (skipByte 35 (skipByte 35 (skipByte 64 (skipByte 36 p)))))

/-- The word at the front. -/
def wordOf (p : List UInt8) : VarName := p.take (p.length - (skipWord p).length)

/-- The value of a digit. -/
def digitVal (b : UInt8) : Option ℕ :=
  if isDigit b then some (b.toNat - 48)
  else if 65 ≤ b && b ≤ 90 then some (b.toNat - 55)
  else if 97 ≤ b && b ≤ 122 then some (b.toNat - 87)
  else none

def isDigitOf (base : ℕ) (b : UInt8) : Bool := (digitVal b).any (· < base)

/-- The base of a number, and its digits with what is behind them. -/
def numberBase : List UInt8 → ℕ × List UInt8
  | 48 :: x :: h :: t =>
    if (x = 120 || x = 88) && isDigitOf 16 h then (16, h :: t) else (8, 48 :: x :: h :: t)
  | 48 :: t => (8, 48 :: t)
  | t => (10, t)

/-- `strtoul` with base `0`, as an `int`. -/
def strtoul (p : List UInt8) : Int32 × List UInt8 :=
  let sign := p.head? = some 45
  let t := if p.head? = some 45 ∨ p.head? = some 43 then p.tail else p
  let (base, t) := numberBase t
  let v := (t.takeWhile (isDigitOf base)).foldl (fun v b => base * v + (digitVal b).getD 0) 0
  let v := if 2 ^ 64 ≤ v then 2 ^ 64 - 1 else if sign then (2 ^ 64 - v) % 2 ^ 64 else v
  (Int32.ofNat v, t.dropWhile (isDigitOf base))

/-! ## Expressions -/

/-- The bytes of a string up to its end, and the text behind it. The first argument is the byte in
front. -/
def stringBytes : UInt8 → List UInt8 → Option (List UInt8 × List UInt8)
  | _, [] => none
  | prev, b :: t =>
    if b = 34 then some ([], t)
    else if prev ≤ 0x7e && b = 92 then
      match t with
      | [] => none
      | b :: t => (stringBytes b t).map fun (s, r) => (b :: s, r)
    else if b = 10 then none
    else (stringBytes b t).map fun (s, r) => (b :: s, r)

/-- The operator at the front: its code, its precedence and its length. -/
def operator : List UInt8 → Option (Code × ℤ × ℕ)
  | 43 :: _ => some (.add, 6, 1)
  | 45 :: _ => some (.sub, 6, 1)
  | 42 :: _ => some (.mul, 7, 1)
  | 47 :: _ => some (.div, 7, 1)
  | 37 :: _ => some (.mod, 7, 1)
  | 40 :: _ => some (.func, 8, 1)
  | 38 :: 38 :: _ => some (.land, 1, 2)
  | 38 :: _ => some (.and, 5, 1)
  | 124 :: 124 :: _ => some (.lor, 0, 2)
  | 124 :: _ => some (.or, 4, 1)
  | 94 :: _ => some (.xor, 3, 1)
  | 61 :: 61 :: _ => some (.eq, 2, 2)
  | 33 :: 61 :: _ => some (.ne, 2, 2)
  | 62 :: 62 :: _ => some (.rShift, 5, 2)
  | 62 :: 61 :: _ => some (.ge, 2, 2)
  | 62 :: _ => some (.gt, 2, 1)
  | 60 :: 60 :: _ => some (.lShift, 5, 2)
  | 60 :: 61 :: _ => some (.le, 2, 2)
  | 60 :: _ => some (.lt, 2, 1)
  | _ => none

/-- The operator at the front, if it binds stronger than the limit. -/
def operatorAbove (limit : ℤ) (p : List UInt8) : Option (Code × ℤ × ℕ) :=
  (operator p).filter fun (_, opl, _) => limit < opl

/-- The prefix operator at the front. -/
def prefixOperator : List UInt8 → Option Code
  | 45 :: _ => some .neg
  | 33 :: _ => some .lnot
  | 126 :: _ => some .not
  | _ => none

/-- `-` alone, which stands for the next line. -/
def isNextline (p : List UInt8) : Bool :=
  p.head? = some 45 && ((skipSpace p.tail).head? = some 59 || (skipSpace p.tail).head? = some 44)

/-- Ghost: a word has been read. -/
def noteWord (w : Compiler → Word) : Parser Unit :=
  modify fun c => { c with words := c.words ++ [w c] }

/-- `add_scriptl` for a name. -/
def addRef (name : VarName) (l : ℕ) : Parser Unit := do
  let c ← get
  addScriptl l
  noteWord fun c' => .ref name l c.scriptPos c'.scriptPos

/-- `add_scriptl` for the next line. -/
def addNext : Parser Unit := do
  let c ← get
  addScriptl labelNextline
  noteWord fun c' => .next c.scriptPos c'.scriptPos

def isNumber (p : List UInt8) : Bool :=
  p.head?.any isDigit || ((p.head? = some 45 || p.head? = some 43) && p.tail.head?.any isDigit)

/-- `getelementofarray` -/
def getelementofarray : VarName :=
  [103, 101, 116, 101, 108, 101, 109, 101, 110, 116, 111, 102, 97, 114, 114, 97, 121]

mutual

/-- `parse_simpleexpr` -/
def parseSimpleexpr : ℕ → List UInt8 → Parser (List UInt8)
  | 0, _ => failure
  | f + 1, p => do
    let p := skipSpace p
    if p.head? = some 59 ∨ p.head? = some 44 then failure
    else if p.head? = some 40 then
      let p ← parseSubexpr f p.tail (-1)
      let p := skipSpace p
      if p.head? = some 41 then return p.tail else failure
    else if isNumber p then
      addScripti (strtoul p).1
      return (strtoul p).2
    else if p.head? = some 34 then
      addScriptc .str
      match stringBytes 34 p.tail with
      | none => failure
      | some (s, p) =>
        s.forM addScriptb
        addScriptb 0
        return p
    else
      let l ← Parser.addStr (wordOf p)
      modify fun c => { c with parseCmd := l }
      let c ← get
      let r := skipWord p
      if (c.strData l).type ≠ .func ∧ r.head? = some 91 then
        -- array(name[i] => getelementofarray(name,i))
        match searchStr c getelementofarray with
        | none => failure
        | some g =>
          addRef getelementofarray g
          addScriptc .arg
          addRef (wordOf p) l
          let p ← parseSubexpr f r.tail (-1)
          let p := skipSpace p
          if p.head? = some 93 then
            addScriptc .func
            return p.tail
          else failure
      else
        addRef (wordOf p) l
        return r

/-- `parse_subexpr` -/
def parseSubexpr : ℕ → List UInt8 → ℤ → Parser (List UInt8)
  | 0, _, _ => failure
  | f + 1, p, limit => do
    let p := skipSpace p
    if isNextline p then
      addNext
      return p.tail
    else
      let p ← match prefixOperator p with
        | some op => do
          let p ← parseSubexpr f p.tail 100
          addScriptc op
          pure p
        | none => parseSimpleexpr f p
      parseOperators f (skipSpace p) limit

/-- The loop of `parse_subexpr`. -/
def parseOperators : ℕ → List UInt8 → ℤ → Parser (List UInt8)
  | 0, _, _ => failure
  | f + 1, p, limit => do
    match operatorAbove limit p with
    | none => return p
    | some (op, opl, len) =>
      let p := p.drop len
      let p ← if op = .func then do
          let c ← get
          if (c.strData c.parseCmd).type ≠ .func then failure
          else
            noteWord fun _ => .call
            addScriptc .arg
            parseArgs f 128 p
        else parseSubexpr f p opl
      addScriptc op
      parseOperators f (skipSpace p) limit

/-- The arguments of a function, of which `n` more may come, and the bracket behind them. -/
def parseArgs : ℕ → ℕ → List UInt8 → Parser (List UInt8)
  | 0, _, _ => failure
  | f + 1, n, p => do
    let p ← parseSubexpr f p (-1)
    let p := skipSpace p
    let p := skipSpace (if p.head? = some 44 then p.tail else p)
    if p ≠ [] ∧ p.head? ≠ some 41 ∧ 1 < n then parseArgs f (n - 1) p
    else if p.head? = some 41 then return p.tail
    else failure

end

/-- `parse_expr` -/
def parseExpr (f : ℕ) (p : List UInt8) : Parser (List UInt8) :=
  match p.head? with
  | some 41 | some 59 | some 58 | some 91 | some 93 | some 125 => failure
  | _ => parseSubexpr f p (-1)

/-! ## Lines -/

/-- The arguments of a command, of which `n` more may come. -/
def parseParams : ℕ → ℕ → List UInt8 → Parser (List UInt8)
  | _, 0, p => return p
  | f, n + 1, p => do
    if p ≠ [] ∧ p.head? ≠ some 59 then
      let p ← parseExpr f p
      let p := skipSpace p
      let p := skipSpace (if p.head? = some 44 then p.tail else p)
      parseParams f n p
    else return p

/-- `parse_line` -/
def parseLine (f : ℕ) (p : List UInt8) : Parser (List UInt8) := do
  let p := skipSpace p
  if p.head? = some 59 then return p
  else
    let p ← parseSimpleexpr f p
    addScriptc .arg
    let p ← parseParams f 128 (skipSpace p)
    if p.head? = some 59 then
      addScriptc .func
      return p.tail
    else failure

/-- A label of the script. -/
def defineLabel (name : VarName) : Parser Unit := do
  let l ← Parser.addStr name
  let c ← get
  if (c.strData l).label ≠ -1 then failure
  else
    setLabel l c.scriptPos
    modify fun c => { c with scriptlabelDb := c.scriptlabelDb ++ [(name, c.scriptPos)] }
    noteWord fun c => .label name l c.lines c.scriptPos

/-- The end of a line. -/
def endLine : Parser Unit := do
  addScriptc .eol
  let c ← get
  setLabel labelNextline c.scriptPos
  modify fun c => c.setStr labelNextline fun d =>
    { d with type := .nop, backpatch := -1, label := -1 }
  modify fun c => { c with words := c.words ++ [Word.line c.scriptPos], lines := c.lines + 1 }

/-- The loop of `parse_script` over labels and commands. -/
def parseLines (f : ℕ) : ℕ → List UInt8 → Parser Unit
  | 0, _ => failure
  | n + 1, p => do
    if p = [] ∨ p.head? = some 125 then return
    else
      let p := skipSpace p
      let r := skipSpace (skipWord p)
      if r.head? = some 58 then
        defineLabel (wordOf p)
        parseLines f n r.tail
      else
        let p ← parseLine f p
        endLine
        parseLines f n (skipSpace p)

/-! ## Scripts -/

/-- The builtin functions with the signatures of their arguments, among them that for arrays, and the
file of the constants. -/
structure ScriptConf where
  buildinFunc : List (VarName × List UInt8)
  constTxt : List UInt8
  array : getelementofarray ∈ buildinFunc.map Prod.fst

/-- `add_buildin_func` -/
def addBuildinFunc (conf : ScriptConf) (c : Compiler) : Compiler :=
  conf.buildinFunc.zipIdx.foldl (fun c (f, i) =>
    let (n, c) := c.addStr f.1
    c.setStr n fun d => { d with type := .func, val := Int32.ofNat i, func := some i }) c

/-- `[A-Za-z0-9_]` -/
def isConstByte (b : UInt8) : Bool := isAlnum b || b = 95

/-- What separates two fields of a constant: `,` or blanks. -/
def constSeparator (comma : Bool) (p : List UInt8) : Option (List UInt8) :=
  if comma then if p.head? = some 44 then some p.tail else none else some (p.dropWhile isSpace)

/-- One of the formats of `read_constdb`: the name, the value and the type, if it is there. -/
def scanConst (comma : Bool) (line : List UInt8) : Option (VarName × Int32 × Int32) :=
  let name := line.takeWhile isConstByte
  if name = [] then none
  else do
    let p ← constSeparator comma (line.drop name.length)
    let (val, p) ← scanD p
    return (name, val, (((constSeparator comma p).bind scanD).map (·.1)).getD 0)

/-- A line of `read_constdb`. -/
def readConst (c : Compiler) (line : List UInt8) : Compiler :=
  if line.take 2 = [47, 47] ∨ line.head? = some 10 ∨ line.head? = some 13 then c
  else
    match (scanConst true line).or (scanConst false line) with
    | none => c
    | some (name, val, type) =>
      let (n, c) := c.addStr (name.map toLower)
      c.setStr n fun d => { d with type := if type = 0 then .int else .param, val := val }

/-- `read_constdb` -/
def readConstdb (conf : ScriptConf) (c : Compiler) : Compiler :=
  (fgetsLines conf.constTxt.length conf.constTxt).foldl readConst c

/-- The names in the string table. -/
def strIndices (c : Compiler) : List ℕ := List.range' labelStart (c.strNum - labelStart)

/-- An entry at the start of a script. -/
def StrData.reset (d : StrData) : StrData :=
  if d.type = .pos ∨ d.type = .name then { d with type := .nop, backpatch := -1, label := -1 } else d

/-- The state at the start of a script. -/
def startScript (c : Compiler) : Compiler :=
  let c := (strIndices c).foldl (fun c i => c.setStr i StrData.reset) c
  let c := c.setStr labelNextline fun d => { d with type := .nop, backpatch := -1, label := -1 }
  { c with
    scriptBuf := fun _ => 0, scriptPos := 0, scriptlabelDb := [], words := [], names := [], lines := 0 }

/-- What is left without a label becomes a name. -/
def finishStr (c : Compiler) (i : ℕ) : Compiler :=
  if (c.strData i).type = .nop then
    { c.setStr i fun d => { d with type := .name, label := i } with
      scriptBuf := patch none i (c.scriptPos + 1) (c.strData i).backpatch c.scriptBuf }
  else c

/-- The tables at the first script. -/
def firstScript (conf : ScriptConf) (c : Compiler) : Compiler :=
  if c.first then { readConstdb conf (addBuildinFunc conf c) with first := false } else c

/-- `parse_script`, up to the depth of the recursion and the number of lines `f`. The answer is
`script_buf`, or nothing for a script that is empty or has no `{`. -/
def parseScript (conf : ScriptConf) (f : ℕ) (src : List UInt8) : Parser (Option (List UInt8)) := do
  modify (firstScript conf)
  let p := skipSpace src
  if p.head? ≠ some 123 then return none
  else if (skipSpace p.tail).head? = some 125 then return none
  else
    modify startScript
    parseLines f f p.tail
    addScriptc .nop
    modify fun c => (strIndices c).foldl finishStr c
    let c ← get
    return some ((List.range c.scriptPos).map c.scriptBuf)

end Nezumi
