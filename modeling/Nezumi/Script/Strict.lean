import Nezumi.Script.Parse

/-!
# Reading a script that has to be right (`map/script.c`)

`parse_script`, where every message of `disp_error_message` ends the reading, be it an error or a
warning. The loops write down their iterations.

* `Stop`: how a reading stops. `behind` is a string whose last byte is a backslash, behind which the
  source reads past the end of the text.
* `Iteration`: an iteration that has ended, with the state and the text it started with, and the
  text it has left.
* The recursion is as deep as `depth` allows, which is enough. Only the loop of `parseScript` has a
  number of iterations as its argument.
-/

namespace Nezumi

/-- How a reading stops. -/
inductive Stop
  | message (mes : String) (pos : List UInt8)
  | behind
  | fuel
deriving DecidableEq

/-- The loops: the one of `parse_script` over lines, the one of `parse_line` over the arguments of a
command, and those of `parse_subexpr` over operators and over the arguments of a function. -/
inductive Loop
  | script
  | params
  | operators
  | args
deriving DecidableEq

structure Iteration where
  loop : Loop
  compiler : Compiler
  start : List UInt8
  stop : List UInt8

/-- `script_config` -/
structure ScriptWarnings where
  funcNoComma : Bool := true
  cmdNoComma : Bool := true
  funcMismatchParamnum : Bool := true
  cmdMismatchParamnum : Bool := true

structure Reader where
  compiler : Compiler := {}
  parseCmdIf : ℕ := 0
  iterations : List Iteration := []

namespace Strict

abbrev M := ExceptT Stop (StateM Reader)

/-- A step of the compiler. None of those that are used here stops. -/
def compile {α : Type} (m : Parser α) : M α := fun s =>
  match m s.compiler with
  | some (a, c) => (.ok a, { s with compiler := c })
  | none => (.error .behind, s)

/-- An iteration that starts at a text is written down when it ends. -/
def iteration (loop : Loop) (start : List UInt8) (m : M (List UInt8)) : M (List UInt8) := do
  let s ← get
  let stop ← m
  modify fun s' =>
    { s' with iterations := s'.iterations ++ [⟨loop, s.compiler, start, stop⟩] }
  return stop

/-- The bytes of a string up to its end, and the text behind it. The first argument is the byte in
front. -/
def stringEnd : UInt8 → List UInt8 → Except Stop (List UInt8 × List UInt8)
  | _, [] => .error (.message "unexpected eof @ string" [])
  | prev, b :: t =>
    if b = 34 then .ok ([], t)
    else if prev ≤ 0x7e && b = 92 then
      match t with
      | [] => .error .behind
      | b :: t => (stringEnd b t).map fun (s, r) => (b :: s, r)
    else if b = 10 then .error (.message "unexpected newline @ string" (b :: t))
    else (stringEnd b t).map fun (s, r) => (b :: s, r)

/-- The name of `if`. -/
def ifName : VarName := [105, 102]

/-- Where the signature of a function, of which the first `*` stands for any number of arguments,
does not allow a number of arguments: the argument at which it says so. -/
def wrongParamnum (arg : List UInt8) (i : ℕ) : Option ℕ :=
  let j := (arg.takeWhile (· ≠ 42)).length
  if (42 ∉ arg ∧ i ≠ j) ∨ (42 ∈ arg ∧ i < j) then some (min i j) else none

/-- The check of the number of arguments of a function, with the places of its arguments. -/
def checkParamnum (conf : ScriptConf) (warn : Bool) (func : ℕ) (plist : List (List UInt8)) :
    M Unit := do
  let d := (← get).compiler.strData func
  if d.type = .func ∧ warn then
    match conf.buildinFunc[d.val.toInt.toNat]? with
    | none => throw .behind
    | some (_, arg) =>
      match wrongParamnum arg (plist.length - 1) with
      | none => return
      | some i => throw (.message "illegal number of parameters" (plist.getD i []))

variable (conf : ScriptConf) (warn : ScriptWarnings)

mutual

/-- `parse_simpleexpr` -/
def parseSimpleexpr : ℕ → List UInt8 → M (List UInt8)
  | 0, _ => throw .fuel
  | f + 1, p => do
    let p := skipSpace p
    if p.head? = some 59 ∨ p.head? = some 44 then throw (.message "unexpected expr end" p)
    else if p.head? = some 40 then
      let p ← parseSubexpr f p.tail (-1)
      let p := skipSpace p
      if p.head? = some 41 then return p.tail else throw (.message "unmatch ')'" p.tail)
    else if isNumber p then
      compile (addScripti (strtoul p).1)
      return (strtoul p).2
    else if p.head? = some 34 then
      compile (addScriptc .str)
      match stringEnd 34 p.tail with
      | .error e => throw e
      | .ok (s, p) =>
        compile (s.forM addScriptb)
        compile (addScriptb 0)
        return p
    else
      let l ← compile (Parser.addStr (wordOf p))
      compile (modify fun c => { c with parseCmd := l })
      modify fun s =>
        if searchStr s.compiler ifName = some l then { s with parseCmdIf := s.parseCmdIf + 1 }
        else s
      let s ← get
      let r := skipWord p
      if (s.compiler.strData l).type ≠ .func ∧ r.head? = some 91 then
        -- array(name[i] => getelementofarray(name,i))
        match searchStr s.compiler getelementofarray with
        | none => throw .behind
        | some g =>
          compile (addRef getelementofarray g)
          compile (addScriptc .arg)
          compile (addRef (wordOf p) l)
          let p ← parseSubexpr f r.tail (-1)
          let p := skipSpace p
          if p.head? = some 93 then
            compile (addScriptc .func)
            return p.tail
          else throw (.message "unmatch ']'" p.tail)
      else
        compile (addRef (wordOf p) l)
        return r

/-- `parse_subexpr` -/
def parseSubexpr : ℕ → List UInt8 → ℤ → M (List UInt8)
  | 0, _, _ => throw .fuel
  | f + 1, p, limit => do
    let tmpp := skipSpace p
    if isNextline tmpp then
      compile addNext
      return tmpp.tail
    else
      let p ← match prefixOperator tmpp with
        | some op => do
          let p ← parseSubexpr f tmpp.tail 100
          compile (addScriptc op)
          pure p
        | none => parseSimpleexpr f tmpp
      parseOperators f tmpp (skipSpace p) limit

/-- The loop of `parse_subexpr`. -/
def parseOperators : ℕ → List UInt8 → List UInt8 → ℤ → M (List UInt8)
  | 0, _, _, _ => throw .fuel
  | f + 1, tmpp, p, limit => do
    match operatorAbove limit p with
    | none => return p
    | some (op, opl, len) =>
      let p ← iteration .operators p do
        let p ← if op = .func then parseCall f tmpp (p.drop len)
          else parseSubexpr f (p.drop len) opl
        compile (addScriptc op)
        return skipSpace p
      parseOperators f tmpp p limit

/-- The call of a function, behind its bracket. -/
def parseCall : ℕ → List UInt8 → List UInt8 → M (List UInt8)
  | 0, _, _ => throw .fuel
  | f + 1, tmpp, p => do
    let c := (← get).compiler
    if (c.strData c.parseCmd).type ≠ .func then throw (.message "expect function" tmpp)
    else
      compile (noteWord fun _ => .call)
      compile (addScriptc .arg)
      let (plist, p) ← parseArgs f 128 [] p
      if p.head? = some 41 then
        checkParamnum conf warn.funcMismatchParamnum c.parseCmd (plist ++ [p])
        return p.tail
      else throw (.message "func request '(' ')'" p.tail)

/-- The arguments of a function, of which `n` more may come: their places, and what is behind. -/
def parseArgs : ℕ → ℕ → List (List UInt8) → List UInt8 → M (List (List UInt8) × List UInt8)
  | 0, _, _, _ => throw .fuel
  | f + 1, n, plist, start => do
    let p ← iteration .args start do
      let p ← parseSubexpr f start (-1)
      let p := skipSpace p
      if p.head? = some 44 then return skipSpace p.tail
      else if p.head? ≠ some 41 ∧ warn.funcNoComma then
        throw (.message "expect ',' or ')' at func params" p)
      else return skipSpace p
    if p ≠ [] ∧ p.head? ≠ some 41 ∧ 1 < n then parseArgs f (n - 1) (plist ++ [start]) p
    else return (plist ++ [start], p)

end

/-- How deep the recursion gets over a text. -/
def depth (p : List UInt8) : ℕ := 140 * p.length + 10

/-- `parse_expr` -/
def parseExpr (p : List UInt8) : M (List UInt8) :=
  match p.head? with
  | some 41 | some 59 | some 58 | some 91 | some 93 | some 125 =>
    throw (.message "unexpected char" p)
  | _ => parseSubexpr conf warn (depth p) p (-1)

/-- The arguments of a command, of which `n` more may come: their places, and what is behind. -/
def parseParams : ℕ → List (List UInt8) → List UInt8 → M (List (List UInt8) × List UInt8)
  | 0, plist, p => return (plist, p)
  | n + 1, plist, start => do
    if start ≠ [] ∧ start.head? ≠ some 59 then
      let p ← iteration .params start do
        let p ← parseExpr conf warn start
        let p := skipSpace p
        if p.head? = some 44 then return skipSpace p.tail
        else
          let s ← get
          if p.head? ≠ some 59 ∧ warn.cmdNoComma ∧ s.parseCmdIf * 2 ≤ plist.length then
            throw (.message "expect ',' or ';' at cmd params" p)
          else return skipSpace p
      parseParams n (plist ++ [start]) p
    else return (plist, start)

/-- `parse_line` -/
def parseLine (p : List UInt8) : M (List UInt8) := do
  let p2 := skipSpace p
  if p2.head? = some 59 then return p2
  else
    modify fun s => { s with parseCmdIf := 0 }
    let p ← parseSimpleexpr conf warn (depth p2) p2
    let p := skipSpace p
    let c := (← get).compiler
    if (c.strData c.parseCmd).type ≠ .func then throw (.message "expect command" p2)
    else
      compile (addScriptc .arg)
      let (plist, p) ← parseParams conf warn 128 [] p
      if p.head? = some 59 then
        compile (addScriptc .func)
        checkParamnum conf warn.cmdMismatchParamnum c.parseCmd (plist ++ [p])
        return p.tail
      else throw (.message "need ';'" p.tail)

/-- A label of the script, at a text. -/
def defineLabel (p : List UInt8) : M Unit := do
  let l ← compile (Parser.addStr (wordOf p))
  let c := (← get).compiler
  if (c.strData l).label ≠ -1 then throw (.message "dup label " p)
  else
    compile (setLabel l c.scriptPos)
    compile (modify fun c =>
      { c with scriptlabelDb := c.scriptlabelDb ++ [(wordOf p, c.scriptPos)] })
    compile (noteWord fun c => .label (wordOf p) l c.lines c.scriptPos)

/-- A label, or a command with its end. -/
def parseStatement (start : List UInt8) : M (List UInt8) := do
  let p := skipSpace start
  let tmpp := skipSpace (skipWord p)
  if tmpp.head? = some 58 then
    defineLabel p
    return tmpp.tail
  else
    let p ← parseLine conf warn p
    compile endLine
    return skipSpace p

/-- The loop of `parse_script` over labels and commands. -/
def parseLines : ℕ → List UInt8 → M Unit
  | 0, _ => throw .fuel
  | n + 1, p => do
    if p = [] ∨ p.head? = some 125 then return
    else
      let p ← iteration .script p (parseStatement conf warn p)
      parseLines n p

/-- What `parse_script` does behind the last line. -/
def finishScript : M (Option (List UInt8)) := do
  compile (addScriptc .nop)
  compile (modify fun c => (strIndices c).foldl finishStr c)
  let c := (← get).compiler
  return some ((List.range c.scriptPos).map c.scriptBuf)

/-- `parse_script`, up to a number of iterations. The answer is `script_buf`, or nothing for an
empty script. -/
def parseScript (n : ℕ) (src : List UInt8) : M (Option (List UInt8)) := do
  compile (modify (firstScript conf))
  let p := skipSpace src
  if p.head? ≠ some 123 then throw (.message "not found '\x7b'" p)
  else if (skipSpace p.tail).head? = some 125 then return none
  else
    compile (modify startScript)
    parseLines conf warn n p.tail
    finishScript

end Strict

end Nezumi
