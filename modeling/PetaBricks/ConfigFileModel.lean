import Mathlib.Data.Char
import Mathlib.Data.List.Lex
import Mathlib.Data.List.Sort
import Mathlib.Data.List.Infix
import PetaBricks.DecimalFractionProofs
import PetaBricks.TextProofs

/-! # Configuration files — two writers and two parsers

    `JTunableManager` and the tuner's `ConfigFile` exchange values by files with a line for
    each tunable.  The first prints the value and a comment with its type and range, and
    parses by splitting at `#` and `=`; the second prints the value and whatever it has
    found behind it, and parses with a regular expression.

    A double is a rational, and a file is the list of its lines.  What `load` does with
    numbers in notations that neither side writes (hexadecimal, infinite, with a plus in front)
    is left out. -/

namespace PbConfigFile

open PbDecimal PbText

/-- `TunableValue`, and what Python holds for it. -/
inductive Value
  | int (i : ℤ)
  | double (q : ℚ)
deriving DecidableEq

/-- `asD`. -/
def Value.asD : Value → ℚ
  | .int i => i
  | .double q => q

structure Tunable where
  name : List Char
  value : Value
  initial : Value
  min : Value
  max : Value
deriving DecidableEq

/-- Dictionaries: a value that is set replaces the one there was. -/
def setItem {α : Type} (d : List (List Char × α)) (e : List Char × α) : List (List Char × α) :=
  d.filter (fun x => decide (x.1 ≠ e.1)) ++ [e]

/-! ## JTunableManager -/

/-- `operator<<`, with a precision of 35. -/
def valueText : Value → List Char
  | .int i => intText i
  | .double q => formatG 34 q

def typestr : Value → List Char
  | .int _ => ['i', 'n', 't']
  | .double _ => ['d', 'o', 'u', 'b', 'l', 'e']

/-- The comment that `save` prints. -/
def comment (t : Tunable) : List Char :=
  ['#', ' '] ++ typestr t.value ++
    [',', ' ', 'v', 'a', 'l', 'i', 'd', ' ', 'r', 'a', 'n', 'g', 'e', ':', ' '] ++
    valueText t.min ++ [' ', 't', 'o', ' '] ++ valueText t.max

/-- A line of `JTunableManager::save`. -/
def saveLine (t : Tunable) : List Char :=
  t.name ++ [' ', '=', ' '] ++ valueText t.value ++ [' ', ' ', ' ', ' ', ' '] ++ comment t

/-- `IsWs`. -/
def isWs (c : Char) : Bool := c = ' ' || c = '\n' || c = '\r' || c = '\t'

/-- `StringToX<double>`: the whole text has to be a number. -/
def stringToDouble (r : List Char) : Option ℚ := do
  let (q, t) ← readDecimal r
  let (x, t) := readExponent t
  if t = [] then some (q * 10 ^ x) else none

/-- `StringToX<int>`: `strtol`, and the upper half cut off. -/
def stringToInt (r : List Char) : Option ℤ := do
  let (i, t) ← readInt r
  if t = [] then some ((Max.max (-2 ^ 63) (Min.min i (2 ^ 63 - 1)) + 2 ^ 31) % 2 ^ 32 - 2 ^ 31)
  else none

/-- A line of `loadRaw`; no value where a conversion fails. -/
def loadLine (line : List Char) : Option (Option (List Char × Value)) :=
  let (t, c) := splitFirst '#' line
  let (l, r) := splitFirst '=' t
  let l := trim isWs l
  let r := trim isWs r
  let c := trim isWs c
  if r ≠ [] ∧ l ≠ [] then
    if ['d', 'o', 'u', 'b', 'l', 'e'] <+: c ∨ ['f', 'l', 'o', 'a', 't'] <+: c ∨ '.' ∈ r then
      (stringToDouble r).map fun q => some (l, .double q)
    else (stringToInt r).map fun i => some (l, .int i)
  else some none

/-- `loadRaw`. -/
def loadRaw (lines : List (List Char)) : Option (List (List Char × Value)) :=
  lines.foldlM (fun rv line => (loadLine line).map fun e => e.elim rv (setItem rv)) []

/-- `verify`: a value out of the range is replaced. -/
def verify (t : Tunable) : Tunable :=
  if t.min.asD ≤ t.value.asD ∧ t.value.asD ≤ t.max.asD then t else { t with value := t.initial }

/-- `setValue` and `verify`, for the tunable with this name. -/
def setValue (e : List Char × Value) (t : Tunable) : Tunable :=
  if t.name = e.1 then verify { t with value := e.2 } else t

/-- `JTunableManager::load`; the map has each name once, so that the order does not matter. -/
def jtunableLoad (ts : List Tunable) (lines : List (List Char)) : Option (List Tunable) :=
  (loadRaw lines).map fun f => f.foldl (fun ts e => ts.map (setValue e)) ts

/-! ## ConfigFile -/

/-- `[a-z0-9_-]`, in both cases. -/
def isKeyChar (c : Char) : Bool := c.isAlphanum || c = '_' || c = '-'

/-- `[.0-9-]`. -/
def isValueChar (c : Char) : Bool := c.isDigit || c = '.' || c = '-'

/-- `[ \t]`. -/
def isBlank (c : Char) : Bool := c = ' ' || c = '\t'

/-- What Python's `strip` takes away. -/
def isSpace (c : Char) : Bool := isWs c || c = '\x0b' || c = '\x0c'

/-- The three groups of `CONFIGLINERE`. -/
def matchLine (line : List Char) : Option (List Char × List Char × List Char) :=
  let line := line.dropWhile isBlank
  let key := line.takeWhile isKeyChar
  match (line.dropWhile isKeyChar).dropWhile isBlank with
  | '=' :: rest =>
      let rest := rest.dropWhile isBlank
      let val := rest.takeWhile isValueChar
      if key ≠ [] ∧ val ≠ [] then some (key, val, rest.dropWhile isValueChar) else none
  | _ => none

/-- `float(v)`. -/
def pyFloat (v : List Char) : Option ℚ := do
  let (q, t) ← readDecimal v
  if t = [] then some q else none

/-- `int(v)`. -/
def pyInt (v : List Char) : Option ℤ := do
  let (i, t) ← readInt v
  if t = [] then some i else none

/-- `add`, for a value that is a text: the comment says what it is. -/
def pyValue (val com : List Char) : Option Value :=
  if ['d', 'o', 'u', 'b', 'l', 'e'] <:+: com ∨ ['f', 'l', 'o', 'a', 't'] <:+: com then
    (pyFloat val).map .double
  else (pyInt val).map .int

/-- A line of `ConfigFile.load`, if it can be parsed. -/
def configLine (line : List Char) : Option (List Char × Value × List Char) := do
  let (key, val, com) ← matchLine line
  let com := trim isSpace com
  let v ← pyValue val com
  some (key, v, com)

/-- `ConfigFile(filename)`; the other lines are left out with a warning. -/
def configLoad (lines : List (List Char)) : List (List Char × Value × List Char) :=
  lines.foldl (fun values line => (configLine line).elim values (setItem values)) []

/-- A line of `ConfigFile.save`. -/
def configSaveLine (e : List Char × Value × List Char) : List Char :=
  e.1 ++ [' ', '=', ' '] ++
    (match e.2.1 with
      | .double q => formatE 25 q
      | .int i => intText i) ++ ' ' :: e.2.2

def configSave (values : List (List Char × Value × List Char)) : List (List Char) :=
  (values.mergeSort fun a b => decide (a.1 ≤ b.1)).map configSaveLine

/-- `values[k][0]`. -/
def getItem (values : List (List Char × Value × List Char)) (k : List Char) : Option Value :=
  (values.find? fun e => decide (e.1 = k)).map fun e => e.2.1

/-! ## The exchange -/

/-- The program's tunables, the tuner's configuration and the file between them. -/
structure State where
  tunables : List Tunable
  config : Option (List (List Char × Value × List Char))
  file : Option (List (List Char))

inductive Op
  | jtunableSave
  | configLoad
  | configSave
  | jtunableLoad
deriving DecidableEq

/-- There is no next state where a file or a configuration is missing, or an assertion fails. -/
def step (s : State) : Op → Option State
  | .jtunableSave => some { s with file := some (s.tunables.map saveLine) }
  | .configLoad => s.file.map fun lines => { s with config := some (configLoad lines) }
  | .configSave => s.config.map fun values => { s with file := some (configSave values) }
  | .jtunableLoad => do
      let lines ← s.file
      let ts ← jtunableLoad s.tunables lines
      some { s with tunables := ts }

end PbConfigFile
