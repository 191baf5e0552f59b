import PetaBricks.DecimalFractionProofs
import PetaBricks.FormulaModel
import PetaBricks.LexerProofs
import PetaBricks.TextProofs

/-! # The text of a heuristic — `print`, `toCppString` and the `.info` file

    `toString` of `FormulaModel` is a list of tokens; here it is characters, with the
    spelling of the operators and of the numbers.  A double is printed with six significant
    digits, with an exponent where `%g` has one. -/

namespace PbFormula

open PbDecimal

/-- `opStr()`. -/
def Op.chars : Op → List Char
  | .add => ['+']
  | .sub => ['-']
  | .mul => ['*']
  | .div => ['/']
  | .pow => ['^']
  | .eq => ['=']
  | .gt => ['>']
  | .ge => ['>', '=']
  | .lt => ['<']
  | .le => ['<', '=']
  | .and => ['a', 'n', 'd']
  | .or => ['o', 'r']

/-- `jalib::StringToInt`, which asserts that all of the text is an integer. -/
def charsToInt (t : List Char) : Option ℤ :=
  match readInt t with
  | some (i, []) => some i
  | _ => none

/-- `while(--p>0) o += "*" + base`, `n` times. -/
def starredChars (base : List Char) : ℕ → List Char
  | 0 => base
  | n + 1 => starredChars base n ++ '*' :: base

namespace Formula

/-- `toString()`. -/
def chars : Formula → Option (List Char)
  | .var name => some name.toList
  | .integer v => some (PbDecimal.intText v)
  | .float v => some (formatG 5 v)
  | .bool b => some [if b then '1' else '0']
  | .binop op left right =>
      if op = .pow then
        -- `printPower`
        if right.size = 1 ∧ right.getFreeVariables = ∅ then do
          let p ← right.chars.bind charsToInt
          if 0 < p then
            let base ← left.chars
            pure (starredChars base (p.toNat - 1))
          else pure ['1']
        else none
      else do
        let l ← left.chars
        let r ← right.chars
        pure ('(' :: (l ++ ' ' :: op.chars ++ ' ' :: r ++ [')']))
  | .ifThen cond thenClause => do
      let c ← cond.chars
      let t ← thenClause.chars
      pure (['(', 'i', 'f', ' '] ++ c ++ [' ', 't', 'h', 'e', 'n', ' '] ++ t ++ [')'])
  | .ifThenElse cond thenClause elseClause => do
      let e ← elseClause.chars
      let c ← cond.chars
      let t ← thenClause.chars
      pure (['(', 'i', 'f', ' '] ++ c ++ [' ', 't', 'h', 'e', 'n', ' '] ++ t ++
        [' ', 'e', 'l', 's', 'e', ' '] ++ e ++ [' ', ')'])

/-- `toCppString()`. -/
def cppChars : Formula → Option (List Char)
  | .binop .eq left right => do
      let l ← left.cppChars
      let r ← right.cppChars
      pure (l ++ '=' :: '=' :: r)
  | .binop .and left right => do
      let l ← left.cppChars
      let r ← right.cppChars
      pure (l ++ '&' :: '&' :: r)
  | .binop .or left right => do
      let l ← left.cppChars
      let r ← right.cppChars
      pure (l ++ '|' :: '|' :: r)
  | f => f.chars

end Formula

/-! ## The `.info` file -/

/-- The names of the entities. -/
def entities : List (Char × List Char) :=
  [('&', ['a', 'm', 'p']), ('<', ['l', 't']), ('>', ['g', 't']), ('\"', ['q', 'u', 'o', 't']),
   ('\'', ['a', 'p', 'o', 's'])]

/-- `escapeXML` of one character. -/
def escapeChar (c : Char) : List Char :=
  match entities.lookup c with
  | some name => '&' :: (name ++ [';'])
  | none =>
      if c.toNat < 32 ∨ 127 < c.toNat then '&' :: '#' :: (digitsText c.toNat ++ [';']) else [c]

/-- `escapeXML`, which `addHeuristic` puts between the quotes of the attribute `formula`. -/
def escapeXML (t : List Char) : List Char := t.flatMap escapeChar

/-- What an entity stands for. -/
def entityChar : List Char → Option Char
  | '#' :: ds => some (Char.ofNat (ofDigits ds))
  | name => (entities.find? fun e => e.2 == name).map Prod.fst

/-- A character, or an entity up to its semicolon. -/
def attributeChar : PbLexer.Next Char
  | [] => none
  | '&' :: t =>
      let (name, rest) := PbText.splitFirst ';' t
      (entityChar name).map fun c => (some c, rest)
  | c :: t => some (some c, t)

/-- The value of an attribute, as `getAttribute` gives it. -/
def attributeValue (t : List Char) : Option (List Char) := PbLexer.tokens attributeChar t

end PbFormula
