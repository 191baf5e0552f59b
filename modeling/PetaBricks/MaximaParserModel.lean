import PetaBricks.DecimalProofs
import PetaBricks.FormulaModel
import PetaBricks.LexerProofs
import PetaBricks.YaccProofs

/-! # Two parsers of formulas — `maximaparser.py` and `maximaparser.ypp`

    Both have the same productions and the same table of precedences; they differ in the
    reserved words, which the C++ lexer knows in any case of letters, in the numbers, where
    only the C++ lexer has a negative exponent behind a fraction, and in the integers, which
    are an `int` in C++.  A double is a rational; an overflow is not modelled. -/

namespace PbMaximaParser

open PbFormula PbDecimal

inductive Token
  | integer (n : ℕ)
  | float (q : ℚ)
  | ident (name : List Char)
  | le | ge
  | boolT | boolF
  | strEqual | strCeiling | strFloor
  | and | or
  | kwIf | kwThen | kwElse
  | lit (c : Char)
  deriving DecidableEq

/-! ## Lexers -/

/-- `[a-zA-Z_]`. -/
def isIdentStart (c : Char) : Bool := c.isAlpha || c == '_'

/-- `[a-zA-Z_0-9]`. -/
def isIdentChar (c : Char) : Bool := c.isAlphanum || c == '_'

/-- `WS`. -/
def isBlank (c : Char) : Bool := c == ' ' || c == '\r' || c == '\n' || c == '\t'

def reserved : List (List Char × Token) :=
  [(['t', 'r', 'u', 'e'], .boolT),
   (['f', 'a', 'l', 's', 'e'], .boolF),
   (['e', 'q', 'u', 'a', 'l'], .strEqual),
   (['c', 'e', 'i', 'l', 'i', 'n', 'g'], .strCeiling),
   (['f', 'l', 'o', 'o', 'r'], .strFloor),
   (['a', 'n', 'd'], .and),
   (['o', 'r'], .or),
   (['i', 'f'], .kwIf),
   (['t', 'h', 'e', 'n'], .kwThen),
   (['e', 'l', 's', 'e'], .kwElse)]

def literals : List Char := ['=', '<', '>', ',', '*', '/', '(', ')', '[', ']', '^', '+', '-']

/-- `t_IDENT`. -/
def pyWord (w : List Char) : Token := (reserved.lookup w).getD (.ident w)

/-- `%option caseless`. -/
def maximaWord (w : List Char) : Token := (reserved.lookup (w.map Char.toLower)).getD (.ident w)

/-- `FLOAT`, or else `INTEGER`. -/
def scanNumber (t : List Char) : Token × List Char :=
  let whole := t.takeWhile Char.isDigit
  match t.dropWhile Char.isDigit with
  | '.' :: t' =>
      let frac := t'.takeWhile Char.isDigit
      if frac = [] then (.integer (ofDigits whole), '.' :: t')
      else (.float (ofDigits (whole ++ frac) / 10 ^ frac.length), t'.dropWhile Char.isDigit)
  | t' => (.integer (ofDigits whole), t')

/-- `E[-][0-9]+` behind a fraction. -/
def scanExponent : Token × List Char → Token × List Char
  | (.float q, c :: '-' :: t) =>
      let ds := t.takeWhile Char.isDigit
      if (c = 'e' ∨ c = 'E') ∧ ds ≠ [] then
        (.float (q / 10 ^ ofDigits ds), t.dropWhile Char.isDigit)
      else (.float q, c :: '-' :: t)
  | r => r

/-- `LE`, `GE` and the literals. -/
def scanLiteral : Char → List Char → Option (Option Token × List Char)
  | '<', '=' :: t => some (some .le, t)
  | '>', '=' :: t => some (some .ge, t)
  | c, t => if c ∈ literals then some (some (.lit c), t) else none

/-- One token; blanks are none. -/
def scan (word : List Char → Token) (number : List Char → Token × List Char) :
    PbLexer.Next Token
  | [] => none
  | c :: t =>
      if isBlank c then some (none, t)
      else if isIdentStart c then
        some (some (word ((c :: t).takeWhile isIdentChar)), (c :: t).dropWhile isIdentChar)
      else if c.isDigit then some (some (number (c :: t)).1, (number (c :: t)).2)
      else scanLiteral c t

def pyScan : PbLexer.Next Token := scan pyWord scanNumber

def maximaScan : PbLexer.Next Token := scan maximaWord fun t => scanExponent (scanNumber t)

/-! ## Numbers -/

/-- The double next to a rational. -/
def toDouble (q : ℚ) : ℚ :=
  if q = 0 then 0
  else
    let unit : ℚ := (2 : ℚ) ^ max (Int.log 2 |q| - 52) (-1074)
    roundHalfEven (q / unit) * unit

/-- `jalib::StringToX<int>`: `strtol` stops at the largest `long`, which is then cut to an
    `int`. -/
def stringToInt (n : ℕ) : ℤ := Int.bmod (min n (2 ^ 63 - 1) : ℕ) (2 ^ 32)

/-! ## Grammar -/

inductive Call
  | equal | floor | ceiling
  deriving DecidableEq

/-- The operator of a token between two formulas. -/
def binary : Token → Option Op
  | .lit '+' => some .add
  | .lit '-' => some .sub
  | .lit '*' => some .mul
  | .lit '/' => some .div
  | .lit '=' => some .eq
  | .lit '<' => some .lt
  | .lit '>' => some .gt
  | .lit '^' => some .pow
  | .le => some .le
  | .ge => some .ge
  | .and => some .and
  | .or => some .or
  | _ => none

/-- `precedence`; `IF`, `THEN` and `ELSE` are the third level. -/
def level : Op → ℕ
  | .and | .or => 1
  | .eq | .lt | .gt | .le | .ge => 2
  | .sub | .add => 4
  | .mul | .div => 5
  | .pow => 6

def assoc : Op → PbYacc.Assoc
  | .eq | .lt | .gt | .le | .ge => .nonassoc
  | _ => .left

/-- The production of `-` in front has the precedence of `-` between formulas. -/
def grammar (int : ℕ → ℤ) : PbYacc.Grammar Token Formula Unit Op Call where
  atom
    | .ident name => some (.var (String.ofList name))
    | .integer n => some (.integer (int n))
    | .boolT => some (.bool true)
    | .boolF => some (.bool false)
    | .float q => some (.float (toDouble q))
    | _ => none
  unary
    | .lit '-' => some ()
    | _ => none
  binary := binary
  call
    | .strEqual => some .equal
    | .strFloor => some .floor
    | .strCeiling => some .ceiling
    | _ => none
  word
    | .lit '(' => some .lparen
    | .lit ')' => some .rparen
    | .lit ',' => some .comma
    | .kwIf => some .kwIf
    | .kwThen => some .kwThen
    | .kwElse => some .kwElse
    | _ => none
  level := level
  assoc := assoc
  unaryLevel := 4
  condLevel := 3
  mkUnary _ e := .binop .sub (.integer 0) e
  mkBinary := .binop
  mkIf := .ifThen
  mkIfElse := .ifThenElse
  mkCall
    | .equal, [a, b] => some (.binop .eq a b)
    | .floor, [a] => some a
    | .ceiling, [a] => some a
    | _, _ => none

/-- `maximaparser.parse`, or none where it reports an error. -/
def pyParse (t : List Char) : Option Formula :=
  (PbLexer.tokens pyScan t).bind (grammar Nat.cast).parse

/-- The `Formula` of Maxima's output. -/
def maximaParse (t : List Char) : Option Formula :=
  (PbLexer.tokens maximaScan t).bind (grammar stringToInt).parse

example : pyParse "if x < -5 then 2*y^2 else floor(1.5)".toList =
    some (.ifThenElse (.binop .lt (.var "x") (.binop .sub (.integer 0) (.integer 5)))
      (.binop .mul (.integer 2) (.binop .pow (.var "y") (.integer 2))) (.float (3 / 2))) := by
  decide +kernel

end PbMaximaParser
