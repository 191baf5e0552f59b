import Mathlib.Data.Finset.Insert
import Mathlib.Data.Finset.Lattice.Lemmas
import Mathlib.Data.Int.Log
import Mathlib.Data.Rat.Floor

/-! # Formulas — the syntax tree, its text and its meaning

    `Formula` with one constructor for each node class.  Text is a list of tokens: a variable's
    name is one token (an identifier, or a call such as `A.size(0)`), and a number is known by
    its value.  A double is a rational, and is printed with six significant digits, as streams
    do by default.

    `printPower` stops at an assertion if a power is not a literal that prints as an integer;
    what needs such a text has no value. -/

namespace PbFormula

abbrev Name := String

/-! ## Text -/

/-- A token; `and` and `&&` are one, `or` and `||` too.  `star` stands between blanks and
    `times`, the one of a power, does not. -/
inductive Token
  | lparen | rparen
  | plus | minus | star | slash | caret | times
  | assign | eqeq | gt | ge | lt | le
  | and | or
  | ident (name : Name)
  | int (n : Nat)
  | float (q : ℚ)
  | kwIf | kwThen | kwElse
  deriving DecidableEq

abbrev Text := List Token

/-- The integer next to a rational, the even one of two. -/
def roundHalfEven (q : ℚ) : Int :=
  if q - ⌊q⌋ < 1 / 2 then ⌊q⌋
  else if 1 / 2 < q - ⌊q⌋ then ⌊q⌋ + 1
  else if ⌊q⌋ % 2 = 0 then ⌊q⌋ else ⌊q⌋ + 1

/-- A positive rational with six significant digits. -/
def sixDigits (q : ℚ) : ℚ :=
  let unit : ℚ := (10 : ℚ) ^ (Int.log 10 q - 5)
  roundHalfEven (q / unit) * unit

/-- `o << v` for an `int`. -/
def intText (v : Int) : Text :=
  if v < 0 then [.minus, .int v.natAbs] else [.int v.natAbs]

/-- Digits of an integer below a million have no point and no exponent. -/
def digitsToken (digits : ℚ) : Token :=
  if digits.den = 1 ∧ digits < 1000000 then .int digits.num.toNat else .float digits

/-- `o << v` for a `double`. -/
def doubleText (v : ℚ) : Text :=
  if v = 0 then [.int 0]
  else if v < 0 then [.minus, digitsToken (sixDigits |v|)]
  else [digitsToken (sixDigits |v|)]

/-- `jalib::StringToInt`, which asserts that all of the text is an integer. -/
def stringToInt : Text → Option Int
  | [.int n] => some n
  | [.minus, .int n] => some (-n)
  | _ => none

/-- `while(--p>0) o += "*" + base`, `n` times. -/
def starred (base : Text) : Nat → Text
  | 0 => base
  | n + 1 => starred base n ++ .times :: base

/-! ## Formulas -/

/-- The operators of `FormulaBinop`. -/
inductive Op
  | add | sub | mul | div | pow
  | eq | gt | ge | lt | le
  | and | or
  deriving DecidableEq

/-- `opStr()`. -/
def Op.str : Op → Token
  | .add => .plus
  | .sub => .minus
  | .mul => .star
  | .div => .slash
  | .pow => .caret
  | .eq => .assign
  | .gt => .gt
  | .ge => .ge
  | .lt => .lt
  | .le => .le
  | .and => .and
  | .or => .or

/-- A formula; an `if` may have no `else`. -/
inductive Formula
  | var (name : Name)
  | integer (v : Int)
  | float (v : ℚ)
  | bool (b : Bool)
  | binop (op : Op) (left right : Formula)
  | ifThen (cond thenClause : Formula)
  | ifThenElse (cond thenClause elseClause : Formula)
  deriving DecidableEq

namespace Formula

/-- `size()`. -/
def size : Formula → Nat
  | .binop _ left right => left.size + right.size
  | _ => 1

/-- `getFreeVariables()`, as the constructors set it. -/
def getFreeVariables : Formula → Finset Name
  | .var name => {name}
  | .binop _ left right => left.getFreeVariables ∪ right.getFreeVariables
  | _ => ∅

/-- `toString()`. -/
def toString : Formula → Option Text
  | .var name => some [.ident name]
  | .integer v => some (intText v)
  | .float v => some (doubleText v)
  | .bool b => some [.int (if b then 1 else 0)]
  | .binop op left right =>
      if op = .pow then
        -- `printPower`
        if right.size = 1 ∧ right.getFreeVariables = ∅ then do
          let p ← right.toString.bind stringToInt
          if 0 < p then
            let base ← left.toString
            pure (starred base (p.toNat - 1))
          else pure [.int 1]
        else none
      else do
        let l ← left.toString
        let r ← right.toString
        pure (.lparen :: l ++ op.str :: r ++ [.rparen])
  | .ifThen cond thenClause => do
      let c ← cond.toString
      let t ← thenClause.toString
      pure (.lparen :: .kwIf :: c ++ .kwThen :: t ++ [.rparen])
  | .ifThenElse cond thenClause elseClause => do
      let e ← elseClause.toString
      let c ← cond.toString
      let t ← thenClause.toString
      pure (.lparen :: .kwIf :: c ++ .kwThen :: t ++ .kwElse :: e ++ [.rparen])

/-- `toCppString()`. -/
def toCppString : Formula → Option Text
  | .binop .eq left right => do
      let l ← left.toCppString
      let r ← right.toCppString
      pure (l ++ .eqeq :: r)
  | .binop .and left right => do
      let l ← left.toCppString
      let r ← right.toCppString
      pure (l ++ .and :: r)
  | .binop .or left right => do
      let l ← left.toCppString
      let r ← right.toCppString
      pure (l ++ .or :: r)
  | f => f.toString

/-- `Formula::replace`, which the node classes but `FormulaBinop` inherit. -/
def replaceWhole (what replacement f : Formula) : Option Formula := do
  let w ← what.toString
  let t ← f.toString
  pure (if w = t then replacement else f)

/-- `replace(what, with)`. -/
def replace (what replacement : Formula) : Formula → Option Formula
  | .binop op left right => do
      let w ← what.toString
      let t ← (Formula.binop op left right).toString
      if w = t then pure replacement
      else
        let l ← replace what replacement left
        let r ← replace what replacement right
        pure (.binop op l r)
  | f => replaceWhole what replacement f

end Formula

/-! ## Meaning -/

inductive Value
  | num (q : ℚ)
  | bool (b : Bool)
  deriving DecidableEq

/-- Values of the variables that have one. -/
abbrev Env := Name → Option Value

/-- A rational power, with an integer exponent. -/
def power (a p : ℚ) : Option ℚ :=
  if p.den = 1 then
    if p.num < 0 ∧ a = 0 then none else some (a ^ p.num)
  else none

/-- What an operator means. -/
def Op.eval : Op → Value → Value → Option Value
  | .add, .num a, .num b => some (.num (a + b))
  | .sub, .num a, .num b => some (.num (a - b))
  | .mul, .num a, .num b => some (.num (a * b))
  | .div, .num a, .num b => if b = 0 then none else some (.num (a / b))
  | .pow, .num a, .num b => (power a b).map .num
  | .eq, .num a, .num b => some (.bool (a = b))
  | .eq, .bool a, .bool b => some (.bool (a = b))
  | .gt, .num a, .num b => some (.bool (b < a))
  | .ge, .num a, .num b => some (.bool (b ≤ a))
  | .lt, .num a, .num b => some (.bool (a < b))
  | .le, .num a, .num b => some (.bool (a ≤ b))
  | .and, .bool a, .bool b => some (.bool (a && b))
  | .or, .bool a, .bool b => some (.bool (a || b))
  | _, _, _ => none

namespace Formula

/-- What a formula means. -/
def eval (env : Env) : Formula → Option Value
  | .var name => env name
  | .integer v => some (.num v)
  | .float v => some (.num v)
  | .bool b => some (.bool b)
  | .binop op left right =>
      (left.eval env).bind fun a => (right.eval env).bind fun b => op.eval a b
  | .ifThen cond thenClause =>
      (cond.eval env).bind fun
        | .bool true => thenClause.eval env
        | _ => none
  | .ifThenElse cond thenClause elseClause =>
      (cond.eval env).bind fun
        | .bool true => thenClause.eval env
        | .bool false => elseClause.eval env
        | .num _ => none

/-- The variables that occur in a formula. -/
def occurs : Formula → Finset Name
  | .var name => {name}
  | .binop _ left right => left.occurs ∪ right.occurs
  | .ifThen cond thenClause => cond.occurs ∪ thenClause.occurs
  | .ifThenElse cond thenClause elseClause =>
      cond.occurs ∪ thenClause.occurs ∪ elseClause.occurs
  | _ => ∅

end Formula

end PbFormula
