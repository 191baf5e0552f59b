import PetaBricks.ConfigItemModel
import PetaBricks.DecimalFractionProofs
import PetaBricks.LexerProofs
import PetaBricks.PrecedenceProofs

/-! # The jump table of a template

    A transform with template arguments is generated once for each choice of their values.  The
    table is a `switch` over an expression that is put together as text, with a case for each
    number of a choice; the name that is called there has the values of the choice in it. -/

namespace PbTemplateDispatch

open PbConfigItem PbDecimal PbPrecedence

abbrev Name := List Char

structure TemplateArg extends ConfigItem where
  name : Name

abbrev items (args : List TemplateArg) : List ConfigItem := args.map TemplateArg.toConfigItem

/-! ## The generator -/

/-- `tmplChoiceCount`. -/
def tmplChoiceCount (args : List TemplateArg) : Option ℤ := choiceCount (items args) 1

/-- The loop of `tmplName`: the values, and what is left of the choice. -/
def tmplValues : List TemplateArg → ℤ → Option (List ℤ × ℤ)
  | [], choice => some ([], choice)
  | a :: args, choice => a.range.bind fun r => (int (choice.tmod r + a.min)).bind fun val =>
      (tmplValues args (choice.tdiv r)).map fun rest => (val :: rest.1, rest.2)

/-- A name with these values in it. -/
def nameOf (name : Name) (values : List ℤ) : Name :=
  name ++ values.flatMap fun val => '_' :: intText val

/-- `tmplName`, for the name with `TMPL_IMPL_PFX`; none where the assertion fails. -/
def tmplName (name : Name) (args : List TemplateArg) (n : ℤ) : Option Name :=
  (tmplValues args n).bind fun r => if r.2 = 0 then some (nameOf name r.1) else none

/-- What stands in front of an argument. -/
def factorText (mult : ℤ) : List Char :=
  if mult > 1 then [' ', '+', ' '] ++ intText mult ++ ['*'] else []

def argText (a : TemplateArg) : List Char := '(' :: a.name ++ '-' :: intText a.min ++ [')']

/-- The loop of `genTmplJumpTable`; `mult` is a `size_t`. -/
def formulaFrom : List TemplateArg → ℤ → Option (List Char)
  | [], _ => some []
  | a :: args, mult => a.range.bind fun r =>
      (formulaFrom args (mult * r % 2 ^ 64)).map fun rest => factorText mult ++ argText a ++ rest

/-- The expression of the `switch`. -/
def formula (args : List TemplateArg) : Option (List Char) := formulaFrom args 1

/-! ## The expression in C -/

inductive Token where
  | ident (name : Name)
  | num (n : ℕ)
  | openParen | closeParen | plus | minus | star
  /-- `++` and `--`. -/
  | incr | decr
  deriving DecidableEq

def identStart (c : Char) : Bool := c.isAlpha || c == '_'

def identChar (c : Char) : Bool := c.isAlphanum || c == '_'

/-- The longest token of those that such an expression may have. -/
def nextToken : PbLexer.Next Token
  | [] => none
  | ' ' :: t => some (none, t)
  | '(' :: t => some (some .openParen, t)
  | ')' :: t => some (some .closeParen, t)
  | '*' :: t => some (some .star, t)
  | '+' :: '+' :: t => some (some .incr, t)
  | '-' :: '-' :: t => some (some .decr, t)
  | '+' :: t => some (some .plus, t)
  | '-' :: t => some (some .minus, t)
  | c :: t =>
      if c.isDigit then
        some (some (.num (ofDigits ((c :: t).takeWhile Char.isDigit))),
          (c :: t).dropWhile Char.isDigit)
      else if identStart c then
        some (some (.ident ((c :: t).takeWhile identChar)), (c :: t).dropWhile identChar)
      else none

inductive Atom where
  | var (name : Name)
  | num (n : ℕ)
  deriving DecidableEq

inductive Unary where
  | pos | neg
  deriving DecidableEq

inductive Binary where
  | add | sub | mul
  deriving DecidableEq

abbrev Expr := Tree Atom Unary Binary

/-- Values and their operators.  No operand is one that can be changed, so `++` and `--` have no
    place, neither in front of it nor behind it; and none can be called, so no bracket follows. -/
def cGrammar : Grammar Token Atom Unary Binary where
  atom
    | .ident s => some (.var s)
    | .num n => some (.num n)
    | _ => none
  unary
    | .plus => some .pos
    | .minus => some .neg
    | _ => none
  binary
    | .plus => some .add
    | .minus => some .sub
    | .star => some .mul
    | _ => none
  level
    | .add => 1
    | .sub => 1
    | .mul => 2
  isOpen t := t == .openParen
  isClose t := t == .closeParen

def parse (text : List Char) : Option Expr := (PbLexer.tokens nextToken text).bind cGrammar.parse

/-- The value, with the arguments as they are in `env`; a constant that is no `int` does not
    occur where the choices are counted. -/
def eval (env : Name → ℤ) : Expr → Option ℤ
  | .atom (.var s) => int (env s)
  | .atom (.num n) => int n
  | .unary .pos e => eval env e
  | .unary .neg e => (eval env e).bind fun v => int (-v)
  | .binary .add l r => (eval env l).bind fun a => (eval env r).bind fun b => int (a + b)
  | .binary .sub l r => (eval env l).bind fun a => (eval env r).bind fun b => int (a - b)
  | .binary .mul l r => (eval env l).bind fun a => (eval env r).bind fun b => int (a * b)

/-! ## What the table is for -/

/-- These are values of the arguments. -/
def Allows (args : List TemplateArg) (values : List ℤ) : Prop :=
  List.Forall₂ (fun a v => a.min ≤ v ∧ v ≤ a.max) args values

/-- **THE RIGHT INSTANTIATION** is called: the expression has the number of the case for the values
    of the arguments, and there is one case for all values that they may have. -/
def Dispatches (name : Name) (args : List TemplateArg) : Prop :=
  ∃ n text e, tmplChoiceCount args = some n ∧ formula args = some text ∧ parse text = some e ∧
    (∀ env : Name → ℤ, Allows args (args.map fun a => env a.name) →
      ∃ c, eval env e = some c ∧ (0 ≤ c ∧ c < n) ∧
        tmplName name args c = some (nameOf name (args.map fun a => env a.name))) ∧
    ∀ values, Allows args values →
      ∃! c, (0 ≤ c ∧ c < n) ∧ tmplName name args c = some (nameOf name values)

end PbTemplateDispatch
