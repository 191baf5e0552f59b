import PetaBricks.FormulaModel
import Mathlib.Data.Finset.Card

/-! # Size inference — `MatrixDef::extractDefines` and `MatrixDef::verifyDefines`

    The compiler writes code that computes the size variables of a transform from the sizes of
    its matrices and then asserts every size formula.  A variable is solved from the first
    formula that has no other; the solver is a parameter.  What the generated code means is C on
    integers, which are unbounded.

    Of an item of the configuration only its name, whether its value comes from there and that
    value are kept.  The names of the generated code are identifiers, but for the calls
    `A.size(0)`. -/

namespace PbSizeInference

open PbFormula

/-! ## The text of a formula as C -/

/-- What the names of the generated code mean. -/
abbrev CEnv := Name → Option ℤ

/-- A power is printed as a product without parentheses. -/
structure Product where
  factor : ℤ
  count : ℕ

def Product.value (p : Product) : ℤ := p.factor ^ p.count

/-- The exponent that `printPower` asserts. -/
def exponent (right : Formula) : Option ℤ :=
  if right.size = 1 ∧ right.getFreeVariables = ∅ then right.toString.bind stringToInt else none

/-- An operator between two products.  A division cuts towards zero, and what follows the first
    factor of its right side multiplies the quotient. -/
def operate : Op → Product → Product → Option ℤ
  | .add, a, b => some (a.value + b.value)
  | .sub, a, b => some (a.value - b.value)
  | .mul, a, b => some (a.value * b.value)
  | .div, a, b =>
      if b.factor = 0 then none
      else some (a.value.tdiv b.factor * b.factor ^ (b.count - 1))
  | _, _, _ => none

/-- The product that a formula is printed as, of one factor if it is no power.  A floating
    literal, a comparison or a condition is no integer. -/
def product (env : CEnv) : Formula → Option Product
  | .var name => (env name).map fun v => ⟨v, 1⟩
  | .integer v => some ⟨v, 1⟩
  | .binop op left right =>
      if op = .pow then
        (exponent right).bind fun p =>
          if 0 < p then (product env left).map fun a => ⟨a.factor, a.count * p.toNat⟩
          else some ⟨1, 1⟩
      else
        (product env left).bind fun a => (product env right).bind fun b =>
          (operate op a b).map fun v => ⟨v, 1⟩
  | _ => none

/-- The value of `toString()` in C. -/
def evalC (env : CEnv) (f : Formula) : Option ℤ := (product env f).map Product.value

/-! ## Definitions of matrices -/

/-- `hasFlag(FLAG_FROMCFG)` and the value of the member. -/
structure ConfigItem where
  name : Name
  fromCfg : Bool
  value : ℤ

structure MatrixDef where
  name : Name
  size : List Formula

structure Transform where
  config : List ConfigItem
  fromDefs : List MatrixDef
  toDefs : List MatrixDef

/-- A dimension: its size formula, and `_name+".size("+jalib::XToString(d)+")"`. -/
structure Dimension where
  formula : Formula
  call : Name

def MatrixDef.dimensions (m : MatrixDef) : List Dimension :=
  m.size.zipIdx.map fun (f, d) => ⟨f, m.name ++ (".size(" ++ (toString d ++ ")"))⟩

/-- `*fv->begin()`, of a set of one. -/
def firstVariable : Formula → Option Name
  | .var name => some name
  | .binop _ left right => (firstVariable left).or (firstVariable right)
  | _ => none

/-- The variable of a formula that has no other. -/
def onlyVariable (f : Formula) : Option Name :=
  if f.getFreeVariables.card = 1 then firstVariable f else none

/-- The names of `FormulaVariable::mktmp()`. -/
def tmpName (i : ℕ) : Name := "_tmp" ++ toString i

/-! ## `extractDefines` -/

/-- `var = value;`. -/
structure Define where
  var : Name
  value : Formula

structure State where
  defined : List Name
  tmps : ℕ
  defines : List Define

/-- `MaximaWrapper::solve(l, var)`. -/
abbrev Solver := List Formula → Name → List Formula

/-- The equation `tmp = formula` solved for `var`, with the actual size for `tmp`. -/
def solveFor (solve : Solver) (tmp var : Name) (dim : Dimension) : Option Define :=
  match solve [.binop .eq (.var tmp) dim.formula] var with
  | [.binop .eq _ rhs] =>
      (Formula.replace (.var tmp) (.var dim.call) rhs).map fun value => ⟨var, value⟩
  | _ => none

/-- A turn of the loop over the dimensions. -/
def extractDefine (solve : Solver) (s : State) (dim : Dimension) : Option State :=
  match onlyVariable dim.formula with
  | none => some s
  | some var =>
      if var ∈ s.defined then some { s with tmps := s.tmps + 1 }
      else (solveFor solve (tmpName s.tmps) var dim).map fun define =>
        ⟨var :: s.defined, s.tmps + 1, s.defines ++ [define]⟩

def MatrixDef.extractDefines (solve : Solver) (s : State) (m : MatrixDef) : Option State :=
  m.dimensions.foldlM (extractDefine solve) s

namespace Transform

/-- The names with `FLAG_FROMCFG`. -/
def configNames (t : Transform) : List Name :=
  (t.config.filter ConfigItem.fromCfg).map ConfigItem.name

/-- `Transform::extractSizeDefines`. -/
def extractSizeDefines (solve : Solver) (t : Transform) : Option State :=
  (t.fromDefs.foldlM (MatrixDef.extractDefines solve) ⟨t.configNames, 0, []⟩).bind fun s =>
    t.toDefs.foldlM (MatrixDef.extractDefines solve) s

end Transform

/-! ## The generated code -/

/-- A call ends with a parenthesis. -/
def isCall (name : Name) : Bool := name.toList.getLast? == some ')'

/-- The names, and the actual sizes. -/
def withSizes (size : Name → ℤ) (env : CEnv) : CEnv := fun name =>
  if isCall name then some (size name) else env name

/-- `var = value;` as a step. -/
def assign (size : Name → ℤ) (env : CEnv) (define : Define) : Option CEnv :=
  (evalC (withSizes size env) define.value).map fun v => fun name =>
    if name = define.var then some v else env name

/-- `addAssert` for a dimension. -/
def Dimension.assertSize (size : Name → ℤ) (env : CEnv) (dim : Dimension) : Bool :=
  evalC env dim.formula == some (size dim.call)

def MatrixDef.verifyDefines (size : Name → ℤ) (env : CEnv) (m : MatrixDef) : Bool :=
  m.dimensions.all (Dimension.assertSize size env)

namespace Transform

def configEnv (t : Transform) : CEnv := fun name =>
  (t.config.find? fun item => item.fromCfg && item.name == name).map ConfigItem.value

/-- The variables after the lines of `extractSizeDefines`. -/
def initialized (solve : Solver) (t : Transform) (size : Name → ℤ) : Option CEnv :=
  (t.extractSizeDefines solve).bind fun s => s.defines.foldlM (assign size) t.configEnv

/-- The assertions of `extractConstants`. -/
def verifyDefines (t : Transform) (size : Name → ℤ) (env : CEnv) : Bool :=
  t.fromDefs.all (MatrixDef.verifyDefines size env) &&
    t.toDefs.all (MatrixDef.verifyDefines size env)

/-- The compiler succeeds, the generated lines have values and all assertions pass. -/
def accepts (solve : Solver) (t : Transform) (size : Name → ℤ) : Bool :=
  match t.initialized solve size with
  | none => false
  | some env => t.verifyDefines size env

end Transform

end PbSizeInference
