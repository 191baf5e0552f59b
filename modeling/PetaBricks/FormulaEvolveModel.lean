import PetaBricks.FormulaTextModel
import PetaBricks.MaximaParserModel

/-! # Formulas of the learning compiler — `formula.py`

    The classes of `formula.py` are the constructors of `Formula`.  `evolveValue` changes a
    tree in place, here it gives the new tree and whether it has changed.  The random numbers
    are a `Draw` for each node, as no node is visited twice. -/

namespace PbFormula

open PbDecimal PbMaximaParser

/-- `str` of a float: twelve significant digits, and always a point or an exponent. -/
def floatStr (q : ℚ) : List Char :=
  let (n, x) := scientific 11 q
  if -4 ≤ x ∧ x ≤ 10 then
    let t := fixedText true (11 - x).toNat n
    signText q ++ if '.' ∈ t then t else t ++ ['.', '0']
  else signText q ++ fixedText true 11 n ++ exponentText x

/-- `__repr__`. -/
def Formula.repr : Formula → List Char
  | .var name => name.toList
  | .integer v => PbDecimal.intText v
  | .float v => floatStr v
  | .bool b => if b then ['t', 'r', 'u', 'e'] else ['f', 'a', 'l', 's', 'e']
  | .binop op left right => '(' :: (left.repr ++ ' ' :: op.chars ++ ' ' :: right.repr ++ [')'])
  | .ifThen cond thenClause =>
      ['i', 'f', ' '] ++ cond.repr ++ [' ', 't', 'h', 'e', 'n', ' '] ++ thenClause.repr
  | .ifThenElse cond thenClause elseClause =>
      ['i', 'f', ' '] ++ cond.repr ++ [' ', 't', 'h', 'e', 'n', ' '] ++ thenClause.repr ++
        [' ', 'e', 'l', 's', 'e', ' '] ++ elseClause.repr

/-! ## Mutations -/

/-- The random numbers one node asks for. -/
structure Draw where
  /-- `random.random() < _mutationProbability`. -/
  mutates : Bool
  /-- `random.random() < 0.5`. -/
  half : Bool
  /-- `random.uniform(-1, 1)`. -/
  uniform : ℚ
  uniform_mem : -1 ≤ uniform ∧ uniform ≤ 1
  /-- The first `random.randint(_mutateMIN, _mutateMAX)` that is another value. -/
  otherInteger : ℤ → ℤ
  otherInteger_mem : ∀ v, otherInteger v ≠ v ∧ -100 ≤ otherInteger v ∧ otherInteger v ≤ 100
  /-- The first `random.uniform(_mutateMIN, _mutateMAX)` that is another value. -/
  otherFloat : ℚ → ℚ
  otherFloat_mem : ∀ q, otherFloat q ≠ q ∧ -100 ≤ otherFloat q ∧ otherFloat q ≤ 100
  /-- `random.shuffle(choices)`. -/
  order : List (Fin 3)
  order_perm : order.Perm [0, 1, 2]

/-- `int` of a float. -/
def truncate (q : ℚ) : ℤ := q.num.tdiv q.den

/-- `FormulaInteger.evolveValue`. -/
def Draw.evolveInteger (d : Draw) (v : ℤ) : ℤ :=
  if d.mutates then d.otherInteger v
  else
    let v' := truncate (toDouble (toDouble v + toDouble (toDouble v * d.uniform)))
    if v' = v then if d.half then v - 1 else v + 1 else v'

/-- `FormulaFloat.evolveValue`. -/
def Draw.evolveFloat (d : Draw) (q : ℚ) : ℚ :=
  if d.mutates then d.otherFloat q
  else
    let q' := toDouble (q + toDouble (q * d.uniform))
    if q' = q then if d.half then toDouble (q - 1) else toDouble (q + 1) else q'

namespace Formula

/-- `evolveValue`; a node's operands, or clauses, are numbered from 0. -/
def evolveValue (draw : List ℕ → Draw) (path : List ℕ) : Formula → Formula × Bool
  | .var name => (.var name, false)
  | .integer v => (.integer ((draw path).evolveInteger v), true)
  | .float v => (.float ((draw path).evolveFloat v), true)
  | .bool _ => (.bool (!(draw path).half), true)
  | .binop op left right =>
      let l := left.evolveValue draw (0 :: path)
      let r := right.evolveValue draw (1 :: path)
      if (draw path).half then
        if l.2 then (.binop op l.1 right, true) else (.binop op l.1 r.1, r.2)
      else if r.2 then (.binop op left r.1, true) else (.binop op l.1 r.1, l.2)
  | .ifThen cond thenClause =>
      let c := cond.evolveValue draw (0 :: path)
      let t := thenClause.evolveValue draw (1 :: path)
      -- a clause that has not changed is left as it is
      match (draw path).order.find? fun i : Fin 3 => [c.2, t.2, false].getD i.val false with
      | some 0 => (.ifThen c.1 thenClause, true)
      | some 1 => (.ifThen cond t.1, true)
      | _ => (.ifThen cond thenClause, false)
  | .ifThenElse cond thenClause elseClause =>
      let c := cond.evolveValue draw (0 :: path)
      let t := thenClause.evolveValue draw (1 :: path)
      let e := elseClause.evolveValue draw (2 :: path)
      match (draw path).order.find? fun i : Fin 3 => [c.2, t.2, e.2].getD i.val false with
      | some 0 => (.ifThenElse c.1 thenClause elseClause, true)
      | some 1 => (.ifThenElse cond t.1 elseClause, true)
      | some 2 => (.ifThenElse cond thenClause e.1, true)
      | _ => (.ifThenElse cond thenClause elseClause, false)

/-- What the learning compiler makes of a formula: it is changed, or printed and parsed. -/
inductive Learned (start : Formula) : Formula → Prop
  | start : Learned start start
  | evolve {t : Formula} (draw : List ℕ → Draw) :
      Learned start t → Learned start (t.evolveValue draw []).1
  | reparse {t u : Formula} : Learned start t → pyParse t.repr = some u → Learned start u

end Formula

end PbFormula
