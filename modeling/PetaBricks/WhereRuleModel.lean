import Mathlib.Algebra.Order.Ring.Int
import Mathlib.Tactic.Common

/-! # Rules with where clauses

    The rules of a segment stand in a `std::set` ordered by `RulePriCmp`.  `applyRulePriorities`
    keeps those that no better rule makes superfluous, `expandWhereClauses` moves the rules with
    where clauses into a `WhereExpansionRule`, and `genWhereSwitch` writes the chain of ifs that
    picks one of them at a cell.

    A rule is known by its id, its priority and its conditions; `γ` is the type of cells.  An
    `int` that overflows, and an iterator that is used after its element was erased, are
    undefined (`none`). -/

namespace PbWhereRule

variable {γ : Type}

structure Rule (γ : Type) where
  id : ℕ
  priority : ℤ
  /-- `_conditions`. -/
  conditions : List (γ → Bool)

namespace Rule

def hasWhereClause (r : Rule γ) : Bool := 0 < r.conditions.length

/-- `getWhereClause(start)`, of the conditions from there on: `NULL`, or their conjunction. -/
def whereClauseFrom : List (γ → Bool) → Option (γ → Bool)
  | [] => none
  | [c] => some c
  | c :: cs => (whereClauseFrom cs).map fun w cell => c cell && w cell

def getWhereClause (r : Rule γ) : Option (γ → Bool) := whereClauseFrom r.conditions

end Rule

/-! ## The set -/

/-- `priority() * 2 - hasWhereClause()`. -/
def doubled (r : Rule γ) : Option ℤ :=
  let p := r.priority * 2
  let k := p - if r.hasWhereClause then 1 else 0
  if -2 ^ 31 ≤ k ∧ p < 2 ^ 31 then some k else none

/-- `RulePriCmp`. -/
def priCmp (r1 r2 : Rule γ) : Option Bool := do
  let p1 ← doubled r1
  let p2 ← doubled r2
  pure (if p1 = p2 then decide (r1.id < r2.id) else decide (p1 < p2))

/-- `insert` of a `RuleSet`, which has its rules in order. -/
def insert (r : Rule γ) : List (Rule γ) → Option (List (Rule γ))
  | [] => some [r]
  | x :: xs => do
      if ← priCmp r x then pure (r :: x :: xs)
      else if ← priCmp x r then
        let xs ← insert r xs
        pure (x :: xs)
      else pure (x :: xs)

def insertAll : List (Rule γ) → List (Rule γ) → Option (List (Rule γ))
  | rs, [] => some rs
  | rs, r :: rest => do
      let rs ← insert r rs
      insertAll rs rest

/-! ## `applyRulePriorities` -/

/-- The loop: `l` is the rule before, `rs` the copy.  It returns the copy where it swaps. -/
def priorityLoop : Option (Rule γ) → List (Rule γ) → List (Rule γ) → Option (Option (List (Rule γ)))
  | _, _, [] => some none
  | l, rs, r :: rest =>
      if l.any fun l => r.priority > l.priority && !l.hasWhereClause then some (some rs)
      else do
        let rs ← insert r rs
        priorityLoop (some r) rs rest

def applyRulePriorities (applicableRules : List (Rule γ)) : Option (List (Rule γ)) := do
  let swapped ← priorityLoop none [] applicableRules
  pure (swapped.getD applicableRules)

/-! ## `expandWhereClauses` -/

/-- `hasWhereClauses` of a choice grid, which looks at the first rule. -/
def hasWhereClauses : List (Rule γ) → Bool
  | [] => false
  | r :: _ => r.hasWhereClause

/-- The first loop, `rules.erase(i)` before `++i`.  The language leaves the increment of such an
    iterator undefined; where it `survives`, it goes to the rule after the erased one. -/
def separate (survives : Bool) :
    List (Rule γ) → List (Rule γ) → List (Rule γ) → Option (List (Rule γ) × List (Rule γ))
  | whereRules, rules, [] => some (whereRules, rules)
  | whereRules, rules, thisRule :: rest =>
      if thisRule.hasWhereClause then do
        let whereRules ← insert thisRule whereRules
        if survives then separate survives whereRules rules rest else none
      else separate survives whereRules (rules ++ [thisRule]) rest

/-- The fallback, the first rule that is left. -/
def addFallback (whereRules rules : List (Rule γ)) : Option (List (Rule γ)) :=
  match rules.find? fun r => !r.hasWhereClause with
  | none => some whereRules
  | some thisRule => insert thisRule whereRules

/-- The rules of a segment after the expansion, and those of the `WhereExpansionRule`. -/
structure Expansion (γ : Type) where
  rules : List (Rule γ)
  whereRules : List (Rule γ)

/-- `nextId` is the id of the new rule, which has the default priority and no where clause. -/
def expandWhereClauses (survives : Bool) (nextId : ℕ) (rules : List (Rule γ)) :
    Option (Expansion γ) := do
  let parts ← separate survives [] [] rules
  let whereRules ← addFallback parts.1 parts.2
  let rules ← insert ⟨nextId, 1, []⟩ parts.2
  pure ⟨rules, whereRules⟩

/-! ## `genWhereSwitch` -/

/-- The lines that are written; `elseIf()` without a condition writes an else. -/
inductive Line (γ : Type)
  | beginIf (wc : γ → Bool)
  | elseIf (wc : γ → Bool)
  | elseDo
  | endIf
  | apply (r : Rule γ)
  | fail

def genWhereSwitch (first : Bool) : List (Rule γ) → List (Line γ)
  | [] => [.elseDo, .fail, .endIf]
  | r :: rules =>
      match r.getWhereClause with
      | none => [.elseDo, .apply r, .endIf]
      | some wc =>
          (if first then .beginIf wc else .elseIf wc) :: .apply r :: genWhereSwitch false rules

/-- What the lines do at a cell. -/
inductive Outcome (γ : Type)
  | applied (r : Rule γ)
  | failed

/-- The chain after its first branch. -/
def runElse (cell : γ) : List (Line γ) → Option (Outcome γ)
  | .elseIf wc :: .apply r :: rest => if wc cell then some (.applied r) else runElse cell rest
  | [.elseDo, .apply r, .endIf] => some (.applied r)
  | [.elseDo, .fail, .endIf] => some .failed
  | _ => none

def run (cell : γ) : List (Line γ) → Option (Outcome γ)
  | .beginIf wc :: .apply r :: rest => if wc cell then some (.applied r) else runElse cell rest
  | _ => none

end PbWhereRule
