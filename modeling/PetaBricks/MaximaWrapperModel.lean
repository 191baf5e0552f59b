import PetaBricks.OrderedMapProofs
import PetaBricks.MaximaProofs
import Mathlib.Data.Finset.Insert
import Mathlib.Data.Finset.Lattice.Lemmas
import Mathlib.Data.String.Basic

/-! # The Maxima wrapper — delayed assumptions and cached results

    `MaximaWrapper` talks to a Maxima process.  An assumption is not sent at
    once: it waits in a set until the next command, and is forgotten when its
    context ends.  A result is kept under the text of its command until the
    facts change, if the code was compiled with `MAXIMA_CACHING`.

    A result is a list behind a reference.  What the cache keeps is the
    reference, and so is what a caller gets: `retrySolve` writes to the list. -/

namespace PbMaximaWrapper

open PbOrderedMap (OrderedSet)
open PbMaxima (TryCompareResult)

/-! ## Maxima -/

/-- The commands by their texts: `supcontext(_ctx_stack_<n>)`, `killcontext(_ctx_stack_<n>)`, an
    `assume` or a `declare`, and any other one. -/
inductive Command
  | supcontext (n : Nat)
  | killcontext (n : Nat)
  | fact (text : String)
  | query (text : String)
  deriving DecidableEq

/-- The contexts from the current one outwards, with the facts assumed in each.  The initial one
    has number 0. -/
abbrev Contexts := List (Nat × Finset String)

namespace Contexts

/-- The facts of the current context and its ancestors. -/
def facts (c : Contexts) : Finset String := c.foldr (fun l s => l.2 ∪ s) ∅

def assume (f : String) : Contexts → Contexts
  | [] => []
  | l :: c => (l.1, insert f l.2) :: c

/-- A new context must have a new name, and the current one is killed in favour of its parent. -/
def exec (c : Contexts) : Command → Contexts
  | .supcontext n => if n ∈ c.map Prod.fst then c else (n, ∅) :: c
  | .killcontext n =>
      match c with
      | l :: p :: c => if l.1 = n then p :: c else l :: p :: c
      | c => c
  | .fact text => c.assume text
  | .query _ => c

end Contexts

/-- What formulas are asked for. -/
structure Formulas (F : Type) where
  toString : F → String
  printAsAssumption : F → String
  /-- `getFreeVariables()->contains(var)`. -/
  contains : F → String → Bool
  /-- No value where an assertion fails. -/
  rhs : F → Option F

/-- What Maxima answers: to a query from the facts, to another command anything. -/
structure Maxima (F : Type) where
  answer : Finset String → String → List F
  reply : Contexts → Command → List F

def Maxima.result {F : Type} (M : Maxima F) (c : Contexts) : Command → List F
  | .query text => M.answer c.facts text
  | cmd => M.reply c cmd

/-! ## The wrapper -/

/-- The wrapper with its process, the lists that were read, and the queries with the lists as they
    were returned. -/
structure MaximaWrapper (F : Type) where
  maxima : Contexts
  lists : List (List F)
  stackDepth : Nat
  pendingAssume : OrderedSet String
  cache : List (Command × Nat)
  answers : List (String × List F)

section Commands

variable {F : Type} (M : Maxima F) (caching : Bool)

/-- A new list is read. -/
def runCommandRaw (cmd : Command) (w : MaximaWrapper F) : Nat × MaximaWrapper F :=
  (w.lists.length,
    { w with maxima := w.maxima.exec cmd, lists := w.lists ++ [M.result w.maxima cmd] })

def clearCache (w : MaximaWrapper F) : MaximaWrapper F := { w with cache := [] }

/-- The delayed assumptions are sent. -/
def flush (w : MaximaWrapper F) : MaximaWrapper F :=
  if w.pendingAssume.keys = [] then w
  else clearCache (w.pendingAssume.keys.foldl (fun w f => (runCommandRaw M (.fact f) w).2)
    { w with pendingAssume := ∅ })

def runCommand (cmd : Command) (w : MaximaWrapper F) : Nat × MaximaWrapper F :=
  let w := flush M w
  match w.cache.find? fun e => e.1 = cmd with
  | some e => (e.2, w)
  | none =>
      let (rv, w) := runCommandRaw M cmd w
      (rv, if caching then { w with cache := (cmd, rv) :: w.cache } else w)

/-- `FormulaListPtr` behind a reference. -/
def MaximaWrapper.list (w : MaximaWrapper F) (rv : Nat) : List F := w.lists.getD rv []

def MaximaWrapper.setList (w : MaximaWrapper F) (rv : Nat) (l : List F) : MaximaWrapper F :=
  { w with lists := w.lists.set rv l }

/-- Code that may fail an assertion. -/
abbrev Wrap (F α : Type) := OptionT (StateM (MaximaWrapper F)) α

/-- A query, and what was returned for it. -/
def query (text : String) : Wrap F Nat := do
  let (rv, w) := runCommand M caching (.query text) (← get)
  set { w with answers := w.answers ++ [(text, w.list rv)] }
  pure rv

def list (rv : Nat) : Wrap F (List F) := do
  pure ((← get).list rv)

def setList (rv : Nat) (l : List F) : Wrap F Unit := modify fun w => w.setList rv l

/-- An assertion, with the value it is about. -/
def assertSome {α : Type} (o : Option α) : Wrap F α := OptionT.mk (pure o)

/-- The query is made again where there is no output. -/
def retry (cmd : String) (rslt : Nat) : Wrap F Nat := do
  match ← list rslt with
  | [] => query M caching cmd
  | _ => pure rslt

def runCommandSingleOutput (cmd : String) : Wrap F F := do
  let rslt ← query M caching cmd
  let rslt ← retry M caching cmd rslt
  match ← list rslt with
  | [f] => pure f
  | _ => assertSome none

variable (fm : Formulas F)

/-- `solve([<the equations with var>], var)` -/
def solveText (eqs : List F) (var : String) : String :=
  "solve([" ++ ", ".intercalate ((eqs.filter fun e => fm.contains e var).map fm.toString) ++ "], "
    ++ var ++ ")"

def solve (eqs : List F) (var : String) : Wrap F Nat := query M caching (solveText fm eqs var)

/-- What is known without Maxima. -/
def isOptimized (formula : String) : Option TryCompareResult :=
  if formula = "1<0" ∨ formula = "0>1" then some .NO
  else if formula = "1>0" ∨ formula = "0<1" then some .YES
  else none

def toResult (rslt : String) : TryCompareResult :=
  if rslt = "1" then .YES else if rslt = "0" then .NO else .UNKNOWN

def is (formula : String) : Wrap F TryCompareResult :=
  match isOptimized formula with
  | some r => pure r
  | none => do
      let rslt ← runCommandSingleOutput M caching ("is(" ++ formula ++ ")")
      pure (toResult (fm.toString rslt))

/-- What is known of identical formulas. -/
def identical (op : String) : Option TryCompareResult :=
  if op = "=" ∨ op = "<=" ∨ op = ">=" then some .YES
  else if op = "<" ∨ op = ">" then some .NO
  else none

/-- Maxima does not take `=`. -/
def compareText (a op b : String) : String :=
  if op = "=" then a ++ "<=" ++ b ++ " and " ++ a ++ ">=" ++ b else a ++ op ++ b

def tryCompare (a : F) (op : String) (b : F) : Wrap F TryCompareResult :=
  match if fm.toString a = fm.toString b then identical op else none with
  | some r => pure r
  | none => is M caching fm (compareText (fm.toString a) op (fm.toString b))

/-- `rv` is extended by what solves a part. -/
def extendWith (rv : Nat) (var : String) (e : F) : Wrap F Unit :=
  if fm.contains e var then do
    let r ← solve M caching fm [e] var
    setList rv ((← list rv) ++ (← list r))
  else pure ()

/-- The backup strategy, where there is no result: the parts are solved one by one. -/
def solveParts (rv : Nat) (eqs : List F) (var : String) : Wrap F Unit := do
  match ← list rv with
  | [] => eqs.forM (extendWith M caching fm rv var)
  | _ => pure ()

/-- Multiple results are trimmed, one at a time, at most as often as told. -/
def trim (rv : Nat) (cmp : String) : Nat → Wrap F Unit
  | 0 => pure ()
  | n + 1 => do
      match ← list rv with
      | a :: b :: l =>
          let x ← assertSome (fm.rhs a)
          let y ← assertSome (fm.rhs b)
          if (← tryCompare M caching fm y cmp x) = .YES then
            setList rv (b :: l)
            trim rv cmp n
          else if (← tryCompare M caching fm x cmp y) = .YES then
            setList rv (a :: l)
            trim rv cmp n
      | _ => pure ()

def retrySolve (eqs : List F) (var : String) (cmp : Option String) : Wrap F Nat := do
  let rv ← solve M caching fm eqs var
  solveParts M caching fm rv eqs var
  let l ← list rv
  match cmp with
  | some cmp => do
      trim M caching fm rv cmp l.length
      pure rv
  | none => pure rv

def minSolve (eqs : List F) (var : String) : Wrap F Nat := retrySolve M caching fm eqs var (some "<")

def maxSolve (eqs : List F) (var : String) : Wrap F Nat := retrySolve M caching fm eqs var (some ">")

def assumeText (fact : F) : String := "assume(" ++ fm.printAsAssumption fact ++ ")"

def declareText (var : String) : String := "declare(" ++ var ++ ", integer)"

def delay (f : String) : Wrap F Unit :=
  modify fun w => { w with pendingAssume := w.pendingAssume.insert f () }

def assume (fact : F) : Wrap F Unit := delay (assumeText fm fact)

def declareInteger (var : String) : Wrap F Unit := delay (declareText var)

def pushContext : Wrap F Unit := modify fun w =>
  let w := { w with stackDepth := w.stackDepth + 1 }
  (runCommand M caching (.supcontext w.stackDepth) w).2

def popContext : Wrap F Unit := do
  let w ← get
  if 0 < w.stackDepth then
    let cmd := Command.killcontext w.stackDepth
    let w := { w with pendingAssume := ∅, stackDepth := w.stackDepth - 1 }
    set (clearCache (runCommand M caching cmd w).2)
  else assertSome none

/-! ## Runs -/

/-- What the compiler does with the wrapper. -/
inductive Op (F : Type)
  | pushContext
  | popContext
  | assume (fact : F)
  | declareInteger (var : String)
  | query (cmd : String)
  | retrySolve (eqs : List F) (var : String) (cmp : Option String)

def runOp : Op F → Wrap F Unit
  | .pushContext => pushContext M caching
  | .popContext => popContext M caching
  | .assume fact => assume fm fact
  | .declareInteger var => declareInteger var
  | .query cmd => do
      let _ ← query M caching cmd
      pure ()
  | .retrySolve eqs var cmp => do
      let _ ← retrySolve M caching fm eqs var cmp
      pure ()

def theInitCode : String := "display2d : false $ prederror : false $ load(ineq) $ 1"

/-- The wrapper that was constructed. -/
def start : MaximaWrapper F :=
  (runCommand M caching (.query theInitCode) ⟨[(0, ∅)], [], 0, ∅, [], []⟩).2

/-- The wrapper after some operations; none where an assertion has failed. -/
def runAll : List (Op F) → MaximaWrapper F → Option (MaximaWrapper F)
  | [], w => some w
  | op :: ops, w =>
      match runOp M caching fm op w with
      | (some _, w) => runAll ops w
      | (none, _) => none

end Commands

end PbMaximaWrapper
