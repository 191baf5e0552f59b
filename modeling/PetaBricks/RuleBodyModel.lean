import Mathlib.Algebra.GroupWithZero.Nat
import PetaBricks.SimulationProofs

/-! # Rule bodies — structured statements and the member functions printed for them

    `DynamicBodyPrintPass` turns the body of a rule into member functions that
    call one another: a loop, an `if` or a block that contains a `SYNC`, a
    `CALL`, a `SPAWN`, a `break` or a `continue` is expanded, with labels for
    its parts, and anything else is printed as it stands.

    Both sides are machines.  What they show is the sequence of what was
    evaluated: the expressions, the conditions with their outcomes, and the
    points where the spawned tasks are waited for.  The outcome of a condition
    may be anything, and depend on all that was evaluated before. -/

namespace PbRuleBody

open PbSimulation (Machine)

/-! ## The rule IR -/

/-- The leaves of an `RIRExpr`; none for an empty expression. -/
abbrev Expr := List String

mutual

/-- `RIRStmt`.  The parts of a control statement are blocks (`ExpansionPass` adds the braces).
    A `while` is a loop with nothing to declare and nothing to increment. -/
inductive Stmt
  | basic (e : Expr)
  | cond (condPart : Expr) (thenPart : Block)
  | condElse (condPart : Expr) (thenPart elsePart : Block)
  | loop (declPart testPart incPart : Expr) (body : Block)
  | block (b : Block)

/-- `RIRBlock`. -/
inductive Block
  | nil
  | cons (s : Stmt) (rest : Block)

end

mutual

def Stmt.containsLeaf (val : String) : Stmt → Bool
  | .basic e => val ∈ e
  | .cond condPart thenPart => val ∈ condPart || thenPart.containsLeaf val
  | .condElse condPart thenPart elsePart =>
      val ∈ condPart || thenPart.containsLeaf val || elsePart.containsLeaf val
  | .loop declPart testPart incPart body =>
      val ∈ declPart || val ∈ testPart || val ∈ incPart || body.containsLeaf val
  | .block b => b.containsLeaf val

def Block.containsLeaf (val : String) : Block → Bool
  | .nil => false
  | .cons s rest => s.containsLeaf val || rest.containsLeaf val

end

/-- What makes a control statement or a block be expanded. -/
def Stmt.expanded (s : Stmt) : Bool :=
  s.containsLeaf "SYNC" || s.containsLeaf "CALL" || s.containsLeaf "SPAWN"
    || s.containsLeaf "break" || s.containsLeaf "continue"

/-! ## The structured body -/

/-- What is evaluated. -/
inductive Event
  | eval (e : Expr)
  | test (e : Expr) (outcome : Bool)
  | sync
  deriving DecidableEq

/-- The outcome of a condition, after what was evaluated before it. -/
abbrev Outcome := List Event → Expr → Bool

/-- Evaluating an expression; nothing happens at an empty one. -/
def evaluate (history : List Event) (e : Expr) : List Event :=
  if e = [] then history else history ++ [.eval e]

/-- Testing a condition; an empty one holds. -/
def test (o : Outcome) (history : List Event) (e : Expr) : Bool × List Event :=
  if e = [] then (true, history) else (o history e, history ++ [.test e (o history e)])

/-- What is left to do: a statement, the rest of a block, a loop from its test on, or a loop from
    its increment on, while its body runs. -/
inductive Frame
  | stmt (s : Stmt)
  | block (b : Block)
  | test (testPart incPart : Expr) (body : Block)
  | inc (testPart incPart : Expr) (body : Block)

/-- What `break` leaves: the frames behind the innermost loop. -/
def leaveLoop : List Frame → List Frame
  | [] => []
  | .inc _ _ _ :: k => k
  | _ :: k => leaveLoop k

/-- Where `continue` goes: the increment of the innermost loop. -/
def continueLoop : List Frame → List Frame
  | [] => []
  | .inc testPart incPart body :: k => .inc testPart incPart body :: k
  | _ :: k => continueLoop k

/-- A statement that ends the rule. -/
def returns (e : Expr) : Bool := "RETURN" ∈ e || "RETURN_VOID" ∈ e

/-- A statement without parts: `break`, `continue`, `SYNC()`, a `CALL`, which is waited for, or
    another one. -/
def basicStep (e : Expr) (k : List Frame) (history : List Event) : List Frame × List Event :=
  if "break" ∈ e then (leaveLoop k, history)
  else if "continue" ∈ e then (continueLoop k, history)
  else if "SYNC" ∈ e then (k, history ++ [.sync])
  else if returns e then ([], evaluate history e)
  else if "CALL" ∈ e then (.stmt (.basic ["SYNC"]) :: k, evaluate history e)
  else (k, evaluate history e)

/-- One step of a structured statement. -/
def frameStep (o : Outcome) (f : Frame) (k : List Frame) (history : List Event) :
    List Frame × List Event :=
  match f with
  | .stmt (.basic e) => basicStep e k history
  | .stmt (.cond condPart thenPart) =>
      let (outcome, history) := test o history condPart
      (if outcome then .block thenPart :: k else k, history)
  | .stmt (.condElse condPart thenPart elsePart) =>
      let (outcome, history) := test o history condPart
      (.block (if outcome then thenPart else elsePart) :: k, history)
  | .stmt (.loop declPart testPart incPart body) =>
      (.test testPart incPart body :: k, evaluate history declPart)
  | .stmt (.block b) => (.block b :: k, history)
  | .block .nil => (k, history)
  | .block (.cons s rest) => (.stmt s :: .block rest :: k, history)
  | .test testPart incPart body =>
      let (outcome, history) := test o history testPart
      (if outcome then .block body :: .inc testPart incPart body :: k else k, history)
  | .inc testPart incPart body => (.test testPart incPart body :: k, evaluate history incPart)

/-- The structured body. -/
def structured (o : Outcome) : Machine (List Frame × List Event) (List Event) where
  next
    | ([], _) => none
    | (f :: k, history) => some (frameStep o f k history)
  obs := Prod.snd

/-! ## The member functions -/

/-- The name of a member function: the first one, or `<base>cont_<n>`. -/
inductive Label
  | runDynamic
  | cont (base : String) (n : Nat)
  deriving DecidableEq

/-- What is printed into a member function. -/
inductive Code
  /-- `e;` -/
  | eval (e : Expr)
  /-- A control statement or a block as it stands. -/
  | write (s : Stmt)
  /-- `if( ! (e) ) { return fn(); }` -/
  | jumpUnless (e : Expr) (fn : Label)
  /-- `return fn();` -/
  | jump (fn : Label)
  /-- `return sync_hook(_completion, new MethodCallTask<fn>(this));` -/
  | syncHook (fn : Label)
  /-- `if(useContinuation()) return new MethodCallTask<fn>(this); else return fn();` -/
  | continuation (fn : Label)
  /-- `RETURN_VOID;` -/
  | returnVoid

/-- The functions that were ended, the one being printed, and `_contCounter`. -/
structure CodeGenerator where
  funcs : List (Label × List Code)
  name : Label
  body : List Code
  contCounter : Nat

namespace CodeGenerator

variable (g : CodeGenerator)

def write (c : Code) : CodeGenerator := { g with body := g.body ++ [c] }

def nextContName (base : String) : Label × CodeGenerator :=
  (.cont base g.contCounter, { g with contCounter := g.contCounter + 1 })

def endFunc : List (Label × List Code) := g.funcs ++ [(g.name, g.body)]

/-- `endFunc` and `beginFunc`. -/
def beginFunc (fn : Label) : CodeGenerator := { g with funcs := g.endFunc, name := fn, body := [] }

def continueJump (fn : Label) : CodeGenerator := g.write (.jump fn)

def continueLabel (fn : Label) : CodeGenerator := (g.continueJump fn).beginFunc fn

/-- Without continuations, the function goes on. -/
def continuationPoint (disableContinuations : Bool) : CodeGenerator :=
  if disableContinuations then g
  else
    let (n, g) := g.nextContName ""
    (g.write (.continuation n)).beginFunc n

def continuationRequired : CodeGenerator :=
  let (n, g) := g.nextContName ""
  (g.write (.syncHook n)).beginFunc n

end CodeGenerator

/-- `_breakTargets` and `_continueTargets`, the innermost ones first. -/
abbrev Targets := List (Label × Label)

/-- `DynamicBodyPrintPass::before` of a statement without parts; `break` and `continue` need a
    loop. -/
def beforeBasic (disableContinuations : Bool) (targets : Targets) (e : Expr)
    (g : CodeGenerator) : Option CodeGenerator :=
  if "break" ∈ e then targets.head?.map fun t => g.continueJump t.1
  else if "continue" ∈ e then targets.head?.map fun t => g.continueJump t.2
  else if "SYNC" ∈ e then some g.continuationRequired
  else if "CALL" ∈ e then some (g.write (.eval e)).continuationRequired
  else if "SPAWN" ∈ e then some ((g.write (.eval e)).continuationPoint disableContinuations)
  else some (g.write (.eval e))

mutual

/-- `DynamicBodyPrintPass::before`. -/
def Stmt.before (disableContinuations : Bool) (targets : Targets) :
    Stmt → CodeGenerator → Option CodeGenerator
  | .basic e, g => beforeBasic disableContinuations targets e g
  | .cond condPart thenPart, g =>
      if (Stmt.cond condPart thenPart).expanded then do
        let (jthen, g) := g.nextContName "then_"
        let (_, g) := g.nextContName "else_"
        let (jafter, g) := g.nextContName "after_"
        let g := (g.write (.jumpUnless condPart jafter)).continueLabel jthen
        let g ← thenPart.accept disableContinuations targets g
        some (g.continueLabel jafter)
      else some (g.write (.write (.cond condPart thenPart)))
  | .condElse condPart thenPart elsePart, g =>
      if (Stmt.condElse condPart thenPart elsePart).expanded then do
        let (jthen, g) := g.nextContName "then_"
        let (jelse, g) := g.nextContName "else_"
        let (jafter, g) := g.nextContName "after_"
        let g := (g.write (.jumpUnless condPart jelse)).continueLabel jthen
        let g ← thenPart.accept disableContinuations targets g
        let g := (g.continueJump jafter).continueLabel jelse
        let g ← elsePart.accept disableContinuations targets g
        some (g.continueLabel jafter)
      else some (g.write (.write (.condElse condPart thenPart elsePart)))
  | .loop declPart testPart incPart body, g =>
      if (Stmt.loop declPart testPart incPart body).expanded then do
        let (jbody, g) := g.nextContName "loopbody_"
        let (jinc, g) := g.nextContName "increment_"
        let (jafter, g) := g.nextContName "after_"
        let g := (g.write (.eval declPart)).continueLabel jbody
        let g := g.write (.jumpUnless testPart jafter)
        let g ← body.accept disableContinuations ((jafter, jinc) :: targets) g
        let g := ((g.continueLabel jinc).write (.eval incPart)).continueJump jbody
        some (g.continueLabel jafter)
      else some (g.write (.write (.loop declPart testPart incPart body)))
  | .block b, g =>
      if (Stmt.block b).expanded then b.accept disableContinuations targets g
      else some (g.write (.write (.block b)))

/-- `RIRBlock::accept`. -/
def Block.accept (disableContinuations : Bool) (targets : Targets) :
    Block → CodeGenerator → Option CodeGenerator
  | .nil, g => some g
  | .cons s rest, g => do
      let g ← s.before disableContinuations targets g
      rest.accept disableContinuations targets g

end

/-- The member functions of a rule. -/
abbrev Program := List (Label × List Code)

/-- What is printed for a body, the counter being where it was left before. -/
def generate (disableContinuations : Bool) (contCounter : Nat) (body : Block) : Option Program := do
  let g ← body.accept disableContinuations [] ⟨[], .runDynamic, [], contCounter⟩
  some (g.write .returnVoid).endFunc

/-- The condition of an `if` must not be empty. -/
def Code.compiles : Code → Bool
  | .jumpUnless e _ => e ≠ []
  | _ => true

def Compiles (p : Program) : Prop := ∀ f ∈ p, ∀ c ∈ f.2, c.compiles = true

/-- The body of a function. -/
def lookup (p : Program) (fn : Label) : List Code :=
  match p.find? fun f => f.1 = fn with
  | some f => f.2
  | none => []

/-- A program between two steps: a statement that runs as it stands, and the code behind it. -/
structure Position where
  raw : List Frame
  code : List Code

def Position.start (p : Program) (fn : Label) : Position := ⟨[], lookup p fn⟩

/-- A `RETURN` ends the function, and the rule. -/
def rawStep (o : Outcome) (f : Frame) (k : List Frame) (code : List Code)
    (history : List Event) : Position × List Event :=
  match f with
  | .stmt (.basic e) =>
      if returns e then (⟨[], []⟩, evaluate history e)
      else
        let (k, history) := frameStep o f k history
        (⟨k, code⟩, history)
  | _ =>
      let (k, history) := frameStep o f k history
      (⟨k, code⟩, history)

/-- One step of a member function; continuations are run in order. -/
def codeStep (p : Program) (o : Outcome) (c : Code) (rest : List Code) (history : List Event) :
    Position × List Event :=
  match c with
  | .eval e => (⟨[], if returns e then [] else rest⟩, evaluate history e)
  | .write s => (⟨[.stmt s], rest⟩, history)
  | .jumpUnless e fn =>
      let (outcome, history) := test o history e
      (if outcome then ⟨[], rest⟩ else .start p fn, history)
  | .jump fn => (.start p fn, history)
  | .syncHook fn => (.start p fn, history ++ [.sync])
  | .continuation fn => (.start p fn, history)
  | .returnVoid => (⟨[], []⟩, history)

/-- The member functions. -/
def emitted (p : Program) (o : Outcome) : Machine (Position × List Event) (List Event) where
  next
    | (⟨f :: k, code⟩, history) => some (rawStep o f k code history)
    | (⟨[], c :: rest⟩, history) => some (codeStep p o c rest history)
    | (⟨[], []⟩, _) => none
  obs := Prod.snd

end PbRuleBody
