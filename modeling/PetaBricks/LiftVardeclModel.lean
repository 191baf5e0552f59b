import PetaBricks.DecimalFractionProofs
import PetaBricks.ScopingProofs

/-! # `LiftVardeclPass` — the local variables of a rule body become members of its class

    The body of a rule is split into member functions, so a local variable has to live in the
    object.  The pass takes the declarations out of the body, adds a member for each, and puts
    the member's name where the variable's is.

    An identifier carries what is known of its place in the source, which the pass hands on but
    never looks at.  Texts that the source concatenates are kept as the elements that they are
    put together from. -/

namespace PbLiftVardecl

open PbDecimal
open PbScoping (Env)

abbrev Name := List Char

/-! ## The rule IR -/

/-- The types of an `RIRExpr` without parts. -/
inductive LeafType where
  | nil | op | lit | keyword
  deriving DecidableEq

/-- The types of an `RIRExpr` with parts. -/
inductive NodeType where
  | chain | call | args
  deriving DecidableEq

/-- `RIRExpr`. -/
inductive Expr (A : Type) where
  | leaf (type : LeafType) (str : Name)
  | ident (source : A) (str : Name)
  | node (type : NodeType) (parts : List (Expr A))

inductive ControlType where
  | loop | cond | switch
  deriving DecidableEq

/-- `RIRStmt`.  A control statement has its expressions, and the statements that it controls. -/
inductive Stmt (A : Type) where
  | basic (exprs : List (Expr A))
  | block (stmts : List (Stmt A))
  | control (type : ControlType) (exprs : List (Expr A)) (parts : List (Stmt A))
  /-- Text that is printed as it is, here the C++ tokens in it. -/
  | raw (src : List (Expr A))

variable {A : Type}

mutual

/-- `RIRExpr::toString`. -/
def Expr.text : Expr A → Name
  | .leaf _ s => s
  | .ident _ s => s
  | .node .chain parts => [' '].intercalate (texts parts)
  | .node .args parts => [',', ' '].intercalate (texts parts)
  | .node .call parts =>
      (texts parts).dropLast.flatten ++ '(' :: (texts parts).getLastD [] ++ [')']

def texts : List (Expr A) → List Name
  | [] => []
  | e :: es => e.text :: texts es

end

/-- `RIRExpr::isLeaf`. -/
def Expr.isLeaf (val : Name) : Expr A → Bool
  | .leaf _ s => s == val
  | .ident _ s => s == val
  | .node _ parts => parts.isEmpty && val.isEmpty

def Expr.isIdent : Expr A → Bool
  | .ident _ _ => true
  | _ => false

mutual

/-- The identifiers, from left to right. -/
def Expr.idents : Expr A → List (A × Name)
  | .leaf _ _ => []
  | .ident a s => [(a, s)]
  | .node _ parts => identsExprs parts

def identsExprs : List (Expr A) → List (A × Name)
  | [] => []
  | e :: es => e.idents ++ identsExprs es

end

mutual

def Stmt.idents : Stmt A → List (A × Name)
  | .basic es => identsExprs es
  | .block ss => identsStmts ss
  | .control _ es parts => identsExprs es ++ identsStmts parts
  | .raw src => identsExprs src

def identsStmts : List (Stmt A) → List (A × Name)
  | [] => []
  | s :: ss => s.idents ++ identsStmts ss

end

/-! ## Scopes -/

/-- `RIRSymbol`: a type, or a local variable with its replacement, which may be empty. -/
inductive Symbol where
  | type
  | localVar (replacement : Name)
  deriving DecidableEq

/-- The symbols of one `RIRScope`, the latest first. -/
abbrev Layer := List (Name × Symbol)

def maxDimensions : ℕ := 64

/-- `_makeTypeScope`. -/
def typeScope : List Name :=
  ["bool".toList, "char".toList, "short".toList, "int".toList, "long".toList, "float".toList,
    "double".toList, "size_t".toList, "IndexT".toList, "ElementT".toList] ++
  (List.range (maxDimensions + 1)).flatMap fun i =>
    let regions := ["MatrixRegion".toList ++ digitsText i ++ ['D'],
      "ConstMatrixRegion".toList ++ digitsText i ++ ['D']]
    regions ++ ["sequential::".toList, "workstealing::".toList, "distributed::".toList,
      "opencl::".toList].flatMap fun rf => regions.map (rf ++ ·)

/-- `RIRScope::lookup`, from the innermost layer. -/
def lookup : List Layer → Name → Option Symbol
  | [], s => if s ∈ typeScope then some .type else none
  | l :: ls, s => match l.lookup s with
      | some sym => some sym
      | none => lookup ls s

/-- The replacement of an identifier, which is looked up again.  Each is longer than the one
    before, so no symbol comes twice, and the number of symbols is enough. -/
def replaced (scope : List Layer) : ℕ → Name → Name
  | 0, s => s
  | fuel + 1, s => match lookup scope s with
      | some (.localVar r) => if r ≠ [] ∧ r ≠ s then replaced scope fuel r else s
      | _ => s

/-! ## The pass -/

/-- What is handed to `addMember`, and for which identifier. -/
structure Member (A : Type) where
  source : A
  type : List (Expr A)
  name : Name
  extra : List (Expr A)

/-- The type and the name that `addMember` gets. -/
def Member.key (m : Member A) : Name × Name :=
  ((texts m.type).flatten, m.name ++ (texts m.extra).flatten)

def Member.idents (m : Member A) : List (A × Name) := identsExprs (m.type ++ m.extra)

structure LiftVardeclPass (A : Type) where
  /-- The layers over the types' scope, the innermost first. -/
  scope : List Layer
  /-- The back of the vector first. -/
  prefixStack : List ℤ
  members : List (Member A)

namespace LiftVardeclPass

def start : LiftVardeclPass A := ⟨[[]], [], []⟩

/-- The method `prefix`. -/
def prefixText (p : LiftVardeclPass A) : Name :=
  'b' :: ['b'].intercalate (p.prefixStack.tail.reverse.map intText) ++ "local_".toList

/-- In front of a block: a layer is created, and `pushScope` called. -/
def pushScope (p : LiftVardeclPass A) : LiftVardeclPass A :=
  { p with
    scope := [] :: p.scope
    prefixStack := match p.prefixStack with
      | [] => [-1, 0]
      | i :: is => -1 :: (i + 1) :: is }

def popScope (p : LiftVardeclPass A) : LiftVardeclPass A :=
  { p with scope := p.scope.tail, prefixStack := p.prefixStack.tail }

/-- The number of symbols in the layers. -/
def symbols (p : LiftVardeclPass A) : ℕ := (p.scope.map List.length).sum

/-- Two symbols are set: the variable's, and one for the member's name without a replacement. -/
def declare (p : LiftVardeclPass A) (name : Name) (m : Member A) : LiftVardeclPass A :=
  { p with
    scope := match p.scope with
      | [] => [[(m.name, .localVar []), (name, .localVar m.name)]]
      | l :: ls => ((m.name, .localVar []) :: (name, .localVar m.name) :: l) :: ls
    members := p.members ++ [m] }

end LiftVardeclPass

abbrev Expr.isStar (e : Expr A) : Bool := e.isLeaf ['*']

def stars (fwd : List (Expr A)) : List (Expr A) := fwd.takeWhile Expr.isStar

def behindStars (fwd : List (Expr A)) : List (Expr A) := fwd.dropWhile Expr.isStar

/-- "it smells like a variable declaration": what follows the type is an identifier or a star. -/
def smells : List (Expr A) → Bool
  | [] => false
  | e :: _ => e.isIdent || e.isStar

/-- Everything up to the closing bracket; none where there is no such bracket. -/
def closing : List (Expr A) → Option (List (Expr A))
  | [] => none
  | e :: es => if e.isLeaf [']'] then some [e] else (closing es).map (e :: ·)

/-- `nameExtra`, of what follows the name; none where an assertion fails. -/
def nameExtra : List (Expr A) → Option (List (Expr A))
  | [] => some []
  | e :: es =>
      if e.isLeaf [','] then none
      else if e.isLeaf ['['] then closing (e :: es)
      else some []

/-- The identifier that is declared. -/
def Expr.sourceOr (a : A) : Expr A → A
  | .ident b _ => b
  | _ => a

/-- `addMember`, which asserts that the member is new; its name stands for the declaration. -/
def LiftVardeclPass.addMember (p : LiftVardeclPass A) (name : Name) (m : Member A) (pops : ℕ) :
    Option (LiftVardeclPass A × List (Expr A) × ℕ) :=
  if m.key ∈ p.members.map Member.key then none
  else some (p.declare name m, [.ident m.source m.name], pops)

/-- `before`, at an identifier: the state, what stands in its place, and how many of the elements
    behind it are popped; none where an assertion fails. -/
def LiftVardeclPass.before (p : LiftVardeclPass A) (first : Bool) (a : A) (s : Name)
    (fwd : List (Expr A)) : Option (LiftVardeclPass A × List (Expr A) × ℕ) :=
  let e := replaced p.scope (p.symbols + 1) s
  if first = true ∧ lookup p.scope e = some .type ∧ smells fwd = true then
    match behindStars fwd with
    | [] =>
        -- nothing but stars: they are parsed again, and pushed forward
        let again := List.replicate (stars fwd).length (.node .chain [.leaf .op ['*']])
        some (p, .ident a e :: again, (stars fwd).length)
    | y :: ys =>
        (nameExtra ys).bind fun extra =>
          p.addMember y.text ⟨y.sourceOr a, .ident a e :: stars fwd, p.prefixText ++ y.text, extra⟩
            ((stars fwd).length + 1 + extra.length)
  else some (p, [.ident a e], 0)

mutual

/-- `_visithelper`, of one element of a list, with those behind it. -/
def visitExpr (first : Bool) (fwd : List (Expr A)) :
    Expr A → LiftVardeclPass A → Option (LiftVardeclPass A × List (Expr A) × ℕ)
  | .leaf t s, p => some (p, [.leaf t s], 0)
  | .ident a s, p => p.before first a s fwd
  | .node t parts, p => (visitExprs parts p [] 0).map fun r => (r.1, [.node t r.2], 0)

/-- `_visitlisthelper`: what is behind, and how many of the elements in front have been popped. -/
def visitExprs : List (Expr A) → LiftVardeclPass A → List (Expr A) → ℕ →
    Option (LiftVardeclPass A × List (Expr A))
  | [], p, bk, _ => some (p, bk)
  | e :: fwd, p, bk, 0 => (visitExpr bk.isEmpty fwd e p).bind fun r =>
      visitExprs fwd r.1 (bk ++ r.2.1) r.2.2
  | _ :: fwd, p, bk, pops + 1 => visitExprs fwd p bk pops

end

mutual

/-- `accept` of a statement. -/
def visitStmt : Stmt A → LiftVardeclPass A → Option (LiftVardeclPass A × Stmt A)
  | .basic es, p => (visitExprs es p [] 0).map fun r => (r.1, .basic r.2)
  | .block ss, p => (visitStmts ss p.pushScope).map fun r => (r.1.popScope, .block r.2)
  | .control t es parts, p => (visitExprs es p [] 0).bind fun r =>
      (visitStmts parts r.1).map fun q => (q.1, .control t r.2 q.2)
  | .raw src, p => some (p, .raw src)

def visitStmts : List (Stmt A) → LiftVardeclPass A →
    Option (LiftVardeclPass A × List (Stmt A))
  | [], p => some (p, [])
  | s :: ss, p => (visitStmt s p).bind fun r =>
      (visitStmts ss r.1).map fun q => (q.1, r.2 :: q.2)

end

/-- The body after the pass, and the members. -/
def liftVardecl (body : List (Stmt A)) : Option (List (Stmt A) × List (Member A)) :=
  (visitStmts body .start).map fun r => (r.2, r.1.members)

/-! ## What C++ makes of the body -/

/-- What an identifier is where it stands: a name that is looked up, one that is not (behind a
    `.`, `->` or `::`), or the name that is declared there. -/
inductive Role where
  | name | other | declared
  deriving DecidableEq

/-- An identifier of the body, and the declaration of a local variable that C++ scoping gives it.
    Declarations are numbered, and reach from the name to the end of the scope. -/
structure Occurrence where
  role : Role
  name : Name
  decl : Option ℕ
  /-- The declaration of this name that the innermost block with one holds, also when the
      scope of that declaration has ended. -/
  near : Option ℕ
  /-- Does the innermost block hold the name? -/
  again : Bool

def occurrence (e : Env Name) (r : Role) (s : Name) : Occurrence where
  role := r
  name := s
  decl := match r with
    | .name => e.find s
    | .other => none
    | .declared => some e.decls.length
  near := e.near s
  again := e.again s

def see (e : Env Name) : Role → Name → Env Name
  | .declared, s => e.declare s
  | _, _ => e

mutual

def bindExpr : Expr Role → Env Name → Env Name × Expr Occurrence
  | .leaf t s, e => (e, .leaf t s)
  | .ident r s, e => (see e r s, .ident (occurrence e r s) s)
  | .node t parts, e => ((bindExprs parts e).1, .node t (bindExprs parts e).2)

def bindExprs : List (Expr Role) → Env Name → Env Name × List (Expr Occurrence)
  | [], e => (e, [])
  | x :: xs, e =>
      ((bindExprs xs (bindExpr x e).1).1, (bindExpr x e).2 :: (bindExprs xs (bindExpr x e).1).2)

end

mutual

/-- A block is a scope, and so is a control statement, and each statement that it controls. -/
def bindStmt : Stmt Role → Env Name → Env Name × Stmt Occurrence
  | .basic es, e => ((bindExprs es e).1, .basic (bindExprs es e).2)
  | .block ss, e =>
      ((bindStmts ss e.openBlock).1.closeBlock, .block (bindStmts ss e.openBlock).2)
  | .control t es parts, e =>
      let r := bindExprs es e.openScope
      ((bindParts parts r.1).1.closeScope, .control t r.2 (bindParts parts r.1).2)
  | .raw src, e => ((bindExprs src e).1, .raw (bindExprs src e).2)

def bindStmts : List (Stmt Role) → Env Name → Env Name × List (Stmt Occurrence)
  | [], e => (e, [])
  | s :: ss, e =>
      ((bindStmts ss (bindStmt s e).1).1, (bindStmt s e).2 :: (bindStmts ss (bindStmt s e).1).2)

def bindParts : List (Stmt Role) → Env Name → Env Name × List (Stmt Occurrence)
  | [], e => (e, [])
  | s :: ss, e =>
      let r := bindStmt s e.openScope
      ((bindParts ss r.1.closeScope).1, r.2 :: (bindParts ss r.1.closeScope).2)

end

/-- The body, with what C++ scoping says of its identifiers. -/
def bound (body : List (Stmt Role)) : List (Stmt Occurrence) := (bindStmts body Env.start).2

/-- The number of declarations. -/
def declarations (body : List (Stmt Role)) : ℕ := (bindStmts body Env.start).1.decls.length

/-- What an identifier is to be after the pass. -/
def Spelled (member : ℕ → Name) (o : Occurrence × Name) : Prop :=
  o.2 = match o.1.decl with
    | none => o.1.name
    | some n => member n

/-- **THE BINDING IS KEPT**: each declaration has a member of its own, an identifier that stands
    for a local variable has become the name of its member, and no other has changed. -/
def Right (body : List (Stmt Role)) : Prop :=
  ∃ out members, liftVardecl (bound body) = some (out, members) ∧ ∃ member : ℕ → Name,
    (∀ o ∈ identsStmts out ++ members.flatMap Member.idents, Spelled member o) ∧
    (∀ m ∈ members, m.source.role = .declared) ∧
    (∀ n < declarations body, ∃ m ∈ members, m.source.decl = some n ∧ m.name = member n) ∧
    ∀ n < declarations body, ∀ k < declarations body, member n = member k → n = k

end PbLiftVardecl
