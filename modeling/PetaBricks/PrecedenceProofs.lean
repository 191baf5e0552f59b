import Mathlib.Data.List.Basic
import Mathlib.Order.Nat
import Mathlib.Tactic.Common

/-! # Expressions by precedence

    An operator-precedence parser: one pass over the tokens with a stack of what still waits
    for an operand.  Binary operators are left associative and have a level, the tighter the
    higher; unary ones bind tightest.  The grammar is a parameter.

    `Reads n ts e` says that the tokens `ts` are read as `e` wherever an operand with no
    operator below level `n` may stand; its rules follow the ways a text is put together. -/

namespace PbPrecedence

/-- What the tokens are. -/
structure Grammar (T A U O : Type) where
  atom : T → Option A
  unary : T → Option U
  binary : T → Option O
  level : O → Nat
  isOpen : T → Bool
  isClose : T → Bool

inductive Tree (A U O : Type)
  | atom (a : A)
  | unary (u : U) (e : Tree A U O)
  | binary (o : O) (l r : Tree A U O)
  deriving DecidableEq

/-- What waits for an operand. -/
inductive Frame (A U O : Type)
  | paren
  | unary (u : U)
  | binary (o : O) (l : Tree A U O)
  deriving DecidableEq

/-- Between two tokens an operand is due, or an operator after one. -/
inductive State (A U O : Type)
  | operand (s : List (Frame A U O))
  | operator (s : List (Frame A U O)) (e : Tree A U O)
  deriving DecidableEq

namespace Grammar

variable {T A U O : Type} (G : Grammar T A U O)

/-- Unary operators take the operand at once. -/
def settle : List (Frame A U O) → Tree A U O → State A U O
  | .unary u :: s, e => settle s (.unary u e)
  | s, e => .operator s e

/-- The operators of at least level `n` on top of the stack take the operand. -/
def reduce (n : Nat) : List (Frame A U O) → Tree A U O → List (Frame A U O) × Tree A U O
  | .binary o l :: s, e =>
      if n ≤ G.level o then reduce n s (.binary o l e) else (.binary o l :: s, e)
  | s, e => (s, e)

def step : State A U O → T → Option (State A U O)
  | .operand s, t =>
      match G.atom t, G.unary t with
      | some a, _ => some (settle s (.atom a))
      | none, some u => some (.operand (.unary u :: s))
      | none, none => if G.isOpen t then some (.operand (.paren :: s)) else none
  | .operator s e, t =>
      match G.binary t with
      | some o =>
          let r := G.reduce (G.level o) s e
          some (.operand (.binary o r.2 :: r.1))
      | none =>
          if G.isClose t then
            match G.reduce 0 s e with
            | (.paren :: s, e) => some (settle s e)
            | _ => none
          else none

def run (q : State A U O) : List T → Option (State A U O)
  | [] => some q
  | t :: ts => (G.step q t).bind fun q => run q ts

/-- The expression of a whole text. -/
def parse (ts : List T) : Option (Tree A U O) :=
  match G.run (.operand []) ts with
  | some (.operator s e) =>
      match G.reduce 0 s e with
      | ([], e) => some e
      | _ => none
  | _ => none

variable {G}

theorem run_append {q q' : State A U O} {ts us : List T} (h : G.run q ts = some q') :
    G.run q (ts ++ us) = G.run q' us := by
  induction ts generalizing q with
  | nil =>
      cases h
      rfl
  | cons t ts ih =>
      obtain ⟨r, hr, h⟩ := Option.bind_eq_some_iff.mp h
      show (G.step q t).bind _ = _
      rw [hr]
      exact ih h

theorem run_cons {q q' : State A U O} {t : T} {us : List T} (h : G.step q t = some q') :
    G.run q (t :: us) = G.run q' us := by
  show (G.step q t).bind _ = _
  rw [h]
  rfl

theorem step_atom {s : List (Frame A U O)} {t : T} {a : A} (h : G.atom t = some a) :
    G.step (.operand s) t = some (settle s (.atom a)) := by
  simp only [step, h]

theorem step_unary {s : List (Frame A U O)} {t : T} {u : U} (ha : G.atom t = none)
    (hu : G.unary t = some u) : G.step (.operand s) t = some (.operand (.unary u :: s)) := by
  simp only [step, ha, hu]

theorem step_open {s : List (Frame A U O)} {t : T} (ha : G.atom t = none)
    (hu : G.unary t = none) (h : G.isOpen t = true) :
    G.step (.operand s) t = some (.operand (.paren :: s)) := by
  simp only [step, ha, hu, h, if_true]

theorem step_binary {s s' : List (Frame A U O)} {e e' : Tree A U O} {t : T} {o : O}
    (h : G.binary t = some o) (hr : G.reduce (G.level o) s e = (s', e')) :
    G.step (.operator s e) t = some (.operand (.binary o e' :: s')) := by
  simp only [step, h, hr]

theorem step_close {s s' : List (Frame A U O)} {e e' : Tree A U O} {t : T}
    (hb : G.binary t = none) (h : G.isClose t = true)
    (hr : G.reduce 0 s e = (.paren :: s', e')) :
    G.step (.operator s e) t = some (settle s' e') := by
  simp only [step, hb, h, hr, if_true]

/-! ## Operands -/

/-- What an operator of level `n` may be read after. -/
def Below (G : Grammar T A U O) (n : Nat) : List (Frame A U O) → Prop
  | .binary o _ :: _ => G.level o < n
  | .unary _ :: _ => False
  | _ => True

theorem Below.mono {n m : Nat} (hnm : n ≤ m) {s : List (Frame A U O)} (h : G.Below n s) :
    G.Below m s := by
  match s, h with
  | [], _ => trivial
  | .paren :: s, _ => trivial
  | .binary o l :: s, h => exact lt_of_lt_of_le h hnm

theorem Below.settle {n : Nat} {s : List (Frame A U O)} (h : G.Below n s) (e : Tree A U O) :
    Grammar.settle s e = .operator s e := by
  match s, h with
  | [], _ => rfl
  | .paren :: s, _ => rfl
  | .binary o l :: s, _ => rfl

theorem Below.reduce {n : Nat} {s : List (Frame A U O)} (h : G.Below n s) (e : Tree A U O) :
    G.reduce n s e = (s, e) := by
  match s, h with
  | [], _ => rfl
  | .paren :: s, _ => rfl
  | .binary o l :: s, h => exact if_neg (not_le.mpr h)

/-- An operand of a unary operator. -/
def Operand (G : Grammar T A U O) (ts : List T) (e : Tree A U O) : Prop :=
  ∀ s, G.run (.operand s) ts = some (settle s e)

/-- Read as `e` where no operator from level `n` on waits: the operators that wait then are
    above level `n`, and give `e` once they are taken. -/
def Reads (G : Grammar T A U O) (n : Nat) (ts : List T) (e : Tree A U O) : Prop :=
  ∀ s, G.Below n s → ∃ s' e', G.run (.operand s) ts = some (.operator s' e')
    ∧ ∀ m ≤ n, G.reduce m s' e' = G.reduce m s e

theorem Operand.atom {t : T} {a : A} (h : G.atom t = some a) : G.Operand [t] (.atom a) :=
  fun _ => run_cons (step_atom h)

theorem Operand.unary {t : T} {u : U} {ts : List T} {e : Tree A U O} (ha : G.atom t = none)
    (hu : G.unary t = some u) (h : G.Operand ts e) : G.Operand (t :: ts) (.unary u e) := by
  intro s
  rw [run_cons (step_unary ha hu)]
  exact h (.unary u :: s)

theorem Reads.paren {n : Nat} {t u : T} {ts : List T} {e : Tree A U O} (hta : G.atom t = none)
    (htu : G.unary t = none) (ht : G.isOpen t = true) (hub : G.binary u = none)
    (hu : G.isClose u = true) (h : G.Reads n ts e) : G.Operand (t :: ts ++ [u]) e := by
  intro s
  obtain ⟨s', e', hrun, hred⟩ := h (.paren :: s) trivial
  rw [List.cons_append, run_cons (step_open hta htu ht), run_append hrun]
  exact run_cons (step_close hub hu (hred 0 (Nat.zero_le n)))

theorem Operand.reads {ts : List T} {e : Tree A U O} (h : G.Operand ts e) (n : Nat) :
    G.Reads n ts e :=
  fun s hs => ⟨s, e, by rw [h s, hs.settle], fun _ _ => rfl⟩

theorem Reads.mono {n m : Nat} (hnm : n ≤ m) {ts : List T} {e : Tree A U O}
    (h : G.Reads m ts e) : G.Reads n ts e := by
  intro s hs
  obtain ⟨s', e', hrun, hred⟩ := h s (hs.mono hnm)
  exact ⟨s', e', hrun, fun k hk => hred k (le_trans hk hnm)⟩

/-- **A BINARY OPERATOR BETWEEN TWO OPERANDS**: the left one may use its level, the right one
    only what is tighter. -/
theorem Reads.binary {n m : Nat} {t : T} {o : O} {ts us : List T} {e f : Tree A U O}
    (he : G.Reads n ts e) (ht : G.binary t = some o) (hf : G.Reads m us f)
    (hn : G.level o ≤ n) (hm : G.level o < m) :
    G.Reads (G.level o) (ts ++ t :: us) (.binary o e f) := by
  intro s hs
  obtain ⟨s1, e1, hrun, hred⟩ := he s (hs.mono hn)
  -- what waited below the left operand waits on
  have hleft : G.reduce (G.level o) s1 e1 = (s, e) := by rw [hred _ hn, hs.reduce]
  -- the right operand is read above the operator, which is taken after it
  obtain ⟨s2, e2, hrun2, hred2⟩ := hf (.binary o e :: s) hm
  refine ⟨s2, e2, by rw [run_append hrun, run_cons (step_binary ht hleft), hrun2],
    fun k hk => ?_⟩
  rw [hred2 k (le_trans hk hm.le)]
  exact if_pos hk

theorem Reads.parse {n : Nat} {ts : List T} {e : Tree A U O} (h : G.Reads n ts e) :
    G.parse ts = some e := by
  obtain ⟨s, e', hrun, hred⟩ := h [] trivial
  have h0 : G.reduce 0 s e' = ([], e) := hred 0 (Nat.zero_le n)
  rw [Grammar.parse, hrun]
  show (match G.reduce 0 s e' with
    | ([], e) => some e
    | _ => none) = _
  rw [h0]

/-! ## Chains of one operator -/

/-- The tree of operands joined from the left. -/
def joined (o : O) (e : Tree A U O) (es : List (Tree A U O)) : Tree A U O :=
  es.foldl (.binary o) e

/-- Operands tighter than `o`, with `o` between them. -/
inductive Chain (G : Grammar T A U O) (o : O) : List T → Tree A U O → List (Tree A U O) → Prop
  | one {ts e} : G.Reads (G.level o + 1) ts e → Chain G o ts e []
  | snoc {ts e es t us f} : Chain G o ts e es → G.binary t = some o →
      G.Reads (G.level o + 1) us f → Chain G o (ts ++ t :: us) e (es ++ [f])

variable {o : O}

theorem Chain.append {t : T} {ts us : List T} {e f : Tree A U O} {es fs : List (Tree A U O)}
    (he : G.Chain o ts e es) (ht : G.binary t = some o) (hf : G.Chain o us f fs) :
    G.Chain o (ts ++ t :: us) e (es ++ f :: fs) := by
  induction hf with
  | one h => exact .snoc he ht h
  | snoc _ hu h ih =>
      have happ := Chain.snoc ih hu h
      simpa only [List.append_assoc, List.cons_append] using happ

/-- **A CHAIN IS READ FROM THE LEFT.** -/
theorem Chain.reads {ts : List T} {e : Tree A U O} {es : List (Tree A U O)}
    (h : G.Chain o ts e es) : G.Reads (G.level o) ts (joined o e es) := by
  induction h with
  | one h => exact h.mono (Nat.le_succ _)
  | @snoc ts e es t us f _ ht hf ih =>
      have hj : joined o e (es ++ [f]) = .binary o (joined o e es) f :=
        List.foldl_concat _ _ _ _
      rw [hj]
      exact ih.binary ht hf le_rfl (Nat.lt_succ_self _)

/-- A chain is one operand of a looser operator. -/
theorem Chain.operand {p : O} (hp : G.level p < G.level o) {ts : List T} {e : Tree A U O}
    {es : List (Tree A U O)} (h : G.Chain o ts e es) : G.Chain p ts (joined o e es) [] :=
  .one (h.reads.mono hp)

end Grammar

/-! ## Values of chains -/

section Values

variable {A U O V : Type} (val : Tree A U O → Option V) (op : V → V → Option V)

/-- A chain evaluated from the left. -/
inductive ChainValue : Tree A U O → List (Tree A U O) → V → Prop
  | one {e v} : val e = some v → ChainValue e [] v
  | snoc {e es a f b v} : ChainValue e es a → val f = some b → op a b = some v →
      ChainValue e (es ++ [f]) v

variable {val op}

theorem ChainValue.joined {o : O}
    (hop : ∀ l r a b v, val l = some a → val r = some b → op a b = some v →
      val (.binary o l r) = some v)
    {e : Tree A U O} {es : List (Tree A U O)} {v : V} (h : ChainValue val op e es v) :
    val (Grammar.joined o e es) = some v := by
  induction h with
  | one h => exact h
  | @snoc es a f b v _ hf hv ih =>
      have hj : Grammar.joined o e (es ++ [f]) = .binary o (Grammar.joined o e es) f :=
        List.foldl_concat _ _ _ _
      rw [hj]
      exact hop _ _ _ _ _ ih hf hv

/-- **CHAINS OF AN ASSOCIATIVE OPERATOR** may be strung together. -/
theorem ChainValue.append
    (hassoc : ∀ a b c x v, op b c = some x → op a x = some v →
      ∃ y, op a b = some y ∧ op y c = some v)
    {e f : Tree A U O} {es fs : List (Tree A U O)} {a b v : V}
    (he : ChainValue val op e es a) (hf : ChainValue val op f fs b) (hv : op a b = some v) :
    ChainValue val op e (es ++ f :: fs) v := by
  induction hf generalizing v with
  | one h => exact .snoc he h hv
  | @snoc fs c g d x _ hg hx ih =>
      obtain ⟨y, hy, hyv⟩ := hassoc _ _ _ _ _ hx hv
      have happ := ChainValue.snoc (ih hy) hg hyv
      simpa only [List.append_assoc, List.cons_append] using happ

end Values

end PbPrecedence
