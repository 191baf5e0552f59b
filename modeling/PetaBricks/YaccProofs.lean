import Mathlib.Data.List.Basic
import Mathlib.Order.Nat
import Mathlib.Tactic.Common

/-! # Expression grammars of yacc — conflicts settled by precedence

    The shift-reduce parser of an ambiguous expression grammar: binary and prefix operators,
    parentheses, calls, and conditionals whose `else` may be missing.  Where a rule is
    finished and the next token could also be shifted, the levels of the two decide, the
    tighter the higher, and on one level the associativity.

    Three things are said of a text here.  `Reads` gives the exact expression it is read as,
    as long as the next token is one of a set.  `Accepts` only says that it is read, wherever
    it stands.  `parse_forall` carries a property from the tokens to the expression. -/

namespace PbYacc

inductive Assoc
  | left | right | nonassoc
  deriving DecidableEq

/-- Tokens with a place of their own. -/
inductive Word
  | lparen | rparen | comma | kwIf | kwThen | kwElse
  deriving DecidableEq

structure Grammar (T E U O F : Type) where
  atom : T → Option E
  unary : T → Option U
  binary : T → Option O
  call : T → Option F
  word : T → Option Word
  level : O → ℕ
  assoc : O → Assoc
  unaryLevel : ℕ
  condLevel : ℕ
  mkUnary : U → E → E
  mkBinary : O → E → E → E
  mkIf : E → E → E
  mkIfElse : E → E → E → E
  mkCall : F → List E → Option E

/-- What is not finished: the part of a rule in front of the operand that is due. -/
inductive Frame (E U O F : Type)
  | paren
  | call (f : F) (args : List E)
  | unary (u : U)
  | binary (o : O) (l : E)
  | cond
  | thenPart (c : E)
  | elsePart (c t : E)

/-- What comes next: an operator, an `else`, or what cannot be shifted in a finished rule. -/
inductive Look (O : Type)
  | op (o : O)
  | els
  | other

inductive State (E U O F : Type)
  | operand (s : List (Frame E U O F))
  | opening (f : F) (s : List (Frame E U O F))
  | operator (s : List (Frame E U O F)) (e : E)

inductive Verdict
  | reduce | shift | error

namespace Grammar

variable {T E U O F : Type} (G : Grammar T E U O F)

/-- A finished rule against an operator. -/
def against (n : ℕ) (o : O) : Verdict :=
  if G.level o < n then .reduce
  else if G.level o = n then
    match G.assoc o with
    | .left => .reduce
    | .right => .shift
    | .nonassoc => .error
  else .shift

def verdict : Look O → Frame E U O F → Verdict
  | .op o, .unary _ => G.against G.unaryLevel o
  | .op o, .binary p _ => G.against (G.level p) o
  | .op o, .thenPart _ => G.against G.condLevel o
  | .op o, .elsePart _ _ => G.against G.condLevel o
  | .els, .thenPart _ => .shift
  | _, _ => .reduce

/-- What a rule gives that is finished by an operand. -/
def rule : Frame E U O F → E → Option E
  | .unary u, e => some (G.mkUnary u e)
  | .binary o l, e => some (G.mkBinary o l e)
  | .thenPart c, e => some (G.mkIf c e)
  | .elsePart c t, e => some (G.mkIfElse c t e)
  | _, _ => none

/-- The reductions in front of a token, until it can be shifted. -/
def reduce (k : Look O) : List (Frame E U O F) → E → Option (List (Frame E U O F) × E)
  | [], e => some ([], e)
  | f :: s, e =>
      match G.rule f e with
      | none => some (f :: s, e)
      | some e' =>
          match G.verdict k f with
          | .reduce => reduce k s e'
          | .shift => some (f :: s, e)
          | .error => none

/-- A token that is no operator is shifted into the rule it belongs to. -/
def close : Word → List (Frame E U O F) → E → Option (State E U O F)
  | .rparen, .paren :: s, e => some (.operator s e)
  | .rparen, .call f args :: s, e => (G.mkCall f (args ++ [e])).map (.operator s)
  | .comma, .call f args :: s, e => some (.operand (.call f (args ++ [e]) :: s))
  | .kwThen, .cond :: s, e => some (.operand (.thenPart e :: s))
  | .kwElse, .thenPart c :: s, e => some (.operand (.elsePart c e :: s))
  | _, _, _ => none

def Word.look : Word → Look O
  | .kwElse => .els
  | _ => .other

def step : State E U O F → T → Option (State E U O F)
  | .operand s, t =>
      match G.atom t, G.unary t, G.call t, G.word t with
      | some e, _, _, _ => some (.operator s e)
      | none, some u, _, _ => some (.operand (.unary u :: s))
      | none, none, some f, _ => some (.opening f s)
      | none, none, none, some .lparen => some (.operand (.paren :: s))
      | none, none, none, some .kwIf => some (.operand (.cond :: s))
      | _, _, _, _ => none
  | .opening f s, t => if G.word t = some .lparen then some (.operand (.call f [] :: s)) else none
  | .operator s e, t =>
      match G.binary t, G.word t with
      | some o, _ => (G.reduce (.op o) s e).map fun r => .operand (.binary o r.2 :: r.1)
      | none, some w => (G.reduce (Word.look w) s e).bind fun r => G.close w r.1 r.2
      | none, none => none

def run (q : State E U O F) : List T → Option (State E U O F)
  | [] => some q
  | t :: ts => (G.step q t).bind fun q => run q ts

/-- What is left at the end of the text. -/
def accept : State E U O F → Option E
  | .operator s e =>
      match G.reduce .other s e with
      | some ([], e) => some e
      | _ => none
  | _ => none

def parse (ts : List T) : Option E := (G.run (.operand []) ts).bind G.accept

variable {G}

theorem run_append (q : State E U O F) (ts us : List T) :
    G.run q (ts ++ us) = (G.run q ts).bind fun q => G.run q us := by
  induction ts generalizing q with
  | nil => rfl
  | cons t ts ih =>
      show (G.step q t).bind _ = ((G.step q t).bind _).bind _
      rw [Option.bind_assoc]
      congr 1
      funext q'
      exact ih q'

theorem run_append_some {q q' : State E U O F} {ts us : List T} (h : G.run q ts = some q') :
    G.run q (ts ++ us) = G.run q' us := by
  rw [run_append, h, Option.bind_some]

theorem run_cons_some {q q' : State E U O F} {t : T} {us : List T} (h : G.step q t = some q') :
    G.run q (t :: us) = G.run q' us := by
  show (G.step q t).bind _ = _
  rw [h, Option.bind_some]

theorem step_atom {s : List (Frame E U O F)} {t : T} {e : E} (h : G.atom t = some e) :
    G.step (.operand s) t = some (.operator s e) := by
  simp only [step, h]

theorem step_unary {s : List (Frame E U O F)} {t : T} {u : U} (ha : G.atom t = none)
    (h : G.unary t = some u) : G.step (.operand s) t = some (.operand (.unary u :: s)) := by
  simp only [step, ha, h]

theorem step_lparen {s : List (Frame E U O F)} {t : T} (ha : G.atom t = none)
    (hu : G.unary t = none) (hc : G.call t = none) (h : G.word t = some .lparen) :
    G.step (.operand s) t = some (.operand (.paren :: s)) := by
  simp only [step, ha, hu, hc, h]

theorem step_if {s : List (Frame E U O F)} {t : T} (ha : G.atom t = none)
    (hu : G.unary t = none) (hc : G.call t = none) (h : G.word t = some .kwIf) :
    G.step (.operand s) t = some (.operand (.cond :: s)) := by
  simp only [step, ha, hu, hc, h]

theorem step_binary {s s' : List (Frame E U O F)} {e e' : E} {t : T} {o : O}
    (h : G.binary t = some o) (hr : G.reduce (.op o) s e = some (s', e')) :
    G.step (.operator s e) t = some (.operand (.binary o e' :: s')) := by
  simp only [step, h, hr, Option.map_some]

theorem step_word {s s' : List (Frame E U O F)} {e e' : E} {t : T} {w : Word}
    (hb : G.binary t = none) (h : G.word t = some w)
    (hr : G.reduce (Word.look w) s e = some (s', e')) :
    G.step (.operator s e) t = G.close w s' e' := by
  simp only [step, hb, h, hr, Option.bind_some]

/-- Two tokens of which the second is an error wherever the first is none. -/
theorem run_two {a b : T} (h : ∀ q, (G.step q a).bind (fun q => G.step q b) = none)
    (q : State E U O F) (ts us : List T) : G.run q (ts ++ a :: b :: us) = none := by
  rw [run_append]
  cases G.run q ts with
  | none => rfl
  | some q' =>
      show (G.step q' a).bind (fun q => (G.step q b).bind _) = none
      have htwo := h q'
      cases ha : G.step q' a with
      | none => rfl
      | some q'' =>
          rw [ha, Option.bind_some] at htwo
          rw [Option.bind_some, htwo]
          rfl

/-! ## Read as one expression -/

/-- On this stack read as `e`, if the next token is in `K`. -/
def ReadsAt (G : Grammar T E U O F) (s : List (Frame E U O F)) (K : Look O → Prop) (ts : List T)
    (e : E) : Prop :=
  ∃ s' e', G.run (.operand s) ts = some (.operator s' e') ∧
    ∀ k, K k → G.reduce k s' e' = G.reduce k s e

variable {s : List (Frame E U O F)} {K : Look O → Prop}

theorem ReadsAt.atom {t : T} {e : E} (h : G.atom t = some e) : G.ReadsAt s K [t] e :=
  ⟨s, e, run_cons_some (step_atom h), fun _ _ => rfl⟩

theorem ReadsAt.mono {J : Look O → Prop} {ts : List T} {e : E} (h : G.ReadsAt s J ts e)
    (hk : ∀ k, K k → J k) : G.ReadsAt s K ts e := by
  obtain ⟨s', e', hrun, hred⟩ := h
  exact ⟨s', e', hrun, fun k hK => hred k (hk k hK)⟩

/-- The rule on top is finished by the next token. -/
theorem reduce_cons {k : Look O} {f : Frame E U O F} {e d : E} (hrule : G.rule f e = some d)
    (h : G.verdict k f = .reduce) : G.reduce k (f :: s) e = G.reduce k s d := by
  simp only [reduce, hrule, h]

/-- The rule on top waits for the next token. -/
theorem reduce_shift {k : Look O} {f : Frame E U O F} {e : E} (h : G.verdict k f = .shift) :
    G.reduce k (f :: s) e = some (f :: s, e) := by
  rw [reduce]
  split
  · rfl
  · rw [h]

theorem ReadsAt.unary {J : Look O → Prop} {t : T} {u : U} {ts : List T} {e : E}
    (ha : G.atom t = none) (hu : G.unary t = some u) (h : G.ReadsAt (.unary u :: s) J ts e)
    (hk : ∀ k, K k → J k ∧ G.verdict k (.unary u) = .reduce) :
    G.ReadsAt s K (t :: ts) (G.mkUnary u e) := by
  obtain ⟨s', e', hrun, hred⟩ := h
  refine ⟨s', e', by rw [run_cons_some (step_unary ha hu), hrun], fun k hK => ?_⟩
  obtain ⟨hk', hv⟩ := hk k hK
  rw [hred k hk', reduce_cons rfl hv]

theorem ReadsAt.paren {J : Look O → Prop} {t u : T} {ts : List T} {e : E}
    (hta : G.atom t = none) (htu : G.unary t = none) (htc : G.call t = none)
    (ht : G.word t = some .lparen) (hub : G.binary u = none) (hu : G.word u = some .rparen)
    (h : G.ReadsAt (.paren :: s) J ts e) (hother : J .other) :
    G.ReadsAt s K (t :: ts ++ [u]) e := by
  obtain ⟨s', e', hrun, hred⟩ := h
  refine ⟨s, e, ?_, fun _ _ => rfl⟩
  rw [List.cons_append, run_cons_some (step_lparen hta htu htc ht), run_append_some hrun,
    run_cons_some (step_word hub hu (hred .other hother))]
  rfl

/-- A binary operator whose left operand nothing on the stack takes. -/
theorem ReadsAt.binary {L R : Look O → Prop} {t : T} {o : O} {ls rs : List T} {l r : E}
    (ht : G.binary t = some o) (hstack : G.reduce (.op o) s l = some (s, l))
    (hl : G.ReadsAt s L ls l) (hlook : L (.op o)) (hr : ∀ s, G.ReadsAt s R rs r)
    (hk : ∀ k, K k → R k ∧ G.verdict k (.binary o l) = .reduce) :
    G.ReadsAt s K (ls ++ t :: rs) (G.mkBinary o l r) := by
  obtain ⟨s1, e1, hrun1, hred1⟩ := hl
  obtain ⟨s2, e2, hrun2, hred2⟩ := hr (.binary o l :: s)
  refine ⟨s2, e2, ?_, fun k hK => ?_⟩
  · rw [run_append_some hrun1,
      run_cons_some (step_binary ht ((hred1 _ hlook).trans hstack)), hrun2]
  · obtain ⟨hr, hv⟩ := hk k hK
    rw [hred2 k hr, reduce_cons rfl hv]

theorem ReadsAt.ifThen {Kc Kt : Look O → Prop} {i t : T} {cs ts : List T} {c e : E}
    (hia : G.atom i = none) (hiu : G.unary i = none) (hic : G.call i = none)
    (hi : G.word i = some .kwIf) (htb : G.binary t = none) (ht : G.word t = some .kwThen)
    (hc : ∀ s, G.ReadsAt s Kc cs c) (hother : Kc .other) (he : ∀ s, G.ReadsAt s Kt ts e)
    (hk : ∀ k, K k → Kt k ∧ G.verdict k (.thenPart c) = .reduce) :
    G.ReadsAt s K (i :: cs ++ t :: ts) (G.mkIf c e) := by
  obtain ⟨s1, e1, hrun1, hred1⟩ := hc (.cond :: s)
  obtain ⟨s2, e2, hrun2, hred2⟩ := he (.thenPart c :: s)
  refine ⟨s2, e2, ?_, fun k hK => ?_⟩
  · rw [List.cons_append, run_cons_some (step_if hia hiu hic hi), run_append_some hrun1,
      run_cons_some ((step_word htb ht (hred1 .other hother)).trans rfl), hrun2]
  · obtain ⟨ht, hv⟩ := hk k hK
    rw [hred2 k ht, reduce_cons rfl hv]

theorem ReadsAt.ifElse {Kc Kt Ke : Look O → Prop} {i t l : T} {cs ts es : List T} {c a b : E}
    (hia : G.atom i = none) (hiu : G.unary i = none) (hic : G.call i = none)
    (hi : G.word i = some .kwIf) (htb : G.binary t = none) (ht : G.word t = some .kwThen)
    (hlb : G.binary l = none) (hl : G.word l = some .kwElse)
    (hc : ∀ s, G.ReadsAt s Kc cs c) (hother : Kc .other)
    (ha : ∀ s, G.ReadsAt s Kt ts a) (hels : Kt .els) (hb : ∀ s, G.ReadsAt s Ke es b)
    (hk : ∀ k, K k → Ke k ∧ G.verdict k (.elsePart c a) = .reduce) :
    G.ReadsAt s K (i :: cs ++ t :: ts ++ l :: es) (G.mkIfElse c a b) := by
  obtain ⟨s1, e1, hrun1, hred1⟩ := hc (.cond :: s)
  obtain ⟨s2, e2, hrun2, hred2⟩ := ha (.thenPart c :: s)
  obtain ⟨s3, e3, hrun3, hred3⟩ := hb (.elsePart c a :: s)
  refine ⟨s3, e3, ?_, fun k hK => ?_⟩
  · rw [List.append_assoc, List.cons_append, run_cons_some (step_if hia hiu hic hi),
      run_append_some hrun1, List.cons_append,
      run_cons_some ((step_word htb ht (hred1 .other hother)).trans rfl), run_append_some hrun2,
      run_cons_some ((step_word hlb hl (hred2 .els hels)).trans rfl), hrun3]
  · obtain ⟨hb, hv⟩ := hk k hK
    rw [hred3 k hb, reduce_cons rfl hv]

theorem ReadsAt.parse {ts : List T} {e : E} (h : G.ReadsAt [] K ts e) (hother : K .other) :
    G.parse ts = some e := by
  obtain ⟨s', e', hrun, hred⟩ := h
  rw [Grammar.parse, hrun, Option.bind_some, accept, hred .other hother]
  rfl

/-! ## Read wherever it stands -/

/-- A prefix operator, or a binary one of level `n` or tighter. -/
def Frame.Tight (G : Grammar T E U O F) (n : ℕ) : Frame E U O F → Prop
  | .unary _ => True
  | .binary o _ => n ≤ G.level o
  | _ => False

/-- What an operator of level `n` does not finish. -/
def Frame.Loose (G : Grammar T E U O F) (n : ℕ) : Frame E U O F → Prop
  | .unary _ => False
  | .binary o _ => G.level o < n
  | .thenPart _ => G.condLevel < n
  | .elsePart _ _ => G.condLevel < n
  | _ => True

/-- The operators from level `n` on are left associative, and tighter than conditionals. -/
structure LeftFrom (G : Grammar T E U O F) (n : ℕ) : Prop where
  left : ∀ o, n ≤ G.level o → G.assoc o = .left
  unary : n ≤ G.unaryLevel

/-- Read on any stack, of which only operators from level `n` on are finished meanwhile. -/
def Accepts (G : Grammar T E U O F) (n : ℕ) (ts : List T) : Prop :=
  ∀ fs s, (∀ f ∈ fs, Frame.Tight G n f) → (∀ f ∈ s.head?, Frame.Loose G n f) →
    ∃ fs' e, (∀ f ∈ fs', Frame.Tight G n f) ∧
      G.run (.operand (fs ++ s)) ts = some (.operator (fs' ++ s) e)

variable {n : ℕ}

theorem Accepts.atom {t : T} {e : E} (h : G.atom t = some e) : G.Accepts n [t] :=
  fun fs _ hfs _ => ⟨fs, e, hfs, run_cons_some (step_atom h)⟩

theorem Accepts.unary {t : T} {u : U} {ts : List T} (ha : G.atom t = none)
    (hu : G.unary t = some u) (h : G.Accepts n ts) : G.Accepts n (t :: ts) := by
  intro fs s hfs hs
  obtain ⟨fs', e, hfs', hrun⟩ := h (.unary u :: fs) s
    (List.forall_mem_cons.mpr ⟨trivial, hfs⟩) hs
  exact ⟨fs', e, hfs', by rw [run_cons_some (step_unary ha hu)]; exact hrun⟩

theorem Accepts.on {ts : List T} (h : G.Accepts n ts) (s : List (Frame E U O F))
    (hs : ∀ f ∈ s.head?, Frame.Loose G n f) :
    ∃ fs e, (∀ f ∈ fs, Frame.Tight G n f) ∧
      G.run (.operand s) ts = some (.operator (fs ++ s) e) :=
  h [] s nofun hs

theorem against_ne_error (hn : G.LeftFrom n) {m : ℕ} (hm : n ≤ m) (o : O) :
    G.against m o ≠ .error := by
  rw [against]
  split
  · exact nofun
  · split
    · rename_i heq
      rw [hn.left o (heq ▸ hm)]
      exact nofun
    · exact nofun

theorem against_shift {m : ℕ} {o : O} (h : m < G.level o) : G.against m o = .shift := by
  rw [against, if_neg (by omega), if_neg (by omega)]

/-- A tight frame is finished, or waits. -/
theorem reduce_tight (hn : G.LeftFrom n) {f : Frame E U O F} (hf : Frame.Tight G n f) (k : Look O)
    (s : List (Frame E U O F)) (e : E) :
    G.reduce k (f :: s) e = some (f :: s, e) ∨ ∃ e', G.reduce k (f :: s) e = G.reduce k s e' := by
  have hcase : G.verdict k f ≠ .error ∧ ∃ e', G.rule f e = some e' := by
    cases f with
    | unary u =>
        refine ⟨?_, _, rfl⟩
        cases k with
        | op o => exact against_ne_error hn hn.unary o
        | els => exact nofun
        | other => exact nofun
    | binary p l =>
        refine ⟨?_, _, rfl⟩
        cases k with
        | op o => exact against_ne_error hn hf o
        | els => exact nofun
        | other => exact nofun
    | paren => exact hf.elim
    | call f args => exact hf.elim
    | cond => exact hf.elim
    | thenPart c => exact hf.elim
    | elsePart c t => exact hf.elim
  obtain ⟨hv, e', hrule⟩ := hcase
  cases h : G.verdict k f with
  | reduce => exact .inr ⟨e', reduce_cons hrule h⟩
  | shift => exact .inl (reduce_shift h)
  | error => exact absurd h hv

/-- In front of an operator tight frames are finished as far as need be. -/
theorem reduce_tights (hn : G.LeftFrom n) (k : Look O) {fs s : List (Frame E U O F)}
    (hfs : ∀ f ∈ fs, Frame.Tight G n f) (hs : ∀ e, G.reduce k s e = some (s, e)) (e : E) :
    ∃ fs' e', (∀ f ∈ fs', Frame.Tight G n f) ∧ G.reduce k (fs ++ s) e = some (fs' ++ s, e') := by
  induction fs generalizing e with
  | nil => exact ⟨[], e, nofun, hs e⟩
  | cons f fs ih =>
      obtain ⟨hf, hfs⟩ := List.forall_mem_cons.mp hfs
      rcases reduce_tight hn hf k (fs ++ s) e with hstay | ⟨e', hred⟩
      · exact ⟨f :: fs, e, List.forall_mem_cons.mpr ⟨hf, hfs⟩, hstay⟩
      · obtain ⟨fs', e'', hfs', h⟩ := ih hfs e'
        exact ⟨fs', e'', hfs', hred.trans h⟩

/-- Loose frames wait for a tight operator. -/
theorem reduce_loose {o : O} (ho : n ≤ G.level o) {s : List (Frame E U O F)}
    (hs : ∀ f ∈ s.head?, Frame.Loose G n f) (e : E) : G.reduce (.op o) s e = some (s, e) := by
  cases s with
  | nil => rfl
  | cons f s =>
      have hf := hs f rfl
      cases f with
      | paren => rfl
      | call f args => rfl
      | cond => rfl
      | unary u => exact hf.elim
      | binary p l => exact reduce_shift (against_shift (lt_of_lt_of_le hf ho))
      | thenPart c => exact reduce_shift (against_shift (lt_of_lt_of_le hf ho))
      | elsePart c t => exact reduce_shift (against_shift (lt_of_lt_of_le hf ho))

/-- Where nothing can be shifted tight frames are finished. -/
theorem reduce_all {k : Look O} (hk : ∀ o, k ≠ .op o) {fs : List (Frame E U O F)}
    (hfs : ∀ f ∈ fs, Frame.Tight G n f) (s : List (Frame E U O F)) (e : E) :
    ∃ e', G.reduce k (fs ++ s) e = G.reduce k s e' := by
  induction fs generalizing e with
  | nil => exact ⟨e, rfl⟩
  | cons f fs ih =>
      obtain ⟨hf, hfs⟩ := List.forall_mem_cons.mp hfs
      obtain ⟨e1, hrule, hv⟩ : ∃ e1, G.rule f e = some e1 ∧ G.verdict k f = .reduce := by
        cases k with
        | op o => exact absurd rfl (hk o)
        | els => cases f <;> first | exact hf.elim | exact ⟨_, rfl, rfl⟩
        | other => cases f <;> first | exact hf.elim | exact ⟨_, rfl, rfl⟩
      obtain ⟨e', h⟩ := ih hfs e1
      exact ⟨e', by rw [List.cons_append, reduce_cons hrule hv, h]⟩

/-- **TIGHT OPERATORS MAY BE STRUNG TOGETHER**, whatever becomes of them. -/
theorem Accepts.binary (hn : G.LeftFrom n) {t : T} {o : O} {ls rs : List T}
    (hl : G.Accepts n ls) (ht : G.binary t = some o) (ho : n ≤ G.level o) (hr : G.Accepts n rs) :
    G.Accepts n (ls ++ t :: rs) := by
  intro fs s hfs hs
  obtain ⟨fs1, e1, hfs1, hrun1⟩ := hl fs s hfs hs
  obtain ⟨fs2, e2, hfs2, hred⟩ := reduce_tights hn (.op o) hfs1 (reduce_loose ho hs) e1
  obtain ⟨fs3, e3, hfs3, hrun3⟩ := hr (.binary o e2 :: fs2) s
    (List.forall_mem_cons.mpr ⟨ho, hfs2⟩) hs
  refine ⟨fs3, e3, hfs3, ?_⟩
  rw [run_append_some hrun1, run_cons_some (step_binary ht hred)]
  exact hrun3

/-- What stands between parentheses: at its end all of it can be finished. -/
def Encloses (G : Grammar T E U O F) (ts : List T) : Prop :=
  ∀ s, ∃ fs e, G.run (.operand (.paren :: s)) ts = some (.operator (fs ++ .paren :: s) e) ∧
    ∀ e, ∃ e', G.reduce .other (fs ++ .paren :: s) e = some (.paren :: s, e')

theorem Accepts.encloses {ts : List T} (h : G.Accepts n ts) : G.Encloses ts := by
  intro s
  obtain ⟨fs, e, hfs, hrun⟩ := h.on (.paren :: s) (fun f hf => by cases hf; trivial)
  refine ⟨fs, e, hrun, fun e => ?_⟩
  obtain ⟨e', hred⟩ := reduce_all (k := .other) nofun hfs (.paren :: s) e
  exact ⟨e', hred⟩

theorem Encloses.paren {t u : T} {ts : List T} (hta : G.atom t = none) (htu : G.unary t = none)
    (htc : G.call t = none) (ht : G.word t = some .lparen) (hub : G.binary u = none)
    (hu : G.word u = some .rparen) (h : G.Encloses ts) : G.Accepts n (t :: ts ++ [u]) := by
  intro fs s hfs _
  obtain ⟨gs, e, hrun, hred⟩ := h (fs ++ s)
  obtain ⟨e', hred⟩ := hred e
  refine ⟨fs, e', hfs, ?_⟩
  rw [List.cons_append, run_cons_some (step_lparen hta htu htc ht), run_append_some hrun]
  exact run_cons_some (step_word hub hu hred)

/-- One operator between two tight operands may have any level. -/
theorem Accepts.encloses_binary (hn : G.LeftFrom n) {t : T} {o : O} {ls rs : List T}
    (hl : G.Accepts n ls) (ht : G.binary t = some o) (hr : G.Accepts n rs) :
    G.Encloses (ls ++ t :: rs) := by
  by_cases ho : n ≤ G.level o
  · exact (hl.binary hn ht ho hr).encloses
  · intro s
    obtain ⟨fs1, e1, hfs1, hrun1⟩ := hl.on (.paren :: s) (fun f hf => by cases hf; trivial)
    obtain ⟨fs2, e2, hfs2, hred⟩ := reduce_tights hn (.op o) hfs1
      (fun _ => (rfl : G.reduce _ (.paren :: s) _ = _)) e1
    obtain ⟨fs3, e3, hfs3, hrun3⟩ := hr.on (.binary o e2 :: (fs2 ++ .paren :: s))
        (fun f hf => by cases hf; exact not_le.mp ho)
    refine ⟨fs3 ++ .binary o e2 :: fs2, e3, ?_, fun e => ?_⟩
    · rw [run_append_some hrun1, run_cons_some (step_binary ht hred)]
      simpa only [List.nil_append, List.append_assoc, List.cons_append] using hrun3
    · obtain ⟨e4, hred4⟩ := reduce_all (k := .other) nofun hfs3
        (.binary o e2 :: (fs2 ++ .paren :: s)) e
      obtain ⟨e5, hred5⟩ := reduce_all (k := .other) nofun hfs2 (.paren :: s)
        (G.mkBinary o e2 e4)
      refine ⟨e5, ?_⟩
      rw [List.append_assoc, List.cons_append, hred4,
        reduce_cons (f := .binary o e2) (d := G.mkBinary o e2 e4) rfl rfl, hred5]
      rfl

/-- The condition is read up to `then`. -/
theorem Accepts.cond {i t : T} {cs : List T} (hia : G.atom i = none) (hiu : G.unary i = none)
    (hic : G.call i = none) (hi : G.word i = some .kwIf) (htb : G.binary t = none)
    (ht : G.word t = some .kwThen) (hc : G.Accepts n cs) (s : List (Frame E U O F)) :
    ∃ c, ∀ us, G.run (.operand s) (i :: cs ++ t :: us) = G.run (.operand (.thenPart c :: s)) us := by
  obtain ⟨fs, e, hfs, hrun⟩ := hc.on (.cond :: s) (fun f hf => by cases hf; trivial)
  obtain ⟨c, hred⟩ := reduce_all (k := .other) nofun hfs (.cond :: s) e
  refine ⟨c, fun us => ?_⟩
  rw [List.cons_append, run_cons_some (step_if hia hiu hic hi), run_append_some hrun,
    run_cons_some ((step_word htb ht hred).trans rfl)]

theorem Accepts.encloses_if {i t : T} {cs ts : List T} (hia : G.atom i = none)
    (hiu : G.unary i = none) (hic : G.call i = none) (hi : G.word i = some .kwIf)
    (htb : G.binary t = none) (ht : G.word t = some .kwThen) (hcond : G.condLevel < n)
    (hc : G.Accepts n cs) (h : G.Accepts n ts) : G.Encloses (i :: cs ++ t :: ts) := by
  intro s
  obtain ⟨c, hrun⟩ := hc.cond hia hiu hic hi htb ht (.paren :: s)
  obtain ⟨fs, e, hfs, hrun'⟩ := h.on (.thenPart c :: .paren :: s)
      (fun f hf => by cases hf; exact hcond)
  refine ⟨fs ++ [.thenPart c], e, ?_, fun e => ?_⟩
  · rw [hrun ts]
    simpa only [List.nil_append, List.append_assoc, List.cons_append] using hrun'
  · obtain ⟨e', hred⟩ := reduce_all (k := .other) nofun hfs (.thenPart c :: .paren :: s) e
    refine ⟨G.mkIf c e', ?_⟩
    rw [List.append_assoc, List.cons_append, List.nil_append, hred,
      reduce_cons (f := .thenPart c) (d := G.mkIf c e') rfl rfl]
    rfl

theorem Accepts.encloses_ifElse {i t l : T} {cs ts es : List T} (hia : G.atom i = none)
    (hiu : G.unary i = none) (hic : G.call i = none) (hi : G.word i = some .kwIf)
    (htb : G.binary t = none) (ht : G.word t = some .kwThen) (hlb : G.binary l = none)
    (hl : G.word l = some .kwElse) (hcond : G.condLevel < n) (hc : G.Accepts n cs)
    (ha : G.Accepts n ts) (hb : G.Accepts n es) :
    G.Encloses (i :: cs ++ t :: (ts ++ l :: es)) := by
  intro s
  obtain ⟨c, hrun⟩ := hc.cond hia hiu hic hi htb ht (.paren :: s)
  obtain ⟨fs, e, hfs, hrun'⟩ := ha.on (.thenPart c :: .paren :: s)
      (fun f hf => by cases hf; exact hcond)
  obtain ⟨a, hred⟩ := reduce_all (k := .els) nofun hfs (.thenPart c :: .paren :: s) e
  obtain ⟨gs, e', hgs, hrun''⟩ := hb.on (.elsePart c a :: .paren :: s)
      (fun f hf => by cases hf; exact hcond)
  refine ⟨gs ++ [.elsePart c a], e', ?_, fun e => ?_⟩
  · rw [hrun, run_append_some hrun', run_cons_some ((step_word hlb hl hred).trans rfl)]
    simpa only [List.nil_append, List.append_assoc, List.cons_append] using hrun''
  · obtain ⟨b, hred⟩ := reduce_all (k := .other) nofun hgs (.elsePart c a :: .paren :: s) e
    refine ⟨G.mkIfElse c a b, ?_⟩
    rw [List.append_assoc, List.cons_append, List.nil_append, hred,
      reduce_cons (f := .elsePart c a) (d := G.mkIfElse c a b) rfl rfl]
    rfl

theorem Accepts.parse {ts : List T} (h : G.Accepts n ts) : ∃ e, G.parse ts = some e := by
  obtain ⟨fs, e, hfs, hrun⟩ := h.on [] nofun
  obtain ⟨e', hred⟩ := reduce_all (k := .other) nofun hfs [] e
  refine ⟨e', ?_⟩
  rw [List.append_nil] at hrun hred
  rw [Grammar.parse, hrun, Option.bind_some, accept, hred]
  rfl

/-! ## From the tokens to the expression -/

/-- All expressions and operators that a frame holds. -/
def Frame.Holds (P : E → Prop) (Q : O → Prop) : Frame E U O F → Prop
  | .paren => True
  | .cond => True
  | .unary _ => True
  | .call _ args => ∀ e ∈ args, P e
  | .binary o l => Q o ∧ P l
  | .thenPart c => P c
  | .elsePart c t => P c ∧ P t

def State.Holds (P : E → Prop) (Q : O → Prop) : State E U O F → Prop
  | .operand s => ∀ f ∈ s, Frame.Holds P Q f
  | .opening _ s => ∀ f ∈ s, Frame.Holds P Q f
  | .operator s e => P e ∧ ∀ f ∈ s, Frame.Holds P Q f

/-- The rules keep `P`, if their operators have `Q`. -/
structure Keeps (G : Grammar T E U O F) (P : E → Prop) (Q : O → Prop) : Prop where
  unary : ∀ u e, P e → P (G.mkUnary u e)
  binary : ∀ o l r, Q o → P l → P r → P (G.mkBinary o l r)
  ifThen : ∀ c t, P c → P t → P (G.mkIf c t)
  ifElse : ∀ c t e, P c → P t → P e → P (G.mkIfElse c t e)
  call : ∀ f args e, (∀ a ∈ args, P a) → G.mkCall f args = some e → P e

variable {P : E → Prop} {Q : O → Prop}

theorem Keeps.rule (hG : G.Keeps P Q) {f : Frame E U O F} {e e' : E} (hf : Frame.Holds P Q f)
    (he : P e) (h : G.rule f e = some e') : P e' := by
  cases f with
  | paren => cases h
  | call f args => cases h
  | cond => cases h
  | unary u =>
      cases h
      exact hG.unary u e he
  | binary o l =>
      cases h
      exact hG.binary o l e hf.1 hf.2 he
  | thenPart c =>
      cases h
      exact hG.ifThen c e hf he
  | elsePart c t =>
      cases h
      exact hG.ifElse c t e hf.1 hf.2 he

theorem Keeps.reduce (hG : G.Keeps P Q) (k : Look O) {s s' : List (Frame E U O F)} {e e' : E}
    (hs : ∀ f ∈ s, Frame.Holds P Q f) (he : P e) (h : G.reduce k s e = some (s', e')) :
    P e' ∧ ∀ f ∈ s', Frame.Holds P Q f := by
  induction s generalizing e with
  | nil =>
      cases h
      exact ⟨he, hs⟩
  | cons f s ih =>
      rw [Grammar.reduce] at h
      split at h
      · cases h
        exact ⟨he, hs⟩
      · rename_i e1 hrule
        obtain ⟨hf, hrest⟩ := List.forall_mem_cons.mp hs
        split at h
        · exact ih hrest (hG.rule hf he hrule) h
        · cases h
          exact ⟨he, hs⟩
        · cases h

theorem Keeps.close (hG : G.Keeps P Q) (w : Word) {s : List (Frame E U O F)} {e : E}
    {q : State E U O F} (hs : ∀ f ∈ s, Frame.Holds P Q f) (he : P e)
    (h : G.close w s e = some q) : State.Holds P Q q := by
  have hargs : ∀ {args : List E}, (∀ a ∈ args, P a) → ∀ a ∈ args ++ [e], P a := by
    intro args hargs a ha
    rcases List.mem_append.mp ha with ha | ha
    · exact hargs a ha
    · rwa [List.mem_singleton.mp ha]
  rw [Grammar.close.eq_def] at h
  split at h
  · cases h
    exact ⟨he, (List.forall_mem_cons.mp hs).2⟩
  · obtain ⟨hf, hrest⟩ := List.forall_mem_cons.mp hs
    obtain ⟨e', hcall, rfl⟩ := Option.map_eq_some_iff.mp h
    exact ⟨hG.call _ _ _ (hargs hf) hcall, hrest⟩
  · cases h
    obtain ⟨hf, hrest⟩ := List.forall_mem_cons.mp hs
    exact List.forall_mem_cons.mpr ⟨hargs hf, hrest⟩
  · cases h
    exact List.forall_mem_cons.mpr ⟨he, (List.forall_mem_cons.mp hs).2⟩
  · cases h
    obtain ⟨hf, hrest⟩ := List.forall_mem_cons.mp hs
    exact List.forall_mem_cons.mpr ⟨⟨hf, he⟩, hrest⟩
  · cases h

theorem Keeps.step (hG : G.Keeps P Q) {q q' : State E U O F} {t : T}
    (hatom : ∀ e, G.atom t = some e → P e) (hop : ∀ o, G.binary t = some o → Q o)
    (hq : State.Holds P Q q) (h : G.step q t = some q') : State.Holds P Q q' := by
  cases q with
  | operand s =>
      rw [Grammar.step] at h
      split at h
      · cases h
        exact ⟨hatom _ (by assumption), hq⟩
      · cases h
        exact List.forall_mem_cons.mpr ⟨trivial, hq⟩
      · cases h
        exact hq
      · cases h
        exact List.forall_mem_cons.mpr ⟨trivial, hq⟩
      · cases h
        exact List.forall_mem_cons.mpr ⟨trivial, hq⟩
      · cases h
  | opening f s =>
      rw [Grammar.step] at h
      split at h
      · cases h
        exact List.forall_mem_cons.mpr ⟨nofun, hq⟩
      · cases h
  | operator s e =>
      rw [Grammar.step] at h
      split at h
      · rename_i o hb
        obtain ⟨r, hred, rfl⟩ := Option.map_eq_some_iff.mp h
        obtain ⟨he, hs⟩ := hG.reduce _ hq.2 hq.1 hred
        exact List.forall_mem_cons.mpr ⟨⟨hop o hb, he⟩, hs⟩
      · obtain ⟨r, hred, hclose⟩ := Option.bind_eq_some_iff.mp h
        obtain ⟨he, hs⟩ := hG.reduce _ hq.2 hq.1 hred
        exact hG.close _ hs he hclose
      · cases h

theorem Keeps.run (hG : G.Keeps P Q) {ts : List T}
    (hatom : ∀ t ∈ ts, ∀ e, G.atom t = some e → P e)
    (hop : ∀ t ∈ ts, ∀ o, G.binary t = some o → Q o) {q q' : State E U O F}
    (hq : State.Holds P Q q) (h : G.run q ts = some q') : State.Holds P Q q' := by
  induction ts generalizing q with
  | nil =>
      cases h
      exact hq
  | cons t ts ih =>
      obtain ⟨q1, hstep, hrun⟩ := Option.bind_eq_some_iff.mp h
      obtain ⟨ha, hatom⟩ := List.forall_mem_cons.mp hatom
      obtain ⟨ho, hop⟩ := List.forall_mem_cons.mp hop
      exact ih hatom hop (hG.step ha ho hq hstep) hrun

/-- **WHAT THE RULES KEEP HOLDS OF WHAT IS READ.** -/
theorem Keeps.parse (hG : G.Keeps P Q) {ts : List T} {e : E}
    (hatom : ∀ t ∈ ts, ∀ e, G.atom t = some e → P e)
    (hop : ∀ t ∈ ts, ∀ o, G.binary t = some o → Q o) (h : G.parse ts = some e) : P e := by
  obtain ⟨q, hrun, hacc⟩ := Option.bind_eq_some_iff.mp h
  have hq := hG.run hatom hop (q := .operand []) nofun hrun
  cases q with
  | operand s => cases hacc
  | opening f s => cases hacc
  | operator s e1 =>
      rw [accept] at hacc
      split at hacc
      · rename_i hred
        cases hacc
        exact (hG.reduce _ hq.2 hq.1 hred).1
      · cases hacc

end Grammar

end PbYacc
