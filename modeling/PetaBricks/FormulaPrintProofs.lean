import PetaBricks.FormulaReplaceProofs
import PetaBricks.PrecedenceProofs

/-! # What a printed formula means in C++

    Every operator but the power is printed between parentheses by `toString`, and `=`, `and`
    and `or` are not by `toCppString`.  So the text of a power, which is a product without
    parentheses, may stand anywhere but below a division, and the three operators may only
    stand below each other in the order of C++. -/

namespace PbFormula

open PbPrecedence Formula

/-! ## C++ expressions -/

inductive CppAtom
  | ident (name : Name)
  | number (q : ℚ)
  deriving DecidableEq

def cppAtom : Token → Option CppAtom
  | .ident name => some (.ident name)
  | .int n => some (.number n)
  | .float q => some (.number q)
  | _ => none

/-- `=` assigns, and `^` is no power; neither is read. -/
def cppBinary : Token → Option Op
  | .plus => some .add
  | .minus => some .sub
  | .star | .times => some .mul
  | .slash => some .div
  | .eqeq => some .eq
  | .gt => some .gt
  | .ge => some .ge
  | .lt => some .lt
  | .le => some .le
  | .and => some .and
  | .or => some .or
  | _ => none

/-- The operator precedence of C++. -/
def Op.level : Op → Nat
  | .or => 1
  | .and => 2
  | .eq => 3
  | .gt | .ge | .lt | .le => 4
  | .add | .sub => 5
  | .mul | .div => 6
  | .pow => 7

def cpp : Grammar Token CppAtom Unit Op where
  atom := cppAtom
  unary t := if t = .minus then some () else none
  binary := cppBinary
  level := Op.level
  isOpen t := t = .lparen
  isClose t := t = .rparen

abbrev CppExpr := Tree CppAtom Unit Op

/-- What `&&` and `||` give without their right operand. -/
def Op.decided : Op → Value → Option Value
  | .and, .bool false => some (.bool false)
  | .or, .bool true => some (.bool true)
  | _, _ => none

/-- The value of an expression. -/
def evalCpp (env : Env) : CppExpr → Option Value
  | .atom (.ident name) => env name
  | .atom (.number q) => some (.num q)
  | .unary _ e =>
      (evalCpp env e).bind fun
        | .num q => some (.num (-q))
        | .bool _ => none
  | .binary o l r =>
      (evalCpp env l).bind fun a =>
        match o.decided a with
        | some v => some v
        | none => (evalCpp env r).bind fun b => o.eval a b

/-- Where both operands have values it does not matter that one may be left out. -/
theorem Op.decided_eq {o : Op} {a b w v : Value} (hw : o.decided a = some w)
    (hv : o.eval a b = some v) : w = v := by
  match o, a, hw with
  | .and, .bool false, hw =>
      cases hw
      cases b <;> cases hv
      rfl
  | .or, .bool true, hw =>
      cases hw
      cases b <;> cases hv
      rfl

theorem evalCpp_binary {env : Env} {o : Op} (l r : CppExpr) (a b v : Value)
    (hl : evalCpp env l = some a) (hr : evalCpp env r = some b) (hv : o.eval a b = some v) :
    evalCpp env (.binary o l r) = some v := by
  show ((evalCpp env l).bind fun a => match o.decided a with
    | some v => some v
    | none => (evalCpp env r).bind fun b => o.eval a b) = some v
  rw [hl]
  show (match o.decided a with
    | some v => some v
    | none => (evalCpp env r).bind fun b => o.eval a b) = some v
  cases hd : o.decided a with
  | some w => exact congrArg some (Op.decided_eq hd hv)
  | none =>
      show (evalCpp env r).bind _ = some v
      rw [hr]
      exact hv

/-- The operators that texts are strung together with. -/
theorem Op.eval_assoc {o : Op} (ho : o = .mul ∨ o = .and ∨ o = .or) (a b c x v : Value)
    (hx : o.eval b c = some x) (hv : o.eval a x = some v) :
    ∃ y, o.eval a b = some y ∧ o.eval y c = some v := by
  obtain rfl | rfl | rfl := ho
  · cases b with
    | bool b => cases hx
    | num b =>
      cases c with
      | bool c => cases hx
      | num c =>
        cases hx
        cases a with
        | bool a => cases hv
        | num a =>
          cases hv
          exact ⟨_, rfl, congrArg (fun q => some (Value.num q)) (mul_assoc a b c)⟩
  · cases b with
    | num b => cases hx
    | bool b =>
      cases c with
      | num c => cases hx
      | bool c =>
        cases hx
        cases a with
        | num a => cases hv
        | bool a =>
          cases hv
          exact ⟨_, rfl, congrArg (fun q => some (Value.bool q)) (Bool.and_assoc a b c)⟩
  · cases b with
    | num b => cases hx
    | bool b =>
      cases c with
      | num c => cases hx
      | bool c =>
        cases hx
        cases a with
        | num a => cases hv
        | bool a =>
          cases hv
          exact ⟨_, rfl, congrArg (fun q => some (Value.bool q)) (Bool.or_assoc a b c)⟩

/-- In C++ the text stands for the formula. -/
def Stands (t : Text) (f : Formula) : Prop :=
  ∃ e, cpp.parse t = some e ∧ ∀ env v, eval env f = some v → evalCpp env e = some v

/-! ## When a text means the formula -/

namespace Formula

/-- How many factors the text of a formula has at its top. -/
def factors : Formula → Nat
  | .binop .pow left right =>
      match right.toString.bind stringToInt with
      | some p => if 0 < p then left.factors * p.toNat else 1
      | none => 1
  | _ => 1

/-- `toString` keeps the meaning: a float has six digits, a power is an integer from zero on,
    no divisor is a product, and nothing is compared with `=`. -/
def TextSafe : Formula → Prop
  | .var _ | .integer _ => True
  | .float v => v = 0 ∨ sixDigits |v| = |v|
  | .binop .pow left right =>
      left.TextSafe ∧ right.size = 1 ∧ right.getFreeVariables = ∅
        ∧ ∃ p, right.toString.bind stringToInt = some p ∧ 0 ≤ p
  | .binop .div left right => left.TextSafe ∧ right.TextSafe ∧ right.factors = 1
  | .binop .eq _ _ => False
  | .binop _ left right => left.TextSafe ∧ right.TextSafe
  | _ => False

/-- The operator that `toCppString` leaves without parentheses. -/
def loosest : Formula → Op
  | .binop .eq _ _ => .eq
  | .binop .and _ _ => .and
  | .binop .or _ _ => .or
  | _ => .mul

/-- `toCppString` keeps the meaning: nothing looser stands below `==`, `&&` and `||`. -/
def CppTextSafe : Formula → Prop
  | .binop .eq left right =>
      left.CppTextSafe ∧ right.CppTextSafe
        ∧ Op.level .eq ≤ left.loosest.level ∧ Op.level .eq < right.loosest.level
  | .binop .and left right =>
      left.CppTextSafe ∧ right.CppTextSafe
        ∧ Op.level .and ≤ left.loosest.level ∧ Op.level .and ≤ right.loosest.level
  | .binop .or left right => left.CppTextSafe ∧ right.CppTextSafe
  | f => f.TextSafe

/-! ## The text of a literal -/

theorem operand_number {t : Token} {q : ℚ} (h : cppAtom t = some (.number q)) :
    cpp.Operand [t] (.atom (.number q)) :=
  .atom h

theorem operand_negative {t : Token} {q : ℚ} (h : cppAtom t = some (.number q)) :
    cpp.Operand [.minus, t] (.unary () (.atom (.number q))) :=
  .unary rfl rfl (.atom h)

theorem operand_intText (v : Int) : ∃ e, cpp.Operand (intText v) e
    ∧ ∀ env, evalCpp env e = some (.num v) := by
  rw [intText]
  by_cases hv : v < 0
  · rw [if_pos hv]
    refine ⟨_, operand_negative rfl, fun env => ?_⟩
    have habs : ((v.natAbs : Nat) : ℚ) = -v := by
      rw [Nat.cast_natAbs, abs_of_neg hv]
      push_cast
      rfl
    show some (Value.num (-((v.natAbs : Nat) : ℚ))) = _
    rw [habs, neg_neg]
  · rw [if_neg hv]
    refine ⟨_, operand_number rfl, fun env => ?_⟩
    have habs : ((v.natAbs : Nat) : ℚ) = v := by
      rw [Nat.cast_natAbs, abs_of_nonneg (not_lt.mp hv)]
    show some (Value.num ((v.natAbs : Nat) : ℚ)) = _
    rw [habs]

theorem cppAtom_digitsToken {q : ℚ} (hq : 0 ≤ q) :
    cppAtom (digitsToken q) = some (.number q) := by
  rw [digitsToken]
  by_cases hd : q.den = 1 ∧ q < 1000000
  · rw [if_pos hd]
    have hnum : ((q.num.toNat : Nat) : ℚ) = q := by
      have hcast : ((q.num.toNat : Nat) : Int) = q.num :=
        Int.toNat_of_nonneg (Rat.num_nonneg.mpr hq)
      rw [← (Rat.den_eq_one_iff q).mp hd.1, ← hcast]
      rfl
    exact congrArg (fun q => some (CppAtom.number q)) hnum
  · rw [if_neg hd]
    rfl

theorem operand_doubleText {v : ℚ} (h : v = 0 ∨ sixDigits |v| = |v|) :
    ∃ e, cpp.Operand (doubleText v) e ∧ ∀ env, evalCpp env e = some (.num v) := by
  rw [doubleText]
  by_cases h0 : v = 0
  · rw [if_pos h0, h0]
    exact ⟨_, operand_number rfl, fun env => rfl⟩
  rw [if_neg h0, h.resolve_left h0]
  have htoken := cppAtom_digitsToken (abs_nonneg v)
  by_cases hv : v < 0
  · rw [if_pos hv]
    refine ⟨_, operand_negative htoken, fun env => ?_⟩
    show some (Value.num (-|v|)) = _
    rw [abs_of_neg hv, neg_neg]
  · rw [if_neg hv]
    refine ⟨_, operand_number htoken, fun env => ?_⟩
    show some (Value.num |v|) = _
    rw [abs_of_nonneg (not_lt.mp hv)]

/-! ## Texts without parentheses around them -/

/-- The text is `k` operands of the formula with `o` between them. -/
def Spells (o : Op) (t : Text) (f : Formula) (k : Nat) : Prop :=
  ∃ e es, cpp.Chain o t e es ∧ es.length + 1 = k
    ∧ ∀ env v, eval env f = some v → ChainValue (evalCpp env) o.eval e es v

variable {o : Op} {t : Text} {f : Formula} {k : Nat}

theorem Spells.of_operand {e : CppExpr} (he : cpp.Operand t e)
    (hv : ∀ env v, eval env f = some v → evalCpp env e = some v) : Spells o t f 1 :=
  ⟨e, [], .one (he.reads _), rfl, fun env v h => .one (hv env v h)⟩

theorem Spells.reads (h : Spells o t f k) : ∃ e, cpp.Reads o.level t e
    ∧ ∀ env v, eval env f = some v → evalCpp env e = some v := by
  obtain ⟨e, es, hc, -, hv⟩ := h
  exact ⟨_, hc.reads, fun env v hf => (hv env v hf).joined evalCpp_binary⟩

theorem Spells.stands (h : Spells o t f k) : Stands t f := by
  obtain ⟨e, hread, hv⟩ := h.reads
  exact ⟨e, hread.parse, hv⟩

/-- One operand reads at any level above the operator's. -/
theorem Spells.single (h : Spells o t f 1) : ∃ e, cpp.Reads (o.level + 1) t e
    ∧ ∀ env v, eval env f = some v → evalCpp env e = some v := by
  obtain ⟨e, es, hc, hlen, hv⟩ := h
  cases hc with
  | one he =>
      refine ⟨e, he, fun env v hf => ?_⟩
      exact (hv env v hf).joined (o := o) evalCpp_binary
  | snoc _ _ _ =>
      rw [List.length_append, List.length_singleton] at hlen
      omega

theorem Spells.append {left right : Formula} {l r : Text} {w : Token} {j : Nat}
    (ho : o = .mul ∨ o = .and ∨ o = .or) (hw : cppBinary w = some o) (hl : Spells o l left j)
    (hr : Spells o r right k) : Spells o (l ++ w :: r) (.binop o left right) (j + k) := by
  obtain ⟨e, es, hce, hes, hve⟩ := hl
  obtain ⟨f, fs, hcf, hfs, hvf⟩ := hr
  refine ⟨e, es ++ f :: fs, hce.append hw hcf, ?_, fun env v hv => ?_⟩
  · rw [List.length_append, List.length_cons]
    omega
  · obtain ⟨a, ha, hv⟩ := Option.bind_eq_some_iff.mp hv
    obtain ⟨b, hb, hv⟩ := Option.bind_eq_some_iff.mp hv
    exact (hve env a ha).append (Op.eval_assoc ho) (hvf env b hb) hv

/-- Two operands with an operator between them, in parentheses. -/
theorem Spells.paren {op : Op} {left right : Formula} {l r : Text} {e g : CppExpr} {n m : Nat}
    (hop : cppBinary op.str = some op) (hl : cpp.Reads n l e) (hn : op.level ≤ n)
    (hr : cpp.Reads m r g) (hm : op.level < m)
    (hle : ∀ env v, eval env left = some v → evalCpp env e = some v)
    (hre : ∀ env v, eval env right = some v → evalCpp env g = some v) :
    Spells o (.lparen :: l ++ op.str :: r ++ [.rparen]) (.binop op left right) 1 := by
  have hread : cpp.Reads op.level (l ++ op.str :: r) (.binary op e g) :=
    hl.binary hop hr hn hm
  refine .of_operand (hread.paren rfl rfl rfl rfl rfl) fun env v hv => ?_
  obtain ⟨a, ha, hv⟩ := Option.bind_eq_some_iff.mp hv
  obtain ⟨b, hb, hv⟩ := Option.bind_eq_some_iff.mp hv
  exact evalCpp_binary e g a b v (hle env a ha) (hre env b hb) hv

/-! ## Powers -/

/-- The value of a power whose exponent prints as an integer from zero on. -/
theorem eval_pow {right : Formula} (hlit : right.IsLiteral) {p : Int}
    (hp : right.toString.bind stringToInt = some p) (h0 : 0 ≤ p) {env : Env} {a b v : Value}
    (hb : eval env right = some b) (hv : Op.pow.eval a b = some v) :
    ∃ x, a = .num x ∧ v = .num (x ^ p.toNat) := by
  cases a with
  | bool a => cases b <;> cases hv
  | num x =>
      refine ⟨x, rfl, ?_⟩
      obtain ⟨q, hq, rfl⟩ : ∃ q : ℚ, (q.den = 1 → q = p) ∧ b = .num q := by
        cases right with
        | integer n =>
            refine ⟨n, fun _ => ?_, (Option.some.inj hb).symm⟩
            have hn : stringToInt (intText n) = some p := hp
            rw [intText] at hn
            by_cases hneg : n < 0
            · rw [if_pos hneg] at hn
              have hnp : -(n.natAbs : Int) = p := Option.some.inj hn
              omega
            · rw [if_neg hneg] at hn
              have hnp : (n.natAbs : Int) = p := Option.some.inj hn
              have hnp' : n = p := by omega
              rw [hnp']
        | float q =>
            exact ⟨q, fun hden => stringToInt_doubleText hden hp, (Option.some.inj hb).symm⟩
        | bool c =>
            rw [← Option.some.inj hb] at hv
            cases hv
        | _ => exact hlit.elim
      have hpow : (power x q).map Value.num = some v := hv
      obtain ⟨y, hy, rfl⟩ := Option.map_eq_some_iff.mp hpow
      rw [power] at hy
      by_cases hden : q.den = 1
      · rw [if_pos hden, hq hden, Rat.num_intCast, if_neg fun h => absurd h.1 (not_lt.mpr h0)]
          at hy
        rw [← Option.some.inj hy]
        conv_lhs => rw [← Int.toNat_of_nonneg h0, zpow_natCast]
      · rw [if_neg hden] at hy
        cases hy

/-- A base repeated. -/
theorem Spells.starred {base : Text} (h : Spells .mul base f k) (n : Nat) :
    ∃ e es, cpp.Chain .mul (starred base n) e es ∧ es.length + 1 = k * (n + 1)
      ∧ ∀ env x, eval env f = some (.num x) →
        ChainValue (evalCpp env) (Op.eval .mul) e es (.num (x ^ (n + 1))) := by
  obtain ⟨e, es, hc, hlen, hv⟩ := h
  induction n with
  | zero =>
      refine ⟨e, es, hc, by omega, fun env x hx => ?_⟩
      rw [zero_add, pow_one]
      exact hv env _ hx
  | succ n ih =>
      obtain ⟨g, gs, hcg, hlg, hvg⟩ := ih
      refine ⟨g, gs ++ e :: es, hcg.append rfl hc, ?_, fun env x hx => ?_⟩
      · rw [List.length_append, List.length_cons]
        rw [Nat.mul_succ]
        omega
      · have hmul : Op.mul.eval (.num (x ^ (n + 1))) (.num x) = some (.num (x ^ (n + 1 + 1))) :=
          congrArg (fun q => some (Value.num q)) (pow_succ x (n + 1)).symm
        exact (hvg env x hx).append (Op.eval_assoc (.inl rfl)) (hv env _ hx) hmul

/-! ## The texts of formulas -/

theorem toString_pow_eq {left right : Formula} {p : Int} (hs : right.size = 1)
    (hv : right.getFreeVariables = ∅) (hp : right.toString.bind stringToInt = some p) :
    (Formula.binop .pow left right).toString
      = if 0 < p then left.toString.bind fun base => some (PbFormula.starred base (p.toNat - 1))
        else some [.int 1] := by
  have hdef : (Formula.binop .pow left right).toString
      = if right.size = 1 ∧ right.getFreeVariables = ∅ then
          (right.toString.bind stringToInt).bind fun p =>
            if 0 < p then
              left.toString.bind fun base => some (PbFormula.starred base (p.toNat - 1))
            else some [.int 1]
        else none := rfl
  rw [hdef, if_pos ⟨hs, hv⟩, hp]
  rfl

theorem toString_binop_eq {op : Op} (hop : op ≠ .pow) {left right : Formula} {l r : Text}
    (hl : left.toString = some l) (hr : right.toString = some r) :
    (Formula.binop op left right).toString
      = some (.lparen :: l ++ op.str :: r ++ [.rparen]) := by
  show (if op = .pow then _ else _) = _
  rw [if_neg hop, hl, hr]
  rfl

theorem spells_pow {left right : Formula}
    (ih : ∃ t, left.toString = some t ∧ Spells .mul t left left.factors)
    (hs : right.size = 1) (hv : right.getFreeVariables = ∅) {p : Int}
    (hp : right.toString.bind stringToInt = some p) (h0 : 0 ≤ p) :
    ∃ t, (Formula.binop .pow left right).toString = some t
      ∧ Spells .mul t (.binop .pow left right) (Formula.binop .pow left right).factors := by
  obtain ⟨rt, hrt, hint⟩ := Option.bind_eq_some_iff.mp hp
  have hlit := isLiteral_of_exponent hs hv hrt hint
  have hfactors : (Formula.binop .pow left right).factors
      = if 0 < p then left.factors * p.toNat else 1 := by
    show (match right.toString.bind stringToInt with
      | some p => if 0 < p then left.factors * p.toNat else 1
      | none => 1) = _
    rw [hp]
  rw [toString_pow_eq hs hv hp, hfactors]
  by_cases hpos : 0 < p
  · obtain ⟨base, hbase, hspell⟩ := ih
    rw [if_pos hpos, if_pos hpos, hbase]
    have hnat : p.toNat - 1 + 1 = p.toNat := by omega
    obtain ⟨e, es, hc, hlen, hval⟩ := hspell.starred (p.toNat - 1)
    rw [hnat] at hlen
    refine ⟨_, rfl, e, es, hc, hlen, fun env v h => ?_⟩
    obtain ⟨a, ha, h⟩ := Option.bind_eq_some_iff.mp h
    obtain ⟨b, hb, h⟩ := Option.bind_eq_some_iff.mp h
    obtain ⟨x, rfl, rfl⟩ := eval_pow hlit hp h0 hb h
    have hchain := hval env x ha
    rwa [hnat] at hchain
  · -- the exponent is zero, and the base is not printed
    have hzero : p = 0 := by omega
    subst hzero
    refine ⟨_, if_neg hpos, ?_⟩
    rw [if_neg hpos]
    refine .of_operand (operand_number (q := 1) ?_) fun env v h => ?_
    · show some (CppAtom.number ((1 : Nat) : ℚ)) = _
      rw [Nat.cast_one]
    · obtain ⟨a, ha, h⟩ := Option.bind_eq_some_iff.mp h
      obtain ⟨b, hb, h⟩ := Option.bind_eq_some_iff.mp h
      obtain ⟨x, rfl, rfl⟩ := eval_pow hlit hp h0 hb h
      show some (Value.num 1) = some (.num (x ^ 0))
      rw [pow_zero]

/-- An operator in parentheses: all but the power, and `=`, which assigns. -/
theorem spells_binop {op : Op} {left right : Formula} {l r : Text} {j k : Nat}
    (hpow : op ≠ .pow) (heq : op ≠ .eq) (hdiv : op = .div → k = 1) (hl : Spells .mul l left j)
    (hr : Spells .mul r right k) :
    Spells .mul (.lparen :: l ++ op.str :: r ++ [.rparen]) (.binop op left right) 1 := by
  obtain ⟨e, hre, hve⟩ := hl.reads
  by_cases hm : op = .mul
  · -- the factors of both sides in one chain
    subst hm
    obtain ⟨e, hread, hv⟩ := (Spells.append (w := .star) (.inl rfl) rfl hl hr).reads
    exact .of_operand (hread.paren rfl rfl rfl rfl rfl) hv
  by_cases hd : op = .div
  · subst hd
    rw [hdiv rfl] at hr
    -- a quotient takes one factor on its right
    obtain ⟨g, hrg, hvg⟩ := hr.single
    exact .paren rfl hre le_rfl hrg (Nat.lt_succ_self _) hve hvg
  · obtain ⟨g, hrg, hvg⟩ := hr.reads
    have hbin : cppBinary op.str = some op := by
      cases op with
      | eq => exact absurd rfl heq
      | pow => exact absurd rfl hpow
      | _ => rfl
    have hlt : op.level < Op.mul.level := by
      cases op with
      | mul => exact absurd rfl hm
      | div => exact absurd rfl hd
      | pow => exact absurd rfl hpow
      | _ => decide
    exact .paren hbin hre hlt.le hrg hlt hve hvg

/-- **`toString` SPELLS A PRODUCT** of as many factors as counted. -/
theorem spells_toString {f : Formula} (h : f.TextSafe) :
    ∃ t, f.toString = some t ∧ Spells .mul t f f.factors := by
  induction f with
  | var name => exact ⟨_, rfl, .of_operand (.atom rfl) fun env v hv => hv⟩
  | integer n =>
      obtain ⟨e, he, hv⟩ := operand_intText n
      refine ⟨_, rfl, .of_operand he fun env v h => ?_⟩
      rw [hv env]
      exact h
  | float q =>
      obtain ⟨e, he, hv⟩ := operand_doubleText h
      refine ⟨_, rfl, .of_operand he fun env v h => ?_⟩
      rw [hv env]
      exact h
  | bool b => exact h.elim
  | binop op left right ihl ihr =>
      by_cases hpow : op = .pow
      · subst hpow
        obtain ⟨hl, hs, hv, p, hp, h0⟩ := h
        exact spells_pow (ihl hl) hs hv hp h0
      · have hsafe : op ≠ .eq ∧ left.TextSafe ∧ right.TextSafe
            ∧ (op = .div → right.factors = 1) := by
          cases op with
          | pow => exact absurd rfl hpow
          | eq => exact h.elim
          | div => exact ⟨nofun, h.1, h.2.1, fun _ => h.2.2⟩
          | _ => exact ⟨nofun, h.1, h.2, nofun⟩
        obtain ⟨heq, hl, hr, hdiv⟩ := hsafe
        obtain ⟨l, htl, hsl⟩ := ihl hl
        obtain ⟨r, htr, hsr⟩ := ihr hr
        have hone : (Formula.binop op left right).factors = 1 := by
          cases op with
          | pow => exact absurd rfl hpow
          | _ => rfl
        rw [hone]
        exact ⟨_, toString_binop_eq hpow htl htr, spells_binop hpow heq hdiv hsl hsr⟩
  | ifThen c t => exact h.elim
  | ifThenElse c t e => exact h.elim

/-- A text is one operand of whatever is looser. -/
theorem Spells.loosen {p : Op} (hp : p = o ∨ p.level < o.level) (h : Spells o t f k) :
    ∃ k, Spells p t f k := by
  obtain rfl | hlt := hp
  · exact ⟨k, h⟩
  · obtain ⟨e, es, hc, -, hv⟩ := h
    exact ⟨1, _, [], hc.operand hlt, rfl,
      fun env v hf => .one ((hv env v hf).joined evalCpp_binary)⟩

theorem loosest_cases (f : Formula) :
    f.loosest = .eq ∨ f.loosest = .and ∨ f.loosest = .or ∨ f.loosest = .mul := by
  cases f with
  | binop op left right => cases op <;> simp [loosest]
  | _ => simp [loosest]

theorem level_loosest {p : Op} (hp : p = .eq ∨ p = .and ∨ p = .or)
    (h : p.level ≤ f.loosest.level) : p = f.loosest ∨ p.level < f.loosest.level := by
  rcases hp with rfl | rfl | rfl <;> rcases f.loosest_cases with ho | ho | ho | ho <;>
    rw [ho] at h ⊢ <;> revert h <;> decide

theorem level_or_le (f : Formula) : Op.level .or ≤ f.loosest.level := by
  rcases f.loosest_cases with h | h | h | h <;> rw [h] <;> decide

/-- **`toCppString` SPELLS A CHAIN** of the operator it leaves without parentheses. -/
theorem spells_toCppString {f : Formula} (h : f.CppTextSafe) :
    ∃ t k, f.toCppString = some t ∧ Spells f.loosest t f k := by
  -- all but three operators are left to `toString`
  have hrest : ∀ g : Formula, g.toCppString = g.toString → g.loosest = .mul → g.TextSafe →
      ∃ t k, g.toCppString = some t ∧ Spells g.loosest t g k := by
    intro g hg hl hsafe
    obtain ⟨t, ht, hs⟩ := spells_toString hsafe
    rw [hg, hl]
    exact ⟨t, _, ht, hs⟩
  induction f with
  | binop op left right ihl ihr =>
      cases op with
      | eq =>
          obtain ⟨hl, hr, hll, hlr⟩ := h
          obtain ⟨l, j, htl, hsl⟩ := ihl hl
          obtain ⟨r, k, htr, hsr⟩ := ihr hr
          obtain ⟨j, e, es, hc, hlen, hv⟩ := hsl.loosen (level_loosest (.inl rfl) hll)
          -- comparing is not associative: the right side must be one operand
          obtain ⟨g, hread, hg⟩ := hsr.reads
          have htext : (Formula.binop .eq left right).toCppString = some (l ++ .eqeq :: r) := by
            show (left.toCppString.bind fun l => right.toCppString.bind fun r =>
              some (l ++ Token.eqeq :: r)) = _
            rw [htl, htr]
            rfl
          refine ⟨_, j + 1, htext, e, es ++ [g], .snoc hc rfl (hread.mono hlr), ?_, ?_⟩
          · rw [List.length_append, List.length_singleton, hlen]
          · intro env v hf
            obtain ⟨a, ha, hf⟩ := Option.bind_eq_some_iff.mp hf
            obtain ⟨b, hb, hf⟩ := Option.bind_eq_some_iff.mp hf
            exact .snoc (hv env a ha) (hg env b hb) hf
      | and =>
          obtain ⟨hl, hr, hll, hlr⟩ := h
          obtain ⟨l, j, htl, hsl⟩ := ihl hl
          obtain ⟨r, k, htr, hsr⟩ := ihr hr
          obtain ⟨j, hsl⟩ := hsl.loosen (level_loosest (.inr (.inl rfl)) hll)
          obtain ⟨k, hsr⟩ := hsr.loosen (level_loosest (.inr (.inl rfl)) hlr)
          have htext : (Formula.binop .and left right).toCppString = some (l ++ .and :: r) := by
            show (left.toCppString.bind fun l => right.toCppString.bind fun r =>
              some (l ++ Token.and :: r)) = _
            rw [htl, htr]
            rfl
          exact ⟨_, j + k, htext, hsl.append (.inr (.inl rfl)) rfl hsr⟩
      | or =>
          obtain ⟨hl, hr⟩ := h
          obtain ⟨l, j, htl, hsl⟩ := ihl hl
          obtain ⟨r, k, htr, hsr⟩ := ihr hr
          obtain ⟨j, hsl⟩ := hsl.loosen (level_loosest (.inr (.inr rfl)) left.level_or_le)
          obtain ⟨k, hsr⟩ := hsr.loosen (level_loosest (.inr (.inr rfl)) right.level_or_le)
          have htext : (Formula.binop .or left right).toCppString = some (l ++ .or :: r) := by
            show (left.toCppString.bind fun l => right.toCppString.bind fun r =>
              some (l ++ Token.or :: r)) = _
            rw [htl, htr]
            rfl
          exact ⟨_, j + k, htext, hsl.append (.inr (.inr rfl)) rfl hsr⟩
      | _ => exact hrest _ rfl rfl h
  | _ => exact hrest _ rfl rfl h

/-- **A PRINTED FORMULA MEANS THE FORMULA**: under the conditions on `toString` and on
    `toCppString` the text is an expression of C++ with the formula's value, wherever the formula
    has one. -/
theorem printed_stands (f : Formula) :
    (f.TextSafe → ∃ t, f.toString = some t ∧ Stands t f)
      ∧ (f.CppTextSafe → ∃ t, f.toCppString = some t ∧ Stands t f) := by
  refine ⟨fun h => ?_, fun h => ?_⟩
  · obtain ⟨t, ht, hs⟩ := spells_toString h
    exact ⟨t, ht, hs.stands⟩
  · obtain ⟨t, k, ht, hs⟩ := spells_toCppString h
    exact ⟨t, ht, hs.stands⟩

/-- `a*b^2 <= c`. -/
def productBound : Formula :=
  .binop .le (.binop .mul (.var "a") (.binop .pow (.var "b") (.integer 2))) (.var "c")

theorem printed_stands_bound :
    ∃ t, productBound.toCppString = some t ∧ Stands t productBound :=
  (printed_stands productBound).2
    ⟨⟨trivial, trivial, rfl, rfl, 2, rfl, by decide⟩, trivial⟩

/-! ## Texts that mean something else -/

theorem not_stands {f : Formula} {t : Text} {e : CppExpr} (env : Env) {v : Value}
    (hp : cpp.parse t = some e) (hv : eval env f = some v) (he : evalCpp env e ≠ some v) :
    ¬ Stands t f := by
  rintro ⟨e', hp', hs⟩
  rw [hp] at hp'
  rw [← Option.some.inj hp'] at hs
  exact he (hs env v hv)

/-- `a / b^2`, printed as `(a / b*b)`. -/
def quotientBySquare : Formula :=
  .binop .div (.var "a") (.binop .pow (.var "b") (.integer 2))

/-- `x^(-1)`, printed as `1`. -/
def inverse : Formula :=
  .binop .pow (.var "x") (.integer (-1))

/-- `(a or b) and c`, printed as `a||b&&c`. -/
def conjunctionOfOr : Formula :=
  .binop .and (.binop .or (.var "a") (.var "b")) (.var "c")

theorem printed_wrong :
    (∃ t, quotientBySquare.toCppString = some t ∧ quotientBySquare.toString = some t
        ∧ ¬ Stands t quotientBySquare)
      ∧ (∃ t, inverse.toCppString = some t ∧ inverse.toString = some t ∧ ¬ Stands t inverse)
      ∧ (∃ t, conjunctionOfOr.toCppString = some t ∧ ¬ Stands t conjunctionOfOr) := by
  refine ⟨⟨_, rfl, rfl, ?_⟩, ⟨_, rfl, rfl, ?_⟩, ⟨_, rfl, ?_⟩⟩
  · exact not_stands (v := .num (1 / 4)) (fun x => some (.num (if x = "a" then 1 else 2))) rfl
      (by decide +kernel) (by decide +kernel)
  · exact not_stands (v := .num (1 / 2)) (fun _ => some (.num 2)) rfl
      (by decide +kernel) (by decide +kernel)
  · exact not_stands (v := .bool false) (fun x => some (.bool (x = "a"))) rfl
      (by decide +kernel) (by decide +kernel)

end Formula

end PbFormula
