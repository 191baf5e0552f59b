import PetaBricks.FormulaReplaceProofs
import PetaBricks.SizeInferenceModel

/-! # Solved sizes in C

    The solution of a linear equation, with the sign and one division outside, prints as a C
    expression that is the exact solution cut towards zero (`quotient_spec`).  Below the
    division everything is an integer, so nothing else is cut. -/

namespace PbSizeInference

open PbFormula Formula

/-! ## Cutting towards zero -/

/-- A rational cut towards zero. -/
def truncate (q : ℚ) : ℤ := q.num.tdiv q.den

theorem truncate_intCast (z : ℤ) : truncate z = z := by
  rw [truncate, Rat.num_intCast, Rat.den_intCast]
  exact Int.tdiv_one z

theorem truncate_neg (q : ℚ) : truncate (-q) = -truncate q := by
  rw [truncate, Rat.neg_num, Rat.neg_den, Int.neg_tdiv]
  rfl

theorem mul_tdiv_mul {c : ℤ} (hc : c ≠ 0) (n d : ℤ) : (c * n).tdiv (c * d) = n.tdiv d := by
  rcases lt_or_gt_of_ne hc with hneg | hpos
  · rw [← neg_neg (c * n), ← neg_neg (c * d), Int.neg_tdiv, Int.tdiv_neg, neg_neg, ← neg_mul,
      ← neg_mul]
    exact Int.mul_tdiv_mul_of_pos n d (Int.neg_pos_of_neg hneg)
  · exact Int.mul_tdiv_mul_of_pos n d hpos

/-- **C DIVIDES BY CUTTING THE EXACT QUOTIENT.** -/
theorem tdiv_eq_truncate (z : ℤ) {k : ℤ} (hk : k ≠ 0) : z.tdiv k = truncate (z / k) := by
  obtain ⟨c, hz, hden⟩ := Rat.num_den_mk hk (Rat.divInt_eq_div z k).symm
  have hc : c ≠ 0 := by
    rintro rfl
    rw [zero_mul] at hden
    exact hk hden
  calc z.tdiv k = (c * (z / k : ℚ).num).tdiv (c * (z / k : ℚ).den) := by rw [← hz, ← hden]
    _ = truncate (z / k) := mul_tdiv_mul hc _ _

/-! ## Values in C -/

/-- The value depends on the free variables only. -/
theorem product_congr {env env' : CEnv} {f : Formula}
    (h : ∀ x ∈ f.getFreeVariables, env x = env' x) : product env f = product env' f := by
  induction f with
  | var name => exact congrArg (Option.map _) (h name (Finset.mem_singleton_self name))
  | integer v => rfl
  | float v => rfl
  | bool b => rfl
  | binop op left right ihl ihr =>
      have hl := ihl fun x hx => h x (Finset.mem_union_left _ hx)
      have hr := ihr fun x hx => h x (Finset.mem_union_right _ hx)
      simp only [product, hl, hr]
  | ifThen c t => rfl
  | ifThenElse c t e => rfl

theorem evalC_congr {env env' : CEnv} {f : Formula}
    (h : ∀ x ∈ f.getFreeVariables, env x = env' x) : evalC env f = evalC env' f := by
  rw [evalC, evalC, product_congr h]

theorem value_one (v : ℤ) : Product.value ⟨v, 1⟩ = v := pow_one v

/-- An operator that is no power takes the values of its sides. -/
theorem product_binop {env : CEnv} {op : Op} (hop : op ≠ .pow) {left right : Formula} {a b v : ℤ}
    (ha : product env left = some ⟨a, 1⟩) (hb : product env right = some ⟨b, 1⟩)
    (hv : operate op ⟨a, 1⟩ ⟨b, 1⟩ = some v) :
    product env (.binop op left right) = some ⟨v, 1⟩ := by
  rw [product, if_neg hop, ha, hb]
  show (operate op ⟨a, 1⟩ ⟨b, 1⟩).map _ = _
  rw [hv]
  rfl

/-! ## Exact values -/

/-- One variable with a value. -/
def only (x : Name) (t : ℚ) : Env := fun y => if y = x then some (.num t) else none

/-- The operators of arithmetic but the power. -/
def Arithmetic (op : Op) : Prop := op = .add ∨ op = .sub ∨ op = .mul ∨ op = .div

theorem Arithmetic.ne_pow {op : Op} (h : Arithmetic op) : op ≠ .pow := by
  rcases h with rfl | rfl | rfl | rfl <;> decide

/-- Both sides of an operator have numbers if it gives one. -/
theorem Arithmetic.operands {op : Op} (h : Arithmetic op) {env : Env} {left right : Formula}
    {q : ℚ} (hq : (Formula.binop op left right).eval env = some (.num q)) :
    ∃ a b, left.eval env = some (.num a) ∧ right.eval env = some (.num b)
      ∧ op.eval (.num a) (.num b) = some (.num q) := by
  obtain ⟨a, ha, hq⟩ := Option.bind_eq_some_iff.mp hq
  obtain ⟨b, hb, hq⟩ := Option.bind_eq_some_iff.mp hq
  cases a with
  | num a =>
      cases b with
      | num b => exact ⟨a, b, ha, hb, hq⟩
      | bool b => rcases h with rfl | rfl | rfl | rfl <;> cases hq
  | bool a => rcases h with rfl | rfl | rfl | rfl <;> cases b <;> cases hq

/-! ## Answers of the solver -/

/-- An integer formula without division or power. -/
inductive IsPolynomial : Formula → Prop
  | var (x : Name) : IsPolynomial (.var x)
  | integer (v : ℤ) : IsPolynomial (.integer v)
  | add {left right : Formula} (hl : IsPolynomial left) (hr : IsPolynomial right) :
      IsPolynomial (.binop .add left right)
  | sub {left right : Formula} (hl : IsPolynomial left) (hr : IsPolynomial right) :
      IsPolynomial (.binop .sub left right)
  | mul {left right : Formula} (hl : IsPolynomial left) (hr : IsPolynomial right) :
      IsPolynomial (.binop .mul left right)

/-- A canonical rational expression: the sign and one division stand outside. -/
inductive IsQuotient : Formula → Prop
  | polynomial {f : Formula} (h : IsPolynomial f) : IsQuotient f
  | quotient {f : Formula} (h : IsPolynomial f) (k : ℤ) :
      IsQuotient (.binop .div f (.integer k))
  | opposite {f : Formula} (h : IsQuotient f) : IsQuotient (.binop .sub (.integer 0) f)

/-- What `replace(tmp, call)` makes of a formula that prints. -/
structure Substituted (tmp call : Name) (f value : Formula) : Prop where
  printed : f.toString.isSome
  replaced : replace (.var tmp) (.var call) f = some value

section Substitution

variable {tmp call : Name} {left right l r : Formula}

theorem Substituted.integer (v : ℤ) : Substituted tmp call (.integer v) (.integer v) where
  printed := rfl
  replaced := by
    have hne : [Token.ident tmp] ≠ intText v := by
      rw [intText]
      split_ifs
      · rintro ⟨⟩
      · rintro ⟨⟩
    show Formula.replaceWhole _ _ _ = _
    rw [replaceWhole_var rfl, if_neg hne]

theorem Substituted.var (x : Name) :
    Substituted tmp call (.var x) (if x = tmp then .var call else .var x) where
  printed := rfl
  replaced := by
    show Formula.replaceWhole _ _ _ = _
    rw [replaceWhole_var rfl]
    by_cases hx : x = tmp
    · rw [if_pos hx, if_pos (by rw [hx])]
    · rw [if_neg hx, if_neg fun he => hx (Token.ident.inj (List.head_eq_of_cons_eq he)).symm]

theorem Substituted.binop {op : Op} (hop : op ≠ .pow) (hl : Substituted tmp call left l)
    (hr : Substituted tmp call right r) :
    Substituted tmp call (.binop op left right) (.binop op l r) := by
  obtain ⟨tl, htl⟩ := Option.isSome_iff_exists.mp hl.printed
  obtain ⟨tr, htr⟩ := Option.isSome_iff_exists.mp hr.printed
  have htext : (Formula.binop op left right).toString
      = some (.lparen :: tl ++ op.str :: tr ++ [.rparen]) := by
    show (if op = .pow then _ else _) = _
    rw [if_neg hop, htl, htr]
    rfl
  refine ⟨by rw [htext]; rfl, ?_⟩
  rw [replace_var_binop htext, if_neg, hl.replaced, hr.replaced]
  · rfl
  · rintro ⟨⟩

/-- `value` is an integer expression with the exact value of `f` at the size. -/
def Integral (tmp call : Name) (f value : Formula) : Prop :=
  ∀ (env : CEnv) (m : ℤ), env call = some m → ∀ q, f.eval (only tmp m) = some (.num q) →
    ∃ z : ℤ, q = z ∧ product env value = some ⟨z, 1⟩

/-- An operator that does the same to integers in C. -/
theorem Integral.binop {op : Op} (hop : Arithmetic op) (g : ℤ → ℤ → ℤ)
    (hexact : ∀ a b : ℤ, op.eval (.num a) (.num b) = some (.num (g a b : ℤ)))
    (hC : ∀ a b : ℤ, operate op ⟨a, 1⟩ ⟨b, 1⟩ = some (g a b))
    (hl : Integral tmp call left l) (hr : Integral tmp call right r) :
    Integral tmp call (.binop op left right) (.binop op l r) := by
  intro env m hm q hq
  obtain ⟨a, b, ha, hb, hab⟩ := hop.operands hq
  obtain ⟨za, rfl, hza⟩ := hl env m hm a ha
  obtain ⟨zb, rfl, hzb⟩ := hr env m hm b hb
  rw [hexact] at hab
  exact ⟨g za zb, (Value.num.inj (Option.some.inj hab)).symm,
    product_binop hop.ne_pow hza hzb (hC za zb)⟩

theorem operate_add (a b : ℤ) : operate .add ⟨a, 1⟩ ⟨b, 1⟩ = some (a + b) := by
  rw [operate, value_one, value_one]

theorem operate_sub (a b : ℤ) : operate .sub ⟨a, 1⟩ ⟨b, 1⟩ = some (a - b) := by
  rw [operate, value_one, value_one]

theorem operate_mul (a b : ℤ) : operate .mul ⟨a, 1⟩ ⟨b, 1⟩ = some (a * b) := by
  rw [operate, value_one, value_one]

theorem operate_div (a : ℤ) {b : ℤ} (hb : b ≠ 0) :
    operate .div ⟨a, 1⟩ ⟨b, 1⟩ = some (a.tdiv b) := by
  show (if b = 0 then none else some ((Product.value ⟨a, 1⟩).tdiv b * b ^ 0)) = _
  rw [if_neg hb, value_one, pow_zero, mul_one]

/-- A polynomial in `tmp` alone, at an integer. -/
theorem polynomial_spec {f : Formula} (h : IsPolynomial f) :
    ∃ value, Substituted tmp call f value ∧ Integral tmp call f value := by
  induction h with
  | var x =>
      refine ⟨_, .var x, fun env m hm q hq => ⟨m, ?_⟩⟩
      have hv : only tmp m x = some (.num q) := hq
      by_cases hx : x = tmp
      · rw [only, if_pos hx] at hv
        rw [if_pos hx]
        refine ⟨(Value.num.inj (Option.some.inj hv)).symm, ?_⟩
        show (env call).map _ = _
        rw [hm]
        rfl
      · rw [only, if_neg hx] at hv
        cases hv
  | integer v =>
      refine ⟨_, .integer v, fun env m hm q hq => ⟨v, ?_, rfl⟩⟩
      exact (Value.num.inj (Option.some.inj hq)).symm
  | add _ _ ihl ihr =>
      obtain ⟨l, hl, hlv⟩ := ihl
      obtain ⟨r, hr, hrv⟩ := ihr
      refine ⟨_, hl.binop (by decide) hr, hlv.binop (.inl rfl) (· + ·) ?_ operate_add hrv⟩
      intro a b
      rw [Int.cast_add]
      rfl
  | sub _ _ ihl ihr =>
      obtain ⟨l, hl, hlv⟩ := ihl
      obtain ⟨r, hr, hrv⟩ := ihr
      refine ⟨_, hl.binop (by decide) hr, hlv.binop (.inr (.inl rfl)) (· - ·) ?_ operate_sub hrv⟩
      intro a b
      rw [Int.cast_sub]
      rfl
  | mul _ _ ihl ihr =>
      obtain ⟨l, hl, hlv⟩ := ihl
      obtain ⟨r, hr, hrv⟩ := ihr
      refine ⟨_, hl.binop (by decide) hr,
        hlv.binop (.inr (.inr (.inl rfl))) (· * ·) ?_ operate_mul hrv⟩
      intro a b
      rw [Int.cast_mul]
      rfl

variable (tmp call) in
/-- **AN ANSWER IN C IS THE EXACT ONE, CUT.** -/
theorem quotient_spec {f : Formula} (h : IsQuotient f) :
    ∃ value, Substituted tmp call f value ∧ ∀ (env : CEnv) (m : ℤ), env call = some m →
      ∀ q, f.eval (only tmp m) = some (.num q) → product env value = some ⟨truncate q, 1⟩ := by
  induction h with
  | polynomial h =>
      obtain ⟨value, hsub, hv⟩ := polynomial_spec h
      refine ⟨value, hsub, fun env m hm q hq => ?_⟩
      obtain ⟨z, rfl, hz⟩ := hv env m hm q hq
      rw [truncate_intCast, hz]
  | quotient h k =>
      obtain ⟨value, hsub, hv⟩ := polynomial_spec h
      refine ⟨_, hsub.binop (by decide) (.integer k), fun env m hm q hq => ?_⟩
      obtain ⟨a, b, ha, hb, hab⟩ := Arithmetic.operands (.inr (.inr (.inr rfl))) hq
      obtain ⟨z, rfl, hz⟩ := hv env m hm a ha
      obtain rfl := Value.num.inj (Option.some.inj hb)
      have hdiv : (if (k : ℚ) = 0 then none else some (Value.num (z / k))) = some (.num q) := hab
      by_cases hk : k = 0
      · rw [if_pos (by rw [hk, Int.cast_zero])] at hdiv
        cases hdiv
      · rw [if_neg (fun h0 => hk (Int.cast_eq_zero.mp h0))] at hdiv
        obtain rfl := Value.num.inj (Option.some.inj hdiv)
        refine product_binop (by decide) hz rfl ?_
        rw [operate_div z hk, tdiv_eq_truncate z hk]
  | opposite _ ih =>
      obtain ⟨value, hsub, hv⟩ := ih
      refine ⟨_, Substituted.binop (by decide) (.integer 0) hsub, fun env m hm q hq => ?_⟩
      obtain ⟨a, b, ha, hb, hab⟩ := Arithmetic.operands (.inr (.inl rfl)) hq
      obtain rfl := Value.num.inj (Option.some.inj ha)
      have hq' : q = -b := by
        rw [← Value.num.inj (Option.some.inj hab), Int.cast_zero, zero_sub]
      refine product_binop (by decide) rfl (hv env m hm b hb) ?_
      rw [operate_sub, hq', truncate_neg, zero_sub]

end Substitution

end PbSizeInference
