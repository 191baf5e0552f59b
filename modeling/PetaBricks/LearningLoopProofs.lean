import PetaBricks.FormulaEvolveProofs

/-! # Heuristics in the learning loop

    A formula of Maxima's output goes into the `.info` file, is parsed by the learning
    compiler, mutated and printed, any number of times.  The names, the absence of powers
    (the C++ code prints them as products) and the shape of the tree are kept by every step;
    what the two parsers read of a printed tree then has its value, if each constant is
    printed exactly. -/

namespace PbMaximaParser

open PbFormula PbDecimal PbLexer PbYacc PbYacc.Grammar

/-! ## Mutations change constants -/

/-- Equal up to the constants. -/
inductive Same : Formula → Formula → Prop
  | var (name : Name) : Same (.var name) (.var name)
  | integer (v w : ℤ) : Same (.integer v) (.integer w)
  | float (p q : ℚ) : Same (.float p) (.float q)
  | bool (a b : Bool) : Same (.bool a) (.bool b)
  | binop {o : Op} {l l' r r' : Formula} : Same l l' → Same r r' →
      Same (.binop o l r) (.binop o l' r')
  | ifThen {c c' t t' : Formula} : Same c c' → Same t t' → Same (.ifThen c t) (.ifThen c' t')
  | ifThenElse {c c' t t' e e' : Formula} : Same c c' → Same t t' → Same e e' →
      Same (.ifThenElse c t e) (.ifThenElse c' t' e')

theorem Same.refl (f : Formula) : Same f f := by
  induction f with
  | var name => exact .var name
  | integer v => exact .integer v v
  | float q => exact .float q q
  | bool b => exact .bool b b
  | binop o l r ihl ihr => exact .binop ihl ihr
  | ifThen c t ihc iht => exact .ifThen ihc iht
  | ifThenElse c t e ihc iht ihe => exact .ifThenElse ihc iht ihe

theorem evolveValue_same (draw : List ℕ → Draw) (f : Formula) (path : List ℕ) :
    Same f (f.evolveValue draw path).1 := by
  induction f generalizing path with
  | var name => exact .var name
  | integer v => exact .integer _ _
  | float q => exact .float _ _
  | bool b => exact .bool _ _
  | binop o l r ihl ihr =>
      simp only [Formula.evolveValue]
      split
      · split
        · exact .binop (ihl _) (.refl r)
        · exact .binop (ihl _) (ihr _)
      · split
        · exact .binop (.refl l) (ihr _)
        · exact .binop (ihl _) (ihr _)
  | ifThen c t ihc iht =>
      simp only [Formula.evolveValue]
      split
      · exact .ifThen (ihc _) (.refl t)
      · exact .ifThen (.refl c) (iht _)
      · exact .refl _
  | ifThenElse c t e ihc iht ihe =>
      simp only [Formula.evolveValue]
      split
      · exact .ifThenElse (ihc _) (.refl t) (.refl e)
      · exact .ifThenElse (.refl c) (iht _) (.refl e)
      · exact .ifThenElse (.refl c) (.refl t) (ihe _)
      · exact .refl _

/-- What returns false has changed nothing, as the order in which clauses are tried needs. -/
theorem evolveValue_false (draw : List ℕ → Draw) (f : Formula) (path : List ℕ)
    (h : (f.evolveValue draw path).2 = false) : (f.evolveValue draw path).1 = f := by
  induction f generalizing path with
  | var name => rfl
  | integer v => cases h
  | float q => cases h
  | bool b => cases h
  | binop o l r ihl ihr =>
      simp only [Formula.evolveValue] at h ⊢
      split
      · rename_i hhalf
        rw [if_pos hhalf] at h
        split
        · rename_i hl
          rw [if_pos hl] at h
          cases h
        · rename_i hl
          rw [if_neg hl] at h
          rw [ihl _ (Bool.not_eq_true _ ▸ hl), ihr _ h]
      · rename_i hhalf
        rw [if_neg hhalf] at h
        split
        · rename_i hr
          rw [if_pos hr] at h
          cases h
        · rename_i hr
          rw [if_neg hr] at h
          rw [ihr _ (Bool.not_eq_true _ ▸ hr), ihl _ h]
  | ifThen c t ihc iht =>
      simp only [Formula.evolveValue] at h ⊢
      split at h
      · cases h
      · cases h
      · rfl
  | ifThenElse c t e ihc iht ihe =>
      simp only [Formula.evolveValue] at h ⊢
      split at h
      · cases h
      · cases h
      · cases h
      · rfl

/-! ## What the loop keeps -/

def NoPower : Formula → Prop
  | .binop op left right => op ≠ .pow ∧ NoPower left ∧ NoPower right
  | .ifThen cond thenClause => NoPower cond ∧ NoPower thenClause
  | .ifThenElse cond thenClause elseClause =>
      NoPower cond ∧ NoPower thenClause ∧ NoPower elseClause
  | _ => True

/-- A tree as it comes from the compiler, and is read back. -/
structure Loop (f : Formula) : Prop where
  named : Named f
  noPower : NoPower f
  unambiguous : Unambiguous f

namespace Same

variable {f g : Formula}

theorem named (h : Same f g) (hf : Named f) : Named g := by
  induction h with
  | var name => exact hf
  | integer v w => trivial
  | float p q => trivial
  | bool a b => trivial
  | binop _ _ ihl ihr => exact ⟨ihl hf.1, ihr hf.2⟩
  | ifThen _ _ ihc iht => exact ⟨ihc hf.1, iht hf.2⟩
  | ifThenElse _ _ _ ihc iht ihe => exact ⟨ihc hf.1, iht hf.2.1, ihe hf.2.2⟩

theorem noPower (h : Same f g) (hf : NoPower f) : NoPower g := by
  induction h with
  | var name => trivial
  | integer v w => trivial
  | float p q => trivial
  | bool a b => trivial
  | binop _ _ ihl ihr => exact ⟨hf.1, ihl hf.2.1, ihr hf.2.2⟩
  | ifThen _ _ ihc iht => exact ⟨ihc hf.1, iht hf.2⟩
  | ifThenElse _ _ _ ihc iht ihe => exact ⟨ihc hf.1, iht hf.2.1, ihe hf.2.2⟩

theorem isIf (h : Same f g) : IsIf g → IsIf f := by
  intro hg
  cases h <;> exact hg

theorem isOpen (h : Same f g) : Open g → Open f := by
  intro hg
  induction h with
  | ifThenElse _ _ _ _ _ ihe => exact ihe hg
  | ifThen _ _ _ _ => trivial
  | _ => exact hg

theorem unambiguous (h : Same f g) (hf : Unambiguous f) : Unambiguous g := by
  induction h with
  | var name => trivial
  | integer v w => trivial
  | float p q => trivial
  | bool a b => trivial
  | binop hl _ ihl ihr =>
      exact ⟨ihl hf.1, ihr hf.2.1, fun hlevel hif => hf.2.2 hlevel (hl.isIf hif)⟩
  | ifThen _ _ ihc iht => exact ⟨ihc hf.1, iht hf.2⟩
  | ifThenElse _ ht _ ihc iht ihe =>
      exact ⟨ihc hf.1, iht hf.2.1, ihe hf.2.2.1, fun hopen => hf.2.2.2 (ht.isOpen hopen)⟩

theorem loop (h : Same f g) (hf : Loop f) : Loop g :=
  ⟨h.named hf.named, h.noPower hf.noPower, h.unambiguous hf.unambiguous⟩

end Same

section Reread

variable {int : ℕ → ℤ} {f : Formula}

theorem isIf_reread (h : IsIf (reread int f)) : IsIf f := by
  cases f with
  | binop o l r =>
      rw [reread] at h
      split at h <;> exact h.elim
  | ifThen c t => trivial
  | ifThenElse c t e => trivial
  | integer v =>
      rw [reread] at h
      · split at h <;> exact h.elim
      all_goals
        intros
        rename_i heq
        cases heq
  | float q =>
      rw [reread] at h
      · split at h <;> exact h.elim
      all_goals
        intros
        rename_i heq
        cases heq
  | _ => exact h

theorem open_reread (h : Open (reread int f)) : Open f := by
  induction f with
  | binop o l r =>
      rw [reread] at h
      split at h <;> exact h.elim
  | ifThen c t => trivial
  | ifThenElse c t e ihc iht ihe => exact ihe h
  | integer v =>
      rw [reread] at h
      · split at h <;> exact h.elim
      all_goals
        intros
        rename_i heq
        cases heq
  | float q =>
      rw [reread] at h
      · split at h <;> exact h.elim
      all_goals
        intros
        rename_i heq
        cases heq
  | _ => exact h

theorem loop_negated (h : Loop f) : Loop (negated f) :=
  ⟨⟨trivial, h.named⟩, ⟨nofun, trivial, h.noPower⟩, trivial, h.unambiguous, fun _ => id⟩

theorem loop_binop {o : Op} {l r : Formula} (ho : o ≠ .pow) (hl : Loop l) (hr : Loop r)
    (hif : 3 < level o → ¬ IsIf l) : Loop (.binop o l r) :=
  ⟨⟨hl.named, hr.named⟩, ⟨ho, hl.noPower, hr.noPower⟩, hl.unambiguous, hr.unambiguous, hif⟩

/-- Negative trees are constants. -/
theorem loop_magnitude (h : Negative f) : Loop (magnitude int f) ∧ ¬ IsIf (magnitude int f) := by
  cases f with
  | integer v => exact ⟨⟨trivial, trivial, trivial⟩, id⟩
  | float q => exact ⟨⟨trivial, trivial, trivial⟩, id⟩
  | _ => exact h.elim

theorem loop_constant (h : Loop (magnitude int f)) :
    Loop (if Negative f then negated (magnitude int f) else magnitude int f) := by
  split
  · exact loop_negated h
  · exact h

/-- What is read of a tree has its names, no powers, and its shape. -/
theorem reread_loop (h : Loop f) : Loop (reread int f) := by
  induction f with
  | var name => exact h
  | integer v => exact loop_constant (f := .integer v) ⟨trivial, trivial, trivial⟩
  | float q => exact loop_constant (f := .float q) ⟨trivial, trivial, trivial⟩
  | bool b => exact h
  | binop o l r ihl ihr =>
      have hl : Loop l := ⟨h.named.1, h.noPower.2.1, h.unambiguous.1⟩
      have hr : Loop r := ⟨h.named.2, h.noPower.2.2, h.unambiguous.2.1⟩
      rw [reread]
      split
      · rename_i hneg
        have hmag : Loop (magnitude int l) ∧ ¬ IsIf (magnitude int l) := loop_magnitude hneg.2
        exact loop_negated (loop_binop h.noPower.1 hmag.1 (ihr hr) fun _ => hmag.2)
      · exact loop_binop h.noPower.1 (ihl hl) (ihr hr) fun hlevel hif =>
          h.unambiguous.2.2 hlevel (isIf_reread hif)
  | ifThen c t ihc iht =>
      have hc := ihc ⟨h.named.1, h.noPower.1, h.unambiguous.1⟩
      have ht := iht ⟨h.named.2, h.noPower.2, h.unambiguous.2⟩
      exact ⟨⟨hc.named, ht.named⟩, ⟨hc.noPower, ht.noPower⟩, hc.unambiguous, ht.unambiguous⟩
  | ifThenElse c t e ihc iht ihe =>
      have hc := ihc ⟨h.named.1, h.noPower.1, h.unambiguous.1⟩
      have ht := iht ⟨h.named.2.1, h.noPower.2.1, h.unambiguous.2.1⟩
      have he := ihe ⟨h.named.2.2, h.noPower.2.2, h.unambiguous.2.2.1⟩
      exact ⟨⟨hc.named, ht.named, he.named⟩, ⟨hc.noPower, ht.noPower, he.noPower⟩,
        hc.unambiguous, ht.unambiguous, he.unambiguous,
        fun hopen => h.unambiguous.2.2.2 (open_reread hopen)⟩

end Reread

/-- Clean tokens give a tree with names of Maxima's output and no powers. -/
theorem clean_keeps {int : ℕ → ℤ} :
    (grammar int).Keeps (fun f => Named f ∧ NoPower f) (· ≠ .pow) where
  unary _ _ he := ⟨⟨trivial, he.1⟩, (fun hpow => by cases hpow), trivial, he.2⟩
  binary _ _ _ ho hl hr := ⟨⟨hl.1, hr.1⟩, ho, hl.2, hr.2⟩
  ifThen _ _ hc ht := ⟨⟨hc.1, ht.1⟩, hc.2, ht.2⟩
  ifElse _ _ _ hc ht he := ⟨⟨hc.1, ht.1, he.1⟩, hc.2, ht.2, he.2⟩
  call f args e hargs h := by
    simp only [grammar] at h
    split at h
    · cases h
      have ha := hargs _ List.mem_cons_self
      have hb := hargs _ (List.mem_cons_of_mem _ List.mem_cons_self)
      exact ⟨⟨ha.1, hb.1⟩, (fun hpow => by cases hpow), ha.2, hb.2⟩
    · cases h
      exact hargs _ List.mem_cons_self
    · cases h
      exact hargs _ List.mem_cons_self
    · cases h

/-- What the learning compiler reads in the `.info` file. -/
theorem exported_loop {f t0 : Formula} (hn : Named f) {t : List Char} (h : f.cppChars = some t)
    (h0 : pyParse t = some t0) (hu : Unambiguous t0) : Loop t0 := by
  obtain ⟨ts, hclean, hparse⟩ := accepted_clean hn h h0
  have hkeeps := clean_keeps.parse (fun k hk e he => ?_) (fun k hk o ho => ?_) hparse
  · exact ⟨hkeeps.1, hkeeps.2, hu⟩
  · simp only [grammar] at he
    split at he
    · rename_i w
      cases he
      refine ⟨?_, trivial⟩
      rw [Named, String.toList_ofList]
      exact (hclean _ hk).1 w rfl
    all_goals cases he
    all_goals exact ⟨trivial, trivial⟩
  · rintro rfl
    have hcaret : k = .lit '^' := by
      simp only [grammar, binary] at ho
      split at ho <;> first | rfl | cases ho
    exact (hclean k hk).2 hcaret

/-- **EVERY RUN** keeps that. -/
theorem learned_loop {t0 u : Formula} (h : Loop t0) (hu : Formula.Learned t0 u) : Loop u := by
  induction hu with
  | start => exact h
  | evolve draw _ ih => exact (evolveValue_same draw _ []).loop ih
  | reparse _ hparse ih =>
      obtain ⟨-, rfl⟩ := pyParse_repr ih.named ih.unambiguous hparse
      exact reread_loop ih

/-! ## Values -/

/-- A constant is an `int` in C++, and the digits of a float give it again. -/
def Exact : Formula → Prop
  | .integer v => v.natAbs < 2 ^ 31
  | .float q => PlainRepr (.float q) ∧ toDouble (printedFloat q) = |q|
  | .binop _ left right => Exact left ∧ Exact right
  | .ifThen cond thenClause => Exact cond ∧ Exact thenClause
  | .ifThenElse cond thenClause elseClause => Exact cond ∧ Exact thenClause ∧ Exact elseClause
  | _ => True

theorem Exact.plainRepr {f : Formula} (h : Exact f) : PlainRepr f := by
  induction f with
  | float q => exact h.1
  | binop o l r ihl ihr => exact ⟨ihl h.1, ihr h.2⟩
  | ifThen c t ihc iht => exact ⟨ihc h.1, iht h.2⟩
  | ifThenElse c t e ihc iht ihe => exact ⟨ihc h.1, iht h.2.1, ihe h.2.2⟩
  | _ => trivial

theorem stringToInt_eq {n : ℕ} (h : n < 2 ^ 31) : stringToInt n = n := by
  norm_num at h
  have hmin : min n 9223372036854775807 = n := by omega
  have hcut : stringToInt n = Int.bmod (min n 9223372036854775807 : ℕ) 4294967296 := by
    unfold stringToInt
    norm_num
  rw [hcut, hmin]
  exact Int.bmod_eq_of_le (by omega) (by omega)

theorem eval_negated (env : Env) (f : Formula) :
    (negated f).eval env = (f.eval env).bind fun v => Op.sub.eval (.num 0) v := by
  show (some (Value.num ((0 : ℤ) : ℚ))).bind _ = _
  rw [Option.bind_some, Int.cast_zero]

/-- The sign of a factor is the sign of the product or quotient. -/
theorem eval_sign {o : Op} (ho : 4 < level o) (hpow : o ≠ .pow) (q : ℚ) (b : Value) :
    (o.eval (.num |q|) b).bind (fun v => Op.sub.eval (.num 0) v) = o.eval (.num (-|q|)) b := by
  cases o with
  | mul =>
      cases b with
      | num b =>
          show some (Value.num (0 - |q| * b)) = some (Value.num (-|q| * b))
          rw [zero_sub, neg_mul]
      | bool b => rfl
  | div =>
      cases b with
      | num b =>
          simp only [Op.eval]
          split
          · rfl
          · show some (Value.num (0 - |q| / b)) = some (Value.num (-|q| / b))
            rw [zero_sub, neg_div]
      | bool b => rfl
  | pow => exact absurd rfl hpow
  | _ => exact absurd ho (by decide)

section Values

variable {int : ℕ → ℤ} (hint : ∀ n < 2 ^ 31, int n = n) (env : Env)
include hint

/-- The value of a constant without its sign. -/
theorem eval_magnitude {f : Formula} (h : Exact f) {q : ℚ}
    (hq : f = .float q ∨ ∃ v, f = .integer v ∧ q = v) :
    (magnitude int f).eval env = some (.num |q|) := by
  rcases hq with rfl | ⟨v, rfl, rfl⟩
  · show some (Value.num (toDouble (printedFloat q))) = _
    rw [h.2]
  · show some (Value.num ((int v.natAbs : ℤ) : ℚ)) = _
    rw [hint _ h]
    congr 2
    rw [← Int.cast_abs, Int.abs_eq_natAbs]

theorem eval_constant {f : Formula} (h : Exact f) {q : ℚ}
    (hq : f = .float q ∨ ∃ v, f = .integer v ∧ q = v) :
    (if Negative f then negated (magnitude int f) else magnitude int f).eval env =
      some (.num q) := by
  have hsign : Negative f ↔ q < 0 := by
    rcases hq with rfl | ⟨v, rfl, rfl⟩
    · exact Iff.rfl
    · exact Int.cast_lt_zero.symm
  have hmag := eval_magnitude hint env h hq
  by_cases hneg : Negative f
  · rw [if_pos hneg, eval_negated, hmag]
    show some (Value.num (0 - |q|)) = _
    rw [abs_of_neg (hsign.mp hneg), zero_sub, neg_neg]
  · rw [if_neg hneg, hmag, abs_of_nonneg (not_lt.mp fun h => hneg (hsign.mpr h))]

/-- **WHAT IS READ HAS THE VALUE OF THE TREE.** -/
theorem eval_reread {f : Formula} (h : Exact f) (hp : NoPower f) :
    (reread int f).eval env = f.eval env := by
  induction f with
  | var name => rfl
  | integer v => exact eval_constant hint env h (.inr ⟨v, rfl, rfl⟩)
  | float q => exact eval_constant hint env h (.inl rfl)
  | bool b => rfl
  | binop o l r ihl ihr =>
      have hr := ihr h.2 hp.2.2
      rw [reread]
      split
      · rename_i hneg
        obtain ⟨q, hq⟩ : ∃ q : ℚ, l = .float q ∨ ∃ v, l = .integer v ∧ q = v := by
          cases l with
          | integer v => exact ⟨v, .inr ⟨v, rfl, rfl⟩⟩
          | float q => exact ⟨q, .inl rfl⟩
          | _ => exact hneg.2.elim
        have hvalue := eval_constant hint env h.1 hq
        have hmag := eval_magnitude hint env h.1 hq
        rw [if_pos hneg.2, eval_negated, hmag] at hvalue
        have hq' : -|q| = q := by
          have heq : (0 : ℚ) - |q| = q := Value.num.inj (Option.some.inj hvalue)
          rwa [zero_sub] at heq
        have hl : l.eval env = some (.num q) := by
          rcases hq with rfl | ⟨v, rfl, rfl⟩ <;> rfl
        rw [eval_negated, Formula.eval, Formula.eval, hmag, hl, hr, Option.bind_some,
          Option.bind_some, Option.bind_assoc]
        congr 1
        funext b
        rw [eval_sign hneg.1 hp.1, hq']
      · rw [Formula.eval, Formula.eval, ihl h.1 hp.2.1, hr]
  | ifThen c t ihc iht =>
      rw [reread, Formula.eval, Formula.eval, ihc h.1 hp.1]
      congr 1
      funext v
      rw [iht h.2 hp.2]
  | ifThenElse c t e ihc iht ihe =>
      rw [reread, Formula.eval, Formula.eval, ihc h.1 hp.1]
      congr 1
      funext v
      rw [iht h.2.1 hp.2.1, ihe h.2.2 hp.2.2]

end Values

/-! ## The loop -/

/-- Both parsers accept the printed tree, and read it with its value. -/
def Survives (u : Formula) : Prop :=
  ∃ v w, pyParse u.repr = some v ∧ maximaParse u.repr = some w ∧
    ∀ env, v.eval env = u.eval env ∧ w.eval env = u.eval env

theorem Loop.survives {u : Formula} (h : Loop u) (he : Exact u) : Survives u := by
  obtain ⟨ts, hlex, hread⟩ := reads_repr pyScan_scans h.named he.plainRepr h.unambiguous
  obtain ⟨us, hlexu, hreadu⟩ := reads_repr maximaScan_scans h.named he.plainRepr h.unambiguous
  refine ⟨reread Nat.cast u, reread stringToInt u, ?_, ?_, fun env => ⟨?_, ?_⟩⟩
  · rw [pyParse, hlex.tokens Break.nil, Option.bind_some, (hread []).parse trivial]
  · rw [maximaParse, hlexu.tokens Break.nil, Option.bind_some, (hreadu []).parse trivial]
  · exact eval_reread (fun _ _ => rfl) env he h.noPower
  · exact eval_reread (fun _ => stringToInt_eq) env he h.noPower

/-- **HEURISTICS IN THE LEARNING LOOP**: what the compiler writes is accepted exactly if it
    can be exported; if the tree read of it is unambiguous, every tree of every run survives
    whose constants are exact. -/
theorem survives_learning {s : List Char} {f : Formula} (hf : maximaParse s = some f)
    {t : List Char} (ht : f.cppChars = some t) :
    ((∃ t0, (attributeValue (escapeXML t)).bind pyParse = some t0) ↔ Exportable f) ∧
    ∀ t0, (attributeValue (escapeXML t)).bind pyParse = some t0 → Unambiguous t0 →
      ∀ u, Formula.Learned t0 u → Exact u → Survives u := by
  have hn := named_of_maximaParse hf
  rw [attributeValue_escapeXML, Option.bind_some]
  refine ⟨accepted_iff hn ht, fun t0 h0 hu u hlearned he => ?_⟩
  exact (learned_loop (exported_loop hn ht h0 hu) hlearned).survives he

/-- `if x < 1 then x/4 else 2`. -/
def clipped : Formula :=
  .ifThenElse (.binop .lt (.var "x") (.integer 1)) (.binop .div (.var "x") (.integer 4)) (.integer 2)

/-- Numbers with which each integer is halved, with the choices shuffled as given. -/
def halving (choices : List (Fin 3)) (h : choices.Perm [0, 1, 2]) : Draw where
  mutates := false
  half := true
  uniform := -1 / 2
  uniform_mem := by norm_num
  otherInteger v := if v = 0 then 1 else 0
  otherInteger_mem v := by split <;> omega
  otherFloat q := if q = 0 then 1 else 0
  otherFloat_mem q := by
    split
    · rename_i hq
      rw [hq]
      norm_num
    · rename_i hq
      exact ⟨Ne.symm hq, by norm_num, by norm_num⟩
  order := choices
  order_perm := h

theorem survives_learning_clipped : Exportable clipped ∧
    Survives (.ifThenElse (.binop .lt (.var "x") (.integer 1))
      (.binop .div (.var "x") (.integer 2)) (.integer 2)) := by
  have hf : maximaParse "if x < 1 then x/4 else 2".toList = some clipped := by decide +kernel
  have ht : clipped.cppChars = some "(if (x < 1) then (x / 4) else 2 )".toList := by decide +kernel
  have h0 : (attributeValue (escapeXML "(if (x < 1) then (x / 4) else 2 )".toList)).bind pyParse =
      some clipped := by decide +kernel
  obtain ⟨hexport, hsurvives⟩ := survives_learning hf ht
  refine ⟨hexport.mp ⟨clipped, h0⟩, ?_⟩
  have hu : Unambiguous clipped := ⟨⟨trivial, trivial, fun _ => id⟩, ⟨trivial, trivial, fun _ => id⟩,
    trivial, id⟩
  have hlearned : Formula.Learned clipped
      (.ifThenElse (.binop .lt (.var "x") (.integer 1))
        (.binop .div (.var "x") (.integer 2)) (.integer 2)) := by
    have hevolve := Formula.Learned.evolve (fun _ => halving [1, 0, 2] (by decide))
      (@Formula.Learned.start clipped)
    have hvalue : (clipped.evolveValue (fun _ => halving [1, 0, 2] (by decide)) []).1 =
        .ifThenElse (.binop .lt (.var "x") (.integer 1))
          (.binop .div (.var "x") (.integer 2)) (.integer 2) := by decide +kernel
    rwa [hvalue] at hevolve
  refine hsurvives clipped h0 hu _ hlearned ?_
  have hsmall : ∀ v : ℤ, v.natAbs < 5 → Exact (.integer v) := fun v hv =>
    lt_trans hv (by norm_num)
  exact ⟨⟨trivial, hsmall 1 (by decide)⟩, ⟨trivial, hsmall 2 (by decide)⟩, hsmall 2 (by decide)⟩

/-- `(if x < 1 then 1 else 2) + x`. -/
def shifted : Formula :=
  .binop .add (.ifThenElse (.binop .lt (.var "x") (.integer 1)) (.integer 1) (.integer 2)) (.var "x")

/-- `x = 1` is written with `==`, which is an error; the sum is exported, but is printed without
    the parentheses around the conditional, and read as `if x < 1 then 1 else 2 + x`. -/
theorem learning_loses :
    (∃ f t, maximaParse "x = 1".toList = some f ∧ f.cppChars = some t ∧
      (attributeValue (escapeXML t)).bind pyParse = none) ∧
    ∃ t, maximaParse "(if x < 1 then 1 else 2) + x".toList = some shifted ∧
      shifted.cppChars = some t ∧ (attributeValue (escapeXML t)).bind pyParse = some shifted ∧
      Formula.Learned shifted shifted ∧ ¬ Survives shifted := by
  refine ⟨⟨.binop .eq (.var "x") (.integer 1), "x==1".toList, by decide +kernel, by decide +kernel,
    by decide +kernel⟩, "((if (x < 1) then 1 else 2 ) + x)".toList, by decide +kernel,
    by decide +kernel, by decide +kernel, .start, ?_⟩
  rintro ⟨v, w, hv, -, hvalue⟩
  have hread : pyParse shifted.repr = some (.ifThenElse (.binop .lt (.var "x") (.integer 1))
      (.integer 1) (.binop .add (.integer 2) (.var "x"))) := by decide +kernel
  rw [hread] at hv
  cases hv
  have hone := (hvalue fun _ => some (.num (-1))).1
  exact absurd hone (by decide +kernel)

end PbMaximaParser
