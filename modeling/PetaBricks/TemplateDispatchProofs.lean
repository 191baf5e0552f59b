import PetaBricks.TemplateDispatchModel

/-! # When the jump table dispatches

    The expression is read as the sum it is meant to be if a `+` stands in front of every argument
    but the first, and no minus in front of a minus.  There is a `+` where the product of the
    ranges so far is above 1; a first argument with one value only leaves it out. -/

namespace PbTemplateDispatch

open PbConfigItem PbDecimal PbLexer PbMixedRadix PbPrecedence

/-! ## The tokens -/

/-- Names as C has them. -/
def IsIdent (s : Name) : Prop := ∃ c t, s = c :: t ∧ identStart c = true ∧ ∀ d ∈ t, identChar d = true

section Lexing

theorem isDigit_ident {c : Char} (h : c.isDigit = true) : identChar c = true := by
  simp only [identChar, Char.isAlphanum, h, Bool.or_true, Bool.true_or]

/-- A character of no operator. -/
def Plain (c : Char) : Prop := c ≠ ' ' ∧ c ≠ '(' ∧ c ≠ ')' ∧ c ≠ '*' ∧ c ≠ '+' ∧ c ≠ '-'

theorem identChar_plain {c : Char} (h : identChar c = true) : Plain c := by
  refine ⟨?_, ?_, ?_, ?_, ?_, ?_⟩ <;> rintro rfl <;> exact absurd h (by decide)

theorem identStart_ident {c : Char} (h : identStart c = true) :
    identChar c = true ∧ c.isDigit = false := by
  simp only [identStart, Bool.or_eq_true, beq_iff_eq] at h
  rcases h with halpha | rfl
  · refine ⟨by simp only [identChar, Char.isAlphanum, halpha, Bool.true_or], ?_⟩
    by_contra hdigit
    rw [isAlpha_of_isDigit (Bool.not_eq_false _ ▸ hdigit)] at halpha
    cases halpha
  · exact ⟨by decide, by decide⟩

theorem nextToken_plain {c : Char} {t : List Char} (h : Plain c) : nextToken (c :: t) =
    if c.isDigit then
      some (some (.num (ofDigits ((c :: t).takeWhile Char.isDigit))),
        (c :: t).dropWhile Char.isDigit)
    else if identStart c then
      some (some (.ident ((c :: t).takeWhile identChar)), (c :: t).dropWhile identChar)
    else none := by
  obtain ⟨h1, h2, h3, h4, h5, h6⟩ := h
  rw [nextToken]
  all_goals simp_all

theorem nextToken_consumes : Consumes nextToken := by
  intro t r h
  rw [nextToken.eq_def] at h
  split at h
  · cases h
  all_goals first
    | (obtain rfl := Option.some.inj h; simp only [List.length_cons]; omega)
    | skip
  rename_i c t _ _ _ _ _ _ _ _
  have hdrop : ∀ P : Char → Bool, P c = true →
      ((c :: t).dropWhile P).length < (c :: t).length := by
    intro P hP
    rw [List.dropWhile_cons_of_pos hP, List.length_cons]
    exact Nat.lt_succ_of_le (List.dropWhile_suffix P).length_le
  split at h
  · rename_i hdigit
    obtain rfl := Option.some.inj h
    exact hdrop _ hdigit
  · split at h
    · rename_i hstart
      obtain rfl := Option.some.inj h
      exact hdrop _ (identStart_ident hstart).1
    · cases h

/-- What no identifier goes on with. -/
def Break (r : List Char) : Prop := ∀ c ∈ r.head?, identChar c = false

/-- A minus that stays one. -/
def NoMinus (r : List Char) : Prop := ∀ c ∈ r.head?, c ≠ '-'

theorem Break.noDigit {r : List Char} (h : Break r) : NoDigit r := by
  intro c hc
  by_contra hdigit
  have hident := isDigit_ident (Bool.not_eq_false _ ▸ hdigit)
  rw [h c hc] at hident
  cases hident

theorem lexes_ident {s : Name} (hs : IsIdent s) : Lexes nextToken Break s [.ident s] := by
  obtain ⟨c, t, rfl, hstart, ht⟩ := hs
  refine Lexes.one nextToken_consumes (k := some (.ident (c :: t))) fun r hr => ?_
  obtain ⟨hident, hdigit⟩ := identStart_ident hstart
  have hall : ∀ d ∈ c :: t, identChar d = true := by
    intro d hd
    rcases List.mem_cons.mp hd with rfl | hd
    · exact hident
    · exact ht d hd
  have htake : (c :: t ++ r).takeWhile identChar = c :: t := by
    rw [List.takeWhile_append_of_pos hall]
    cases r with
    | nil => exact List.append_nil _
    | cons d r => rw [List.takeWhile_cons_of_neg (by rw [hr d rfl]; decide), List.append_nil]
  have hdrop : (c :: t ++ r).dropWhile identChar = r := by
    rw [List.dropWhile_append_of_pos hall]
    cases r with
    | nil => rfl
    | cons d r => rw [List.dropWhile_cons_of_neg (by rw [hr d rfl]; decide)]
  rw [List.cons_append] at htake hdrop ⊢
  rw [nextToken_plain (identChar_plain hident), if_neg (by rw [hdigit]; decide), if_pos hstart,
    htake, hdrop]

theorem lexes_num (n : ℕ) : Lexes nextToken NoDigit (digitsText n) [.num n] := by
  refine Lexes.one nextToken_consumes (k := some (.num n)) fun r hr => ?_
  have hall := digitsText_isDigit n
  have htake := takeWhile_digits hall hr
  have hdrop := dropWhile_digits hall hr
  obtain ⟨c, t, hc, hdigit⟩ := digitsText_eq_cons n
  rw [hc, List.cons_append] at htake hdrop
  rw [hc, List.cons_append, nextToken_plain (identChar_plain (isDigit_ident hdigit)),
    if_pos hdigit, htake, hdrop, ← hc, ofDigits_digitsText]

/-- A single character. -/
theorem lexes_char {c : Char} {k : Token} (h : ∀ r, nextToken (c :: r) = some (some k, r))
    {B : List Char → Prop} : Lexes nextToken B [c] [k] :=
  Lexes.one nextToken_consumes (k := some k) fun r _ => h r

theorem lexes_blank {B : List Char → Prop} : Lexes nextToken B [' '] [] :=
  Lexes.one nextToken_consumes (k := none) fun _ _ => by rw [List.singleton_append, nextToken]

theorem lexes_plus : Lexes nextToken (fun r => ∀ c ∈ r.head?, c ≠ '+') ['+'] [.plus] := by
  refine Lexes.one nextToken_consumes (k := some .plus) fun r hr => ?_
  rw [List.singleton_append, nextToken]
  rintro t rfl
  exact hr '+' rfl rfl

theorem lexes_minus : Lexes nextToken NoMinus ['-'] [.minus] := by
  refine Lexes.one nextToken_consumes (k := some .minus) fun r hr => ?_
  rw [List.singleton_append, nextToken]
  rintro t rfl
  exact hr '-' rfl rfl

/-- A minus and a constant: two of them are one token. -/
def minusTokens (m : ℤ) : List Token :=
  if m < 0 then [.decr, .num m.natAbs] else [.minus, .num m.natAbs]

theorem lexes_minusInt (m : ℤ) : Lexes nextToken NoDigit ('-' :: intText m) (minusTokens m) := by
  rw [intText, minusTokens]
  split
  · have hdecr : Lexes nextToken (fun _ => True) ['-', '-'] [.decr] :=
      Lexes.one nextToken_consumes (k := some .decr) fun r _ => by
        rw [List.cons_append, List.singleton_append, nextToken]
    exact hdecr.append (lexes_num m.natAbs) fun _ _ => trivial
  · refine (lexes_minus.append (lexes_num m.natAbs) fun r hr c hc => ?_ :
      Lexes nextToken NoDigit (['-'] ++ digitsText m.natAbs) _)
    obtain ⟨d, ds, hds, hdigit⟩ := digitsText_eq_cons m.natAbs
    rw [hds] at hc
    cases hc
    rintro rfl
    cases hdigit

def argTokens (a : TemplateArg) : List Token :=
  .openParen :: .ident a.name :: minusTokens a.min ++ [.closeParen]

def factorTokens (mult : ℤ) : List Token :=
  if mult > 1 then [.plus, .num mult.natAbs, .star] else []

/-- Whatever follows. -/
abbrev Anything : List Char → Prop := fun _ => True

theorem lexes_arg {a : TemplateArg} (ha : IsIdent a.name) :
    Lexes nextToken Anything (argText a) (argTokens a) := by
  have hclose : Lexes nextToken Anything [')'] [.closeParen] := lexes_char fun _ => by rw [nextToken]
  have hnumber := (lexes_minusInt a.min).append hclose fun r _ c hc => by
    cases hc
    rfl
  have hname := (lexes_ident ha).append hnumber fun r _ c hc => by
    cases hc
    rfl
  have hopen : Lexes nextToken Anything ['('] [.openParen] := lexes_char fun _ => by rw [nextToken]
  have hall := hopen.append hname fun _ _ => trivial
  have htext : argText a = ['('] ++ (a.name ++ ('-' :: intText a.min ++ [')'])) := by
    simp only [argText, List.cons_append, List.append_assoc, List.nil_append]
  rw [htext]
  exact hall

theorem lexes_factor (mult : ℤ) :
    Lexes nextToken Anything (factorText mult) (factorTokens mult) := by
  rw [factorText, factorTokens]
  split
  · have hstar : Lexes nextToken Anything ['*'] [.star] := lexes_char fun _ => by rw [nextToken]
    have hnumber : Lexes nextToken Anything (digitsText mult.natAbs ++ ['*'])
        [.num mult.natAbs, .star] := (lexes_num _).append hstar fun r _ c hc => by
      cases hc
      rfl
    have hblank : Lexes nextToken Anything [' '] [] := lexes_blank
    have hplus := lexes_plus.append (hblank.append hnumber fun _ _ => trivial) fun r _ c hc => by
      cases hc
      decide
    have hall := hblank.append hplus fun _ _ => trivial
    rw [intText, if_neg (by omega)]
    simpa only [List.cons_append, List.nil_append, List.append_assoc] using hall
  · exact Lexes.nil

/-- The tokens of the expression. -/
def formulaTokens : List TemplateArg → ℤ → List Token
  | [], _ => []
  | a :: args, mult =>
      factorTokens mult ++ argTokens a ++ formulaTokens args (mult * a.width % 2 ^ 64)

theorem lexes_formula {args : List TemplateArg} (hnames : ∀ a ∈ args, IsIdent a.name)
    (hranged : Ranged (items args)) (hlt : ∀ b ∈ widths (items args), b < 2 ^ 31)
    (mult : ℤ) : ∃ text, formulaFrom args mult = some text ∧
      Lexes nextToken Anything text (formulaTokens args mult) := by
  induction args generalizing mult with
  | nil => exact ⟨[], rfl, Lexes.nil⟩
  | cons a args ih =>
      have ha := hranged a.toConfigItem List.mem_cons_self
      have hw := ConfigItem.width_pos ha
      obtain ⟨rest, hrest, hlexes⟩ := ih (fun b hb => hnames b (List.mem_cons_of_mem _ hb))
        hranged.tail (fun b hb => hlt b (List.mem_cons_of_mem _ hb)) (mult * a.width % 2 ^ 64)
      refine ⟨factorText mult ++ argText a ++ rest, ?_, ?_⟩
      · rw [formulaFrom, ConfigItem.range_eq ha,
          int_of_nonneg (by omega) (hlt _ List.mem_cons_self), Option.bind_some, hrest]
        rfl
      · exact ((lexes_factor mult).append (lexes_arg (hnames a List.mem_cons_self))
          fun _ _ => trivial).append hlexes fun _ _ => trivial

end Lexing

/-! ## Expressions that are none -/

section Rejected

/-- No expression has a `--` in it. -/
theorem run_decr {ts : List Token} (h : Token.decr ∈ ts) (q : State Atom Unary Binary) :
    cGrammar.run q ts = none := by
  induction ts generalizing q with
  | nil => cases h
  | cons t ts ih =>
      rw [Grammar.run]
      rcases List.mem_cons.mp h with rfl | h
      · cases q <;> rfl
      · cases cGrammar.step q t with
        | none => rfl
        | some q' => exact ih h q'

theorem parse_none_of_run {ts : List Token} (h : cGrammar.run (.operand []) ts = none) :
    cGrammar.parse ts = none := by
  rw [Grammar.parse, h]

theorem decr_mem {args : List TemplateArg} {a : TemplateArg} (ha : a ∈ args) (hmin : a.min < 0)
    (mult : ℤ) : Token.decr ∈ formulaTokens args mult := by
  induction args generalizing mult with
  | nil => cases ha
  | cons b args ih =>
      rw [formulaTokens]
      rcases List.mem_cons.mp ha with rfl | ha
      · refine List.mem_append_left _ (List.mem_append_right _ ?_)
        rw [argTokens, minusTokens, if_pos hmin]
        simp
      · exact List.mem_append_right _ (ih ha _)

end Rejected

/-! ## Expressions that are sums -/

section Sum

/-- What stands for an argument. -/
def argExpr (a : TemplateArg) : Expr :=
  .binary .sub (.atom (.var a.name)) (.atom (.num a.min.natAbs))

theorem argTokens_operand {a : TemplateArg} (h : 0 ≤ a.min) :
    cGrammar.Operand (argTokens a) (argExpr a) := by
  have hname : cGrammar.Operand [.ident a.name] (.atom (.var a.name)) := .atom rfl
  have hmin : cGrammar.Operand [.num a.min.natAbs] (.atom (.num a.min.natAbs)) := .atom rfl
  have hsub : cGrammar.Reads 1 ([.ident a.name] ++ .minus :: [.num a.min.natAbs]) (argExpr a) :=
    (hname.reads 1).binary (t := Token.minus) (o := Binary.sub) rfl (hmin.reads 2) le_rfl (by decide)
  have hparen := hsub.paren (t := .openParen) (u := .closeParen) rfl rfl rfl rfl rfl
  rw [argTokens, minusTokens, if_neg (by omega)]
  exact hparen

/-- The expression of the arguments behind, added to what is in front. -/
def sumFrom : List TemplateArg → ℤ → Expr → Expr
  | [], _, e => e
  | a :: args, mult, e => sumFrom args (mult * a.width)
      (.binary .add e (.binary .mul (.atom (.num mult.natAbs)) (argExpr a)))

variable {args : List TemplateArg}

theorem reads_sumFrom (hmin : ∀ a ∈ args, 0 ≤ a.min) (hranged : Ranged (items args)) {mult : ℤ}
    (hmult : 1 < mult) (hlt : mult * (widths (items args)).prod < 2 ^ 31) {ts : List Token}
    {e : Expr} (h : cGrammar.Reads 1 ts e) :
    cGrammar.Reads 1 (ts ++ formulaTokens args mult) (sumFrom args mult e) := by
  induction args generalizing mult ts e with
  | nil => rwa [formulaTokens, List.append_nil]
  | cons a args ih =>
      have hw := ConfigItem.width_pos (hranged a.toConfigItem List.mem_cons_self)
      have hprod := one_le_prod (one_le_widths hranged.tail)
      have hsplit : mult * (widths (items (a :: args))).prod =
          mult * a.width * (widths (items args)).prod := (mul_assoc _ _ _).symm
      rw [hsplit] at hlt
      have hnext : mult * a.width % 2 ^ 64 = mult * a.width :=
        Int.emod_eq_of_lt (by nlinarith) (by nlinarith)
      have hnumber : cGrammar.Operand [.num mult.natAbs] (.atom (.num mult.natAbs)) := .atom rfl
      have hproduct : cGrammar.Reads 2 ([.num mult.natAbs] ++ .star :: argTokens a)
          (.binary .mul (.atom (.num mult.natAbs)) (argExpr a)) :=
        (hnumber.reads 2).binary (t := Token.star) (o := Binary.mul) rfl
          ((argTokens_operand (hmin a List.mem_cons_self)).reads 3) le_rfl (by decide)
      have hsum := h.binary (t := Token.plus) (o := Binary.add) rfl hproduct le_rfl (by decide)
      have hrest := ih (fun b hb => hmin b (List.mem_cons_of_mem _ hb)) hranged.tail
        (by nlinarith) hlt hsum
      rw [formulaTokens, factorTokens, if_pos hmult, hnext, sumFrom]
      simpa only [List.append_assoc, List.cons_append, List.nil_append] using hrest

theorem eval_argExpr {env : Name → ℤ} {a : TemplateArg} (h0 : 0 ≤ a.min)
    (hlo : a.min ≤ env a.name) (hhi : env a.name ≤ a.max) (hmax : a.max < 2 ^ 31) :
    eval env (argExpr a) = some (env a.name - a.min) := by
  have hmin : ((a.min.natAbs : ℕ) : ℤ) = a.min := by omega
  rw [argExpr, eval, eval, eval, hmin, int_of_nonneg (by omega) (by omega), Option.bind_some,
    int_of_nonneg h0 (by omega), Option.bind_some, int_of_nonneg (by omega) (by omega)]

/-- The digits of the arguments' values. -/
def digitsOf (args : List TemplateArg) (env : Name → ℤ) : List ℤ :=
  args.map fun a => env a.name - a.min

theorem eval_sumFrom {env : Name → ℤ} (hmin : ∀ a ∈ args, 0 ≤ a.min)
    (hmax : ∀ a ∈ args, a.max < 2 ^ 31)
    (henv : ∀ a ∈ args, a.min ≤ env a.name ∧ env a.name ≤ a.max) {mult v : ℤ}
    (hlt : mult * (widths (items args)).prod < 2 ^ 31) {e : Expr} (he : eval env e = some v)
    (h0 : 0 ≤ v) (hv : v < mult) : eval env (sumFrom args mult e) =
      some (v + mult * encode (widths (items args)) (digitsOf args env)) := by
  induction args generalizing mult v e with
  | nil => rw [sumFrom, he, widths, items, List.map_nil, List.map_nil, encode, mul_zero, add_zero]
  | cons a args ih =>
      obtain ⟨hlo, hhi⟩ := henv a List.mem_cons_self
      have ha0 := hmin a List.mem_cons_self
      have hranged : Ranged (items args) := by
        intro b hb
        obtain ⟨c, hc, rfl⟩ := List.mem_map.mp hb
        have hbounds := henv c (List.mem_cons_of_mem _ hc)
        exact hbounds.1.trans hbounds.2
      have hprod := one_le_prod (one_le_widths hranged)
      have hsplit : mult * (widths (items (a :: args))).prod =
          mult * a.width * (widths (items args)).prod := (mul_assoc _ _ _).symm
      rw [hsplit] at hlt
      have hwidth : a.width = a.max - a.min + 1 := rfl
      have hd : env a.name - a.min ≤ a.width - 1 := by omega
      have hterm : 0 ≤ mult * (env a.name - a.min) := mul_nonneg (by omega) (by omega)
      have hbelow : v + mult * (env a.name - a.min) < mult * a.width := by nlinarith
      have hsmall : mult * a.width < 2 ^ 31 := by nlinarith
      have hone : mult < 2 ^ 31 := by nlinarith
      have hnumber : ((mult.natAbs : ℕ) : ℤ) = mult := by omega
      have hstep : eval env (.binary .add e (.binary .mul (.atom (.num mult.natAbs))
          (argExpr a))) = some (v + mult * (env a.name - a.min)) := by
        rw [eval, he, Option.bind_some, eval, eval, hnumber, int_of_nonneg (by omega) hone,
          Option.bind_some, eval_argExpr ha0 hlo hhi (hmax a List.mem_cons_self),
          Option.bind_some, int_of_nonneg hterm (by omega), Option.bind_some,
          int_of_nonneg (by omega) (by omega)]
      rw [sumFrom, ih (fun b hb => hmin b (List.mem_cons_of_mem _ hb))
        (fun b hb => hmax b (List.mem_cons_of_mem _ hb))
        (fun b hb => henv b (List.mem_cons_of_mem _ hb)) hlt hstep (by omega) hbelow]
      show some _ = some (v + mult * ((env a.name - a.min) +
        a.width * encode (widths (items args)) (digitsOf args env)))
      rw [mul_add, ← mul_assoc, add_assoc]

end Sum

/-! ## The names of the instantiations -/

section Names

variable {args : List TemplateArg} {name : Name}

theorem nameOf_injective {values values' : List ℤ} (h : nameOf name values = nameOf name values') :
    values = values' := by
  have hrest := List.append_cancel_left h
  have hstop : ∀ values : List ℤ, NoDigit (values.flatMap fun val => '_' :: intText val) := by
    intro values c hc
    cases values with
    | nil => cases hc
    | cons v values =>
        cases hc
        decide
  clear h
  induction values generalizing values' with
  | nil =>
      cases values' with
      | nil => rfl
      | cons w ws => cases hrest
  | cons v vs ih =>
      cases values' with
      | nil => cases hrest
      | cons w ws =>
          rw [List.flatMap_cons, List.flatMap_cons, List.cons_append, List.cons_append] at hrest
          have htail := List.tail_eq_of_cons_eq hrest
          have hread := congrArg readInt htail
          rw [readInt_intText v (hstop vs), readInt_intText w (hstop ws)] at hread
          obtain ⟨rfl, hvs⟩ := Prod.mk.inj (Option.some.inj hread)
          rw [ih hvs]

/-- The values of the arguments with these digits. -/
theorem tmplValues_eq (hmin : ∀ a ∈ args, 0 ≤ a.min) (hmax : ∀ a ∈ args, a.max < 2 ^ 31)
    (hranged : Ranged (items args)) (hlt : ∀ b ∈ widths (items args), b < 2 ^ 31) {c : ℤ}
    (h0 : 0 ≤ c) (hc : c < (widths (items args)).prod) :
    tmplValues args c = some (valuesOf (items args) (digits (widths (items args)) c), 0) := by
  induction args generalizing c with
  | nil =>
      have hzero : c < 1 := hc
      obtain rfl : c = 0 := by omega
      rfl
  | cons a args ih =>
      have ha := hranged a.toConfigItem List.mem_cons_self
      have hw := ConfigItem.width_pos ha
      have hwidth : a.width = a.max - a.min + 1 := rfl
      have ha0 := hmin a List.mem_cons_self
      have hamax := hmax a List.mem_cons_self
      obtain ⟨⟨hd0, hd⟩, hrest0, hrest⟩ := digit_bounds (b := a.width) (by omega) h0 hc
      have hvalue : int (c.tmod a.width + a.min) = some (a.min + c.tmod a.width) := by
        rw [int_of_nonneg (by omega) (by omega), add_comm]
      rw [tmplValues, ConfigItem.range_eq ha, int_of_nonneg (by omega) (hlt _ List.mem_cons_self),
        Option.bind_some, hvalue, Option.bind_some, ih (fun b hb => hmin b (List.mem_cons_of_mem _ hb))
          (fun b hb => hmax b (List.mem_cons_of_mem _ hb)) hranged.tail
          (fun b hb => hlt b (List.mem_cons_of_mem _ hb)) hrest0 hrest]
      rfl

/-- Values that are allowed are digits above the minima. -/
theorem exists_digits {values : List ℤ} (h : Allows args values) :
    ∃ ds, Within (widths (items args)) ds ∧ valuesOf (items args) ds = values := by
  induction h with
  | nil => exact ⟨[], .nil, rfl⟩
  | @cons a v args values hv _ ih =>
      obtain ⟨ds, hds, rfl⟩ := ih
      have hwidth : a.width = a.max - a.min + 1 := rfl
      refine ⟨(v - a.min) :: ds, .cons ⟨by omega, ?_⟩ hds, ?_⟩
      · show v - a.min < a.width
        omega
      · show (a.min + (v - a.min)) :: _ = _
        rw [add_sub_cancel]
        rfl

theorem valuesOf_injective {ds ds' : List ℤ} (h : Within (widths (items args)) ds)
    (h' : Within (widths (items args)) ds')
    (heq : valuesOf (items args) ds = valuesOf (items args) ds') : ds = ds' := by
  induction args generalizing ds ds' with
  | nil =>
      cases h
      cases h'
      rfl
  | cons a args ih =>
      cases h with
      | cons _ hrest =>
          cases h' with
          | cons _ hrest' =>
              obtain ⟨hhead, htail⟩ := List.cons_eq_cons.mp heq
              rw [add_left_cancel hhead, ih hrest hrest' htail]

end Names

/-! ## When it dispatches -/

section Dispatch

variable {args : List TemplateArg} {name : Name}

/-- One case for the values that are allowed, and it has the number that they encode. -/
theorem case_unique (hmin : ∀ a ∈ args, 0 ≤ a.min) (hmax : ∀ a ∈ args, a.max < 2 ^ 31)
    (hranged : Ranged (items args)) (hlt : (widths (items args)).prod < 2 ^ 31) {ds : List ℤ}
    (hds : Within (widths (items args)) ds) (c : ℤ) :
    ((0 ≤ c ∧ c < (widths (items args)).prod) ∧
      tmplName name args c = some (nameOf name (valuesOf (items args) ds))) ↔
      c = encode (widths (items args)) ds := by
  have hone := one_le_widths hranged
  have hbelow : ∀ b ∈ widths (items args), b < 2 ^ 31 := fun b hb => (le_prod hone hb).trans_lt hlt
  have hnonneg : ∀ b ∈ widths (items args), 0 ≤ b := fun b hb => by have := hone b hb; omega
  have hname : ∀ c, 0 ≤ c → c < (widths (items args)).prod → tmplName name args c =
      some (nameOf name (valuesOf (items args) (digits (widths (items args)) c))) := by
    intro c h0 hc
    rw [tmplName, tmplValues_eq hmin hmax hranged hbelow h0 hc]
    rfl
  constructor
  · rintro ⟨⟨h0, hc⟩, heq⟩
    rw [hname c h0 hc] at heq
    have hdigits := valuesOf_injective (digits_within hnonneg h0 hc) hds
      (nameOf_injective (Option.some.inj heq))
    rw [← hdigits, encode_digits hnonneg h0 hc]
  · rintro rfl
    obtain ⟨h0, hc⟩ := encode_bounds hds
    exact ⟨⟨h0, hc⟩, by rw [hname _ h0 hc, digits_encode hds]⟩

/-- The expression, where it is one. -/
theorem formula_value {a : TemplateArg} (hnames : ∀ b ∈ a :: args, IsIdent b.name)
    (hmin : ∀ b ∈ a :: args, 0 ≤ b.min) (hmax : ∀ b ∈ a :: args, b.max < 2 ^ 31)
    (hranged : Ranged (items (a :: args))) (hlt : (widths (items (a :: args))).prod < 2 ^ 31)
    (hplus : args = [] ∨ 1 < a.width) :
    ∃ text e, formula (a :: args) = some text ∧ parse text = some e ∧
      ∀ env : Name → ℤ, (∀ b ∈ a :: args, b.min ≤ env b.name ∧ env b.name ≤ b.max) →
        eval env e = some (encode (widths (items (a :: args))) (digitsOf (a :: args) env)) := by
  have hone := one_le_widths hranged
  obtain ⟨text, htext, hlexes⟩ := lexes_formula hnames hranged
    (fun b hb => (le_prod hone hb).trans_lt hlt) 1
  have hw := hone a.width List.mem_cons_self
  have hwlt := (le_prod hone (List.mem_cons_self : a.width ∈ widths (items (a :: args)))).trans_lt hlt
  have hprod : (widths (items (a :: args))).prod = a.width * (widths (items args)).prod :=
    List.prod_cons
  rw [hprod] at hlt
  have hmult : 1 * a.width % 2 ^ 64 = a.width := by
    rw [one_mul]
    exact Int.emod_eq_of_lt (by omega) (by omega)
  have htokens : formulaTokens (a :: args) 1 = argTokens a ++ formulaTokens args a.width := by
    rw [formulaTokens, hmult]
    rfl
  have hfirst := (argTokens_operand (hmin a List.mem_cons_self)).reads 1
  have hreads : cGrammar.Reads 1 (argTokens a ++ formulaTokens args a.width)
      (sumFrom args a.width (argExpr a)) := by
    rcases hplus with rfl | hplus
    · rwa [formulaTokens, List.append_nil]
    · exact reads_sumFrom (fun b hb => hmin b (List.mem_cons_of_mem _ hb)) hranged.tail hplus hlt
        hfirst
  refine ⟨text, sumFrom args a.width (argExpr a), htext, ?_, fun env henv => ?_⟩
  · rw [parse, hlexes.tokens trivial, Option.bind_some, htokens]
    exact hreads.parse
  · obtain ⟨hlo, hhi⟩ := henv a List.mem_cons_self
    have hwidth : a.width = a.max - a.min + 1 := rfl
    have hvalue := eval_argExpr (hmin a List.mem_cons_self) hlo hhi (hmax a List.mem_cons_self)
    have hsum := eval_sumFrom (fun b hb => hmin b (List.mem_cons_of_mem _ hb))
      (fun b hb => hmax b (List.mem_cons_of_mem _ hb))
      (fun b hb => henv b (List.mem_cons_of_mem _ hb)) hlt hvalue (by omega) (by omega)
    exact hsum

/-- The arguments have a product of ranges that is an `int`, no minimum below 0, and the first of
    several more than one value. -/
def Proper (args : List TemplateArg) : Prop :=
  (widths (items args)).prod < 2 ^ 31 ∧ (∀ a ∈ args, 0 ≤ a.min) ∧
    (args.length ≤ 1 ∨ ∀ a ∈ args.head?, 1 < a.width)

theorem dispatches_of_proper {a : TemplateArg} (hnames : ∀ b ∈ a :: args, IsIdent b.name)
    (hranged : ∀ b ∈ a :: args, b.min ≤ b.max) (hmax : ∀ b ∈ a :: args, b.max < 2 ^ 31)
    (h : Proper (a :: args)) : Dispatches name (a :: args) := by
  obtain ⟨hlt, hmin, hplus⟩ := h
  have hitems : Ranged (items (a :: args)) := by
    intro b hb
    obtain ⟨c, hc, rfl⟩ := List.mem_map.mp hb
    exact hranged c hc
  have hprod := one_le_prod (one_le_widths hitems)
  have hplus' : args = [] ∨ 1 < a.width := by
    rcases hplus with hlen | hwidth
    · rw [List.length_cons] at hlen
      exact .inl (List.eq_nil_of_length_eq_zero (by omega))
    · exact .inr (hwidth a rfl)
  obtain ⟨text, e, htext, he, hvalue⟩ := formula_value hnames hmin hmax hitems hlt hplus'
  refine ⟨(widths (items (a :: args))).prod, text, e, ?_, htext, he, fun env henv => ?_,
    fun values hvalues => ?_⟩
  · rw [tmplChoiceCount, choiceCount_eq hitems le_rfl (by decide), one_mul,
      int_of_nonneg (by omega) hlt]
  · have hbounds : ∀ b ∈ a :: args, b.min ≤ env b.name ∧ env b.name ≤ b.max := by
      rw [Allows, List.forall₂_map_right_iff, List.forall₂_same] at henv
      exact henv
    have hwithin : Within (widths (items (a :: args))) (digitsOf (a :: args) env) := by
      rw [Within, widths, items, digitsOf, List.map_map, List.forall₂_map_left_iff,
        List.forall₂_map_right_iff, List.forall₂_same]
      intro b hb
      have hb := hbounds b hb
      have hwidth : b.width = b.max - b.min + 1 := rfl
      rw [Function.comp_apply]
      omega
    have hvalues : valuesOf (items (a :: args)) (digitsOf (a :: args) env) =
        (a :: args).map fun b => env b.name := by
      rw [valuesOf, items, digitsOf, List.zipWith_map, List.zipWith_self]
      exact List.map_congr_left fun b _ => add_sub_cancel _ _
    refine ⟨_, hvalue env hbounds, ?_⟩
    rw [← hvalues]
    exact (case_unique hmin hmax hitems hlt hwithin _).mpr rfl
  · obtain ⟨ds, hds, rfl⟩ := exists_digits hvalues
    exact ⟨_, (case_unique hmin hmax hitems hlt hds _).mpr rfl,
      fun c hc => (case_unique hmin hmax hitems hlt hds c).mp hc⟩

/-- Without a `+` there is a bracket behind a bracket. -/
theorem parse_none_of_one {a b : TemplateArg} (ha : 0 ≤ a.min) (hwidth : a.width = 1) :
    cGrammar.parse (formulaTokens (a :: b :: args) 1) = none := by
  refine parse_none_of_run ?_
  rw [formulaTokens, hwidth, formulaTokens, factorTokens, if_neg (by decide), List.nil_append]
  rw [Grammar.run_append (argTokens_operand ha [])]
  show cGrammar.run _ (factorTokens 1 ++ argTokens b ++ _) = none
  rw [factorTokens, if_neg (by decide)]
  rfl

/-- **WHEN THE RIGHT INSTANTIATION IS CALLED.** -/
theorem dispatches_iff (name : Name) (args : List TemplateArg) (hargs : args ≠ [])
    (hnames : ∀ a ∈ args, IsIdent a.name) (hranged : ∀ a ∈ args, a.min ≤ a.max)
    (hmax : ∀ a ∈ args, a.max < 2 ^ 31) : Dispatches name args ↔ Proper args := by
  obtain ⟨a, args, rfl⟩ := List.exists_cons_of_ne_nil hargs
  refine ⟨?_, dispatches_of_proper hnames hranged hmax⟩
  rintro ⟨n, text, e, hn, htext, he, -⟩
  have hitems : Ranged (items (a :: args)) := by
    intro b hb
    obtain ⟨c, hc, rfl⟩ := List.mem_map.mp hb
    exact hranged c hc
  have hone := one_le_widths hitems
  rw [tmplChoiceCount, choiceCount_eq hitems le_rfl (by decide), one_mul] at hn
  obtain ⟨⟨-, hlt⟩, -⟩ := int_eq_some.mp hn
  obtain ⟨text', htext', hlexes⟩ := lexes_formula hnames hitems
    (fun b hb => (le_prod hone hb).trans_lt hlt) 1
  obtain rfl := Option.some.inj (htext'.symm.trans htext)
  rw [parse, hlexes.tokens trivial, Option.bind_some] at he
  have hmin : ∀ b ∈ a :: args, 0 ≤ b.min := by
    intro b hb
    by_contra hneg
    rw [parse_none_of_run (run_decr (decr_mem hb (by omega) 1) _)] at he
    cases he
  refine ⟨hlt, hmin, ?_⟩
  cases args with
  | nil => exact .inl le_rfl
  | cons b args =>
      refine .inr fun c hc => ?_
      obtain rfl := Option.some.inj hc
      by_contra hwidth
      have hw := hone a.width List.mem_cons_self
      rw [parse_none_of_one (hmin a List.mem_cons_self) (by omega)] at he
      cases he

end Dispatch

/-- `template <i(0, 2), j(3, 4)>`. -/
def twoArgs : List TemplateArg := [⟨⟨0, 0, 2⟩, ['i']⟩, ⟨⟨3, 3, 4⟩, ['j']⟩]

theorem dispatches_twoArgs :
    (twoArgs ≠ [] ∧ (∀ a ∈ twoArgs, IsIdent a.name) ∧ (∀ a ∈ twoArgs, a.min ≤ a.max) ∧
      ∀ a ∈ twoArgs, a.max < 2 ^ 31) ∧ Dispatches ['f'] twoArgs := by
  have hargs : twoArgs ≠ [] := List.cons_ne_nil _ _
  have hnames : ∀ a ∈ twoArgs, IsIdent a.name := by
    intro a ha
    have hname : ∃ c, a.name = [c] ∧ identStart c = true := by
      rcases List.mem_cons.mp ha with rfl | ha
      · exact ⟨'i', rfl, by decide⟩
      · rw [List.mem_singleton.mp ha]
        exact ⟨'j', rfl, by decide⟩
    obtain ⟨c, hc, hstart⟩ := hname
    exact ⟨c, [], hc, hstart, fun d hd => by cases hd⟩
  have hranged : ∀ a ∈ twoArgs, a.min ≤ a.max := by
    unfold twoArgs
    decide
  have hmax : ∀ a ∈ twoArgs, a.max < 2 ^ 31 := by
    unfold twoArgs
    decide
  refine ⟨⟨hargs, hnames, hranged, hmax⟩,
    (dispatches_iff ['f'] twoArgs hargs hnames hranged hmax).mpr ⟨by decide, ?_, .inr ?_⟩⟩
  · unfold twoArgs
    decide
  · intro a ha
    obtain rfl := Option.some.inj ha
    decide

/-- `template <i(-1, 1)>`: the expression is `(i--1)`. -/
theorem not_dispatches_negative : ¬ Dispatches ['f'] [⟨⟨-1, -1, 1⟩, ['i']⟩] := by
  rintro ⟨n, text, e, -, htext, he, -⟩
  have hparse : (formula [⟨⟨-1, -1, 1⟩, ['i']⟩]).bind parse = none := by decide +kernel
  rw [htext, Option.bind_some, he] at hparse
  cases hparse

end PbTemplateDispatch
