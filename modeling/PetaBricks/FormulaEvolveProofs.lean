import PetaBricks.FormulaEvolveModel
import PetaBricks.HeuristicTextProofs

/-! # Printed formulas — what the two parsers read of them

    `__repr__` puts parentheses around operators but not around conditionals, and writes a
    sign in front of a negative number.  Where no conditional is the left operand of an
    arithmetic operator and no `else` can go to an inner `if`, both parsers read the tree
    again, with `0 - n` for a negative number, also in front of `*` and `/`.  Mutations only
    change constants, so this is kept by every run; what is left are the constants, which
    must be printed exactly. -/

namespace PbMaximaParser

open PbFormula PbDecimal PbLexer PbYacc PbYacc.Grammar

/-! ## Which trees are read back -/

def IsIf : Formula → Prop
  | .ifThen _ _ => True
  | .ifThenElse _ _ _ => True
  | _ => False

/-- The text ends in a conditional without `else`. -/
def Open : Formula → Prop
  | .ifThen _ _ => True
  | .ifThenElse _ _ elseClause => Open elseClause
  | _ => False

/-- No operator and no `else` is taken by a conditional it does not belong to. -/
def Unambiguous : Formula → Prop
  | .binop op left right => Unambiguous left ∧ Unambiguous right ∧ (3 < level op → ¬ IsIf left)
  | .ifThen cond thenClause => Unambiguous cond ∧ Unambiguous thenClause
  | .ifThenElse cond thenClause elseClause =>
      Unambiguous cond ∧ Unambiguous thenClause ∧ Unambiguous elseClause ∧ ¬ Open thenClause
  | _ => True

/-- Floats are printed without an exponent. -/
def PlainRepr : Formula → Prop
  | .float q => -4 ≤ (scientific 11 q).2 ∧ (scientific 11 q).2 ≤ 10
  | .binop _ left right => PlainRepr left ∧ PlainRepr right
  | .ifThen cond thenClause => PlainRepr cond ∧ PlainRepr thenClause
  | .ifThenElse cond thenClause elseClause =>
      PlainRepr cond ∧ PlainRepr thenClause ∧ PlainRepr elseClause
  | _ => True

/-- A constant that is printed with a sign. -/
def Negative : Formula → Prop
  | .integer v => v < 0
  | .float q => q < 0
  | _ => False

instance : DecidablePred Negative := fun f => by
  cases f <;> unfold Negative <;> infer_instance

/-- The value of the digits a float is printed with. -/
def printedFloat (q : ℚ) : ℚ := (scientific 11 q).1 / 10 ^ (11 - (scientific 11 q).2).toNat

variable (int : ℕ → ℤ)

/-- What is read of a constant behind its sign. -/
def magnitude : Formula → Formula
  | .integer v => .integer (int v.natAbs)
  | .float q => .float (toDouble (printedFloat q))
  | f => f

/-- The production of `-` in front. -/
def negated (f : Formula) : Formula := .binop .sub (.integer 0) f

/-- What is read of a printed tree. -/
def reread : Formula → Formula
  | .binop op left right =>
      if 4 < level op ∧ Negative left then negated (.binop op (magnitude int left) (reread right))
      else .binop op (reread left) (reread right)
  | .ifThen cond thenClause => .ifThen (reread cond) (reread thenClause)
  | .ifThenElse cond thenClause elseClause =>
      .ifThenElse (reread cond) (reread thenClause) (reread elseClause)
  | f => if Negative f then negated (magnitude int f) else magnitude int f

/-- The next token may be one of these. -/
def After (f : Formula) : Look Op → Prop
  | .op o => (IsIf f → level o < 3) ∧ (Negative f → level o ≤ 4)
  | .els => ¬ Open f
  | .other => True

variable {int}

/-! ## Constants -/

/-- A constant is a sign and a number. -/
def Constant (f : Formula) : Prop :=
  ∃ a b, (∀ c ∈ a, c.isDigit = true) ∧ a ≠ [] ∧ (∀ c ∈ b, c.isDigit = true) ∧
    f.repr = (if Negative f then ['-'] else []) ++ numberChars a b ∧
    ∀ int, (grammar int).atom (numberToken a b) = some (magnitude int f)

theorem constant_integer (v : ℤ) : Constant (.integer v) := by
  refine ⟨digitsText v.natAbs, [], digitsText_isDigit _, digitsText_ne_nil _, nofun, ?_, fun int => ?_⟩
  · rw [Formula.repr, PbDecimal.intText, numberChars, if_pos rfl, List.append_nil]
    by_cases h : v < 0
    · rw [if_pos h, if_pos (show Negative (.integer v) from h)]
      rfl
    · rw [if_neg h, if_neg (show ¬ Negative (.integer v) from h)]
      rfl
  · rw [numberToken, if_pos rfl, ofDigits_digitsText]
    rfl

theorem signText_eq (q : ℚ) : signText q = if Negative (.float q) then ['-'] else [] := rfl

theorem constant_float {q : ℚ} (h : PlainRepr (.float q)) : Constant (.float q) := by
  obtain ⟨a, b, ha, hne, hb, htext, hvalue⟩ :=
    fixedText_cases true (11 - (scientific 11 q).2).toNat (scientific 11 q).1
  have hrepr : floatStr q = signText q ++
      (if '.' ∈ fixedText true (11 - (scientific 11 q).2).toNat (scientific 11 q).1
        then fixedText true (11 - (scientific 11 q).2).toNat (scientific 11 q).1
        else fixedText true (11 - (scientific 11 q).2).toNat (scientific 11 q).1 ++ ['.', '0']) := by
    have hplain : -4 ≤ (scientific 11 q).2 ∧ (scientific 11 q).2 ≤ 10 := h
    simp only [floatStr]
    rw [if_pos hplain]
  have hatom : ∀ {b : List Char}, b ≠ [] → (ofDigits (a ++ b) : ℚ) / 10 ^ b.length = printedFloat q →
      ∀ int, (grammar int).atom (numberToken a b) = some (magnitude int (.float q)) := by
    intro b hnil hv int
    rw [numberToken, if_neg hnil, hv]
    rfl
  rw [signText_eq] at hrepr
  by_cases hnil : b = []
  · rw [if_pos hnil, List.append_nil] at htext
    have hpoint : '.' ∉ a := fun hmem => absurd (ha _ hmem) (by decide)
    rw [hnil, List.append_nil, List.length_nil, pow_zero, div_one] at hvalue
    refine ⟨a, ['0'], ha, hne, List.all_iff_forall_prop.mp (by decide), ?_, hatom (by decide) ?_⟩
    · rw [Formula.repr, hrepr, htext, if_neg hpoint]
      rfl
    · rw [ofDigits_append, show ofDigits ['0'] = 0 from rfl, printedFloat, ← hvalue]
      simp
  · rw [if_neg hnil] at htext
    have hpoint : '.' ∈ a ++ '.' :: b := List.mem_append_right _ List.mem_cons_self
    refine ⟨a, b, ha, hne, hb, ?_, hatom hnil hvalue⟩
    rw [Formula.repr, hrepr, htext, if_pos hpoint, numberChars, if_neg hnil]

/-! ## Texts -/

section Reads

variable {next : Next Token} {s : List (Frame Formula Unit Op Call)}

theorem reads_constant (hscan : Scans next) {f : Formula} (h : Constant f)
    (hre : reread int f = if Negative f then negated (magnitude int f) else magnitude int f) :
    ∃ ts, Lexes next Break f.repr ts ∧
      ∀ s, (grammar int).ReadsAt s (After f) ts (reread int f) := by
  obtain ⟨a, b, ha, hne, hb, hrepr, hatom⟩ := h
  have hnumber := hscan.number a b ha hne hb
  by_cases hneg : Negative f
  · rw [if_pos hneg] at hrepr hre
    refine ⟨.lit '-' :: [numberToken a b], ?_, fun s => ?_⟩
    · rw [hrepr]
      exact (hscan.minus (B := fun _ => True)).append hnumber fun _ _ => trivial
    · rw [hre]
      refine .unary (J := fun _ => True) (u := ()) rfl rfl (.atom (hatom int)) fun k hk => ⟨trivial, ?_⟩
      cases k with
      | op o =>
          show (grammar int).against 4 o = .reduce
          have hlevel : level o ≤ 4 := hk.2 hneg
          rw [against]
          by_cases hlt : level o < 4
          · exact if_pos hlt
          · rw [if_neg (show ¬ (grammar int).level o < 4 from hlt),
              if_pos (show (grammar int).level o = 4 by show level o = 4; omega),
              leftFrom.left o (show 4 ≤ level o by omega)]
      | els => rfl
      | other => rfl
  · rw [if_neg hneg] at hrepr hre
    refine ⟨[numberToken a b], ?_, fun s => ?_⟩
    · rw [hrepr]
      exact hnumber
    · rw [hre]
      exact .atom (hatom int)

/-- Between parentheses an operator takes the operands on both sides. -/
theorem reads_binop {o : Op} {l r : Formula} {ls rs : List Token} {Kl Kr K : Look Op → Prop}
    (hl : ∀ s, (grammar int).ReadsAt s Kl ls l) (hlook : Kl (.op o))
    (hr : ∀ s, (grammar int).ReadsAt s Kr rs r) (hother : Kr .other) :
    (grammar int).ReadsAt s K (.lit '(' :: (ls ++ opToken o :: rs) ++ [.lit ')']) (.binop o l r) :=
  .paren (J := (· = .other)) rfl rfl rfl rfl rfl rfl
    (.binary (binary_opToken o) rfl (hl _) hlook hr fun k hk => by
      subst hk
      exact ⟨hother, rfl⟩) rfl

/-- A negative number in front of a tighter operator: the sign is taken last. -/
theorem reads_negative {o : Op} (ho : 4 < level o) {l r : Formula} {k : Token} {rs : List Token}
    {Kr K : Look Op → Prop} (hl : (grammar int).atom k = some l)
    (hr : ∀ s, (grammar int).ReadsAt s Kr rs r) (hother : Kr .other) :
    (grammar int).ReadsAt s K (.lit '(' :: (.lit '-' :: k :: opToken o :: rs) ++ [.lit ')'])
      (negated (.binop o l r)) := by
  have hstack : ∀ s, (grammar int).reduce (.op o) (.unary () :: s) l = some (.unary () :: s, l) :=
    fun s => reduce_shift (against_shift ho)
  have hbinary : ∀ s, (grammar int).ReadsAt (.unary () :: s) (· = .other)
      ([k] ++ opToken o :: rs) (.binop o l r) := fun s =>
    .binary (L := fun _ => True) (binary_opToken o) (hstack s) (.atom hl) trivial hr
      fun k hk => by
        subst hk
        exact ⟨hother, rfl⟩
  refine .paren (J := (· = .other)) rfl rfl rfl rfl rfl rfl ?_ rfl
  refine .unary (u := ()) rfl rfl (hbinary _) fun k hk => ⟨hk, ?_⟩
  subst hk
  rfl

theorem verdict_if {k : Look Op} (hk : ∀ o, k = .op o → level o < 3) (c : Formula) :
    k ≠ .els → (grammar int).verdict k (.thenPart c) = .reduce := by
  intro hels
  cases k with
  | op o => exact if_pos (hk o rfl)
  | els => exact absurd rfl hels
  | other => rfl

theorem verdict_else {k : Look Op} (hk : ∀ o, k = .op o → level o < 3) (c t : Formula) :
    (grammar int).verdict k (.elsePart c t) = .reduce := by
  cases k with
  | op o => exact if_pos (hk o rfl)
  | els => rfl
  | other => rfl

/-- Behind a clause may stand what may stand behind the conditional. -/
theorem After.clause {f g : Formula} (hif : IsIf f) (hopen : Open g → Open f) {k : Look Op}
    (hk : After f k) : After g k := by
  cases k with
  | op o =>
      have hlow : level o < 3 := hk.1 hif
      exact ⟨fun _ => hlow, fun _ => by omega⟩
  | els => exact fun h => hk (hopen h)
  | other => trivial

theorem After.low {f : Formula} (hif : IsIf f) {k : Look Op} (hk : After f k) :
    ∀ o, k = .op o → level o < 3 := by
  rintro o rfl
  exact hk.1 hif

/-- **A PRINTED TREE IS READ BACK**, by both parsers. -/
theorem reads_repr (hscan : Scans next) {f : Formula} (hn : Named f) (hp : PlainRepr f)
    (hu : Unambiguous f) :
    ∃ ts, Lexes next Break f.repr ts ∧
      ∀ s, (grammar int).ReadsAt s (After f) ts (reread int f) := by
  induction f with
  | var name =>
      refine ⟨[.ident name.toList], hscan.name _ hn, fun s => .atom ?_⟩
      show some (Formula.var (String.ofList name.toList)) = _
      rw [String.ofList_toList]
      rfl
  | integer v => exact reads_constant hscan (constant_integer v) rfl
  | float q => exact reads_constant hscan (constant_float hp) rfl
  | bool b =>
      cases b with
      | true => exact ⟨[.boolT], hscan.keyword (_, .boolT) (by decide), fun s => .atom rfl⟩
      | false => exact ⟨[.boolF], hscan.keyword (_, .boolF) (by decide), fun s => .atom rfl⟩
  | binop o l r ihl ihr =>
      obtain ⟨rs, hlexr, hreadr⟩ := ihr hn.2 hp.2 hu.2.1
      by_cases hneg : 4 < level o ∧ Negative l
      · -- the sign of the left operand is in front of the product
        have hconst : Constant l := by
          cases l with
          | integer v => exact constant_integer v
          | float q => exact constant_float hp.1
          | _ => exact hneg.2.elim
        obtain ⟨a, b, ha, hne, hb, hrepr, hatom⟩ := hconst
        rw [if_pos hneg.2] at hrepr
        have hlexl : Lexes next Break l.repr [.lit '-', numberToken a b] := by
          rw [hrepr]
          exact (hscan.minus (B := fun _ => True)).append (hscan.number a b ha hne hb)
            fun _ _ => trivial
        refine ⟨_, hscan.binop o hlexl hlexr, fun s => ?_⟩
        have hread := reads_negative (K := After (.binop o l r)) (s := s) hneg.1 (hatom int) hreadr
          trivial
        rw [reread, if_pos hneg]
        exact hread
      · obtain ⟨ls, hlexl, hreadl⟩ := ihl hn.1 hp.1 hu.1
        refine ⟨_, hscan.binop o hlexl hlexr, fun s => ?_⟩
        have hlook : After l (.op o) := by
          refine ⟨fun hif => ?_, fun hneg' => not_lt.mp fun hlt => hneg ⟨hlt, hneg'⟩⟩
          have hlevel : ¬ 3 < level o := fun hlt => hu.2.2 hlt hif
          have hthree : level o ≠ 3 := by cases o <;> decide
          omega
        have hread := reads_binop (K := After (.binop o l r)) (s := s) hreadl hlook hreadr trivial
        rw [reread, if_neg hneg]
        simpa only [List.cons_append, List.append_assoc] using hread
  | ifThen c t ihc iht =>
      obtain ⟨cs, hlexc, hreadc⟩ := ihc hn.1 hp.1 hu.1
      obtain ⟨ts, hlext, hreadt⟩ := iht hn.2 hp.2 hu.2
      refine ⟨_, hscan.conditional hlexc hlext, fun s => ?_⟩
      have hif : IsIf (.ifThen c t) := trivial
      refine .ifThen (K := After (.ifThen c t)) rfl rfl rfl rfl rfl rfl hreadc trivial hreadt
        fun k hk => ⟨hk.clause hif fun _ => trivial, verdict_if (hk.low hif) _ ?_⟩
      rintro rfl
      exact hk trivial
  | ifThenElse c t e ihc iht ihe =>
      obtain ⟨cs, hlexc, hreadc⟩ := ihc hn.1 hp.1 hu.1
      obtain ⟨ts, hlext, hreadt⟩ := iht hn.2.1 hp.2.1 hu.2.1
      obtain ⟨es, hlexe, hreade⟩ := ihe hn.2.2 hp.2.2 hu.2.2.1
      refine ⟨.kwIf :: cs ++ .kwThen :: ts ++ .kwElse :: es, ?_, fun s => ?_⟩
      · have hlex := hscan.alternative (hscan.conditional hlexc hlext) hlexe
        exact hlex
      · have hif : IsIf (.ifThenElse c t e) := trivial
        exact .ifElse (K := After (.ifThenElse c t e)) rfl rfl rfl rfl rfl rfl rfl rfl hreadc trivial
          hreadt hu.2.2.2 hreade fun k hk => ⟨hk.clause (g := e) hif fun h => h, verdict_else (hk.low hif) _ _⟩

/-- A float with an exponent breaks the text. -/
theorem broken_repr {f : Formula} (hn : Named f) :
    ∃ ts, Lexes pyScan Break f.repr ts ∧ (¬ PlainRepr f → Broken ts) := by
  induction f with
  | var name => exact ⟨_, pyScan_scans.name _ hn, fun h => absurd trivial h⟩
  | integer v =>
      obtain ⟨ts, hlex, -⟩ := printed_int v
      exact ⟨ts, hlex, fun h => absurd trivial h⟩
  | float q =>
      by_cases hp : PlainRepr (.float q)
      · obtain ⟨ts, hlex, -⟩ := reads_constant pyScan_scans (constant_float hp)
          (show reread Nat.cast (.float q) = _ from rfl)
        exact ⟨ts, hlex, fun h => absurd hp h⟩
      · have hexp : ¬ (-4 ≤ (scientific 11 q).2 ∧ (scientific 11 q).2 ≤ 10) := hp
        obtain ⟨ts, hlex, -, -, hbroken⟩ :=
          (printed_exponent 11 (scientific 11 q).1 (scientific 11 q).2).signed q
        refine ⟨ts, ?_, fun _ => hbroken id⟩
        simp only [Formula.repr, floatStr]
        rw [if_neg hexp, List.append_assoc]
        exact hlex
  | bool b =>
      cases b with
      | true =>
          have hlex := pyScan_scans.keyword (['t', 'r', 'u', 'e'], .boolT) (by decide)
          exact ⟨[.boolT], hlex, fun h => absurd trivial h⟩
      | false =>
          have hlex := pyScan_scans.keyword (['f', 'a', 'l', 's', 'e'], .boolF) (by decide)
          exact ⟨[.boolF], hlex, fun h => absurd trivial h⟩
  | binop o l r ihl ihr =>
      obtain ⟨ls, hlexl, hbrokenl⟩ := ihl hn.1
      obtain ⟨rs, hlexr, hbrokenr⟩ := ihr hn.2
      refine ⟨_, pyScan_scans.binop o hlexl hlexr, fun h => ?_⟩
      exact ((broken_parts hbrokenl hbrokenr (opToken o) h).append_right _).append_left [.lit '(']
  | ifThen c t ihc iht =>
      obtain ⟨cs, hlexc, hbrokenc⟩ := ihc hn.1
      obtain ⟨ts, hlext, hbrokent⟩ := iht hn.2
      refine ⟨_, pyScan_scans.conditional hlexc hlext, fun h => ?_⟩
      exact (broken_parts hbrokenc hbrokent .kwThen h).append_left [.kwIf]
  | ifThenElse c t e ihc iht ihe =>
      obtain ⟨cs, hlexc, hbrokenc⟩ := ihc hn.1
      obtain ⟨ts, hlext, hbrokent⟩ := iht hn.2.1
      obtain ⟨es, hlexe, hbrokene⟩ := ihe hn.2.2
      refine ⟨_, pyScan_scans.alternative (pyScan_scans.conditional hlexc hlext) hlexe, fun h => ?_⟩
      have hparts := broken_parts hbrokenc (broken_parts hbrokent hbrokene .kwElse) .kwThen h
      have hall := hparts.append_left [.kwIf]
      simpa only [List.append_assoc, List.cons_append, List.nil_append] using hall

end Reads

/-- What `maximaparser.py` reads of a printed tree. -/
theorem pyParse_repr {f u : Formula} (hn : Named f) (hu : Unambiguous f)
    (h : pyParse f.repr = some u) : PlainRepr f ∧ u = reread Nat.cast f := by
  have hplain : PlainRepr f := by
    by_contra hp
    obtain ⟨ts, hlex, hbroken⟩ := broken_repr hn
    rw [pyParse, hlex.tokens Break.nil, Option.bind_some, (hbroken hp).not_parsed] at h
    cases h
  obtain ⟨ts, hlex, hread⟩ := reads_repr pyScan_scans hn hplain hu
  rw [pyParse, hlex.tokens Break.nil, Option.bind_some, (hread []).parse trivial] at h
  exact ⟨hplain, (Option.some.inj h).symm⟩

end PbMaximaParser
