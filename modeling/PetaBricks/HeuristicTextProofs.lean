import PetaBricks.MaximaParserProofs

/-! # The text of a heuristic — what the learning compiler can parse of it

    `toString` of a formula is parenthesised, up to the products of `printPower`, so it is
    cut into tokens piece by piece and read wherever it stands, unless a double is printed
    with an exponent: then a number is followed by a name.  `toCppString` writes `==`, `&&`
    and `||` at the top, which `maximaparser.py` does not know. -/

namespace PbMaximaParser

open PbFormula PbDecimal PbLexer

/-- The names are those of Maxima's output. -/
def Named : Formula → Prop
  | .var name => IsName name.toList
  | .binop _ left right => Named left ∧ Named right
  | .ifThen cond thenClause => Named cond ∧ Named thenClause
  | .ifThenElse cond thenClause elseClause => Named cond ∧ Named thenClause ∧ Named elseClause
  | _ => True

/-- No double that is printed has an exponent; the base of a power below 1 is not printed. -/
def PlainText : Formula → Prop
  | .float v => -4 ≤ (scientific 5 v).2 ∧ (scientific 5 v).2 ≤ 5
  | .binop op left right =>
      if op = .pow then ∀ p ∈ right.chars.bind charsToInt, 0 < p → PlainText left
      else PlainText left ∧ PlainText right
  | .ifThen cond thenClause => PlainText cond ∧ PlainText thenClause
  | .ifThenElse cond thenClause elseClause =>
      PlainText cond ∧ PlainText thenClause ∧ PlainText elseClause
  | _ => True

/-- A token of a formula without powers. -/
def Clean (k : Token) : Prop := (∀ w, k = .ident w → IsName w) ∧ k ≠ .lit '^'

/-- A text that is read if it is plain, and else broken. -/
def Printed (t : List Char) (plain : Prop) : Prop :=
  ∃ ts, Lexes pyScan Break t ts ∧ (∀ k ∈ ts, Clean k) ∧
    (plain → (grammar Nat.cast).Accepts 4 ts) ∧ (¬ plain → Broken ts)

/-! ## Tokens -/

theorem clean_of_ne {k : Token} (hk : ∀ w, k ≠ .ident w) (h : k ≠ .lit '^') : Clean k :=
  ⟨fun w hw => absurd hw (hk w), h⟩

theorem clean_number (a b : List Char) : Clean (numberToken a b) := by
  rw [numberToken]
  split <;> refine clean_of_ne (fun w hw => ?_) (fun hk => ?_)
  · cases hw
  · cases hk
  · cases hw
  · cases hk

theorem clean_op {o : Op} (ho : o ≠ .pow) : Clean (opToken o) := by
  cases o with
  | pow => exact absurd rfl ho
  | _ => exact clean_of_ne nofun (by decide)

theorem clean_lit {c : Char} (h : c ≠ '^') : Clean (.lit c) :=
  clean_of_ne nofun fun heq => h (Token.lit.inj heq)

theorem clean_append {ts us : List Token} (ht : ∀ k ∈ ts, Clean k) (hu : ∀ k ∈ us, Clean k) :
    ∀ k ∈ ts ++ us, Clean k := fun k hk => (List.mem_append.mp hk).elim (ht k) (hu k)

theorem clean_cons {k : Token} {ts : List Token} (hk : Clean k) (ht : ∀ k ∈ ts, Clean k) :
    ∀ k' ∈ k :: ts, Clean k' := List.forall_mem_cons.mpr ⟨hk, ht⟩

theorem clean_one {k : Token} (hk : Clean k) : ∀ k' ∈ [k], Clean k' := clean_cons hk nofun

/-! ## Numbers -/

theorem isName_e : IsName ['e'] where
  ne_nil := List.cons_ne_nil _ _
  head := fun c hc => by
    cases hc
    rfl
  chars := List.all_iff_forall_prop.mp (by decide)
  free := by decide

/-- An exponent is a name, a sign and a number. -/
theorem lexes_exponent (x : ℤ) :
    ∃ s ds, Lexes pyScan Break (exponentText x) [.ident ['e'], .lit s, numberToken ds []] ∧
      s ≠ '^' := by
  obtain ⟨ds, hds, hall, hne⟩ : ∃ ds, exponentText x =
      'e' :: (if x < 0 then '-' else '+') :: ds ∧ (∀ c ∈ ds, c.isDigit = true) ∧ ds ≠ [] := by
    have hdigits := digitsText_isDigit x.natAbs
    by_cases hsmall : x.natAbs < 10
    · rw [exponentText, if_pos hsmall]
      exact ⟨_, rfl, List.forall_mem_cons.mpr ⟨rfl, hdigits⟩, List.cons_ne_nil _ _⟩
    · rw [exponentText, if_neg hsmall]
      exact ⟨_, rfl, hdigits, digitsText_ne_nil _⟩
  obtain ⟨s, hs, hmem, hlt, hgt, hpow, hident, hdot⟩ : ∃ s, (if x < 0 then '-' else '+') = s ∧
      s ∈ literals ∧ s ≠ '<' ∧ s ≠ '>' ∧ s ≠ '^' ∧ isIdentChar s = false ∧ s ≠ '.' := by
    split
    · exact ⟨'-', rfl, by decide⟩
    · exact ⟨'+', rfl, by decide⟩
  have hnumber := pyScan_scans.number ds [] hall hne fun _ hc => absurd hc List.not_mem_nil
  have hsign := (pyScan_scans.literal (B := fun _ => True) hmem hlt hgt).append hnumber
    fun _ _ => trivial
  have hname := (pyScan_scans.name ['e'] isName_e).append hsign
    fun r _ => Break.cons ⟨hident, hdot⟩
  rw [numberChars, if_pos rfl, List.append_nil] at hname
  rw [hds, hs]
  exact ⟨s, ds, hname, hpow⟩

/-- A sign in front of a number. -/
theorem Printed.signed {t : List Char} {plain : Prop} (h : Printed t plain) (q : ℚ) :
    Printed (signText q ++ t) plain := by
  rw [signText]
  split
  · obtain ⟨ts, hlex, hclean, hacc, hbroken⟩ := h
    refine ⟨.lit '-' :: ts, (pyScan_scans.minus (B := fun _ => True)).append hlex
      fun _ _ => trivial, clean_cons (clean_lit (c := '-') (by decide)) hclean,
      fun hp => accepts_negative (hacc hp), fun hp => (hbroken hp).append_left [.lit '-']⟩
  · exact h

theorem printed_digits (strip : Bool) (k n : ℕ) : Printed (fixedText strip k n) True := by
  obtain ⟨a, b, ha, hne, hb, htext, -⟩ := fixedText_cases strip k n
  refine ⟨[numberToken a b], ?_, clean_one (clean_number a b), fun _ => accepts_number a b,
    fun h => absurd trivial h⟩
  rw [htext]
  exact pyScan_scans.number a b ha hne hb

theorem printed_exponent (k n : ℕ) (x : ℤ) :
    Printed (fixedText true k n ++ exponentText x) False := by
  obtain ⟨a, b, ha, hne, hb, htext, -⟩ := fixedText_cases true k n
  obtain ⟨s, ds, hexp, hs⟩ := lexes_exponent x
  -- in front of an exponent the number need not be followed by a break
  have hnumber : Lexes pyScan (fun r => Ends r) (numberChars a b) [numberToken a b] := by
    intro r hr
    obtain ⟨c, t, ht⟩ : ∃ c t, numberChars a b ++ r = c :: t ∧ c.isDigit = true := by
      obtain ⟨c, a', rfl⟩ := List.exists_cons_of_ne_nil hne
      exact ⟨c, _, rfl, ha c List.mem_cons_self⟩
    obtain ⟨hblank, hstart⟩ := isDigit_not_start ht.2
    refine tokens_step (k := some _) pyScan_scans.consumes ?_
    have hscan := scanNumber_chars ha hb hr
    rw [ht.1] at hscan ⊢
    rw [pyScan, scan, if_neg (by rw [hblank]; exact Bool.false_ne_true),
      if_neg (by rw [hstart]; exact Bool.false_ne_true), if_pos ht.2, hscan]
  have hlex := hnumber.append hexp fun r _ => exponentText_ends x r
  refine ⟨_, by rw [htext]; exact hlex, ?_, False.elim, fun _ => ⟨[], a, b, ['e'], _, rfl⟩⟩
  refine clean_cons (clean_number a b) (clean_cons ⟨?_, Token.noConfusion⟩ (clean_cons (clean_lit hs)
    (clean_one (clean_number ds []))))
  intro w hw
  cases hw
  exact isName_e

theorem printed_double (v : ℚ) : Printed (formatG 5 v) (PlainText (.float v)) := by
  show Printed (formatG 5 v) (-4 ≤ (scientific 5 v).2 ∧ (scientific 5 v).2 ≤ 5)
  rw [formatG]
  by_cases hplain : -4 ≤ (scientific 5 v).2 ∧ (scientific 5 v).2 ≤ 5
  · obtain ⟨ts, hlex, hclean, hacc, -⟩ := (printed_digits true _ _).signed v
    refine ⟨ts, ?_, hclean, fun _ => hacc trivial, fun h => absurd hplain h⟩
    simp only [Nat.cast_ofNat, if_pos hplain]
    exact hlex
  · obtain ⟨ts, hlex, hclean, -, hbroken⟩ := (printed_exponent 5 _ _).signed v
    refine ⟨ts, ?_, hclean, fun h => absurd h hplain, fun _ => hbroken id⟩
    simp only [Nat.cast_ofNat, if_neg hplain, List.append_assoc]
    exact hlex

theorem printed_int (v : ℤ) : Printed (PbDecimal.intText v) True := by
  have hdigits : Printed (digitsText v.natAbs) True := by
    refine ⟨[numberToken (digitsText v.natAbs) []], ?_, clean_one (clean_number _ _),
      fun _ => accepts_number _ _, fun h => absurd trivial h⟩
    have hlex := pyScan_scans.number _ [] (digitsText_isDigit v.natAbs) (digitsText_ne_nil _) nofun
    rwa [numberChars, if_pos rfl, List.append_nil] at hlex
  have hsigned := hdigits.signed v
  rw [signText] at hsigned
  rw [PbDecimal.intText]
  split
  · rename_i hneg
    rwa [if_pos (by exact_mod_cast hneg)] at hsigned
  · exact hdigits

theorem printed_digit {n : ℕ} (h : n < 10) : Printed [digitChar n] True := by
  have hint := printed_int n
  rw [PbDecimal.intText, if_neg (by omega), Int.natAbs_natCast, digitsText, if_pos h] at hint
  exact hint

/-! ## Formulas -/

variable {p q : Prop}

theorem Printed.mono {t : List Char} (h : Printed t p) (hpq : p ↔ q) : Printed t q := by
  rwa [← propext hpq]

/-- What is put together is broken if a part is. -/
theorem broken_parts {ts us : List Token} (ht : ¬ p → Broken ts) (hu : ¬ q → Broken us)
    (k : Token) (h : ¬ (p ∧ q)) : Broken (ts ++ k :: us) := by
  by_cases hp : p
  · exact ((hu fun hq => h ⟨hp, hq⟩).append_left [k]).append_left ts
  · exact (ht hp).append_right (k :: us)

theorem Printed.binop {l r : List Char} {o : Op} (ho : o ≠ .pow) (hl : Printed l p)
    (hr : Printed r q) : Printed ('(' :: (l ++ ' ' :: o.chars ++ ' ' :: r ++ [')'])) (p ∧ q) := by
  obtain ⟨ls, hlexl, hcleanl, haccl, hbrokenl⟩ := hl
  obtain ⟨rs, hlexr, hcleanr, haccr, hbrokenr⟩ := hr
  refine ⟨_, pyScan_scans.binop o hlexl hlexr, ?_, fun h => accepts_binop o (haccl h.1) (haccr h.2),
    fun h => ?_⟩
  · exact clean_append (clean_append (clean_cons (clean_lit (by decide)) hcleanl)
      (clean_cons (clean_op ho) hcleanr)) (clean_one (clean_lit (by decide)))
  · exact ((broken_parts hbrokenl hbrokenr (opToken o) h).append_right _).append_left [.lit '(']

/-- The products of `printPower`. -/
theorem Printed.starred {t : List Char} (h : Printed t p) (n : ℕ) :
    Printed (starredChars t n) p := by
  induction n with
  | zero => exact h
  | succ n ih =>
      obtain ⟨us, hlexu, hcleanu, haccu, hbrokenu⟩ := ih
      obtain ⟨ts, hlex, hclean, hacc, hbroken⟩ := h
      have htimes := (pyScan_scans.literal (c := '*') (B := fun _ => True) (by decide) (by decide)
        (by decide)).append hlex fun _ _ => trivial
      refine ⟨us ++ .lit '*' :: ts, hlexu.append htimes fun r _ => break_times _,
        clean_append hcleanu (clean_cons (clean_lit (by decide)) hclean),
        fun hp => accepts_times (haccu hp) (hacc hp), fun hp => (hbrokenu hp).append_right _⟩

theorem Printed.ifThen {c t : List Char} (hc : Printed c p) (ht : Printed t q) :
    Printed (['(', 'i', 'f', ' '] ++ c ++ [' ', 't', 'h', 'e', 'n', ' '] ++ t ++ [')']) (p ∧ q) := by
  obtain ⟨cs, hlexc, hcleanc, haccc, hbrokenc⟩ := hc
  obtain ⟨ts, hlext, hcleant, hacct, hbrokent⟩ := ht
  refine ⟨.lit '(' :: (.kwIf :: cs ++ .kwThen :: ts) ++ [.lit ')'], ?_, ?_,
    fun h => accepts_if (haccc h.1) (hacct h.2), fun h => ?_⟩
  · have hclose := (pyScan_scans.conditional hlexc hlext).append (B := Break) pyScan_scans.rparen
      fun r _ => break_rparen r
    have hall := (pyScan_scans.lparen (B := fun _ => True)).append hclose fun _ _ => trivial
    simpa only [List.append_assoc, List.cons_append, List.nil_append] using hall
  · exact clean_append (clean_cons (clean_lit (by decide)) (clean_append
      (clean_cons (clean_of_ne nofun nofun) hcleanc) (clean_cons (clean_of_ne nofun nofun) hcleant)))
      (clean_one (clean_lit (by decide)))
  · exact ((broken_parts hbrokenc hbrokent .kwThen h).append_left [.lit '(', .kwIf]).append_right _

theorem Printed.ifElse {c t e : List Char} {r : Prop} (hc : Printed c p) (ht : Printed t q)
    (he : Printed e r) :
    Printed (['(', 'i', 'f', ' '] ++ c ++ [' ', 't', 'h', 'e', 'n', ' '] ++ t ++
      [' ', 'e', 'l', 's', 'e', ' '] ++ e ++ [' ', ')']) (p ∧ q ∧ r) := by
  obtain ⟨cs, hlexc, hcleanc, haccc, hbrokenc⟩ := hc
  obtain ⟨ts, hlext, hcleant, hacct, hbrokent⟩ := ht
  obtain ⟨es, hlexe, hcleane, hacce, hbrokene⟩ := he
  refine ⟨.lit '(' :: (.kwIf :: cs ++ .kwThen :: (ts ++ .kwElse :: es)) ++ [.lit ')'], ?_, ?_,
    fun h => accepts_ifElse (haccc h.1) (hacct h.2.1) (hacce h.2.2), fun h => ?_⟩
  · have hclose := (pyScan_scans.conditional hlexc (pyScan_scans.alternative hlext hlexe)).append
      (B := Break) (pyScan_scans.before pyScan_scans.rparen) fun r _ => break_space _
    have hall := (pyScan_scans.lparen (B := fun _ => True)).append hclose fun _ _ => trivial
    simpa only [List.append_assoc, List.cons_append, List.nil_append] using hall
  · exact clean_append (clean_cons (clean_lit (by decide)) (clean_append
      (clean_cons (clean_of_ne nofun nofun) hcleanc) (clean_cons (clean_of_ne nofun nofun)
        (clean_append hcleant (clean_cons (clean_of_ne nofun nofun) hcleane)))))
      (clean_one (clean_lit (by decide)))
  · have hparts := broken_parts hbrokenc (broken_parts hbrokent hbrokene .kwElse) .kwThen h
    exact (hparts.append_left [.lit '(', .kwIf]).append_right _

/-- **WHAT `toString` PRINTS** is read, if it is plain, and else it is broken. -/
theorem printed_chars {f : Formula} (hn : Named f) {t : List Char} (h : f.chars = some t) :
    Printed t (PlainText f) := by
  induction f generalizing t with
  | var name =>
      cases h
      refine ⟨[.ident name.toList], pyScan_scans.name _ hn, clean_one ⟨?_, Token.noConfusion⟩,
        fun _ => .atom rfl, fun hp => absurd trivial hp⟩
      intro w hw
      cases hw
      exact hn
  | integer v =>
      cases h
      exact printed_int v
  | float v =>
      cases h
      exact printed_double v
  | bool b =>
      cases h
      cases b with
      | true => exact printed_digit (n := 1) (by decide)
      | false => exact printed_digit (n := 0) (by decide)
  | binop o l r ihl ihr =>
      rw [Formula.chars] at h
      by_cases ho : o = .pow
      · rw [if_pos ho] at h
        split at h
        · obtain ⟨n, hn', h⟩ := Option.bind_eq_some_iff.mp h
          have hplain : PlainText (.binop o l r) ↔ (0 < n → PlainText l) := by
            rw [PlainText, if_pos ho, hn']
            exact ⟨fun hall => hall n rfl, fun hpos m hm => by cases hm; exact hpos⟩
          split at h
          · rename_i hpos
            obtain ⟨base, hbase, h⟩ := Option.bind_eq_some_iff.mp h
            cases h
            exact ((ihl hn.1 hbase).starred _).mono
              (hplain.trans ⟨fun hall => hall hpos, fun hl _ => hl⟩).symm
          · rename_i hneg
            cases h
            refine (printed_digit (n := 1) (by decide)).mono ⟨fun _ => hplain.mpr fun hpos => absurd hpos hneg,
              fun _ => trivial⟩
        · cases h
      · rw [if_neg ho] at h
        obtain ⟨lt, hl, h⟩ := Option.bind_eq_some_iff.mp h
        obtain ⟨rt, hr, h⟩ := Option.bind_eq_some_iff.mp h
        cases h
        refine (Printed.binop ho (ihl hn.1 hl) (ihr hn.2 hr)).mono ?_
        rw [PlainText, if_neg ho]
  | ifThen c t ihc iht =>
      obtain ⟨ct, hc, h⟩ := Option.bind_eq_some_iff.mp h
      obtain ⟨tt, ht, h⟩ := Option.bind_eq_some_iff.mp h
      cases h
      exact Printed.ifThen (ihc hn.1 hc) (iht hn.2 ht)
  | ifThenElse c t e ihc iht ihe =>
      obtain ⟨et, he, h⟩ := Option.bind_eq_some_iff.mp h
      obtain ⟨ct, hc, h⟩ := Option.bind_eq_some_iff.mp h
      obtain ⟨tt, ht, h⟩ := Option.bind_eq_some_iff.mp h
      cases h
      exact Printed.ifElse (ihc hn.1 hc) (iht hn.2.1 ht) (ihe hn.2.2 he)

/-! ## The top of `toCppString` -/

/-- What `addHeuristic` writes so that `maximaparser.py` knows it. -/
def Exportable (f : Formula) : Prop :=
  (∀ o ∈ [Op.eq, .and, .or], ∀ l r, f ≠ .binop o l r) ∧ PlainText f

theorem mem_dropWhile {c : Char} {f : Char → Bool} (hf : f c = false) {t : List Char} (h : c ∈ t) :
    c ∈ t.dropWhile f := by
  rw [← List.takeWhile_append_dropWhile (p := f) (l := t)] at h
  rcases List.mem_append.mp h with htake | hdrop
  · rw [List.mem_takeWhile_imp htake] at hf
    cases hf
  · exact hdrop

/-- What is no character of a token stays in the text. -/
theorem mem_scan {c : Char} (hc : c = '&' ∨ c = '|') {t : List Char} {r : Option Token × List Char}
    (h : pyScan t = some r) (hmem : c ∈ t) : c ∈ r.2 := by
  have hdigit : Char.isDigit c = false := by rcases hc with rfl | rfl <;> rfl
  have hnumber : ∀ t, c ∈ t → c ∈ (scanNumber t).2 := by
    intro t ht
    have hdrop := mem_dropWhile hdigit ht
    rw [scanNumber]
    split
    · rename_i t' heq
      rw [heq] at hdrop
      dsimp only
      split
      · exact hdrop
      · rcases List.mem_cons.mp hdrop with rfl | hrest
        · rcases hc with h | h <;> cases h
        · exact mem_dropWhile hdigit hrest
    · exact hdrop
  cases t with
  | nil => cases h
  | cons d t =>
      have htail : c ≠ d → c ∈ t := fun hne => (List.mem_cons.mp hmem).resolve_left hne
      rw [pyScan, scan] at h
      split at h
      · rename_i hblank
        cases h
        refine htail ?_
        rintro rfl
        rcases hc with rfl | rfl <;> cases hblank
      · split at h
        · cases h
          exact mem_dropWhile (by rcases hc with rfl | rfl <;> rfl) hmem
        · split at h
          · cases h
            exact hnumber _ hmem
          · rw [scanLiteral.eq_def] at h
            split at h
            · cases h
              rcases List.mem_cons.mp (htail (by rcases hc with rfl | rfl <;> decide)) with rfl | ht
              · rcases hc with h | h <;> cases h
              · exact ht
            · cases h
              rcases List.mem_cons.mp (htail (by rcases hc with rfl | rfl <;> decide)) with rfl | ht
              · rcases hc with h | h <;> cases h
              · exact ht
            · split at h
              · rename_i hlit
                cases h
                refine htail ?_
                rintro rfl
                rcases hc with rfl | rfl <;> exact absurd hlit (by decide)
              · cases h

theorem not_lexed {c : Char} (hc : c = '&' ∨ c = '|') {t : List Char} (h : c ∈ t) :
    tokens pyScan t = none := by
  cases htokens : tokens pyScan t with
  | none => rfl
  | some ts => exact absurd h (not_mem_of_tokens (fun _ _ => mem_scan hc) htokens)

theorem cppChars_eq_chars {f : Formula} (h : ∀ o ∈ [Op.eq, .and, .or], ∀ l r, f ≠ .binop o l r) :
    f.cppChars = f.chars := by
  cases f with
  | binop o l r =>
      cases o with
      | eq => exact absurd rfl (h .eq (by decide) l r)
      | and => exact absurd rfl (h .and (by decide) l r)
      | or => exact absurd rfl (h .or (by decide) l r)
      | _ => rfl
  | _ => rfl

theorem lexes_equals {l r : List Char} {ls rs : List Token} (hl : Lexes pyScan Break l ls)
    (hr : Lexes pyScan Break r rs) :
    Lexes pyScan Break (l ++ '=' :: '=' :: r) (ls ++ .lit '=' :: .lit '=' :: rs) := by
  have heq : Lexes pyScan (fun _ => True) ['='] [.lit '='] :=
    pyScan_scans.literal (by decide) (by decide) (by decide)
  have htwo := heq.append (heq.append hr fun _ _ => trivial) fun _ _ => trivial
  exact hl.append htwo fun r _ => break_equals _

theorem chars_lexes {f : Formula} (hn : Named f) {t : List Char} (h : f.chars = some t) :
    ∃ ts, Lexes pyScan Break t ts := by
  obtain ⟨ts, hlex, -⟩ := printed_chars hn h
  exact ⟨ts, hlex⟩

/-- The text has a character of no token, or can be cut into tokens. -/
theorem cppChars_lexes {f : Formula} (hn : Named f) {t : List Char} (h : f.cppChars = some t) :
    (∃ c, (c = '&' ∨ c = '|') ∧ c ∈ t) ∨ ∃ ts, Lexes pyScan Break t ts := by
  induction f generalizing t with
  | binop o l r ihl ihr =>
      cases o with
      | eq =>
          obtain ⟨lt, hl, h⟩ := Option.bind_eq_some_iff.mp h
          obtain ⟨rt, hr, h⟩ := Option.bind_eq_some_iff.mp h
          cases h
          rcases ihl hn.1 hl with ⟨c, hc, hmem⟩ | ⟨ls, hlexl⟩
          · exact .inl ⟨c, hc, List.mem_append_left _ hmem⟩
          · rcases ihr hn.2 hr with ⟨c, hc, hmem⟩ | ⟨rs, hlexr⟩
            · refine .inl ⟨c, hc, List.mem_append_right _ ?_⟩
              exact List.mem_cons_of_mem _ (List.mem_cons_of_mem _ hmem)
            · exact .inr ⟨_, lexes_equals hlexl hlexr⟩
      | and =>
          obtain ⟨lt, hl, h⟩ := Option.bind_eq_some_iff.mp h
          obtain ⟨rt, hr, h⟩ := Option.bind_eq_some_iff.mp h
          cases h
          exact .inl ⟨'&', .inl rfl, List.mem_append_right _ List.mem_cons_self⟩
      | or =>
          obtain ⟨lt, hl, h⟩ := Option.bind_eq_some_iff.mp h
          obtain ⟨rt, hr, h⟩ := Option.bind_eq_some_iff.mp h
          cases h
          exact .inl ⟨'|', .inr rfl, List.mem_append_right _ List.mem_cons_self⟩
      | _ => exact .inr (chars_lexes hn h)
  | _ => exact .inr (chars_lexes hn h)

theorem not_parsed {t : List Char} {c : Char} (hc : c = '&' ∨ c = '|') (h : c ∈ t) :
    pyParse t = none := by
  rw [pyParse, not_lexed hc h]
  rfl

/-- With `==`, `&&` or `||` at the top the text is an error. -/
theorem not_parsed_top {f : Formula} (hn : Named f) {o : Op} (ho : o ∈ [Op.eq, .and, .or])
    {l r : Formula} (hf : f = .binop o l r) {t : List Char} (h : f.cppChars = some t) :
    pyParse t = none := by
  subst hf
  cases o with
  | eq =>
      obtain ⟨lt, hl, h⟩ := Option.bind_eq_some_iff.mp h
      obtain ⟨rt, hr, h⟩ := Option.bind_eq_some_iff.mp h
      cases h
      rcases cppChars_lexes hn.1 hl with ⟨c, hc, hmem⟩ | ⟨ls, hlexl⟩
      · exact not_parsed hc (List.mem_append_left _ hmem)
      · rcases cppChars_lexes hn.2 hr with ⟨c, hc, hmem⟩ | ⟨rs, hlexr⟩
        · refine not_parsed hc (List.mem_append_right _ ?_)
          exact List.mem_cons_of_mem _ (List.mem_cons_of_mem _ hmem)
        · rw [pyParse, (lexes_equals hlexl hlexr).tokens Break.nil]
          exact not_parsed_equals ls rs
  | and =>
      obtain ⟨lt, hl, h⟩ := Option.bind_eq_some_iff.mp h
      obtain ⟨rt, hr, h⟩ := Option.bind_eq_some_iff.mp h
      cases h
      exact not_parsed (.inl rfl) (List.mem_append_right _ List.mem_cons_self)
  | or =>
      obtain ⟨lt, hl, h⟩ := Option.bind_eq_some_iff.mp h
      obtain ⟨rt, hr, h⟩ := Option.bind_eq_some_iff.mp h
      cases h
      exact not_parsed (.inr rfl) (List.mem_append_right _ List.mem_cons_self)
  | _ => exact absurd ho (by decide)

/-- **WHAT CAN BE EXPORTED**: no more and no less is accepted. -/
theorem accepted_iff {f : Formula} (hn : Named f) {t : List Char} (h : f.cppChars = some t) :
    (∃ u, pyParse t = some u) ↔ Exportable f := by
  constructor
  · rintro ⟨u, hu⟩
    have htop : ∀ o ∈ [Op.eq, .and, .or], ∀ l r, f ≠ .binop o l r := by
      intro o ho l r hf
      rw [not_parsed_top hn ho hf h] at hu
      cases hu
    refine ⟨htop, ?_⟩
    by_contra hplain
    obtain ⟨ts, hlex, -, -, hbroken⟩ := printed_chars hn (cppChars_eq_chars htop ▸ h)
    rw [pyParse, hlex.tokens Break.nil, Option.bind_some, (hbroken hplain).not_parsed] at hu
    cases hu
  · rintro ⟨htop, hplain⟩
    obtain ⟨ts, hlex, -, hacc, -⟩ := printed_chars hn (cppChars_eq_chars htop ▸ h)
    obtain ⟨u, hu⟩ := (hacc hplain).parse
    exact ⟨u, by rw [pyParse, hlex.tokens Break.nil, Option.bind_some, hu]⟩

/-- The tokens of what is accepted. -/
theorem accepted_clean {f : Formula} (hn : Named f) {t : List Char} (h : f.cppChars = some t)
    {u : Formula} (hu : pyParse t = some u) :
    ∃ ts, (∀ k ∈ ts, Clean k) ∧ (grammar Nat.cast).parse ts = some u := by
  obtain ⟨htop, -⟩ := (accepted_iff hn h).mp ⟨u, hu⟩
  obtain ⟨ts, hlex, hclean, -⟩ := printed_chars hn (cppChars_eq_chars htop ▸ h)
  rw [pyParse, hlex.tokens Break.nil, Option.bind_some] at hu
  exact ⟨ts, hclean, hu⟩

/-! ## The attribute -/

theorem attributeChar_consumes : Consumes attributeChar := by
  intro t r h
  cases t with
  | nil => cases h
  | cons c t =>
      have hsplit : (PbText.splitFirst ';' t).2.length ≤ t.length := by
        clear h
        induction t with
        | nil => exact le_rfl
        | cons d t ih =>
            rw [PbText.splitFirst]
            split
            · exact Nat.le_succ _
            · exact le_trans ih (Nat.le_succ _)
      rw [attributeChar.eq_def] at h
      split at h
      · cases h
      · rename_i heq
        cases heq
        obtain ⟨d, -, rfl⟩ := Option.map_eq_some_iff.mp h
        exact Nat.lt_succ_of_le hsplit
      · rename_i heq
        cases heq
        cases h
        exact Nat.lt_succ_self _

/-- An entity is read as its character. -/
theorem lexes_entity {name : List Char} {c : Char} (hname : ';' ∉ name)
    (hc : entityChar name = some c) :
    Lexes attributeChar (fun _ => True) ('&' :: (name ++ [';'])) [c] := by
  refine .one (k := some c) attributeChar_consumes fun r _ => ?_
  have hsplit : PbText.splitFirst ';' ((name ++ [';']).append r) = (name, r) := by
    show PbText.splitFirst ';' (name ++ [';'] ++ r) = _
    rw [List.append_assoc, List.singleton_append, PbText.splitFirst_append hname]
  show (entityChar (PbText.splitFirst ';' ((name ++ [';']).append r)).1).map _ = _
  rw [hsplit, hc]
  rfl

theorem lexes_escapeChar (c : Char) : Lexes attributeChar (fun _ => True) (escapeChar c) [c] := by
  have hnamed : ∀ e ∈ entities, ';' ∉ e.2 ∧ entityChar e.2 = some e.1 := by decide
  rw [escapeChar]
  split
  · rename_i name hlookup
    have hmem : (c, name) ∈ entities := by
      obtain ⟨l₁, l₂, heq, -⟩ := List.lookup_eq_some_iff.mp hlookup
      rw [heq]
      exact List.mem_append_right _ List.mem_cons_self
    exact lexes_entity (hnamed _ hmem).1 (hnamed _ hmem).2
  · rename_i hlookup
    have hamp : c ≠ '&' := by
      rintro rfl
      exact absurd hlookup (by decide)
    split
    · have hsemicolon : ';' ∉ '#' :: digitsText c.toNat := by
        intro hmem
        rcases List.mem_cons.mp hmem with h | h
        · cases h
        · exact absurd (digitsText_isDigit _ _ h) (by decide)
      refine lexes_entity hsemicolon ?_
      rw [entityChar, ofDigits_digitsText, Char.ofNat_toNat]
    · refine .one (k := some c) attributeChar_consumes fun r _ => ?_
      show attributeChar (c :: r) = _
      rw [attributeChar.eq_def]
      split
      · rename_i heq
        cases heq
      · rename_i heq
        cases heq
        exact absurd rfl hamp
      · rename_i heq
        cases heq
        rfl

/-- **THE ATTRIBUTE IS READ BACK.** -/
theorem attributeValue_escapeXML (t : List Char) : attributeValue (escapeXML t) = some t := by
  have hall : Lexes attributeChar (fun _ => True) (escapeXML t) t := by
    induction t with
    | nil => exact .nil
    | cons c t ih =>
        rw [escapeXML, List.flatMap_cons]
        exact (lexes_escapeChar c).append ih fun _ _ => trivial
  exact hall.tokens trivial

/-! ## Names -/

/-- A name of Maxima's output is no reserved word. -/
theorem isName_maximaScan {t r : List Char} {w : List Char}
    (h : maximaScan t = some (some (.ident w), r)) : IsName w := by
  cases t with
  | nil => cases h
  | cons c t =>
      rw [maximaScan, scan] at h
      split at h
      · cases h
      · split at h
        · rename_i hstart
          have hword : maximaWord ((c :: t).takeWhile isIdentChar) = .ident w := by
            injection h with h
            injection h with h _
            injection h
          have hident : isIdentChar c = true := by
            simp only [isIdentStart, Bool.or_eq_true] at hstart
            simp only [isIdentChar, Char.isAlphanum, Bool.or_eq_true]
            exact hstart.imp .inl id
          have hvalues : ∀ e ∈ reserved, ∀ w, e.2 ≠ .ident w := by
            intro e he w heq
            simp only [reserved, List.mem_cons, List.not_mem_nil, or_false] at he
            rcases he with rfl | rfl | rfl | rfl | rfl | rfl | rfl | rfl | rfl | rfl <;> cases heq
          rw [maximaWord] at hword
          cases hfree : reserved.lookup (((c :: t).takeWhile isIdentChar).map Char.toLower) with
          | some k =>
              rw [hfree] at hword
              obtain ⟨l₁, l₂, heq, -⟩ := List.lookup_eq_some_iff.mp hfree
              have hmem : (((c :: t).takeWhile isIdentChar).map Char.toLower, k) ∈ reserved := by
                rw [heq]
                exact List.mem_append_right _ List.mem_cons_self
              exact absurd hword (hvalues _ hmem w)
          | none =>
              rw [hfree] at hword
              cases hword
              rw [List.takeWhile_cons_of_pos hident] at hfree ⊢
              refine ⟨List.cons_ne_nil _ _, fun d hd => by cases hd; exact hstart, ?_, hfree⟩
              intro d hd
              rcases List.mem_cons.mp hd with rfl | hd
              · exact hident
              · exact List.mem_takeWhile_imp hd
        · split at h
          · have hnumber : ∀ t w, (scanNumber t).1 ≠ .ident w := by
              intro t w
              rw [scanNumber]
              split
              · dsimp only
                split <;> intro heq <;> cases heq
              · intro heq
                cases heq
            have hexp : ∀ (k : Token × List Char) w, k.1 ≠ .ident w →
                (scanExponent k).1 ≠ .ident w := by
              intro k w hk
              rw [scanExponent.eq_def]
              split
              · dsimp only
                split <;> intro heq <;> cases heq
              · exact hk
            injection h with h
            injection h with h _
            injection h with h
            exact absurd h (hexp _ w (hnumber _ w))
          · rw [scanLiteral.eq_def] at h
            split at h
            · cases h
            · cases h
            · split at h <;> cases h

theorem named_keeps {int : ℕ → ℤ} : (grammar int).Keeps Named fun _ => True where
  unary _ _ he := ⟨trivial, he⟩
  binary _ _ _ _ hl hr := ⟨hl, hr⟩
  ifThen _ _ hc ht := ⟨hc, ht⟩
  ifElse _ _ _ hc ht he := ⟨hc, ht, he⟩
  call f args e hargs h := by
    simp only [grammar] at h
    split at h
    · cases h
      exact ⟨hargs _ List.mem_cons_self, hargs _ (List.mem_cons_of_mem _ List.mem_cons_self)⟩
    · cases h
      exact hargs _ List.mem_cons_self
    · cases h
      exact hargs _ List.mem_cons_self
    · cases h

/-- The formulas of Maxima's output have its names. -/
theorem named_of_maximaParse {t : List Char} {f : Formula} (h : maximaParse t = some f) :
    Named f := by
  obtain ⟨ts, htokens, hparse⟩ := Option.bind_eq_some_iff.mp h
  have hnames := tokens_forall (P := fun k => ∀ w, k = .ident w → IsName w)
    (fun t k r hscan w hk => isName_maximaScan (hk ▸ hscan)) htokens
  refine named_keeps.parse (fun k hk e he => ?_) (fun _ _ _ _ => trivial) hparse
  simp only [grammar] at he
  split at he
  · rename_i w
    cases he
    have hname := hnames _ hk w rfl
    rw [Named, String.toList_ofList]
    exact hname
  all_goals cases he
  all_goals trivial

end PbMaximaParser
