import Mathlib.Data.Bool.AllAny
import PetaBricks.FormulaTextModel
import PetaBricks.MaximaParserModel

/-! # Tokens and productions of the two parsers

    `Scans` says how both lexers cut names, reserved words, numbers and operators from a text,
    provided that a name or number is not followed by more of it (`Break`).  The productions
    that printed formulas need are the rules of the yacc library at the shared grammar. -/

namespace PbMaximaParser

open PbFormula PbDecimal PbLexer

/-! ## Characters -/

/-- Neither a name nor a number goes on. -/
def Break (r : List Char) : Prop := ∀ c ∈ r.head?, isIdentChar c = false ∧ c ≠ '.'

theorem Break.nil : Break [] := fun _ hc => (nomatch hc)

theorem Break.cons {c : Char} {r : List Char} (h : isIdentChar c = false ∧ c ≠ '.') :
    Break (c :: r) := by
  intro d hd
  cases hd
  exact h

theorem isDigit_ident {c : Char} (h : c.isDigit = true) : isIdentChar c = true := by
  simp only [isIdentChar, Char.isAlphanum, h, Bool.or_true, Bool.true_or]

theorem Break.ends {r : List Char} (h : Break r) : Ends r := by
  refine ⟨fun c hc => ?_, fun c hc => (h c hc).2⟩
  by_contra hd
  have hident := isDigit_ident (Bool.not_eq_false _ ▸ hd)
  rw [(h c hc).1] at hident
  cases hident

theorem isDigit_not_start {c : Char} (h : c.isDigit = true) :
    isBlank c = false ∧ isIdentStart c = false := by
  have hdigit := h
  simp only [Char.isDigit, Bool.and_eq_true, decide_eq_true_eq, ge_iff_le] at h
  have hlo : 48 ≤ c.toNat := UInt32.le_iff_toNat_le.mp h.1
  have hhi : c.toNat ≤ 57 := UInt32.le_iff_toNat_le.mp h.2
  have hne : ∀ d : Char, d.toNat < 48 ∨ 57 < d.toNat → (c == d) = false := by
    intro d hd
    rw [beq_eq_false_iff_ne]
    rintro rfl
    omega
  have halpha : c.isAlpha = false := isAlpha_of_isDigit hdigit
  constructor
  · simp only [isBlank, hne ' ' (by decide), hne '\r' (by decide), hne '\n' (by decide),
      hne '\t' (by decide), Bool.or_self]
  · simp only [isIdentStart, halpha, hne '_' (by decide), Bool.or_self]

theorem isIdentStart_not_blank {c : Char} (h : isIdentStart c = true) : isBlank c = false := by
  by_contra hb
  rw [Bool.not_eq_false] at hb
  simp only [isBlank, Bool.or_eq_true, beq_iff_eq] at hb
  rcases hb with ((rfl | rfl) | rfl) | rfl <;> exact absurd h (by decide)

/-! ## Numbers -/

/-- Digits, and digits behind a point if there are any. -/
def numberChars (a b : List Char) : List Char := a ++ if b = [] then [] else '.' :: b

def numberToken (a b : List Char) : Token :=
  if b = [] then .integer (ofDigits a) else .float (ofDigits (a ++ b) / 10 ^ b.length)

theorem scanNumber_chars {a b r : List Char} (ha : ∀ c ∈ a, c.isDigit = true)
    (hb : ∀ c ∈ b, c.isDigit = true) (hr : Ends r) :
    scanNumber (numberChars a b ++ r) = (numberToken a b, r) := by
  by_cases hnil : b = []
  · rw [numberChars, numberToken, if_pos hnil, if_pos hnil, List.append_nil, scanNumber,
      takeWhile_digits ha hr.1, dropWhile_digits ha hr.1]
    split
    · exact absurd rfl (hr.2 '.' rfl)
    · rfl
  · have hpoint : NoDigit ('.' :: (b ++ r)) := fun c hc => by cases hc; rfl
    rw [numberChars, numberToken, if_neg hnil, if_neg hnil, List.append_assoc, List.cons_append,
      scanNumber, takeWhile_digits ha hpoint, dropWhile_digits ha hpoint]
    simp only [takeWhile_digits hb hr.1, dropWhile_digits hb hr.1, if_neg hnil]

theorem scanNumber_length (t : List Char) : (scanNumber t).2.length ≤ t.length := by
  have hdrop := (List.dropWhile_suffix (l := t) Char.isDigit).length_le
  rw [scanNumber]
  split
  · rename_i t' heq
    rw [heq, List.length_cons] at hdrop
    dsimp only
    split
    · exact hdrop
    · have hrest := (List.dropWhile_suffix (l := t') Char.isDigit).length_le
      show (t'.dropWhile Char.isDigit).length ≤ _
      omega
  · exact hdrop

/-- A number takes its first digit. -/
theorem scanNumber_lt {c : Char} (t : List Char) (hc : c.isDigit = true) :
    (scanNumber (c :: t)).2.length < (c :: t).length := by
  have hdrop : (c :: t).dropWhile Char.isDigit = t.dropWhile Char.isDigit :=
    List.dropWhile_cons_of_pos hc
  have hle := (List.dropWhile_suffix (l := t) Char.isDigit).length_le
  rw [scanNumber, hdrop, List.length_cons]
  split
  · rename_i t' heq
    rw [heq, List.length_cons] at hle
    dsimp only
    split
    · show ('.' :: t').length < _
      rw [List.length_cons]
      omega
    · have hrest := (List.dropWhile_suffix (l := t') Char.isDigit).length_le
      show (t'.dropWhile Char.isDigit).length < _
      omega
  · show (t.dropWhile Char.isDigit).length < _
    omega

theorem scanExponent_length (r : Token × List Char) :
    (scanExponent r).2.length ≤ r.2.length := by
  rw [scanExponent.eq_def]
  split
  · rename_i q c t
    dsimp only
    split
    · have hdrop := (List.dropWhile_suffix (l := t) Char.isDigit).length_le
      show (t.dropWhile Char.isDigit).length ≤ _
      rw [List.length_cons, List.length_cons]
      omega
    · exact le_rfl
  · exact le_rfl

/-- There is no exponent in front of a break. -/
theorem scanExponent_break {k : Token} {r : List Char} (hr : Break r) :
    scanExponent (k, r) = (k, r) := by
  rw [scanExponent.eq_def]
  split
  · rename_i heq
    cases heq
    have hc := (hr _ rfl).1
    rw [if_neg]
    rintro ⟨rfl | rfl, -⟩ <;> exact absurd hc (by decide)
  · rfl

/-! ## Lexers -/

/-- A name that is no reserved word, in any case of letters. -/
structure IsName (w : List Char) : Prop where
  ne_nil : w ≠ []
  head : ∀ c ∈ w.head?, isIdentStart c = true
  chars : ∀ c ∈ w, isIdentChar c = true
  free : reserved.lookup (w.map Char.toLower) = none

/-- How the tokens of printed formulas are cut from a text. -/
structure Scans (next : Next Token) : Prop where
  consumes : Consumes next
  blank : ∀ c r, isBlank c = true → next (c :: r) = some (none, r)
  name : ∀ w, IsName w → Lexes next Break w [.ident w]
  keyword : ∀ p ∈ reserved, Lexes next Break p.1 [p.2]
  number : ∀ a b, (∀ c ∈ a, c.isDigit = true) → a ≠ [] → (∀ c ∈ b, c.isDigit = true) →
    Lexes next Break (numberChars a b) [numberToken a b]
  lit : ∀ c ∈ literals, c ≠ '<' → c ≠ '>' → ∀ r, next (c :: r) = some (some (.lit c), r)
  less : ∀ r, next ('<' :: ' ' :: r) = some (some (.lit '<'), ' ' :: r)
  greater : ∀ r, next ('>' :: ' ' :: r) = some (some (.lit '>'), ' ' :: r)
  le : ∀ r, next ('<' :: '=' :: r) = some (some .le, r)
  ge : ∀ r, next ('>' :: '=' :: r) = some (some .ge, r)

section Scan

variable {word : List Char → Token} {number : List Char → Token × List Char}

theorem takeWhile_word {w r : List Char} (hw : ∀ c ∈ w, isIdentChar c = true) (hr : Break r) :
    (w ++ r).takeWhile isIdentChar = w ∧ (w ++ r).dropWhile isIdentChar = r := by
  rw [List.takeWhile_append_of_pos hw, List.dropWhile_append_of_pos hw]
  cases r with
  | nil => exact ⟨List.append_nil _, rfl⟩
  | cons c r =>
      have hc := (hr c rfl).1
      rw [List.takeWhile_cons_of_neg (by rw [hc]; exact Bool.false_ne_true),
        List.dropWhile_cons_of_neg (by rw [hc]; exact Bool.false_ne_true)]
      exact ⟨List.append_nil _, rfl⟩

/-- A word is cut where its characters end. -/
theorem scan_word {w r : List Char} (hne : w ≠ []) (hhead : ∀ c ∈ w.head?, isIdentStart c = true)
    (hw : ∀ c ∈ w, isIdentChar c = true) (hr : Break r) :
    scan word number (w ++ r) = some (some (word w), r) := by
  obtain ⟨htake, hdrop⟩ := takeWhile_word hw hr
  cases w with
  | nil => exact absurd rfl hne
  | cons c w =>
      have hstart := hhead c rfl
      rw [List.cons_append] at htake hdrop ⊢
      rw [scan, if_neg (by rw [isIdentStart_not_blank hstart]; exact Bool.false_ne_true),
        if_pos hstart, htake, hdrop]

theorem scan_consumes (hnumber : ∀ c t, c.isDigit = true →
    (number (c :: t)).2.length < (c :: t).length) : Consumes (scan word number) := by
  intro t r h
  cases t with
  | nil => cases h
  | cons c t =>
      rw [scan] at h
      split at h
      · cases h
        exact Nat.lt_succ_self _
      · split at h
        · rename_i hstart
          cases h
          have hident : isIdentChar c = true := by
            simp only [isIdentStart, Bool.or_eq_true] at hstart
            simp only [isIdentChar, Char.isAlphanum, Bool.or_eq_true]
            exact hstart.imp .inl id
          show ((c :: t).dropWhile isIdentChar).length < _
          rw [List.dropWhile_cons_of_pos hident, List.length_cons]
          exact Nat.lt_succ_of_le (List.dropWhile_suffix isIdentChar).length_le
        · split at h
          · rename_i hdigit
            cases h
            exact hnumber c t hdigit
          · rw [scanLiteral.eq_def] at h
            split at h
            · cases h
              exact Nat.lt_succ_of_lt (Nat.lt_succ_self _)
            · cases h
              exact Nat.lt_succ_of_lt (Nat.lt_succ_self _)
            · split at h
              · cases h
                exact Nat.lt_succ_self _
              · cases h

theorem scan_lit {c : Char} (h : c ∈ literals) (hlt : c ≠ '<') (hgt : c ≠ '>') (r : List Char) :
    scan word number (c :: r) = some (some (.lit c), r) := by
  have hclass : ∀ c ∈ literals, isBlank c = false ∧ isIdentStart c = false ∧
      c.isDigit = false := List.all_iff_forall_prop.mp (by decide)
  obtain ⟨hb, hs, hd⟩ := hclass c h
  rw [scan, if_neg (by rw [hb]; exact Bool.false_ne_true),
    if_neg (by rw [hs]; exact Bool.false_ne_true), if_neg (by rw [hd]; exact Bool.false_ne_true),
    scanLiteral.eq_def]
  split
  · exact absurd rfl hlt
  · exact absurd rfl hgt
  · rw [if_pos h]

/-- **BOTH LEXERS** read names, reserved words and numbers alike. -/
theorem scan_scans (hname : ∀ w, IsName w → word w = .ident w)
    (hkeyword : ∀ p ∈ reserved, word p.1 = p.2)
    (hconsumes : ∀ c t, c.isDigit = true → (number (c :: t)).2.length < (c :: t).length)
    (hnumber : ∀ a b r, (∀ c ∈ a, c.isDigit = true) → (∀ c ∈ b, c.isDigit = true) → Break r →
      number (numberChars a b ++ r) = (numberToken a b, r)) :
    Scans (scan word number) where
  consumes := scan_consumes hconsumes
  blank c r h := by rw [scan, if_pos h]
  name w hw := by
    have hnext : ∀ r, Break r → scan word number (w ++ r) = some (some (.ident w), r) := by
      intro r hr
      rw [scan_word hw.ne_nil hw.head hw.chars hr, hname w hw]
    exact .one (scan_consumes hconsumes) hnext
  keyword p hp := by
    have hchars : ∀ p ∈ reserved, p.1 ≠ [] ∧ (p.1.head?.all isIdentStart) = true ∧
        (p.1.all isIdentChar) = true := by decide
    obtain ⟨hne, hfirst, hall⟩ := hchars p hp
    rw [List.all_eq_true] at hall
    have hhead : ∀ c ∈ p.1.head?, isIdentStart c = true := by
      intro c hc
      rwa [hc, Option.all_some] at hfirst
    have hnext : ∀ r, Break r → scan word number (p.1 ++ r) = some (some p.2, r) := by
      intro r hr
      rw [scan_word hne hhead hall hr, hkeyword p hp]
    exact .one (scan_consumes hconsumes) hnext
  number a b ha hne hb := by
    have hnext : ∀ r, Break r →
        scan word number (numberChars a b ++ r) = some (some (numberToken a b), r) := by
      intro r hr
      have hscan := hnumber a b r ha hb hr
      obtain ⟨c, t, ht⟩ : ∃ c t, numberChars a b ++ r = c :: t ∧ c.isDigit = true := by
        obtain ⟨c, a', rfl⟩ := List.exists_cons_of_ne_nil hne
        exact ⟨c, _, rfl, ha c List.mem_cons_self⟩
      obtain ⟨hblank, hstart⟩ := isDigit_not_start ht.2
      rw [ht.1] at hscan ⊢
      rw [scan, if_neg (by rw [hblank]; exact Bool.false_ne_true),
        if_neg (by rw [hstart]; exact Bool.false_ne_true), if_pos ht.2, hscan]
    exact .one (scan_consumes hconsumes) hnext
  lit c h hlt hgt r := scan_lit h hlt hgt r
  less r := rfl
  greater r := rfl
  le r := rfl
  ge r := rfl

end Scan

/-- What is free in any case of letters is free as it stands. -/
theorem lookup_lower {w : List Char} (h : reserved.lookup (w.map Char.toLower) = none) :
    reserved.lookup w = none := by
  have hlower : ∀ p ∈ reserved, p.1.map Char.toLower = p.1 := by decide
  rw [List.lookup_eq_none_iff] at h ⊢
  intro p hp
  have hne := h p hp
  rw [bne_iff_ne] at hne ⊢
  rintro rfl
  exact hne (hlower p hp)

theorem pyScan_scans : Scans pyScan := by
  refine scan_scans (fun w hw => ?_) (by decide) (fun _ _ => scanNumber_lt _)
    (fun a b r ha hb hr => scanNumber_chars ha hb hr.ends)
  rw [pyWord, lookup_lower hw.free]
  rfl

theorem maximaScan_scans : Scans maximaScan := by
  refine scan_scans (fun w hw => ?_) (by decide)
    (fun c t hc => lt_of_le_of_lt (scanExponent_length _) (scanNumber_lt t hc))
    (fun a b r ha hb hr => ?_)
  · rw [maximaWord, hw.free]
    rfl
  · rw [scanNumber_chars ha hb hr.ends, scanExponent_break hr]

/-! ## Pieces of printed formulas -/

def opToken : Op → Token
  | .add => .lit '+'
  | .sub => .lit '-'
  | .mul => .lit '*'
  | .div => .lit '/'
  | .pow => .lit '^'
  | .eq => .lit '='
  | .gt => .lit '>'
  | .ge => .ge
  | .lt => .lit '<'
  | .le => .le
  | .and => .and
  | .or => .or

theorem break_space (r : List Char) : Break (' ' :: r) := .cons (by decide)

theorem break_rparen (r : List Char) : Break (')' :: r) := .cons (by decide)

theorem break_times (r : List Char) : Break ('*' :: r) := .cons (by decide)

theorem break_equals (r : List Char) : Break ('=' :: r) := .cons (by decide)

namespace Scans

variable {next : Next Token} {B : List Char → Prop}

theorem space (h : Scans next) : Lexes next B [' '] [] :=
  .one (k := none) h.consumes fun r _ => h.blank ' ' r rfl

theorem literal (h : Scans next) {c : Char} (hc : c ∈ literals) (hlt : c ≠ '<') (hgt : c ≠ '>') :
    Lexes next B [c] [.lit c] :=
  .one (k := some (.lit c)) h.consumes fun r _ => h.lit c hc hlt hgt r

theorem lparen (h : Scans next) : Lexes next B ['('] [.lit '('] :=
  h.literal (by decide) (by decide) (by decide)

theorem rparen (h : Scans next) : Lexes next B [')'] [.lit ')'] :=
  h.literal (by decide) (by decide) (by decide)

theorem minus (h : Scans next) : Lexes next B ['-'] [.lit '-'] :=
  h.literal (by decide) (by decide) (by decide)

/-- Something with a blank behind it. -/
theorem behind (h : Scans next) {C : List Char → Prop} {a : List Char} {ts : List Token}
    (ha : Lexes next C a ts) (hC : ∀ r, C (' ' :: r)) : Lexes next B (a ++ [' ']) ts := by
  have happ := ha.append (B := B) h.space fun r _ => hC r
  rwa [List.append_nil] at happ

/-- A blank in front. -/
theorem before (h : Scans next) {a : List Char} {ts : List Token} (ha : Lexes next B a ts) :
    Lexes next B (' ' :: a) ts :=
  h.space.append (C := fun _ => True) ha fun _ _ => trivial

theorem op (h : Scans next) (o : Op) : Lexes next B (' ' :: (o.chars ++ [' '])) [opToken o] := by
  have hone : ∀ (c : List Char) (k : Token),
      (∀ r, next (c ++ ' ' :: r) = some (some k, ' ' :: r)) →
      Lexes next (fun r => ∃ r', r = ' ' :: r') c [k] := by
    intro c k hnext
    refine .one (k := some k) h.consumes ?_
    rintro _ ⟨r, rfl⟩
    exact hnext r
  have hlit : ∀ c ∈ literals, c ≠ '<' → c ≠ '>' →
      Lexes next (fun r => ∃ r', r = ' ' :: r') [c] [.lit c] := fun c hc hlt hgt =>
    h.literal hc hlt hgt
  have hword : ∀ p ∈ reserved, Lexes next (fun r => ∃ r', r = ' ' :: r') p.1 [p.2] :=
    fun p hp => (h.keyword p hp).mono fun r ⟨r', hr⟩ => hr ▸ break_space r'
  have hop : Lexes next (fun r => ∃ r', r = ' ' :: r') o.chars [opToken o] := by
    cases o with
    | add => exact hlit '+' (by decide) (by decide) (by decide)
    | sub => exact hlit '-' (by decide) (by decide) (by decide)
    | mul => exact hlit '*' (by decide) (by decide) (by decide)
    | div => exact hlit '/' (by decide) (by decide) (by decide)
    | pow => exact hlit '^' (by decide) (by decide) (by decide)
    | eq => exact hlit '=' (by decide) (by decide) (by decide)
    | gt => exact hone ['>'] _ h.greater
    | lt => exact hone ['<'] _ h.less
    | ge => exact hone ['>', '='] _ fun r => h.ge _
    | le => exact hone ['<', '='] _ fun r => h.le _
    | and => exact hword (['a', 'n', 'd'], .and) (by decide)
    | or => exact hword (['o', 'r'], .or) (by decide)
  exact h.before (h.behind hop fun r => ⟨r, rfl⟩)

/-- A reserved word with a blank behind it. -/
theorem reservedWord (h : Scans next) {w : List Char} {k : Token} (hw : (w, k) ∈ reserved) :
    Lexes next B (w ++ [' ']) [k] :=
  h.behind (h.keyword _ hw) break_space

theorem kwIf (h : Scans next) : Lexes next B ['i', 'f', ' '] [.kwIf] :=
  h.reservedWord (w := ['i', 'f']) (by decide)

theorem kwThen (h : Scans next) : Lexes next B [' ', 't', 'h', 'e', 'n', ' '] [.kwThen] :=
  h.before (h.reservedWord (w := ['t', 'h', 'e', 'n']) (by decide))

theorem kwElse (h : Scans next) : Lexes next B [' ', 'e', 'l', 's', 'e', ' '] [.kwElse] :=
  h.before (h.reservedWord (w := ['e', 'l', 's', 'e']) (by decide))

theorem binop (h : Scans next) (o : Op) {l r : List Char} {ls rs : List Token}
    (hl : Lexes next Break l ls) (hr : Lexes next Break r rs) :
    Lexes next B ('(' :: (l ++ ' ' :: o.chars ++ ' ' :: r ++ [')']))
      (.lit '(' :: ls ++ opToken o :: rs ++ [.lit ')']) := by
  have hright := hr.append (B := B) h.rparen fun r _ => break_rparen r
  have hop := (h.op (B := fun _ => True) o).append hright fun _ _ => trivial
  have hleft := hl.append hop fun r _ => break_space _
  have hall := (h.lparen (B := fun _ => True)).append hleft fun _ _ => trivial
  simpa only [List.append_assoc, List.cons_append, List.nil_append] using hall

/-- A conditional without its `else`. -/
theorem conditional (h : Scans next) {c t : List Char} {cs ts : List Token}
    (hc : Lexes next Break c cs) (ht : Lexes next Break t ts) :
    Lexes next Break (['i', 'f', ' '] ++ c ++ [' ', 't', 'h', 'e', 'n', ' '] ++ t)
      (.kwIf :: cs ++ .kwThen :: ts) := by
  have hthen := (h.kwThen (B := fun _ => True)).append ht fun _ _ => trivial
  have hcond := hc.append hthen fun r _ => break_space _
  have hall := (h.kwIf (B := fun _ => True)).append hcond fun _ _ => trivial
  simpa only [List.append_assoc, List.cons_append, List.nil_append] using hall

theorem alternative (h : Scans next) {a e : List Char} {ks es : List Token}
    (ha : Lexes next Break a ks) (he : Lexes next Break e es) :
    Lexes next Break (a ++ [' ', 'e', 'l', 's', 'e', ' '] ++ e) (ks ++ .kwElse :: es) := by
  have helse := (h.kwElse (B := fun _ => True)).append he fun _ _ => trivial
  have hall := ha.append helse fun r _ => break_space _
  simpa only [List.append_assoc, List.cons_append, List.nil_append] using hall

end Scans

/-! ## Productions -/

section Productions

open PbYacc PbYacc.Grammar

variable {int : ℕ → ℤ}

theorem leftFrom : (grammar int).LeftFrom 4 where
  left o h := by
    have hlevel : ∀ o, 4 ≤ level o → assoc o = .left := by
      intro o
      cases o <;> decide
    exact hlevel o h
  unary := le_rfl

theorem binary_opToken (o : Op) : (grammar int).binary (opToken o) = some o := by
  cases o <;> rfl

theorem accepts_number (a b : List Char) : (grammar int).Accepts 4 [numberToken a b] := by
  rw [numberToken]
  split
  · exact .atom rfl
  · exact .atom rfl

theorem accepts_negative {ts : List Token} (h : (grammar int).Accepts 4 ts) :
    (grammar int).Accepts 4 (.lit '-' :: ts) :=
  .unary rfl rfl h

theorem accepts_paren {ts : List Token} (h : (grammar int).Encloses ts) :
    (grammar int).Accepts 4 (.lit '(' :: ts ++ [.lit ')']) :=
  h.paren rfl rfl rfl rfl rfl rfl

theorem accepts_binop (o : Op) {ls rs : List Token} (hl : (grammar int).Accepts 4 ls)
    (hr : (grammar int).Accepts 4 rs) :
    (grammar int).Accepts 4 (.lit '(' :: ls ++ opToken o :: rs ++ [.lit ')']) := by
  have h := accepts_paren (hl.encloses_binary leftFrom (binary_opToken o) hr)
  simpa only [List.cons_append, List.append_assoc] using h

theorem accepts_times {ls rs : List Token} (hl : (grammar int).Accepts 4 ls)
    (hr : (grammar int).Accepts 4 rs) : (grammar int).Accepts 4 (ls ++ .lit '*' :: rs) :=
  hl.binary leftFrom (o := .mul) rfl (show 4 ≤ 5 by decide) hr

theorem accepts_if {cs ts : List Token} (hc : (grammar int).Accepts 4 cs)
    (ht : (grammar int).Accepts 4 ts) :
    (grammar int).Accepts 4 (.lit '(' :: (.kwIf :: cs ++ .kwThen :: ts) ++ [.lit ')']) :=
  accepts_paren (hc.encloses_if rfl rfl rfl rfl rfl rfl (show 3 < 4 by decide) ht)

theorem accepts_ifElse {cs ts es : List Token} (hc : (grammar int).Accepts 4 cs)
    (ht : (grammar int).Accepts 4 ts) (he : (grammar int).Accepts 4 es) :
    (grammar int).Accepts 4
      (.lit '(' :: (.kwIf :: cs ++ .kwThen :: (ts ++ .kwElse :: es)) ++ [.lit ')']) :=
  accepts_paren (hc.encloses_ifElse rfl rfl rfl rfl rfl rfl rfl rfl (show 3 < 4 by decide) ht he)

/-- A number and a word behind it: no text with both is read. -/
def Broken (ts : List Token) : Prop :=
  ∃ us a b w vs, ts = us ++ numberToken a b :: .ident w :: vs

theorem Broken.append_left {ts : List Token} (h : Broken ts) (us : List Token) :
    Broken (us ++ ts) := by
  obtain ⟨ks, a, b, w, vs, rfl⟩ := h
  exact ⟨us ++ ks, a, b, w, vs, (List.append_assoc _ _ _).symm⟩

theorem Broken.append_right {ts : List Token} (h : Broken ts) (us : List Token) :
    Broken (ts ++ us) := by
  obtain ⟨ks, a, b, w, vs, rfl⟩ := h
  exact ⟨ks, a, b, w, vs ++ us, by simp only [List.append_assoc, List.cons_append]⟩

theorem Broken.not_parsed {ts : List Token} (h : Broken ts) : (grammar int).parse ts = none := by
  obtain ⟨us, a, b, w, vs, rfl⟩ := h
  have htwo : ∀ q, ((grammar int).step q (numberToken a b)).bind
      (fun q => (grammar int).step q (.ident w)) = none := by
    intro q
    rw [numberToken]
    split <;> cases q <;> rfl
  rw [Grammar.parse, run_two htwo]
  rfl

/-- `==` is two tokens, of which the second is an error. -/
theorem not_parsed_equals (us vs : List Token) :
    (grammar int).parse (us ++ .lit '=' :: .lit '=' :: vs) = none := by
  have htwo : ∀ q, ((grammar int).step q (.lit '=')).bind
      (fun q => (grammar int).step q (.lit '=')) = none := by
    intro q
    cases q with
    | operand s => rfl
    | opening f s => rfl
    | operator s e =>
        show (Option.map _ _).bind _ = none
        cases (grammar int).reduce (.op .eq) s e with
        | none => rfl
        | some r => rfl
  rw [Grammar.parse, run_two htwo]
  rfl

end Productions

end PbMaximaParser
