import Mathlib.Data.Bool.AllAny
import PetaBricks.ConfigFileModel

/-! # What survives an exchange of configuration files

    The tuner's regular expression takes digits, points and signs for the value; an exponent
    goes into the comment.  So a double is read without its exponent (`configLine_saveLine`,
    `configLine_configSaveLine`), and what is saved next has the old exponent standing behind
    the new one, which `StringToX` does not accept (`loadLine_spoiled`).  What is in the file
    is known from who has written it, and the runs that change nothing are those in which no
    double with an exponent gets to the tuner, and no double at all that has been through it
    twice gets back to the program. -/

namespace PbConfigFile

open PbDecimal PbText

/-! ## Characters -/

/-- The characters of numbers. -/
def NumberChar (c : Char) : Prop := c.isDigit = true ∨ c ∈ ['.', '-', '+', 'e']

theorem NumberChar.isSpace {c : Char} (h : NumberChar c) : isSpace c = false := by
  cases hs : PbConfigFile.isSpace c with
  | false => rfl
  | true =>
      simp only [PbConfigFile.isSpace, isWs, Bool.or_eq_true, decide_eq_true_eq] at hs
      rcases hs with ((((rfl | rfl) | rfl) | rfl) | rfl) | rfl <;>
        rcases h with h | h <;> revert h <;> decide

theorem isWs_of_isSpace {c : Char} (h : isSpace c = false) : isWs c = false := by
  rw [isSpace, Bool.or_eq_false_iff, Bool.or_eq_false_iff] at h
  exact h.1.1

theorem NumberChar.ne {c d : Char} (h : NumberChar c) (hd : d.isDigit = false)
    (hd' : d ∉ ['.', '-', '+', 'e']) : c ≠ d := by
  rintro rfl
  rcases h with h | h
  · rw [hd] at h
    cases h
  · exact hd' h

theorem fixed_number {strip : Bool} {k n : ℕ} {q : ℚ} :
    ∀ c ∈ signText q ++ fixedText strip k n, NumberChar c := by
  intro c hc
  rcases List.mem_append.mp hc with hsign | hfix
  · rw [signText_chars q c hsign]
    exact .inr (by decide)
  · rcases fixedText_chars strip k n c hfix with hdigit | rfl
    · exact .inl hdigit
    · exact .inr (by decide)

theorem exponent_number (x : ℤ) : ∀ c ∈ exponentText x, NumberChar c := by
  intro c hc
  have hdigits := digitsText_isDigit x.natAbs
  rw [exponentText] at hc
  rcases List.mem_cons.mp hc with rfl | hc
  · exact .inr (by decide)
  · rcases List.mem_cons.mp hc with rfl | hc
    · split <;> exact .inr (by decide)
    · split at hc
      · rcases List.mem_cons.mp hc with rfl | hc
        · exact .inl rfl
        · exact .inl (hdigits c hc)
      · exact .inl (hdigits c hc)

theorem formatE_number (p : ℕ) (q : ℚ) : ∀ c ∈ formatE p q, NumberChar c := by
  intro c hc
  rw [formatE] at hc
  rcases List.mem_append.mp hc with hc | hc
  · exact fixed_number c hc
  · exact exponent_number _ c hc

theorem valueText_number (v : Value) : ∀ c ∈ valueText v, NumberChar c := by
  intro c hc
  cases v with
  | int i =>
      rcases intText_chars i c hc with hdigit | rfl
      · exact .inl hdigit
      · exact .inr (by decide)
  | double q =>
      simp only [valueText, formatG] at hc
      split at hc
      · exact fixed_number c hc
      · rcases List.mem_append.mp hc with hc | hc
        · exact fixed_number c hc
        · exact exponent_number _ c hc

theorem tight_number {blank : Char → Bool} {t : List Char}
    (hblank : ∀ c, NumberChar c → blank c = false) (h : ∀ c ∈ t, NumberChar c) : Tight blank t :=
  tight_of_forall fun c hc => hblank c (h c hc)

theorem number_not_ws (c : Char) (h : NumberChar c) : isWs c = false := isWs_of_isSpace h.isSpace

theorem valueText_ne_nil (v : Value) : valueText v ≠ [] := by
  cases v with
  | int i => exact intText_ne_nil i
  | double q =>
      have hne : ∀ strip k n, signText q ++ fixedText strip k n ≠ [] := fun strip k n h => by
        obtain ⟨d, ds, hds, _⟩ := fixedText_eq_cons strip k n
        rw [hds] at h
        exact absurd (List.append_eq_nil_iff.mp h).2 (List.cons_ne_nil _ _)
      simp only [valueText, formatG]
      split
      · exact hne _ _ _
      · exact fun h => hne _ _ _ (List.append_eq_nil_iff.mp h).1

/-! ## Tunables -/

/-- A name of C. -/
def IsIdentifier (name : List Char) : Prop :=
  name ≠ [] ∧ ∀ c ∈ name, c.isAlphanum = true ∨ c = '_'

/-- An integer is an `int` and has a range of integers; a double is one of the decimal numbers
    that both sides print with all their digits. -/
def Tunable.Typed (t : Tunable) : Prop :=
  match t.value, t.min, t.max with
  | .int i, .int _, .int _ => -2 ^ 31 ≤ i ∧ i < 2 ^ 31
  | .double q, .double _, .double _ => Significant 25 q
  | _, _, _ => False

def Tunable.InRange (t : Tunable) : Prop := t.min.asD ≤ t.value.asD ∧ t.value.asD ≤ t.max.asD

/-- The tunables of a program. -/
structure Tunables where
  list : List Tunable
  nodup : (list.map Tunable.name).Nodup
  identifier : ∀ t ∈ list, IsIdentifier t.name
  typed : ∀ t ∈ list, t.Typed
  inRange : ∀ t ∈ list, t.InRange

variable {t : Tunable} {q : ℚ} {i : ℤ} {j : ℕ}

theorem Tunable.Typed.significant (h : t.Typed) (hq : t.value = .double q) : Significant 25 q := by
  rw [Tunable.Typed, hq] at h
  split at h
  · rename_i heq _ _
    cases heq
  · rename_i heq _ _
    cases heq
    exact h
  · exact h.elim

theorem Tunable.Typed.int (h : t.Typed) (hi : t.value = .int i) :
    (-2 ^ 31 ≤ i ∧ i < 2 ^ 31) ∧ ∃ a b, t.min = .int a ∧ t.max = .int b := by
  rw [Tunable.Typed, hi] at h
  split at h
  · rename_i heq hmin hmax
    cases heq
    exact ⟨h, _, _, hmin, hmax⟩
  · rename_i heq _ _
    cases heq
  · exact h.elim

theorem identifier_key {name : List Char} (h : IsIdentifier name) : ∀ c ∈ name, isKeyChar c = true := by
  intro c hc
  rw [isKeyChar, Bool.or_eq_true, Bool.or_eq_true]
  rcases h.2 c hc with ha | rfl
  · exact .inl (.inl ha)
  · exact .inl (.inr rfl)

theorem key_ne {c d : Char} (h : isKeyChar c = true) (hd : isKeyChar d = false) : c ≠ d := by
  rintro rfl
  rw [h] at hd
  cases hd

theorem key_not_ws {c : Char} (h : isKeyChar c = true) : isWs c = false := by
  cases hs : isWs c with
  | false => rfl
  | true =>
      simp only [isWs, Bool.or_eq_true, decide_eq_true_eq] at hs
      rcases hs with ((rfl | rfl) | rfl) | rfl <;> exact absurd h (by decide)

/-! ### The comment -/

/-- What stands in front of the upper bound. -/
def commentStart (t : Tunable) : List Char :=
  ['#', ' '] ++ typestr t.value ++
    [',', ' ', 'v', 'a', 'l', 'i', 'd', ' ', 'r', 'a', 'n', 'g', 'e', ':', ' '] ++
    valueText t.min ++ [' ', 't', 'o', ' ']

theorem comment_eq (t : Tunable) : comment t = '#' :: (' ' :: typestr t.value ++
    ([',', ' ', 'v', 'a', 'l', 'i', 'd', ' ', 'r', 'a', 'n', 'g', 'e', ':', ' '] ++
      valueText t.min ++ [' ', 't', 'o', ' '] ++ valueText t.max)) := by
  simp [comment]

/-- The comment starts with a sharp and ends with a number. -/
theorem tight_comment (t : Tunable) : Tight isSpace (comment t) := by
  have hmax := tight_number (fun c h => NumberChar.isSpace h) (valueText_number t.max)
  have hsharp : Tight isSpace ['#'] := tight_of_forall fun c hc => by
    rw [List.mem_singleton.mp hc]
    decide
  have htight := hsharp.append (t := (commentStart t).drop 1) hmax (by simp) (valueText_ne_nil _)
  simpa [comment, commentStart] using htight

theorem comment_ne_nil (t : Tunable) : comment t ≠ [] := by simp [comment]

/-- The exponents that previous readings have left in the comment. -/
def spoils (j : ℕ) (t : Tunable) : List Char :=
  match t.value with
  | .double q => (List.replicate j (exponentText (exponent q) ++ [' '])).flatten
  | .int _ => []

/-- The comment after so many readings of a file of `ConfigFile.save`. -/
def com (j : ℕ) (t : Tunable) : List Char := spoils j t ++ comment t

theorem com_zero (t : Tunable) : com 0 t = comment t := by
  rw [com, spoils]
  cases t.value <;> rfl

theorem com_int (h : t.value = .int i) : com j t = comment t := by simp [com, spoils, h]

theorem com_succ (h : t.value = .double q) :
    com (j + 1) t = exponentText (exponent q) ++ ' ' :: com j t := by
  simp [com, spoils, h, List.replicate_succ]

theorem tight_com (j : ℕ) (t : Tunable) : Tight isSpace (com j t) := by
  cases hv : t.value with
  | int i =>
      rw [com_int hv]
      exact tight_comment t
  | double q =>
      cases j with
      | zero =>
          rw [com_zero]
          exact tight_comment t
      | succ j =>
          have hexp := tight_number (fun c h => NumberChar.isSpace h)
            (exponent_number (exponent q))
          have htight := hexp.append (t := ' ' :: spoils j t) (tight_comment t) (by simp [exponentText])
            (comment_ne_nil t)
          rw [com_succ hv, com]
          simpa using htight

theorem com_ne_nil (j : ℕ) (t : Tunable) : com j t ≠ [] := by
  simp [com, comment_ne_nil]

/-- The comment says what a double is. -/
theorem double_infix (h : t.value = .double q) :
    ['d', 'o', 'u', 'b', 'l', 'e'] <:+: com j t := by
  refine ⟨spoils j t ++ ['#', ' '],
    [',', ' ', 'v', 'a', 'l', 'i', 'd', ' ', 'r', 'a', 'n', 'g', 'e', ':', ' '] ++
      valueText t.min ++ [' ', 't', 'o', ' '] ++ valueText t.max, ?_⟩
  simp [com, comment, typestr, h]

/-- The comment of an integer has no `b` and no `f`. -/
theorem int_comment_chars (ht : t.Typed) (h : t.value = .int i) {c : Char} (hc : c ∈ ['b', 'f']) :
    c ∉ comment t := by
  obtain ⟨_, a, b, hmin, hmax⟩ := ht.int h
  have htext : ∀ k, c ∉ intText k := by
    intro k hk
    rcases intText_chars k c hk with hdigit | rfl
    · simp only [List.mem_cons, List.not_mem_nil, or_false] at hc
      rcases hc with rfl | rfl <;> cases hdigit
    · revert hc
      decide
  have hletters : ∀ c ∈ ['b', 'f'], c ∉ ['#', ' '] ∧ c ∉ ['i', 'n', 't'] ∧
      c ∉ [',', ' ', 'v', 'a', 'l', 'i', 'd', ' ', 'r', 'a', 'n', 'g', 'e', ':', ' '] ∧
      c ∉ [' ', 't', 'o', ' '] := List.all_iff_forall_prop.mp (by decide)
  obtain ⟨h1, h2, h3, h4⟩ := hletters c hc
  simp only [comment, h, hmin, hmax, valueText, typestr, List.mem_append, not_or]
  exact ⟨⟨⟨⟨⟨h1, h2⟩, h3⟩, htext a⟩, h4⟩, htext b⟩

/-! ## The tuner's parser -/

theorem takeWhile_stop {p : Char → Bool} {a b : List Char} (ha : ∀ c ∈ a, p c = true)
    (hb : ∀ c ∈ b.head?, p c = false) : (a ++ b).takeWhile p = a ∧ (a ++ b).dropWhile p = b := by
  refine ⟨?_, dropWhile_blanks ha hb⟩
  rw [List.takeWhile_append_of_pos ha]
  cases b with
  | nil => simp
  | cons c b => simp [hb c rfl]

/-- The groups of a line: the name, the characters of a value, and the rest. -/
theorem matchLine_eq {name v rest : List Char} (hname : IsIdentifier name) (hv : v ≠ [])
    (hchars : ∀ c ∈ v, isValueChar c = true) (hrest : ∀ c ∈ rest.head?, isValueChar c = false) :
    matchLine (name ++ [' ', '=', ' '] ++ v ++ rest) = some (name, v, rest) := by
  have hkey := identifier_key hname
  have hvalue := takeWhile_stop hchars hrest
  have hblank : ∀ {p : Char → Bool} {t : List Char}, t ≠ [] → (∀ c ∈ t, p c = true) →
      (∀ c, p c = true → isBlank c = false) → ∀ u, (t ++ u).dropWhile isBlank = t ++ u := by
    intro p t hne hp hb u
    obtain ⟨c, t', rfl⟩ := List.exists_cons_of_ne_nil hne
    rw [List.cons_append, List.dropWhile_cons, hb c (hp c List.mem_cons_self)]
    rfl
  have hkeyblank : ∀ c, isKeyChar c = true → isBlank c = false := fun c hc => by
    cases hs : isBlank c with
    | false => rfl
    | true =>
        simp only [isBlank, Bool.or_eq_true, decide_eq_true_eq] at hs
        rcases hs with rfl | rfl <;> exact absurd hc (by decide)
  have hvalblank : ∀ c, isValueChar c = true → isBlank c = false := fun c hc => by
    cases hs : isBlank c with
    | false => rfl
    | true =>
        simp only [isBlank, Bool.or_eq_true, decide_eq_true_eq] at hs
        rcases hs with rfl | rfl <;> exact absurd hc (by decide)
  obtain ⟨hk1, hk2⟩ := takeWhile_stop (b := ' ' :: '=' :: ' ' :: (v ++ rest)) hkey
    (fun c hc => by cases hc; decide)
  have htext : name ++ [' ', '=', ' '] ++ v ++ rest = name ++ ' ' :: '=' :: ' ' :: (v ++ rest) := by
    simp
  have hafter : (' ' :: '=' :: ' ' :: (v ++ rest)).dropWhile isBlank = '=' :: ' ' :: (v ++ rest) := rfl
  have hval : (' ' :: (v ++ rest)).dropWhile isBlank = v ++ rest :=
    (show _ = (v ++ rest).dropWhile isBlank from rfl).trans (hblank hv hchars hvalblank rest)
  rw [htext, matchLine]
  simp only [hblank hname.1 hkey hkeyblank, hk1, hk2, hafter, hval, hvalue.1, hvalue.2]
  exact if_pos ⟨hname.1, hv⟩

theorem decimalText_chars {v : List Char} {x : ℚ} (h : DecimalText v x) :
    ∀ c ∈ v, isValueChar c = true := by
  intro c hc
  rw [isValueChar, Bool.or_eq_true, Bool.or_eq_true]
  rcases h.chars c hc with hd | rfl | rfl
  · exact .inl (.inl hd)
  · exact .inl (.inr rfl)
  · exact .inr rfl

theorem pyValue_double {v c : List Char} {x : ℚ} (h : DecimalText v x)
    (hc : ['d', 'o', 'u', 'b', 'l', 'e'] <:+: c) : pyValue v c = some (.double x) := by
  have hread := h.reads [] ⟨fun c hc => (nomatch hc), fun c hc => (nomatch hc)⟩
  rw [List.append_nil] at hread
  rw [pyValue, if_pos (.inl hc), pyFloat, hread]
  rfl

theorem pyValue_int (ht : t.Typed) (hv : t.value = .int i) :
    pyValue (intText i) (comment t) = some (.int i) := by
  have hread := readInt_intText i (t := []) fun c hc => (nomatch hc)
  rw [List.append_nil] at hread
  have hb : ¬ ['d', 'o', 'u', 'b', 'l', 'e'] <:+: comment t := fun h =>
    int_comment_chars ht hv (by decide : 'b' ∈ ['b', 'f']) (h.subset (by decide))
  have hf : ¬ ['f', 'l', 'o', 'a', 't'] <:+: comment t := fun h =>
    int_comment_chars ht hv (by decide : 'f' ∈ ['b', 'f']) (h.subset (by decide))
  rw [pyValue, if_neg (not_or.mpr ⟨hb, hf⟩), pyInt, hread]
  rfl

/-- What the tuner reads of a line with a double: the number in front of the exponent. -/
theorem configLine_double {v : List Char} (rest : List Char) {x : ℚ}
    (hname : IsIdentifier t.name) (h : DecimalText v x)
    (hrest : ∀ c ∈ rest.head?, isValueChar c = false)
    (hc : ['d', 'o', 'u', 'b', 'l', 'e'] <:+: trim isSpace rest) :
    configLine (t.name ++ [' ', '=', ' '] ++ v ++ rest) =
      some (t.name, .double x, trim isSpace rest) := by
  rw [configLine, matchLine_eq hname h.ne_nil (decimalText_chars h) hrest]
  show (pyValue v (trim isSpace rest)).bind _ = _
  rw [pyValue_double h hc]
  rfl

theorem configLine_int {rest : List Char} (ht : t.Typed) (hname : IsIdentifier t.name)
    (hv : t.value = .int i) (hrest : ∀ c ∈ rest.head?, isValueChar c = false)
    (htrim : trim isSpace rest = comment t) :
    configLine (t.name ++ [' ', '=', ' '] ++ intText i ++ rest) =
      some (t.name, .int i, comment t) := by
  have hchars : ∀ c ∈ intText i, isValueChar c = true := by
    intro c hc
    rw [isValueChar, Bool.or_eq_true, Bool.or_eq_true]
    rcases intText_chars i c hc with hd | rfl
    · exact .inl (.inl hd)
    · exact .inr rfl
  rw [configLine, matchLine_eq hname (intText_ne_nil i) hchars hrest]
  show (pyValue (intText i) (trim isSpace rest)).bind _ = _
  rw [htrim, pyValue_int ht hv]
  rfl

/-- The value without an exponent. -/
def withoutExponent : Value → Value
  | .int i => .int i
  | .double q => .double (q / 10 ^ exponent q)

/-- `%.35g` prints no exponent. -/
def Tunable.Plain (t : Tunable) : Prop :=
  match t.value with
  | .int _ => True
  | .double q => PbDecimal.Plain 34 q

/-- The exponent is zero. -/
def Tunable.Unit (t : Tunable) : Prop :=
  match t.value with
  | .int _ => True
  | .double q => exponent q = 0

instance (t : Tunable) : Decidable t.Plain := by
  unfold Tunable.Plain
  split <;> infer_instance

instance (t : Tunable) : Decidable t.Unit := by
  unfold Tunable.Unit
  split <;> infer_instance

/-- **THE TUNER READS A LINE OF THE PROGRAM**: the value, if it is printed without an exponent. -/
theorem configLine_saveLine (ht : t.Typed) (hname : IsIdentifier t.name) :
    ∃ c, configLine (saveLine t) =
        some (t.name, if t.Plain then t.value else withoutExponent t.value, c) ∧
      (t.Plain → c = comment t) := by
  have hblanks : ∀ c ∈ [' ', ' ', ' ', ' ', ' '], isSpace c = true :=
    List.all_iff_forall_prop.mp (by decide)
  have htrim : trim isSpace ([' ', ' ', ' ', ' ', ' '] ++ comment t) = comment t := by
    have h := trim_tight (b := []) (tight_comment t) (comment_ne_nil t) hblanks
      (fun c hc => (nomatch hc))
    rwa [List.append_nil] at h
  cases hv : t.value with
  | int i =>
      refine ⟨comment t, ?_, fun _ => rfl⟩
      have hplain : t.Plain := by rw [Tunable.Plain, hv]; trivial
      rw [if_pos hplain, saveLine, hv, List.append_assoc _ _ (comment t)]
      exact configLine_int ht hname hv (fun c hc => by cases hc; decide) htrim
  | double q =>
      have hinfix := double_infix (j := 0) hv
      rw [com_zero] at hinfix
      obtain ⟨v, hdec, hformat⟩ := formatG_eq ((ht.significant hv).mono (show 25 ≤ 34 by decide))
      have hplain : t.Plain ↔ PbDecimal.Plain 34 q := by rw [Tunable.Plain, hv]
      have htext : saveLine t = t.name ++ [' ', '=', ' '] ++ v ++
          ((if PbDecimal.Plain 34 q then [] else exponentText (exponent q)) ++
            ([' ', ' ', ' ', ' ', ' '] ++ comment t)) := by
        simp only [saveLine, hv, valueText, hformat, List.append_assoc]
      rw [htext]
      by_cases hp : PbDecimal.Plain 34 q
      · rw [if_pos hp] at hdec ⊢
        rw [if_pos (hplain.mpr hp), List.nil_append]
        have hline := configLine_double ([' ', ' ', ' ', ' ', ' '] ++ comment t) hname hdec
          (fun c hc => by cases hc; decide) (by rwa [htrim])
        rw [htrim] at hline
        exact ⟨_, hline, fun _ => rfl⟩
      · rw [if_neg hp] at hdec ⊢
        rw [if_neg fun h => hp (hplain.mp h)]
        have htight := (tight_number (fun c h => NumberChar.isSpace h)
          (exponent_number (exponent q))).append (t := [' ', ' ', ' ', ' ', ' ']) (tight_comment t)
          (by simp [exponentText]) (comment_ne_nil t)
        have htrim' := trim_tight (a := []) (b := []) htight (by simp [exponentText])
          (fun c hc => (nomatch hc)) (fun c hc => (nomatch hc))
        rw [List.append_nil, List.nil_append, List.append_assoc] at htrim'
        refine ⟨_, configLine_double _ hname hdec (fun c hc => by cases hc; decide) ?_,
          fun h => absurd (hplain.mp h) hp⟩
        rw [htrim']
        exact hinfix.trans (List.suffix_append_of_suffix (List.suffix_append _ _)).isInfix

/-- The line of a tunable that has been read so many times from a file of `ConfigFile.save`. -/
def entry (j : ℕ) (t : Tunable) : List Char × Value × List Char := (t.name, t.value, com j t)

/-- **THE TUNER READS ITS OWN LINE**: never an exponent, which joins the comment. -/
theorem configLine_configSaveLine (ht : t.Typed) (hname : IsIdentifier t.name) (j : ℕ) :
    configLine (configSaveLine (entry j t)) =
      some (t.name, withoutExponent t.value, com (j + 1) t) := by
  cases hv : t.value with
  | int i =>
      have htrim : trim isSpace (' ' :: comment t) = comment t := by
        have h := trim_tight (a := [' ']) (b := []) (tight_comment t) (comment_ne_nil t)
          (List.all_iff_forall_prop.mp (by decide)) (fun c hc => (nomatch hc))
        rwa [List.append_nil] at h
      rw [com_int hv]
      simp only [configSaveLine, entry, hv, com_int hv]
      exact configLine_int ht hname hv (fun c hc => by cases hc; decide) htrim
  | double q =>
      obtain ⟨v, hdec, hformat⟩ := formatE_eq (ht.significant hv)
      have htext : configSaveLine (entry j t) = t.name ++ [' ', '=', ' '] ++ v ++
          (com (j + 1) t) := by
        simp only [configSaveLine, entry, hv, hformat, com_succ hv, List.append_assoc]
      have htrim : trim isSpace (com (j + 1) t) = com (j + 1) t := by
        have h := trim_tight (a := []) (b := []) (tight_com (j + 1) t) (com_ne_nil _ t)
          (fun c hc => (nomatch hc)) (fun c hc => (nomatch hc))
        rwa [List.append_nil, List.nil_append] at h
      have hline := configLine_double (t := t) (com (j + 1) t) hname hdec
        (fun c hc => by rw [com_succ hv] at hc; cases hc; decide) (by
          rw [htrim]
          exact double_infix hv)
      rw [htext, hline, htrim]
      rfl

/-! ## The program's parser -/

theorem typestr_not_ws (v : Value) : ∀ c ∈ typestr v, isWs c = false := by
  cases v with
  | int i =>
      show ∀ c ∈ ['i', 'n', 't'], isWs c = false
      exact List.all_iff_forall_prop.mp (by decide)
  | double q =>
      show ∀ c ∈ ['d', 'o', 'u', 'b', 'l', 'e'], isWs c = false
      exact List.all_iff_forall_prop.mp (by decide)

theorem typestr_ne_nil (v : Value) : typestr v ≠ [] := by
  cases v <;> exact List.cons_ne_nil _ _

/-- A line in its parts: the comment decides how the value is read. -/
theorem loadLine_eq {r b : List Char} (hname : IsIdentifier t.name) (hr : Tight isWs r)
    (hne : r ≠ []) (hsharp : '#' ∉ r) (hb : ∀ c ∈ b, c = ' ') :
    loadLine (t.name ++ [' ', '=', ' '] ++ r ++ b ++ comment t) =
      match t.value with
      | .double _ => (stringToDouble r).map fun q => some (t.name, .double q)
      | .int _ =>
          if '.' ∈ r then (stringToDouble r).map fun q => some (t.name, .double q)
          else (stringToInt r).map fun i => some (t.name, .int i) := by
  have hkey := identifier_key hname
  have hblank : ∀ c ∈ b, isWs c = true := fun c hc => by rw [hb c hc]; decide
  -- in front of the sharp
  have hfront : '#' ∉ t.name ++ [' ', '=', ' '] ++ r ++ b := by
    simp only [List.mem_append, not_or]
    exact ⟨⟨⟨fun h => key_ne (hkey _ h) (by decide) rfl, by decide⟩, hsharp⟩,
      fun h => absurd (hb _ h) (by decide)⟩
  have hsplit := splitFirst_append (b := ' ' :: typestr t.value ++
    ([',', ' ', 'v', 'a', 'l', 'i', 'd', ' ', 'r', 'a', 'n', 'g', 'e', ':', ' '] ++
      valueText t.min ++ [' ', 't', 'o', ' '] ++ valueText t.max)) hfront
  rw [← comment_eq] at hsplit
  -- on both sides of the equals sign
  have heq : '=' ∉ t.name ++ [' '] := by
    simp only [List.mem_append, not_or]
    exact ⟨fun h => key_ne (hkey _ h) (by decide) rfl, by decide⟩
  have hassign := splitFirst_append (b := [' '] ++ r ++ b) heq
  have htext : t.name ++ [' '] ++ '=' :: ([' '] ++ r ++ b) =
      t.name ++ [' ', '=', ' '] ++ r ++ b := by simp
  rw [htext] at hassign
  have hl : trim isWs (t.name ++ [' ']) = t.name :=
    trim_tight (a := []) (tight_of_forall fun c hc => key_not_ws (hkey c hc)) hname.1
      (fun c hc => (nomatch hc)) (List.all_iff_forall_prop.mp (by decide))
  have hr' : trim isWs ([' '] ++ r ++ b) = r :=
    trim_tight hr hne (List.all_iff_forall_prop.mp (by decide)) hblank
  -- the comment
  have htight := (tight_of_forall (typestr_not_ws t.value)).append
    (t := [',', ' ', 'v', 'a', 'l', 'i', 'd', ' ', 'r', 'a', 'n', 'g', 'e', ':', ' '] ++
      valueText t.min ++ [' ', 't', 'o', ' '])
    (tight_number number_not_ws (valueText_number t.max)) (typestr_ne_nil _) (valueText_ne_nil _)
  have hc := trim_tight (a := [' ']) (b := []) htight
    (by simp [typestr_ne_nil]) (List.all_iff_forall_prop.mp (by decide)) (fun c hc => (nomatch hc))
  rw [List.append_nil, List.append_assoc (typestr t.value), List.singleton_append] at hc
  rw [loadLine, hsplit]
  simp only [hassign, hl, hr']
  rw [← List.cons_append] at hc
  rw [hc, if_pos ⟨hne, hname.1⟩]
  cases hv : t.value with
  | double q => exact if_pos (.inl (List.prefix_append _ _))
  | int i =>
      have hd : ¬ ['d', 'o', 'u', 'b', 'l', 'e'] <+: typestr (.int i) ++
          ([',', ' ', 'v', 'a', 'l', 'i', 'd', ' ', 'r', 'a', 'n', 'g', 'e', ':', ' '] ++
            valueText t.min ++ [' ', 't', 'o', ' '] ++ valueText t.max) := fun h => by
        have h1 := List.cons_prefix_cons.mp h
        exact absurd h1.1 (by decide)
      have hf : ¬ ['f', 'l', 'o', 'a', 't'] <+: typestr (.int i) ++
          ([',', ' ', 'v', 'a', 'l', 'i', 'd', ' ', 'r', 'a', 'n', 'g', 'e', ':', ' '] ++
            valueText t.min ++ [' ', 't', 'o', ' '] ++ valueText t.max) := fun h => by
        have h1 := List.cons_prefix_cons.mp h
        exact absurd h1.1 (by decide)
      by_cases hpoint : '.' ∈ r
      · rw [if_pos (.inr (.inr hpoint)), if_pos hpoint]
      · rw [if_neg (not_or.mpr ⟨hd, not_or.mpr ⟨hf, hpoint⟩⟩), if_neg hpoint]

/-- A fraction, and what is read behind it. -/
theorem stringToDouble_eq {r u u' : List Char} {x : ℤ} (h : readDecimal r = some (q, u))
    (he : readExponent u = (x, u')) :
    stringToDouble r = if u' = [] then some (q * 10 ^ x) else none := by
  simp [stringToDouble, h, he]

theorem stringToDouble_formatE (h : Significant 25 q) : stringToDouble (formatE 25 q) = some q := by
  obtain ⟨v, hdec, hformat⟩ := formatE_eq h
  have hread := hdec.reads (exponentText (exponent q))
    (by simpa using exponentText_ends (exponent q) [])
  have hexp := readExponent_text (exponent q) (t := []) fun c hc => (nomatch hc)
  rw [List.append_nil] at hexp
  have hpos : (10 : ℚ) ^ exponent q ≠ 0 := zpow_ne_zero _ (by norm_num)
  rw [hformat, stringToDouble_eq hread hexp, if_pos rfl, div_mul_cancel₀ q hpos]

theorem stringToDouble_formatG (h : Significant 34 q) : stringToDouble (formatG 34 q) = some q := by
  obtain ⟨v, hdec, hformat⟩ := formatG_eq h
  by_cases hp : PbDecimal.Plain 34 q
  · rw [if_pos hp] at hdec hformat
    have hread := hdec.reads [] ⟨fun c hc => (nomatch hc), fun c hc => (nomatch hc)⟩
    rw [stringToDouble, hformat, hread]
    simp [readExponent]
  · rw [if_neg hp] at hdec hformat
    have hread := hdec.reads (exponentText (exponent q))
      (by simpa using exponentText_ends (exponent q) [])
    have hexp := readExponent_text (exponent q) (t := []) fun c hc => (nomatch hc)
    rw [List.append_nil] at hexp
    have hpos : (10 : ℚ) ^ exponent q ≠ 0 := zpow_ne_zero _ (by norm_num)
    rw [hformat, stringToDouble_eq hread hexp, if_pos rfl, div_mul_cancel₀ q hpos]

theorem stringToInt_intText (h : -2 ^ 31 ≤ i ∧ i < 2 ^ 31) : stringToInt (intText i) = some i := by
  have hread := readInt_intText i (t := []) fun c hc => (nomatch hc)
  rw [List.append_nil] at hread
  rw [stringToInt, hread]
  show (if ([] : List Char) = [] then some _ else none) = _
  rw [if_pos rfl]
  congr 1
  omega

theorem number_not_sharp {t : List Char} (h : ∀ c ∈ t, NumberChar c) : '#' ∉ t :=
  fun hmem => (h _ hmem).ne (by decide) (by decide) rfl

theorem intText_not_point (i : ℤ) : '.' ∉ intText i := fun h => by
  rcases intText_chars i _ h with h | h <;> revert h <;> decide

/-- **THE PROGRAM READS ITS OWN LINE.** -/
theorem loadLine_saveLine (ht : t.Typed) (hname : IsIdentifier t.name) :
    loadLine (saveLine t) = some (some (t.name, t.value)) := by
  have hline := loadLine_eq (b := [' ', ' ', ' ', ' ', ' ']) hname
    (tight_number number_not_ws (valueText_number t.value)) (valueText_ne_nil _)
    (number_not_sharp (valueText_number t.value)) (List.all_iff_forall_prop.mp (by decide))
  rw [saveLine, hline]
  cases hv : t.value with
  | double q =>
      have hread := stringToDouble_formatG ((ht.significant hv).mono (show 25 ≤ 34 by decide))
      show (stringToDouble (formatG 34 q)).map _ = _
      rw [hread]
      rfl
  | int i =>
      show (if '.' ∈ intText i then _ else (stringToInt (intText i)).map _) = _
      rw [if_neg (intText_not_point i), stringToInt_intText (ht.int hv).1]
      rfl

/-- **THE PROGRAM READS A LINE OF THE TUNER**, if no exponent has joined the comment. -/
theorem loadLine_configSaveLine (ht : t.Typed) (hname : IsIdentifier t.name)
    (hj : j = 0 ∨ ∃ i, t.value = .int i) :
    loadLine (configSaveLine (entry j t)) = some (some (t.name, t.value)) := by
  have hcom : com j t = comment t := by
    rcases hj with rfl | ⟨i, hi⟩
    · exact com_zero t
    · exact com_int hi
  cases hv : t.value with
  | double q =>
      have hline := loadLine_eq (b := [' ']) hname
        (tight_number number_not_ws (formatE_number 25 q))
        (by
          obtain ⟨v, hdec, hformat⟩ := formatE_eq (ht.significant hv)
          rw [hformat]
          exact fun h => hdec.ne_nil (List.append_eq_nil_iff.mp h).1)
        (number_not_sharp (formatE_number 25 q)) (List.all_iff_forall_prop.mp (by decide))
      have htext : configSaveLine (entry j t) =
          t.name ++ [' ', '=', ' '] ++ formatE 25 q ++ [' '] ++ comment t := by
        simp [configSaveLine, entry, hv, hcom]
      rw [htext, hline, hv, stringToDouble_formatE (ht.significant hv)]
      rfl
  | int i =>
      have hnum : ∀ c ∈ intText i, NumberChar c := valueText_number (.int i)
      have hline := loadLine_eq (b := [' ']) hname (tight_number number_not_ws hnum)
        (intText_ne_nil i) (number_not_sharp hnum) (List.all_iff_forall_prop.mp (by decide))
      have htext : configSaveLine (entry j t) =
          t.name ++ [' ', '=', ' '] ++ intText i ++ [' '] ++ comment t := by
        simp [configSaveLine, entry, hv, hcom]
      rw [htext, hline, hv]
      show (if '.' ∈ intText i then _ else (stringToInt (intText i)).map _) = _
      rw [if_neg (intText_not_point i), stringToInt_intText (ht.int hv).1]
      rfl

/-- **AN EXPONENT IN THE COMMENT** stands behind the new one, and the conversion fails. -/
theorem loadLine_spoiled (ht : t.Typed) (hname : IsIdentifier t.name) (hv : t.value = .double q)
    (j : ℕ) : loadLine (configSaveLine (entry (j + 1) t)) = none := by
  have hspoils : spoils (j + 1) t = spoils j t ++ exponentText (exponent q) ++ [' '] := by
    simp [spoils, hv, List.replicate_succ']
  obtain ⟨v, hdec, hformat⟩ := formatE_eq (ht.significant hv)
  have hEne : formatE 25 q ≠ [] := by
    rw [hformat]
    exact fun h => hdec.ne_nil (List.append_eq_nil_iff.mp h).1
  have hspoil_sharp : '#' ∉ spoils j t := by
    intro h
    simp only [spoils, hv, List.mem_flatten, List.mem_replicate] at h
    obtain ⟨l, ⟨_, rfl⟩, hl⟩ := h
    rcases List.mem_append.mp hl with hl | hl
    · exact number_not_sharp (exponent_number _) hl
    · revert hl
      decide
  have htight := (tight_number number_not_ws (formatE_number 25 q)).append (t := ' ' :: spoils j t)
    (tight_number number_not_ws (exponent_number (exponent q))) hEne (by simp [exponentText])
  have hline := loadLine_eq (b := [' ']) hname htight (by simp [hEne]) (by
      simp only [List.mem_append, List.mem_cons, not_or]
      exact ⟨⟨number_not_sharp (formatE_number 25 q), by decide, hspoil_sharp⟩,
        number_not_sharp (exponent_number _)⟩) (List.all_iff_forall_prop.mp (by decide))
  have htext : configSaveLine (entry (j + 1) t) = t.name ++ [' ', '=', ' '] ++
      (formatE 25 q ++ ' ' :: spoils j t ++ exponentText (exponent q)) ++ [' '] ++ comment t := by
    simp [configSaveLine, entry, hv, com, hspoils]
  have hread := hdec.reads (exponentText (exponent q) ++
    (' ' :: spoils j t ++ exponentText (exponent q))) (exponentText_ends _ _)
  have hexp := readExponent_text (exponent q)
    (t := ' ' :: spoils j t ++ exponentText (exponent q)) fun c hc => by cases hc; rfl
  have hfail : stringToDouble (formatE 25 q ++ ' ' :: spoils j t ++ exponentText (exponent q)) =
      none := by
    rw [hformat, List.append_assoc, List.append_assoc, stringToDouble_eq hread hexp]
    exact if_neg (by simp)
  rw [htext, hline, hv, hfail]
  rfl

end PbConfigFile
