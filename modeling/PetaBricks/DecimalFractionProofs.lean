import Mathlib.Algebra.Order.Round
import Mathlib.Data.Int.Log
import Mathlib.Data.List.TakeWhile
import Mathlib.Data.Rat.Floor
import Mathlib.Tactic.FieldSimp
import Mathlib.Tactic.Ring
import PetaBricks.DecimalProofs

/-! # Decimal fractions — numbers as `printf` prints them

    `formatE` and `formatG` are `%.<p>e` and `%.<p>g`: a sign, a decimal fraction and, in the
    first always, an exponent.  `readDecimal` reads the sign and the fraction and stops in
    front of the exponent, `readExponent` goes on.  A number with few enough digits is printed
    exactly, and what is read is the number, or the number without its exponent. -/

namespace PbDecimal

/-! ## Fractions -/

/-- The number with so many digits, with zeros in front. -/
def padded : ℕ → ℕ → List Char
  | 0, _ => []
  | k + 1, r => padded k (r / 10) ++ [digitChar (r % 10)]

/-- The zeros at the end are cut off. -/
def stripZeros (ds : List Char) : List Char := (ds.reverse.dropWhile (· == '0')).reverse

/-- The number with so many decimals; there is no point without decimals. -/
def fixedText (strip : Bool) (k n : ℕ) : List Char :=
  let ds := padded k (n % 10 ^ k)
  let ds := if strip then stripZeros ds else ds
  digitsText (n / 10 ^ k) ++ if ds = [] then [] else '.' :: ds

/-- Digits, and digits behind a point, as far as there are any. -/
def readUnsigned (t : List Char) : Option (ℚ × List Char) :=
  let whole := t.takeWhile Char.isDigit
  match t.dropWhile Char.isDigit with
  | '.' :: t =>
      let frac := t.takeWhile Char.isDigit
      if whole = [] ∧ frac = [] then none
      else some (ofDigits (whole ++ frac) / 10 ^ frac.length, t.dropWhile Char.isDigit)
  | t => if whole = [] then none else some (ofDigits whole, t)

/-- Behind a number there is no digit and no point. -/
def Ends (t : List Char) : Prop := NoDigit t ∧ ∀ c ∈ t.head?, c ≠ '.'

theorem ofDigits_append (a b : List Char) :
    ofDigits (a ++ b) = ofDigits a * 10 ^ b.length + ofDigits b := by
  have hfold : ∀ (b : List Char) (n : ℕ),
      b.foldl (fun a c => 10 * a + digitVal c) n = n * 10 ^ b.length + ofDigits b := by
    intro b
    induction b with
    | nil => intro n; simp [ofDigits]
    | cons c b ih =>
        intro n
        rw [ofDigits, List.foldl_cons, List.foldl_cons, ih, ih (10 * 0 + digitVal c),
          List.length_cons]
        ring
  rw [ofDigits, List.foldl_append]
  exact hfold b _

theorem length_padded (k r : ℕ) : (padded k r).length = k := by
  induction k generalizing r with
  | zero => rfl
  | succ k ih => simp [padded, ih]

theorem padded_isDigit (k r : ℕ) : ∀ c ∈ padded k r, c.isDigit = true := by
  induction k generalizing r with
  | zero => intro c hc; cases hc
  | succ k ih =>
      intro c hc
      rcases List.mem_append.mp hc with hrest | hlast
      · exact ih _ c hrest
      · rw [List.mem_singleton.mp hlast]
        exact isDigit_digitChar (by omega)

theorem ofDigits_padded {k r : ℕ} (h : r < 10 ^ k) : ofDigits (padded k r) = r := by
  induction k generalizing r with
  | zero =>
      have hr : r = 0 := by simpa using h
      rw [hr]
      rfl
  | succ k ih =>
      have hdiv : r / 10 < 10 ^ k := Nat.div_lt_of_lt_mul (by rwa [pow_succ'] at h)
      rw [padded, ofDigits_append, ih hdiv]
      show r / 10 * 10 ^ 1 + (10 * 0 + digitVal (digitChar (r % 10))) = r
      rw [digitVal_digitChar (by omega)]
      omega

theorem ofDigits_zeros (j : ℕ) : ofDigits (List.replicate j '0') = 0 := by
  induction j with
  | zero => rfl
  | succ j ih =>
      rw [List.replicate_succ', ofDigits_append, ih]
      rfl

/-- What is cut off are zeros. -/
theorem stripZeros_append (ds : List Char) : ∃ j, ds = stripZeros ds ++ List.replicate j '0' := by
  have hsplit := List.takeWhile_append_dropWhile (p := (· == '0')) (l := ds.reverse)
  have hzeros : ds.reverse.takeWhile (· == '0') =
      List.replicate (ds.reverse.takeWhile (· == '0')).length '0' :=
    List.eq_replicate_of_mem fun c hc => by simpa using List.mem_takeWhile_imp hc
  refine ⟨(ds.reverse.takeWhile (· == '0')).length, ?_⟩
  rw [← List.reverse_inj, stripZeros, List.reverse_append, List.reverse_reverse,
    List.reverse_replicate, ← hzeros, hsplit]

/-- The decimals that are printed, and the zeros that are not. -/
theorem fixedText_eq (strip : Bool) (k n : ℕ) :
    ∃ ds j, padded k (n % 10 ^ k) = ds ++ List.replicate j '0' ∧
      fixedText strip k n = digitsText (n / 10 ^ k) ++ if ds = [] then [] else '.' :: ds := by
  cases strip with
  | true =>
      obtain ⟨j, hj⟩ := stripZeros_append (padded k (n % 10 ^ k))
      exact ⟨_, j, hj, rfl⟩
  | false => exact ⟨_, 0, (List.append_nil _).symm, rfl⟩

/-- **A FRACTION IS READ BACK**, whether the zeros at its end are cut off or not. -/
theorem readUnsigned_fixedText (strip : Bool) (k n : ℕ) {t : List Char} (ht : Ends t) :
    readUnsigned (fixedText strip k n ++ t) = some ((n : ℚ) / 10 ^ k, t) := by
  have hr : n % 10 ^ k < 10 ^ k := Nat.mod_lt _ (by positivity)
  have hwhole := digitsText_isDigit (n / 10 ^ k)
  obtain ⟨ds, j, hds, htext⟩ := fixedText_eq strip k n
  have hk : k = ds.length + j := by
    rw [← length_padded k (n % 10 ^ k), hds]
    simp
  have hdigits : ∀ c ∈ ds, c.isDigit = true := fun c hc =>
    padded_isDigit k (n % 10 ^ k) c (hds ▸ List.mem_append_left _ hc)
  have hn : n = ofDigits (digitsText (n / 10 ^ k) ++ ds) * 10 ^ j := by
    have hpad := ofDigits_padded hr
    rw [hds, ofDigits_append, ofDigits_zeros, List.length_replicate, Nat.add_zero] at hpad
    rw [ofDigits_append, ofDigits_digitsText, Nat.add_mul, hpad, Nat.mul_assoc, ← pow_add, ← hk]
    exact (Nat.div_add_mod' n (10 ^ k)).symm
  have hvalue : (ofDigits (digitsText (n / 10 ^ k) ++ ds) : ℚ) / 10 ^ ds.length = n / 10 ^ k := by
    generalize ofDigits (digitsText (n / 10 ^ k) ++ ds) = m at hn
    rw [hn, hk, pow_add]
    push_cast
    field_simp
  rw [htext]
  by_cases hnil : ds = []
  · rw [if_pos hnil, List.append_nil, readUnsigned, takeWhile_digits hwhole ht.1,
      dropWhile_digits hwhole ht.1]
    rw [hnil, List.append_nil, List.length_nil, pow_zero, div_one] at hvalue
    cases t with
    | nil =>
        rw [ofDigits_digitsText] at hvalue
        simp [digitsText_ne_nil, hvalue]
    | cons c t =>
        have hc : c ≠ '.' := ht.2 c rfl
        split
        · rename_i heq
          injection heq with h1 _
          exact absurd h1 hc
        · rw [if_neg (digitsText_ne_nil _), hvalue]
  · have hpoint : NoDigit ('.' :: ds ++ t) := fun c hc => by cases hc; rfl
    rw [if_neg hnil, List.append_assoc, readUnsigned, takeWhile_digits hwhole hpoint,
      dropWhile_digits hwhole hpoint, List.cons_append]
    simp only [takeWhile_digits hdigits ht.1, dropWhile_digits hdigits ht.1]
    rw [if_neg fun h => hnil h.2, hvalue]

/-- A fraction is digits, or digits with a point and at least one more behind it. -/
theorem fixedText_cases (strip : Bool) (k n : ℕ) :
    ∃ a b, (∀ c ∈ a, c.isDigit = true) ∧ a ≠ [] ∧ (∀ c ∈ b, c.isDigit = true) ∧
      fixedText strip k n = a ++ (if b = [] then [] else '.' :: b) ∧
      (ofDigits (a ++ b) : ℚ) / 10 ^ b.length = n / 10 ^ k := by
  obtain ⟨ds, j, hds, htext⟩ := fixedText_eq strip k n
  have hwhole := digitsText_isDigit (n / 10 ^ k)
  have hdigits : ∀ c ∈ ds, c.isDigit = true := fun c hc =>
    padded_isDigit k (n % 10 ^ k) c (hds ▸ List.mem_append_left _ hc)
  refine ⟨_, ds, hwhole, digitsText_ne_nil _, hdigits, htext, ?_⟩
  have hend : NoDigit [] := fun _ hc => (nomatch hc)
  have hread := readUnsigned_fixedText strip k n (t := []) ⟨hend, fun _ hc => (nomatch hc)⟩
  rw [htext, List.append_nil] at hread
  by_cases hnil : ds = []
  · rw [if_pos hnil, List.append_nil, readUnsigned, ← List.append_nil (digitsText _),
      takeWhile_digits hwhole hend, dropWhile_digits hwhole hend] at hread
    simp only [if_neg (digitsText_ne_nil _), Option.some.injEq, Prod.mk.injEq] at hread
    rw [hnil, List.append_nil, List.length_nil, pow_zero, div_one, hread.1]
  · have hpoint : NoDigit ('.' :: ds) := fun c hc => by cases hc; rfl
    rw [if_neg hnil, readUnsigned, takeWhile_digits hwhole hpoint,
      dropWhile_digits hwhole hpoint] at hread
    have htake := takeWhile_digits hdigits hend
    rw [List.append_nil] at htake
    simp only [htake, if_neg fun h : digitsText (n / 10 ^ k) = [] ∧ ds = [] => hnil h.2,
      Option.some.injEq, Prod.mk.injEq] at hread
    exact hread.1

/-! ## Exponents -/

/-- The exponent of the first digit, and zero for zero. -/
def exponent (q : ℚ) : ℤ := Int.log 10 |q|

/-- The first `p + 1` digits of a number as one number, and its exponent. -/
def scientific (p : ℕ) (q : ℚ) : ℕ × ℤ :=
  let x := exponent q
  let n := (round (|q| * 10 ^ (p - x))).toNat
  if n = 10 ^ (p + 1) then (10 ^ p, x + 1) else (n, x)

/-- A sign, and two digits or more. -/
def exponentText (x : ℤ) : List Char :=
  'e' :: (if x < 0 then '-' else '+') ::
    if x.natAbs < 10 then '0' :: digitsText x.natAbs else digitsText x.natAbs

def signText (q : ℚ) : List Char := if q < 0 then ['-'] else []

/-- `%.<p>e`. -/
def formatE (p : ℕ) (q : ℚ) : List Char :=
  let (n, x) := scientific p q
  signText q ++ fixedText false p n ++ exponentText x

/-- `%.<p+1>g`: an exponent only if it is below -4 or there are not enough digits. -/
def formatG (p : ℕ) (q : ℚ) : List Char :=
  let (n, x) := scientific p q
  if -4 ≤ x ∧ x ≤ p then signText q ++ fixedText true (p - x).toNat n
  else signText q ++ fixedText true p n ++ exponentText x

/-- A sign and a fraction. -/
def readDecimal (t : List Char) : Option (ℚ × List Char) :=
  match t with
  | '-' :: t => (readUnsigned t).map fun r => (-r.1, r.2)
  | t => readUnsigned t

/-- An exponent, if there is one with a digit. -/
def readExponent (t : List Char) : ℤ × List Char :=
  match t with
  | c :: t' =>
      if c = 'e' ∨ c = 'E' then
        let (negative, t'') := match t' with
          | '-' :: t => (true, t)
          | '+' :: t => (false, t)
          | t => (false, t)
        let ds := t''.takeWhile Char.isDigit
        if ds = [] then (0, t)
        else (if negative then -ofDigits ds else ofDigits ds, t''.dropWhile Char.isDigit)
      else (0, t)
  | [] => (0, t)

/-- The number has no more than `p + 1` digits. -/
def Significant (p : ℕ) (q : ℚ) : Prop := ∃ n : ℕ, |q| * 10 ^ (p - exponent q) = n

theorem exponent_bounds {q : ℚ} (h : q ≠ 0) :
    (10 : ℚ) ^ exponent q ≤ |q| ∧ |q| < 10 ^ (exponent q + 1) := by
  have hpos : 0 < |q| := abs_pos.mpr h
  have hlo := Int.zpow_log_le_self (b := 10) (by norm_num) hpos
  have hhi := Int.lt_zpow_succ_log_self (b := 10) (by norm_num) |q|
  exact ⟨by exact_mod_cast hlo, by exact_mod_cast hhi⟩

theorem exponent_zero : exponent 0 = 0 := by
  rw [exponent, abs_zero, Int.log_zero_right]

theorem Significant.mono {p r : ℕ} {q : ℚ} (h : Significant p q) (hpr : p ≤ r) :
    Significant r q := by
  obtain ⟨n, hn⟩ := h
  obtain ⟨d, rfl⟩ := Nat.exists_eq_add_of_le hpr
  refine ⟨n * 10 ^ d, ?_⟩
  have hsplit : ((p + d : ℕ) : ℤ) - exponent q = (p - exponent q) + d := by push_cast; ring
  rw [hsplit, zpow_add₀ (by norm_num), ← mul_assoc, hn, zpow_natCast]
  push_cast
  rfl

/-- The digits of a number that has no more of them. -/
theorem scientific_exact {p : ℕ} {q : ℚ} (h : Significant p q) :
    ∃ n : ℕ, scientific p q = (n, exponent q) ∧ (n : ℚ) / 10 ^ p = |q| / 10 ^ exponent q := by
  obtain ⟨n, hn⟩ := h
  have hround : (round (|q| * 10 ^ ((p : ℤ) - exponent q))).toNat = n := by
    rw [hn, round_natCast, Int.toNat_natCast]
  have hvalue : (n : ℚ) / 10 ^ p = |q| / 10 ^ exponent q := by
    rw [← hn, zpow_sub₀ (by norm_num), zpow_natCast]
    field_simp
  refine ⟨n, ?_, hvalue⟩
  have hlt : n ≠ 10 ^ (p + 1) := by
    by_cases hq : q = 0
    · rw [hq, abs_zero, zero_mul] at hn
      have hzero : n = 0 := by exact_mod_cast hn.symm
      rw [hzero]
      positivity
    · intro heq
      have hbound := (exponent_bounds hq).2
      have hmul : |q| * 10 ^ ((p : ℤ) - exponent q) <
          10 ^ (exponent q + 1) * 10 ^ ((p : ℤ) - exponent q) :=
        mul_lt_mul_of_pos_right hbound (zpow_pos (by norm_num) _)
      have hpow : (10 : ℚ) ^ (exponent q + 1) * 10 ^ ((p : ℤ) - exponent q) = 10 ^ (p + 1) := by
        rw [← zpow_add₀ (by norm_num), ← zpow_natCast]
        congr 1
        push_cast
        ring
      rw [hn, hpow, heq] at hmul
      push_cast at hmul
      exact lt_irrefl _ hmul
  simp only [scientific, hround, if_neg hlt]

theorem exponentText_ends (x : ℤ) (t : List Char) : Ends (exponentText x ++ t) :=
  ⟨fun c hc => by cases hc; rfl, fun c hc => by cases hc; decide⟩

/-- An exponent is read back. -/
theorem readExponent_text (x : ℤ) {t : List Char} (ht : NoDigit t) :
    readExponent (exponentText x ++ t) = (x, t) := by
  obtain ⟨ds, hds, hall, hne, hval⟩ : ∃ ds, exponentText x =
      'e' :: (if x < 0 then '-' else '+') :: ds ∧ (∀ c ∈ ds, c.isDigit = true) ∧ ds ≠ [] ∧
      ofDigits ds = x.natAbs := by
    have hdigits := digitsText_isDigit x.natAbs
    by_cases hsmall : x.natAbs < 10
    · refine ⟨'0' :: digitsText x.natAbs, by rw [exponentText, if_pos hsmall], ?_, by simp, ?_⟩
      · intro c hc
        rcases List.mem_cons.mp hc with rfl | hc
        · rfl
        · exact hdigits c hc
      · rw [← List.singleton_append, ofDigits_append, ofDigits_digitsText,
          show ofDigits ['0'] = 0 from rfl]
        omega
    · exact ⟨digitsText x.natAbs, by rw [exponentText, if_neg hsmall], hdigits,
        digitsText_ne_nil _, ofDigits_digitsText _⟩
  have htake := takeWhile_digits hall ht
  have hdrop := dropWhile_digits hall ht
  rw [hds]
  by_cases hx : x < 0
  · simp only [hx, if_true, List.cons_append, readExponent, true_or, htake, hdrop, if_neg hne, hval]
    rw [show -((x.natAbs : ℕ) : ℤ) = x by omega]
  · simp only [hx, if_false, List.cons_append, readExponent, true_or, if_true, htake, hdrop,
      if_neg hne, hval]
    rw [show ((x.natAbs : ℕ) : ℤ) = x by omega]
    rfl

/-- A fraction starts with a digit. -/
theorem fixedText_eq_cons (strip : Bool) (k n : ℕ) :
    ∃ d ds, fixedText strip k n = d :: ds ∧ d.isDigit = true := by
  obtain ⟨d, ds, hds, hd⟩ := digitsText_eq_cons (n / 10 ^ k)
  exact ⟨d, _, by rw [fixedText, hds]; rfl, hd⟩

/-- A text of digits, a point and a sign that is read as this number. -/
structure DecimalText (v : List Char) (x : ℚ) : Prop where
  ne_nil : v ≠ []
  chars : ∀ c ∈ v, c.isDigit = true ∨ c = '.' ∨ c = '-'
  reads : ∀ t, Ends t → readDecimal (v ++ t) = some (x, t)

theorem fixedText_chars (strip : Bool) (k n : ℕ) :
    ∀ c ∈ fixedText strip k n, c.isDigit = true ∨ c = '.' := by
  intro c hc
  obtain ⟨ds, j, hds, htext⟩ := fixedText_eq strip k n
  rw [htext] at hc
  rcases List.mem_append.mp hc with hwhole | hrest
  · exact .inl (digitsText_isDigit _ c hwhole)
  · split at hrest
    · cases hrest
    · rcases List.mem_cons.mp hrest with hpoint | hc
      · exact .inr hpoint
      · exact .inl (padded_isDigit k (n % 10 ^ k) c (hds ▸ List.mem_append_left _ hc))

theorem signText_chars (q : ℚ) : ∀ c ∈ signText q, c = '-' := by
  intro c hc
  rw [signText] at hc
  split at hc
  · exact List.mem_singleton.mp hc
  · cases hc

theorem decimalText_fixed (q : ℚ) (strip : Bool) (k n : ℕ) {v : ℚ} (hv : (n : ℚ) / 10 ^ k = |v|)
    (hq : q < 0 ↔ v < 0) : DecimalText (signText q ++ fixedText strip k n) v := by
  obtain ⟨d, ds, hds, hd⟩ := fixedText_eq_cons strip k n
  refine ⟨by rw [hds]; simp, fun c hc => ?_, fun t ht => ?_⟩
  · rcases List.mem_append.mp hc with hsign | hfix
    · exact .inr (.inr (signText_chars q c hsign))
    · exact (fixedText_chars strip k n c hfix).imp id .inl
  · have hread := readUnsigned_fixedText strip k n ht
    rw [hv] at hread
    by_cases hneg : q < 0
    · have habs : |v| = -v := abs_of_neg (hq.mp hneg)
      rw [signText, if_pos hneg]
      show (readUnsigned (fixedText strip k n ++ t)).map _ = _
      rw [hread, habs, Option.map_some, neg_neg]
    · have habs : |v| = v := abs_of_nonneg (not_lt.mp fun h => hneg (hq.mpr h))
      rw [signText, if_neg hneg, List.nil_append, ← habs, ← hread, hds, List.cons_append,
        readDecimal]
      intro t' heq
      injection heq with h1 _
      rw [h1] at hd
      cases hd

/-- A number without its exponent has the same sign. -/
theorem div_exponent_neg (q : ℚ) : q < 0 ↔ q / 10 ^ exponent q < 0 := by
  have hpos : (0 : ℚ) < 10 ^ exponent q := zpow_pos (by norm_num) _
  constructor
  · exact fun hq => div_neg_of_neg_of_pos hq hpos
  · intro h
    by_contra hge
    exact absurd h (not_lt.mpr (div_nonneg (not_lt.mp hge) hpos.le))

/-- **WHAT `%e` PRINTS**: the number without its exponent, and the exponent. -/
theorem formatE_eq {p : ℕ} {q : ℚ} (h : Significant p q) :
    ∃ v, DecimalText v (q / 10 ^ exponent q) ∧ formatE p q = v ++ exponentText (exponent q) := by
  obtain ⟨n, hn, hvalue⟩ := scientific_exact h
  have hpos : (0 : ℚ) < 10 ^ exponent q := zpow_pos (by norm_num) _
  refine ⟨signText q ++ fixedText false p n, ?_, by rw [formatE, hn]⟩
  exact decimalText_fixed q false p n (by rw [hvalue, abs_div, abs_of_pos hpos]) (div_exponent_neg q)

/-- `%g` prints no exponent. -/
def Plain (p : ℕ) (q : ℚ) : Prop := -4 ≤ exponent q ∧ exponent q ≤ p

instance (p : ℕ) (q : ℚ) : Decidable (Plain p q) := by
  unfold Plain
  infer_instance

/-- **WHAT `%g` PRINTS**: the number, if it is plain, and otherwise as `%e`. -/
theorem formatG_eq {p : ℕ} {q : ℚ} (h : Significant p q) :
    ∃ v, DecimalText v (if Plain p q then q else q / 10 ^ exponent q) ∧
      formatG p q = v ++ if Plain p q then [] else exponentText (exponent q) := by
  obtain ⟨n, hn, hvalue⟩ := scientific_exact h
  have hpos : (0 : ℚ) < 10 ^ exponent q := zpow_pos (by norm_num) _
  have hformat : formatG p q =
      if Plain p q then signText q ++ fixedText true (p - exponent q).toNat n
      else signText q ++ fixedText true p n ++ exponentText (exponent q) := by
    rw [formatG, hn]
    rfl
  by_cases hplain : Plain p q
  · refine ⟨signText q ++ fixedText true (p - exponent q).toNat n, ?_, ?_⟩
    · rw [if_pos hplain]
      refine decimalText_fixed q true _ n ?_ Iff.rfl
      have hk : (((p - exponent q).toNat : ℕ) : ℤ) = p - exponent q :=
        Int.toNat_of_nonneg (by have := hplain.2; omega)
      have hpow : (10 : ℚ) ^ (p - exponent q).toNat = 10 ^ p / 10 ^ exponent q := by
        rw [← zpow_natCast, hk, zpow_sub₀ (by norm_num), zpow_natCast]
      rw [hpow, div_div_eq_mul_div, mul_comm, mul_div_assoc, hvalue]
      field_simp
    · rw [hformat, if_pos hplain, if_pos hplain, List.append_nil]
  · refine ⟨signText q ++ fixedText true p n, ?_, ?_⟩
    · rw [if_neg hplain]
      exact decimalText_fixed q true p n (by rw [hvalue, abs_div, abs_of_pos hpos])
        (div_exponent_neg q)
    · rw [hformat, if_neg hplain, if_neg hplain]

/-! ## Integers -/

def intText (i : ℤ) : List Char :=
  if i < 0 then '-' :: digitsText i.natAbs else digitsText i.natAbs

/-- A sign and digits. -/
def readInt (t : List Char) : Option (ℤ × List Char) :=
  let (negative, t) := match t with
    | '-' :: t => (true, t)
    | t => (false, t)
  let ds := t.takeWhile Char.isDigit
  if ds = [] then none
  else some (if negative then -ofDigits ds else ofDigits ds, t.dropWhile Char.isDigit)

theorem intText_chars (i : ℤ) : ∀ c ∈ intText i, c.isDigit = true ∨ c = '-' := by
  intro c hc
  rw [intText] at hc
  split at hc
  · rcases List.mem_cons.mp hc with hsign | hc
    · exact .inr hsign
    · exact .inl (digitsText_isDigit _ c hc)
  · exact .inl (digitsText_isDigit _ c hc)

theorem intText_ne_nil (i : ℤ) : intText i ≠ [] := by
  rw [intText]
  split
  · simp
  · exact digitsText_ne_nil _

/-- An integer is read back. -/
theorem readInt_intText (i : ℤ) {t : List Char} (ht : NoDigit t) :
    readInt (intText i ++ t) = some (i, t) := by
  have hall := digitsText_isDigit i.natAbs
  have htake := takeWhile_digits hall ht
  have hdrop := dropWhile_digits hall ht
  by_cases hi : i < 0
  · simp only [intText, if_pos hi, List.cons_append, readInt, htake, hdrop,
      if_neg (digitsText_ne_nil _), ofDigits_digitsText, if_true]
    rw [show -((i.natAbs : ℕ) : ℤ) = i by omega]
  · obtain ⟨d, ds, hds, hd⟩ := digitsText_eq_cons i.natAbs
    have hsign : (match digitsText i.natAbs ++ t with
        | '-' :: t => (true, t)
        | t => (false, t)) = (false, digitsText i.natAbs ++ t) := by
      rw [hds, List.cons_append]
      split
      · rename_i heq
        injection heq with h1 _
        rw [h1] at hd
        cases hd
      · rfl
    simp only [intText, if_neg hi, readInt, hsign, htake, hdrop, if_neg (digitsText_ne_nil _),
      ofDigits_digitsText]
    rw [show ((i.natAbs : ℕ) : ℤ) = i by omega]
    rfl

end PbDecimal
