import Mathlib.Algebra.BigOperators.Ring.List
import Mathlib.Algebra.Order.BigOperators.GroupWithZero.List
import Mathlib.Data.List.Infix
import Mathlib.Tactic.Ring
import Mathlib.Tactic.NormNum
import PetaBricks.MatrixFileModel

/-! # The round trip of matrix files

    Where a matrix has cells, both writers visit each of them once (`writeCells_spec`) and
    the scanner returns in front of the last break, which the next call skips.  Where it has
    none, the writer for `RegionMatrixWrapper` reads a cell all the same; the text of the
    other one is read, but the scanner does not return at its end and goes on with the next
    matrix (`lex_empty`), so that a sequence comes back short.  The end of the stream is
    where this is right. -/

namespace PbMatrixFile

open PbDecimal PbMixedRadix

/-! ## The cells in order -/

/-- Counting up goes to the next number; past the last one there is no tuple. -/
theorem incCoord_spec {ns xs : List Int} (h : Within ns xs) :
    match incCoord ns xs with
    | none => encode ns xs + 1 = ns.prod
    | some (_, ys) => Within ns ys ∧ encode ns ys = encode ns xs + 1 := by
  induction h with
  | nil => rfl
  | @cons n x ns xs hx hxs ih =>
      obtain ⟨hx0, hxn⟩ := hx
      rw [incCoord]
      by_cases hround : x + 1 ≥ n
      · have hn : n = x + 1 := by omega
        rw [if_pos hround]
        cases hrest : incCoord ns xs with
        | none =>
            rw [hrest] at ih
            show x + n * encode ns xs + 1 = (n :: ns).prod
            rw [List.prod_cons, ← ih, hn]
            ring
        | some r =>
            rw [hrest] at ih
            obtain ⟨hw, henc⟩ := ih
            refine ⟨.cons ⟨le_refl 0, by omega⟩ hw, ?_⟩
            show 0 + n * encode ns r.2 = x + n * encode ns xs + 1
            rw [henc, hn]
            ring
      · rw [if_neg hround]
        refine ⟨.cons ⟨by omega, by omega⟩ hxs, ?_⟩
        show x + 1 + n * encode ns xs = x + n * encode ns xs + 1
        ring

theorem within_zeros {ns : List Int} (h : ∀ n ∈ ns, 0 < n) :
    Within ns (List.replicate ns.length 0) ∧ encode ns (List.replicate ns.length 0) = 0 := by
  induction ns with
  | nil => exact ⟨.nil, rfl⟩
  | cons n ns ih =>
      obtain ⟨hw, henc⟩ := ih fun k hk => h k (List.mem_cons_of_mem _ hk)
      refine ⟨.cons ⟨le_refl 0, h n List.mem_cons_self⟩ hw, ?_⟩
      show 0 + n * encode ns (List.replicate ns.length 0) = 0
      rw [henc]
      ring

/-- Blanks and line breaks. -/
def Gap (t : List Char) : Prop := ∀ c ∈ t, c = ' ' ∨ c = '\n'

/-- Numbers, each with what stands behind it. -/
def fields (vs : List (Int × List Char)) : List Char := vs.flatMap fun v => field v.1 ++ v.2

/-- There is a gap behind each of the numbers. -/
def Spaced (vs : List (Int × List Char)) : Prop := ∀ v ∈ vs, v.2 ≠ [] ∧ Gap v.2

/-- These are the cells from a number on. -/
def CellsFrom (m : Matrix) (k : Int) (vs : List (Int × List Char)) : Prop :=
  k + vs.length = m.count ∧
    ∀ c, Within m.sizes c → ∀ i : Nat, encode m.sizes c = k + i → vs[i]?.map Prod.fst = some (m.cell c)

theorem CellsFrom.cons {m : Matrix} {c : List Int} {gap : List Char} {vs : List (Int × List Char)}
    (hc : Within m.sizes c) (h : CellsFrom m (encode m.sizes c + 1) vs) :
    CellsFrom m (encode m.sizes c) ((m.cell c, gap) :: vs) := by
  obtain ⟨hlen, hcells⟩ := h
  refine ⟨by rw [List.length_cons]; push_cast; omega, ?_⟩
  intro d hd i hi
  cases i with
  | zero =>
      have hcd : d = c := encode_inj hd hc (by simpa using hi)
      rw [hcd]
      rfl
  | succ i =>
      rw [List.getElem?_cons_succ]
      exact hcells d hd i (by push_cast at hi; omega)

theorem gap_lines (z : Nat) : Gap (' ' :: List.replicate z '\n') := by
  intro c hc
  rcases List.mem_cons.mp hc with hblank | hline
  · exact .inl hblank
  · exact .inr (List.eq_of_mem_replicate hline)

/-- **THE LOOP WRITES EVERY CELL** from the coordinates on, and no other is accessed. -/
theorem writeCells_spec (m : Matrix) {fuel : Nat} {c : List Int} (hc : Within m.sizes c)
    (hfuel : m.count < encode m.sizes c + fuel) :
    ∃ vs, writeCells m fuel c = some (fields vs) ∧ Spaced vs ∧
      CellsFrom m (encode m.sizes c) vs := by
  induction fuel generalizing c with
  | zero =>
      have hlt := (encode_bounds hc).2
      simp only [Matrix.count] at hfuel
      omega
  | succ fuel ih =>
      have hacc : m.access c = some (m.cell c) := if_pos hc
      have hnext := incCoord_spec hc
      cases hinc : incCoord m.sizes c with
      | none =>
          rw [hinc] at hnext
          refine ⟨[(m.cell c, [' '])], ?_, ?_, ?_⟩
          · simp [writeCells, hacc, hinc, fields]
          · intro v hv
            rw [List.mem_singleton.mp hv]
            exact ⟨by simp, gap_lines 0⟩
          · refine CellsFrom.cons hc ⟨?_, ?_⟩
            · rw [List.length_nil, Matrix.count, ← hnext]
              ring
            · intro d hd i hi
              have hlt := (encode_bounds hd).2
              have hend : encode m.sizes c + 1 = m.sizes.prod := hnext
              omega
      | some r =>
          obtain ⟨z, c'⟩ := r
          rw [hinc] at hnext
          obtain ⟨hc', henc⟩ := hnext
          obtain ⟨vs, htext, hgap, hvs⟩ := ih hc' (by rw [henc]; push_cast at hfuel; omega)
          refine ⟨(m.cell c, ' ' :: List.replicate z '\n') :: vs, ?_, ?_, ?_⟩
          · simp [writeCells, hacc, hinc, htext, fields]
          · intro v hv
            rcases List.mem_cons.mp hv with rfl | hv
            · exact ⟨by simp, gap_lines z⟩
            · exact hgap v hv
          · rw [henc] at hvs
            exact CellsFrom.cons hc hvs

/-- A matrix with cells has a positive size in every dimension. -/
theorem Matrix.sizes_pos {m : Matrix} (h : m.count ≠ 0) : ∀ n ∈ m.sizes, 0 < n := by
  intro n hn
  have hne : n ≠ 0 := by
    rintro rfl
    exact h (List.prod_eq_zero hn)
  have := m.nonneg n hn
  omega

theorem Matrix.count_nonneg (m : Matrix) : 0 ≤ m.count := List.prod_nonneg m.nonneg

theorem cellsFrom_nil {m : Matrix} (h : m.sizes = []) (gap : List Char) :
    CellsFrom m 0 [(m.cell [], gap)] := by
  refine ⟨by simp [Matrix.count, h], ?_⟩
  intro c hc i hi
  rw [h] at hc hi
  cases hc
  have hi0 : i = 0 := by
    rw [encode] at hi
    omega
  rw [hi0]
  rfl

/-- What stands behind the header of a matrix with cells. -/
theorem body_spec {m : Matrix} (h : m.count ≠ 0) :
    ∃ vs gap, body m = some (fields vs ++ gap) ∧ Spaced vs ∧ Gap gap ∧ CellsFrom m 0 vs := by
  by_cases hdim : m.sizes.length > 0
  · obtain ⟨hw, henc⟩ := within_zeros (m.sizes_pos h)
    have hfuel : m.count < encode m.sizes (List.replicate m.sizes.length 0) +
        ((m.count.toNat + 1 : Nat) : Int) := by
      have := m.count_nonneg
      rw [henc]
      omega
    obtain ⟨vs, htext, hgap, hvs⟩ := writeCells_spec m hw hfuel
    refine ⟨vs, ['\n', '\n'], ?_, hgap, ?_, by rwa [henc] at hvs⟩
    · rw [body, if_pos hdim, htext]
      rfl
    · intro c hc
      simp at hc
      exact .inr hc
  · have hnil : m.sizes = [] := List.length_eq_zero_iff.mp (by omega)
    refine ⟨[(m.cell [], ['\n'])], [], ?_, ?_, by simp [Gap], cellsFrom_nil hnil _⟩
    · have hacc : m.access [] = some (m.cell []) := if_pos (by rw [hnil]; exact .nil)
      rw [body, if_neg hdim, hacc]
      simp [fields]
    · intro v hv
      rw [List.mem_singleton.mp hv]
      simp [Gap]

/-- A cell of a matrix without cells is accessed. -/
theorem body_empty {m : Matrix} (h : m.count = 0) : body m = none := by
  have hdim : m.sizes.length > 0 := by
    rw [gt_iff_lt, List.length_pos_iff]
    intro hnil
    rw [Matrix.count, hnil] at h
    cases h
  have hacc : m.access (List.replicate m.sizes.length 0) = none := by
    refine if_neg fun hw => ?_
    have hbounds := encode_bounds (show Within m.sizes _ from hw)
    rw [Matrix.count] at h
    omega
  rw [body, if_pos hdim, writeCells, hacc]
  rfl

/-! ## The scanner -/

variable {o : Scratch} {s : Start} {c : Char} {t : List Char}

theorem lex_goes {o' : Scratch} {s' : Start} {rest : List Char}
    (h : step o s c t = some (false, o', s', rest)) :
    matrixreaderlex o s (c :: t) = matrixreaderlex o' s' rest := by
  rw [matrixreaderlex]
  split
  · rename_i h'
    rw [h] at h'
    cases h'
  · rename_i h'
    rw [h] at h'
    cases h'
  · rename_i h'
    rw [h] at h'
    cases h'
    rfl

theorem lex_returns {r : Scratch × Start × List Char} (h : step o s c t = some (true, r)) :
    matrixreaderlex o s (c :: t) = some r := by
  rw [matrixreaderlex]
  split
  · rename_i h'
    rw [h] at h'
    cases h'
  · rename_i h'
    rw [h] at h'
    cases h'
    rfl
  · rename_i h'
    rw [h] at h'
    cases h'

theorem lex_fails (h : step o s c t = none) : matrixreaderlex o s (c :: t) = none := by
  rw [matrixreaderlex]
  split
  · rfl
  · rename_i h'
    rw [h] at h'
    cases h'
  · rename_i h'
    rw [h] at h'
    cases h'

@[simp] theorem lex_end : matrixreaderlex o s [] = some (o, s, []) := by
  rw [matrixreaderlex]

/-- Blanks and line breaks count nowhere but behind the sizes. -/
theorem lex_gap (hs : s ≠ .size) {gap : List Char} (h : Gap gap) :
    matrixreaderlex o s (gap ++ t) = matrixreaderlex o s t := by
  induction gap with
  | nil => rfl
  | cons c gap ih =>
      have hskip : step o s c (gap ++ t) = some (false, o, s, gap ++ t) := by
        cases s with
        | size => exact absurd rfl hs
        | initial | data => rcases h c List.mem_cons_self with rfl | rfl <;> rfl
      rw [List.cons_append, lex_goes hskip, ih fun d hd => h d (List.mem_cons_of_mem _ hd)]

/-! ### The header -/

theorem stringToInt_digits {n : Nat} (h : n < 2 ^ 31) : stringToInt (digitsText n) = n := by
  rw [stringToInt, ofDigits_digitsText]
  omega

theorem number_of_nonneg {n : Int} (h : 0 ≤ n) : number n = digitsText n.natAbs :=
  if_neg (by omega)

/-- A size, where there is room for another dimension. -/
theorem lex_size {sz : List Int} {n : Int} (h0 : 0 ≤ n) (hlt : n < 2 ^ 31) (ht : NoDigit t) :
    matrixreaderlex { o with sizes := some sz } .size (' ' :: number n ++ t) =
      if sz.length + 1 < maxDimensions then
        matrixreaderlex { o with sizes := some (sz ++ [n]) } .size t
      else none := by
  obtain ⟨d, ds, hds, hd⟩ := digitsText_eq_cons n.natAbs
  have hall := digitsText_isDigit n.natAbs
  have htake := takeWhile_digits hall ht
  have hdrop := dropWhile_digits hall ht
  have hn : stringToInt (digitsText n.natAbs) = n := by
    rw [stringToInt_digits (by omega)]
    omega
  have hblank : step { o with sizes := some sz } .size ' ' (number n ++ t) =
      some (false, { o with sizes := some sz }, .size, number n ++ t) := rfl
  rw [List.cons_append, lex_goes hblank, number_of_nonneg h0]
  rw [hds] at htake hdrop hn ⊢
  have hskip : (isBlank d || decide (d = 'x') || decide (d = 'X')) = false := by
    rw [Bool.or_eq_false_iff, Bool.or_eq_false_iff, isBlank]
    refine ⟨⟨?_, ?_⟩, ?_⟩
    · rw [Bool.or_eq_false_iff, Bool.or_eq_false_iff]
      refine ⟨⟨?_, ?_⟩, ?_⟩ <;> rw [decide_eq_false_iff_not] <;> rintro rfl <;> cases hd
    · rw [decide_eq_false_iff_not]
      rintro rfl
      cases hd
    · rw [decide_eq_false_iff_not]
      rintro rfl
      cases hd
  by_cases hroom : sz.length + 1 < maxDimensions
  · rw [if_pos hroom, List.cons_append, lex_goes]
    rw [step, if_neg (by rw [hskip]; exact Bool.false_ne_true), if_pos hd, ← List.cons_append,
      htake, hdrop, hn]
    exact if_pos hroom
  · rw [if_neg hroom, List.cons_append, lex_fails]
    rw [step, if_neg (by rw [hskip]; exact Bool.false_ne_true), if_pos hd]
    exact if_neg hroom

theorem lex_sizes {sz ns : List Int} (h0 : ∀ n ∈ ns, 0 ≤ n) (hlt : ∀ n ∈ ns, n < 2 ^ 31)
    (hroom : sz.length < maxDimensions) :
    matrixreaderlex { o with sizes := some sz } .size
        (ns.flatMap (fun n => ' ' :: number n) ++ '\n' :: t) =
      if sz.length + ns.length < maxDimensions then
        matrixreaderlex { o with sizes := some (sz ++ ns) } .size ('\n' :: t)
      else none := by
  induction ns generalizing sz with
  | nil => simp [hroom]
  | cons n ns ih =>
      have hnext : NoDigit (ns.flatMap (fun n => ' ' :: number n) ++ '\n' :: t) := by
        intro c hc
        cases ns <;> cases hc <;> rfl
      rw [List.flatMap_cons, List.append_assoc,
        lex_size (h0 n List.mem_cons_self) (hlt n List.mem_cons_self) hnext]
      by_cases hone : sz.length + 1 < maxDimensions
      · have hlen : (sz ++ [n]).length + ns.length = sz.length + (n :: ns).length := by
          simp only [List.length_append, List.length_cons, List.length_nil]
          omega
        rw [if_pos hone, ih (fun k hk => h0 k (List.mem_cons_of_mem _ hk))
          (fun k hk => hlt k (List.mem_cons_of_mem _ hk)) (by simpa using hone), hlen,
          List.append_assoc]
        rfl
      · rw [if_neg hone, if_neg (by rw [List.length_cons]; omega)]

theorem product_eq {ss : List Int} {n : Int} (hss : ∀ s ∈ ss, 0 ≤ s) (h0 : 0 ≤ n)
    (hn : n < 2 ^ 31) :
    product ss n = if ∀ p ∈ ss.inits, n * p.prod < 2 ^ 31 then some (n * ss.prod) else none := by
  induction ss generalizing n with
  | nil => simpa [product] using hn
  | cons s ss ih =>
      have hs := hss s List.mem_cons_self
      have hns : 0 ≤ n * s := Int.mul_nonneg h0 hs
      have hinits : (∀ p ∈ (s :: ss).inits, n * p.prod < 2 ^ 31) ↔
          ∀ p ∈ ss.inits, n * s * p.prod < 2 ^ 31 := by
        rw [List.inits_cons, List.forall_mem_cons, List.forall_mem_map]
        simp only [List.prod_nil, List.prod_cons, mul_one, mul_assoc]
        exact and_iff_right hn
      simp only [product, hinits]
      by_cases hlt : n * s < 2 ^ 31
      · rw [if_pos ⟨by omega, hlt⟩, ih (fun k hk => hss k (List.mem_cons_of_mem _ hk)) hns hlt,
          List.prod_cons, mul_assoc]
      · rw [if_neg (by omega), if_neg]
        intro hall
        have hnil := hall [] (by cases ss <;> simp)
        rw [List.prod_nil, mul_one] at hnil
        exact hlt hnil

/-- The reader has room for the dimensions, and its `int` for the products of the sizes. -/
def Matrix.Fits (m : Matrix) : Prop :=
  m.sizes.length < maxDimensions ∧ ∀ p ∈ m.sizes.inits, p.prod < 2 ^ 31

instance (m : Matrix) : Decidable m.Fits := by
  unfold Matrix.Fits
  infer_instance

/-- The scratch behind the header. -/
def begun (m : Matrix) : Scratch := ⟨some m.sizes, m.count, true, []⟩

/-- **THE HEADER IS READ** where the matrix fits, and nothing else is. -/
theorem lex_header (m : Matrix) :
    matrixreaderlex o .initial (header m ++ t) =
      if m.Fits then matrixreaderlex (begun m) (if m.count = 0 then .initial else .data) t
      else none := by
  have hword : step o .initial 'S' (['I', 'Z', 'E'] ++ (m.sizes.flatMap (fun n => ' ' :: number n) ++
      '\n' :: t)) = some (false, { o with sizes := some [] }, .size,
        m.sizes.flatMap (fun n => ' ' :: number n) ++ '\n' :: t) := rfl
  have htext : header m ++ t = 'S' :: (['I', 'Z', 'E'] ++
      (m.sizes.flatMap (fun n => ' ' :: number n) ++ '\n' :: t)) := by
    simp [header]
  have hproduct := product_eq m.nonneg (le_of_lt one_pos) (by norm_num)
  simp only [one_mul] at hproduct
  rw [htext, lex_goes hword, lex_sizes m.nonneg m.sizes_lt (by decide), List.length_nil,
    Nat.zero_add, List.nil_append]
  by_cases hdim : m.sizes.length < maxDimensions
  · by_cases hprod : ∀ p ∈ m.sizes.inits, p.prod < 2 ^ 31
    · have hend : endOfSizes { o with sizes := some m.sizes } =
          some (begun m, if m.count > 0 then .data else .initial) := by
        have hcount : ¬ m.sizes.prod < 0 := not_lt.mpr m.count_nonneg
        simp only [endOfSizes, Option.bind_eq_bind, Option.bind_some, hproduct, if_pos hprod,
          if_neg hcount]
        rfl
      have hstart : (if m.count > 0 then Start.data else .initial) =
          if m.count = 0 then .initial else .data := by
        have := m.count_nonneg
        by_cases h : m.count = 0
        · rw [if_pos h, if_neg (by omega)]
        · rw [if_neg h, if_pos (by omega)]
      have hstep : step { o with sizes := some m.sizes } .size '\n' t =
          some (false, begun m, if m.count = 0 then .initial else .data, t) := by
        show (endOfSizes _).map _ = _
        rw [hend, hstart]
        rfl
      rw [if_pos hdim, if_pos ⟨hdim, hprod⟩, lex_goes hstep]
    · have hstep : step { o with sizes := some m.sizes } .size '\n' t = none := by
        show (endOfSizes _).map _ = _
        simp only [endOfSizes, Option.bind_eq_bind, Option.bind_some, hproduct, if_neg hprod]
        rfl
      rw [if_pos hdim, if_neg fun h => hprod h.2, lex_fails hstep]
  · rw [if_neg hdim, if_neg fun h => hdim h.1]

/-! ### The cells -/

theorem optional_ends {cs : List Char} (hc : c ∉ cs) : optional cs (c :: t) = (none, c :: t) :=
  if_neg hc

/-- A number in front of a break is one token. -/
theorem numberToken_number (v : Int) (hc : c = ' ' ∨ c = '\n') :
    numberToken (number v ++ c :: t) =
      some (⟨decide (v < 0), digitsText v.natAbs, [], false, none, []⟩, c :: t) := by
  have hdigit : c.isDigit = false := by rcases hc with rfl | rfl <;> rfl
  have hall := digitsText_isDigit v.natAbs
  have hends : NoDigit (c :: t) := fun d hd => by cases hd; exact hdigit
  have htake := takeWhile_digits hall hends
  have hdrop := dropWhile_digits hall hends
  have hminus : optional ['-'] (number v ++ c :: t) =
      (if v < 0 then some '-' else none, digitsText v.natAbs ++ c :: t) := by
    by_cases hv : v < 0
    · rw [number, if_pos hv, if_pos hv]
      rfl
    · obtain ⟨d, ds, hds, hd⟩ := digitsText_eq_cons v.natAbs
      rw [number, if_neg hv, if_neg hv, hds]
      refine if_neg fun hmem => ?_
      rw [List.mem_singleton.mp hmem] at hd
      cases hd
  have hpoint : optional ['.'] (c :: t) = (none, c :: t) := by
    rcases hc with rfl | rfl <;> rfl
  have he : optional ['e', 'E'] (c :: t) = (none, c :: t) := by
    rcases hc with rfl | rfl <;> rfl
  have hsign : optional ['+', '-'] (c :: t) = (none, c :: t) := by
    rcases hc with rfl | rfl <;> rfl
  have htake' : (c :: t).takeWhile Char.isDigit = [] := by simp [hdigit]
  have hdrop' : (c :: t).dropWhile Char.isDigit = c :: t := by simp [hdigit]
  simp only [numberToken, hminus, htake, hdrop, hpoint, htake', hdrop', he, hsign,
    if_neg (digitsText_ne_nil _)]
  by_cases hv : v < 0 <;> simp [hv]

theorem stringToDouble_number (v : Int) :
    stringToDouble ⟨decide (v < 0), digitsText v.natAbs, [], false, none, []⟩ = some (v : ℚ) := by
  have hcast : ((v.natAbs : Nat) : ℚ) = |(v : ℚ)| := by
    rw [Nat.cast_natAbs, Int.cast_abs]
  simp only [stringToDouble, List.append_nil, ofDigits_digitsText, List.length_nil, pow_zero,
    div_one, hcast]
  by_cases hv : v < 0
  · have habs : |(v : ℚ)| = -v := abs_of_neg (by exact_mod_cast hv)
    simp [hv, habs]
  · have habs : |(v : ℚ)| = v := abs_of_nonneg (by exact_mod_cast not_lt.mp hv)
    simp [hv, habs]

/-- A number starts with a sign or a digit. -/
theorem number_eq_cons (v : Int) :
    ∃ d ds, number v = d :: ds ∧ (isBlank d || decide (d = '\n')) = false := by
  by_cases hv : v < 0
  · exact ⟨'-', digitsText v.natAbs, if_pos hv, rfl⟩
  · obtain ⟨d, ds, hds, hd⟩ := digitsText_eq_cons v.natAbs
    refine ⟨d, ds, by rw [number, if_neg hv, hds], ?_⟩
    rw [Bool.or_eq_false_iff, isBlank, Bool.or_eq_false_iff, Bool.or_eq_false_iff]
    refine ⟨⟨⟨?_, ?_⟩, ?_⟩, ?_⟩ <;> rw [decide_eq_false_iff_not] <;> rintro rfl <;> cases hd

/-- The scratch with one more cell. -/
def Scratch.add (o : Scratch) (v : ℚ) : Scratch :=
  { o with cells := o.cells ++ [v], remaining := o.remaining - 1 }

theorem lex_field (v : Int) (hpos : 0 < o.remaining) (hc : c = ' ' ∨ c = '\n') :
    matrixreaderlex o .data (field v ++ c :: t) =
      if o.remaining = 1 then some (o.add v, .initial, c :: t)
      else matrixreaderlex (o.add v) .data (c :: t) := by
  obtain ⟨d, ds, hds, hd⟩ := number_eq_cons v
  have hpad : Gap (List.replicate (4 - (number v).length) ' ') :=
    fun c hc => .inl (List.eq_of_mem_replicate hc)
  have htoken := numberToken_number (t := t) v hc
  rw [field, List.append_assoc, lex_gap (by decide) hpad]
  rw [hds, List.cons_append] at htoken ⊢
  have hcell : readCell o ⟨decide (v < 0), digitsText v.natAbs, [], false, none, []⟩ =
      some (if o.remaining - 1 = 0 then (true, o.add v, .initial) else (false, o.add v, .data)) := by
    rw [readCell, if_pos hpos, stringToDouble_number]
    rfl
  have hstep : step o .data d (ds ++ c :: t) =
      some (if o.remaining - 1 = 0 then (true, o.add v, .initial, c :: t)
        else (false, o.add v, .data, c :: t)) := by
    rw [step, if_neg (by rw [hd]; exact Bool.false_ne_true), htoken]
    show (readCell o _).bind _ = _
    rw [hcell]
    by_cases hlast : o.remaining - 1 = 0
    · rw [if_pos hlast, if_pos hlast]
      rfl
    · rw [if_neg hlast, if_neg hlast]
      rfl
  by_cases hlast : o.remaining = 1
  · rw [if_pos (by omega)] at hstep
    rw [if_pos hlast, lex_returns hstep]
  · rw [if_neg (by omega)] at hstep
    rw [if_neg hlast, lex_goes hstep]

/-- **ALL CELLS ARE READ**, and the scanner returns in front of the last break. -/
theorem lex_fields {vs : List (Int × List Char)} (hne : vs ≠ []) (hvs : Spaced vs)
    (hrem : o.remaining = vs.length) :
    ∃ gap, Gap gap ∧ matrixreaderlex o .data (fields vs ++ t) =
      some ({ o with cells := o.cells ++ vs.map (fun v => (v.1 : ℚ)), remaining := 0 },
        .initial, gap ++ t) := by
  induction vs generalizing o with
  | nil => exact absurd rfl hne
  | cons v vs ih =>
      obtain ⟨hgapne, hgap⟩ := hvs v List.mem_cons_self
      obtain ⟨c, cs, hcs⟩ := List.exists_cons_of_ne_nil hgapne
      have hc : c = ' ' ∨ c = '\n' := hgap c (hcs ▸ List.mem_cons_self)
      have hpos : 0 < o.remaining := by
        rw [hrem, List.length_cons]
        omega
      have htext : fields (v :: vs) ++ t = field v.1 ++ c :: (cs ++ (fields vs ++ t)) := by
        simp [fields, hcs]
      rw [htext, lex_field v.1 hpos hc]
      cases hrest : vs with
      | nil =>
          refine ⟨v.2, hgap, ?_⟩
          have hlast : o.remaining = 1 := by rw [hrem, hrest]; rfl
          rw [if_pos hlast, Scratch.add, hlast, hcs]
          rfl
      | cons w ws =>
          have hmore : o.remaining ≠ 1 := by
            rw [hrem, hrest, List.length_cons, List.length_cons]
            omega
          rw [if_neg hmore, ← hrest]
          have hbreak : matrixreaderlex (o.add v.1) .data (c :: (cs ++ (fields vs ++ t))) =
              matrixreaderlex (o.add v.1) .data (fields vs ++ t) := by
            rw [← List.cons_append, ← hcs]
            exact lex_gap (by decide) hgap
          have hrem' : (o.add v.1).remaining = vs.length := by
            rw [Scratch.add, hrem, List.length_cons]
            push_cast
            omega
          obtain ⟨gap, hg, hlex⟩ := ih (by rw [hrest]; exact List.cons_ne_nil _ _)
            (fun u hu => hvs u (List.mem_cons_of_mem _ hu)) hrem'
          refine ⟨gap, hg, ?_⟩
          rw [hbreak, hlex]
          simp [Scratch.add]

/-! ## Sequences of matrices -/

/-- The scratch holds the matrix: its dimensions, its sizes and each of its cells. -/
def Same (m : Matrix) (o : Scratch) : Prop :=
  o.sizes = some m.sizes ∧ (o.cells.length : Int) = m.count ∧
    ∀ c, Within m.sizes c → o.cells[(encode m.sizes c).toNat]? = some (m.cell c : ℚ)

theorem read_gap {gap : List Char} (h : Gap gap) : read .initial (gap ++ t) = read .initial t := by
  rw [read, lex_gap (by decide) h]
  rfl

theorem readAll_gap {gap : List Char} (h : Gap gap) (k : Nat) :
    readAll k .initial (gap ++ t) = readAll k .initial t := by
  cases k with
  | zero => rfl
  | succ k =>
      rw [readAll, read_gap h]
      rfl

/-- No matrix is left. -/
theorem read_end : read .initial [] = none := by
  rw [read, lex_end]
  rfl

/-- Both writers write a matrix with cells. -/
theorem write_full {w : Written} (h : w.matrix.count ≠ 0) :
    write w = (body w.matrix).map (header w.matrix ++ ·) := by
  rcases w with ⟨kind, m⟩
  cases kind with
  | matrixRegion => exact if_neg h
  | regionMatrix => rfl

theorem write_empty {w : Written} (h : w.matrix.count = 0) :
    write w = if w.kind = .matrixRegion then some (header w.matrix) else none := by
  rcases w with ⟨kind, m⟩
  cases kind with
  | matrixRegion => exact if_pos h
  | regionMatrix =>
      show (body m).map _ = _
      rw [body_empty h, if_neg (show Kind.regionMatrix ≠ .matrixRegion by decide)]
      rfl

/-- **A MATRIX WITH CELLS IS READ BACK** if it fits, whatever follows. -/
theorem read_full {w : Written} (h : w.matrix.count ≠ 0) :
    ∃ text, write w = some text ∧ ∀ t,
      if w.matrix.Fits then
        ∃ o gap, Gap gap ∧ Same w.matrix o ∧ read .initial (text ++ t) = some (o, .initial, gap ++ t)
      else read .initial (text ++ t) = none := by
  obtain ⟨vs, gap, hbody, hspaced, hgap, hlen, hcells⟩ := body_spec h
  refine ⟨header w.matrix ++ (fields vs ++ gap), by rw [write_full h, hbody]; rfl, fun t => ?_⟩
  have hhead : matrixreaderlex {} .initial (header w.matrix ++ (fields vs ++ gap) ++ t) =
      if w.matrix.Fits then
        matrixreaderlex (begun w.matrix) (if w.matrix.count = 0 then .initial else .data)
          (fields vs ++ gap ++ t)
      else none := by
    rw [List.append_assoc, lex_header]
  by_cases hfits : w.matrix.Fits
  · have hvs : vs ≠ [] := by
      rintro rfl
      rw [List.length_nil] at hlen
      exact h (by omega)
    have hrem : (begun w.matrix).remaining = vs.length := by
      show w.matrix.count = _
      omega
    obtain ⟨g, hg, hlex⟩ := lex_fields (t := gap ++ t) hvs hspaced hrem
    rw [if_pos hfits]
    refine ⟨{ begun w.matrix with cells := vs.map (fun v => (v.1 : ℚ)), remaining := 0 },
      g ++ gap, ?_, ?_, ?_⟩
    · intro c hc
      exact (List.mem_append.mp hc).elim (hg c) (hgap c)
    · refine ⟨rfl, ?_, ?_⟩
      · show ((vs.map _).length : Int) = _
        rw [List.length_map]
        omega
      · intro c hc
        have hcell := hcells c hc (encode w.matrix.sizes c).toNat
          (by have := (encode_bounds hc).1; omega)
        show (vs.map _)[_]? = _
        rw [List.getElem?_map]
        cases hget : vs[(encode w.matrix.sizes c).toNat]? with
        | none =>
            rw [hget] at hcell
            cases hcell
        | some v =>
            rw [hget] at hcell
            rw [Option.map_some] at hcell ⊢
            rw [Option.some.inj hcell]
    · rw [read, hhead, if_pos hfits, if_neg h, List.append_assoc, hlex, List.append_assoc]
      have hdim : w.matrix.sizes.length < maxDimensions := hfits.1
      simp [begun, hdim]
  · rw [if_neg hfits, read, hhead, if_neg hfits]
    rfl

/-- **THE SCANNER GOES ON** behind a matrix without cells. -/
theorem lex_empty {m : Matrix} (h : m.count = 0) :
    matrixreaderlex o .initial (header m ++ t) =
      if m.Fits then matrixreaderlex (begun m) .initial t else none := by
  rw [lex_header, if_pos h]

theorem read_empty {m : Matrix} (h : m.count = 0) (hfits : m.Fits) :
    read .initial (header m) = some (begun m, .initial, []) := by
  have hlex := lex_empty (o := {}) (t := []) h
  rw [List.append_nil, if_pos hfits, lex_end] at hlex
  rw [read, hlex]
  exact if_pos ⟨hfits.1, rfl, h⟩

/-- A matrix without cells is lost in front of another one. -/
theorem read_skip {m m' : Matrix} (h : m.count = 0) (hfits : m.Fits) :
    read .initial (header m ++ (header m' ++ t)) = read .initial (header m' ++ t) := by
  rw [read, lex_empty h, if_pos hfits, lex_header, read, lex_header]

theorem read_unfit {m : Matrix} (hfits : ¬ m.Fits) : read .initial (header m ++ t) = none := by
  rw [read, lex_header, if_neg hfits]
  rfl

theorem write_header {w : Written} {text : List Char} (h : write w = some text) :
    ∃ t, text = header w.matrix ++ t := by
  by_cases hcount : w.matrix.count = 0
  · rw [write_empty hcount] at h
    split at h
    · exact ⟨[], by rw [List.append_nil, Option.some.inj h]⟩
    · cases h
  · rw [write_full hcount] at h
    obtain ⟨t, _, ht⟩ := Option.map_eq_some_iff.mp h
    exact ⟨t, ht.symm⟩

theorem writeAll_cons {w : Written} {ws : List Written} {text : List Char}
    (h : writeAll (w :: ws) = some text) :
    ∃ a b, write w = some a ∧ writeAll ws = some b ∧ text = a ++ b := by
  obtain ⟨a, ha, h⟩ := Option.bind_eq_some_iff.mp h
  obtain ⟨b, hb, h⟩ := Option.bind_eq_some_iff.mp h
  exact ⟨a, b, ha, hb, (Option.some.inj h).symm⟩

theorem readAll_succ {k : Nat} {text : List Char} {os : List Scratch}
    (h : readAll (k + 1) .initial text = some os) :
    ∃ o s' rest os', read .initial text = some (o, s', rest) ∧
      readAll k s' rest = some os' ∧ os = o :: os' := by
  obtain ⟨⟨o, s', rest⟩, hread, h⟩ := Option.bind_eq_some_iff.mp h
  obtain ⟨os', hrest, h⟩ := Option.bind_eq_some_iff.mp h
  exact ⟨o, s', rest, os', hread, hrest, (Option.some.inj h).symm⟩

/-- The matrices fit, and only the last one may have no cells, with the writer for
    `MatrixRegion`. -/
def Good : List Written → Prop
  | [] => True
  | w :: ws =>
      w.matrix.Fits ∧ (w.matrix.count = 0 → w.kind = .matrixRegion ∧ ws = []) ∧ Good ws

/-- **NOTHING ELSE COMES BACK.**  Every matrix that does not fit stops the reader, and every
    one without cells that is not the last makes the sequence shorter. -/
theorem good_of_readAll {ws : List Written} {text : List Char} (h : writeAll ws = some text)
    {k : Nat} (hk : ws.length ≤ k) {os : List Scratch}
    (hread : readAll k .initial text = some os) : k = ws.length ∧ Good ws := by
  induction ws generalizing text k os with
  | nil =>
      cases k with
      | zero => exact ⟨rfl, trivial⟩
      | succ k =>
          cases h
          obtain ⟨_, _, _, _, hone, _⟩ := readAll_succ hread
          rw [read_end] at hone
          cases hone
  | cons w ws ih =>
      obtain ⟨a, b, ha, hb, rfl⟩ := writeAll_cons h
      obtain ⟨k, rfl⟩ : ∃ j, k = j + 1 := Nat.exists_eq_succ_of_ne_zero (by
        rw [List.length_cons] at hk
        omega)
      have hlen : ws.length ≤ k := Nat.le_of_succ_le_succ hk
      obtain ⟨o, s', rest, os', hone, hrest, rfl⟩ := readAll_succ hread
      have hfits : w.matrix.Fits := by
        by_contra hfits
        obtain ⟨t, rfl⟩ := write_header ha
        rw [List.append_assoc, read_unfit hfits] at hone
        cases hone
      by_cases hcount : w.matrix.count = 0
      · rw [write_empty hcount] at ha
        split at ha
        · rename_i hkind
          cases ha
          cases ws with
          | nil =>
              cases hb
              rw [List.append_nil, read_empty hcount hfits] at hone
              cases hone
              exact ⟨congrArg (· + 1) (ih rfl (Nat.zero_le k) hrest).1,
                hfits, fun _ => ⟨hkind, rfl⟩, trivial⟩
          | cons w' ws =>
              -- the next matrix is read in its place, and then there are too few of them
              obtain ⟨a', b', ha', _, rfl⟩ := writeAll_cons hb
              obtain ⟨t, rfl⟩ := write_header ha'
              have hskip : readAll (k + 1) .initial (header w'.matrix ++ t ++ b') =
                  some (o :: os') := by
                rw [readAll] at hread ⊢
                rw [List.append_assoc] at hread ⊢
                rwa [read_skip hcount hfits] at hread
              have := (ih hb (Nat.le_succ_of_le hlen) hskip).1
              omega
        · cases ha
      · obtain ⟨a', ha', hall⟩ := read_full hcount
        have hrun := hall b
        cases ha.symm.trans ha'
        rw [if_pos hfits] at hrun
        obtain ⟨o', gap, hgap, _, hone'⟩ := hrun
        cases hone.symm.trans hone'
        rw [readAll_gap hgap] at hrest
        obtain ⟨rfl, hgood⟩ := ih hb hlen hrest
        exact ⟨rfl, hfits, fun h0 => absurd h0 hcount, hgood⟩

/-- The sequence is written with no access outside a matrix, and as many reads give it back. -/
def RoundTrips (ws : List Written) : Prop :=
  ∃ text, writeAll ws = some text ∧ ∃ os, readAll ws.length .initial text = some os ∧
    List.Forall₂ (fun w o => Same w.matrix o) ws os

theorem same_begun {m : Matrix} (h : m.count = 0) : Same m (begun m) := by
  refine ⟨rfl, h.symm, ?_⟩
  intro c hc
  have hbounds := encode_bounds hc
  rw [Matrix.count] at h
  omega

theorem roundTrips_of_good {ws : List Written} (h : Good ws) : RoundTrips ws := by
  induction ws with
  | nil => exact ⟨[], rfl, [], rfl, .nil⟩
  | cons w ws ih =>
      obtain ⟨hfits, hempty, hgood⟩ := h
      obtain ⟨b, hb, os, hos, hsame⟩ := ih hgood
      by_cases hcount : w.matrix.count = 0
      · obtain ⟨hkind, rfl⟩ := hempty hcount
        refine ⟨header w.matrix, ?_, [begun w.matrix], ?_, .cons (same_begun hcount) .nil⟩
        · simp [writeAll, write_empty hcount, hkind]
        · simp [readAll, read_empty hcount hfits]
      · obtain ⟨a, ha, hall⟩ := read_full hcount
        have hrun := hall b
        rw [if_pos hfits] at hrun
        obtain ⟨o, gap, hgap, ho, hread⟩ := hrun
        refine ⟨a ++ b, ?_, o :: os, ?_, .cons ho hsame⟩
        · simp [writeAll, ha, hb]
        · rw [List.length_cons, readAll, hread]
          show (readAll ws.length .initial (gap ++ b)).bind _ = _
          rw [readAll_gap hgap, hos]
          rfl

/-- One dimension of size zero. -/
def emptyMatrix : Matrix where
  sizes := [0]
  cell := fun _ => 0
  nonneg := by simp
  sizes_lt := by simp
  cell_lt := by simp

/-- One number. -/
def scalarMatrix : Matrix where
  sizes := []
  cell := fun _ => 7
  nonneg := by simp
  sizes_lt := by simp
  cell_lt := by simp

end PbMatrixFile
