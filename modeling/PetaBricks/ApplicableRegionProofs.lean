import PetaBricks.ApplicableRegionModel
import Mathlib.Tactic.Linarith
import Mathlib.Tactic.FieldSimp

/-! # Exact bounds

    A corner that is affine in one offset variable is on the border of the matrix at one rational
    point.  The corner that is there first gives a lower bound, rounded up, and the other one an
    upper bound, the reciprocal of the slope beyond its point.  As points of the iteration space
    are not negative, this is exact for what is read; for what is written, the upper bound is
    rounded down, which is exact if the slope divides it. -/

namespace PbApplicableRegion

open PbDataDependency (SimpleRegion Cell)
open PbRounding

variable {F Z : Type} {A : Formulas F Z}

/-! ## Affine coordinates -/

/-- What a coordinate is: affine in at most one offset variable. -/
structure Shape (Z : Type) where
  axis : Option Nat
  minSlope : ℤ
  maxSlope : ℤ
  lo : Z → ℤ
  hi : Z → ℤ
  size : Z → ℤ

namespace Shape

/-- The lower corner, at some sizes and iteration point. -/
def low (h : Shape Z) (s : Z × Cell) : ℤ := line (h.axis.getD 0) h.minSlope h.lo s

def high (h : Shape Z) (s : Z × Cell) : ℤ := line (h.axis.getD 0) h.maxSlope h.hi s

/-- How far the offset variable may go, times the slope. -/
def reach (h : Shape Z) (z : Z) : ℤ := if h.maxSlope < 0 then h.lo z else h.size z - h.hi z

/-- The slope a bound is rounded with. -/
def step (h : Shape Z) : ℤ := if h.axis = none then 1 else |h.maxSlope|

/-- In the matrix. -/
def Inside (h : Shape Z) (s : Z × Cell) : Prop := 0 ≤ h.low s ∧ h.high s ≤ h.size s.1

/-- Both corners rise, or fall together. -/
def Signs (h : Shape Z) : Prop :=
  (0 < h.minSlope ∧ 0 < h.maxSlope) ∨ (h.minSlope = h.maxSlope ∧ h.maxSlope < 0)

/-- Where the corner that is on the border at the first point is there. -/
def first (h : Shape Z) (z : Z) : ℚ :=
  if h.maxSlope < 0 then (h.size z - h.hi z) / h.maxSlope else ((0 : ℤ) - h.lo z) / h.minSlope

/-- Where the other one is. -/
def last (h : Shape Z) (z : Z) : ℚ :=
  if h.maxSlope < 0 then ((0 : ℤ) - h.lo z) / h.minSlope else (h.size z - h.hi z) / h.maxSlope

/-- The first corner is in the matrix. -/
def FirstIn (h : Shape Z) (s : Z × Cell) : Prop :=
  if h.maxSlope < 0 then h.high s ≤ h.size s.1 else 0 ≤ h.low s

def LastIn (h : Shape Z) (s : Z × Cell) : Prop :=
  if h.maxSlope < 0 then 0 ≤ h.low s else h.high s ≤ h.size s.1

variable {Z : Type} {h : Shape Z}

theorem inside_iff (s : Z × Cell) : h.Inside s ↔ h.FirstIn s ∧ h.LastIn s := by
  rw [Inside, FirstIn, LastIn]
  split_ifs
  · exact and_comm
  · exact Iff.rfl

theorem Signs.maxSlope_ne_zero (hs : h.Signs) : h.maxSlope ≠ 0 := by
  rcases hs with ⟨-, h⟩ | ⟨-, h⟩ <;> omega

theorem Signs.minSlope_ne_zero (hs : h.Signs) : h.minSlope ≠ 0 := by
  rcases hs with ⟨h, -⟩ | ⟨h, h'⟩ <;> omega

variable {v : Nat}

theorem low_eq (hv : h.axis = some v) (s : Z × Cell) :
    h.low s = h.minSlope * s.2 v + h.lo s.1 := by
  rw [low, hv]
  rfl

theorem high_eq (hv : h.axis = some v) (s : Z × Cell) :
    h.high s = h.maxSlope * s.2 v + h.hi s.1 := by
  rw [high, hv]
  rfl

/-- **FROM THE FIRST POINT ON**, the first corner is in the matrix. -/
theorem first_le_iff (hs : h.Signs) (hv : h.axis = some v) (s : Z × Cell) :
    h.first s.1 ≤ (s.2 v : ℚ) ↔ h.FirstIn s := by
  rw [first, FirstIn]
  rcases hs with ⟨hmin, hmax⟩ | ⟨-, hmax⟩
  · have hq : (0 : ℚ) < h.minSlope := Int.cast_pos.mpr hmin
    rw [if_neg (by omega), if_neg (by omega), low_eq hv, div_le_iff₀ hq]
    norm_cast
    rw [mul_comm]
    omega
  · have hq : (h.maxSlope : ℚ) < 0 := Int.cast_lt_zero.mpr hmax
    -- dividing by a negative slope turns the comparison round
    rw [if_pos hmax, if_pos hmax, high_eq hv, div_le_iff_of_neg hq]
    norm_cast
    rw [mul_comm]
    omega

/-- The point beyond the last one, as one fraction. -/
theorem last_add (hs : h.Signs) (z : Z) :
    h.last z + 1 / (|h.maxSlope| : ℤ) = ((h.reach z + 1 : ℤ) : ℚ) / (|h.maxSlope| : ℤ) := by
  rw [last, reach]
  rcases hs with ⟨-, hmax⟩ | ⟨heq, hmax⟩
  · rw [if_neg (by omega), if_neg (by omega), abs_of_pos hmax]
    push_cast
    ring
  · rw [if_pos hmax, if_pos hmax, abs_of_neg hmax, heq]
    push_cast
    rw [zero_sub, neg_div, div_neg, div_neg]
    ring

/-- **UP TO THE LAST POINT**, the last corner is in the matrix. -/
theorem lt_beyond_iff (hs : h.Signs) (hv : h.axis = some v) (s : Z × Cell) :
    (s.2 v : ℚ) < ((h.reach s.1 + 1 : ℤ) : ℚ) / (|h.maxSlope| : ℤ) ↔ h.LastIn s := by
  have hq : (0 : ℚ) < (|h.maxSlope| : ℤ) := Int.cast_pos.mpr (abs_pos.mpr hs.maxSlope_ne_zero)
  rw [lt_div_iff₀ hq, LastIn, reach]
  rcases hs with ⟨-, hmax⟩ | ⟨heq, hmax⟩
  · rw [if_neg (by omega), if_neg (by omega), high_eq hv, abs_of_pos hmax]
    norm_cast
    rw [mul_comm]
    omega
  · rw [if_pos hmax, if_pos hmax, low_eq hv, abs_of_neg hmax, heq]
    norm_cast
    rw [mul_neg, mul_comm]
    omega

end Shape

/-- The offset variables of a formula: that of an axis, if there is one. -/
def Axis (A : Formulas F Z) (f : F) (axis : Option Nat) : Prop :=
  nonConstants A f = axis.elim ∅ fun v => {.offset v}

/-- The formulas of a coordinate have this shape. -/
structure Fits (A : Formulas F Z) (c : Coordinate F) (h : Shape Z) : Prop where
  minAxis : Axis A c.minCoord h.axis
  maxAxis : Axis A c.maxCoord h.axis
  sizeAxis : Axis A c.sizeOfDimension none
  constant : h.axis = none → h.minSlope = 0 ∧ h.maxSlope = 0
  low : ∀ s, A.eval c.minCoord s = (h.low s : ℚ)
  high : ∀ s, A.eval c.maxCoord s = (h.high s : ℚ)
  size : ∀ s, A.eval c.sizeOfDimension s = (h.size s.1 : ℚ)

variable {c : Coordinate F} {h : Shape Z}

theorem Fits.inside_iff (hf : Fits A c h) (s : Z × Cell) :
    (0 ≤ A.eval c.minCoord s ∧ A.eval c.maxCoord s ≤ A.eval c.sizeOfDimension s)
      ↔ h.Inside s := by
  rw [hf.low, hf.high, hf.size, WithTop.coe_nonneg, WithTop.coe_le_coe, Int.cast_nonneg_iff,
    Int.cast_le]
  rfl

theorem mem_nonConstants {f : F} {i : Nat} :
    .offset i ∈ nonConstants A f ↔ .offset i ∈ A.freeVars f := by
  simp [nonConstants, FreeVar.isConstant]

theorem Axis.mem_iff {f : F} {axis : Option Nat} (hf : Axis A f axis) (i : Nat) :
    .offset i ∈ A.freeVars f ↔ axis = some i := by
  rw [← mem_nonConstants, show nonConstants A f = _ from hf]
  cases axis with
  | none => simp
  | some v => simp [eq_comm]

theorem axis_integer (n : ℤ) : Axis A (A.integer n) none := by
  show (A.freeVars (A.integer n)).filter _ = ∅
  rw [A.freeVars_integer]
  rfl

/-! ## Slopes -/

/-- The derivative of a coordinate is its slope. -/
theorem Fits.eval_diffCoord (hf : Fits A c h) {v : Nat} (hv : h.axis = some v)
    {n : Nat} (hdim : v < n) (s : Z × Cell) :
    A.eval (diffCoord A n c.maxCoord) s = (h.maxSlope : ℚ) := by
  have hvars : nonConstants A c.maxCoord = {.offset v} := by
    have hax := hf.maxAxis
    rw [hv] at hax
    exact hax
  have hfind : ((List.range n).find? fun d =>
      .offset d ∈ nonConstants A c.maxCoord) = some v := by
    obtain ⟨d, hd⟩ := Option.isSome_iff_exists.mp (List.find?_isSome.mpr
      ⟨v, List.mem_range.mpr hdim, decide_eq_true (by rw [hvars]; exact Finset.mem_singleton_self _)⟩ :
      ((List.range n).find? fun d => .offset d ∈ nonConstants A c.maxCoord).isSome)
    have hmem : FreeVar.offset d ∈ nonConstants A c.maxCoord :=
      of_decide_eq_true (List.find?_some hd :)
    rw [hvars] at hmem
    cases Finset.mem_singleton.mp hmem
    exact hd
  rw [diffCoord, if_pos (by rw [hvars]; exact Finset.card_singleton _), hfind]
  refine A.eval_diff c.maxCoord v h.maxSlope h.hi (fun s => ?_) s
  rw [hf.high, Shape.high, hv]
  rfl

theorem Fits.diffCoord_of_none (hf : Fits A c h) (hv : h.axis = none) (n : Nat) :
    diffCoord A n c.maxCoord = A.integer 0 := by
  have hvars : nonConstants A c.maxCoord = ∅ := by
    have hax := hf.maxAxis
    rw [hv] at hax
    exact hax
  refine if_neg ?_
  rw [hvars]
  exact Nat.zero_ne_one

/-- A number whose text is not that of a number is another one. -/
theorem eq_of_text [Nonempty Z] {f : F} {a n : ℤ} (hf : ∀ s, A.eval f s = (a : ℚ)) (h : f = A.integer n) :
    a = n := by
  obtain ⟨z⟩ := (inferInstance : Nonempty Z)
  have heval := hf (z, fun _ => 0)
  rw [h, A.eval_integer, WithTop.coe_inj, Int.cast_inj] at heval
  exact heval.symm

/-! ## The equation of a variable -/

/-- What holds of one element of a list only filters it out. -/
theorem filter_eq_singleton {α : Type} {l : List α} {p : α → Bool} {d : Nat} {a : α}
    (hd : l[d]? = some a) (hp : p a = true)
    (huniq : ∀ d' b, l[d']? = some b → p b = true → d' = d) : l.filter p = [a] := by
  induction l generalizing d with
  | nil => cases hd
  | cons b l ih =>
      cases d with
      | zero =>
          cases hd
          have hnone : l.filter p = [] := by
            refine List.filter_eq_nil_iff.mpr fun b hb hpb => ?_
            obtain ⟨d', hd'⟩ := List.getElem?_of_mem hb
            -- nothing else in the list has the property
            exact Nat.succ_ne_zero d' (huniq (d' + 1) b hd' hpb)
          rw [List.filter_cons_of_pos hp, hnone]
      | succ d =>
          have hb : ¬ p b = true := fun hpb => Nat.succ_ne_zero d (huniq 0 b rfl hpb).symm
          rw [List.filter_cons_of_neg hb]
          exact ih hd fun d' c hd' hpc => Nat.succ.inj (huniq (d' + 1) c hd' hpc)

theorem mentions_iff {l f : F} {axis : Option Nat} (hl : Axis A l none) (hf : Axis A f axis)
    (i : Nat) : mentions A i (l, f) = true ↔ axis = some i := by
  rw [mentions, decide_eq_true_iff, Finset.mem_union, hl.mem_iff, hf.mem_iff]
  simp

/-- Where the lower corner is on the border. -/
theorem Fits.solve_low (hf : Fits A c h) (hs : h.Signs) {v : Nat} (hv : h.axis = some v) :
    ∃ f, A.solve [(A.integer 0, c.minCoord)] v = [f]
      ∧ ∀ s, A.eval f s = (((0 : ℤ) - h.lo s.1) / h.minSlope : ℚ) := by
  refine A.solve_line _ _ v _ _ (fun _ => 0) (A.eval_integer 0) (fun s => ?_) hs.minSlope_ne_zero
  rw [hf.low, Shape.low, hv]
  rfl

theorem Fits.solve_high (hf : Fits A c h) (hs : h.Signs) {v : Nat} (hv : h.axis = some v) :
    ∃ f, A.solve [(c.sizeOfDimension, c.maxCoord)] v = [f]
      ∧ ∀ s, A.eval f s = ((h.size s.1 - h.hi s.1) / h.maxSlope : ℚ) := by
  refine A.solve_line _ _ v _ _ h.size hf.size (fun s => ?_) hs.maxSlope_ne_zero
  rw [hf.high, Shape.high, hv]
  rfl

variable [DecidableEq F] {M : Maxima A} {r : Region F}

/-- One equation, one solution. -/
theorem retrySolve_single {op : Op} {eqs : List (F × F)} {i : Nat} {e : F × F} {f : F}
    (hfilter : eqs.filter (mentions A i) = [e]) (hsol : A.solve [e] i = [f]) :
    trimImpossible (retrySolve M op eqs i) = some f := by
  have hjoint : solve A eqs i = [f] := by
    rw [solve, hfilter, hsol]
  simp only [retrySolve, hjoint, Maxima.trim, trimImpossible, List.cons_ne_nil, if_false]

theorem Fits.mentions_minDef (hf : Fits A c h) (i : Nat) :
    mentions A i (minDef M r c) = true ↔ h.axis = some i := by
  rw [minDef]
  split_ifs
  · exact mentions_iff hf.sizeAxis hf.maxAxis i
  · exact mentions_iff (axis_integer 0) hf.minAxis i

theorem Fits.mentions_maxDef (hf : Fits A c h) (i : Nat) :
    mentions A i (maxDef M r c) = true ↔ h.axis = some i := by
  rw [maxDef]
  split_ifs
  · exact mentions_iff (axis_integer 0) hf.minAxis i
  · exact mentions_iff hf.sizeAxis hf.maxAxis i

/-- The first point solves the equation of the first corner. -/
theorem Fits.solve_minDef (hf : Fits A c h) (hs : h.Signs) {v : Nat} (hv : h.axis = some v)
    (hfalls : falls M r c = true ↔ h.maxSlope < 0) :
    ∃ f, A.solve [minDef M r c] v = [f] ∧ ∀ s, A.eval f s = (h.first s.1 : ℚ) := by
  by_cases hneg : h.maxSlope < 0
  · simp only [minDef, if_pos (hfalls.mpr hneg), Shape.first, if_pos hneg]
    exact hf.solve_high hs hv
  · simp only [minDef, if_neg (fun hh => hneg (hfalls.mp hh)), Shape.first, if_neg hneg]
    exact hf.solve_low hs hv

theorem Fits.solve_maxDef (hf : Fits A c h) (hs : h.Signs) {v : Nat} (hv : h.axis = some v)
    (hfalls : falls M r c = true ↔ h.maxSlope < 0) :
    ∃ f, A.solve [maxDef M r c] v = [f] ∧ ∀ s, A.eval f s = (h.last s.1 : ℚ) := by
  by_cases hneg : h.maxSlope < 0
  · simp only [maxDef, if_pos (hfalls.mpr hneg), Shape.last, if_pos hneg]
    exact hf.solve_low hs hv
  · simp only [maxDef, if_neg (fun hh => hneg (hfalls.mp hh)), Shape.last, if_neg hneg]
    exact hf.solve_high hs hv

/-! ## Directions -/

section Directions

variable [Nonempty Z]

/-- A coordinate whose variable is one of the first is found to fall if it does. -/
theorem Fits.falls_iff (hf : Fits A c h) (hdim : ∀ v, h.axis = some v → v < r.dimensions) :
    falls M r c = true ↔ h.maxSlope < 0 := by
  cases hv : h.axis with
  | none =>
      rw [falls, hf.diffCoord_of_none hv r.dimensions, Maxima.tryCompare, if_pos rfl, (hf.constant hv).2]
      exact iff_of_false (by decide) (lt_irrefl 0)
  | some v =>
      have heval := fun s => hf.eval_diffCoord hv (hdim v hv) s
      rw [falls, decide_eq_true_iff, Maxima.tryCompare]
      by_cases hzero : diffCoord A r.dimensions c.maxCoord = A.integer 0
      · -- the same text, so the slope is zero
        rw [if_pos hzero]
        refine iff_of_false (by decide) ?_
        rw [eq_of_text heval hzero]
        exact lt_irrefl 0
      · rw [if_neg hzero, M.number _ _ heval]
        exact Int.cast_lt_zero

/-- What a solution is moved by. -/
theorem Fits.eval_beyond (hf : Fits A c h) (hdim : ∀ v, h.axis = some v → v < r.dimensions)
    (hslope : h.axis ≠ none → h.maxSlope ≠ 0) {f : F} {s : Z × Cell} {p : ℚ}
    (hp : A.eval f s = p) : A.eval (beyond M r c f) s = (p + 1 / h.step : ℚ) := by
  have hfalls := hf.falls_iff (M := M) hdim
  cases hv : h.axis with
  | none =>
      have hoffset : offset M r c = A.integer 0 := by
        have hnot : ¬ falls M r c = true := by
          rw [hfalls, (hf.constant hv).2]
          exact lt_irrefl 0
        rw [offset, if_neg hnot, hf.diffCoord_of_none hv r.dimensions]
      rw [beyond, if_pos hoffset, A.eval_add, hp, A.eval_integer, Shape.step, if_pos hv]
      norm_num
  | some v =>
      have heval := fun s => hf.eval_diffCoord hv (hdim v hv) s
      have hne : h.maxSlope ≠ 0 := hslope (by rw [hv]; exact Option.some_ne_none v)
      have hoffset : ∀ s, A.eval (offset M r c) s = ((|h.maxSlope| : ℤ) : ℚ) := by
        intro s
        rw [offset]
        by_cases hneg : h.maxSlope < 0
        · rw [if_pos (hfalls.mpr hneg), Formulas.negative, A.eval_normalize,
            A.eval_subtract _ _ s _ _ (A.eval_integer 0 s) (heval s), abs_of_neg hneg]
          push_cast
          rw [zero_sub]
        · rw [if_neg (fun hh => hneg (hfalls.mp hh)), heval, abs_of_nonneg (not_lt.mp hneg)]
      -- the slope is not zero, so its text is not that of zero
      have htext : offset M r c ≠ A.integer 0 := fun htext =>
        hne (abs_eq_zero.mp (eq_of_text hoffset htext))
      have hstep : h.step = |h.maxSlope| := if_neg (by rw [hv]; exact Option.some_ne_none v)
      have hq : ((|h.maxSlope| : ℤ) : ℚ) ≠ 0 := Int.cast_ne_zero.mpr (abs_ne_zero.mpr hne)
      rw [beyond, if_neg htext, A.eval_add, hp,
        A.eval_divide _ _ s _ _ (A.eval_integer 1 s) hoffset hq, hstep, Int.cast_one]
      rfl

end Directions

/-! ## One region -/

/-- The regions whose bounds are exact, in a rule of `n` dimensions.  Each coordinate is affine in
    an offset variable with an index among its own, in no two the same; its corners rise, or fall
    together; and the coordinate with that index has the same slope.  For what is written, the
    slope divides the bound.  Other coordinates are in the matrix anyway. -/
structure Regular (M : Maxima A) (n : Nat) (r : Region F) (isOutput : Bool)
    (shape : Nat → Shape Z) : Prop where
  fits : ∀ d c, r.coords[d]? = some c → Fits A c (shape d)
  own : ∀ d < r.dimensions, ∀ v, (shape d).axis = some v → v < r.dimensions ∧ v < n
  once : ∀ d < r.dimensions, ∀ d' < r.dimensions, ∀ v, (shape d).axis = some v →
    (shape d').axis = some v → d' = d
  signs : ∀ d < r.dimensions, (shape d).axis ≠ none → (shape d).Signs
  step : ∀ d < r.dimensions, ∀ v, (shape d).axis = some v →
    (shape v).step = |(shape d).maxSlope|
  divides : isOutput = true → ∀ d < r.dimensions, (shape d).axis ≠ none → ∀ s, M.Assumed s →
    |(shape d).maxSlope| ∣ (shape d).reach s.1 + 1
  constants : ∀ d < r.dimensions, (shape d).axis = none → ∀ s, M.Assumed s → (shape d).Inside s
  unused : ∀ d < n, ∀ c, r.coords[d]? = some c →
    (∃ d' < r.dimensions, (shape d').axis = some d) ∨ (isOutput = false
      ∧ (A.freeVars c.minCoord = ∅ → ∀ s, M.Assumed s → (shape d).low s ≤ 0))

omit [DecidableEq F] in
theorem lt_dimensions {d : Nat} (hd : r.coords[d]? = some c) : d < r.dimensions := by
  obtain ⟨hlt, -⟩ := List.getElem?_eq_some_iff.mp hd
  exact hlt

theorem atLeast_coe (q : ℚ) (x : ℤ) : AtLeast (q : WithTop ℚ) x ↔ truncate q ≤ x := by
  constructor
  · rintro ⟨p, hp, hle⟩
    rwa [WithTop.coe_inj.mp hp]
  · exact fun hle => ⟨q, rfl, hle⟩

theorem below_coe (q : ℚ) (x : ℤ) : Below (q : WithTop ℚ) x ↔ x < truncate q := by
  constructor
  · exact fun h => h q rfl
  · intro hlt p hp
    rwa [← WithTop.coe_inj.mp hp]

theorem below_top (x : ℤ) : Below ⊤ x := by
  intro q hq
  cases hq

namespace Regular

variable {n : Nat} {isOutput : Bool} {shape : Nat → Shape Z} {d i : Nat} {ci : Coordinate F}

omit [DecidableEq F] in
theorem signs_of (hr : Regular M n r isOutput shape) (hd : r.coords[d]? = some c)
    (hi : (shape d).axis = some i) : (shape d).Signs :=
  hr.signs d (lt_dimensions hd) (by rw [hi]; exact Option.some_ne_none i)

omit [DecidableEq F] in
/-- The equation of a variable, where the equations of the coordinates mention theirs. -/
theorem filter_defs (hr : Regular M n r isOutput shape) {e : Coordinate F → F × F}
    (he : ∀ d c, r.coords[d]? = some c → (mentions A i (e c) = true ↔ (shape d).axis = some i))
    (hd : r.coords[d]? = some c) (hi : (shape d).axis = some i) :
    (r.coords.map e).filter (mentions A i) = [e c] := by
  refine filter_eq_singleton (d := d) ?_ ((he d c hd).mpr hi) ?_
  · rw [List.getElem?_map, hd]
    rfl
  · intro d' e' hd' hm
    rw [List.getElem?_map] at hd'
    obtain ⟨c', hc', rfl⟩ := Option.map_eq_some_iff.mp hd'
    exact hr.once d (lt_dimensions hd) d' (lt_dimensions hc') i hi ((he d' c' hc').mp hm)

omit [DecidableEq F] in
/-- The variables that occur in the equations are those of the coordinates. -/
theorem any_defs {e : Coordinate F → F × F}
    (he : ∀ d c, r.coords[d]? = some c → (mentions A i (e c) = true ↔ (shape d).axis = some i)) :
    (r.coords.map e).any (mentions A i) = true
      ↔ ∃ d' < r.dimensions, (shape d').axis = some i := by
  rw [List.any_eq_true]
  constructor
  · rintro ⟨e', he', hm⟩
    obtain ⟨c, hc, rfl⟩ := List.mem_map.mp he'
    obtain ⟨d', hd'⟩ := List.getElem?_of_mem hc
    exact ⟨d', lt_dimensions hd', (he d' c hd').mp hm⟩
  · rintro ⟨d', hlt, hi⟩
    have hd' : r.coords[d']? = some r.coords[d'] := List.getElem?_eq_getElem hlt
    exact ⟨_, List.mem_map.mpr ⟨_, List.mem_of_getElem? hd', rfl⟩, (he d' _ hd').mpr hi⟩

theorem mentions_minDef (hr : Regular M n r isOutput shape) (i : Nat) :
    ∀ d c, r.coords[d]? = some c →
      (mentions A i (minDef M r c) = true ↔ (shape d).axis = some i) :=
  fun d c hd => (hr.fits d c hd).mentions_minDef i

theorem mentions_maxDef (hr : Regular M n r isOutput shape) (i : Nat) :
    ∀ d c, r.coords[d]? = some c →
      (mentions A i (maxDef M r c) = true ↔ (shape d).axis = some i) :=
  fun d c hd => (hr.fits d c hd).mentions_maxDef i

variable [Nonempty Z]

theorem falls_iff (hr : Regular M n r isOutput shape) (hd : r.coords[d]? = some c) :
    falls M r c = true ↔ (shape d).maxSlope < 0 :=
  (hr.fits d c hd).falls_iff fun v hv => (hr.own d (lt_dimensions hd) v hv).1

/-- **THE LOWER BOUND** of a variable that occurs: the first corner is in the matrix. -/
theorem lowerBound_used (hr : Regular M n r isOutput shape) (hd : r.coords[d]? = some c)
    (hi : (shape d).axis = some i) (ci : Coordinate F) :
    ∃ f, lowerBound M r i ci = some f
      ∧ (∀ s, 0 ≤ s.2 i → (AtLeast (A.eval f s) (s.2 i) ↔ (shape d).FirstIn s))
      ∧ ∀ s, 0 ≤ (shape d).first s.1 → AtLeast (A.eval f s) (s.2 i) → 0 ≤ s.2 i := by
  have hs := hr.signs_of hd hi
  obtain ⟨f, hsolve, heval⟩ := (hr.fits d c hd).solve_minDef hs hi (hr.falls_iff hd)
  obtain ⟨D, hD, hceil⟩ := A.eval_staticCeiling f
  refine ⟨A.staticCeiling f, ?_, fun s hx => ?_, fun s hfirst => ?_⟩
  · rw [lowerBound, minDefs,
      if_pos ((any_defs (hr.mentions_minDef i)).mpr ⟨d, lt_dimensions hd, hi⟩),
      retrySolve_single (hr.filter_defs (hr.mentions_minDef i) hd hi) hsolve]
    rfl
  · obtain ⟨hint, heq⟩ := hceil s _ (heval s)
    rw [heq, atLeast_coe, truncate_add_le_iff hD hint hx, Shape.first_le_iff hs hi]
  · obtain ⟨hint, heq⟩ := hceil s _ (heval s)
    rw [heq, atLeast_coe, truncate_add_of_nonneg hD hint hfirst]
    exact (Int.ceil_nonneg hfirst).trans

/-- **THE UPPER BOUND** of a variable that occurs: the last corner is in the matrix. -/
theorem upperBound_used (hr : Regular M n r isOutput shape) (hd : r.coords[d]? = some c)
    (hi : (shape d).axis = some i) (hci : r.coords[i]? = some ci) :
    ∃ f, upperBound M r isOutput i ci = some f ∧ ∀ s, M.Assumed s → 0 ≤ s.2 i →
      (Below (A.eval f s) (s.2 i) ↔ (shape d).LastIn s) := by
  have hs := hr.signs_of hd hi
  have hdim := lt_dimensions hd
  obtain ⟨f, hsolve, heval⟩ := (hr.fits d c hd).solve_maxDef hs hi (hr.falls_iff hd)
  have hbeyond : ∀ s, A.eval (beyond M r ci f) s
      = (((shape d).reach s.1 + 1 : ℤ) / (|(shape d).maxSlope| : ℤ) : ℚ) := by
    intro s
    rw [(hr.fits i ci hci).eval_beyond (fun v hv => (hr.own i (lt_dimensions hci) v hv).1)
      (fun hne => (hr.signs i (lt_dimensions hci) hne).maxSlope_ne_zero) (heval s),
      hr.step d hdim i hi, Shape.last_add hs]
  refine ⟨round A isOutput (beyond M r ci f), ?_, fun s hassumed hx => ?_⟩
  · rw [upperBound, maxDefs, if_pos ((any_defs (hr.mentions_maxDef i)).mpr ⟨d, hdim, hi⟩),
      retrySolve_single (hr.filter_defs (hr.mentions_maxDef i) hd hi) hsolve]
    rfl
  · rw [← Shape.lt_beyond_iff hs hi]
    cases ho : isOutput with
    | false =>
        obtain ⟨D, hD, hceil⟩ := A.eval_staticCeiling (beyond M r ci f)
        obtain ⟨hint, heq⟩ := hceil s _ (hbeyond s)
        rw [show round A false (beyond M r ci f) = A.staticCeiling (beyond M r ci f) from rfl,
          heq, below_coe, lt_truncate_add_iff hD hint hx]
    | true =>
        -- the slope divides the bound, so nothing is rounded
        obtain ⟨t, ht⟩ := hr.divides ho d hdim (by rw [hi]; exact Option.some_ne_none i) s hassumed
        have hne : ((|(shape d).maxSlope| : ℤ) : ℚ) ≠ 0 :=
          Int.cast_ne_zero.mpr (abs_ne_zero.mpr hs.maxSlope_ne_zero)
        have hquot : (((shape d).reach s.1 + 1 : ℤ) : ℚ) / (|(shape d).maxSlope| : ℤ) = t := by
          rw [ht, Int.cast_mul, mul_div_cancel_left₀ _ hne]
        rw [show round A true (beyond M r ci f) = A.normalize (beyond M r ci f) from rfl,
          A.eval_normalize, hbeyond, hquot, below_coe, truncate_intCast, Int.cast_lt]

omit [Nonempty Z] in
/-- A variable that does not occur is not bounded. -/
theorem bounds_unused (hr : Regular M n r isOutput shape) (hci : r.coords[i]? = some ci)
    (hno : ¬ ∃ d' < r.dimensions, (shape d').axis = some i) :
    ∃ f g, lowerBound M r i ci = some f ∧ upperBound M r isOutput i ci = some g
      ∧ (i < n → ∀ s, M.Assumed s → 0 ≤ s.2 i →
        AtLeast (A.eval f s) (s.2 i) ∧ Below (A.eval g s) (s.2 i)) := by
  rw [lowerBound, upperBound, minDefs, maxDefs, if_neg (fun h => hno ((any_defs
    (hr.mentions_minDef i)).mp h)), if_neg (fun h => hno ((any_defs (hr.mentions_maxDef i)).mp h))]
  have hused : i < n → isOutput = false
      ∧ (A.freeVars ci.minCoord = ∅ → ∀ s, M.Assumed s → (shape i).low s ≤ 0) :=
    fun hin => (hr.unused i hin ci hci).resolve_left hno
  obtain ⟨f, hf, hlow⟩ : ∃ f, (if A.freeVars ci.minCoord = ∅ then some ci.minCoord
      else some (A.integer 0)) = some f ∧ (i < n → ∀ s, M.Assumed s → 0 ≤ s.2 i →
        AtLeast (A.eval f s) (s.2 i)) := by
    by_cases hfree : A.freeVars ci.minCoord = ∅
    -- a number becomes the lower bound of the variable at its position
    · refine ⟨ci.minCoord, if_pos hfree, fun hin s hs hx => ?_⟩
      rw [(hr.fits i ci hci).low, atLeast_coe, truncate_intCast]
      exact ((hused hin).2 hfree s hs).trans hx
    · refine ⟨A.integer 0, if_neg hfree, fun _ s _ hx => ?_⟩
      rw [A.eval_integer, atLeast_coe, truncate_intCast]
      exact hx
  obtain ⟨g, hg, hup⟩ : ∃ g, (if A.freeVars ci.maxCoord = ∅ then
      some (A.normalize (if isOutput then A.add ci.maxCoord (A.integer 1) else A.inf))
      else if isOutput then some ci.sizeOfDimension else some A.inf) = some g
        ∧ (i < n → ∀ s, A.eval g s = ⊤) := by
    cases ho : isOutput with
    | false =>
        by_cases hfree : A.freeVars ci.maxCoord = ∅
        · exact ⟨A.normalize A.inf, if_pos hfree,
            fun _ s => (A.eval_normalize _ s).trans (A.eval_inf s)⟩
        · exact ⟨A.inf, if_neg hfree, fun _ => A.eval_inf⟩
    | true =>
        -- for what is written, this happens beyond the dimensions of the rule only
        have hin : ¬ i < n := fun hin => Bool.noConfusion (ho.symm.trans (hused hin).1)
        by_cases hfree : A.freeVars ci.maxCoord = ∅
        · exact ⟨_, if_pos hfree, fun h => absurd h hin⟩
        · exact ⟨_, if_neg hfree, fun h => absurd h hin⟩
  refine ⟨f, g, hf, hg, fun hin s hs hx => ⟨hlow hin s hs hx, ?_⟩⟩
  rw [hup hin]
  exact below_top _

/-- **THE BOUNDS OF A VARIABLE** say that its coordinate is in the matrix. -/
theorem exists_bounds (hr : Regular M n r isOutput shape) (hci : r.coords[i]? = some ci) :
    ∃ f g, lowerBound M r i ci = some f ∧ upperBound M r isOutput i ci = some g
      ∧ (i < n → ∀ s, M.Assumed s → 0 ≤ s.2 i →
        ((AtLeast (A.eval f s) (s.2 i) ∧ Below (A.eval g s) (s.2 i))
          ↔ ∀ d < r.dimensions, (shape d).axis = some i → (shape d).Inside s)) := by
  by_cases hused : ∃ d < r.dimensions, (shape d).axis = some i
  · obtain ⟨d, hlt, hi⟩ := hused
    have hd : r.coords[d]? = some r.coords[d] := List.getElem?_eq_getElem hlt
    obtain ⟨f, hf, hlow, -⟩ := hr.lowerBound_used hd hi ci
    obtain ⟨g, hg, hup⟩ := hr.upperBound_used hd hi hci
    refine ⟨f, g, hf, hg, fun _ s hs hx => ?_⟩
    rw [hlow s hx, hup s hs hx, ← Shape.inside_iff]
    constructor
    -- no other coordinate mentions the variable
    · intro hin d' hlt' hi'
      rw [hr.once d hlt d' hlt' i hi hi']
      exact hin
    · exact fun hall => hall d hlt hi
  · obtain ⟨f, g, hf, hg, hbounds⟩ := hr.bounds_unused hci hused
    refine ⟨f, g, hf, hg, fun hin s hs hx => iff_of_true (hbounds hin s hs hx) ?_⟩
    exact fun d hlt hi => absurd ⟨d, hlt, hi⟩ hused

end Regular

omit [DecidableEq F] in
/-- The regions in their matrices, by their shapes. -/
theorem inside_iff_shapes {shape : Nat → Shape Z}
    (hfits : ∀ d c, r.coords[d]? = some c → Fits A c (shape d)) (s : Z × Cell) :
    r.Inside A s ↔ ∀ d < r.dimensions, (shape d).Inside s := by
  constructor
  · intro hin d hlt
    have hd : r.coords[d]? = some r.coords[d] := List.getElem?_eq_getElem hlt
    exact ((hfits d _ hd).inside_iff s).mp (hin _ (List.mem_of_getElem? hd))
  · intro hin c hc
    obtain ⟨d, hd⟩ := List.getElem?_of_mem hc
    exact ((hfits d c hd).inside_iff s).mpr (hin d (lt_dimensions hd))

/-- The list of bounds exists if all of them do. -/
theorem exists_bounds_list {isOutput : Bool} {i : Nat} {cs : List (Coordinate F)}
    (h : ∀ j c, cs[j]? = some c → ∃ f g, lowerBound M r (i + j) c = some f
      ∧ upperBound M r isOutput (i + j) c = some g) :
    ∃ l, bounds M r isOutput i cs = some l ∧ l.length = cs.length
      ∧ ∀ j c, cs[j]? = some c → ∃ f g, lowerBound M r (i + j) c = some f
        ∧ upperBound M r isOutput (i + j) c = some g ∧ l[j]? = some (f, g) := by
  induction cs generalizing i with
  | nil => exact ⟨[], rfl, rfl, fun j c hc => by cases hc⟩
  | cons c cs ih =>
      obtain ⟨f, g, hf, hg⟩ := h 0 c rfl
      rw [Nat.add_zero] at hf hg
      obtain ⟨l, hl, hlen, hget⟩ := ih (i := i + 1) fun j c' hc' => by
        have hj := h (j + 1) c' hc'
        rwa [show i + (j + 1) = i + 1 + j by omega] at hj
      refine ⟨(f, g) :: l, ?_, congrArg Nat.succ hlen, fun j c' hc' => ?_⟩
      · rw [bounds, hf, hg, hl]
        rfl
      · cases j with
        | zero =>
            cases hc'
            exact ⟨f, g, hf, hg, rfl⟩
        | succ j =>
            obtain ⟨f', g', hf', hg', hj⟩ := hget j c' hc'
            rw [show i + 1 + j = i + (j + 1) by omega] at hf' hg'
            exact ⟨f', g', hf', hg', hj⟩

/-- The bounds of the variables are the shapes in the matrix. -/
theorem Regular.admits_iff [Nonempty Z] {n : Nat} {isOutput : Bool} {shape : Nat → Shape Z}
    (hr : Regular M n r isOutput shape) {l : List (F × F)} (hlen : l.length = r.coords.length)
    (hget : ∀ j c, r.coords[j]? = some c → ∃ f g, lowerBound M r (0 + j) c = some f
      ∧ upperBound M r isOutput (0 + j) c = some g ∧ l[j]? = some (f, g))
    {s : Z × Cell} (hs : M.Assumed s) (hx : ∀ d < n, 0 ≤ s.2 d) :
    Admits A n ⟨l⟩ s ↔ ∀ d < r.dimensions, (shape d).Inside s := by
  constructor
  · intro hadmits d hlt
    cases hv : (shape d).axis with
    | none => exact hr.constants d hlt hv s hs
    | some v =>
        obtain ⟨hvr, hvn⟩ := hr.own d hlt v hv
        have hc : r.coords[v]? = some r.coords[v] := List.getElem?_eq_getElem hvr
        obtain ⟨f, g, hf, hg, hbounds⟩ := hr.exists_bounds hc
        obtain ⟨f', g', hf', hg', hj⟩ := hget v _ hc
        rw [Nat.zero_add] at hf' hg'
        cases hf.symm.trans hf'
        cases hg.symm.trans hg'
        exact (hbounds hvn s hs (hx v hvn)).mp (hadmits v hvn _ hj) d hlt hv
  · intro hin v hvn e he
    have hvr : v < r.dimensions := by
      obtain ⟨hlt, -⟩ := List.getElem?_eq_some_iff.mp he
      exact lt_of_lt_of_eq hlt hlen
    have hc : r.coords[v]? = some r.coords[v] := List.getElem?_eq_getElem hvr
    obtain ⟨f, g, hf, hg, hbounds⟩ := hr.exists_bounds hc
    obtain ⟨f', g', hf', hg', hj⟩ := hget v _ hc
    rw [Nat.zero_add] at hf' hg'
    cases hf.symm.trans hf'
    cases hg.symm.trans hg'
    cases he.symm.trans hj
    exact (hbounds hvn s hs (hx v hvn)).mpr fun d hlt _ => hin d hlt

/-- **THE BOUNDS OF ONE REGION ARE EXACT** over points that are not negative, and where the first
    point of a coordinate is not, they say so. -/
theorem Regular.exact [Nonempty Z] {n : Nat} {isOutput : Bool} {shape : Nat → Shape Z}
    (hr : Regular M n r isOutput shape) :
    ∃ t, getApplicableRegion M r isOutput = some t ∧ t.dimensions = r.dimensions
      ∧ (∀ s, M.Assumed s → (∀ d < n, 0 ≤ s.2 d) → (Admits A n t s ↔ r.Inside A s))
      ∧ ∀ s, Admits A n t s → ∀ d < r.dimensions, ∀ v, (shape d).axis = some v →
        0 ≤ (shape d).first s.1 → 0 ≤ s.2 v := by
  have hexists : ∀ j c, r.coords[j]? = some c → ∃ f g, lowerBound M r (0 + j) c = some f
      ∧ upperBound M r isOutput (0 + j) c = some g := by
    intro j c hc
    obtain ⟨f, g, hf, hg, -⟩ := hr.exists_bounds hc
    rw [Nat.zero_add]
    exact ⟨f, g, hf, hg⟩
  obtain ⟨l, hl, hlen, hget⟩ := exists_bounds_list hexists
  refine ⟨⟨l⟩, by rw [getApplicableRegion, hl]; rfl, hlen, fun s hs hx => ?_,
    fun s hadmits d hlt v hv hfirst => ?_⟩
  · rw [inside_iff_shapes hr.fits]
    exact hr.admits_iff hlen hget hs hx
  · obtain ⟨hvr, hvn⟩ := hr.own d hlt v hv
    have hc : r.coords[v]? = some r.coords[v] := List.getElem?_eq_getElem hvr
    have hd : r.coords[d]? = some r.coords[d] := List.getElem?_eq_getElem hlt
    obtain ⟨f, hf, -, hzero⟩ := hr.lowerBound_used hd hv r.coords[v]
    obtain ⟨f', g', hf', -, hj⟩ := hget v _ hc
    rw [Nat.zero_add] at hf'
    cases hf.symm.trans hf'
    exact hzero s hfirst (hadmits v hvn _ hj).1

end PbApplicableRegion
