import PetaBricks.DependencyDirectionProofs
import Mathlib.Algebra.BigOperators.Group.Finset.Piecewise
import Mathlib.Algebra.Order.BigOperators.Group.Finset

/-! # Covering every access

    The region that is recorded for an access is found by putting the lowest iteration point into
    its lower corner and the highest into its upper one, or the other way round where the upper
    corner is found to fall with its variable.  That covers the access at every point if both
    corners rise with every offset variable, or fall.

    A union takes the second of two corners unless the first is known to be the outer one.  So it
    covers both regions if what is not known does not matter. -/

namespace PbRegionDependency

open PbOrderedMap PbMergingMap PbScheduler PbMaxima PbDataDependency

variable {F Z : Type} {A : Formulas F Z}

/-! ## The corners of the iteration space -/

/-- Formulas of the sizes alone. -/
def Closed (A : Formulas F Z) (f : F) : Prop := ∀ z x y, A.eval f (z, x) = A.eval f (z, y)

/-- A point where the coordinates from dimension `k` on are replaced by definitions. -/
def replaced (A : Formulas F Z) (z : Z) (k : Nat) (defs : List F) (x : Cell) : Cell := fun d =>
  if k ≤ d then (defs[d - k]?).elim (x d) fun g => A.eval g (z, x) else x d

theorem replaced_nil (z : Z) (k : Nat) (x : Cell) : replaced A z k [] x = x := by
  ext d
  show (if k ≤ d then _ else _) = _
  split_ifs <;> rfl

theorem replaced_cons (z : Z) (k : Nat) (g : F) (defs : List F) (x : Cell) :
    replaced A z k (g :: defs) x
      = Function.update (replaced A z (k + 1) defs x) k (A.eval g (z, x)) := by
  ext d
  by_cases hd : d = k
  · subst hd
    rw [Function.update_self]
    show (if d ≤ d then _ else _) = _
    rw [if_pos le_rfl, Nat.sub_self]
    rfl
  · rw [Function.update_of_ne hd]
    show (if k ≤ d then _ else _) = (if k + 1 ≤ d then _ else _)
    by_cases hk : k ≤ d
    -- a later dimension, whose definition is further on in the list
    · obtain ⟨j, rfl⟩ : ∃ j, d = k + 1 + j := ⟨d - (k + 1), by omega⟩
      rw [if_pos hk, if_pos (by omega), Nat.add_sub_cancel_left,
        show k + 1 + j - k = j + 1 by omega]
      rfl
    · rw [if_neg hk, if_neg (by omega)]

/-- **SUBSTITUTING THE DEFINITIONS** one after the other is moving the point, as none of them
    mentions an offset variable. -/
theorem eval_makeRelativeTo {defs : List F} (hdefs : ∀ g ∈ defs, Closed A g) (k : Nat) (f : F)
    (z : Z) (x : Cell) :
    A.eval (makeRelativeTo A k defs f) (z, x) = A.eval f (z, replaced A z k defs x) := by
  induction defs generalizing k f with
  | nil =>
      rw [replaced_nil]
      rfl
  | cons g defs ih =>
      have hg : Closed A g := hdefs g List.mem_cons_self
      show A.eval (makeRelativeTo A (k + 1) defs
        (if .offset k ∈ A.freeVars f then A.subst k g f else f)) (z, x) = _
      rw [ih (fun g' hg' => hdefs g' (List.mem_cons_of_mem _ hg')), replaced_cons]
      by_cases hk : .offset k ∈ A.freeVars f
      · rw [if_pos hk, A.eval_subst, hg z _ x]
      -- the variable does not occur, so that it does not matter
      · rw [if_neg hk]
        refine A.eval_congr f z _ _ fun d hd => ?_
        rw [Function.update_of_ne]
        rintro rfl
        exact hk hd

/-- The iteration points of a rule, at some sizes. -/
def InApplicable (A : Formulas F Z) (applicable : SimpleRegion F) (z : Z) (x : Cell) : Prop :=
  A.Contains applicable (z, x) x

/-- The bounds of an iteration space are formulas of the sizes. -/
def BoundsClosed (A : Formulas F Z) (applicable : SimpleRegion F) : Prop :=
  ∀ c ∈ applicable.coords, Closed A c.1 ∧ Closed A c.2

/-- The point with the lowest coordinate in each dimension of the iteration space. -/
def lowest (A : Formulas F Z) (applicable : SimpleRegion F) (z : Z) (x : Cell) : Cell :=
  replaced A z 0 (applicable.coords.map Prod.fst) x

/-- The point with the highest coordinates. -/
def highest (A : Formulas F Z) (applicable : SimpleRegion F) (z : Z) (x : Cell) : Cell :=
  replaced A z 0 (applicable.coords.map fun b => A.subtract b.2 (A.integer 1)) x

theorem replaced_zero (z : Z) (defs : List F) (x : Cell) (d : Nat) :
    replaced A z 0 defs x d = (defs[d]?).elim (x d) fun g => A.eval g (z, x) :=
  if_pos (Nat.zero_le d)

theorem lowest_of_some {applicable : SimpleRegion F} {d : Nat} {c : F × F}
    (hc : applicable.coords[d]? = some c) (z : Z) (x : Cell) :
    lowest A applicable z x d = A.eval c.1 (z, x) := by
  rw [lowest, replaced_zero, List.getElem?_map, hc]
  rfl

theorem lowest_of_none {applicable : SimpleRegion F} {d : Nat}
    (hc : applicable.coords[d]? = none) (z : Z) (x : Cell) :
    lowest A applicable z x d = x d := by
  rw [lowest, replaced_zero, List.getElem?_map, hc]
  rfl

theorem highest_of_some {applicable : SimpleRegion F} {d : Nat} {c : F × F}
    (hc : applicable.coords[d]? = some c) (z : Z) (x : Cell) :
    highest A applicable z x d = A.eval c.2 (z, x) - 1 := by
  rw [highest, replaced_zero, List.getElem?_map, hc]
  show A.eval (A.subtract c.2 (A.integer 1)) (z, x) = _
  rw [A.eval_subtract, A.eval_integer]

theorem highest_of_none {applicable : SimpleRegion F} {d : Nat}
    (hc : applicable.coords[d]? = none) (z : Z) (x : Cell) :
    highest A applicable z x d = x d := by
  rw [highest, replaced_zero, List.getElem?_map, hc]
  rfl

section IterationSpace

variable {applicable : SimpleRegion F} {z : Z} {x : Cell}

theorem lowest_le (hx : InApplicable A applicable z x) (d : Nat) :
    lowest A applicable z x d ≤ x d := by
  cases hc : applicable.coords[d]? with
  | none => exact le_of_eq (lowest_of_none hc z x)
  | some c =>
      rw [lowest_of_some hc]
      exact (hx d c hc).1

theorem le_highest (hx : InApplicable A applicable z x) (d : Nat) :
    x d ≤ highest A applicable z x d := by
  cases hc : applicable.coords[d]? with
  | none => exact le_of_eq (highest_of_none hc z x).symm
  | some c =>
      rw [highest_of_some hc]
      have hlt := (hx d c hc).2
      omega

theorem mem_coords {c : F × F} {d : Nat} (hc : applicable.coords[d]? = some c) :
    c ∈ applicable.coords :=
  List.mem_of_getElem? hc

/-- The lowest and the highest point are iteration points, if there is any. -/
theorem inApplicable_lowest (hclosed : BoundsClosed A applicable)
    (hx : InApplicable A applicable z x) :
    InApplicable A applicable z (lowest A applicable z x) := by
  intro d c hc
  obtain ⟨hlow, hhigh⟩ := hclosed c (mem_coords hc)
  obtain ⟨h1, h2⟩ := hx d c hc
  rw [lowest_of_some hc, hhigh z _ x, hlow z (lowest A applicable z x) x]
  exact ⟨le_rfl, lt_of_le_of_lt h1 h2⟩

theorem inApplicable_highest (hclosed : BoundsClosed A applicable)
    (hx : InApplicable A applicable z x) :
    InApplicable A applicable z (highest A applicable z x) := by
  intro d c hc
  obtain ⟨hlow, hhigh⟩ := hclosed c (mem_coords hc)
  obtain ⟨h1, h2⟩ := hx d c hc
  rw [highest_of_some hc, hlow z (highest A applicable z x) x, hhigh z (highest A applicable z x) x]
  constructor <;> omega

end IterationSpace

/-! ## One region -/

/-- A coordinate grows with the iteration point. -/
def Rises (A : Formulas F Z) (applicable : SimpleRegion F) (f : F) : Prop :=
  ∀ z x y, InApplicable A applicable z x → InApplicable A applicable z y → (∀ d, x d ≤ y d) →
    A.eval f (z, x) ≤ A.eval f (z, y)

/-- A coordinate shrinks with the iteration point. -/
def Falls (A : Formulas F Z) (applicable : SimpleRegion F) (f : F) : Prop :=
  ∀ z x y, InApplicable A applicable z x → InApplicable A applicable z y → (∀ d, x d ≤ y d) →
    A.eval f (z, y) ≤ A.eval f (z, x)

/-- Formulas affine in the offset variables, with these coefficients. -/
def Affine (A : Formulas F Z) (f : F) (a : Nat → Int) (n : Nat) : Prop :=
  ∃ b : Z → Int, ∀ z x, A.eval f (z, x) = (∑ d ∈ Finset.range n, a d * x d) + b z

theorem Affine.rises {f : F} {a : Nat → Int} {n : Nat} (h : Affine A f a n)
    (ha : ∀ d < n, 0 ≤ a d) (applicable : SimpleRegion F) : Rises A applicable f := by
  obtain ⟨b, hb⟩ := h
  intro z x y _ _ hxy
  rw [hb, hb]
  refine Int.add_le_add_right (Finset.sum_le_sum fun d hd => ?_) _
  exact Int.mul_le_mul_of_nonneg_left (hxy d) (ha d (Finset.mem_range.mp hd))

theorem Affine.falls {f : F} {a : Nat → Int} {n : Nat} (h : Affine A f a n)
    (ha : ∀ d < n, a d ≤ 0) (applicable : SimpleRegion F) : Falls A applicable f := by
  obtain ⟨b, hb⟩ := h
  intro z x y _ _ hxy
  rw [hb, hb]
  refine Int.add_le_add_right (Finset.sum_le_sum fun d hd => ?_) _
  exact Int.mul_le_mul_of_nonpos_left (ha d (Finset.mem_range.mp hd)) (hxy d)

/-- The offset variables of a region are those of the iteration space. -/
def OwnVariables (A : Formulas F Z) (applicable : SimpleRegion F) (r : SimpleRegion F) : Prop :=
  ∀ c ∈ r.coords, ∀ d, .offset d ∈ A.freeVars c.1 ∪ A.freeVars c.2 → d < applicable.dimensions

variable {applicable : SimpleRegion F}

/-- Where the point starts from does not matter to a formula over the iteration space. -/
theorem eval_lowest (hclosed : BoundsClosed A applicable) {f : F}
    (hf : ∀ d, .offset d ∈ A.freeVars f → d < applicable.dimensions) (z : Z) (x y : Cell) :
    A.eval f (z, lowest A applicable z y) = A.eval f (z, lowest A applicable z x) := by
  refine A.eval_congr f z _ _ fun d hd => ?_
  obtain ⟨c, hc⟩ : ∃ c, applicable.coords[d]? = some c := ⟨_, List.getElem?_eq_getElem (hf d hd)⟩
  rw [lowest_of_some hc, lowest_of_some hc]
  exact (hclosed _ (mem_coords hc)).1 z y x

theorem eval_highest (hclosed : BoundsClosed A applicable) {f : F}
    (hf : ∀ d, .offset d ∈ A.freeVars f → d < applicable.dimensions) (z : Z) (x y : Cell) :
    A.eval f (z, highest A applicable z y) = A.eval f (z, highest A applicable z x) := by
  refine A.eval_congr f z _ _ fun d hd => ?_
  obtain ⟨c, hc⟩ : ∃ c, applicable.coords[d]? = some c := ⟨_, List.getElem?_eq_getElem (hf d hd)⟩
  rw [highest_of_some hc, highest_of_some hc, (hclosed _ (mem_coords hc)).2 z y x]

variable [DecidableEq F] {M : Maxima A}

/-- The corners of a region move as they are taken to. -/
def SlopeSafe (M : Maxima A) (applicable : SimpleRegion F) (r : SimpleRegion F) : Prop :=
  ∀ c ∈ r.coords, if fallsWith M r.dimensions c then
    Falls A applicable c.1 ∧ Falls A applicable c.2
  else Rises A applicable c.1 ∧ Rises A applicable c.2

/-- Affine corners move as they are taken to if no coefficient has the other sign. -/
theorem slopeSafe_of_affine {r : SimpleRegion F} (n : Nat)
    (h : ∀ c ∈ r.coords, ∃ a a', Affine A c.1 a n ∧ Affine A c.2 a' n
      ∧ ∀ d < n, if fallsWith M r.dimensions c then a d ≤ 0 ∧ a' d ≤ 0 else 0 ≤ a d ∧ 0 ≤ a' d) :
    SlopeSafe M applicable r := by
  intro c hc
  obtain ⟨a, a', h1, h2, hsign⟩ := h c hc
  split_ifs at hsign ⊢ with hf
  · exact ⟨h1.falls (fun d hd => (hsign d hd).1) applicable,
      h2.falls (fun d hd => (hsign d hd).2) applicable⟩
  · exact ⟨h1.rises (fun d hd => (hsign d hd).1) applicable,
      h2.rises (fun d hd => (hsign d hd).2) applicable⟩

/-- The corners of the recorded region, in one dimension. -/
theorem eval_absoluteCoord (hclosed : BoundsClosed A applicable) (n : Nat) (c : F × F) (z : Z)
    (y : Cell) :
    (A.eval (absoluteCoord M applicable.coords n c).1 (z, y)
      = if fallsWith M n c then A.eval c.1 (z, highest A applicable z y)
        else A.eval c.1 (z, lowest A applicable z y))
    ∧ (A.eval (absoluteCoord M applicable.coords n c).2 (z, y)
      = if fallsWith M n c then A.eval c.2 (z, lowest A applicable z y)
        else A.eval c.2 (z, highest A applicable z y)) := by
  have hmin : ∀ g ∈ applicable.coords.map Prod.fst, Closed A g := by
    intro g hg
    obtain ⟨c, hc, rfl⟩ := List.mem_map.mp hg
    exact (hclosed c hc).1
  have hmax : ∀ g ∈ applicable.coords.map fun b => A.subtract b.2 (A.integer 1), Closed A g := by
    intro g hg
    obtain ⟨c, hc, rfl⟩ := List.mem_map.mp hg
    intro z x y
    rw [A.eval_subtract, A.eval_subtract, A.eval_integer, A.eval_integer, (hclosed c hc).2 z x y]
  rw [absoluteCoord, lowest, highest]
  by_cases hf : fallsWith M n c = true
  · simp only [hf, if_true]
    exact ⟨eval_makeRelativeTo hmax 0 c.1 z y, eval_makeRelativeTo hmin 0 c.2 z y⟩
  · simp only [hf]
    exact ⟨eval_makeRelativeTo hmin 0 c.1 z y, eval_makeRelativeTo hmax 0 c.2 z y⟩

/-- **ONE ACCESS IS COVERED** by its recorded region, wherever the corners rise or fall as they are
    taken to: the region has the same bounds whatever the offset variables are. -/
theorem absolute_contains (hclosed : BoundsClosed A applicable) {r : SimpleRegion F}
    (hown : OwnVariables A applicable r) (hslope : SlopeSafe M applicable r) {z : Z}
    {x y cell : Cell} (hx : InApplicable A applicable z x)
    (hcell : A.Contains r (z, x) cell) :
    A.Contains (absolute M applicable r) (z, y) cell := by
  intro d c' hc'
  rw [absolute, List.getElem?_map] at hc'
  obtain ⟨c, hc, rfl⟩ := Option.map_eq_some_iff.mp hc'
  have hmem : c ∈ r.coords := List.mem_of_getElem? hc
  obtain ⟨h1, h2⟩ := hcell d c hc
  obtain ⟨e1, e2⟩ := eval_absoluteCoord hclosed r.dimensions c z y
  have hlow := inApplicable_lowest hclosed hx
  have hhigh := inApplicable_highest hclosed hx
  have hown1 : ∀ d, .offset d ∈ A.freeVars c.1 → d < applicable.dimensions :=
    fun d hd => hown c hmem d (Finset.mem_union_left _ hd)
  have hown2 : ∀ d, .offset d ∈ A.freeVars c.2 → d < applicable.dimensions :=
    fun d hd => hown c hmem d (Finset.mem_union_right _ hd)
  have hsafe := hslope c hmem
  show A.eval (absoluteCoord M applicable.coords r.dimensions c).1 (z, y) ≤ cell d
    ∧ cell d < A.eval (absoluteCoord M applicable.coords r.dimensions c).2 (z, y)
  rw [e1, e2]
  by_cases hf : fallsWith M r.dimensions c = true
  -- the lower corner was taken to the highest point, the upper one to the lowest
  · rw [if_pos hf] at hsafe
    rw [if_pos hf, if_pos hf, eval_highest hclosed hown1 z x y, eval_lowest hclosed hown2 z x y]
    exact ⟨(hsafe.1 z x _ hx hhigh (le_highest hx)).trans h1,
      lt_of_lt_of_le h2 (hsafe.2 z _ x hlow hx (lowest_le hx))⟩
  · rw [if_neg hf] at hsafe
    rw [if_neg hf, if_neg hf, eval_lowest hclosed hown1 z x y, eval_highest hclosed hown2 z x y]
    exact ⟨(hsafe.1 z _ x hlow hx (lowest_le hx)).trans h1,
      lt_of_lt_of_le h2 (hsafe.2 z x _ hx hhigh (le_highest hx))⟩

/-! ## Unions -/

/-- Taking the smaller of two lower corners gives the smaller one, at these points. -/
def LowerSafe (M : Maxima A) (P : Z × Cell → Prop) (a b : F) : Prop :=
  M.tryCompare a .le b = .YES ∨ ∀ s, P s → A.eval b s ≤ A.eval a s

/-- Taking the larger of two upper corners gives the larger one. -/
def UpperSafe (M : Maxima A) (P : Z × Cell → Prop) (a b : F) : Prop :=
  M.tryCompare a .ge b = .YES ∨ ∀ s, P s → A.eval a s ≤ A.eval b s

/-- The corners of two regions can be compared, or the second is the outer one anyway. -/
def UnionSafe (M : Maxima A) (P : Z × Cell → Prop) (a b : SimpleRegion F) : Prop :=
  ∀ (d : Nat) (p q : F × F), a.coords[d]? = some p → b.coords[d]? = some q →
    LowerSafe M P p.1 q.1 ∧ UpperSafe M P p.2 q.2

section Unions

variable {P : Z × Cell → Prop} {a b c v : SimpleRegion F}

theorem min_le {f g : F} (h : LowerSafe M P f g) {s : Z × Cell} (hP : P s) (hs : M.Assumed s) :
    A.eval (M.min f g) s ≤ A.eval f s ∧ A.eval (M.min f g) s ≤ A.eval g s := by
  rw [Maxima.min]
  by_cases hyes : M.tryCompare f .le g = .YES
  · rw [if_pos hyes]
    exact ⟨le_rfl, Maxima.holds_of_yes hyes hs⟩
  -- the second one is taken, and it is the smaller one
  · rw [if_neg hyes]
    exact ⟨(h.resolve_left hyes) s hP, le_rfl⟩

theorem le_max {f g : F} (h : UpperSafe M P f g) {s : Z × Cell} (hP : P s) (hs : M.Assumed s) :
    A.eval f s ≤ A.eval (M.max f g) s ∧ A.eval g s ≤ A.eval (M.max f g) s := by
  rw [Maxima.max]
  by_cases hyes : M.tryCompare f .ge g = .YES
  · rw [if_pos hyes]
    exact ⟨le_rfl, Maxima.holds_of_yes hyes hs⟩
  · rw [if_neg hyes]
    exact ⟨(h.resolve_left hyes) s hP, le_rfl⟩

/-- The corners of a union, in one dimension. -/
theorem regionUnion_coords (h : regionUnion M a b = some c) {d : Nat} {p : F × F}
    (hp : c.coords[d]? = some p) : ∃ p₁ p₂, a.coords[d]? = some p₁ ∧ b.coords[d]? = some p₂
      ∧ p = (M.min p₁.1 p₂.1, M.max p₁.2 p₂.2) := by
  rw [regionUnion] at h
  split_ifs at h with hd
  cases h
  obtain ⟨p₁, p₂, h1, h2, he⟩ := List.getElem?_zipWith_eq_some.mp hp
  exact ⟨p₁, p₂, h1, h2, he.symm⟩

/-- **A SAFE UNION** covers both regions. -/
theorem regionUnion_contains (h : regionUnion M a b = some c) (hsafe : UnionSafe M P a b)
    {s : Z × Cell} (hP : P s) (hs : M.Assumed s) {cell : Cell}
    (hcell : A.Contains a s cell ∨ A.Contains b s cell) : A.Contains c s cell := by
  intro d p hp
  obtain ⟨p₁, p₂, h1, h2, rfl⟩ := regionUnion_coords h hp
  obtain ⟨hlow, hup⟩ := hsafe d p₁ p₂ h1 h2
  obtain ⟨hmin1, hmin2⟩ := min_le hlow hP hs
  obtain ⟨hmax1, hmax2⟩ := le_max hup hP hs
  rcases hcell with hcell | hcell
  · obtain ⟨hl, hu⟩ := hcell d p₁ h1
    exact ⟨hmin1.trans hl, lt_of_lt_of_le hu hmax1⟩
  · obtain ⟨hl, hu⟩ := hcell d p₂ h2
    exact ⟨hmin2.trans hl, lt_of_lt_of_le hu hmax2⟩

/-- Each corner of a union is a corner of one of its parts, so that it has what all of theirs
    have. -/
theorem regionUnion_corners {Q R : F → Prop} (h : regionUnion M a b = some c) {d : Nat}
    (ha : ∀ p, a.coords[d]? = some p → Q p.1 ∧ R p.2)
    (hb : ∀ p, b.coords[d]? = some p → Q p.1 ∧ R p.2) {p : F × F}
    (hp : c.coords[d]? = some p) : Q p.1 ∧ R p.2 := by
  obtain ⟨p₁, p₂, h1, h2, rfl⟩ := regionUnion_coords h hp
  obtain ⟨hQ1, hR1⟩ := ha p₁ h1
  obtain ⟨hQ2, hR2⟩ := hb p₂ h2
  -- `min` and `max` return one of their operands, whatever the answer
  refine ⟨?_, ?_⟩
  · show Q (if _ then _ else _)
    split_ifs
    · exact hQ1
    · exact hQ2
  · show R (if _ then _ else _)
    split_ifs
    · exact hR1
    · exact hR2

theorem regionUnion_safe_left (h : regionUnion M a b = some c) (ha : UnionSafe M P a v)
    (hb : UnionSafe M P b v) : UnionSafe M P c v := by
  intro d p q hp hq
  exact regionUnion_corners (Q := fun f => LowerSafe M P f q.1)
    (R := fun f => UpperSafe M P f q.2) h (fun p hp => ha d p q hp hq)
    (fun p hp => hb d p q hp hq) hp

theorem regionUnion_safe_right (h : regionUnion M a b = some c) (ha : UnionSafe M P v a)
    (hb : UnionSafe M P v b) : UnionSafe M P v c := by
  intro d p q hp hq
  exact regionUnion_corners (Q := LowerSafe M P p.1) (R := UpperSafe M P p.2) h
    (fun q hq => ha d p q hp hq) (fun q hq => hb d p q hp hq) hq

/-- A region can be united with itself. -/
theorem unionSafe_refl (M : Maxima A) (P : Z × Cell → Prop) (a : SimpleRegion F) :
    UnionSafe M P a a := by
  intro d p q hp hq
  rw [hp] at hq
  cases hq
  exact ⟨.inr fun s _ => le_rfl, .inr fun s _ => le_rfl⟩

/-- One region has all the cells of another one, at these points. -/
def Covers (A : Formulas F Z) (P : Z × Cell → Prop) (c v : SimpleRegion F) : Prop :=
  ∀ s, P s → ∀ cell, A.Contains v s cell → A.Contains c s cell

theorem mergeWith_region {a b c : MatrixDependency F} (h : mergeWith M a b = some c) :
    regionUnion M a.region b.region = some c.region := by
  obtain ⟨region, hregion, rfl⟩ := Option.map_eq_some_iff.mp h
  exact hregion

/-- **A SLOT COVERS** all that is merged into it: regions, or what has a region. -/
theorem slot_covers {ν : Type} {merge : ν → ν → Option ν} (region : ν → SimpleRegion F)
    (hmerge : ∀ {a b c}, merge a b = some c → regionUnion M (region a) (region b) = some (region c))
    (hP : ∀ s, P s → M.Assumed s) {e : Option ν} {vs : List ν} {r : Option ν}
    (h : mergeSlot merge e vs = some r)
    (hpairs : (e.toList ++ vs).Pairwise fun a b => UnionSafe M P (region a) (region b)) :
    ∀ v ∈ e.toList ++ vs, ∃ c ∈ r, Covers A P (region c) (region v) := by
  refine mergeSlot_covers _ (fun c v => Covers A P (region c) (region v)) ?_ ?_ ?_ ?_ h hpairs
  · exact fun a s _ cell hcell => hcell
  · exact fun a b c hcb hba s hs cell hcell => hcb s hs cell (hba s hs cell hcell)
  · exact fun a b c v h ha hb => regionUnion_safe_left (hmerge h) ha hb
  · intro a b c h hsafe
    exact ⟨fun s hs _ hcell => regionUnion_contains (hmerge h) hsafe hs (hP s hs) (.inl hcell),
      fun s hs _ hcell => regionUnion_contains (hmerge h) hsafe hs (hP s hs) (.inr hcell)⟩

/-- **A MAP COVERS** all that is merged into it. -/
theorem map_covers {ν : Type} {merge : ν → ν → Option ν} (region : ν → SimpleRegion F)
    (hmerge : ∀ {a b c}, merge a b = some c → regionUnion M (region a) (region b) = some (region c))
    (hP : ∀ s, P s → M.Assumed s) {l : List (Matrix × ν)} {map : OrderedMap Matrix ν}
    (h : mergeAll merge l = some map)
    (hpairs : l.Pairwise fun a b => a.1 = b.1 → UnionSafe M P (region a.2) (region b.2)) :
    ∀ e ∈ l, ∃ c ∈ map.find e.1, Covers A P (region c) (region e.2) := by
  intro e he
  have hslot : ((none : Option ν).toList ++ valuesAt e.1 l).Pairwise fun a b =>
      UnionSafe M P (region a) (region b) := pairwise_valuesAt hpairs e.1
  exact slot_covers region hmerge hP (find_mergeAll h e.1) hslot e.2 (mem_valuesAt he)

end Unions

/-! ## The rule -/

/-- The iteration points, at sizes where what is assumed holds. -/
def AtPoint (M M' : Maxima A) (applicable : SimpleRegion F) (s : Z × Cell) : Prop :=
  InApplicable A applicable s.1 s.2 ∧ M.Assumed s ∧ M'.Assumed s

/-- The regions of a matrix have its dimensions, and mention the coordinates of the iteration
    point only. -/
structure RuleRegions.WellFormed (A : Formulas F Z) (applicable : SimpleRegion F)
    (rule : RuleRegions F) : Prop where
  own : ∀ r ∈ rule.toRegions ++ rule.fromRegions, OwnVariables A applicable r.corners
  dimensions : ∀ r ∈ rule.toRegions ++ rule.fromRegions,
    ∀ r' ∈ rule.toRegions ++ rule.fromRegions, r.fromMatrix = r'.fromMatrix →
      r.corners.dimensions = r'.corners.dimensions

/-- Regions whose unions, matrix by matrix, are safe after a translation. -/
def PairsSafe (M : Maxima A) (P : Z × Cell → Prop) (f : SimpleRegion F → SimpleRegion F)
    (regions : List (Region F)) : Prop :=
  regions.Pairwise fun a b => a.fromMatrix = b.fromMatrix →
    UnionSafe M P (f a.corners) (f b.corners)

/-- The corners of all regions move as they are taken to, over an iteration space whose bounds do
    not depend on the point, and wherever two regions of a matrix are united, their corners can be
    compared or the second one is the outer one. -/
structure CoverSafe (M M' : Maxima A) (applicable : SimpleRegion F) (rule : RuleRegions F) :
    Prop where
  closed : BoundsClosed A applicable
  slopes : ∀ r ∈ rule.toRegions ++ rule.fromRegions, SlopeSafe M' applicable r.corners
  boxes : PairsSafe M (AtPoint M M' applicable) id (rule.toRegions ++ rule.fromRegions)
  provides : PairsSafe M' (AtPoint M M' applicable) (absolute M' applicable) rule.toRegions
  depends : PairsSafe M' (AtPoint M M' applicable) (absolute M' applicable) rule.fromRegions

/-- At every iteration point, what a rule accesses is in what it records for the matrix. -/
structure Accesses.Cover (M M' : Maxima A) (applicable : SimpleRegion F) (rule : RuleRegions F)
    (acc : Accesses F) : Prop where
  provides : ∀ r ∈ rule.toRegions, ∃ c ∈ acc.provides.find r.fromMatrix,
    Covers A (AtPoint M M' applicable) c.region r.corners
  depends : ∀ r ∈ rule.fromRegions, ∃ c ∈ acc.depends.find r.fromMatrix,
    Covers A (AtPoint M M' applicable) c.region r.corners
  toBox : ∀ r ∈ rule.toRegions, ∃ c ∈ acc.toBoundingBox.find r.fromMatrix,
    Covers A (AtPoint M M' applicable) c r.corners
  fromBox : ∀ r ∈ rule.fromRegions, ∃ c ∈ acc.fromBoundingBox.find r.fromMatrix,
    Covers A (AtPoint M M' applicable) c r.corners
  scratch : ∀ r ∈ rule.toRegions ++ rule.fromRegions.filter fun r => !r.isOptional,
    ∃ c ∈ acc.scratchBoundingBox.find r.fromMatrix, Covers A (AtPoint M M' applicable) c r.corners

section Rule

variable {M' : Maxima A} {applicable : SimpleRegion F} {rule : RuleRegions F}

/-- What is recorded for the regions that are read, or written. -/
theorem dependencies_cover {P : Z × Cell → Prop} {regions : List (Region F)}
    (hP : ∀ s, P s → InApplicable A applicable s.1 s.2 ∧ M.Assumed s)
    (hclosed : BoundsClosed A applicable)
    (hown : ∀ r ∈ regions, OwnVariables A applicable r.corners)
    (hslopes : ∀ r ∈ regions, SlopeSafe M applicable r.corners)
    (hpairs : PairsSafe M P (absolute M applicable) regions) {map : MatrixDependencyMap F}
    (h : collectDependencies M applicable regions = some map) :
    ∀ r ∈ regions, ∃ c ∈ map.find r.fromMatrix, Covers A P c.region r.corners := by
  intro r hr
  have hall := map_covers (P := P) MatrixDependency.region mergeWith_region
    (fun s hs => (hP s hs).2) h (List.pairwise_map.mpr hpairs)
  obtain ⟨c, hc, hcovers⟩ := hall (dependency M applicable r) (List.mem_map.mpr ⟨r, hr, rfl⟩)
  refine ⟨c, hc, fun s hs cell hcell => hcovers s hs cell ?_⟩
  exact absolute_contains hclosed (hown r hr) (hslopes r hr) (hP s hs).1 hcell

/-- What is recorded in a bounding box. -/
theorem boundingBox_covers {P : Z × Cell → Prop} (hP : ∀ s, P s → M.Assumed s)
    {regions : List (Region F)} (hpairs : PairsSafe M P id regions) {map : MatrixToRegionMap F}
    (h : buildBoundingBox M regions = some map) :
    ∀ r ∈ regions, ∃ c ∈ map.find r.fromMatrix, Covers A P c r.corners := by
  intro r hr
  exact map_covers id (fun h => h) hP h (List.pairwise_map.mpr hpairs) (r.fromMatrix, r.corners)
    (List.mem_map.mpr ⟨r, hr, rfl⟩)

/-- The box of what is written can be united with the box of what is read. -/
theorem boxes_safe {P : Z × Cell → Prop} {toRegions fromRegions : List (Region F)}
    (hcross : ∀ a ∈ toRegions, ∀ b ∈ fromRegions, a.fromMatrix = b.fromMatrix →
      UnionSafe M P a.corners b.corners) {toBox fromBox : MatrixToRegionMap F}
    (hto : buildBoundingBox M toRegions = some toBox)
    (hfrom : buildBoundingBox M fromRegions = some fromBox) {m : Matrix} {t v : SimpleRegion F}
    (ht : toBox.find m = some t) (hv : fromBox.find m = some v) : UnionSafe M P t v := by
  refine mergeAll_inherits (Q := fun t => UnionSafe M P t v)
    (fun a b c h ha hb => regionUnion_safe_left h ha hb) hto (k := m) ?_ t ht
  intro e he hm
  obtain ⟨r, hr, rfl⟩ := List.mem_map.mp he
  refine mergeAll_inherits (Q := fun v => UnionSafe M P r.corners v)
    (fun a b c h ha hb => regionUnion_safe_right h ha hb) hfrom (k := m) ?_ v hv
  intro e' he' hm'
  obtain ⟨r', hr', rfl⟩ := List.mem_map.mp he'
  exact hcross r hr r' hr' (hm.trans hm'.symm)

/-- **THE SCRATCH BOX** covers what both boxes cover. -/
theorem scratch_covers {P : Z × Cell → Prop} (hP : ∀ s, P s → M.Assumed s)
    {toBox fromBox scratch : MatrixToRegionMap F}
    (hsafe : ∀ m t v, toBox.find m = some t → fromBox.find m = some v → UnionSafe M P t v)
    (h : buildScratchBoundingBox M toBox fromBox = some scratch) {m : Matrix}
    {v : SimpleRegion F} (hv : toBox.find m = some v ∨ fromBox.find m = some v) :
    ∃ c ∈ scratch.find m, Covers A P c v := by
  have hvalues : ∀ w ∈ valuesAt m fromBox.entries, fromBox.find m = some w :=
    fun w hw => OrderedMap.mem_entries.mp (mem_of_mem_valuesAt hw)
  have hpairs : ((toBox.find m).toList ++ valuesAt m fromBox.entries).Pairwise
      (UnionSafe M P) := by
    refine List.pairwise_append.mpr ⟨?_, ?_, ?_⟩
    · cases toBox.find m with
      | none => exact .nil
      | some t => exact List.pairwise_singleton _ t
    -- a key has at most one entry in the map
    · refine List.pairwise_of_forall_mem_list fun a ha b hb => ?_
      have hab : some a = some b := (hvalues a ha).symm.trans (hvalues b hb)
      cases hab
      exact unionSafe_refl M P a
    · exact fun t ht w hw => hsafe m t w (Option.mem_toList.mp ht) (hvalues w hw)
  refine slot_covers id (fun h => h) hP (find_foldlM h m) hpairs v (List.mem_append.mpr ?_)
  rcases hv with hv | hv
  · exact .inl (Option.mem_toList.mpr hv)
  · exact .inr (mem_valuesAt (OrderedMap.mem_entries.mpr hv))

/-- The boxes exist if the regions of a matrix have its dimensions. -/
theorem exists_boundingBox (M : Maxima A) {regions : List (Region F)}
    {numDimensions : Matrix → Nat}
    (hdim : ∀ r ∈ regions, r.corners.dimensions = numDimensions r.fromMatrix) :
    ∃ map, buildBoundingBox M regions = some map
      ∧ ∀ m, ∀ v ∈ map.find m, v.dimensions = numDimensions m := by
  refine mergeAll_rule (P := fun m (v : SimpleRegion F) => v.dimensions = numDimensions m)
    (fun m => exists_regionUnion (numDimensions m)) fun e he => ?_
  obtain ⟨r, hr, rfl⟩ := List.mem_map.mp he
  exact hdim r hr

theorem exists_scratch (M : Maxima A) {toBox fromBox : MatrixToRegionMap F}
    {numDimensions : Matrix → Nat}
    (hto : ∀ m, ∀ v ∈ toBox.find m, v.dimensions = numDimensions m)
    (hfrom : ∀ m, ∀ v ∈ fromBox.find m, v.dimensions = numDimensions m) :
    ∃ scratch, buildScratchBoundingBox M toBox fromBox = some scratch := by
  obtain ⟨scratch, hscratch, -⟩ := foldlM_rule
    (P := fun m (v : SimpleRegion F) => v.dimensions = numDimensions m)
    (fun m => exists_regionUnion (M := M) (numDimensions m)) hto
    fun e he => hfrom e.1 e.2 (OrderedMap.mem_entries.mp he)
  exact ⟨scratch, hscratch⟩

end Rule

/-- An expression is affine, with its derivatives as coefficients. -/
theorem Expr.affine {n : Nat} (e : Expr) (h : ∀ d, .offset d ∈ e.freeVars → d < n) :
    Affine Expr.formulas e (fun d => e.slope d) n := by
  refine ⟨fun z => e.eval (z, fun _ => 0), fun z x => ?_⟩
  show e.eval (z, x) = _
  induction e with
  | const k => simp [Expr.slope, Expr.eval]
  | size k => simp [Expr.slope, Expr.eval]
  | offset d =>
      have hd : d < n := h d (Finset.mem_singleton_self _)
      simp [Expr.slope, Expr.eval, hd]
  | add a b iha ihb =>
      have ha := iha fun d hd => h d (Finset.mem_union_left _ hd)
      have hb := ihb fun d hd => h d (Finset.mem_union_right _ hd)
      show a.eval (z, x) + b.eval (z, x) = _
      rw [ha, hb]
      simp only [Expr.slope, Expr.eval, Int.add_mul, Finset.sum_add_distrib]
      omega
  | sub a b iha ihb =>
      have ha := iha fun d hd => h d (Finset.mem_union_left _ hd)
      have hb := ihb fun d hd => h d (Finset.mem_union_right _ hd)
      show a.eval (z, x) - b.eval (z, x) = _
      rw [ha, hb]
      simp only [Expr.slope, Expr.eval, Int.sub_mul, Finset.sum_sub_distrib]
      omega

/-! ## A rule of two dimensions -/

/-- Reads `A.cell(x)`, `A.cell(y)` and `B.cell(n - 1 + x - y)`. -/
def crossing : RuleRegions Expr where
  toRegions := [⟨2, ⟨[(.offset 0, .add (.offset 0) (.const 1)),
    (.offset 1, .add (.offset 1) (.const 1))]⟩, false⟩]
  fromRegions :=
    let diagonal : Expr := .sub (.add (.sub (.size 0) (.const 1)) (.offset 0)) (.offset 1)
    [⟨0, ⟨[(.offset 0, .add (.offset 0) (.const 1))]⟩, false⟩,
      ⟨0, ⟨[(.offset 1, .add (.offset 1) (.const 1))]⟩, false⟩,
      ⟨1, ⟨[(diagonal, .add diagonal (.const 1))]⟩, false⟩]

/-- All points of a square. -/
def square : SimpleRegion Expr := ⟨[(.const 0, .size 0), (.const 0, .size 0)]⟩

/-- The point `(0, 5)` of a square of size 9. -/
theorem crossing_point : AtPoint Expr.maxima Expr.maxima square
    (fun _ => 9, fun d => if d = 1 then 5 else 0) := by
  refine ⟨?_, trivial, trivial⟩
  intro d c hc
  match d, hc with
  | 0, hc =>
      cases hc
      decide
  | 1, hc =>
      cases hc
      decide

/-- Reads `A.cell(x - 1)` and the two cells from `x` on. -/
def neighbours : RuleRegions Expr where
  toRegions := [⟨1, ⟨[(.offset 0, .add (.offset 0) (.const 1))]⟩, false⟩]
  fromRegions := [⟨0, ⟨[(.sub (.offset 0) (.const 1), .offset 0)]⟩, false⟩,
    ⟨0, ⟨[(.offset 0, .add (.offset 0) (.const 2))]⟩, false⟩]

def inner : SimpleRegion Expr := ⟨[(.const 1, .sub (.size 0) (.const 1))]⟩

theorem neighbours_freeVars : ∀ r ∈ neighbours.toRegions ++ neighbours.fromRegions,
    ∀ c ∈ r.corners.coords, c.1.freeVars ∪ c.2.freeVars ⊆ {.offset 0} := by
  decide

theorem neighbours_own : ∀ r ∈ neighbours.toRegions ++ neighbours.fromRegions,
    OwnVariables Expr.formulas inner r.corners := by
  intro r hr c hc d hd
  cases Finset.mem_singleton.mp (neighbours_freeVars r hr c hc hd)
  exact Nat.zero_lt_one

theorem neighbours_wellFormed : neighbours.WellFormed Expr.formulas inner where
  own := neighbours_own
  dimensions := by decide

theorem neighbours_slopes : ∀ r ∈ neighbours.toRegions ++ neighbours.fromRegions,
    ∀ c ∈ r.corners.coords, ∀ d < 1,
      if fallsWith Expr.maxima r.corners.dimensions c then c.1.slope d ≤ 0 ∧ c.2.slope d ≤ 0
      else 0 ≤ c.1.slope d ∧ 0 ≤ c.2.slope d := by
  decide

/-- The upper corners of what is read cannot be compared at the last point, and the second one is
    the outer one. -/
theorem neighbours_safe : CoverSafe Expr.maxima Expr.maxima inner neighbours where
  closed := by
    intro c hc
    cases List.mem_singleton.mp hc
    exact ⟨fun z x y => rfl, fun z x y => rfl⟩
  slopes := by
    intro r hr
    refine slopeSafe_of_affine 1 fun c hc => ?_
    have hown := neighbours_own r hr c hc
    exact ⟨_, _, Expr.affine c.1 fun d hd => hown d (Finset.mem_union_left _ hd),
      Expr.affine c.2 fun d hd => hown d (Finset.mem_union_right _ hd),
      neighbours_slopes r hr c hc⟩
  boxes := by
    refine List.Pairwise.cons (fun r hr hm => ?_) (List.pairwise_pair.mpr fun _ => ?_)
    · rcases List.mem_pair.mp hr with rfl | rfl <;> cases hm
    · intro d p q hp hq
      match d, hp, hq with
      | 0, hp, hq =>
          cases hp
          cases hq
          refine ⟨.inl rfl, .inr fun s _ => ?_⟩
          show s.2 0 ≤ s.2 0 + 2
          omega
  provides := List.pairwise_singleton _ _
  depends := by
    refine List.pairwise_pair.mpr fun _ => ?_
    intro d p q hp hq
    match d, hp, hq with
    | 0, hp, hq =>
        cases hp
        cases hq
        refine ⟨.inl rfl, .inr fun s _ => ?_⟩
        show s.1 0 - 1 - 1 ≤ s.1 0 - 1 - 1 + 2
        omega

end PbRegionDependency
