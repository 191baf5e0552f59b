import PetaBricks.AffineBoxProofs
import PetaBricks.IterationBoundsModel

/-!
# Iteration bounds — which corner of a block is extreme

A coordinate that is affine in the offset variables is extreme at a corner of the block.
`SimpleRegion::getIterationLowerBounds` looks for it one dimension at a time: it compares what
the two ends of the dimension make of the coordinate.  The comparison is made for blocks where
the first iteration is less than the last, and it is the sign of the coefficient that it tells
(`choose_spec`), so what is chosen is right for a block of one iteration, too.
-/

namespace PbIterationBounds

open PbMaxima (TryCompareResult)
open PbOrderedMap (OrderedMap)
open PbAffineBox

/-! ## Comparisons -/

/-- The sign that turns a comparison into `≤`. -/
def Op.sign : Op → ℤ
  | .le => 1
  | .ge => -1

theorem Op.holds_iff {op : Op} {p q : ℤ} : op.Holds p q ↔ op.sign * p ≤ op.sign * q := by
  cases op with
  | le => rw [Op.sign, one_mul, one_mul]; rfl
  | ge => rw [Op.sign, neg_one_mul, neg_one_mul, neg_le_neg_iff]; rfl

theorem Op.Holds.refl (op : Op) (p : ℤ) : op.Holds p p := holds_iff.mpr le_rfl

theorem Op.Holds.antisymm {op : Op} {p q : ℤ} (h : op.Holds p q) (h' : op.Holds q p) :
    p = q := by
  cases op with
  | le => exact le_antisymm h h'
  | ge => exact le_antisymm h' h

section Loop

variable {F Z : Type} {A : Formulas F Z}

@[simp] theorem State.atPoint_atPoint (s : State Z) (x y : Nat → ℤ) :
    (s.atPoint x).atPoint y = s.atPoint y := rfl

theorem Formulas.eval_replace_begin (f : F) {j : Nat} (hj : j < A.dimensions) (s : State Z) :
    A.eval (A.replace f (A.offsetVar j) (A.beginVar j)) s
      = A.eval f (s.move j (s.iterBegin j)) := by
  rw [A.eval_replace f j _ s hj, A.eval_beginVar j s hj]

theorem Formulas.eval_replace_end (f : F) {j : Nat} (hj : j < A.dimensions) (s : State Z) :
    A.eval (A.replace f (A.offsetVar j) (A.normalize (A.subtract (A.endVar j) A.one))) s
      = A.eval f (s.move j (s.iterEnd j - 1)) := by
  rw [A.eval_replace f j _ s hj, A.eval_normalize, A.eval_subtract, A.eval_endVar j s hj,
    Formulas.one, A.eval_integer]

/-! ## Affine coordinates -/

variable (A) in
/-- Affine in the offset variables.  The coefficients depend on the sizes, the constant may depend
    on the block as well. -/
def AffineIn (f : F) (c : Nat → Z → ℤ) : Prop :=
  ∃ a : State Z → ℤ, (∀ s x, a (s.atPoint x) = a s) ∧
    ∀ s, A.eval f s = affine (Finset.range A.dimensions) (a s) (fun j => c j s.sizes) s.offset

/-- The sign of each coefficient does not depend on the sizes. -/
def Signed (d : Nat) (c : Nat → Z → ℤ) : Prop :=
  ∀ j, j < d → (∀ z, 0 ≤ c j z) ∨ ∀ z, c j z ≤ 0

variable (A) in
/-- Affine in the offset variables, with coefficients of one sign each. -/
def IsAffine (f : F) : Prop :=
  ∃ (a : Z → ℤ) (c : Nat → Z → ℤ), Signed A.dimensions c ∧
    ∀ s, A.eval f s
      = affine (Finset.range A.dimensions) (a s.sizes) (fun j => c j s.sizes) s.offset

/-- The rate of change. -/
theorem AffineIn.eval_move {f : F} {c : Nat → Z → ℤ} (hf : AffineIn A f c) {j : Nat}
    (hj : j < A.dimensions) (s : State Z) (v : ℤ) :
    A.eval f (s.move j v) = A.eval f s + c j s.sizes * (v - s.offset j) := by
  obtain ⟨a, ha, heval⟩ := hf
  rw [heval, heval s, State.move, ha]
  exact affine_update (a s) (fun j => c j s.sizes) s.offset (Finset.mem_range.mpr hj) v

/-- A coordinate with an end of a dimension in it does not depend on the dimension. -/
theorem AffineIn.replaced {f g : F} {c : Nat → Z → ℤ} (hf : AffineIn A f c) {j : Nat}
    (hj : j < A.dimensions) {e : State Z → ℤ} (he : ∀ s x, e (s.atPoint x) = e s)
    (hg : ∀ s, A.eval g s = A.eval f (s.move j (e s))) :
    AffineIn A g (Function.update c j 0) := by
  obtain ⟨a, ha, heval⟩ := hf
  refine ⟨fun s => a s + c j s.sizes * e s, ?_, ?_⟩
  · intro s x
    show a (s.atPoint x) + c j s.sizes * e (s.atPoint x) = _
    rw [ha, he]
  · intro s
    have hc : (fun k => Function.update c j 0 k s.sizes)
        = Function.update (fun k => c k s.sizes) j 0 := by
      funext k
      by_cases hk : k = j
      · rw [hk, Function.update_self, Function.update_self]; rfl
      · rw [Function.update_of_ne hk, Function.update_of_ne hk]
    rw [hg, heval, State.move, ha, hc]
    exact affine_update_eq (a s) (fun k => c k s.sizes) s.offset (Finset.mem_range.mpr hj) (e s)

theorem Signed.replaced {d : Nat} {c : Nat → Z → ℤ} (h : Signed d c) (j : Nat) :
    Signed d (Function.update c j 0) := by
  intro k hk
  by_cases hkj : k = j
  · rw [hkj, Function.update_self]
    exact Or.inl fun _ => le_rfl
  · rw [Function.update_of_ne hkj]
    exact h k hk

/-- A corner of the block that the signs choose is extreme. -/
theorem holds_of_least {op : Op} {a : ℤ} {c : Nat → ℤ} {s : State Z} {y x : Nat → ℤ}
    (hy : Least (Finset.range A.dimensions) (fun j => op.sign * c j) s.iterBegin
      (fun j => s.iterEnd j - 1) y)
    (hx : x ∈ Box (Finset.range A.dimensions) s.iterBegin fun j => s.iterEnd j - 1) :
    op.Holds (affine (Finset.range A.dimensions) a c y)
      (affine (Finset.range A.dimensions) a c x) := by
  cases op with
  | le =>
      simp only [Op.sign, one_mul] at hy
      exact hy.le a hx
  | ge =>
      simp only [Op.sign, neg_one_mul] at hy
      exact Least.ge hy a hx

theorem mem_box_iff {s : State Z} {x : Nat → ℤ} :
    x ∈ Box (Finset.range A.dimensions) s.iterBegin (fun j => s.iterEnd j - 1) ↔
      A.Offsets s x := by
  refine forall_congr' fun j => ?_
  rw [Finset.mem_range, Int.le_sub_one_iff]

/-! ## The loop over the dimensions -/

variable (A) in
/-- The variable of a dimension and its two ends. -/
def ends (j : Nat) : F × F × F :=
  (A.offsetVar j, A.beginVar j, A.normalize (A.subtract (A.endVar j) A.one))

theorem zip_ends :
    A.var.zip (A.iterBegin.zip A.iterEndInclusive) = (List.range A.dimensions).map (ends A) := by
  unfold Formulas.var Formulas.iterBegin Formulas.iterEndInclusive Formulas.iterEnd
    Formulas.subToEach
  rw [List.map_map, List.zip_map', List.zip_map']
  rfl

variable [DecidableEq F] (M : Maxima A)

/-- What a comparison is known to hold for. -/
theorem Maxima.tryCompare_eq_yes {op : Op} {a b : F} :
    M.tryCompare (A.iterBegin.zip A.iterEndInclusive) a op b = .YES ↔
      ∀ s : State Z, (∀ j, j < A.dimensions → s.iterBegin j < s.iterEnd j - 1) →
        op.Holds (A.eval a s) (A.eval b s) := by
  unfold Maxima.tryCompare
  by_cases hab : a = b
  · rw [if_pos hab, hab]
    exact iff_of_true rfl fun s _ => Op.Holds.refl op _
  · rw [if_neg hab]
    exact M.exact a op b

/-- What is chosen of the two ends of a dimension, and the sign that goes with it. -/
theorem choose_spec {f : F} {c : Nat → Z → ℤ} (hf : AffineIn A f c)
    (hc : Signed A.dimensions c) (op : Op) {j : Nat} (hj : j < A.dimensions) {g : F}
    (hg : g = M.choose (A.iterBegin.zip A.iterEndInclusive) op
      (A.replace f (A.offsetVar j) (A.beginVar j))
      (A.replace f (A.offsetVar j) (A.normalize (A.subtract (A.endVar j) A.one)))) :
    (∀ s, A.eval g s = A.eval f (s.move j (s.iterBegin j))) ∧ (∀ z, 0 ≤ op.sign * c j z) ∨
      (∀ s, A.eval g s = A.eval f (s.move j (s.iterEnd j - 1))) ∧
        ∀ z, op.sign * c j z ≤ 0 := by
  -- at a block that is longer by one, the ends differ by the coefficient
  have hiff : ∀ s : State Z, op.Holds (A.eval (A.replace f (A.offsetVar j) (A.beginVar j)) s)
      (A.eval (A.replace f (A.offsetVar j)
        (A.normalize (A.subtract (A.endVar j) A.one))) s) ↔
      op.sign * c j s.sizes * (s.iterBegin j - (s.iterEnd j - 1)) ≤ 0 := by
    intro s
    rw [Op.holds_iff, A.eval_replace_begin f hj, A.eval_replace_end f hj, hf.eval_move hj,
      hf.eval_move hj]
    constructor
    · intro h; linarith
    · intro h; linarith
  rw [Maxima.choose] at hg
  by_cases hyes : M.tryCompare (A.iterBegin.zip A.iterEndInclusive)
      (A.replace f (A.offsetVar j) (A.beginVar j)) op
      (A.replace f (A.offsetVar j) (A.normalize (A.subtract (A.endVar j) A.one))) = .YES
  · rw [if_pos hyes] at hg
    refine Or.inl ⟨fun s => hg ▸ A.eval_replace_begin f hj s, ?_⟩
    intro z
    have h := (hiff ⟨z, fun _ => 0, fun _ => 0, fun _ => 2⟩).mp
      ((M.tryCompare_eq_yes.mp hyes) _ fun _ _ => by norm_num)
    linarith
  · rw [if_neg hyes] at hg
    refine Or.inr ⟨fun s => hg ▸ A.eval_replace_end f hj s, ?_⟩
    have hno : ¬∀ z, 0 ≤ op.sign * c j z := by
      intro hpos
      refine hyes (M.tryCompare_eq_yes.mpr fun s hs => (hiff s).mpr ?_)
      exact mul_nonpos_of_nonneg_of_nonpos (hpos s.sizes) (by have := hs j hj; omega)
    cases op with
    | le =>
        simp only [Op.sign, one_mul] at hno ⊢
        exact (hc j hj).resolve_left hno
    | ge =>
        simp only [Op.sign, neg_one_mul, neg_nonneg] at hno ⊢
        exact fun z => neg_nonpos.mpr ((hc j hj).resolve_right hno z)

/-- **THE LOOP**: some dimensions are replaced by the ends that the signs choose, the others are
    left. -/
theorem replaceLoop_spec (op : Op) {js : List Nat} (hjs : ∀ j ∈ js, j < A.dimensions) {f : F}
    {c : Nat → Z → ℤ} (hf : AffineIn A f c) (hc : Signed A.dimensions c) (s : State Z) :
    ∃ y, A.eval (SimpleRegion.replaceLoop M (A.iterBegin.zip A.iterEndInclusive) op
        (js.map (ends A)) f) s = A.eval f (s.atPoint y) ∧
      (∀ j ∈ js, y j = s.iterBegin j ∧ 0 ≤ op.sign * c j s.sizes ∨
        y j = s.iterEnd j - 1 ∧ op.sign * c j s.sizes ≤ 0) ∧
      ∀ j, j ∉ js → y j = s.offset j := by
  induction js generalizing f c with
  | nil =>
      refine ⟨s.offset, rfl, ?_, fun _ _ => rfl⟩
      intro j hj
      exact absurd hj List.not_mem_nil
  | cons j js ih =>
      have hj := hjs j List.mem_cons_self
      rw [List.map_cons, SimpleRegion.replaceLoop, List.foldl_cons]
      generalize hg : M.choose (A.iterBegin.zip A.iterEndInclusive) op
        (A.replace f (ends A j).1 (ends A j).2.1)
        (A.replace f (ends A j).1 (ends A j).2.2) = g
      -- both cases of the choice: an end `e`, and a condition that goes with it
      have hstep : ∃ e : State Z → ℤ, (∀ s x, e (s.atPoint x) = e s) ∧
          (∀ s, A.eval g s = A.eval f (s.move j (e s))) ∧
          (e s = s.iterBegin j ∧ 0 ≤ op.sign * c j s.sizes ∨
            e s = s.iterEnd j - 1 ∧ op.sign * c j s.sizes ≤ 0) := by
        rcases choose_spec M hf hc op hj hg.symm with ⟨h, hsign⟩ | ⟨h, hsign⟩
        · exact ⟨fun s => s.iterBegin j, fun _ _ => rfl, h, Or.inl ⟨rfl, hsign _⟩⟩
        · exact ⟨fun s => s.iterEnd j - 1, fun _ _ => rfl, h, Or.inr ⟨rfl, hsign _⟩⟩
      obtain ⟨e, he, hge, hend⟩ := hstep
      obtain ⟨y, hy, hcorner, hrest⟩ := ih (fun k hk => hjs k (List.mem_cons_of_mem _ hk))
        (hf.replaced hj he hge) (hc.replaced j)
      refine ⟨Function.update y j (e s), ?_, ?_, ?_⟩
      · rw [← SimpleRegion.replaceLoop, hy, hge, he]
        rfl
      · intro k hk
        by_cases hkj : k = j
        · rw [hkj, Function.update_self]
          exact hend
        · have hmem : k ∈ js := (List.mem_cons.mp hk).resolve_left hkj
          have h := hcorner k hmem
          rw [Function.update_of_ne hkj] at h ⊢
          exact h
      · intro k hk
        obtain ⟨hkj, hmem⟩ := not_or.mp (mt List.mem_cons.mpr hk)
        rw [Function.update_of_ne hkj]
        exact hrest k hmem

/-! ## The bounds of a coordinate -/

/-- The bound of one coordinate. -/
def bound (op : Op) (f : F) : F :=
  A.normalize (SimpleRegion.replaceLoop M (A.iterBegin.zip A.iterEndInclusive) op
    (A.var.zip (A.iterBegin.zip A.iterEndInclusive)) f)

theorem iterationBounds_eq (op : Op) (coord : List F) :
    SimpleRegion.iterationBounds M op coord A.var A.iterBegin A.iterEndInclusive
      = coord.map (bound M op) := rfl

/-- The bound is what the coordinate is at some offset of the block, and extreme. -/
theorem bound_spec {f : F} (hf : IsAffine A f) (op : Op) {s : State Z} (hs : A.Nonempty s) :
    (∃ x, A.Offsets s x ∧ A.eval (bound M op f) s = A.eval f (s.atPoint x)) ∧
      ∀ x, A.Offsets s x → op.Holds (A.eval (bound M op f) s) (A.eval f (s.atPoint x)) := by
  obtain ⟨a, c, hc, heval⟩ := hf
  have hin : AffineIn A f c := ⟨fun s => a s.sizes, fun _ _ => rfl, heval⟩
  obtain ⟨y, hy, hcorner, -⟩ := replaceLoop_spec M op
    (fun j (hj : j ∈ List.range A.dimensions) => List.mem_range.mp hj) hin hc s
  have hbound : A.eval (bound M op f) s = A.eval f (s.atPoint y) := by
    rw [bound, A.eval_normalize, zip_ends, hy]
  have hleast : Least (Finset.range A.dimensions) (fun j => op.sign * c j s.sizes)
      s.iterBegin (fun j => s.iterEnd j - 1) y :=
    fun j hj => hcorner j (List.mem_range.mpr (Finset.mem_range.mp hj))
  constructor
  · refine ⟨y, mem_box_iff.mp (hleast.mem_box ?_), hbound⟩
    intro j hj
    exact Int.le_sub_one_iff.mpr (hs j (Finset.mem_range.mp hj))
  · intro x hx
    rw [hbound, heval, heval (s.atPoint x)]
    exact holds_of_least hleast (mem_box_iff.mpr hx)

/-- The bounds of a block do not depend on the offset. -/
theorem bound_atPoint {f : F} (hf : IsAffine A f) (op : Op) {s : State Z} (hs : A.Nonempty s)
    (x : Nat → ℤ) : A.eval (bound M op f) (s.atPoint x) = A.eval (bound M op f) s := by
  obtain ⟨⟨y, hy, hval⟩, hext⟩ := bound_spec M hf op hs
  obtain ⟨⟨y', hy', hval'⟩, hext'⟩ := bound_spec M hf op (s := s.atPoint x) hs
  have hle := hext' y hy
  have hge := hext y' hy'
  rw [State.atPoint_atPoint, ← hval] at hle
  rw [State.atPoint_atPoint] at hval'
  rw [← hval'] at hge
  exact hle.antisymm hge

end Loop

end PbIterationBounds
