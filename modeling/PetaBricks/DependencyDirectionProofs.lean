import PetaBricks.RegionExprProofs

/-! # Dependency directions

    `determineDependencyDirection` asks whether the iteration point lies before the end of a
    region, and not before its beginning.  An answer other than yes makes the region reach to the
    left, or to the right, and that it may reach the point itself is always found.  But a region
    that begins left of the point and ends right of it gets two answers yes, and is recorded as
    the point alone. -/

namespace PbRegionDependency

open PbOrderedMap PbMergingMap PbScheduler PbMaxima PbDataDependency Transform

variable {F Z : Type} [DecidableEq F] {A : Formulas F Z} {M : Maxima A}

/-! ## One region -/

/-- The bits of a mask that is put together from three conditions. -/
theorem mask_bits (p q : Prop) [Decidable p] [Decidable q] (b : Bool) :
    let mask := (if p then D_LT else D_NONE) ||| (if q then D_GT else D_NONE)
      ||| (if b then D_EQ else D_NONE)
    (mask &&& D_LT ≠ 0 ↔ p) ∧ (mask &&& D_GT ≠ 0 ↔ q) ∧ (mask &&& D_EQ ≠ 0 ↔ b = true) := by
  by_cases hp : p <;> by_cases hq : q <;> cases b <;> simp [hp, hq, D_LT, D_GT, D_EQ, D_NONE]

theorem has_lt {x minCoord maxCoord : F} :
    determineDependencyDirection M x minCoord maxCoord &&& D_LT ≠ 0
      ↔ M.tryCompare x .lt maxCoord ≠ .YES :=
  (mask_bits _ _ _).1

theorem has_gt {x minCoord maxCoord : F} :
    determineDependencyDirection M x minCoord maxCoord &&& D_GT ≠ 0
      ↔ M.tryCompare x .ge minCoord ≠ .YES :=
  (mask_bits _ _ _).2.1

/-- **THE POINT IS NEVER MISSED**: a region that contains a cell level with the iteration point
    is recorded as reaching it. -/
theorem has_eq {x minCoord maxCoord : F} {s : Z × Cell} (hs : M.Assumed s)
    (hmin : A.eval minCoord s ≤ A.eval x s) (hmax : A.eval x s < A.eval maxCoord s) :
    determineDependencyDirection M x minCoord maxCoord &&& D_EQ ≠ 0 := by
  refine (mask_bits _ _ _).2.2.mpr ?_
  rw [addsEqual]
  split_ifs with h1 h2
  · rfl
  · -- the point is not found to lie before the beginning
    refine decide_eq_true fun hyes => ?_
    have hlt : A.eval x s < A.eval minCoord s := Maxima.holds_of_yes hyes hs
    exact absurd hlt (not_lt.mpr hmin)
  · refine decide_eq_true fun hyes => ?_
    have hge : A.eval maxCoord s ≤ A.eval x s := Maxima.holds_of_yes hyes hs
    exact absurd hmax (not_lt.mpr hge)

/-! ## Merging -/

theorem regionUnion_dimensions {a b c : SimpleRegion F} (h : regionUnion M a b = some c) :
    a.dimensions = b.dimensions ∧ c.dimensions = a.dimensions := by
  rw [regionUnion] at h
  by_cases hd : a.dimensions = b.dimensions
  · rw [if_pos hd] at h
    cases h
    refine ⟨hd, ?_⟩
    show (List.zipWith _ _ _).length = a.dimensions
    rw [List.length_zipWith]
    exact Nat.min_eq_left (le_of_eq hd)
  · rw [if_neg hd] at h
    cases h

/-- Regions with as many dimensions have a union, with as many. -/
theorem exists_regionUnion (n : Nat) (a b : SimpleRegion F) (ha : a.dimensions = n)
    (hb : b.dimensions = n) : ∃ c, regionUnion M a b = some c ∧ c.dimensions = n := by
  have hc : regionUnion M a b = some _ := if_pos (ha.trans hb.symm)
  exact ⟨_, hc, (regionUnion_dimensions hc).2.trans ha⟩

theorem exists_mergeWith (n : Nat) (a b : MatrixDependency F) (ha : a.region.dimensions = n)
    (hb : b.region.dimensions = n) :
    ∃ c, mergeWith M a b = some c ∧ c.region.dimensions = n := by
  obtain ⟨c, hc, hn⟩ := exists_regionUnion (M := M) n a.region b.region ha hb
  refine ⟨⟨a.direction.addDirection b.direction, c⟩, ?_, hn⟩
  rw [mergeWith, hc]
  rfl

/-- A merged dependency has the directions of all that went into it. -/
theorem mergeSlot_direction {e : Option (MatrixDependency F)} {vs : List (MatrixDependency F)}
    {r : Option (MatrixDependency F)} (h : mergeSlot (mergeWith M) e vs = some r) (d : Nat)
    (b : DirectionT) :
    (∃ v ∈ r, v.direction.mask d &&& b ≠ 0)
      ↔ (∃ v ∈ e, v.direction.mask d &&& b ≠ 0) ∨ ∃ v ∈ vs, v.direction.mask d &&& b ≠ 0 := by
  induction vs generalizing e with
  | nil =>
      cases h
      simp
  | cons v vs ih =>
      cases e with
      | none =>
          rw [ih (e := some v) h]
          simp
      | some e =>
          obtain ⟨e', he', h⟩ := Option.bind_eq_some_iff.mp h
          obtain ⟨c, -, rfl⟩ := Option.map_eq_some_iff.mp he'
          rw [ih (e := some _) h]
          -- a bit of a disjunction is a bit of one of the masks
          have hor : (e.direction.addDirection v.direction).mask d &&& b ≠ 0
              ↔ e.direction.mask d &&& b ≠ 0 ∨ v.direction.mask d &&& b ≠ 0 := by
            rw [DependencyDirection.mask_addDirection, BitVec.and_or_distrib_right]
            exact (not_congr BitVec.or_eq_zero_iff).trans not_and_or
          simp only [Option.mem_some_iff, exists_eq_left', List.mem_cons, exists_eq_or_imp]
          rw [hor, or_assoc]

theorem direction_mask {r : SimpleRegion F} {d : Nat} {b : DirectionT} :
    (direction M r).mask d &&& b ≠ 0 ↔ ∃ c, r.coords[d]? = some c
      ∧ determineDependencyDirection M (A.getOffsetVar d) c.1 c.2 &&& b ≠ 0 := by
  rw [direction, DependencyDirection.mask, List.getD_eq_getElem?_getD, List.getElem?_mapIdx]
  cases hc : r.coords[d]? with
  | none =>
      constructor
      · intro h
        exact absurd (BitVec.zero_and) h
      · rintro ⟨c, hc', -⟩
        cases hc'
  | some c =>
      constructor
      · intro h
        exact ⟨c, rfl, h⟩
      · rintro ⟨c', hc', h⟩
        cases hc'
        exact h

theorem absolute_dimensions (applicable r : SimpleRegion F) :
    (absolute M applicable r).dimensions = r.dimensions :=
  List.length_map _

omit [DecidableEq F] in
/-- If the regions of each matrix agree in their dimensions, the matrix has as many. -/
theorem exists_numDimensions {regions : List (Region F)}
    (hdim : ∀ r ∈ regions, ∀ r' ∈ regions, r.fromMatrix = r'.fromMatrix →
      r.corners.dimensions = r'.corners.dimensions) :
    ∃ numDimensions : Matrix → Nat, ∀ r ∈ regions,
      r.corners.dimensions = numDimensions r.fromMatrix := by
  refine ⟨fun m => ((regions.find? fun r => r.fromMatrix = m).map fun r =>
    r.corners.dimensions).getD 0, fun r hr => ?_⟩
  obtain ⟨r', hr'⟩ := Option.isSome_iff_exists.mp
    (List.find?_isSome.mpr ⟨r, hr, decide_eq_true rfl⟩ :
      (regions.find? fun r' => r'.fromMatrix = r.fromMatrix).isSome)
  have hm : r'.fromMatrix = r.fromMatrix := of_decide_eq_true (List.find?_some hr' :)
  show _ = (Option.map _ (regions.find? fun r' => r'.fromMatrix = r.fromMatrix)).getD 0
  rw [hr']
  exact hdim r hr r' (List.mem_of_find?_eq_some hr') hm.symm

/-- Then the map exists. -/
theorem exists_collectDependencies (M : Maxima A) (applicable : SimpleRegion F)
    {regions : List (Region F)} {numDimensions : Matrix → Nat}
    (hdim : ∀ r ∈ regions, r.corners.dimensions = numDimensions r.fromMatrix) :
    ∃ map, collectDependencies M applicable regions = some map := by
  obtain ⟨map, hmap, -⟩ := mergeAll_rule
    (P := fun m v => v.region.dimensions = numDimensions m)
    (fun m => exists_mergeWith (numDimensions m))
    (l := regions.map (dependency M applicable)) fun e he => by
      obtain ⟨r, hr, rfl⟩ := List.mem_map.mp he
      exact (absolute_dimensions applicable r.corners).trans (hdim r hr)
  exact ⟨map, hmap⟩

/-- **WHAT IS RECORDED** for a matrix are the directions of all of its regions. -/
theorem recorded_iff {applicable : SimpleRegion F} {regions : List (Region F)}
    {map : MatrixDependencyMap F} (h : collectDependencies M applicable regions = some map)
    (m : Matrix) (d : Nat) (b : DirectionT) :
    (∃ dep ∈ map.find m, dep.direction.mask d &&& b ≠ 0)
      ↔ ∃ r ∈ regions, r.fromMatrix = m ∧ ∃ c, r.corners.coords[d]? = some c
        ∧ determineDependencyDirection M (A.getOffsetVar d) c.1 c.2 &&& b ≠ 0 := by
  rw [mergeSlot_direction (find_mergeAll h m)]
  constructor
  · rintro (⟨v, hv, -⟩ | ⟨v, hv, hb⟩)
    · cases hv
    · obtain ⟨r, hr, he⟩ := List.mem_map.mp (mem_of_mem_valuesAt hv)
      cases he
      exact ⟨r, hr, rfl, direction_mask.mp hb⟩
  · rintro ⟨r, hr, rfl, hc⟩
    exact .inr ⟨_, mem_valuesAt (List.mem_map.mpr ⟨r, hr, rfl⟩), direction_mask.mpr hc⟩

/-! ## The result -/

/-- Whatever an access reads at an iteration point, its direction from the iteration point is recorded for its matrix,
    in each dimension. -/
def DirectionsSound (M : Maxima A) (regions : List (Region F)) (map : MatrixDependencyMap F) :
    Prop :=
  ∀ r ∈ regions, ∀ d < r.corners.dimensions, ∀ z x cell, M.Assumed (z, x) →
    A.Contains r.corners (z, x) cell →
      ∃ dep ∈ map.find r.fromMatrix, dep.direction.mask d &&& relation (cell d) (x d) ≠ 0

/-- Where the point is found to lie before the end of every region of a matrix, none of them has a
    cell to the left of it, and where it is found not to lie before the beginning of any, none has
    a cell to the right. -/
def NoneSpans (M : Maxima A) (regions : List (Region F)) : Prop :=
  ∀ r ∈ regions, ∀ d < r.corners.dimensions,
    ((∀ r' ∈ regions, r'.fromMatrix = r.fromMatrix → ∀ c, r'.corners.coords[d]? = some c →
        M.tryCompare (A.getOffsetVar d) .lt c.2 = .YES) →
      ∀ z x cell, M.Assumed (z, x) → A.Contains r.corners (z, x) cell → x d ≤ cell d)
    ∧ ((∀ r' ∈ regions, r'.fromMatrix = r.fromMatrix → ∀ c, r'.corners.coords[d]? = some c →
        M.tryCompare (A.getOffsetVar d) .ge c.1 = .YES) →
      ∀ z x cell, M.Assumed (z, x) → A.Contains r.corners (z, x) cell → cell d ≤ x d)

/-- **DEPENDENCY DIRECTIONS ARE SOUND** exactly if no region spans the iteration point unnoticed:
    for the regions a rule accesses, those of one matrix with as many dimensions. -/
theorem directions_sound_iff (M : Maxima A) (applicable : SimpleRegion F)
    (regions : List (Region F))
    (hdim : ∀ r ∈ regions, ∀ r' ∈ regions, r.fromMatrix = r'.fromMatrix →
      r.corners.dimensions = r'.corners.dimensions) :
    ∃ map, collectDependencies M applicable regions = some map
      ∧ (DirectionsSound M regions map ↔ NoneSpans M regions) := by
  obtain ⟨numDimensions, hnum⟩ := exists_numDimensions hdim
  obtain ⟨map, hmap⟩ := exists_collectDependencies M applicable hnum
  refine ⟨map, hmap, ?_, ?_⟩
  · intro hsound r hr d hd
    constructor
    · intro hyes z x cell hs hcell
      by_contra hlt
      obtain hrec := hsound r hr d hd z x cell hs hcell
      rw [relation, if_pos (not_le.mp hlt)] at hrec
      -- some region of the matrix has the direction, whose upper corner is not known
      obtain ⟨r', hr', hm, c, hc, hbit⟩ := (recorded_iff hmap _ _ _).mp hrec
      exact has_lt.mp hbit (hyes r' hr' hm c hc)
    · intro hyes z x cell hs hcell
      by_contra hgt
      obtain hrec := hsound r hr d hd z x cell hs hcell
      rw [relation, if_neg (by omega), if_neg (by omega)] at hrec
      obtain ⟨r', hr', hm, c, hc, hbit⟩ := (recorded_iff hmap _ _ _).mp hrec
      exact has_gt.mp hbit (hyes r' hr' hm c hc)
  · intro hspan r hr d hd z x cell hs hcell
    rw [recorded_iff hmap]
    obtain ⟨hleft, hright⟩ := hspan r hr d hd
    rcases lt_trichotomy (cell d) (x d) with hlt | heq | hgt
    · rw [relation, if_pos hlt]
      by_contra hnone
      -- nothing recorded means that all upper corners are known to lie beyond
      refine absurd (hleft (fun r' hr' hm c hc => ?_) z x cell hs hcell) (not_le.mpr hlt)
      by_contra hno
      exact hnone ⟨r', hr', hm, c, hc, has_lt.mpr hno⟩
    · rw [relation, if_neg (by omega), if_pos heq]
      -- the region itself has the equality
      obtain ⟨c, hc⟩ : ∃ c, r.corners.coords[d]? = some c := ⟨_, List.getElem?_eq_getElem hd⟩
      obtain ⟨hmin, hmax⟩ := hcell d _ hc
      refine ⟨r, hr, rfl, _, hc, has_eq hs ?_ ?_⟩
      · rw [A.eval_getOffsetVar, ← heq]
        exact hmin
      · rw [A.eval_getOffsetVar, ← heq]
        exact hmax
    · rw [relation, if_neg (by omega), if_neg (by omega)]
      by_contra hnone
      refine absurd (hright (fun r' hr' hm c hc => ?_) z x cell hs hcell) (not_le.mpr hgt)
      by_contra hno
      exact hnone ⟨r', hr', hm, c, hc, has_gt.mpr hno⟩

/-! ## A window around the point -/

/-- `[x - 1, x + 2)`, as a rule that reads its neighbours on both sides has it. -/
def window : Region Expr where
  fromMatrix := 0
  corners := ⟨[(.sub (.offset 0) (.const 1), .add (.offset 0) (.const 2))]⟩
  isOptional := false

/-- `[x - 2, x)`. -/
def before : Region Expr where
  fromMatrix := 0
  corners := ⟨[(.sub (.offset 0) (.const 2), .offset 0)]⟩
  isOptional := false

/-- The window contains the cell left of the point, and only the point is recorded. -/
theorem window_not_sound : ∃ map, collectDependencies Expr.maxima ⟨[]⟩ [window] = some map
    ∧ (map.find 0).map MatrixDependency.direction = some ⟨[D_EQ]⟩
    ∧ Expr.formulas.Contains window.corners (fun _ => 9, fun _ => 5) (fun _ => 4)
    ∧ ¬ DirectionsSound Expr.maxima [window] map := by
  have hcell : Expr.formulas.Contains window.corners (fun _ => 9, fun _ => 5)
      (fun _ => 4) := by
    intro d c hc
    cases d with
    | zero =>
        cases hc
        decide
    | succ d => cases hc
  refine ⟨_, rfl, by decide, hcell, fun hsound => ?_⟩
  obtain ⟨dep, hdep, hbit⟩ := hsound window List.mem_cons_self 0 (by decide) _ _ _ trivial hcell
  cases hdep
  revert hbit
  decide

theorem directions_sound_before : ∃ map,
    collectDependencies Expr.maxima ⟨[]⟩ [before] = some map
      ∧ (DirectionsSound Expr.maxima [before] map ↔ NoneSpans Expr.maxima [before]) :=
  directions_sound_iff Expr.maxima ⟨[]⟩ [before] (by
    intro r hr r' hr' _
    rw [List.mem_singleton.mp hr, List.mem_singleton.mp hr'])

end PbRegionDependency
