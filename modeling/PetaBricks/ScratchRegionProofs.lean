import PetaBricks.BlockFormProofs
import PetaBricks.RegionShapeProofs

/-!
# The scratch region — every access of a block, at the same cells

The bounds of a box over a block are the extremes of its coordinates there, and so of the
coordinates of the regions that it covers.  They are the extremes of the cells that are accessed
only if no region is empty: a region that grows with the offset has a corner where it is empty,
too.  In any case the cells lie between the bounds, and an access relative to them designates the
same cells in the scratch matrix (`Serves`).

The boxes are built before the last dimension of a matrix may be removed.  They serve what is
left of the regions, too: their bounds for the removed dimension come last, and nothing reads
them.
-/

namespace PbIterationBounds

open PbOrderedMap (OrderedMap)
open PbRegionMatrix (Geometry Contains)

section Regions

variable {F Z : Type} (A : Formulas F Z)

/-- Whether all coordinates are affine. -/
def SimpleRegion.Affine (r : SimpleRegion F) : Prop :=
  ∀ f, f ∈ r.minCoord ++ r.maxCoord → IsAffine A f

/-- The cells that some arguments access in a block. -/
def accessed (size : List F) (rs : List (Region F)) (s : State Z) : Set (List ℤ) :=
  {cell | ∃ r ∈ rs, ∃ x, A.Offsets s x ∧ r.Accesses A size s x cell}

/-- Some coordinate of each of some points. -/
def component (k : Nat) (points : Set (List ℤ)) : Set ℤ := (fun c => c.getD k 0) '' points

/-- The bounds of a box are right for some arguments, in a block.  Bounds behind the dimensions of
    the matrix are not read. -/
structure Serves (size : List F) (rs : List (Region F)) (s : State Z) (lower upper : List F) :
    Prop where
  /-- They are the extremes of the corners, -/
  corners : ∀ k, k < size.length →
    IsLeast (component k {c | ∃ r ∈ rs, ∃ x, A.Offsets s x ∧ r.corner A .le s x = c})
      ((A.evals lower s).getD k 0) ∧
    IsGreatest (component k {c | ∃ r ∈ rs, ∃ x, A.Offsets s x ∧ r.corner A .ge s x = c})
      ((A.evals upper s).getD k 0)
  /-- of the cells, if there is a cell at every offset, -/
  cells : (∀ r ∈ rs, ∀ x, A.Offsets s x → ∃ cell, r.Accesses A size s x cell) →
    ∀ k, k < size.length →
      IsLeast (component k (accessed A size rs s)) ((A.evals lower s).getD k 0) ∧
      IsGreatest (component k (accessed A size rs s)) ((A.evals upper s).getD k 0 - 1)
  /-- all cells lie between them, -/
  contains : ∀ cell ∈ accessed A size rs s,
    InBox ((A.evals lower s).take size.length) ((A.evals upper s).take size.length) cell
  /-- and accesses relative to them designate the same cells, if they are inside the matrix. -/
  same : (∀ r ∈ rs, ∀ x, A.Offsets s x → r.Inside A size s x) →
    ∀ r ∈ rs, ∀ x, A.Offsets s x → ∃ acc acc',
      r.generateAccessorCode size.length = some acc ∧
      r.generateAccessorCodeFrom A size.length lower = some acc' ∧
      SameView ((acc.map (A.eval · (s.atPoint x))).view (Geometry.whole (A.evals size s)))
        ((acc'.map (A.eval · (s.atPoint x))).view
          (scratch (A.evals size s) ((A.evals lower s).take size.length)
            ((A.evals upper s).take size.length)))

variable {A} {size : List F} {s : State Z}

/-! ## Values -/

/-- The last cell before a corner. -/
theorem getD_last {hi : List ℤ} {k : Nat} (hk : k < hi.length) :
    (hi.map (· - 1)).getD k 0 = hi.getD k 0 - 1 := by
  rw [List.getD_eq_getElem _ _ (by rw [List.length_map]; exact hk), List.getElem_map,
    List.getD_eq_getElem _ _ hk]

theorem Formulas.sub_eq_some (fs gs : List F) (h : fs.length ≤ gs.length) :
    ∃ ds, A.sub fs gs = some ds ∧
      ∀ s, A.evals ds s
        = List.zipWith (· - ·) (A.evals fs s) ((A.evals gs s).take fs.length) := by
  induction fs generalizing gs with
  | nil => exact ⟨[], rfl, fun _ => rfl⟩
  | cons f fs ih =>
      cases gs with
      | nil => cases h
      | cons g gs =>
          obtain ⟨ds, hds, heval⟩ := ih gs (Nat.le_of_succ_le_succ h)
          refine ⟨A.subtract f g :: ds, ?_, fun s => ?_⟩
          · rw [Formulas.sub, hds]
            rfl
          · have hrest := heval s
            simp only [Formulas.evals, List.map_cons, List.length_cons, List.take_succ_cons,
              List.zipWith_cons_cons, A.eval_subtract] at hrest ⊢
            rw [hrest]

/-! ## The bounds of a box that covers regions -/

theorem SimpleRegion.Affine.coord {r : SimpleRegion F} (h : r.Affine A) {op : Op} {f : F}
    (hf : f ∈ r.coord op) : IsAffine A f := by
  cases op with
  | le => exact h f (List.mem_append_left _ hf)
  | ge => exact h f (List.mem_append_right _ hf)

variable [DecidableEq F] (M : Maxima A)

/-- The bounds of a box for a comparison. -/
def SimpleRegion.bounds (box : SimpleRegion F) (op : Op) : List F :=
  (box.coord op).map (bound M op)

theorem SimpleRegion.Whole.lowerBounds_eq {box : SimpleRegion F} (h : box.Whole) :
    box.lowerBounds M = box.bounds M .le := by
  unfold SimpleRegion.lowerBounds SimpleRegion.getIterationLowerBounds
  rw [h.1, List.append_nil, iterationBounds_eq]
  rfl

theorem SimpleRegion.Whole.upperBounds_eq {box : SimpleRegion F} (h : box.Whole) :
    box.upperBounds M = box.bounds M .ge := by
  unfold SimpleRegion.upperBounds SimpleRegion.getIterationUpperBounds
  rw [h.2, List.append_nil, iterationBounds_eq]
  rfl

variable {M} {n : Nat} {rs : Set (SimpleRegion F)} {box : SimpleRegion F}

/-- A bound is a corner of a region that is covered, and no corner is more extreme. -/
theorem Covers.bounds_spec (h : Covers A s n rs box) (haff : ∀ r ∈ rs, r.Affine A)
    (hs : A.Nonempty s) (op : Op) {k : Nat} (hk : k < n) :
    (∃ r ∈ rs, ∃ x, A.Offsets s x ∧
        (r.corner A op s x).getD k 0 = (A.evals (box.bounds M op) s).getD k 0) ∧
      ∀ r ∈ rs, r.Full n → ∀ x, A.Offsets s x →
        op.Holds ((A.evals (box.bounds M op) s).getD k 0) ((r.corner A op s x).getD k 0) := by
  have hkb : k < (box.coord op).length := hk.trans_le (h.length op)
  have hf := List.getElem?_eq_getElem hkb
  generalize (box.coord op)[k] = f at hf
  have hbound : (box.bounds M op)[k]? = some (bound M op f) := by
    rw [SimpleRegion.bounds, List.getElem?_map, hf]
    rfl
  obtain ⟨r, hr, hrf⟩ := h.mem op k f hk hf
  have hfaff : IsAffine A f := (haff r hr).coord (List.mem_of_getElem? hrf)
  obtain ⟨⟨x, hx, heq⟩, hext⟩ := bound_spec M hfaff op hs
  rw [getD_evals hbound]
  constructor
  · refine ⟨r, hr, x, hx, ?_⟩
    rw [SimpleRegion.corner, getD_evals hrf, heq]
  · intro q hq hfull y hy
    have hkq : k < (q.coord op).length := by rw [hfull.length]; exact hk
    have hg := List.getElem?_eq_getElem hkq
    rw [SimpleRegion.corner, getD_evals hg]
    exact (hext y hy).trans (h.holds op q hq k f _ hk hf hg y hy)

theorem Covers.length_bounds (h : Covers A s n rs box) (op : Op) :
    ((A.evals (box.bounds M op) s).take n).length = n := by
  rw [List.length_take, length_evals, SimpleRegion.bounds, List.length_map,
    Nat.min_eq_left (h.length op)]

/-- The bounds of a box at every offset of the block. -/
theorem Covers.evals_bounds (h : Covers A s n rs box) (haff : ∀ r ∈ rs, r.Affine A)
    (hs : A.Nonempty s) (op : Op) (x : Nat → ℤ) :
    (A.evals (box.bounds M op) (s.atPoint x)).take n = (A.evals (box.bounds M op) s).take n := by
  unfold Formulas.evals
  rw [← List.map_take, ← List.map_take]
  refine List.map_congr_left fun b hb => ?_
  obtain ⟨k, hk⟩ := List.mem_iff_getElem?.mp hb
  have hkn : k < n := by
    have hlt := (List.getElem?_eq_some_iff.mp hk).1
    rw [List.length_take] at hlt
    exact hlt.trans_le (Nat.min_le_left n _)
  rw [List.getElem?_take_of_lt hkn, SimpleRegion.bounds, List.getElem?_map] at hk
  obtain ⟨f, hf, rfl⟩ := Option.map_eq_some_iff.mp hk
  obtain ⟨r, hr, hrf⟩ := h.mem op k f hkn hf
  exact bound_atPoint M ((haff r hr).coord (List.mem_of_getElem? hrf)) op hs x

/-- The regions as such. -/
def simpleRegions (rs : List (Region F)) : Set (SimpleRegion F) :=
  {q | ∃ r ∈ rs, r.toSimpleRegion = q}

omit [DecidableEq F] in
theorem affine_simpleRegions {rs : List (Region F)} (haff : ∀ r ∈ rs, r.Affine A) :
    ∀ q ∈ simpleRegions rs, q.Affine A := by
  rintro _ ⟨r, hr, rfl⟩
  exact haff r hr

section Serves

variable {rs : List (Region F)} (h : Covers A s size.length (simpleRegions rs) box)
  (hshaped : ∀ r ∈ rs, r.Shaped A size) (haff : ∀ r ∈ rs, r.Affine A) (hs : A.Nonempty s)
include h hshaped haff hs

/-- The extremes of the corners. -/
theorem Covers.corners {k : Nat} (hk : k < size.length) :
    IsLeast (component k {c | ∃ r ∈ rs, ∃ x, A.Offsets s x ∧ r.corner A .le s x = c})
      ((A.evals (box.bounds M .le) s).getD k 0) ∧
    IsGreatest (component k {c | ∃ r ∈ rs, ∃ x, A.Offsets s x ∧ r.corner A .ge s x = c})
      ((A.evals (box.bounds M .ge) s).getD k 0) := by
  have hall : ∀ op, (∃ r ∈ rs, ∃ x, A.Offsets s x ∧
      (r.corner A op s x).getD k 0 = (A.evals (box.bounds M op) s).getD k 0) ∧
      ∀ r ∈ rs, ∀ x, A.Offsets s x →
        op.Holds ((A.evals (box.bounds M op) s).getD k 0) ((r.corner A op s x).getD k 0) := by
    intro op
    obtain ⟨⟨q, ⟨r, hr, rfl⟩, x, hx, heq⟩, hext⟩ := h.bounds_spec (M := M)
      (affine_simpleRegions haff) hs op hk
    exact ⟨⟨r, hr, x, hx, heq⟩, fun q hq => hext q.toSimpleRegion ⟨q, hq, rfl⟩ (hshaped q hq).full⟩
  obtain ⟨⟨r, hr, x, hx, heq⟩, hext⟩ := hall .le
  obtain ⟨⟨r', hr', x', hx', heq'⟩, hext'⟩ := hall .ge
  refine ⟨⟨⟨_, ⟨r, hr, x, hx, rfl⟩, heq⟩, ?_⟩, ⟨⟨_, ⟨r', hr', x', hx', rfl⟩, heq'⟩, ?_⟩⟩
  · rintro _ ⟨_, ⟨q, hq, y, hy, rfl⟩, rfl⟩
    exact hext q hq y hy
  · rintro _ ⟨_, ⟨q, hq, y, hy, rfl⟩, rfl⟩
    exact hext' q hq y hy

/-- Each region lies between the bounds, at every offset. -/
theorem Covers.within {r : Region F} (hr : r ∈ rs) {x : Nat → ℤ} (hx : A.Offsets s x) :
    BoxWithin (r.corner A .le s x) (r.corner A .ge s x)
      ((A.evals (box.bounds M .le) s).take size.length)
      ((A.evals (box.bounds M .ge) s).take size.length) := by
  intro k hk
  rw [(hshaped r hr).full.length_corner] at hk
  rw [getD_take hk, getD_take hk]
  obtain ⟨hleast, hgreatest⟩ := h.corners (M := M) hshaped haff hs hk
  exact ⟨hleast.2 ⟨_, ⟨r, hr, x, hx, rfl⟩, rfl⟩, hgreatest.2 ⟨_, ⟨r, hr, x, hx, rfl⟩, rfl⟩⟩

/-- The bounds are corners, so they do not leave the matrix if no corner does. -/
theorem Covers.inside (hin : ∀ r ∈ rs, ∀ x, A.Offsets s x → r.Inside A size s x) :
    BoxWithin ((A.evals (box.bounds M .le) s).take size.length)
      ((A.evals (box.bounds M .ge) s).take size.length)
      ((A.evals size s).map fun _ => 0) (A.evals size s) := by
  intro k hk
  rw [h.length_bounds] at hk
  rw [getD_take hk, getD_take hk]
  obtain ⟨⟨⟨_, ⟨q, hq, y, hy, rfl⟩, heq⟩, -⟩, ⟨⟨_, ⟨q', hq', y', hy', rfl⟩, heq'⟩, -⟩⟩ :=
    h.corners (M := M) hshaped haff hs hk
  rw [← heq, ← heq']
  exact ⟨(hin q hq y hy k (by rw [(hshaped q hq).full.length_corner]; exact hk)).1,
    (hin q' hq' y' hy' k (by rw [(hshaped q' hq').full.length_corner]; exact hk)).2⟩

variable (hsize : ∀ f ∈ size, ∀ s x, A.eval f (s.atPoint x) = A.eval f s)
include hsize

/-- The cells lie between the bounds. -/
theorem Covers.inBox {cell : List ℤ} (hcell : cell ∈ accessed A size rs s) :
    InBox ((A.evals (box.bounds M .le) s).take size.length)
      ((A.evals (box.bounds M .ge) s).take size.length) cell := by
  obtain ⟨r, hr, x, hx, hacc⟩ := hcell
  have hfull := (hshaped r hr).full
  obtain ⟨hlen, hcell⟩ := ((hshaped r hr).accesses_iff hsize x cell).mp hacc
  rw [hfull.length_corner] at hlen hcell
  refine ⟨hlen.trans (h.length_bounds .le).symm, fun k hk => ?_⟩
  rw [h.length_bounds] at hk
  obtain ⟨hlo, hhi⟩ := hcell k hk
  obtain ⟨hlower, hupper⟩ := h.within (M := M) hshaped haff hs hr hx k
    (by rw [hfull.length_corner]; exact hk)
  exact ⟨hlower.trans hlo, hhi.trans_le hupper⟩

/-- The extremes of the cells, if no region is empty. -/
theorem Covers.cells
    (hne : ∀ r ∈ rs, ∀ x, A.Offsets s x → ∃ cell, r.Accesses A size s x cell)
    {k : Nat} (hk : k < size.length) :
    IsLeast (component k (accessed A size rs s)) ((A.evals (box.bounds M .le) s).getD k 0) ∧
    IsGreatest (component k (accessed A size rs s))
      ((A.evals (box.bounds M .ge) s).getD k 0 - 1) := by
  obtain ⟨⟨⟨_, ⟨r, hr, x, hx, rfl⟩, heq⟩, -⟩, ⟨⟨_, ⟨r', hr', x', hx', rfl⟩, heq'⟩, -⟩⟩ :=
    h.corners (M := M) hshaped haff hs hk
  -- both corners of a region that is not empty are cells of it
  have hcorner : ∀ q ∈ rs, ∀ y, A.Offsets s y →
      q.Accesses A size s y (q.corner A .le s y) ∧
        q.Accesses A size s y ((q.corner A .ge s y).map (· - 1)) := by
    intro q hq y hy
    have hfull := (hshaped q hq).full
    have hiff := (hshaped q hq).accesses_iff (s := s) hsize y
    obtain ⟨cell, hcell⟩ := hne q hq y hy
    obtain ⟨-, hbox⟩ := (hiff cell).mp hcell
    rw [hiff, hiff]
    have hlt : ∀ j, j < (q.corner A .le s y).length →
        (q.corner A .le s y).getD j 0 < (q.corner A .ge s y).getD j 0 :=
      fun j hj => (hbox j hj).1.trans_lt (hbox j hj).2
    refine ⟨⟨rfl, fun j hj => ⟨le_rfl, hlt j hj⟩⟩, ⟨?_, fun j hj => ?_⟩⟩
    · rw [List.length_map, hfull.length_corner, hfull.length_corner]
    · have hj' := hlt j hj
      rw [hfull.length_corner] at hj
      rw [getD_last (by rw [hfull.length_corner]; exact hj)]
      omega
  refine ⟨⟨⟨_, ⟨r, hr, x, hx, (hcorner r hr x hx).1⟩, heq⟩, ?_⟩,
    ⟨⟨_, ⟨r', hr', x', hx', (hcorner r' hr' x' hx').2⟩, ?_⟩, ?_⟩⟩
  · rintro _ ⟨cell, hcell, rfl⟩
    obtain ⟨-, hbox⟩ := h.inBox (M := M) hshaped haff hs hsize hcell
    have hlower := (hbox k (by rw [h.length_bounds]; exact hk)).1
    rw [getD_take hk] at hlower
    exact hlower
  · rw [← heq']
    exact getD_last (by rw [(hshaped r' hr').full.length_corner]; exact hk)
  · rintro _ ⟨cell, hcell, rfl⟩
    obtain ⟨-, hbox⟩ := h.inBox (M := M) hshaped haff hs hsize hcell
    have hupper := (hbox k (by rw [h.length_bounds]; exact hk)).2
    rw [getD_take hk] at hupper
    exact Int.le_sub_one_iff.mpr hupper

/-- Accesses relative to the lower bounds designate the same cells. -/
theorem Covers.same (hin : ∀ r ∈ rs, ∀ x, A.Offsets s x → r.Inside A size s x) {r : Region F}
    (hr : r ∈ rs) {x : Nat → ℤ} (hx : A.Offsets s x) :
    ∃ acc acc', r.generateAccessorCode size.length = some acc ∧
      r.generateAccessorCodeFrom A size.length (box.bounds M .le) = some acc' ∧
      SameView ((acc.map (A.eval · (s.atPoint x))).view (Geometry.whole (A.evals size s)))
        ((acc'.map (A.eval · (s.atPoint x))).view
          (scratch (A.evals size s) ((A.evals (box.bounds M .le) s).take size.length)
            ((A.evals (box.bounds M .ge) s).take size.length))) := by
  have hfull := (hshaped r hr).full
  have hlen : (A.evals size s).length = size.length := length_evals size s
  have hcorner : ∀ op, (r.corner A op s x).length = (A.evals size s).length :=
    fun op => (hfull.length_corner op x).trans hlen.symm
  have hbounds : ∀ op, ((A.evals (box.bounds M op) s).take size.length).length
      = (A.evals size s).length :=
    fun op => (h.length_bounds op).trans hlen.symm
  have hsizes : A.evals size (s.atPoint x) = A.evals size s :=
    List.map_congr_left fun f hf => hsize f hf s x
  have hshape := (hshaped r hr).shape (s.atPoint x)
  rw [hsizes] at hshape
  obtain ⟨acc, hacc, -⟩ := cells_iff (hcorner .le) (hcorner .ge) hshape
  obtain ⟨acc', hacc', hsame⟩ := view_scratch (hcorner .le) (hcorner .ge) (hbounds .le)
    (hbounds .ge) hshape (h.within (M := M) hshaped haff hs hr hx)
    (h.inside (M := M) hshaped haff hs hin) hacc
  rw [hlen] at hacc hacc'
  -- the differences of the formulas have the differences of the corners as values
  have hbase := h.evals_bounds (M := M) (affine_simpleRegions haff) hs .le x
  have hsub : ∀ op, ∃ ds, A.sub (r.coord op) (box.bounds M .le) = some ds ∧
      A.evals ds (s.atPoint x) = List.zipWith (· - ·) (r.corner A op s x)
        ((A.evals (box.bounds M .le) s).take size.length) := by
    intro op
    obtain ⟨ds, hds, heval⟩ := A.sub_eq_some (r.coord op) (box.bounds M .le) (by
      rw [hfull.length, SimpleRegion.bounds, List.length_map]
      exact h.length .le)
    refine ⟨ds, hds, ?_⟩
    rw [heval, hfull.length, hbase]
    rfl
  obtain ⟨lo, hlo, hlov⟩ := hsub .le
  obtain ⟨hi, hhi, hhiv⟩ := hsub .ge
  rw [← hlov, ← hhiv] at hacc'
  obtain ⟨code, hcode, rfl⟩ := Region.exists_accessor hacc
  obtain ⟨code', hcode', rfl⟩ := Region.exists_accessor hacc'
  refine ⟨code, code', hcode, ?_, hsame⟩
  unfold Region.generateAccessorCodeFrom
  rw [show r.minCoord = r.coord .le from rfl, show r.maxCoord = r.coord .ge from rfl, hlo, hhi]
  exact hcode'

/-- **SCRATCH**: the bounds of a box that covers the regions serve them. -/
theorem Covers.serves :
    Serves A size rs s (box.lowerBounds M) (box.upperBounds M) := by
  rw [h.whole.lowerBounds_eq, h.whole.upperBounds_eq]
  exact {
    corners := fun k hk => h.corners hshaped haff hs hk
    cells := fun hne k hk => h.cells hshaped haff hs hsize hne hk
    contains := fun cell hcell => h.inBox hshaped haff hs hsize hcell
    same := fun hin r hr x hx => h.same hshaped haff hs hsize hin hr hx }

end Serves

/-! ## Types that are fixed, and dimensions that are removed -/

omit [DecidableEq F] in
theorem simpleRegions_fixed (rs : List (Region F)) :
    simpleRegions (rs.map Region.fixTypeIfVersioned) = simpleRegions rs := by
  ext q
  constructor
  · rintro ⟨_, hmem, rfl⟩
    obtain ⟨r, hr, rfl⟩ := List.mem_map.mp hmem
    exact ⟨r, hr, r.fixTypeIfVersioned_toSimpleRegion.symm⟩
  · rintro ⟨r, hr, rfl⟩
    exact ⟨_, List.mem_map_of_mem hr, r.fixTypeIfVersioned_toSimpleRegion⟩

section Fixed

variable {rs : List (Region F)} (h : Covers A s size.length (simpleRegions rs) box)
  (hshaped : ∀ r ∈ rs, r.fixTypeIfVersioned.Shaped A size) (haff : ∀ r ∈ rs, r.Affine A)
  (hs : A.Nonempty s) (hsize : ∀ f ∈ size, ∀ s x, A.eval f (s.atPoint x) = A.eval f s)
include h hshaped haff hs hsize

theorem Covers.serves_fixed :
    Serves A size (rs.map Region.fixTypeIfVersioned) s (box.lowerBounds M)
      (box.upperBounds M) := by
  rw [← simpleRegions_fixed] at h
  refine h.serves ?_ ?_ hs hsize
  · intro _ hmem
    obtain ⟨r, hr, rfl⟩ := List.mem_map.mp hmem
    exact hshaped r hr
  · intro _ hmem
    obtain ⟨r, hr, rfl⟩ := List.mem_map.mp hmem
    rw [r.fixTypeIfVersioned_toSimpleRegion]
    exact haff r hr

/-- The bounds serve what is left of the regions without the last dimension of the matrix. -/
theorem Covers.serves_removed (hwhole : ∀ r ∈ rs, r.Whole) {d : Nat} (hd : size.length = d + 1)
    {rest : List (Region F)} (hrest : Region.removeDimensionFromRegionList d rs = some rest)
    (hkind : ∀ q ∈ rest, q.type = .cell ∨ q.type = .box ∨ q.type = .all) :
    Serves A (size.eraseIdx d) (rest.map Region.fixTypeIfVersioned) s (box.lowerBounds M)
      (box.upperBounds M) := by
  obtain ⟨hsup, hsub⟩ := mem_of_mapM hrest
  have hremoved : ∀ q ∈ rest, ∀ r ∈ rs, r.removeDimension d = some q →
      (∀ op, q.coord op = (r.coord op).take d) ∧
        q.fixTypeIfVersioned.Shaped A (size.eraseIdx d) := by
    intro q hq r hr hqr
    have htype : q.type = r.type := by
      obtain ⟨_, -, rfl⟩ := Option.map_eq_some_iff.mp hqr
      rfl
    exact (hshaped r hr).removeDimension (hwhole r hr) hd (htype ▸ hkind q hq) hqr
  have hlength : (size.eraseIdx d).length = d := by
    rw [eraseIdx_last hd, List.length_take, hd, Nat.min_eq_left (Nat.le_succ d)]
  have hcov : Covers A s (size.eraseIdx d).length (simpleRegions rest) box := by
    rw [hlength]
    refine h.take (by rw [hd]; exact Nat.le_succ d) ?_ ?_
    · rintro _ ⟨q, hq, rfl⟩
      obtain ⟨r, hr, hqr⟩ := hsub q hq
      exact ⟨r.toSimpleRegion, ⟨r, hr, rfl⟩, (hremoved q hq r hr hqr).1⟩
    · rintro _ ⟨r, hr, rfl⟩
      obtain ⟨q, hq, hqr⟩ := hsup r hr
      exact ⟨q.toSimpleRegion, ⟨q, hq, rfl⟩, (hremoved q hq r hr hqr).1⟩
  refine hcov.serves_fixed ?_ ?_ hs fun f hf => hsize f (List.mem_of_mem_eraseIdx hf)
  · intro q hq
    obtain ⟨r, hr, hqr⟩ := hsub q hq
    exact (hremoved q hq r hr hqr).2
  · intro q hq f hf
    obtain ⟨r, hr, hqr⟩ := hsub q hq
    obtain ⟨hcoord, -⟩ := hremoved q hq r hr hqr
    have hcoords : ∀ op, f ∈ q.coord op → IsAffine A f := by
      intro op hf
      rw [hcoord] at hf
      exact (haff r hr).coord (List.mem_of_mem_take hf)
    exact (List.mem_append.mp hf).elim (hcoords .le) (hcoords .ge)

end Fixed

variable (M) in
/-- A region has the same bounds without its last dimension. -/
theorem SimpleRegion.bounds_removed {r q : SimpleRegion F} {d : Nat} (h : r.Full (d + 1))
    (hw : r.Whole) (hq : r.removeDimension d = some q) :
    q.lowerBounds M = r.lowerBounds M ∧ q.upperBounds M = r.upperBounds M := by
  obtain ⟨-, -, hmin, hmax⟩ := SimpleRegion.removeDimension_last h hw hq
  constructor
  · unfold SimpleRegion.lowerBounds SimpleRegion.getIterationLowerBounds
    rw [hmin, hw.1, List.append_nil]
  · unfold SimpleRegion.upperBounds SimpleRegion.getIterationUpperBounds
    rw [hmax, hw.2, List.append_nil]

/-! ## Rules -/

variable (A) in
/-- The arguments of a rule, relative to its offset variables, before types are fixed, and the
    sizes of the matrices, which do not depend on the offset. -/
structure UserRule where
  size : Matrix → List F
  toRegions : List (Region F)
  fromRegions : List (Region F)
  whole : ∀ r ∈ toRegions ++ fromRegions, r.Whole
  shaped : ∀ r ∈ toRegions ++ fromRegions, r.fixTypeIfVersioned.Shaped A (size r.matrix)
  constant : ∀ m, ∀ f ∈ size m, ∀ s x, A.eval f (s.atPoint x) = A.eval f s

namespace UserRule

variable (rule : UserRule A)

/-- What the rule accesses of a matrix. -/
def regionsOf (m : Matrix) : List (Region F) :=
  (rule.toRegions ++ rule.fromRegions).filter fun r => r.matrix = m

omit [DecidableEq F] in
theorem mem_regionsOf {m : Matrix} {r : Region F} :
    r ∈ rule.regionsOf m ↔ r ∈ rule.toRegions ++ rule.fromRegions ∧ r.matrix = m := by
  rw [regionsOf, List.mem_filter, decide_eq_true_iff]

omit [DecidableEq F] in
theorem simpleRegions_regionsOf (m : Matrix) :
    simpleRegions (rule.regionsOf m)
      = PbIterationBounds.regionsOf m (rule.toRegions ++ rule.fromRegions) := by
  ext q
  constructor
  · rintro ⟨r, hr, hq⟩
    obtain ⟨hr, hm⟩ := rule.mem_regionsOf.mp hr
    exact ⟨r, hr, hm, hq⟩
  · rintro ⟨r, hr, hm, hq⟩
    exact ⟨r, rule.mem_regionsOf.mpr ⟨hr, hm⟩, hq⟩

omit [DecidableEq F] in
theorem full {r : Region F} (hr : r ∈ rule.toRegions ++ rule.fromRegions) :
    r.Full (rule.size r.matrix).length := by
  rw [← r.fixTypeIfVersioned_toSimpleRegion]
  exact (rule.shaped r hr).full

/-- The bounds of one region serve its accesses. -/
theorem serves_region (hs : A.Nonempty s) {r : Region F}
    (hr : r ∈ rule.toRegions ++ rule.fromRegions) (haff : r.Affine A) :
    Serves A (rule.size r.matrix) [r.fixTypeIfVersioned] s (r.lowerBounds M)
      (r.upperBounds M) := by
  have hone : simpleRegions [r] = {r.toSimpleRegion} := by
    ext q
    constructor
    · rintro ⟨r', hr', rfl⟩
      rw [List.mem_singleton.mp hr']
      rfl
    · rintro rfl
      exact ⟨r, List.mem_singleton_self r, rfl⟩
  have hcov : Covers A s (rule.size r.matrix).length (simpleRegions [r]) r.toSimpleRegion := by
    rw [hone]
    exact Covers.singleton (rule.full hr) (rule.whole r hr)
  refine hcov.serves_fixed ?_ ?_ hs (rule.constant r.matrix)
  · intro r' hr'
    rw [List.mem_singleton.mp hr']
    exact rule.shaped r hr
  · intro r' hr'
    rw [List.mem_singleton.mp hr']
    exact haff

variable (M) in
/-- **BOUNDS**: in every block that has an iteration, the bounds of each region of a rule serve
    its accesses, and the bounds of the scratch bounding box of a matrix serve all that the rule
    accesses of it, if the minima and maxima of their coordinates are exact.  They are the same,
    and serve the accesses, when the last dimension of the matrix is removed later. -/
theorem bounds_serve (facts : List (F × F)) (hs : A.Nonempty s) :
    (∀ r ∈ rule.toRegions ++ rule.fromRegions, r.Affine A →
      Serves A (rule.size r.matrix) [r.fixTypeIfVersioned] s (r.lowerBounds M)
        (r.upperBounds M) ∧
      ∀ d, (rule.size r.matrix).length = d + 1 → ∀ q, r.removeDimension d = some q →
        q.lowerBounds M = r.lowerBounds M ∧ q.upperBounds M = r.upperBounds M) ∧
    ∀ boxes, scratchBoundingBox M facts rule.toRegions rule.fromRegions = some boxes →
      ∀ m, rule.regionsOf m ≠ [] → (∀ r ∈ rule.regionsOf m, r.Affine A) →
        ExactOn M facts s (simpleRegions (rule.regionsOf m)) →
        ∃ box, boxes.find m = some box ∧
          Serves A (rule.size m) ((rule.regionsOf m).map Region.fixTypeIfVersioned) s
            (box.lowerBounds M) (box.upperBounds M) ∧
          ∀ d, (rule.size m).length = d + 1 → ∀ rest,
            Region.removeDimensionFromRegionList d (rule.regionsOf m) = some rest →
            (∀ q ∈ rest, q.type = .cell ∨ q.type = .box ∨ q.type = .all) →
            Serves A ((rule.size m).eraseIdx d) (rest.map Region.fixTypeIfVersioned) s
              (box.lowerBounds M) (box.upperBounds M) := by
  constructor
  · intro r hr haff
    refine ⟨rule.serves_region hs hr haff, fun d hd q hq => ?_⟩
    obtain ⟨q₀, hq₀, rfl⟩ := Option.map_eq_some_iff.mp hq
    have hfull := rule.full hr
    rw [hd] at hfull
    exact SimpleRegion.bounds_removed M hfull (rule.whole r hr) hq₀
  · intro boxes hboxes m hne haff hexact
    have hmem : ∀ r ∈ rule.regionsOf m,
        r ∈ rule.toRegions ++ rule.fromRegions ∧ r.matrix = m :=
      fun r hr => rule.mem_regionsOf.mp hr
    have hshaped : ∀ r ∈ rule.regionsOf m, r.fixTypeIfVersioned.Shaped A (rule.size m) := by
      intro r hr
      obtain ⟨hrule, rfl⟩ := hmem r hr
      exact rule.shaped r hrule
    have hwhole : ∀ r ∈ rule.regionsOf m, r.Whole := fun r hr => rule.whole r (hmem r hr).1
    rw [simpleRegions_regionsOf] at hexact
    have hcov := scratchBoundingBox_covered (n := (rule.size m).length) (m := m) ?_ hexact hboxes
    · rw [← simpleRegions_regionsOf] at hcov
      cases hfind : boxes.find m with
      | none =>
          obtain ⟨r, hr⟩ := List.exists_mem_of_ne_nil _ hne
          have hr' : r.toSimpleRegion ∈ simpleRegions (rule.regionsOf m) := ⟨r, hr, rfl⟩
          rw [hcov.1 hfind] at hr'
          exact absurd hr' (Set.notMem_empty _)
      | some box =>
          have hbox := hcov.2 box hfind
          exact ⟨box, rfl, hbox.serves_fixed hshaped haff hs (rule.constant m),
            fun d hd rest hrest hkind =>
              hbox.serves_removed hshaped haff hs (rule.constant m) hwhole hd hrest hkind⟩
    · rintro r hr rfl
      exact ⟨rule.full hr, rule.whole r hr⟩

end UserRule

end Regions

/-! ## A rule that reads backwards, and a triangle -/

open BlockForm (formulas solver)

/-- Forms without the ends of a block are affine. -/
theorem BlockForm.isAffine {f : BlockForm} (hb : f.iterBegin = 0) (he : f.iterEnd = 0) :
    IsAffine formulas f := by
  refine ⟨fun n => f.size * n + f.const, fun _ _ => f.offset, ?_, fun s => ?_⟩
  · intro j _
    exact (le_total 0 f.offset).imp (fun h _ => h) fun h _ => h
  · show f.eval s = f.size * s.sizes + f.const + ∑ j ∈ Finset.range 1, f.offset * s.offset j
    rw [Finset.sum_range_one, BlockForm.eval, hb, he]
    ring

/-- `A<i>.cell(n - 1 - i - k)`: the version is the last dimension. -/
def backwards (k : ℤ) : Region BlockForm where
  minCoord := [⟨-1, 0, 0, 1, -1 - k⟩, ⟨1, 0, 0, 0, 0⟩]
  maxCoord := [⟨-1, 0, 0, 1, -k⟩, ⟨1, 0, 0, 0, 1⟩]
  removedMinCoord := []
  removedMaxCoord := []
  matrix := 0
  version := some ⟨1, 0, 0, 0, 0⟩
  type := .cell
  isOptional := false

theorem backwards_shaped (k : ℤ) :
    (backwards k).Shaped formulas [⟨0, 0, 0, 1, 0⟩, ⟨0, 0, 0, 1, 0⟩] where
  full := ⟨fun op => by cases op <;> rfl⟩
  shape := fun s => by
    show [BlockForm.eval _ s, BlockForm.eval _ s] = [BlockForm.eval _ s + 1, BlockForm.eval _ s + 1]
    have hcell : BlockForm.eval ⟨-1, 0, 0, 1, -k⟩ s
        = BlockForm.eval ⟨-1, 0, 0, 1, -1 - k⟩ s + 1 := by
      simp only [BlockForm.eval]
      ring
    have hversion : BlockForm.eval ⟨1, 0, 0, 0, 1⟩ s = BlockForm.eval ⟨1, 0, 0, 0, 0⟩ s + 1 := by
      simp only [BlockForm.eval]
      ring
    rw [hcell, hversion]

theorem backwards_affine (k : ℤ) : (backwards k).Affine formulas := by
  intro f hf
  have hends : f.iterBegin = 0 ∧ f.iterEnd = 0 := by
    have hcases : f = ⟨-1, 0, 0, 1, -1 - k⟩ ∨ f = ⟨1, 0, 0, 0, 0⟩ ∨ f = ⟨-1, 0, 0, 1, -k⟩ ∨
        f = ⟨1, 0, 0, 0, 1⟩ := by
      simpa [backwards] using hf
    rcases hcases with rfl | rfl | rfl | rfl
    · exact ⟨rfl, rfl⟩
    · exact ⟨rfl, rfl⟩
    · exact ⟨rfl, rfl⟩
    · exact ⟨rfl, rfl⟩
  exact BlockForm.isAffine hends.1 hends.2

/-- Two of them differ by a number in each coordinate. -/
theorem backwards_difference {op : Op} {a b : ℤ} {k : Nat} {f g : BlockForm}
    (hf : ((backwards a).coord op)[k]? = some f) (hg : ((backwards b).coord op)[k]? = some g) :
    (f.subtract g).offset = 0 ∧ (f.subtract g).iterBegin = 0 ∧ (f.subtract g).iterEnd = 0 ∧
      (f.subtract g).size = 0 := by
  have hlt : k < 2 := by
    have h := (List.getElem?_eq_some_iff.mp hf).1
    cases op with
    | le => exact h
    | ge => exact h
  have hcoord : ∀ (c : ℤ) (e : BlockForm), ((backwards c).coord op)[k]? = some e →
      e.offset = (if k = 0 then -1 else 1) ∧ e.iterBegin = 0 ∧ e.iterEnd = 0 ∧
        e.size = (if k = 0 then 1 else 0) := by
    intro c e he
    rcases Nat.lt_succ_iff_lt_or_eq.mp hlt with hk | rfl
    · obtain rfl := Nat.lt_one_iff.mp hk
      cases op with
      | le => exact Option.some.inj he ▸ ⟨rfl, rfl, rfl, rfl⟩
      | ge => exact Option.some.inj he ▸ ⟨rfl, rfl, rfl, rfl⟩
    · cases op with
      | le => exact Option.some.inj he ▸ ⟨rfl, rfl, rfl, rfl⟩
      | ge => exact Option.some.inj he ▸ ⟨rfl, rfl, rfl, rfl⟩
  simp only [BlockForm.subtract, hcoord a f hf, hcoord b g hg, sub_self, and_self]

/-- A rule that reads two cells of a version of a matrix, from its end. -/
def reverseRule : UserRule formulas where
  size := fun _ => [⟨0, 0, 0, 1, 0⟩, ⟨0, 0, 0, 1, 0⟩]
  toRegions := []
  fromRegions := [backwards 0, backwards 1]
  whole := by
    intro r hr
    rcases List.mem_pair.mp hr with rfl | rfl
    · exact ⟨rfl, rfl⟩
    · exact ⟨rfl, rfl⟩
  shaped := by
    intro r hr
    rcases List.mem_pair.mp hr with rfl | rfl
    · exact backwards_shaped 0
    · exact backwards_shaped 1
  constant := by
    intro _ f hf s x
    obtain rfl : f = ⟨0, 0, 0, 1, 0⟩ := by simpa using hf
    show BlockForm.eval _ _ = BlockForm.eval _ _
    simp only [BlockForm.eval, zero_mul]
    rfl

/-- The first two iterations, for a matrix of four cells. -/
def firstTwo : State ℤ := ⟨4, fun _ => 0, fun _ => 0, fun _ => 2⟩

theorem firstTwo_nonempty : formulas.Nonempty firstTwo := by
  intro j _
  show (0 : ℤ) < 2
  norm_num

/-- What is known of the size when the boxes are built. -/
def largeSize : List (BlockForm × BlockForm) := [(⟨0, 0, 0, 0, 1000⟩, ⟨0, 0, 0, 1, 0⟩)]

theorem mem_reverseRule {r : Region BlockForm} (hr : r ∈ reverseRule.regionsOf 0) :
    ∃ k, r = backwards k := by
  obtain ⟨hr, -⟩ := reverseRule.mem_regionsOf.mp hr
  rcases List.mem_pair.mp hr with rfl | rfl
  · exact ⟨0, rfl⟩
  · exact ⟨1, rfl⟩

theorem reverseRule_exactOn :
    ExactOn solver largeSize firstTwo (simpleRegions (reverseRule.regionsOf 0)) := by
  rintro op _ ⟨r, hr, rfl⟩ _ ⟨r', hr', rfl⟩ k f g hf hg x -
  obtain ⟨a, rfl⟩ := mem_reverseRule hr
  obtain ⟨b, rfl⟩ := mem_reverseRule hr'
  exact BlockForm.choose_holds largeSize op (backwards_difference hf hg) _

/-- Without the dimension of the versions, too. -/
theorem bounds_serve_reverse :
    ∃ boxes, scratchBoundingBox solver largeSize reverseRule.toRegions reverseRule.fromRegions
        = some boxes ∧
      ∃ box, boxes.find 0 = some box ∧
        formulas.evals (box.lowerBounds solver) firstTwo = [1, 0] ∧
        formulas.evals (box.upperBounds solver) firstTwo = [4, 2] ∧
        Serves formulas (reverseRule.size 0)
          ((reverseRule.regionsOf 0).map Region.fixTypeIfVersioned) firstTwo
          (box.lowerBounds solver) (box.upperBounds solver) ∧
        ∃ rest, Region.removeDimensionFromRegionList 1 (reverseRule.regionsOf 0) = some rest ∧
          Serves formulas ((reverseRule.size 0).eraseIdx 1)
            (rest.map Region.fixTypeIfVersioned) firstTwo
            (box.lowerBounds solver) (box.upperBounds solver) := by
  refine ⟨_, rfl, ?_⟩
  obtain ⟨box, hbox, hserves, hrest⟩ := (reverseRule.bounds_serve solver largeSize
    firstTwo_nonempty).2 _ rfl 0 (List.cons_ne_nil _ _)
    (fun r hr => by
      obtain ⟨k, rfl⟩ := mem_reverseRule hr
      exact backwards_affine k) reverseRule_exactOn
  refine ⟨box, hbox, ?_, ?_, hserves, _, rfl, hrest 1 rfl _ rfl ?_⟩
  · rw [← Option.some.inj hbox]
    decide
  · rw [← Option.some.inj hbox]
    decide
  · intro q hq
    rcases List.mem_pair.mp hq with rfl | rfl
    · exact Or.inl rfl
    · exact Or.inl rfl

/-- `A.region(i, 0, n, i)`: it has no cell at the first iteration. -/
def triangle : Region BlockForm where
  minCoord := [⟨1, 0, 0, 0, 0⟩, ⟨0, 0, 0, 0, 0⟩]
  maxCoord := [⟨0, 0, 0, 1, 0⟩, ⟨1, 0, 0, 0, 0⟩]
  removedMinCoord := []
  removedMaxCoord := []
  matrix := 0
  version := none
  type := .box
  isOptional := false

/-- A rule that reads it. -/
def triangleRule : UserRule formulas where
  size := fun _ => [⟨0, 0, 0, 1, 0⟩, ⟨0, 0, 0, 1, 0⟩]
  toRegions := []
  fromRegions := [triangle]
  whole := by
    intro r hr
    rw [List.mem_singleton.mp hr]
    exact ⟨rfl, rfl⟩
  shaped := by
    intro r hr
    rw [List.mem_singleton.mp hr]
    exact ⟨⟨fun op => by cases op <;> rfl⟩, fun _ => trivial⟩
  constant := by
    intro _ f hf s x
    obtain rfl : f = ⟨0, 0, 0, 1, 0⟩ := by simpa using hf
    show BlockForm.eval _ _ = BlockForm.eval _ _
    simp only [BlockForm.eval, zero_mul]
    rfl

theorem triangle_affine : triangle.Affine formulas := by
  intro f hf
  have hends : f.iterBegin = 0 ∧ f.iterEnd = 0 := by
    have hcases : f = ⟨1, 0, 0, 0, 0⟩ ∨ f = ⟨0, 0, 0, 0, 0⟩ ∨ f = ⟨0, 0, 0, 1, 0⟩ ∨
        f = ⟨1, 0, 0, 0, 0⟩ := by
      simpa [triangle] using hf
    rcases hcases with rfl | rfl | rfl | rfl
    · exact ⟨rfl, rfl⟩
    · exact ⟨rfl, rfl⟩
    · exact ⟨rfl, rfl⟩
    · exact ⟨rfl, rfl⟩
  exact BlockForm.isAffine hends.1 hends.2

/-- The least column of the triangle's corners is 0, but the cells begin at column 1. -/
theorem not_cells_triangle :
    ¬∀ (rule : UserRule formulas) (s : State ℤ), formulas.Nonempty s →
      ∀ r ∈ rule.toRegions ++ rule.fromRegions, r.Affine formulas →
        ∀ k, k < (rule.size r.matrix).length →
          IsLeast
            (component k (accessed formulas (rule.size r.matrix) [r.fixTypeIfVersioned] s))
            ((formulas.evals (r.lowerBounds solver) s).getD k 0) ∧
          IsGreatest
            (component k (accessed formulas (rule.size r.matrix) [r.fixTypeIfVersioned] s))
            ((formulas.evals (r.upperBounds solver) s).getD k 0 - 1) := by
  intro hclaim
  obtain ⟨⟨hmem, -⟩, -⟩ := hclaim triangleRule firstTwo firstTwo_nonempty triangle
    (List.mem_singleton_self _) triangle_affine 0 Nat.two_pos
  have hlower : (formulas.evals (triangle.lowerBounds solver) firstTwo).getD 0 0 = 0 := by
    decide
  rw [hlower] at hmem
  obtain ⟨cell, ⟨r, hr, x, -, hacc⟩, hcell⟩ := hmem
  obtain rfl : r = triangle := List.mem_singleton.mp hr
  obtain ⟨-, hbox⟩ := ((triangleRule.shaped triangle (List.mem_singleton_self _)).accesses_iff
    (triangleRule.constant 0) x cell).mp hacc
  -- a cell in column 0 is at offset 0, where there is no row
  have hcol : x 0 ≤ cell.getD 0 0 := by
    refine le_trans (le_of_eq ?_) (hbox 0 Nat.two_pos).1
    show x 0 = BlockForm.eval ⟨1, 0, 0, 0, 0⟩ (firstTwo.atPoint x)
    simp only [BlockForm.eval, State.atPoint]
    ring
  have hrow : 0 < x 0 := by
    obtain ⟨hlo, hhi⟩ := hbox 1 Nat.one_lt_two
    refine lt_of_le_of_lt (hlo.trans' (le_of_eq ?_)) (hhi.trans_le (le_of_eq ?_))
    · show 0 = BlockForm.eval ⟨0, 0, 0, 0, 0⟩ (firstTwo.atPoint x)
      simp only [BlockForm.eval]
      ring
    · show BlockForm.eval ⟨1, 0, 0, 0, 0⟩ (firstTwo.atPoint x) = x 0
      simp only [BlockForm.eval, State.atPoint]
      ring
  have hcell' : cell.getD 0 0 = 0 := hcell
  omega

end PbIterationBounds
