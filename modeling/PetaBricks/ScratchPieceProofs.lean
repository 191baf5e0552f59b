import PetaBricks.DataHostsProofs
import PetaBricks.ScratchCopyModel

/-! # Scratch pieces — a view by its pieces in the parts

    A view is a list of axes, and so is its piece in a part: a fixed axis keeps its place, an own
    axis is cut to what the part has of it.  A coordinate of the piece is one of the view, shifted
    (`piece_cell`), and every coordinate of the view is in one piece (`piece_cover`).

    The loops of `copyHelper` find the axes of the view in its record (`Walk`), and the records
    they make are those of the pieces (`partCopy_eq`). -/

namespace PbScratchCopy

open PbAxes PbRegionMatrix PbRegionSplit PbDataHosts
open PbScratchMetadata (PartDim partDims)
open PbMatrixRegion (InBox Positive contains_cons)

/-! ## Pieces -/

/-- What a part has of an axis; `q` is its number in the dimension. -/
def pieceAxis (d : SplitDim) (q : ℤ) : Axis → Axis
  | .fixed p => .fixed (p - d.splitSize * q)
  | .free o n =>
      .free (max o (d.splitSize * q) - d.splitSize * q)
        (min (o + n) (d.splitSize * q + d.splitSize) - max o (d.splitSize * q))

def pieceAxes : List SplitDim → List Axis → List ℤ → List Axis
  | d :: dims, a :: as, q :: qs => pieceAxis d q a :: pieceAxes dims as qs
  | _, _, _ => []

/-- Where the piece begins in the view. -/
def shift : List SplitDim → List Axis → List ℤ → List ℤ
  | _ :: dims, .fixed _ :: as, _ :: qs => shift dims as qs
  | d :: dims, .free o _ :: as, q :: qs =>
      (max o (d.splitSize * q) - o) :: shift dims as qs
  | _, _, _ => []

/-- The coordinate of the view. -/
def shifted (c shifts : List ℤ) : List ℤ := List.zipWith (· + ·) c shifts

/-- The numbers of the parts that a view is in. -/
def InParts (dims : List SplitDim) (as : List Axis) (qs : List ℤ) : Prop :=
  InBox (firstParts dims (axisBegins as)) (stopParts dims (axisBegins as) (axisEnds as)) qs

section Pieces

variable {dims : List SplitDim} {as : List Axis} {qs x y : List ℤ} {d : SplitDim} {p o n q : ℤ}

theorem axisBegins_fixed : axisBegins (.fixed p :: as) = p :: axisBegins as := rfl

theorem axisEnds_fixed : axisEnds (.fixed p :: as) = p :: axisEnds as := rfl

theorem axisBegins_free : axisBegins (.free o n :: as) = o :: axisBegins as :=
  congrArg (· :: axisBegins as) (Int.zero_add o)

theorem axisEnds_free : axisEnds (.free o n :: as) = (o + n) :: axisEnds as :=
  congrArg (· :: axisEnds as) (Int.add_comm n o)

theorem inParts_fixed : InParts (d :: dims) (.fixed p :: as) (q :: qs) ↔
    q = p.tdiv d.splitSize ∧ InParts dims as qs := by
  have hmax : max p (p - 1) = p := max_eq_left (by omega)
  rw [InParts, axisBegins_fixed, axisEnds_fixed, firstParts_cons, stopParts_cons, hmax]
  constructor
  · intro h
    cases h with
    | cons hx h => exact ⟨by omega, h⟩
  · rintro ⟨rfl, h⟩
    exact .cons ⟨le_rfl, Int.lt_succ _⟩ h

theorem inParts_free : InParts (d :: dims) (.free o n :: as) (q :: qs) ↔
    (o.tdiv d.splitSize ≤ q ∧ q < (max o (o + n - 1)).tdiv d.splitSize + 1) ∧
      InParts dims as qs := by
  rw [InParts, axisBegins_free, axisEnds_free, firstParts_cons, stopParts_cons]
  constructor
  · intro h
    cases h with
    | cons hx h => exact ⟨hx, h⟩
  · rintro ⟨hx, h⟩
    exact .cons hx h

/-- The axes of a view with corners in order. -/
theorem corners_fixed (h : Corners (d :: dims) (axisBegins (.fixed p :: as))
    (axisEnds (.fixed p :: as))) : 0 ≤ p ∧ Corners dims (axisBegins as) (axisEnds as) := by
  rw [axisBegins_fixed, axisEnds_fixed] at h
  cases h with
  | cons hb h => exact ⟨hb.1, h⟩

theorem corners_free (h : Corners (d :: dims) (axisBegins (.free o n :: as))
    (axisEnds (.free o n :: as))) : (0 ≤ o ∧ 0 ≤ n) ∧ Corners dims (axisBegins as) (axisEnds as) := by
  rw [axisBegins_free, axisEnds_free] at h
  cases h with
  | cons hb h => exact ⟨⟨hb.1, by omega⟩, h⟩

/-- Dimension by dimension. -/
theorem pieces_induct {motive : List SplitDim → List Axis → Prop} (nil : motive [] [])
    (fixed : ∀ d dims p as, 0 ≤ p → motive dims as → motive (d :: dims) (.fixed p :: as))
    (free : ∀ d dims o n as, 0 ≤ o → 0 ≤ n → motive dims as → motive (d :: dims) (.free o n :: as))
    (h : Corners dims (axisBegins as) (axisEnds as)) : motive dims as := by
  induction as generalizing dims with
  | nil =>
      cases h
      exact nil
  | cons a as ih =>
      cases dims with
      | nil =>
          cases a with
          | fixed p => cases h
          | free o n => cases h
      | cons d dims =>
          cases a with
          | fixed p =>
              obtain ⟨hp, h⟩ := corners_fixed h
              exact fixed d dims p as hp (ih h)
          | free o n =>
              obtain ⟨⟨ho, hn⟩, h⟩ := corners_free h
              exact free d dims o n as ho hn (ih h)

theorem inParts_cons (h : InParts (d :: dims) as qs) : as ≠ [] → ∃ q rest, qs = q :: rest := by
  intro hne
  cases as with
  | nil => exact absurd rfl hne
  | cons a as =>
      cases a with
      | fixed p =>
          rw [InParts, axisBegins_fixed, axisEnds_fixed, firstParts_cons, stopParts_cons] at h
          cases h
          exact ⟨_, _, rfl⟩
      | free o n =>
          rw [InParts, axisBegins_free, axisEnds_free, firstParts_cons, stopParts_cons] at h
          cases h
          exact ⟨_, _, rfl⟩

/-- **A COORDINATE OF A PIECE** is one of the view, and its cell is in the part. -/
theorem piece_cell (h : Corners dims (axisBegins as) (axisEnds as)) (hq : InParts dims as qs)
    (hx : Contains (sizes (pieceAxes dims as qs)) x) :
    Contains (sizes as) (shifted x (shift dims as qs)) ∧
      quotients dims (cell as (shifted x (shift dims as qs))) = qs ∧
      remainders dims (cell as (shifted x (shift dims as qs))) =
        cell (pieceAxes dims as qs) x := by
  revert qs x
  refine pieces_induct (motive := fun dims as => ∀ {qs x : List ℤ}, InParts dims as qs →
    Contains (sizes (pieceAxes dims as qs)) x →
    Contains (sizes as) (shifted x (shift dims as qs)) ∧
      quotients dims (cell as (shifted x (shift dims as qs))) = qs ∧
      remainders dims (cell as (shifted x (shift dims as qs))) =
        cell (pieceAxes dims as qs) x) ?_ ?_ ?_ h
  · intro qs x hq hx
    cases hq
    have hnil : x = [] := List.length_eq_zero_iff.mp hx.1
    subst hnil
    exact ⟨hx, rfl, rfl⟩
  · intro d dims p as hp ih qs x hq hx
    obtain ⟨q, qs, rfl⟩ := inParts_cons hq (List.cons_ne_nil _ _)
    obtain ⟨rfl, hrest⟩ := inParts_fixed.mp hq
    obtain ⟨hin, hquot, hrem⟩ := ih hrest hx
    have hsum := Int.tmod_add_mul_tdiv p d.splitSize
    refine ⟨hin, congrArg (p.tdiv d.splitSize :: ·) hquot, ?_⟩
    exact congrArg₂ List.cons (show p.tmod d.splitSize = _ by omega) hrem
  · intro d dims o n as ho hn ih qs x hq hx
    obtain ⟨q, qs, rfl⟩ := inParts_cons hq (List.cons_ne_nil _ _)
    obtain ⟨-, hq⟩ := inParts_free.mp hq
    cases x with
    | nil => cases hx.1
    | cons x xs =>
        obtain ⟨hx, hxs⟩ := contains_cons.mp hx
        obtain ⟨hin, hquot, hrem⟩ := ih hq hxs
        have hcell : x + (max o (d.splitSize * q) - o) + o = x + max o (d.splitSize * q) := by
          omega
        obtain ⟨hbox, hdiv⟩ := dim_of_piece d (b := o) (e := o + n) (q := q)
          (x := x + max o (d.splitSize * q)) ho (by
            rw [dataBegin_eq, dataEnd_eq]
            exact ⟨Int.le_add_of_nonneg_left hx.1, Int.add_lt_of_lt_sub_right hx.2⟩)
        have hsum := Int.tmod_add_mul_tdiv (x + max o (d.splitSize * q)) d.splitSize
        rw [hdiv] at hsum
        refine ⟨contains_cons.mpr ⟨by show 0 ≤ x + _ ∧ x + _ < n; omega, hin⟩, ?_, ?_⟩
        · exact congrArg₂ List.cons ((congrArg (Int.tdiv · d.splitSize) hcell).trans hdiv) hquot
        · refine congrArg₂ List.cons ((congrArg (Int.tmod · d.splitSize) hcell).trans ?_) hrem
          omega

/-- **EVERY COORDINATE** of the view is in a piece. -/
theorem piece_cover (h : Corners dims (axisBegins as) (axisEnds as))
    (hy : Contains (sizes as) y) :
    ∃ qs x, InParts dims as qs ∧ Contains (sizes (pieceAxes dims as qs)) x ∧
      shifted x (shift dims as qs) = y := by
  revert y
  refine pieces_induct (motive := fun dims as => ∀ {y : List ℤ}, Contains (sizes as) y →
    ∃ qs x, InParts dims as qs ∧ Contains (sizes (pieceAxes dims as qs)) x ∧
      shifted x (shift dims as qs) = y) ?_ ?_ ?_ h
  · intro y hy
    have hnil : y = [] := List.length_eq_zero_iff.mp hy.1
    subst hnil
    exact ⟨[], [], .nil, hy, rfl⟩
  · intro d dims p as hp ih y hy
    obtain ⟨qs, x, hq, hx, hshift⟩ := ih hy
    exact ⟨p.tdiv d.splitSize :: qs, x, inParts_fixed.mpr ⟨rfl, hq⟩, hx, hshift⟩
  · intro d dims o n as ho hn ih y hy
    cases y with
    | nil => cases hy.1
    | cons y ys =>
        obtain ⟨hy, hys⟩ := contains_cons.mp hy
        obtain ⟨qs, x, hq, hx, hshift⟩ := ih hys
        obtain ⟨hpart, hpiece⟩ := dim_piece d (b := o) (e := o + n) (x := y + o) ho
          ⟨by omega, by omega⟩
        rw [dataBegin_eq, dataEnd_eq] at hpiece
        refine ⟨(y + o).tdiv d.splitSize :: qs,
          (y + o - max o (d.splitSize * (y + o).tdiv d.splitSize)) :: x,
          inParts_free.mpr ⟨hpart, hq⟩, contains_cons.mpr
            ⟨⟨Int.sub_nonneg_of_le hpiece.1, Int.sub_lt_sub_right hpiece.2 _⟩, hx⟩, ?_⟩
        exact congrArg₂ List.cons (by show y + o - _ + (_ - o) = y; omega) hshift

theorem piece_positive (h : Corners dims (axisBegins as) (axisEnds as)) (hq : InParts dims as qs)
    (hpos : Positive (sizes as)) : Positive (sizes (pieceAxes dims as qs)) := by
  revert qs hpos
  refine pieces_induct (motive := fun dims as => ∀ {qs : List ℤ}, InParts dims as qs →
    Positive (sizes as) → Positive (sizes (pieceAxes dims as qs))) ?_ ?_ ?_ h
  · intro qs hq hpos
    cases hq
    exact hpos
  · intro d dims p as hp ih qs hq hpos
    obtain ⟨q, qs, rfl⟩ := inParts_cons hq (List.cons_ne_nil _ _)
    exact ih (inParts_fixed.mp hq).2 hpos
  · intro d dims o n as ho hn ih qs hq hpos
    obtain ⟨q, qs, rfl⟩ := inParts_cons hq (List.cons_ne_nil _ _)
    obtain ⟨hq₀, hq⟩ := inParts_free.mp hq
    obtain ⟨hn, hpos⟩ := List.forall_mem_cons.mp hpos
    have hlt := dim_piece_lt d (b := o) (e := o + n) ho (by omega) hq₀
    rw [dataBegin_eq, dataEnd_eq] at hlt
    exact List.forall_mem_cons.mpr ⟨Int.sub_pos_of_lt hlt, ih hq hpos⟩

/-- A piece is not larger than the view, in any dimension. -/
theorem piece_le (h : Corners dims (axisBegins as) (axisEnds as)) (hq : InParts dims as qs) :
    List.Forall₂ (· ≤ ·) (sizes (pieceAxes dims as qs)) (sizes as) := by
  revert qs
  refine pieces_induct (motive := fun dims as => ∀ {qs : List ℤ}, InParts dims as qs →
    List.Forall₂ (· ≤ ·) (sizes (pieceAxes dims as qs)) (sizes as)) ?_ ?_ ?_ h
  · intro qs hq
    cases hq
    exact .nil
  · intro d dims p as hp ih qs hq
    obtain ⟨q, qs, rfl⟩ := inParts_cons hq (List.cons_ne_nil _ _)
    exact ih (inParts_fixed.mp hq).2
  · intro d dims o n as ho hn ih qs hq
    obtain ⟨q, qs, rfl⟩ := inParts_cons hq (List.cons_ne_nil _ _)
    obtain ⟨hq₀, hq⟩ := inParts_free.mp hq
    exact .cons (by omega) (ih hq)

theorem prod_le_prod {s s' : List ℤ} (hpos : Positive s) (h : List.Forall₂ (· ≤ ·) s s') :
    s.prod ≤ s'.prod := by
  induction h with
  | nil => exact le_rfl
  | @cons a b s s' hab h ih =>
      obtain ⟨ha, hpos⟩ := List.forall_mem_cons.mp hpos
      rw [List.prod_cons, List.prod_cons]
      exact mul_le_mul hab (ih hpos) (Positive.prod_pos hpos).le (ha.le.trans hab)

end Pieces

/-! ## Records -/

/-- The record of a view with these axes. -/
def ofAxes (as : List Axis) : RegionMatrixMetadata :=
  ⟨offsets as, sizes as, .ofFixed (fixed 0 as)⟩

/-- Own axes only. -/
def freeAxes (os ns : List ℤ) : List Axis := List.zipWith Axis.free os ns

/-- Dimension by dimension, what the loops find in a record, from the index of a slice and that of
    an own dimension on. -/
inductive Walk (m : RegionMatrixMetadata) : List Axis → ℕ → ℕ → ℕ → Prop
  | nil (i sliceIndex splitIndex : ℕ) : Walk m [] i sliceIndex splitIndex
  | fixed {as : List Axis} {i sliceIndex splitIndex : ℕ} {p : ℤ}
      (hat : isSliceAt m.sliceInfo sliceIndex i = some true)
      (he : read m.sliceInfo.sliceDimensions sliceIndex = some (i : ℤ))
      (hp : read m.sliceInfo.slicePositions sliceIndex = some p)
      (h : Walk m as (i + 1) (sliceIndex + 1) splitIndex) :
      Walk m (.fixed p :: as) i sliceIndex splitIndex
  | free {as : List Axis} {i sliceIndex splitIndex : ℕ} {o n : ℤ}
      (hat : isSliceAt m.sliceInfo sliceIndex i = some false)
      (ho : read m.splitOffset splitIndex = some o) (hn : read m.size splitIndex = some n)
      (h : Walk m as (i + 1) sliceIndex (splitIndex + 1)) :
      Walk m (.free o n :: as) i sliceIndex splitIndex

section Records

variable {m scratch : RegionMatrixMetadata} {v : RegionMatrix} {t : Track} {dims : List SplitDim}
  {as : List Axis} {qs x : List ℤ} {i sliceIndex splitIndex D : ℕ}

theorem computeRegionMatrixMetadata_eq (h : Stores v t) :
    computeRegionMatrixMetadata v = ofAxes t.axes := by
  rw [computeRegionMatrixMetadata, h.splitOffset, h.size, h.sliceInfo]
  rfl

theorem walk_from (h : Stores v t)
    (hf : t.fixedAxes.drop sliceIndex = fixed i as)
    (ho : (offsets t.axes).drop splitIndex = offsets as)
    (hs : (sizes t.axes).drop splitIndex = sizes as) :
    Walk (computeRegionMatrixMetadata v) as i sliceIndex splitIndex := by
  induction as generalizing i sliceIndex splitIndex with
  | nil => exact .nil i sliceIndex splitIndex
  | cons a as ih =>
      cases a with
      | fixed p =>
          obtain ⟨hat, hp, hrest⟩ := h.isSliceAt_fixed hf
          refine .fixed hat ?_ hp (ih hrest ho hs)
          show read v.sliceInfo.sliceDimensions sliceIndex = _
          rw [h.sliceInfo]
          exact (read_dimensions hf).1
      | free o n =>
          obtain ⟨hat, hread, hrest⟩ := h.isSliceAt_free hf ho
          have hget : (sizes t.axes)[splitIndex]? = some n := by
            rw [← List.head?_drop, hs]
            rfl
          refine .free hat hread ?_ (ih hf hrest (by rw [← List.drop_drop, hs]; rfl))
          show read v.size splitIndex = _
          rw [h.size, read_nat, hget]

/-- A view with these axes. -/
def plain (as : List Axis) : RegionMatrix :=
  ⟨as.length, sizes as, offsets as, false, .ofFixed (fixed 0 as), none⟩

theorem stores_plain (as : List Axis) : Stores (plain as) ⟨as, false⟩ :=
  ⟨rfl, rfl, rfl, rfl, fun _ => ⟨rfl, rfl⟩, .inl rfl⟩

theorem walk (as : List Axis) : Walk (ofAxes as) as 0 0 0 :=
  computeRegionMatrixMetadata_eq (stores_plain as) ▸ walk_from (stores_plain as) rfl rfl rfl

theorem coordLoop_eq (h : Walk m as i sliceIndex splitIndex)
    (hx : (x.drop splitIndex).length = (sizes as).length) :
    coordLoop m x as.length i sliceIndex splitIndex = some (cell as (x.drop splitIndex)) := by
  induction h with
  | nil i sliceIndex splitIndex => rfl
  | @fixed as i sliceIndex splitIndex p hat he hp h ih =>
      rw [List.length_cons, coordLoop, hat, hp]
      show (coordLoop m x as.length (i + 1) (sliceIndex + 1) splitIndex).bind _ = _
      rw [ih hx]
      rfl
  | @free as i sliceIndex splitIndex o n hat ho hn h ih =>
      have hlt : splitIndex < x.length := by
        by_contra hge
        rw [List.drop_eq_nil_of_le (by omega)] at hx
        cases hx
      have hread : read x splitIndex = some x[splitIndex] := by
        rw [read_nat, List.getElem?_eq_getElem hlt]
      rw [List.drop_eq_getElem_cons hlt] at hx ⊢
      rw [List.length_cons, coordLoop, hat, ho, hread, cell]
      show (coordLoop m x as.length (i + 1) sliceIndex (splitIndex + 1)).bind _ = _
      rw [ih (Nat.succ.inj hx)]
      rfl

/-- **COORDINATES** go to the cells of the axes. -/
theorem toRegionDataCoord_ofAxes (hx : x.length = (sizes as).length) :
    toRegionDataCoord (ofAxes as) x = some (cell as x) := by
  have hlen : (ofAxes as).dimensions + (ofAxes as).sliceInfo.numSliceDimensions = as.length := by
    rw [← length_sizes_add_fixed as 0]
    exact congrArg ((sizes as).length + ·) (List.length_map _)
  rw [toRegionDataCoord, hlen]
  exact coordLoop_eq (walk as) hx

theorem boundsLoop_eq (h : Walk m as i sliceIndex splitIndex) :
    boundsLoop m as.length i sliceIndex splitIndex = some (axisBegins as, axisEnds as) := by
  induction h with
  | nil i sliceIndex splitIndex => rfl
  | @fixed as i sliceIndex splitIndex p hat he hp h ih =>
      rw [List.length_cons, boundsLoop, hat, hp]
      show (boundsLoop m as.length (i + 1) (sliceIndex + 1) splitIndex).bind _ = _
      rw [ih]
      rfl
  | @free as i sliceIndex splitIndex o n hat ho hn h ih =>
      rw [List.length_cons, boundsLoop, hat, ho, hn, axisBegins_free, axisEnds_free]
      show (boundsLoop m as.length (i + 1) sliceIndex (splitIndex + 1)).bind _ = _
      rw [ih]
      rfl

/-! ### The records of a piece -/

theorem length_piece (h : Corners dims (axisBegins as) (axisEnds as)) (hq : InParts dims as qs) :
    (sizes (pieceAxes dims as qs)).length = (sizes as).length ∧
      (shift dims as qs).length = (sizes as).length := by
  refine ⟨(piece_le h hq).length_eq, ?_⟩
  revert qs
  refine pieces_induct (motive := fun dims as => ∀ {qs : List ℤ}, InParts dims as qs →
    (shift dims as qs).length = (sizes as).length) ?_ ?_ ?_ h
  · intro qs hq
    rfl
  · intro d dims p as hp ih qs hq
    obtain ⟨q, qs, rfl⟩ := inParts_cons hq (List.cons_ne_nil _ _)
    exact ih (inParts_fixed.mp hq).2
  · intro d dims o n as ho hn ih qs hq
    obtain ⟨q, qs, rfl⟩ := inParts_cons hq (List.cons_ne_nil _ _)
    exact congrArg Nat.succ (ih (inParts_free.mp hq).2)

/-- Where a piece begins. -/
def partBegins (dims : List SplitDim) (as : List Axis) (qs : List ℤ) : List ℤ :=
  List.zipWith dataBegin (axisBegins as) (scale dims qs)

/-- The part of an own axis that is in a part begins there. -/
theorem place_begin (d : SplitDim) {o n q : ℤ} (ho : 0 ≤ o)
    (hq : o.tdiv d.splitSize ≤ q ∧ q < (max o (o + n - 1)).tdiv d.splitSize + 1) :
    (max o (d.splitSize * q)).tdiv d.splitSize = q ∧
      (max o (d.splitSize * q)).tmod d.splitSize = max o (d.splitSize * q) - d.splitSize * q := by
  have hlt := le_scaled d hq.1 ho
  have hpos : 0 < d.splitSize := d.splitSize_pos
  have hdiv : (max o (d.splitSize * q)).tdiv d.splitSize = q :=
    (tdiv_eq d (le_max_of_le_left ho)).mpr ⟨le_max_right _ _, max_lt hlt (by omega)⟩
  have hsum := Int.tmod_add_mul_tdiv (max o (d.splitSize * q)) d.splitSize
  rw [hdiv] at hsum
  exact ⟨hdiv, by omega⟩

theorem quotients_partBegins (h : Corners dims (axisBegins as) (axisEnds as))
    (hq : InParts dims as qs) : quotients dims (partBegins dims as qs) = qs := by
  revert qs
  refine pieces_induct (motive := fun dims as => ∀ {qs : List ℤ}, InParts dims as qs →
    quotients dims (partBegins dims as qs) = qs) ?_ ?_ ?_ h
  · intro qs hq
    cases hq
    rfl
  · intro d dims p as hp ih qs hq
    obtain ⟨q, qs, rfl⟩ := inParts_cons hq (List.cons_ne_nil _ _)
    obtain ⟨rfl, hrest⟩ := inParts_fixed.mp hq
    have hbegin : dataBegin p (d.splitSize * p.tdiv d.splitSize) = p := by
      rw [dataBegin_eq]
      exact max_eq_left (tdiv_bounds d hp).1
    rw [partBegins, axisBegins_fixed, scale_cons, List.zipWith_cons_cons, quotients_cons, hbegin]
    exact congrArg _ (ih hrest)
  · intro d dims o n as ho hn ih qs hq
    obtain ⟨q, qs, rfl⟩ := inParts_cons hq (List.cons_ne_nil _ _)
    obtain ⟨hq₀, hrest⟩ := inParts_free.mp hq
    rw [partBegins, axisBegins_free, scale_cons, List.zipWith_cons_cons, quotients_cons,
      dataBegin_eq, (place_begin d ho hq₀).1]
    exact congrArg _ (ih hrest)

theorem fixed_piece (h : Corners dims (axisBegins as) (axisEnds as)) (hq : InParts dims as qs)
    (k : ℕ) : (fixed k (pieceAxes dims as qs)).map Prod.fst = (fixed k as).map Prod.fst := by
  revert qs k
  refine pieces_induct (motive := fun dims as => ∀ {qs : List ℤ}, InParts dims as qs → ∀ k,
    (fixed k (pieceAxes dims as qs)).map Prod.fst = (fixed k as).map Prod.fst) ?_ ?_ ?_ h
  · intro qs hq k
    rfl
  · intro d dims p as hp ih qs hq k
    obtain ⟨q, qs, rfl⟩ := inParts_cons hq (List.cons_ne_nil _ _)
    exact congrArg (k :: ·) (ih (inParts_fixed.mp hq).2 (k + 1))
  · intro d dims o n as ho hn ih qs hq k
    obtain ⟨q, qs, rfl⟩ := inParts_cons hq (List.cons_ne_nil _ _)
    exact ih (inParts_free.mp hq).2 (k + 1)

/-- The dimensions of a piece, as the loop has them. -/
def pieceDims (dims : List SplitDim) (as : List Axis) (qs : List ℤ) : List PartDim :=
  partDims dims (axisBegins as) (axisEnds as) (newBegin dims (axisBegins as)) (scale dims qs)
    (remainders dims (partBegins dims as qs))

theorem pieceDims_fixed (d : SplitDim) (dims : List SplitDim) (p q : ℤ) (as : List Axis)
    (qs : List ℤ) : pieceDims (d :: dims) (.fixed p :: as) (q :: qs) =
      ⟨d.splitSize, p, p, p - p.tmod d.splitSize, d.splitSize * q,
        (dataBegin p (d.splitSize * q)).tmod d.splitSize⟩ :: pieceDims dims as qs := rfl

theorem pieceDims_free (d : SplitDim) (dims : List SplitDim) (o n q : ℤ) (as : List Axis)
    (qs : List ℤ) : pieceDims (d :: dims) (.free o n :: as) (q :: qs) =
      ⟨d.splitSize, o, o + n, o - o.tmod d.splitSize, d.splitSize * q,
        (dataBegin o (d.splitSize * q)).tmod d.splitSize⟩ :: pieceDims dims as qs := by
  rw [pieceDims, partBegins, axisBegins_free, axisEnds_free]
  rfl

theorem partSize_eq (d : SplitDim) (o n q b offset : ℤ) :
    (⟨d.splitSize, o, o + n, b, d.splitSize * q, offset⟩ : PartDim).size =
      min (o + n) (d.splitSize * q + d.splitSize) - max o (d.splitSize * q) := by
  have hbegin : (⟨d.splitSize, o, o + n, b, d.splitSize * q, offset⟩ : PartDim).partBegin =
      max o (d.splitSize * q) := dataBegin_eq
  rw [PartDim.size, hbegin]
  split
  · rename_i hle
    exact congrArg (· - max o (d.splitSize * q)) (min_eq_right hle).symm
  · rename_i hle
    exact congrArg (· - max o (d.splitSize * q)) (min_eq_left (Int.not_le.mp hle).le).symm

/-- **THE LOOP OVER THE DIMENSIONS** writes the records of the piece. -/
theorem partLoop_eq (hs : scratch.splitOffset = List.replicate D 0)
    (h : Corners dims (axisBegins as) (axisEnds as)) (hw : Walk m as i sliceIndex splitIndex)
    (hD : splitIndex + (sizes as).length = D) (hq : InParts dims as qs) :
    partLoop m scratch (pieceDims dims as qs) i sliceIndex splitIndex =
      some ⟨(fixed i (pieceAxes dims as qs)).map Prod.snd, sizes (pieceAxes dims as qs),
        offsets (pieceAxes dims as qs), shift dims as qs⟩ := by
  revert i sliceIndex splitIndex qs
  refine pieces_induct (motive := fun dims as => ∀ {i sliceIndex splitIndex : ℕ} {qs : List ℤ},
    Walk m as i sliceIndex splitIndex → splitIndex + (sizes as).length = D →
    InParts dims as qs → partLoop m scratch (pieceDims dims as qs) i sliceIndex splitIndex =
      some ⟨(fixed i (pieceAxes dims as qs)).map Prod.snd, sizes (pieceAxes dims as qs),
        offsets (pieceAxes dims as qs), shift dims as qs⟩) ?_ ?_ ?_ h
  · intro i sliceIndex splitIndex qs hw hD hq
    cases hq
    rfl
  · intro d dims p as hp ih i sliceIndex splitIndex qs hw hD hq
    obtain ⟨q, qs, rfl⟩ := inParts_cons hq (List.cons_ne_nil _ _)
    obtain ⟨rfl, hrest⟩ := inParts_fixed.mp hq
    have hsum := Int.tmod_add_mul_tdiv p d.splitSize
    cases hw with
    | fixed hat he hpos hw =>
        rw [pieceDims_fixed, partLoop, hat, hpos]
        show (partLoop m scratch (pieceDims dims as qs) (i + 1) (sliceIndex + 1)
          splitIndex).bind _ = _
        rw [ih hw hD hrest]
        refine congrArg some (congrArg (fun p => PartRecord.mk (p :: _) _ _ _) ?_)
        show p - (p - p.tmod d.splitSize) = p - d.splitSize * p.tdiv d.splitSize
        omega
  · intro d dims o n as ho hn ih i sliceIndex splitIndex qs hw hD hq
    obtain ⟨q, qs, rfl⟩ := inParts_cons hq (List.cons_ne_nil _ _)
    obtain ⟨hq₀, hrest⟩ := inParts_free.mp hq
    cases hw with
    | free hat hoff hsize hw =>
        have hzero : read scratch.splitOffset splitIndex = some 0 := by
          rw [hs, read_nat]
          exact List.getElem?_replicate_of_lt (by
            rw [← hD]
            exact Nat.lt_add_of_pos_right (Nat.succ_pos _))
        have hD' : splitIndex + 1 + (sizes as).length = D := by
          rw [← hD]
          show _ = splitIndex + ((sizes as).length + 1)
          omega
        rw [pieceDims_free, partLoop, hat, hzero]
        show (partLoop m scratch (pieceDims dims as qs) (i + 1) sliceIndex
          (splitIndex + 1)).bind _ = _
        rw [ih hw hD' hrest]
        show some (PartRecord.mk _ (PartDim.size _ :: _) ((dataBegin o _).tmod _ :: _)
          ((dataBegin o _ - o + 0) :: _)) = _
        rw [partSize_eq, dataBegin_eq, (place_begin d ho hq₀).2, add_zero]
        rfl

theorem length_freeAxes {os ns : List ℤ} (h : os.length = ns.length) :
    offsets (freeAxes os ns) = os ∧ sizes (freeAxes os ns) = ns ∧
      ∀ k, fixed k (freeAxes os ns) = [] := by
  induction os generalizing ns with
  | nil =>
      cases ns with
      | nil => exact ⟨rfl, rfl, fun _ => rfl⟩
      | cons n ns => cases h
  | cons o os ih =>
      cases ns with
      | nil => cases h
      | cons n ns =>
          obtain ⟨hos, hns, hfixed⟩ := ih (Nat.succ.inj h)
          exact ⟨congrArg (o :: ·) hos, congrArg (n :: ·) hns, fun k => hfixed (k + 1)⟩

theorem cell_freeAxes {os ns : List ℤ} (h : os.length = ns.length) (hx : x.length = ns.length) :
    cell (freeAxes os ns) x = shifted x os := by
  induction os generalizing ns x with
  | nil =>
      cases ns with
      | nil =>
          rw [List.length_eq_zero_iff.mp hx]
          rfl
      | cons n ns => cases h
  | cons o os ih =>
      cases ns with
      | nil => cases h
      | cons n ns =>
          cases x with
          | nil => cases hx
          | cons x xs => exact congrArg ((x + o) :: ·) (ih (Nat.succ.inj h) (Nat.succ.inj hx))

/-- The axes of the piece in the scratch region. -/
def scratchAxes (dims : List SplitDim) (as : List Axis) (qs : List ℤ) : List Axis :=
  freeAxes (shift dims as qs) (sizes (pieceAxes dims as qs))

/-- **THE COPY OF A PIECE** is for its part, with the records of its axes. -/
theorem partCopy_eq (hs : scratch.splitOffset = List.replicate (sizes as).length 0)
    (h : Corners dims (axisBegins as) (axisEnds as)) (hq : InParts dims as qs) :
    partCopy dims (ofAxes as) scratch (axisBegins as) (axisEnds as) (scale dims qs) =
      some ⟨PbMixedRadix.encode (partsSize dims) qs, ofAxes (pieceAxes dims as qs),
        ofAxes (scratchAxes dims as qs)⟩ := by
  obtain ⟨hsizes, hshift⟩ := length_piece h hq
  obtain ⟨hos, hns, hfixed⟩ := length_freeAxes (hshift.trans hsizes.symm)
  have hslices : SliceInfo.mk (ofAxes as).sliceInfo.sliceDimensions
      ((fixed 0 (pieceAxes dims as qs)).map Prod.snd) = .ofFixed (fixed 0 (pieceAxes dims as qs)) := by
    have hplaces := congrArg (List.map (fun k : ℕ => (k : ℤ))) (fixed_piece h hq 0)
    rw [List.map_map, List.map_map] at hplaces
    exact congrArg (SliceInfo.mk · _) hplaces.symm
  have hindex : (coordToPart dims (partBegins dims as qs)).1 =
      PbMixedRadix.encode (partsSize dims) qs := by
    rw [fst_coordToPart, quotients_partBegins h hq]
  have hloop := partLoop_eq hs h (walk as) (Nat.zero_add _) hq
  rw [partCopy]
  show (partLoop (ofAxes as) scratch (pieceDims dims as qs) 0 0 0).bind _ = _
  rw [hloop]
  refine congrArg some ?_
  show PartCopy.mk (coordToPart dims (partBegins dims as qs)).1 _ _ = _
  rw [hindex, hslices, scratchAxes, ofAxes, ofAxes, hos, hns, hfixed]
  rfl

end Records

end PbScratchCopy
