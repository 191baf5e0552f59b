import PetaBricks.ScratchPartsProofs

/-! # Scratch copies — a view and its local copy

    A local copy has its elements in a storage of its own, or it is a view of what the matrix has
    here (`Copy`).  Either way it reads what the view reads (`localCopy_spec`), a write to it
    changes that one element of it and nothing outside the view (`Copy.write`), and copied back,
    the view reads what the copy reads and the rest of the matrix is what it was
    (`Copy.fromScratch`).

    The loops have at least one turn, so that the copy of a view without elements writes past the
    end of its storage: views have elements here. -/

namespace PbScratchCopy

open PbAxes PbMixedRadix PbRegionMatrix PbRegionSplit PbRemoteCache PbDataHosts
open PbScratchMetadata (isRegionInOnePart)
open PbLocalRegion (seenSize)
open PbMatrixRegion (Positive contains_iff_inBounds contains_zeros)

variable {α : Type}

/-! ## Claims about copies -/

/-- The copy is to be a view of the one part the view is in. -/
def RegionData.Shares (m : RegionData α) (v : RegionMatrix) : Prop :=
  ∃ s begins ends index, m = .split s ∧
    boundsLoop (computeRegionMatrixMetadata v) s.data.dims.length 0 0 0 = some (begins, ends) ∧
      s.sharedPart begins ends = some index

/-- A view of a matrix with elements.  The record of a copy that is a view of a part has no room
    for slices. -/
structure Copyable (m : RegionData α) (v : RegionMatrix) : Prop where
  view : ViewIn m.size v
  dimensions : v.D ≠ 0
  positive : Positive v.size
  slices : m.Shares v → v.sliceInfo.numSliceDimensions = 0

/-- What a store reads after some writes. -/
def written (store : List ℤ → Option α) (writes : List (List ℤ × α)) : List ℤ → Option α :=
  writes.foldl (fun store w => Function.update store w.1 (some w.2)) store

/-- The cells that a view does not have are the same. -/
def SameOutside (v : RegionMatrix) (m m' : RegionData α) : Prop :=
  m'.size = m.size ∧ ∀ cell, Contains m.size cell →
    (∀ c, Contains (seenSize v) c → accessed v c ≠ some cell) → m'.readCell cell = m.readCell cell

/-! ## Everything in one part -/

section OnePart

variable {m : RegionMatrixMetadata} {dims : List SplitDim} {as : List Axis}
  {i sliceIndex splitIndex : ℕ}

/-- The view as the one part it is in has it. -/
def partAxes (dims : List SplitDim) (as : List Axis) : List Axis :=
  pieceAxes dims as (firstParts dims (axisBegins as))

theorem inParts_first (h : Corners dims (axisBegins as) (axisEnds as)) :
    InParts dims as (firstParts dims (axisBegins as)) := h.proper.inBox.1

/-- The piece in the one part is the view. -/
theorem onePart_spec (h : Corners dims (axisBegins as) (axisEnds as))
    (hone : isRegionInOnePart dims (newBegin dims (axisBegins as)) (axisEnds as) = true) :
    sizes (partAxes dims as) = sizes as ∧
      shift dims as (firstParts dims (axisBegins as)) = List.replicate (sizes as).length 0 := by
  revert hone
  refine pieces_induct (motive := fun dims as =>
    isRegionInOnePart dims (newBegin dims (axisBegins as)) (axisEnds as) = true →
    sizes (partAxes dims as) = sizes as ∧
      shift dims as (firstParts dims (axisBegins as)) = List.replicate (sizes as).length 0)
    ?_ ?_ ?_ h
  · intro _
    exact ⟨rfl, rfl⟩
  · intro d dims p as hp ih hone
    rw [newBegin, axisBegins_fixed, axisEnds_fixed, List.zipWith_cons_cons,
      isRegionInOnePart] at hone
    split at hone
    · cases hone
    · exact ih hone
  · intro d dims o n as ho hn ih hone
    rw [newBegin, axisBegins_free, axisEnds_free, List.zipWith_cons_cons,
      isRegionInOnePart] at hone
    split at hone
    · cases hone
    · rename_i hlt
      obtain ⟨hsizes, hshift⟩ := ih hone
      have hbounds := tdiv_bounds d ho
      have hsum := Int.tmod_add_mul_tdiv o d.splitSize
      have hend : o + n ≤ d.splitSize * o.tdiv d.splitSize + d.splitSize := by
        have hle : o + n ≤ o - o.tmod d.splitSize + d.splitSize := Int.not_lt.mp hlt
        omega
      have hmax : max o (d.splitSize * o.tdiv d.splitSize) = o := max_eq_left hbounds.1
      have hmin : min (o + n) (d.splitSize * o.tdiv d.splitSize + d.splitSize) = o + n :=
        min_eq_left hend
      rw [partAxes, axisBegins_free, firstParts_cons]
      refine ⟨congrArg₂ List.cons ?_ hsizes, congrArg₂ List.cons ?_ hshift⟩
      · rw [hmax, hmin]
        omega
      · rw [hmax]
        omega

theorem shareLoop_eq (h : Corners dims (axisBegins as) (axisEnds as))
    (hw : Walk m as i sliceIndex splitIndex) :
    shareLoop m (List.zip (remainders dims (axisBegins as)) (newBegin dims (axisBegins as))) i
        sliceIndex =
      some (offsets (partAxes dims as), .ofFixed (fixed i (partAxes dims as))) := by
  revert i sliceIndex splitIndex
  refine pieces_induct (motive := fun dims as => ∀ {i sliceIndex splitIndex : ℕ},
    Walk m as i sliceIndex splitIndex →
    shareLoop m (List.zip (remainders dims (axisBegins as)) (newBegin dims (axisBegins as))) i
        sliceIndex =
      some (offsets (partAxes dims as), .ofFixed (fixed i (partAxes dims as)))) ?_ ?_ ?_ h
  · intro i sliceIndex splitIndex hw
    rfl
  · intro d dims p as hp ih i sliceIndex splitIndex hw
    have hsum := Int.tmod_add_mul_tdiv p d.splitSize
    cases hw with
    | fixed hat he hpos hw =>
        rw [axisBegins_fixed]
        show shareLoop m ((p.tmod d.splitSize, p - p.tmod d.splitSize) ::
          List.zip (remainders dims (axisBegins as)) (newBegin dims (axisBegins as))) i
            sliceIndex = _
        rw [shareLoop, hat, he, hpos]
        show (shareLoop m _ (i + 1) (sliceIndex + 1)).bind _ = _
        rw [ih hw]
        have hplace : p - (p - p.tmod d.splitSize) = p - d.splitSize * p.tdiv d.splitSize := by
          omega
        show some (_, SliceInfo.mk ((i : ℤ) :: _) ((p - (p - p.tmod d.splitSize)) :: _)) = _
        rw [hplace]
        rfl
  · intro d dims o n as ho hn ih i sliceIndex splitIndex hw
    have hsum := Int.tmod_add_mul_tdiv o d.splitSize
    have hmax : max o (d.splitSize * o.tdiv d.splitSize) = o :=
      max_eq_left (tdiv_bounds d ho).1
    cases hw with
    | free hat hoff hsize hw =>
        rw [axisBegins_free]
        show shareLoop m ((o.tmod d.splitSize, o - o.tmod d.splitSize) ::
          List.zip (remainders dims (axisBegins as)) (newBegin dims (axisBegins as))) i
            sliceIndex = _
        rw [shareLoop, hat]
        show (shareLoop m _ (i + 1) sliceIndex).bind _ = _
        rw [ih hw]
        have hplace : o.tmod d.splitSize =
            max o (d.splitSize * o.tdiv d.splitSize) - d.splitSize * o.tdiv d.splitSize := by
          rw [hmax]
          omega
        show some (o.tmod d.splitSize :: _, _) = _
        rw [hplace, partAxes, partAxes, axisBegins_free, firstParts_cons]
        rfl

/-- **THE RECORD OF A SHARED PART** is that of the view in it. -/
theorem share_eq (scratch : RegionMatrixMetadata)
    (h : Corners dims (axisBegins as) (axisEnds as))
    (hone : isRegionInOnePart dims (newBegin dims (axisBegins as)) (axisEnds as) = true)
    (hfixed : fixed 0 as = []) (hsize : scratch.size = sizes as) :
    share dims (ofAxes as) scratch (axisBegins as) = some (ofAxes (partAxes dims as)) := by
  have hfixed' : fixed 0 (partAxes dims as) = [] := by
    have hplaces := fixed_piece h (inParts_first h) 0
    rw [hfixed] at hplaces
    exact List.map_eq_nil_iff.mp hplaces
  have hloop := shareLoop_eq h (walk as)
  rw [share]
  show (shareLoop (ofAxes as) (List.zip (remainders dims (axisBegins as)) _) 0 0).bind _ = _
  rw [hloop, ofAxes, hfixed', (onePart_spec h hone).1, ← hsize]
  rfl

end OnePart

/-! ## The axes of a view -/

section View

variable {m : RegionData α} {v : RegionMatrix} {t : Track} {c : List ℤ}

/-- A view with its axes. -/
structure Seen (v : RegionMatrix) (t : Track) : Prop where
  stores : Stores v t
  transposed : v.isTransposed = t.isTransposed
  plain : v.sourceInfo = none

theorem Copyable.seen (h : Copyable m v) : ∃ t, Seen v t := by
  obtain ⟨t, hst, hnone⟩ := h.view.axes h.dimensions
  refine ⟨t, hst, (hst.flags fun hnil => h.dimensions ?_).1, hnone⟩
  rw [RegionMatrix.D, hst.size, hnil]
  rfl

/-- A coordinate of the view, in the order of the data. -/
theorem Seen.order (hs : Seen v t) :
    Contains (seenSize v) c ↔ Contains (sizes t.axes) (t.order c) := contains_order hs.stores

theorem Seen.accessed (hs : Seen v t) (hc : Contains (seenSize v) c) :
    accessed v c = some (cell t.axes (t.order c)) :=
  hs.stores.accessed (hc.1.trans (length_seenSize v))

theorem order_inj {c' : List ℤ} (h : t.order c = t.order c') : c = c' := by
  rw [← order_order t c, h, order_order]

/-- All cells of a view are there. -/
theorem Copyable.inView (h : Copyable m v) (hs : Seen v t) : InView m.size t.axes := by
  intro x hx
  have hc : Contains (seenSize v) (t.order x) := hs.order.mpr (by rwa [order_order])
  obtain ⟨cell, hacc, hin⟩ := h.view.inside _ hc
  rw [hs.accessed hc, order_order] at hacc
  exact Option.some.inj hacc ▸ hin

theorem Copyable.positive_axes (h : Copyable m v) (hs : Seen v t) : Positive (sizes t.axes) :=
  hs.stores.size ▸ h.positive

theorem Copyable.viewed {s : SplitMatrix α} (h : Copyable (.split s) v) (hs : Seen v t) :
    Viewed s.data.dims t.axes :=
  ⟨corners_of_ordered (h.view.ordered hs.stores)
    ((h.view.length_axes hs.stores).1.trans (List.length_map _)), h.positive_axes hs, h.inView hs⟩

/-- The axes of a scratch region with a storage of its own. -/
def ownAxes (as : List Axis) : List Axis := (sizes as).map (Axis.free 0)

theorem sizes_ownAxes (as : List Axis) : sizes (ownAxes as) = sizes as :=
  (designates_whole (sizes as)).size

theorem cell_ownAxes {as : List Axis} {x : List ℤ} (hx : x.length = (sizes as).length) :
    cell (ownAxes as) x = x := (designates_whole (sizes as)).cell x hx

theorem stores_ownView (hs : Seen v t) : Stores (ownView v) ⟨ownAxes t.axes, t.isTransposed⟩ := by
  have hwhole := stores_whole v.size
  have hown : ownAxes t.axes = v.size.map (Axis.free 0) := by rw [ownAxes, hs.stores.size]
  rw [hown]
  exact ⟨hwhole.handler, hwhole.size, hwhole.splitOffset, hwhole.sliceInfo,
    fun _ => ⟨hs.transposed, rfl⟩, .inl rfl⟩

theorem accessed_ownView (hs : Seen v t) (hc : Contains (seenSize v) c) :
    accessed (ownView v) c = some (t.order c) := by
  have hD : c.length = (ownView v).D := hc.1.trans (length_seenSize v)
  rw [(stores_ownView hs).accessed hD]
  exact congrArg some (cell_ownAxes (hs.order.mp hc).1)

theorem ownMetadata (hs : Seen v t) :
    computeRegionMatrixMetadata (ownView v) = ofAxes (ownAxes t.axes) :=
  computeRegionMatrixMetadata_eq (stores_ownView hs)

theorem offsets_ownAxes (as : List Axis) :
    offsets (ownAxes as) = List.replicate (sizes as).length 0 := by
  rw [ownAxes]
  generalize sizes as = size
  induction size with
  | nil => rfl
  | cons s size ih => exact congrArg (0 :: ·) ih

/-- The view of a shared part. -/
def partView (s : SplitMatrix α) (t : Track) : RegionMatrix :=
  ⟨s.data.dims.length, sizes (partAxes s.data.dims t.axes), offsets (partAxes s.data.dims t.axes),
    t.isTransposed, .ofFixed (fixed 0 (partAxes s.data.dims t.axes)), none⟩

end View

/-! ## Copies -/

/-- A local copy of a view of a matrix. -/
inductive Copy (v : RegionMatrix) (t : Track) : RegionData α → Scratch α → Prop
  | whole (r : RegionDataRaw α) : Copy v t (.raw r) ⟨v, .whole⟩
  | remote (r data : RegionDataRaw α) (hsize : data.size = sizes t.axes) :
      Copy v t (.remote r) ⟨ownView v, .own data⟩
  | split (s : SplitMatrix α) (data : RegionDataRaw α) (hsize : data.size = sizes t.axes) :
      Copy v t (.split s) ⟨ownView v, .own data⟩
  | part (s : SplitMatrix α) (index : ℕ)
      (hshared : s.sharedPart (axisBegins t.axes) (axisEnds t.axes) = some index) :
      Copy v t (.split s) ⟨partView s t, .part index⟩

section Copies

variable {m : RegionData α} {s : SplitMatrix α} {v : RegionMatrix} {t : Track} {c : List ℤ}
  {index : ℕ}

theorem readView_eq (hs : Seen v t) (hc : Contains (seenSize v) c) :
    m.readView v c = m.readCell (cell t.axes (t.order c)) := by
  rw [RegionData.readView, hs.accessed hc]
  rfl

theorem readCell_own (hs : Seen v t) (hc : Contains (seenSize v) c) (data : RegionDataRaw α) :
    Scratch.readCell ⟨ownView v, .own data⟩ m c = data.readCell (t.order c) := by
  rw [Scratch.readCell, accessed_ownView hs hc]
  rfl

theorem readCell_whole : Scratch.readCell ⟨v, .whole⟩ m c = m.readView v c := rfl

theorem sharedPart_spec (h : s.sharedPart (axisBegins t.axes) (axisEnds t.axes) = some index) :
    isRegionInOnePart s.data.dims (newBegin s.data.dims (axisBegins t.axes)) (axisEnds t.axes) =
        true ∧
      encode (partsSize s.data.dims) (firstParts s.data.dims (axisBegins t.axes)) = index := by
  rw [SplitMatrix.sharedPart] at h
  split at h
  · rename_i hone
    refine ⟨hone.1, ?_⟩
    rw [← Option.some.inj h, Int.toNat_of_nonneg hone.2.1, fst_coordToPart]
    rfl
  · cases h

/-- The part that is shared, and what it has of the view. -/
theorem sharedPart_part (hv : Viewed s.data.dims t.axes)
    (h : s.sharedPart (axisBegins t.axes) (axisEnds t.axes) = some index) :
    ∃ p, s.data.parts[index]? = some p ∧ ∀ x, Contains (sizes t.axes) x →
      Contains p.size (cell (partAxes s.data.dims t.axes) x) ∧
        (coordToPart s.data.dims (cell t.axes x)).1 = index ∧
        remainders s.data.dims (cell t.axes x) = cell (partAxes s.data.dims t.axes) x ∧
        p.readCell (cell (partAxes s.data.dims t.axes) x) = s.data.readCell (cell t.axes x) := by
  obtain ⟨hone, hindex⟩ := sharedPart_spec h
  obtain ⟨hsizes, hshift⟩ := onePart_spec hv.corners hone
  have hq := inParts_first hv.corners
  obtain ⟨k, p, hk, hp, hin, hread⟩ := part_of_piece hv hq
  obtain rfl : index = k := Int.ofNat.inj (hindex.symm.trans hk)
  refine ⟨p, hp, fun x hx => ?_⟩
  have hx' : Contains (sizes (pieceAxes s.data.dims t.axes
      (firstParts s.data.dims (axisBegins t.axes)))) x := by
    show Contains (sizes (partAxes s.data.dims t.axes)) x
    rwa [hsizes]
  have hshifted : shifted x (shift s.data.dims t.axes
      (firstParts s.data.dims (axisBegins t.axes))) = x := by
    rw [hshift, ← hx.1, shifted_zeros]
  obtain ⟨-, hquot, hrem⟩ := piece_cell hv.corners hq hx'
  have hreadx := hread x hx'
  rw [hshifted] at hquot hrem hreadx
  exact ⟨hin x hx', by rw [fst_coordToPart, hquot, hk], hrem, hreadx⟩

theorem stores_partView (hv : Viewed s.data.dims t.axes) :
    Stores (partView s t) ⟨partAxes s.data.dims t.axes, t.isTransposed⟩ := by
  refine ⟨?_, rfl, rfl, rfl, fun _ => ⟨rfl, rfl⟩, .inl rfl⟩
  show s.data.dims.length = (pieceAxes s.data.dims t.axes _).length
  refine pieces_induct (motive := fun dims as =>
    dims.length = (pieceAxes dims as (firstParts dims (axisBegins as))).length) rfl ?_ ?_
    hv.corners
  · intro d dims p as hp ih
    exact congrArg Nat.succ ih
  · intro d dims o n as ho hn ih
    rw [axisBegins_free, firstParts_cons]
    exact congrArg Nat.succ ih

theorem accessed_partView (hv : Viewed s.data.dims t.axes) (hs : Seen v t)
    (hone : isRegionInOnePart s.data.dims (newBegin s.data.dims (axisBegins t.axes))
      (axisEnds t.axes) = true) (hc : Contains (seenSize v) c) :
    accessed (partView s t) c = some (cell (partAxes s.data.dims t.axes) (t.order c)) := by
  have hsize := (onePart_spec hv.corners hone).1
  have hlen : c.length = (partView s t).D := by
    rw [hc.1, length_seenSize, RegionMatrix.D, hs.stores.size]
    exact congrArg List.length hsize.symm
  rw [(stores_partView hv).accessed hlen]
  rfl

/-- A copy that is a view of a part reads what the view reads. -/
theorem readCell_part (hv : Viewed s.data.dims t.axes) (hs : Seen v t)
    (h : s.sharedPart (axisBegins t.axes) (axisEnds t.axes) = some index)
    (hc : Contains (seenSize v) c) :
    Scratch.readCell ⟨partView s t, .part index⟩ (.split s) c =
      (RegionData.split s).readView v c := by
  obtain ⟨p, hp, hpart⟩ := sharedPart_part hv h
  obtain ⟨-, -, -, hread⟩ := hpart (t.order c) (hs.order.mp hc)
  rw [Scratch.readCell, accessed_partView hv hs (sharedPart_spec h).1 hc, readView_eq hs hc]
  show (s.data.part index).bind _ = _
  rw [RegionDataSplit.part_natCast, hp]
  exact hread

/-! ### Making a copy -/

theorem allocate_eq {size : List ℤ} (hpos : Positive size) (junk : ℕ → α) :
    ∃ r, allocate size junk = some r ∧ r.size = size := by
  have hcount : ((((List.range size.prod.toNat).map junk).length : ℕ) : ℤ) = size.prod := by
    rw [List.length_map, List.length_range,
      Int.toNat_of_nonneg (PbMatrixRegion.Positive.prod_pos hpos).le]
  exact ⟨_, dif_pos hcount, rfl⟩

theorem withStorage_of_length {size : List ℤ} {storage : List α}
    (h : (storage.length : ℤ) = size.prod) :
    ∃ r, withStorage size storage = some r ∧ r.size = size ∧ r.storage = storage :=
  ⟨⟨size, storage, h⟩, dif_pos h, rfl, rfl⟩

/-- The boxes of a view of raw data and of its scratch storage. -/
theorem boxes_own {r data : RegionDataRaw α} {as : List Axis} (hpos : Positive (sizes as))
    (hin : InView r.size as) (hsize : data.size = sizes as) :
    Boxes r as (sizes as) data.storage (ownAxes as) := by
  refine ⟨sizes_ownAxes as, hpos, hin, fun x hx => ?_, hsize ▸ data.count_eq,
    fun _ => ⟨rfl, fun x hx => cell_ownAxes hx.1⟩⟩
  rw [sizes_ownAxes] at hx
  rwa [cell_ownAxes hx.1]

theorem Copyable.boundsLoop (h : Copyable (.split s) v) (hs : Seen v t) :
    boundsLoop (computeRegionMatrixMetadata v) s.data.dims.length 0 0 0 =
      some (axisBegins t.axes, axisEnds t.axes) := by
  have hlen : t.axes.length = s.data.dims.length := by
    rw [← hs.stores.handler, h.view.handler]
    exact List.length_map _
  rw [computeRegionMatrixMetadata_eq hs.stores, ← hlen]
  exact boundsLoop_eq (walk t.axes)

theorem metadata_whole (hs : Seen v t) :
    (computeRegionMatrixMetadata (whole v.size)).splitOffset =
        List.replicate (sizes t.axes).length 0 ∧
      (computeRegionMatrixMetadata (whole v.size)).size = sizes t.axes :=
  ⟨hs.stores.size ▸ rfl, hs.stores.size⟩

/-- The copy of a view of a split matrix. -/
theorem splitCopy_spec (h : Copyable (.split s) v) (hs : Seen v t) (scratch : RegionDataRaw α)
    (hscratch : scratch.size = sizes t.axes) :
    ∃ n copy, s.localCopy v scratch n = some copy ∧ Copy v t (.split s) copy ∧
      ∀ c, Contains (seenSize v) c → copy.readCell (.split s) c =
        (RegionData.split s).readView v c := by
  have hv := h.viewed hs
  have hbounds := h.boundsLoop hs
  obtain ⟨hoffset, hsize⟩ := metadata_whole hs
  cases hshared : s.sharedPart (axisBegins t.axes) (axisEnds t.axes) with
  | some index =>
      have hfixed : fixed 0 t.axes = [] := by
        have hslices := h.slices ⟨s, _, _, index, rfl, hbounds, hshared⟩
        rw [hs.stores.numSlices] at hslices
        exact List.length_eq_zero_iff.mp hslices
      refine ⟨0, ⟨partView s t, .part index⟩, ?_, .part s index hshared,
        fun c hc => readCell_part hv hs hshared hc⟩
      have hshare := share_eq (computeRegionMatrixMetadata (whole v.size)) hv.corners
        (sharedPart_spec hshared).1 hfixed hsize
      rw [SplitMatrix.localCopy]
      simp only [hbounds, Option.bind_eq_bind, Option.bind_some, hshared]
      rw [computeRegionMatrixMetadata_eq hs.stores, hshare, hs.transposed]
      rfl
  | none =>
      obtain ⟨N, hcoords⟩ := partCoords_eq (m := s) hv.corners
      have hcount : (scratch.storage.length : ℤ) = (sizes t.axes).prod :=
        hscratch ▸ scratch.count_eq
      have hn : (sizes t.axes).prod ≤ (N + (sizes t.axes).prod.toNat : ℕ) := by omega
      obtain ⟨storage, hcopy, hlen, -, hpieces⟩ := copyPartsTo_spec hv hoffset
        (fun qs hqs => (mem_partsOf hv.corners).mp hqs) hcount hn
      obtain ⟨data, hdata, hdatasize, hstorage⟩ := withStorage_of_length
        (show (storage.length : ℤ) = (sizes t.axes).prod by rw [hlen, hcount])
      refine ⟨N + (sizes t.axes).prod.toNat, ⟨ownView v, .own data⟩, ?_, .split s data hdatasize,
        fun c hc => ?_⟩
      · rw [SplitMatrix.localCopy]
        simp only [hbounds, Option.bind_eq_bind, Option.bind_some, hshared]
        rw [hcoords _ (Nat.le_add_right _ _), Option.bind_some,
          computeRegionMatrixMetadata_eq hs.stores, hcopy, Option.bind_some, hs.stores.size,
          hdata]
        rfl
      · have hy := hs.order.mp hc
        obtain ⟨qs, x, hq, hx, hshift⟩ := piece_cover hv.corners hy
        have hfetched := hpieces qs ((mem_partsOf hv.corners).mpr hq) x hx
        rw [hshift] at hfetched
        rw [readCell_own hs hc, readView_eq hs hc, readCell_eq_element data (hdatasize ▸ hy),
          hdatasize, hstorage]
        exact hfetched

/-- **A LOCAL COPY** reads what the view reads. -/
theorem localCopy_spec (h : Copyable m v) (hs : Seen v t) (junk : ℕ → α) :
    ∃ n copy, localCopy m v junk n = some copy ∧ Copy v t m copy ∧
      ∀ c, Contains (seenSize v) c → copy.readCell m c = m.readView v c := by
  obtain ⟨scratch, hscratch, hsize⟩ := allocate_eq h.positive junk
  have hsize' : scratch.size = sizes t.axes := hsize.trans hs.stores.size
  cases m with
  | raw r => exact ⟨0, ⟨v, .whole⟩, rfl, .whole r, fun c hc => rfl⟩
  | remote r =>
      have hin : InView r.size t.axes := h.inView hs
      obtain ⟨storage, hcopy, hcopied⟩ := remoteCopyTo_spec
        (boxes_own (h.positive_axes hs) hin hsize') (n := (sizes t.axes).prod.toNat)
        (Int.self_le_toNat _)
      obtain ⟨data, hdata, hdatasize, hstorage⟩ := withStorage_of_length
        (show (storage.length : ℤ) = (sizes t.axes).prod by
          rw [hcopied.length, scratch.count_eq, hsize'])
      have hmeta : computeRegionMatrixMetadata (whole v.size) = ofAxes (ownAxes t.axes) :=
        (ownMetadata hs).symm ▸ rfl
      refine ⟨(sizes t.axes).prod.toNat, ⟨ownView v, .own data⟩, ?_, .remote r data hdatasize,
        fun c hc => ?_⟩
      · show (allocate v.size junk).bind _ = _
        rw [hscratch, Option.bind_some, hmeta, computeRegionMatrixMetadata_eq hs.stores, hsize']
        show (remoteCopyToScratchMatrixStorage r _ _ _ scratch.storage _).bind _ = _
        rw [hcopy, Option.bind_some, hs.stores.size, hdata]
        rfl
      · have hy := hs.order.mp hc
        have hinside := hcopied.inside (t.order c) (by rwa [sizes_ownAxes])
        rw [cell_ownAxes hy.1] at hinside
        rw [readCell_own hs hc, readView_eq hs hc, readCell_eq_element data (hdatasize ▸ hy),
          hdatasize, hstorage, hinside]
        exact (readCell_eq_element r (hin _ hy)).symm
  | split s =>
      obtain ⟨n, copy, hcopy, hmode, hread⟩ := splitCopy_spec h hs scratch hsize'
      refine ⟨n, copy, ?_, hmode, hread⟩
      show (allocate v.size junk).bind _ = _
      rw [hscratch]
      exact hcopy

/-! ### Writing to a copy -/

theorem sharedPart_congr {s' : SplitMatrix α} (hd : s'.data.dims = s.data.dims)
    (hheld : s'.held = s.held) (begins ends : List ℤ) :
    s'.sharedPart begins ends = s.sharedPart begins ends := by
  rw [SplitMatrix.sharedPart, SplitMatrix.sharedPart, hd, hheld]

theorem Copyable.of_raw {r r' : RegionDataRaw α} (h : Copyable (.raw r) v)
    (hsize : r'.size = r.size) : Copyable (.raw r') v := by
  refine ⟨?_, h.dimensions, h.positive, ?_⟩
  · show ViewIn r'.size v
    rw [hsize]
    exact h.view
  · rintro ⟨s, _, _, _, hsplit, -, -⟩
    cases hsplit

theorem Copyable.of_split {s' : SplitMatrix α} (h : Copyable (.split s) v)
    (hd : s'.data.dims = s.data.dims) (hheld : s'.held = s.held) : Copyable (.split s') v := by
  refine ⟨?_, h.dimensions, h.positive, ?_⟩
  · show ViewIn (sizeOf s'.data.dims) v
    rw [hd]
    exact h.view
  · rintro ⟨s₀, begins, ends, index, heq, hbounds, hshared⟩
    obtain rfl : s' = s₀ := RegionData.split.inj heq
    rw [hd] at hbounds
    rw [sharedPart_congr hd hheld] at hshared
    exact h.slices ⟨s, begins, ends, index, rfl, hbounds, hshared⟩

/-- The cells of two coordinates of a view. -/
theorem cell_ne (hs : Seen v t) {c' : List ℤ} (hc : Contains (seenSize v) c)
    (hc' : Contains (seenSize v) c') (hne : c' ≠ c) :
    cell t.axes (t.order c) ≠ cell t.axes (t.order c') := by
  intro heq
  exact hne (order_inj (cell_inj (hs.order.mp hc).1 (hs.order.mp hc').1 heq)).symm

/-- **A WRITE** to a copy changes one element of it, and nothing outside the view. -/
theorem Copy.write {copy : Scratch α} (hcopy : Copy v t m copy) (h : Copyable m v)
    (hs : Seen v t) (hc : Contains (seenSize v) c) (value : α) :
    ∃ m' copy', copy.writeCell m c value = some (m', copy') ∧ Copy v t m' copy' ∧
      Copyable m' v ∧ SameOutside v m m' ∧ ∀ c', Contains (seenSize v) c' →
        copy'.readCell m' c' = Function.update (copy.readCell m) c (some value) c' := by
  have hy := hs.order.mp hc
  have hown : ∀ data : RegionDataRaw α, data.size = sizes t.axes →
      Scratch.writeCell ⟨ownView v, .own data⟩ m c value =
          some (m, ⟨ownView v, .own (data.writeCell (t.order c) value)⟩) ∧
        ∀ c', Contains (seenSize v) c' →
          Scratch.readCell ⟨ownView v, .own (data.writeCell (t.order c) value)⟩ m c' =
            Function.update (Scratch.readCell ⟨ownView v, .own data⟩ m) c (some value) c' := by
    intro data hsize
    refine ⟨by rw [Scratch.writeCell, accessed_ownView hs hc]; rfl, fun c' hc' => ?_⟩
    have hread := raw_readCell_writeCell data value (hsize ▸ contains_iff_inBounds.mp hy)
      (hsize ▸ contains_iff_inBounds.mp (hs.order.mp hc'))
    rw [readCell_own hs hc', hread, Function.update_apply, readCell_own hs hc']
    by_cases heq : c' = c
    · rw [if_pos (by rw [heq]), if_pos heq]
    · rw [if_neg fun heq' => heq (order_inj heq').symm, if_neg heq]
  cases hcopy with
  | whole r =>
      have hin : InView r.size t.axes := h.inView hs
      have hbounds := contains_iff_inBounds.mp (hin _ hy)
      refine ⟨.raw (r.writeCell (cell t.axes (t.order c)) value), ⟨v, .whole⟩, ?_, .whole _,
        h.of_raw rfl, ⟨rfl, fun c₀ hc₀ hne => ?_⟩, fun c' hc' => ?_⟩
      · rw [Scratch.writeCell, hs.accessed hc]
        rfl
      · show (r.writeCell _ value).readCell c₀ = r.readCell c₀
        rw [raw_readCell_writeCell r value hbounds (contains_iff_inBounds.mp hc₀), if_neg]
        intro heq
        exact hne c hc (heq ▸ hs.accessed hc)
      · have hbounds' := contains_iff_inBounds.mp (hin _ (hs.order.mp hc'))
        rw [readCell_whole, readView_eq hs hc', Function.update_apply, readCell_whole,
          readView_eq hs hc']
        show (r.writeCell _ value).readCell _ = if c' = c then some value else r.readCell _
        rw [raw_readCell_writeCell r value hbounds hbounds']
        by_cases heq : c' = c
        · rw [if_pos (by rw [heq]), if_pos heq]
        · rw [if_neg (cell_ne hs hc hc' heq), if_neg heq]
  | remote r data hsize =>
      obtain ⟨hwrite, hread⟩ := hown data hsize
      exact ⟨_, _, hwrite, .remote r _ hsize, h, ⟨rfl, fun _ _ _ => rfl⟩, hread⟩
  | split s data hsize =>
      obtain ⟨hwrite, hread⟩ := hown data hsize
      exact ⟨_, _, hwrite, .split s _ hsize, h, ⟨rfl, fun _ _ _ => rfl⟩, hread⟩
  | part s index hshared =>
      have hv := h.viewed hs
      have hone := (sharedPart_spec hshared).1
      obtain ⟨p, hp, hpart⟩ := sharedPart_part hv hshared
      obtain ⟨hin, hindex, hplace, -⟩ := hpart (t.order c) hy
      have hbounds := contains_iff_inBounds.mp hin
      have hkept : (p.writeCell (cell (partAxes s.data.dims t.axes) (t.order c)) value).size =
          p.size := rfl
      obtain ⟨s', hset, hd, hheld, hp', hreads⟩ := setPart_spec hp hkept
      have hshared' : s'.sharedPart (axisBegins t.axes) (axisEnds t.axes) = some index :=
        (sharedPart_congr hd hheld _ _).trans hshared
      have hview : partView s' t = partView s t := by rw [partView, partView, hd]
      refine ⟨.split s', ⟨partView s t, .part index⟩, ?_, hview ▸ .part s' index hshared',
        h.of_split hd hheld, ⟨congrArg sizeOf hd, fun c₀ hc₀ hne => ?_⟩, fun c' hc' => ?_⟩
      · rw [Scratch.writeCell, accessed_partView hv hs hone hc]
        show (s.data.part index).bind _ = _
        rw [RegionDataSplit.part_natCast, hp, Option.bind_some]
        show (s.setPart index _).bind _ = _
        rw [hset]
        rfl
      · show s'.data.readCell c₀ = s.data.readCell c₀
        have hbounds₀ := contains_iff_inBounds.mp hc₀
        by_cases hat : (coordToPart s.data.dims c₀).1 = index
        · obtain ⟨n, q, hn, -, hq, hin₀⟩ := RegionDataSplit.exists_part hbounds₀
          obtain rfl : index = n := Int.ofNat.inj (hat.symm.trans hn)
          obtain rfl := Option.some.inj (hp.symm.trans hq)
          rw [(hreads c₀ hbounds₀).1 hat, RegionDataSplit.readCell_eq hn hp]
          refine (raw_readCell_writeCell p value hbounds hin₀).trans (if_neg fun heq => ?_)
          -- the cell at the place that is written is one of the view
          refine hne c hc (hs.accessed hc |>.trans (congrArg some ?_))
          exact (coordToPart_bijOn s.data.dims).injOn (hv.inBounds hy) hbounds₀
            (Prod.ext (hindex.trans hat.symm) (hplace.trans heq))
        · exact (hreads c₀ hbounds₀).2 hat
      · have hy' := hs.order.mp hc'
        obtain ⟨hin', hindex', hplace', hread'⟩ := hpart (t.order c') hy'
        have hv' : Viewed s'.data.dims t.axes := hd ▸ hv
        rw [← hview, readCell_part hv' hs hshared' hc', Function.update_apply, hview,
          readCell_part hv hs hshared hc', readView_eq hs hc', readView_eq hs hc']
        show s'.data.readCell _ = if c' = c then some value else s.data.readCell _
        rw [(hreads _ (hv.inBounds hy')).1 hindex', hplace',
          raw_readCell_writeCell p value hbounds (contains_iff_inBounds.mp hin'), hread']
        by_cases heq : c' = c
        · rw [if_pos (by rw [heq]), if_pos heq]
        · refine (if_neg fun heq' => cell_ne hs hc hc' heq ?_).trans (if_neg heq).symm
          exact (coordToPart_bijOn s.data.dims).injOn (hv.inBounds hy) (hv.inBounds hy')
            (Prod.ext (hindex.trans hindex'.symm) (hplace.trans (heq'.trans hplace'.symm)))

/-! ### Copying back -/

theorem prod_seenSize (hs : Seen v t) : (seenSize (ownView v)).prod = (sizes t.axes).prod := by
  rw [seenSize, ← hs.stores.size]
  split
  · exact List.prod_reverse _
  · rfl

theorem splitBack_spec (h : Copyable (.split s) v) (hs : Seen v t) {data : RegionDataRaw α}
    (hsize : data.size = sizes t.axes) :
    ∃ n s', s.fromScratchRegion v ⟨ownView v, .own data⟩ n = some s' ∧
      SameOutside v (.split s) (.split s') ∧ ∀ c, Contains (seenSize v) c →
        (RegionData.split s').readView v c = data.readCell (t.order c) := by
  have hv := h.viewed hs
  have hbounds := h.boundsLoop hs
  have hcount : (data.storage.length : ℤ) = (sizes t.axes).prod := hsize ▸ data.count_eq
  obtain ⟨N, hcoords⟩ := partCoords_eq (m := s) hv.corners
  obtain ⟨room, hroom, hfits⟩ := messageRoom_spec hv.corners hv.positive
  have hn : (sizes t.axes).prod ≤ (N + (sizes t.axes).prod.toNat : ℕ) := by omega
  have hoffset : (ofAxes (ownAxes t.axes)).splitOffset = List.replicate (sizes t.axes).length 0 :=
    offsets_ownAxes t.axes
  obtain ⟨s', hcopy, hd, -, -, hpieces, hframe⟩ := copyPartsFrom_spec (m := s) rfl hv hoffset
    (fun qs hqs => (mem_partsOf hv.corners).mp hqs) hcount hn
    fun qs hqs => hfits qs ((mem_partsOf hv.corners).mp hqs)
  refine ⟨N + (sizes t.axes).prod.toNat, s', ?_, ⟨congrArg sizeOf hd, fun c₀ hc₀ hne => ?_⟩,
    fun c hc => ?_⟩
  · rw [SplitMatrix.fromScratchRegion]
    simp only [hbounds, Option.bind_eq_bind, Option.bind_some]
    rw [computeRegionMatrixMetadata_eq hs.stores, hroom, Option.bind_some,
      hcoords _ (Nat.le_add_right _ _), Option.bind_some, ownMetadata hs, hsize]
    exact hcopy
  · refine hframe c₀ (contains_iff_inBounds.mp hc₀) fun y hy heq => ?_
    have hc : Contains (seenSize v) (t.order y) := hs.order.mpr (by rwa [order_order])
    refine hne _ hc ?_
    rw [hs.accessed hc, order_order, heq]
  · have hy := hs.order.mp hc
    obtain ⟨qs, x, hq, hx, hshift⟩ := piece_cover hv.corners hy
    have hfetched := hpieces qs ((mem_partsOf hv.corners).mpr hq) x hx
    rw [hshift] at hfetched
    rw [readView_eq hs hc, readCell_eq_element data (hsize ▸ hy), hsize]
    exact hfetched.symm

/-- **COPIED BACK**, the view reads what the copy reads. -/
theorem Copy.fromScratch {copy : Scratch α} (hcopy : Copy v t m copy) (h : Copyable m v)
    (hs : Seen v t) :
    ∃ n m', fromScratchRegion m v copy n = some m' ∧ SameOutside v m m' ∧
      ∀ c, Contains (seenSize v) c → m'.readView v c = copy.readCell m c := by
  cases hcopy with
  | whole r => exact ⟨0, .raw r, rfl, ⟨rfl, fun _ _ _ => rfl⟩, fun _ _ => rfl⟩
  | remote r data hsize =>
      have hin : InView r.size t.axes := h.inView hs
      obtain ⟨r', hcopy, hr', hcopied⟩ := remoteCopyFrom_spec
        (boxes_own (h.positive_axes hs) hin hsize) (n := (sizes t.axes).prod.toNat)
        (Int.self_le_toNat _) (prod_seenSize hs).ge
      refine ⟨(sizes t.axes).prod.toNat, .remote r', ?_, ⟨hr', fun c₀ hc₀ hne => ?_⟩,
        fun c hc => ?_⟩
      · show (remoteCopyFromScratchMatrixStorage r (computeRegionMatrixMetadata v)
          (computeRegionMatrixMetadata (ownView v)) data.size data.storage
          (seenSize (ownView v)).prod _).bind _ = _
        rw [computeRegionMatrixMetadata_eq hs.stores, ownMetadata hs, hsize, hcopy]
        rfl
      · show r'.readCell c₀ = r.readCell c₀
        rw [readCell_eq_element r' (hr' ▸ hc₀), readCell_eq_element r hc₀, hr']
        refine hcopied.outside c₀ hc₀ fun y hy heq => ?_
        have hc : Contains (seenSize v) (t.order y) := hs.order.mpr (by rwa [order_order])
        refine hne _ hc ?_
        rw [hs.accessed hc, order_order, heq]
      · have hy := hs.order.mp hc
        have hinside := hcopied.inside (t.order c) hy
        rw [cell_ownAxes hy.1, ← hsize] at hinside
        rw [readView_eq hs hc, readCell_own hs hc, readCell_eq_element data (hsize ▸ hy)]
        exact (readCell_eq_element r' (hr' ▸ hin _ hy)).trans (hr' ▸ hinside)
  | split s data hsize =>
      obtain ⟨n, s', hback, hsame, hread⟩ := splitBack_spec h hs hsize
      refine ⟨n, .split s', ?_, hsame, fun c hc => ?_⟩
      · show (s.fromScratchRegion v _ n).bind _ = _
        rw [hback]
        rfl
      · rw [hread c hc, readCell_own hs hc]
  | part s index hshared =>
      refine ⟨0, .split s, ?_, ⟨rfl, fun _ _ _ => rfl⟩, fun c hc => ?_⟩
      · show (s.fromScratchRegion v _ 0).bind _ = _
        rw [SplitMatrix.fromScratchRegion]
        simp only [h.boundsLoop hs, Option.bind_eq_bind, Option.bind_some]
        rw [if_pos hshared]
        rfl
      · exact (readCell_part (h.viewed hs) hs hshared hc).symm

/-! ### Runs -/

theorem SameOutside.trans {m₁ m₂ : RegionData α} (h : SameOutside v m m₁)
    (h' : SameOutside v m₁ m₂) : SameOutside v m m₂ := by
  refine ⟨h'.1.trans h.1, fun cell hcell hne => ?_⟩
  rw [h'.2 cell (h.1 ▸ hcell) hne, h.2 cell hcell hne]

/-- Writes to a copy, one after the other. -/
theorem Copy.writes {copy : Scratch α} (hcopy : Copy v t m copy) (h : Copyable m v)
    (hs : Seen v t) {store : List ℤ → Option α}
    (hstore : ∀ c, Contains (seenSize v) c → copy.readCell m c = store c)
    {writes : List (List ℤ × α)} (hin : ∀ w ∈ writes, Contains (seenSize v) w.1) :
    ∃ m' copy', writeCells writes (m, copy) = some (m', copy') ∧ Copy v t m' copy' ∧
      Copyable m' v ∧ SameOutside v m m' ∧
      ∀ c, Contains (seenSize v) c → copy'.readCell m' c = written store writes c := by
  induction writes generalizing m copy store with
  | nil => exact ⟨m, copy, rfl, hcopy, h, ⟨rfl, fun _ _ _ => rfl⟩, hstore⟩
  | cons w writes ih =>
      obtain ⟨hw, hin⟩ := List.forall_mem_cons.mp hin
      obtain ⟨m₁, copy₁, hwrite, hcopy₁, h₁, hsame₁, hread₁⟩ := hcopy.write h hs hw w.2
      have hstore₁ : ∀ c, Contains (seenSize v) c →
          copy₁.readCell m₁ c = Function.update store w.1 (some w.2) c := by
        intro c hc
        rw [hread₁ c hc, Function.update_apply, Function.update_apply, hstore c hc]
      obtain ⟨m₂, copy₂, hwrites, hcopy₂, h₂, hsame₂, hread₂⟩ := ih hcopy₁ h₁ hstore₁ hin
      refine ⟨m₂, copy₂, ?_, hcopy₂, h₂, hsame₁.trans hsame₂, hread₂⟩
      rw [writeCells]
      show (copy.writeCell m w.1 w.2).bind _ = _
      rw [hwrite]
      exact hwrites

theorem exists_readView (h : Copyable m v) (hs : Seen v t) (hc : Contains (seenSize v) c) :
    ∃ a, m.readView v c = some a := by
  have hin := contains_iff_inBounds.mp (h.inView hs _ (hs.order.mp hc))
  rw [readView_eq hs hc]
  cases m with
  | raw r => exact raw_readCell r hin
  | remote r => exact raw_readCell r hin
  | split s => exact RegionDataSplit.exists_readCell hin

end Copies

theorem three_nonneg : (0 : ℤ) ≤ 3 := by decide

theorem one_le_part : (1 : ℤ) ≤ 2 := by decide

/-- Three by three in parts of two by two, two of them on another host. -/
def fourParts : SplitMatrix ℕ where
  data :=
    { dims := [⟨3, 2, three_nonneg, one_le_part⟩, ⟨3, 2, three_nonneg, one_le_part⟩]
      parts := [⟨[2, 2], [0, 1, 10, 11], rfl⟩, ⟨[1, 2], [2, 12], rfl⟩,
        ⟨[2, 1], [20, 21], rfl⟩, ⟨[1, 1], [22], rfl⟩]
      length_parts := by decide
      size_part := by
        intro i part h
        rcases i with _ | _ | _ | _ | i
        · cases h; decide
        · cases h; decide
        · cases h; decide
        · cases h; decide
        · cases h }
  held := fun i => if i = 1 ∨ i = 2 then .remote else .raw
  dims_ne := List.cons_ne_nil _ _

/-- Two cells of a column, one here and one on the other host. -/
def column : RegionMatrix where
  handlerDimensions := 2
  size := [2]
  splitOffset := [1]
  isTransposed := false
  sliceInfo := ⟨[1], [1]⟩
  sourceInfo := none

theorem copyable_column : Copyable (.split fourParts) column := by
  refine ⟨⟨⟨fun _ => ⟨rfl, rfl, List.pairwise_singleton _ _, by decide, rfl⟩,
    fun s hs => by cases hs⟩, rfl, by decide, by decide, by decide, fun c hc => ?_⟩, by decide,
    by unfold Positive; decide, ?_⟩
  · have hc' := contains_iff_inBounds.mp hc
    rcases hc' with _ | ⟨hx, _ | _⟩
    rename_i x
    refine ⟨[x + 1, 1], rfl, contains_iff_inBounds.mpr (.cons ?_ (.cons ?_ .nil))⟩
    · show 0 ≤ x + 1 ∧ x + 1 < 3
      omega
    · exact ⟨by decide, by decide⟩
  · rintro ⟨s, begins, ends, index, heq, hbounds, hshared⟩
    obtain rfl := RegionData.split.inj heq
    obtain ⟨rfl, rfl⟩ := Prod.mk.inj (Option.some.inj hbounds)
    cases hshared

-- the copy of the column, and what the matrix has of it
example : ((localCopy (.split fourParts) column (fun _ => 99) 4).bind fun copy =>
    copy.readCell (.split fourParts) [1]) = some 12 := by decide +kernel

end PbScratchCopy
