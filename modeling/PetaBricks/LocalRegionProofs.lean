import PetaBricks.RegionMatrixProofs
import PetaBricks.RegionDataSplitProofs

/-! # Local regions — the fast path to the same cells

    `_toLocalRegion` makes of a view whose data is here a `MatrixRegion`: a pointer into the
    storage and one multiplier for each dimension.  Offsets and slice positions go into the
    pointer, and a transposed view has its multipliers in reverse.

    The heart is the loop over the handler's dimensions (`Stores.metaDataLoop`): along the axes
    of the view, the pointer and the multipliers give the offset of the coordinate that
    `regionDataCoord` makes.  `region`, `slice` and `transposed` then follow the geometry. -/

namespace PbLocalRegion

open PbAxes PbRegionMatrix PbRemoteCache

variable {α : Type}

/-! ## The code -/

/-- `MatrixRegion`, with its base as an offset into the storage. -/
structure MatrixRegion where
  base : IndexT
  sizes : List IndexT
  multipliers : List IndexT
  deriving DecidableEq, Repr

namespace MatrixRegion

variable (m : MatrixRegion)

def coordToPtr (coord : List IndexT) : IndexT := m.base + offset m.multipliers coord

def transposed : MatrixRegion := ⟨m.base, m.sizes.reverse, m.multipliers.reverse⟩

def region (c1 c2 : List IndexT) : MatrixRegion :=
  ⟨m.coordToPtr c1, List.zipWith (· - ·) c2 c1, m.multipliers⟩

def slice (d : Nat) (pos : IndexT) : MatrixRegion :=
  ⟨m.coordToPtr ((List.replicate m.sizes.length 0).set d pos),
    m.sizes.eraseIdx d, m.multipliers.eraseIdx d⟩

/-- What `cell(coord)` holds. -/
def readCell (r : RegionDataRaw α) (coord : List IndexT) : Option α :=
  r.storage[(m.coordToPtr coord).toNat]?

/-- `cell(coord) = value`. -/
def writeCell (r : RegionDataRaw α) (coord : List IndexT) (value : α) : RegionDataRaw α where
  size := r.size
  storage := r.storage.set (m.coordToPtr coord).toNat value
  count_eq := by rw [List.length_set]; exact r.count_eq

end MatrixRegion

/-- The loop of `computeMatrixRegionMetaData` over what is left of the data's size. -/
def metaDataLoop (v : RegionMatrix) :
    List IndexT → Nat → Nat → IndexT → IndexT → Option (IndexT × List IndexT)
  | [], _, _, _, startOffset => some (startOffset, [])
  | s :: size, i, lastSliceIndex, mult, startOffset => do
      let isSlice ← isSliceAt v.sliceInfo lastSliceIndex i
      if isSlice then
        let p ← read v.sliceInfo.slicePositions lastSliceIndex
        metaDataLoop v size (i + 1) (lastSliceIndex + 1) (mult * s) (startOffset + mult * p)
      else
        let o ← read v.splitOffset (i - lastSliceIndex)
        let rest ← metaDataLoop v size (i + 1) lastSliceIndex (mult * s) (startOffset + mult * o)
        pure (rest.1, mult :: rest.2)

/-- The start offset and the multipliers. -/
def computeMatrixRegionMetaData (r : RegionDataRaw α) (v : RegionMatrix) :
    Option (IndexT × List IndexT) :=
  metaDataLoop v r.size 0 0 1 0

/-- `_toLocalRegion()`; the wrapper without dimensions points to its cell. -/
def toLocalRegion (r : RegionDataRaw α) (v : RegionMatrix) : Option MatrixRegion :=
  match v.sourceInfo with
  | some sourceIndex =>
      if sourceIndex.length < v.handlerDimensions then none
      else some ⟨r.coordOffset (sourceIndex.take v.handlerDimensions), [], []⟩
  | none => do
      let (startOffset, multipliers) ← computeMatrixRegionMetaData r v
      let matrixRegion : MatrixRegion := ⟨startOffset, v.size, multipliers⟩
      pure (if v.isTransposed then matrixRegion.transposed else matrixRegion)

/-- `RegionMatrix::readCell`. -/
def readCell (r : RegionDataRaw α) (v : RegionMatrix) (coord : List IndexT) : Option α := do
  let rdCoord ← accessed v coord
  r.readCell rdCoord

/-- `RegionMatrix::writeCell`. -/
def writeCell (r : RegionDataRaw α) (v : RegionMatrix) (coord : List IndexT) (value : α) :
    Option (RegionDataRaw α) := do
  let rdCoord ← accessed v coord
  pure (r.writeCell rdCoord value)

/-- `size(i)` for all dimensions. -/
def seenSize (v : RegionMatrix) : List IndexT :=
  if v.isTransposed then v.size.reverse else v.size

/-- An operation on a `MatrixRegion`. -/
inductive LocalOp where
  | region (c1 c2 : List IndexT)
  | slice (d : Nat) (pos : IndexT)
  | transposed
  deriving DecidableEq, Repr

/-- The operation on views with the same name. -/
def LocalOp.toOp : LocalOp → Op
  | .region c1 c2 => .region c1 c2
  | .slice d pos => .slice d pos
  | .transposed => .transposed

def MatrixRegion.apply (m : MatrixRegion) : LocalOp → MatrixRegion
  | .region c1 c2 => m.region c1 c2
  | .slice d pos => m.slice d pos
  | .transposed => m.transposed

/-- A chain of operations. -/
def MatrixRegion.build (m : MatrixRegion) (ops : List LocalOp) : MatrixRegion :=
  ops.foldl MatrixRegion.apply m

/-- A view with its slices in order: each of the handler's dimensions is a slice or one of the
    view's own. -/
structure Sliced (v : RegionMatrix) : Prop where
  splitOffset : v.splitOffset.length = v.D
  slicePositions : v.sliceInfo.slicePositions.length = v.sliceInfo.numSliceDimensions
  sorted : v.sliceInfo.sliceDimensions.Pairwise (· < ·)
  inside : ∀ d ∈ v.sliceInfo.sliceDimensions, 0 ≤ d ∧ d < v.handlerDimensions
  count : v.D + v.sliceInfo.numSliceDimensions = v.handlerDimensions

/-- A view the program can hold: one with its slices in order, or a cell by its coordinate. -/
structure WellFormed (v : RegionMatrix) : Prop where
  sliced : v.sourceInfo = none → Sliced v
  source : ∀ s, v.sourceInfo = some s →
    v.size = [] ∧ v.isTransposed = false ∧ s.length = v.handlerDimensions

/-! ## Offsets are linear -/

section Offset

@[simp] theorem offset_nil (c : List Int) : offset [] c = 0 := rfl

@[simp] theorem offset_nil_right (ms : List Int) : offset ms [] = 0 := by
  rw [offset, List.zipWith_nil_right, List.sum_nil]

@[simp] theorem offset_cons (m : Int) (ms : List Int) (x : Int) (c : List Int) :
    offset (m :: ms) (x :: c) = m * x + offset ms c := by
  rw [offset, List.zipWith_cons_cons, List.sum_cons, offset]

theorem offset_zipWith_add {c d : List Int} (ms : List Int) (h : c.length = d.length) :
    offset ms (List.zipWith (· + ·) c d) = offset ms c + offset ms d := by
  induction ms generalizing c d with
  | nil => rfl
  | cons m ms ih =>
      cases c with
      | nil =>
          rw [List.length_eq_zero_iff.mp h.symm]
          rfl
      | cons x c =>
          cases d with
          | nil => exact nomatch h
          | cons y d =>
              rw [List.zipWith_cons_cons, offset_cons, offset_cons, offset_cons,
                ih (Nat.succ.inj h)]
              ring

theorem offset_replicate (ms : List Int) (n : Nat) : offset ms (List.replicate n 0) = 0 := by
  induction ms generalizing n with
  | nil => rfl
  | cons m ms ih =>
      cases n with
      | zero => rw [List.replicate_zero, offset_nil_right]
      | succ n => rw [List.replicate_succ, offset_cons, ih, Int.mul_zero, Int.add_zero]

/-- A coordinate with one more entry: the entry alone, and the rest without its multiplier. -/
theorem offset_insertIdx {ms c : List Int} {d n : Nat} (p : Int) (hd : d < ms.length)
    (hc : c.length + 1 = ms.length) (hn : n = ms.length) :
    offset ms (c.insertIdx d p) =
      offset ms ((List.replicate n 0).set d p) + offset (ms.eraseIdx d) c := by
  subst hn
  induction ms generalizing c d with
  | nil => exact absurd hd (Nat.not_lt_zero d)
  | cons m ms ih =>
      rw [List.length_cons, List.replicate_succ]
      cases d with
      | zero =>
          rw [List.insertIdx_zero, List.set_cons_zero, List.eraseIdx_cons_zero, offset_cons,
            offset_cons, offset_replicate, Int.add_zero]
      | succ d =>
          cases c with
          | nil =>
              rw [List.length_cons] at hd
              rw [List.length_nil, List.length_cons] at hc
              omega
          | cons x c =>
              rw [List.insertIdx_succ_cons, List.set_cons_succ, List.eraseIdx_cons_succ,
                offset_cons, offset_cons, offset_cons,
                ih (Nat.lt_of_succ_lt_succ hd) (Nat.succ.inj hc)]
              ring

theorem offset_append {ms c : List Int} (ms' c' : List Int) (h : ms.length = c.length) :
    offset (ms ++ ms') (c ++ c') = offset ms c + offset ms' c' := by
  rw [offset, List.zipWith_append h, List.sum_append]
  rfl

theorem offset_reverse {ms c : List Int} (h : ms.length = c.length) :
    offset ms.reverse c.reverse = offset ms c := by
  induction ms generalizing c with
  | nil => rfl
  | cons m ms ih =>
      cases c with
      | nil => exact nomatch h
      | cons x c =>
          have hlen : ms.reverse.length = c.reverse.length := by
            rw [List.length_reverse, List.length_reverse]
            exact Nat.succ.inj h
          rw [List.reverse_cons, List.reverse_cons, offset_append _ _ hlen,
            ih (Nat.succ.inj h), offset_cons, offset_cons, offset_nil]
          ring

end Offset

/-! ## Operations follow the geometry -/

/-- The region points for each coordinate to where the view it was made of has its cell. -/
structure Follows (m : MatrixRegion) (g : Geometry) (ptr : List Int → Int) : Prop where
  sizes : m.sizes = g.size
  multipliers : m.multipliers.length = g.size.length
  coordToPtr : ∀ c, c.length = g.size.length → m.coordToPtr c = ptr (g.cell c)

/-- **THE OPERATIONS**: one of them. -/
theorem Follows.apply {m : MatrixRegion} {g : Geometry} {ptr : List Int → Int}
    (h : Follows m g ptr) {op : LocalOp} (hin : ArgsInRange g.size op.toOp) :
    Follows (m.apply op) (g.apply op.toOp) ptr := by
  cases op with
  | region c1 c2 =>
      obtain ⟨_, hc1, hbox, _⟩ := hin
      refine ⟨rfl, h.multipliers.trans hbox.symm, ?_⟩
      intro c hc
      have hc' : c.length = g.size.length := hc.trans hbox
      have hlen : (List.zipWith (· + ·) c c1).length = g.size.length := by
        rw [List.length_zipWith, hc', hc1, Nat.min_self]
      show m.coordToPtr c1 + offset m.multipliers c = ptr (g.cell (List.zipWith (· + ·) c c1))
      rw [← h.coordToPtr _ hlen, MatrixRegion.coordToPtr, MatrixRegion.coordToPtr,
        offset_zipWith_add _ (hc'.trans hc1.symm)]
      ring
  | slice d pos =>
      obtain ⟨hd, _⟩ := hin
      have hsize : (g.size.eraseIdx d).length + 1 = g.size.length := by
        rw [List.length_eraseIdx_of_lt hd]
        omega
      refine ⟨congrArg (List.eraseIdx · d) h.sizes, ?_, ?_⟩
      · show (m.multipliers.eraseIdx d).length = (g.size.eraseIdx d).length
        rw [List.length_eraseIdx_of_lt (by rw [h.multipliers]; exact hd), h.multipliers,
          List.length_eraseIdx_of_lt hd]
      · intro c hc
        have hc' : c.length + 1 = g.size.length := by
          rw [← hsize]
          exact congrArg (· + 1) hc
        have hlen : (c.insertIdx d pos).length = g.size.length := by
          rw [List.length_insertIdx_of_le_length (by omega), hc']
        show m.coordToPtr ((List.replicate m.sizes.length 0).set d pos) +
          offset (m.multipliers.eraseIdx d) c = ptr (g.cell (c.insertIdx d pos))
        rw [← h.coordToPtr _ hlen, MatrixRegion.coordToPtr, MatrixRegion.coordToPtr,
          offset_insertIdx (n := m.sizes.length) pos (by rw [h.multipliers]; exact hd)
            (by rw [h.multipliers]; exact hc') (by rw [h.multipliers, h.sizes])]
        ring
  | transposed =>
      have hrev : g.size.reverse.length = g.size.length := List.length_reverse
      refine ⟨congrArg List.reverse h.sizes, ?_, ?_⟩
      · show m.multipliers.reverse.length = g.size.reverse.length
        rw [List.length_reverse, hrev, h.multipliers]
      · intro c hc
        have hc' : c.length = g.size.length := hc.trans hrev
        have hptr := h.coordToPtr c.reverse (by rw [List.length_reverse]; exact hc')
        show m.base + offset m.multipliers.reverse c = ptr (g.cell c.reverse)
        rw [← hptr, MatrixRegion.coordToPtr]
        have hoff : offset m.multipliers.reverse c.reverse.reverse = offset m.multipliers c.reverse :=
          offset_reverse (by rw [List.length_reverse, h.multipliers, hc'])
        rw [List.reverse_reverse] at hoff
        rw [hoff]

/-- **THE OPERATIONS**: a chain. -/
theorem Follows.build {m : MatrixRegion} {g : Geometry} {ptr : List Int → Int}
    {ops : List LocalOp} (h : Follows m g ptr) (hin : InRange g (ops.map LocalOp.toOp)) :
    Follows (m.build ops) (g.build (ops.map LocalOp.toOp)) ptr := by
  induction ops generalizing m g with
  | nil => exact h
  | cons op ops ih => exact ih (h.apply hin.1) hin.2

/-! ## The loop -/

/-- Multipliers that give the offset of what an axis-by-axis view designates. -/
structure Folds (as : List Axis) (size : List Int) (mult startOffset : Int)
    (res : IndexT × List IndexT) : Prop where
  length : res.2.length = (sizes as).length
  offset : ∀ x, x.length = (sizes as).length →
    res.1 + offset res.2 x = startOffset + offset (multipliersFrom mult size) (cell as x)

/-- A fixed axis goes into the start offset. -/
theorem Folds.fixed {as : List Axis} {size : List Int} {mult startOffset s p : Int}
    {res : IndexT × List IndexT} (h : Folds as size (mult * s) (startOffset + mult * p) res) :
    Folds (.fixed p :: as) (s :: size) mult startOffset res := by
  refine ⟨h.length, ?_⟩
  intro x hx
  rw [h.offset x hx, PbAxes.cell, multipliersFrom, offset_cons]
  ring

/-- One of the view's own axes keeps its multiplier. -/
theorem Folds.free {as : List Axis} {size : List Int} {mult startOffset s o n : Int}
    {res : IndexT × List IndexT} (h : Folds as size (mult * s) (startOffset + mult * o) res) :
    Folds (.free o n :: as) (s :: size) mult startOffset (res.1, mult :: res.2) := by
  refine ⟨congrArg (· + 1) h.length, ?_⟩
  intro x hx
  cases x with
  | nil => exact nomatch hx
  | cons y x =>
      have hrest := h.offset x (Nat.succ.inj hx)
      show res.1 + PbRemoteCache.offset (mult :: res.2) (y :: x) = _
      rw [PbAxes.cell, multipliersFrom, offset_cons, offset_cons]
      linarith

/-- **THE LOOP**: from an axis on, it folds the rest of the view into a start offset and one
    multiplier for each own axis. -/
theorem metaDataLoop_folds {v : RegionMatrix} {t : Track} (h : Stores v t) (as : List Axis)
    {size : List Int} {i lastSliceIndex : Nat} (mult startOffset : Int)
    (hlast : lastSliceIndex ≤ i) (hsize : size.length = as.length)
    (hf : t.fixedAxes.drop lastSliceIndex = fixed i as)
    (ho : (offsets t.axes).drop (i - lastSliceIndex) = offsets as) :
    ∃ res, metaDataLoop v size i lastSliceIndex mult startOffset = some res ∧
      Folds as size mult startOffset res := by
  induction as generalizing size i lastSliceIndex mult startOffset with
  | nil =>
      rw [List.length_eq_zero_iff.mp hsize]
      refine ⟨(startOffset, []), rfl, rfl, ?_⟩
      intro x _
      rw [PbAxes.cell, offset_nil, offset_nil_right]
  | cons a as ih =>
      cases size with
      | nil => cases hsize
      | cons s size =>
          have hsize' := Nat.succ.inj hsize
          cases a with
          | fixed p =>
              obtain ⟨hat, hp, hrest⟩ := h.isSliceAt_fixed hf
              obtain ⟨res, hres, hfold⟩ := ih (mult * s) (startOffset + mult * p)
                (by omega) hsize' hrest (by rw [Nat.add_sub_add_right]; exact ho)
              refine ⟨res, ?_, hfold.fixed⟩
              rw [metaDataLoop, hat, hp]
              exact hres
          | free o n =>
              obtain ⟨hat, ho', hrest⟩ := h.isSliceAt_free hf ho
              obtain ⟨res, hres, hfold⟩ := ih (mult * s) (startOffset + mult * o)
                (by omega) hsize' hf (by rw [Nat.sub_add_comm hlast]; exact hrest)
              refine ⟨(res.1, mult :: res.2), ?_, hfold.free⟩
              rw [metaDataLoop, hat,
                show (i : Int) - lastSliceIndex = ((i - lastSliceIndex : Nat) : Int) by omega, ho']
              show (metaDataLoop v size (i + 1) lastSliceIndex (mult * s)
                (startOffset + mult * o)).bind _ = _
              rw [hres]
              rfl

/-! ## Every view with its slices in order is axes -/

/-- Dimensions in increasing order between two bounds are no more than fit there. -/
theorem length_le_of_sorted {dims : List Int} {d : Int} {k : Nat} (hs : dims.Pairwise (· < ·))
    (hin : ∀ e ∈ dims, d ≤ e ∧ e < d + k) : dims.length ≤ k := by
  induction dims generalizing d k with
  | nil => exact Nat.zero_le k
  | cons e dims ih =>
      obtain ⟨hlt, hs⟩ := List.pairwise_cons.mp hs
      obtain ⟨hle, hek⟩ := hin e List.mem_cons_self
      have hrest : dims.length ≤ k - 1 := by
        refine ih (d := d + 1) hs ?_
        intro e' he'
        have := hlt e' he'
        have := (hin e' (List.mem_cons_of_mem _ he')).2
        omega
      rw [List.length_cons]
      omega

/-- Axes with the given fixed places from a dimension on. -/
theorem exists_axes (k d : Nat) {dims positions os ss : List Int}
    (hs : dims.Pairwise (· < ·)) (hin : ∀ e ∈ dims, (d : Int) ≤ e ∧ e < d + k)
    (hp : positions.length = dims.length) (ho : os.length = ss.length)
    (hk : ss.length + dims.length = k) :
    ∃ as : List Axis, as.length = k ∧ sizes as = ss ∧ offsets as = os ∧
      SliceInfo.ofFixed (fixed d as) = ⟨dims, positions⟩ := by
  induction k generalizing d dims positions os ss with
  | zero =>
      refine ⟨[], rfl, ?_, ?_, ?_⟩
      · exact (List.length_eq_zero_iff.mp (by omega)).symm
      · exact (List.length_eq_zero_iff.mp (by omega)).symm
      · rw [List.length_eq_zero_iff.mp (show dims.length = 0 by omega),
          List.length_eq_zero_iff.mp (show positions.length = 0 by omega)]
        rfl
  | succ k ih =>
      -- the next dimension is the first slice left, or one of the view's own
      by_cases hhead : ∃ rest, dims = (d : Int) :: rest
      · obtain ⟨rest, rfl⟩ := hhead
        obtain ⟨hlt, hs⟩ := List.pairwise_cons.mp hs
        cases positions with
        | nil => exact nomatch hp
        | cons p positions =>
            obtain ⟨as, hlen, hsize, hoff, hfix⟩ := ih (d + 1) hs (by
                intro e he
                have := hlt e he
                have := (hin e (List.mem_cons_of_mem _ he)).2
                omega) (Nat.succ.inj hp) ho (by rw [List.length_cons] at hk; omega)
            refine ⟨.fixed p :: as, congrArg (· + 1) hlen, hsize, hoff, ?_⟩
            obtain ⟨hd, hpos⟩ := SliceInfo.mk.inj hfix
            show SliceInfo.mk ((d : Int) :: _) (p :: _) = _
            rw [hd, hpos]
      -- the slices left are all of later dimensions
      · have hnext : ∀ e ∈ dims, ((d + 1 : Nat) : Int) ≤ e ∧ e < ((d + 1 : Nat) : Int) + k := by
          intro e he
          obtain ⟨hle, hlt⟩ := hin e he
          have hne : e ≠ d := by
            rintro rfl
            cases dims with
            | nil => exact nomatch he
            | cons e' rest =>
                refine hhead ⟨rest, ?_⟩
                rcases List.mem_cons.mp he with heq | hmem
                · rw [heq]
                · have := (List.pairwise_cons.mp hs).1 _ hmem
                  have := (hin e' List.mem_cons_self).1
                  omega
          omega
        -- as many as fit there, so that the view has a size left for this dimension
        have hle := length_le_of_sorted hs hnext
        cases ss with
        | nil =>
            rw [List.length_nil] at hk
            omega
        | cons s ss =>
            cases os with
            | nil => exact nomatch ho
            | cons o os =>
                obtain ⟨as, hlen, hsize, hoff, hfix⟩ := ih (d + 1) hs hnext hp
                  (Nat.succ.inj ho) (by rw [List.length_cons] at hk; omega)
                exact ⟨.free o s :: as, congrArg (· + 1) hlen, congrArg (s :: ·) hsize,
                  congrArg (o :: ·) hoff, hfix⟩

theorem Sliced.stores {v : RegionMatrix} (h : Sliced v) (hsrc : v.sourceInfo = none) :
    ∃ as, Stores v ⟨as, v.isTransposed⟩ := by
  obtain ⟨as, hlen, hsize, hoff, hfix⟩ := exists_axes v.handlerDimensions 0 h.sorted
    (by
      intro e he
      have := h.inside e he
      rw [Int.natCast_zero, Int.zero_add]
      exact this)
    h.slicePositions h.splitOffset h.count
  exact ⟨as, hlen.symm, hsize.symm, hoff.symm, hfix.symm, fun _ => ⟨rfl, hsrc⟩, Or.inl hsrc⟩

/-! ## The local region -/

/-- **LOCAL REGIONS**: the one of a view has its size, and points for each coordinate to the
    handler's cell. -/
theorem WellFormed.toLocalRegion {v : RegionMatrix} (h : WellFormed v) (r : RegionDataRaw α)
    (hr : r.size.length = v.handlerDimensions) :
    ∃ (m : MatrixRegion) (cell : List Int → List Int), toLocalRegion r v = some m ∧
      (∀ c, c.length = (seenSize v).length → accessed v c = some (cell c)) ∧
      Follows m (Geometry.whole (seenSize v)) (fun c => r.coordOffset (cell c)) := by
  cases hsrc : v.sourceInfo with
  | some s =>
      obtain ⟨hsize, htr, hs⟩ := h.source s hsrc
      have hseen : seenSize v = [] := by
        rw [seenSize, htr]
        exact hsize
      refine ⟨⟨r.coordOffset (s.take v.handlerDimensions), [], []⟩,
        fun _ => s.take v.handlerDimensions, ?_, ?_, ?_⟩
      · rw [PbLocalRegion.toLocalRegion, hsrc]
        exact if_neg (by omega)
      · intro c _
        rw [accessed, hsrc]
        exact if_neg (by omega)
      · rw [hseen]
        refine ⟨rfl, rfl, ?_⟩
        intro c _
        exact Int.add_zero _
  | none =>
      -- the loop runs over the axes of the view, before it is transposed
      obtain ⟨as, hst⟩ := (h.sliced hsrc).stores hsrc
      have hloop : ∃ res, metaDataLoop v r.size 0 0 1 0 = some res ∧ Folds as r.size 1 0 res :=
        metaDataLoop_folds hst as 1 0 (Nat.le_refl 0) (hr.trans hst.handler) rfl rfl
      obtain ⟨res, hres, hlen, hoff⟩ := hloop
      have hD : (sizes as).length = v.size.length := by
        rw [hst.size]
      have hrow : Follows ⟨res.1, v.size, res.2⟩ (Geometry.whole v.size)
          (fun x => r.coordOffset (PbAxes.cell as x)) := by
        refine ⟨rfl, hlen.trans hD, ?_⟩
        intro x hx
        have heq := hoff x (hx.trans hD.symm)
        rw [Int.zero_add] at heq
        exact heq
      refine ⟨if v.isTransposed then (MatrixRegion.mk res.1 v.size res.2).transposed
          else ⟨res.1, v.size, res.2⟩, (Track.mk as v.isTransposed).cell, ?_, ?_, ?_⟩
      · rw [PbLocalRegion.toLocalRegion, hsrc]
        show (metaDataLoop v r.size 0 0 1 0).bind _ = _
        rw [hres]
        rfl
      · intro c hc
        refine hst.accessed ?_
        rw [hc, seenSize, RegionMatrix.D]
        split
        · exact List.length_reverse
        · rfl
      · rw [seenSize]
        cases htr : v.isTransposed with
        | false => exact hrow
        | true =>
            have hrev : Follows (MatrixRegion.apply ⟨res.1, v.size, res.2⟩ .transposed)
                ((Geometry.whole v.size).apply .transposed)
                (fun x => r.coordOffset (PbAxes.cell as x)) := hrow.apply trivial
            refine ⟨hrev.sizes, hrev.multipliers, ?_⟩
            intro c hc
            exact hrev.coordToPtr c hc

/-- **THE FAST PATH AND THE SLOW PATH**: for every view the program can hold of data that is
    here, and every chain of operations on its local region with arguments in range, the region
    that comes out reads and writes at each of its coordinates the storage cell that `readCell`
    and `writeCell` of the view access at the coordinate the chain makes of it. -/
theorem local_region_exact (r : RegionDataRaw α) (v : RegionMatrix) (ops : List LocalOp)
    (hv : WellFormed v) (hr : r.size.length = v.handlerDimensions)
    (hin : InRange (Geometry.whole (seenSize v)) (ops.map LocalOp.toOp)) :
    ∃ m, toLocalRegion r v = some m ∧
      (m.build ops).sizes =
        ((Geometry.whole (seenSize v)).build (ops.map LocalOp.toOp)).size ∧
      ∀ c, Contains ((Geometry.whole (seenSize v)).build (ops.map LocalOp.toOp)).size c →
        let c' := ((Geometry.whole (seenSize v)).build (ops.map LocalOp.toOp)).cell c
        (∃ rdCoord, accessed v c' = some rdCoord ∧
          (m.build ops).coordToPtr c = r.coordOffset rdCoord) ∧
        (m.build ops).readCell r c = readCell r v c' ∧
        ∀ value, some ((m.build ops).writeCell r c value) = writeCell r v c' value := by
  obtain ⟨m, cell, hm, hcell, hfol⟩ := hv.toLocalRegion r hr
  have hfol' := hfol.build hin
  refine ⟨m, hm, hfol'.sizes, ?_⟩
  intro c hc c'
  have hinside : Contains (seenSize v) c' := designated_inside _ _ hin c hc
  have hacc : accessed v c' = some (cell c') := hcell c' hinside.1
  have hptr : (m.build ops).coordToPtr c = r.coordOffset (cell c') := hfol'.coordToPtr c hc.1
  refine ⟨⟨_, hacc, hptr⟩, ?_, ?_⟩
  · rw [readCell, hacc, MatrixRegion.readCell, hptr]
    rfl
  · intro value
    rw [writeCell, hacc, MatrixRegion.writeCell]
    simp only [hptr]
    rfl

/-- Data of two by three by two cells. -/
def boxData : RegionDataRaw Nat := ⟨[2, 3, 2], List.range 12, by decide⟩

/-- A transposed layer of it, from the second row on. -/
def transposedLayer : RegionMatrix where
  handlerDimensions := 3
  size := [2, 2]
  splitOffset := [0, 1]
  isTransposed := true
  sliceInfo := ⟨[2], [1]⟩
  sourceInfo := none

def columnOps : List LocalOp := [.region [1, 0] [2, 2], .slice 0 0, .transposed]

theorem local_region_exact_layer :
    ∃ m, toLocalRegion boxData transposedLayer = some m ∧
      (m.build columnOps).sizes =
        ((Geometry.whole [2, 2]).build (columnOps.map LocalOp.toOp)).size ∧
      ∀ c, Contains ((Geometry.whole [2, 2]).build (columnOps.map LocalOp.toOp)).size c →
        let c' := ((Geometry.whole [2, 2]).build (columnOps.map LocalOp.toOp)).cell c
        (∃ rdCoord, accessed transposedLayer c' = some rdCoord ∧
          (m.build columnOps).coordToPtr c = boxData.coordOffset rdCoord) ∧
        (m.build columnOps).readCell boxData c = readCell boxData transposedLayer c' ∧
        ∀ value, some ((m.build columnOps).writeCell boxData c value) =
          writeCell boxData transposedLayer c' value := by
  refine local_region_exact boxData transposedLayer columnOps ⟨fun _ => ?_, ?_⟩ rfl ?_
  · exact ⟨rfl, rfl, by decide, by decide, rfl⟩
  · intro s hs
    exact nomatch hs
  · exact ⟨⟨rfl, rfl, rfl, by decide⟩, ⟨by decide, by decide, by decide⟩, trivial, trivial⟩

-- cell [1, 2, 1] of the data, the last one, through either path
example : (toLocalRegion boxData transposedLayer).bind
      (fun m => (m.build columnOps).readCell boxData [1]) = some 11 ∧
    readCell boxData transposedLayer [1, 1] = some 11 := by decide

end PbLocalRegion
