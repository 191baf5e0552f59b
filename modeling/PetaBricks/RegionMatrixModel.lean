import Mathlib.Data.List.Basic

/-! # RegionMatrix — views as the runtime stores them

    `RegionMatrix::splitRegion`, `sliceRegion`, `region`, `slice`, `transposed` and
    `regionDataCoord`, with the views `RegionMatrixWrapper` makes of them.  An
    array access goes through `read`, which has no value outside the array.

    `RegionMatrixWrapper<0>` is the one wrapper with a state of its own, the
    coordinate of its cell (`_sourceInfo`).  Its constant variant, which holds a
    copy of the value and no view, is left out. -/

namespace PbRegionMatrix

/-- `IndexT`. -/
abbrev IndexT := Int

/-- `a[i]`. -/
def read (a : List IndexT) (i : Int) : Option IndexT :=
  if i < 0 then none else a[i.toNat]?

/-- `for (i = 0; i < n; ++i) a[i] = f(i)` for an array of `cap` elements, of which
    the first `n` are given back. -/
def fill (cap n : Nat) (f : Int → Option IndexT) : Option (List IndexT) :=
  if n ≤ cap then (List.range n).mapM (fun i : Nat => f i) else none

/-- `memcpy` of `n` elements. -/
def copy (n : Nat) (a : List IndexT) : Option (List IndexT) :=
  if a.length < n then none else some (a.take n)

/-- `RegionMatrixSliceInfo`. -/
structure SliceInfo where
  sliceDimensions : List IndexT
  slicePositions : List IndexT
  deriving DecidableEq, Repr

/-- `numSliceDimensions()`. -/
def SliceInfo.numSliceDimensions (s : SliceInfo) : Nat :=
  s.sliceDimensions.length

/-- One more entry. -/
def SliceInfo.push (s : SliceInfo) (d pos : IndexT) : SliceInfo :=
  ⟨s.sliceDimensions ++ [d], s.slicePositions ++ [pos]⟩

/-- A `RegionMatrix<D>`, or a `RegionMatrixWrapper<0>` if `sourceInfo` is there. -/
structure RegionMatrix where
  handlerDimensions : Nat
  size : List IndexT
  splitOffset : List IndexT
  isTransposed : Bool
  sliceInfo : SliceInfo
  sourceInfo : Option (List IndexT)
  deriving DecidableEq, Repr

/-- `D`. -/
def RegionMatrix.D (v : RegionMatrix) : Nat := v.size.length

/-- `RegionMatrix(size)`. -/
def whole (size : List IndexT) : RegionMatrix where
  handlerDimensions := size.length
  size := size
  splitOffset := List.replicate size.length 0
  isTransposed := false
  sliceInfo := ⟨[], []⟩
  sourceInfo := none

/-- `RegionMatrixWrapper(const RegionMatrix&)`; for `D == 0` it is
    `init(NULL, val.regionHandler())`. -/
def wrap (v : RegionMatrix) : RegionMatrix :=
  if v.D = 0 then
    { v with
      splitOffset := []
      isTransposed := false
      sliceInfo := ⟨[], []⟩
      sourceInfo := some [] }
  else v

/-- `offset_new` of `splitRegion`. -/
def offsetNew (v : RegionMatrix) (offset : List IndexT) : Option (List IndexT) :=
  fill v.handlerDimensions v.D fun i => do
    let o ← read v.splitOffset i
    let a ← read offset (if v.isTransposed then v.D - 1 - i else i)
    pure (o + a)

/-- `size_n` of `splitRegion`, or its argument as it is. -/
def sizeNew (v : RegionMatrix) (size : List IndexT) : Option (List IndexT) :=
  if v.isTransposed then
    fill v.handlerDimensions v.handlerDimensions fun i => read size (v.D - 1 - i)
  else some size

/-- `splitRegion(offset, size)`. -/
def splitRegion (v : RegionMatrix) (offset size : List IndexT) :
    Option RegionMatrix := do
  let splitOffset ← offsetNew v offset
  let sizeN ← sizeNew v size
  let size ← copy v.D sizeN
  pure { v with size := size, splitOffset := splitOffset, sourceInfo := none }

/-- The loop of `sliceRegion` over the new slice info, `k` entries before its
    end. -/
def sliceLoop (old : SliceInfo) (splitOffset : List IndexT) (pos : IndexT) :
    Nat → Nat → Int → Bool → SliceInfo → Option SliceInfo
  | 0, _, _, _, new => some new
  | k + 1, i, d, true, new => do
      let e ← read old.sliceDimensions (i - 1)
      let p ← read old.slicePositions (i - 1)
      sliceLoop old splitOffset pos k (i + 1) d true (new.push e p)
  | k + 1, i, d, false, new => do
      let e ← read old.sliceDimensions i
      if e ≤ d then do
        let p ← read old.slicePositions i
        sliceLoop old splitOffset pos k (i + 1) (d + 1) false (new.push e p)
      else do
        let o ← read splitOffset d
        sliceLoop old splitOffset pos k (i + 1) d true (new.push d (pos + o))

/-- The new slice info of `sliceRegion`, `d` being a storage dimension. -/
def newSliceInfo (v : RegionMatrix) (d : Nat) (pos : IndexT) : Option SliceInfo :=
  if v.sliceInfo.numSliceDimensions = 0 then
    (read v.splitOffset d).map fun o => ⟨[(d : Int)], [pos + o]⟩
  else
    sliceLoop v.sliceInfo v.splitOffset pos
      (v.sliceInfo.numSliceDimensions + 1) 0 d false ⟨[], []⟩

/-- `sliceRegion(d, pos)`. -/
def sliceRegion (v : RegionMatrix) (d : Nat) (pos : IndexT) :
    Option RegionMatrix :=
  let d := if v.isTransposed then v.D - d - 1 else d
  (newSliceInfo v d pos).map fun sliceInfo =>
    { v with
      size := v.size.eraseIdx d
      splitOffset := v.splitOffset.eraseIdx d
      sliceInfo := sliceInfo
      sourceInfo := none }

/-- `region(c1, c2)`. -/
def region (v : RegionMatrix) (c1 c2 : List IndexT) : Option RegionMatrix :=
  if v.sourceInfo.isSome then some v
  else (splitRegion v c1 (List.zipWith (· - ·) c2 c1)).map wrap

/-- `slice(d, pos)`. -/
def slice (v : RegionMatrix) (d : Nat) (pos : IndexT) : Option RegionMatrix :=
  (sliceRegion v d pos).map wrap

/-- `transposed()`. -/
def transposed (v : RegionMatrix) : RegionMatrix :=
  wrap { v with isTransposed := !v.isTransposed, sourceInfo := none }

/-- `slice_index < numSliceDimensions() && d == sliceDimensions(slice_index)`. -/
def isSliceAt (s : SliceInfo) (sliceIndex d : Nat) : Option Bool :=
  if sliceIndex < s.numSliceDimensions then
    (read s.sliceDimensions sliceIndex).map fun e => decide ((d : Int) = e)
  else some false

/-- The loop of `regionDataCoord` over the handler's dimensions, `k` before its
    end. -/
def coordLoop (v : RegionMatrix) (coord : List IndexT) :
    Nat → Nat → Nat → Nat → Option (List IndexT)
  | 0, _, _, _ => some []
  | k + 1, d, sliceIndex, splitIndex => do
      let isSlice ← isSliceAt v.sliceInfo sliceIndex d
      if isSlice then
        let p ← read v.sliceInfo.slicePositions sliceIndex
        let rest ← coordLoop v coord k (d + 1) (sliceIndex + 1) splitIndex
        pure (p :: rest)
      else
        let offset ← read v.splitOffset splitIndex
        let c ← read coord
          (if v.isTransposed then v.D - 1 - splitIndex else splitIndex)
        let rest ← coordLoop v coord k (d + 1) sliceIndex (splitIndex + 1)
        pure ((c + offset) :: rest)

/-- `regionDataCoord(coord)`. -/
def regionDataCoord (v : RegionMatrix) (coord : List IndexT) :
    Option (List IndexT) :=
  coordLoop v coord v.handlerDimensions 0 0 0

/-- The handler's cell that `readCell(coord)` reads and `writeCell(coord)`
    writes. -/
def accessed (v : RegionMatrix) (coord : List IndexT) : Option (List IndexT) :=
  match v.sourceInfo with
  | some sourceIndex =>
      if sourceIndex.length < v.handlerDimensions then none
      else some (sourceIndex.take v.handlerDimensions)
  | none => regionDataCoord v coord

/-- An operation on views, with its arguments. -/
inductive Op where
  | splitRegion (offset size : List IndexT)
  | region (c1 c2 : List IndexT)
  | sliceRegion (d : Nat) (pos : IndexT)
  | slice (d : Nat) (pos : IndexT)
  | transposed
  deriving DecidableEq, Repr

/-- What the operation makes of a view. -/
def apply (v : RegionMatrix) : Op → Option RegionMatrix
  | .splitRegion offset size => splitRegion v offset size
  | .region c1 c2 => region v c1 c2
  | .sliceRegion d pos => sliceRegion v d pos
  | .slice d pos => slice v d pos
  | .transposed => some (transposed v)

/-- A chain of operations. -/
def build (v : RegionMatrix) : List Op → Option RegionMatrix
  | [] => some v
  | op :: ops => (apply v op).bind fun w => build w ops

end PbRegionMatrix
