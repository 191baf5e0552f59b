import PetaBricks.ScratchMetadataModel

/-! # Scratch copies — the data of `localCopy` and `fromScratchRegion`

    `PbScratchMetadata` has the records that `RegionDataSplit::copyHelper` hands to the parts, as
    bytes.  Here they have fields, and the parts do with them what they are for: a part that is
    raw copies cell by cell, one on another host packs its cells into a reply or unpacks them from
    a message.

    A new storage holds anything.  Integers are unbounded.  `localCopy` does look into the cache
    of its handler, but passes a pointer to its scratch data, for which nothing is ever put
    there. -/

namespace PbScratchCopy

open PbRegionMatrix PbRegionSplit PbRemoteCache
open PbDataHosts (dataBegin incPartFrom)
open PbScratchMetadata (PartDim partDims isRegionInOnePart)
open PbMatrixRegion (doWhile incFrom)
open PbLocalRegion (seenSize)

variable {α : Type}

structure RegionMatrixMetadata where
  splitOffset : List IndexT
  size : List IndexT
  sliceInfo : SliceInfo
  deriving DecidableEq, Repr

def RegionMatrixMetadata.dimensions (m : RegionMatrixMetadata) : ℕ := m.size.length

def computeRegionMatrixMetadata (v : RegionMatrix) : RegionMatrixMetadata :=
  ⟨v.splitOffset, v.size, v.sliceInfo⟩

/-! ## Coordinates -/

/-- The loop of `toRegionDataCoord`, `k` dimensions before its end. -/
def coordLoop (m : RegionMatrixMetadata) (coord : List IndexT) :
    ℕ → ℕ → ℕ → ℕ → Option (List IndexT)
  | 0, _, _, _ => some []
  | k + 1, d, sliceIndex, splitIndex => do
      let isSlice ← isSliceAt m.sliceInfo sliceIndex d
      if isSlice then
        let p ← read m.sliceInfo.slicePositions sliceIndex
        let rest ← coordLoop m coord k (d + 1) (sliceIndex + 1) splitIndex
        pure (p :: rest)
      else
        let offset ← read m.splitOffset splitIndex
        let c ← read coord splitIndex
        let rest ← coordLoop m coord k (d + 1) sliceIndex (splitIndex + 1)
        pure ((c + offset) :: rest)

def toRegionDataCoord (m : RegionMatrixMetadata) (coord : List IndexT) : Option (List IndexT) :=
  coordLoop m coord (m.dimensions + m.sliceInfo.numSliceDimensions) 0 0 0

def toRegionDataIndex (m : RegionMatrixMetadata) (multipliers coord : List IndexT) :
    Option IndexT :=
  (toRegionDataCoord m coord).map (offset multipliers)

/-- `RegionDataI::incCoord`. -/
def incCoord (size coord : List IndexT) : List IndexT × ℤ :=
  incFrom 0 (List.replicate size.length 0) size coord

/-- The coordinates of a loop over a box, of at most `n` turns. -/
def turns (size : List IndexT) (n : ℕ) : Option (List (List IndexT)) :=
  doWhile (incCoord size) n (List.replicate size.length 0)

/-! ## Raw data -/

/-- The loop that copies an element for each coordinate. -/
def copyCells (source target : List IndexT → Option IndexT) (src : List α) :
    List (List IndexT) → List α → Option (List α)
  | [], dst => some dst
  | coord :: coords, dst => do
      let i ← source coord
      let j ← target coord
      let x ← PbScatter.get src i
      let dst ← PbScatter.put dst j x
      copyCells source target src coords dst

/-- The loop that packs the elements at some coordinates. -/
def pack (source : List IndexT → Option IndexT) (src : List α) :
    List (List IndexT) → Option (List α)
  | [] => some []
  | coord :: coords => do
      let i ← source coord
      let x ← PbScatter.get src i
      let rest ← pack source src coords
      pure (x :: rest)

/-- The loop that puts packed elements to their coordinates. -/
def unpack (target : List IndexT → Option IndexT) :
    List (List IndexT) → List α → List α → Option (List α)
  | [], _, dst => some dst
  | coord :: coords, x :: xs, dst => do
      let j ← target coord
      let dst ← PbScatter.put dst j x
      unpack target coords xs dst
  | _ :: _, [], _ => none

/-- Region data of this size, with this storage. -/
def withStorage (size : List IndexT) (storage : List α) : Option (RegionDataRaw α) :=
  if h : (storage.length : Int) = size.prod then some ⟨size, storage, h⟩ else none

/-- `allocDataLocal()`. -/
def allocate (size : List IndexT) (junk : ℕ → α) : Option (RegionDataRaw α) :=
  withStorage size ((List.range size.prod.toNat).map junk)

def rawCopyToScratchMatrixStorage (r : RegionDataRaw α) (orig scratch : RegionMatrixMetadata)
    (scratchStorageSize : List IndexT) (scratchStorage : List α) (n : ℕ) : Option (List α) := do
  let coords ← turns orig.size n
  copyCells (toRegionDataIndex orig (multipliersOf r.size))
    (toRegionDataIndex scratch (multipliersOf scratchStorageSize)) r.storage coords scratchStorage

def rawCopyFromScratchMatrixStorage (r : RegionDataRaw α) (orig scratch : RegionMatrixMetadata)
    (scratchStorageSize : List IndexT) (scratchStorage : List α) (n : ℕ) :
    Option (RegionDataRaw α) := do
  let coords ← turns orig.size n
  let storage ← copyCells (toRegionDataIndex scratch (multipliersOf scratchStorageSize))
    (toRegionDataIndex orig (multipliersOf r.size)) scratchStorage coords r.storage
  withStorage r.size storage

/-! ## Data of another host -/

structure CopyToMatrixStorageReplyMessage (α : Type) where
  count : ℤ
  storage : List α

/-- The reply has room for `count` elements. -/
def processCopyToMatrixStorageMsg (r : RegionDataRaw α) (metadata : RegionMatrixMetadata)
    (n : ℕ) : Option (CopyToMatrixStorageReplyMessage α) := do
  let coords ← turns metadata.size n
  let storage ← pack (toRegionDataIndex metadata (multipliersOf r.size)) r.storage coords
  if storage.length ≤ metadata.size.prod then pure ⟨metadata.size.prod, storage⟩ else none

def processCopyFromMatrixStorageMsg (r : RegionDataRaw α) (metadata : RegionMatrixMetadata)
    (storage : List α) (n : ℕ) : Option (RegionDataRaw α) := do
  let coords ← turns metadata.size n
  let storage ← unpack (toRegionDataIndex metadata (multipliersOf r.size)) coords storage
    r.storage
  withStorage r.size storage

/-- `r` is what the other host has. -/
def remoteCopyToScratchMatrixStorage (r : RegionDataRaw α) (orig scratch : RegionMatrixMetadata)
    (scratchStorageSize : List IndexT) (scratchStorage : List α) (n : ℕ) : Option (List α) := do
  let reply ← processCopyToMatrixStorageMsg r orig n
  if reply.count = scratchStorage.length then
    if reply.storage.length < scratchStorage.length then none
    else pure (reply.storage.take scratchStorage.length)
  else
    let coords ← turns orig.size n
    unpack (toRegionDataIndex scratch (multipliersOf scratchStorageSize)) coords reply.storage
      scratchStorage

/-- The message has room for so many elements. -/
def remoteCopyFromScratchMatrixStorage (r : RegionDataRaw α)
    (orig scratch : RegionMatrixMetadata) (scratchStorageSize : List IndexT)
    (scratchStorage : List α) (room : ℤ) (n : ℕ) : Option (RegionDataRaw α) := do
  let storageCount := orig.size.prod
  let storage ←
    if storageCount = scratchStorage.length then pure scratchStorage
    else
      let coords ← turns orig.size n
      pack (toRegionDataIndex scratch (multipliersOf scratchStorageSize)) scratchStorage coords
  if storage.length ≤ room ∧ storageCount ≤ room then
    processCopyFromMatrixStorageMsg r orig storage n
  else none

/-! ## Split data -/

/-- What the handler of a part has. -/
inductive Held
  | raw
  | remote
  deriving DecidableEq, Repr

/-- The constructor is given dimensions. -/
structure SplitMatrix (α : Type) where
  data : RegionDataSplit α
  held : ℕ → Held
  dims_ne : data.dims ≠ []

/-- `begin` and `end` of `copyHelper`, `k` dimensions before the last. -/
def boundsLoop (orig : RegionMatrixMetadata) :
    ℕ → ℕ → ℕ → ℕ → Option (List IndexT × List IndexT)
  | 0, _, _, _ => some ([], [])
  | k + 1, d, sliceIndex, splitIndex => do
      let isSlice ← isSliceAt orig.sliceInfo sliceIndex d
      if isSlice then
        let p ← read orig.sliceInfo.slicePositions sliceIndex
        let rest ← boundsLoop orig k (d + 1) (sliceIndex + 1) splitIndex
        pure (p :: rest.1, p :: rest.2)
      else
        let o ← read orig.splitOffset splitIndex
        let s ← read orig.size splitIndex
        let rest ← boundsLoop orig k (d + 1) sliceIndex (splitIndex + 1)
        pure (o :: rest.1, (o + s) :: rest.2)

def newBegin (dims : List SplitDim) (begins : List IndexT) : List IndexT :=
  List.zipWith (fun d b => b - b.tmod d.splitSize) dims begins

/-- The one part that everything is in, if that is raw. -/
def SplitMatrix.sharedPart (m : SplitMatrix α) (begins ends : List IndexT) : Option ℕ :=
  let index := (coordToPart m.data.dims begins).1
  if isRegionInOnePart m.data.dims (newBegin m.data.dims begins) ends ∧ 0 ≤ index ∧
      m.held index.toNat = .raw then some index.toNat
  else none

/-- The new metadata of the scratch region, of the offsets in the part and what they are
    relative to. -/
def shareLoop (orig : RegionMatrixMetadata) :
    List (IndexT × IndexT) → ℕ → ℕ → Option (List IndexT × SliceInfo)
  | [], _, _ => some ([], ⟨[], []⟩)
  | (newSplitOffset, newBegin) :: rest, i, sliceIndex => do
      let isSlice ← isSliceAt orig.sliceInfo sliceIndex i
      if isSlice then
        let e ← read orig.sliceInfo.sliceDimensions sliceIndex
        let p ← read orig.sliceInfo.slicePositions sliceIndex
        let (offsets, slices) ← shareLoop orig rest (i + 1) (sliceIndex + 1)
        pure (offsets, ⟨e :: slices.sliceDimensions, (p - newBegin) :: slices.slicePositions⟩)
      else
        let (offsets, slices) ← shareLoop orig rest (i + 1) sliceIndex
        pure (newSplitOffset :: offsets, slices)

/-- The buffer of the scratch region's record has room for the slices it had. -/
def share (dims : List SplitDim) (orig scratch : RegionMatrixMetadata) (begins : List IndexT) :
    Option RegionMatrixMetadata := do
  let (offsets, slices) ←
    shareLoop orig (List.zip (coordToPart dims begins).2 (newBegin dims begins)) 0 0
  if scratch.sliceInfo.numSliceDimensions < slices.numSliceDimensions then none
  else pure ⟨offsets, scratch.size, slices⟩

/-- What the loop over the dimensions writes into the records of a part; it writes all of it. -/
structure PartRecord where
  slicePositions : List IndexT
  size : List IndexT
  splitOffset : List IndexT
  scratchOffset : List IndexT

def partLoop (orig scratch : RegionMatrixMetadata) :
    List PartDim → ℕ → ℕ → ℕ → Option PartRecord
  | [], _, _, _ => some ⟨[], [], [], []⟩
  | p :: rest, i, sliceIndex, splitIndex => do
      let isSlice ← isSliceAt orig.sliceInfo sliceIndex i
      if isSlice then
        let x ← read orig.sliceInfo.slicePositions sliceIndex
        let r ← partLoop orig scratch rest (i + 1) (sliceIndex + 1) splitIndex
        pure { r with slicePositions := (x - p.newBegin) :: r.slicePositions }
      else
        let o ← read scratch.splitOffset splitIndex
        let r ← partLoop orig scratch rest (i + 1) sliceIndex (splitIndex + 1)
        pure { r with
          size := p.size :: r.size
          splitOffset := p.newOrigSplitOffset :: r.splitOffset
          scratchOffset := (p.partBegin - p.begin + o) :: r.scratchOffset }

/-- The index of a part, and its two records. -/
structure PartCopy where
  index : ℤ
  newOrig : RegionMatrixMetadata
  newScratch : RegionMatrixMetadata

def partCopy (dims : List SplitDim) (orig scratch : RegionMatrixMetadata)
    (begins ends coord : List IndexT) : Option PartCopy := do
  let partBegin := List.zipWith dataBegin begins coord
  let (index, newOrigSplitOffset) := coordToPart dims partBegin
  let r ← partLoop orig scratch
    (partDims dims begins ends (newBegin dims begins) coord newOrigSplitOffset) 0 0 0
  pure ⟨index, ⟨r.splitOffset, r.size, ⟨orig.sliceInfo.sliceDimensions, r.slicePositions⟩⟩,
    ⟨r.scratchOffset, r.size, ⟨[], []⟩⟩⟩

namespace SplitMatrix

variable (m : SplitMatrix α)

/-- The parts that the loop comes to. -/
def partCoords (begins ends : List IndexT) (n : ℕ) : Option (List (List IndexT)) :=
  doWhile (incPartFrom 0 m.data.dims (newBegin m.data.dims begins) ends) n
    (newBegin m.data.dims begins)

/-- `part->copyToScratchMatrixStorage`. -/
def copyPartTo (c : PartCopy) (scratchStorageSize : List IndexT) (scratchStorage : List α)
    (n : ℕ) : Option (List α) := do
  let part ← m.data.part c.index
  match m.held c.index.toNat with
  | .raw =>
      rawCopyToScratchMatrixStorage part c.newOrig c.newScratch scratchStorageSize
        scratchStorage n
  | .remote =>
      remoteCopyToScratchMatrixStorage part c.newOrig c.newScratch scratchStorageSize
        scratchStorage n

/-- The matrix with this part at an index, if it has the size. -/
def setPart (index : ℕ) (part : RegionDataRaw α) : Option (SplitMatrix α) :=
  if h : part.size = sizeOfPart m.data.dims index then
    some ⟨m.data.withPart index part h, m.held, m.dims_ne⟩
  else none

/-- `part->copyFromScratchMatrixStorage`. -/
def copyPartFrom (c : PartCopy) (scratchStorageSize : List IndexT) (scratchStorage : List α)
    (room : ℤ) (n : ℕ) : Option (SplitMatrix α) := do
  let part ← m.data.part c.index
  let part ←
    match m.held c.index.toNat with
    | .raw =>
        rawCopyFromScratchMatrixStorage part c.newOrig c.newScratch scratchStorageSize
          scratchStorage n
    | .remote =>
        remoteCopyFromScratchMatrixStorage part c.newOrig c.newScratch scratchStorageSize
          scratchStorage room n
  m.setPart c.index.toNat part

def copyPartsTo (orig scratch : RegionMatrixMetadata) (begins ends : List IndexT) (n : ℕ) :
    List (List IndexT) → List α → Option (List α)
  | [], scratchStorage => some scratchStorage
  | coord :: coords, scratchStorage => do
      let c ← partCopy m.data.dims orig scratch begins ends coord
      let scratchStorage ← m.copyPartTo c orig.size scratchStorage n
      copyPartsTo orig scratch begins ends n coords scratchStorage

end SplitMatrix

def copyPartsFrom (orig scratch : RegionMatrixMetadata) (begins ends scratchStorageSize :
    List IndexT) (scratchStorage : List α) (room : ℤ) (n : ℕ) :
    List (List IndexT) → SplitMatrix α → Option (SplitMatrix α)
  | [], m => some m
  | coord :: coords, m => do
      let c ← partCopy m.data.dims orig scratch begins ends coord
      let m ← m.copyPartFrom c scratchStorageSize scratchStorage room n
      copyPartsFrom orig scratch begins ends scratchStorageSize scratchStorage room n coords m

/-- `partCount`; `sliceIndex` is set to zero in each turn. -/
def partElementCount (orig : RegionMatrixMetadata) : List SplitDim → ℕ → Option ℤ
  | [], _ => some 1
  | d :: dims, i => do
      let isSlice ← isSliceAt orig.sliceInfo 0 i
      let rest ← partElementCount orig dims (i + 1)
      pure (if isSlice then rest else d.splitSize * rest)

/-- How many elements a message for a part has room for. -/
def messageRoom (orig : RegionMatrixMetadata) (dims : List SplitDim) : Option ℤ := do
  let partCount ← partElementCount orig dims 0
  pure (if partCount < orig.size.prod then partCount else orig.size.prod)

/-! ## Region data -/

inductive RegionData (α : Type)
  | raw (r : RegionDataRaw α)
  | remote (r : RegionDataRaw α)
  | split (m : SplitMatrix α)

namespace RegionData

def size : RegionData α → List IndexT
  | .raw r => r.size
  | .remote r => r.size
  | .split m => PbRegionSplit.sizeOf m.data.dims

def readCell : RegionData α → List IndexT → Option α
  | .raw r, coord => r.readCell coord
  | .remote r, coord => r.readCell coord
  | .split m, coord => m.data.readCell coord

def writeCell : RegionData α → List IndexT → α → Option (RegionData α)
  | .raw r, coord, value => some (.raw (r.writeCell coord value))
  | .remote r, coord, value => some (.remote (r.writeCell coord value))
  | .split m, coord, value => do
      let part ← m.data.part (coordToPart m.data.dims coord).1
      let part := part.writeCell (coordToPart m.data.dims coord).2 value
      let m ← m.setPart (coordToPart m.data.dims coord).1.toNat part
      pure (.split m)

/-- `RegionMatrix::readCell` of a view. -/
def readView (m : RegionData α) (v : RegionMatrix) (coord : List IndexT) : Option α := do
  let cell ← accessed v coord
  m.readCell cell

end RegionData

/-! ## Scratch regions -/

/-- Where a scratch region has its elements: in a storage of its own, or in that of the matrix or
    of a part of it. -/
inductive Storage (α : Type)
  | own (data : RegionDataRaw α)
  | whole
  | part (index : ℕ)

structure Scratch (α : Type) where
  view : RegionMatrix
  storage : Storage α

namespace Scratch

variable (s : Scratch α)

def readCell (m : RegionData α) (coord : List IndexT) : Option α := do
  let cell ← accessed s.view coord
  match s.storage, m with
  | .own data, _ => data.readCell cell
  | .whole, m => m.readCell cell
  | .part index, .split m => do
      let part ← m.data.part index
      part.readCell cell
  | .part _, _ => none

def writeCell (m : RegionData α) (coord : List IndexT) (value : α) :
    Option (RegionData α × Scratch α) := do
  let cell ← accessed s.view coord
  match s.storage, m with
  | .own data, m => pure (m, { s with storage := .own (data.writeCell cell value) })
  | .whole, m => do
      let m ← m.writeCell cell value
      pure (m, s)
  | .part index, .split m => do
      let part ← m.data.part index
      let m ← m.setPart index (part.writeCell cell value)
      pure (.split m, s)
  | .part _, _ => none

end Scratch

def writeCells : List (List IndexT × α) → RegionData α × Scratch α →
    Option (RegionData α × Scratch α)
  | [], p => some p
  | w :: ws, p => do
      let p ← p.2.writeCell p.1 w.1 w.2
      writeCells ws p

/-! ## Copies -/

/-- The view of a new scratch region, after `transpose()`. -/
def ownView (v : RegionMatrix) : RegionMatrix :=
  { whole v.size with isTransposed := v.isTransposed }

/-- `RegionDataSplit::copyToScratchMatrixStorage`, and what `localCopy` does after it. -/
def SplitMatrix.localCopy (m : SplitMatrix α) (v : RegionMatrix) (scratch : RegionDataRaw α)
    (n : ℕ) : Option (Scratch α) := do
  let orig := computeRegionMatrixMetadata v
  let scratchMetadata := computeRegionMatrixMetadata (whole v.size)
  let (begins, ends) ← boundsLoop orig m.data.dims.length 0 0 0
  match m.sharedPart begins ends with
  | some index => do
      let metadata ← share m.data.dims orig scratchMetadata begins
      pure ⟨⟨m.data.dims.length, metadata.size, metadata.splitOffset, v.isTransposed,
        metadata.sliceInfo, none⟩, .part index⟩
  | none => do
      let coords ← m.partCoords begins ends n
      let storage ← m.copyPartsTo orig scratchMetadata begins ends n coords scratch.storage
      let data ← withStorage v.size storage
      pure ⟨ownView v, .own data⟩

/-- `localCopy()`; the new storage holds `junk`. -/
def localCopy (m : RegionData α) (v : RegionMatrix) (junk : ℕ → α) (n : ℕ) :
    Option (Scratch α) :=
  match m with
  | .raw _ => some ⟨v, .whole⟩
  | .remote r => do
      let scratch ← allocate v.size junk
      let storage ← remoteCopyToScratchMatrixStorage r (computeRegionMatrixMetadata v)
        (computeRegionMatrixMetadata (whole v.size)) scratch.size scratch.storage n
      let data ← withStorage v.size storage
      pure ⟨ownView v, .own data⟩
  | .split m => do
      let scratch ← allocate v.size junk
      m.localCopy v scratch n

/-- `RegionDataSplit::copyFromScratchMatrixStorage`.  A scratch region in another part of the
    same matrix, which is copied from while that part is written, is left out. -/
def SplitMatrix.fromScratchRegion (m : SplitMatrix α) (v : RegionMatrix) (scratch : Scratch α)
    (n : ℕ) : Option (SplitMatrix α) := do
  let orig := computeRegionMatrixMetadata v
  let (begins, ends) ← boundsLoop orig m.data.dims.length 0 0 0
  match scratch.storage with
  | .own data => do
      let room ← messageRoom orig m.data.dims
      let coords ← m.partCoords begins ends n
      copyPartsFrom orig (computeRegionMatrixMetadata scratch.view) begins ends data.size
        data.storage room n coords m
  | .part index => if m.sharedPart begins ends = some index then pure m else none
  | .whole => none

def fromScratchRegion (m : RegionData α) (v : RegionMatrix) (scratch : Scratch α) (n : ℕ) :
    Option (RegionData α) :=
  match m with
  | .raw r => some (.raw r)
  | .remote r =>
      match scratch.storage with
      | .own data => do
          let r ← remoteCopyFromScratchMatrixStorage r (computeRegionMatrixMetadata v)
            (computeRegionMatrixMetadata scratch.view) data.size data.storage
            (seenSize scratch.view).prod n
          pure (.remote r)
      | _ => none
  | .split m => do
      let m ← m.fromScratchRegion v scratch n
      pure (.split m)

end PbScratchCopy
