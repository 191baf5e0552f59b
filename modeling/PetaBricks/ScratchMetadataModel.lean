import PetaBricks.DataHostsModel
import PetaBricks.WordBufferProofs

/-! # Scratch metadata — the records of a copy

    `RegionMatrix::localCopy` and `fromScratchRegion` for a view of a split matrix, down to the
    records that `RegionDataSplit::copyHelper` hands to the parts.  A record is a
    `RegionMatrixMetadata` over a buffer of bytes; its arrays are where the numbers in its own
    header put them.

    All fields have four bytes and all of them are aligned, so a buffer is kept by its words.
    Addresses and lengths are in bytes, as in the code.  Integers are unbounded.  The storage that
    follows a record of a `CopyFromMatrixStorageMessage` is written by others, and what the parts
    do with their records is left out. -/

namespace PbScratchMetadata

open PbRegionMatrix PbRegionSplit PbDataHosts PbWordBuffer
open PbMatrixRegion (doWhile)

def sizeofInt : ℕ := 4

def sizeofIndexT : ℕ := 4

def sizeofElementT : ℕ := 8

/-- A write past the end of a buffer, a read of what is not there, a part that is not there. -/
inductive Fault
  | overrun
  | unset
  | noPart
  deriving DecidableEq, Repr

/-! ## Memory -/

/-- `malloc(bytes)`, or an array on the stack. -/
def allocate (bytes : ℕ) : Buffer IndexT := fresh (bytes / sizeofInt)

def loadAt (m : Buffer IndexT) (address : ℕ) : Except Fault IndexT :=
  match load m (address / sizeofInt) with
  | some x => .ok x
  | none => .error .unset

def writeAt (m : Buffer IndexT) (address : ℕ) (xs : Buffer IndexT) :
    Except Fault (Buffer IndexT) :=
  match copyTo m (address / sizeofInt) xs with
  | some m => .ok m
  | none => .error .overrun

def storeAt (m : Buffer IndexT) (address : ℕ) (x : IndexT) : Except Fault (Buffer IndexT) :=
  writeAt m address [some x]

/-- The source of a `memcpy`. -/
def readAt (m : Buffer IndexT) (address bytes : ℕ) : Except Fault (Buffer IndexT) :=
  match copyFrom m (address / sizeofInt) (bytes / sizeofInt) with
  | some xs => .ok xs
  | none => .error .unset

/-! ## Records -/

/-- `RegionMatrixMetadata::len`. -/
def len (d numSlices : ℕ) : ℕ :=
  sizeofInt * 2 + sizeofIndexT * 2 * d + (sizeofInt + sizeofIndexT) * numSlices

def dimensions (m : Buffer IndexT) : Except Fault ℕ := do
  let d ← loadAt m 0
  .ok d.toNat

def numSliceDimensions (m : Buffer IndexT) : Except Fault ℕ := do
  let n ← loadAt m sizeofInt
  .ok n.toNat

/-- Where `size()` points. -/
def sizeAddress (m : Buffer IndexT) : Except Fault ℕ := do
  let d ← dimensions m
  .ok (sizeofInt * 2 + sizeofIndexT * d)

def sliceDimensionsAddress (m : Buffer IndexT) : Except Fault ℕ := do
  let p ← sizeAddress m
  let d ← dimensions m
  .ok (p + sizeofIndexT * d)

def slicePositionsAddress (m : Buffer IndexT) : Except Fault ℕ := do
  let p ← sliceDimensionsAddress m
  let n ← numSliceDimensions m
  .ok (p + sizeofInt * n)

/-- The arrays of a record. -/
inductive Field
  | splitOffset
  | size
  | sliceDimensions
  | slicePositions
  deriving DecidableEq, Repr

namespace Field

def address (m : Buffer IndexT) : Field → Except Fault ℕ
  | splitOffset => .ok (sizeofInt * 2)
  | size => sizeAddress m
  | sliceDimensions => sliceDimensionsAddress m
  | slicePositions => slicePositionsAddress m

def get (f : Field) (m : Buffer IndexT) (i : ℕ) : Except Fault IndexT := do
  let p ← f.address m
  loadAt m (p + sizeofIndexT * i)

def set (f : Field) (m : Buffer IndexT) (i : ℕ) (x : IndexT) : Except Fault (Buffer IndexT) := do
  let p ← f.address m
  storeAt m (p + sizeofIndexT * i) x

/-- `memcpy` of `n` elements of an array of the view. -/
def fill (f : Field) (m : Buffer IndexT) (n : ℕ) (a : List IndexT) :
    Except Fault (Buffer IndexT) := do
  let p ← f.address m
  match copy n a with
  | some xs => writeAt m p (xs.map some)
  | none => .error .unset

end Field

def regionMatrixMetadataLen (v : RegionMatrix) : ℕ := len v.D v.sliceInfo.numSliceDimensions

def computeRegionMatrixMetadata (v : RegionMatrix) (metadata : Buffer IndexT) :
    Except Fault (Buffer IndexT) := do
  let metadata ← storeAt metadata 0 v.D
  let metadata ← storeAt metadata sizeofInt v.sliceInfo.numSliceDimensions
  let metadata ← Field.splitOffset.fill metadata v.D v.splitOffset
  let metadata ← Field.size.fill metadata v.D v.size
  let metadata ← Field.sliceDimensions.fill metadata v.sliceInfo.numSliceDimensions
    v.sliceInfo.sliceDimensions
  Field.slicePositions.fill metadata v.sliceInfo.numSliceDimensions v.sliceInfo.slicePositions

/-- `sliceIndex < numSliceDimensions && d == sliceDimensions()[sliceIndex]`. -/
def isSlice (m : Buffer IndexT) (sliceIndex d : ℕ) : Except Fault Bool := do
  let n ← numSliceDimensions m
  if sliceIndex < n then do
    let e ← Field.sliceDimensions.get m sliceIndex
    .ok (decide ((d : IndexT) = e))
  else .ok false

/-! ## Split data -/

/-- What the handler of a part has: raw data, by its storage, or data of another host. -/
inductive Part
  | raw (storage : ℕ)
  | remote
  deriving DecidableEq, Repr

abbrev SplitMatrix := PbDataHosts.RegionDataSplit Part

/-- The part of `coordToPart`. -/
def SplitMatrix.partAt (r : SplitMatrix) (coord : List IndexT) : Option Part :=
  PbScatter.get r.parts (coordToPart r.dims coord).1

/-- `begin` and `end` of `copyHelper`, `k` dimensions before the last. -/
def boundsLoop (orig : Buffer IndexT) :
    ℕ → ℕ → ℕ → ℕ → Except Fault (List IndexT × List IndexT)
  | 0, _, _, _ => .ok ([], [])
  | k + 1, d, sliceIndex, splitIndex => do
      if ← isSlice orig sliceIndex d then
        let p ← Field.slicePositions.get orig sliceIndex
        let rest ← boundsLoop orig k (d + 1) (sliceIndex + 1) splitIndex
        .ok (p :: rest.1, p :: rest.2)
      else
        let o ← Field.splitOffset.get orig splitIndex
        let s ← Field.size.get orig splitIndex
        let rest ← boundsLoop orig k (d + 1) sliceIndex (splitIndex + 1)
        .ok (o :: rest.1, (o + s) :: rest.2)

def isRegionInOnePart : List SplitDim → List IndexT → List IndexT → Bool
  | d :: dims, b :: newBegin, e :: ends =>
      if b + d.splitSize < e then false else isRegionInOnePart dims newBegin ends
  | _, _, _ => true

/-- The special case applies: everything is in one part, and it is raw. -/
def SplitMatrix.sharedPart (r : SplitMatrix) (begins ends : List IndexT) : Option ℕ :=
  if isRegionInOnePart r.dims (newBegin r begins) ends then
    match r.partAt begins with
    | some (.raw storage) => some storage
    | _ => none
  else none

/-! ## The special case -/

/-- The new metadata of the scratch region, of a part's offsets and what they are relative to. -/
def shareLoop (orig : Buffer IndexT) :
    List (IndexT × IndexT) → ℕ → ℕ → ℕ → Buffer IndexT → Except Fault (Buffer IndexT)
  | [], _, _, _, scratch => .ok scratch
  | (newSplitOffset, newBegin) :: rest, i, sliceIndex, splitIndex, scratch => do
      if ← isSlice orig sliceIndex i then
        let e ← Field.sliceDimensions.get orig sliceIndex
        let scratch ← Field.sliceDimensions.set scratch sliceIndex e
        let p ← Field.slicePositions.get orig sliceIndex
        let scratch ← Field.slicePositions.set scratch sliceIndex (p - newBegin)
        shareLoop orig rest (i + 1) (sliceIndex + 1) splitIndex scratch
      else
        let scratch ← Field.splitOffset.set scratch splitIndex newSplitOffset
        shareLoop orig rest (i + 1) sliceIndex (splitIndex + 1) scratch

def share (r : SplitMatrix) (orig scratch : Buffer IndexT) (begins : List IndexT) :
    Except Fault (Buffer IndexT) := do
  let n ← numSliceDimensions orig
  let scratch ← storeAt scratch sizeofInt n
  shareLoop orig (List.zip (coordToPart r.dims begins).2 (newBegin r begins)) 0 0 0 scratch

/-! ## The parts -/

/-- What the loop over the dimensions reads in one of them. -/
structure PartDim where
  splitSize : IndexT
  begin : IndexT
  stop : IndexT
  newBegin : IndexT
  coord : IndexT
  newOrigSplitOffset : IndexT

def PartDim.partBegin (p : PartDim) : IndexT := dataBegin p.begin p.coord

def PartDim.size (p : PartDim) : IndexT :=
  if p.coord + p.splitSize ≤ p.stop then p.coord + p.splitSize - p.partBegin
  else p.stop - p.partBegin

def partDims : List SplitDim → List IndexT → List IndexT → List IndexT → List IndexT →
    List IndexT → List PartDim
  | d :: dims, b :: begins, e :: ends, x :: newBegin, c :: coord, o :: offsets =>
      ⟨d.splitSize, b, e, x, c, o⟩ :: partDims dims begins ends newBegin coord offsets
  | _, _, _, _, _, _ => []

/-- The loop that updates both records for a part. -/
def partLoop (orig scratch : Buffer IndexT) :
    List PartDim → ℕ → ℕ → ℕ → Buffer IndexT → Buffer IndexT →
      Except Fault (Buffer IndexT × Buffer IndexT)
  | [], _, _, _, newOrig, newScratch => .ok (newOrig, newScratch)
  | p :: rest, i, sliceIndex, splitIndex, newOrig, newScratch => do
      if ← isSlice orig sliceIndex i then
        let x ← Field.slicePositions.get orig sliceIndex
        let newOrig ← Field.slicePositions.set newOrig sliceIndex (x - p.newBegin)
        partLoop orig scratch rest (i + 1) (sliceIndex + 1) splitIndex newOrig newScratch
      else
        let newOrig ← Field.size.set newOrig splitIndex p.size
        let o ← Field.splitOffset.get scratch splitIndex
        let newScratch ← Field.splitOffset.set newScratch splitIndex (p.partBegin - p.begin + o)
        let newOrig ← Field.splitOffset.set newOrig splitIndex p.newOrigSplitOffset
        partLoop orig scratch rest (i + 1) sliceIndex (splitIndex + 1) newOrig newScratch

/-- The `memcpy` of the sizes. -/
def copySizes (newOrig newScratch : Buffer IndexT) : Except Fault (Buffer IndexT) := do
  let dst ← Field.size.address newScratch
  let src ← Field.size.address newOrig
  let d ← dimensions newOrig
  let sizes ← readAt newOrig src (sizeofIndexT * d)
  writeAt newScratch dst sizes

/-- The records when a copy is left, and what stopped it. -/
structure Outcome where
  records : List (Buffer IndexT)
  fault : Option Fault
  deriving DecidableEq, Repr

/-- The body of the loop over the parts, at some corners. -/
def eachPart (r : SplitMatrix) (orig scratch : Buffer IndexT) (begins ends : List IndexT) :
    List (List IndexT) → Buffer IndexT → Buffer IndexT → Outcome
  | [], _, _ => ⟨[], none⟩
  | coord :: coords, newOrig, newScratch =>
      let partBegin := List.zipWith dataBegin begins coord
      match r.partAt partBegin with
      | none => ⟨[], some .noPart⟩
      | some _ =>
          let dims := partDims r.dims begins ends (newBegin r begins) coord
            (coordToPart r.dims partBegin).2
          match (do
            let (newOrig, newScratch) ← partLoop orig scratch dims 0 0 0 newOrig newScratch
            let newScratch ← copySizes newOrig newScratch
            .ok (newOrig, newScratch) : Except Fault (Buffer IndexT × Buffer IndexT)) with
          | .error f => ⟨[], some f⟩
          | .ok (newOrig, newScratch) =>
              let rest := eachPart r orig scratch begins ends coords newOrig newScratch
              ⟨newOrig :: newScratch :: rest.records, rest.fault⟩

/-- `count`: how many elements the view has. -/
def elementCount (orig : Buffer IndexT) : Except Fault ℤ := do
  let d ← dimensions orig
  (List.range d).foldlM (fun count i => do
    let s ← Field.size.get orig i
    .ok (count * s)) 1

/-- `partCount`; `sliceIndex` is set to zero in each turn. -/
def partElementCount (orig : Buffer IndexT) : List SplitDim → ℕ → ℤ → Except Fault ℤ
  | [], _, partCount => .ok partCount
  | d :: dims, i, partCount => do
      if ← isSlice orig 0 i then partElementCount orig dims (i + 1) partCount
      else partElementCount orig dims (i + 1) (partCount * d.splitSize)

/-- `len` of `copyHelper`. -/
def messageLen (r : SplitMatrix) (isCopyTo : Bool) (orig : Buffer IndexT) : Except Fault ℕ := do
  let d ← dimensions orig
  let n ← numSliceDimensions orig
  if isCopyTo then .ok (len d n)
  else
    let count ← elementCount orig
    let partCount ← partElementCount orig r.dims 0 1
    .ok (len d n + (if partCount < count then partCount else count).toNat * sizeofElementT)

/-- The two records before the loop. -/
def newRecords (r : SplitMatrix) (isCopyTo : Bool) (orig : Buffer IndexT) :
    Except Fault (Buffer IndexT × Buffer IndexT) := do
  let bytes ← messageLen r isCopyTo orig
  let source ← readAt orig 0 bytes
  let newOrig ← writeAt (allocate bytes) 0 source
  let d ← dimensions orig
  let newScratch ← storeAt (allocate (len d 0)) 0 d
  let newScratch ← storeAt newScratch sizeofInt 0
  .ok (newOrig, newScratch)

def copyParts (r : SplitMatrix) (isCopyTo : Bool) (orig scratch : Buffer IndexT)
    (begins ends : List IndexT) (n : ℕ) : Option Outcome :=
  match newRecords r isCopyTo orig with
  | .error f => some ⟨[], some f⟩
  | .ok (newOrig, newScratch) =>
      (doWhile (incPartFrom 0 r.dims (newBegin r begins) ends) n (newBegin r begins)).map
        fun coords => eachPart r orig scratch begins ends coords newOrig newScratch

/-- The outcome of a single record. -/
def Outcome.single : Except Fault (Buffer IndexT) → Outcome
  | .ok m => ⟨[m], none⟩
  | .error f => ⟨[], some f⟩

/-- `copyHelper`, its loop with at most `n` turns.  The part of the corner is looked up first, if
    everything is in one part. -/
def copyHelper (r : SplitMatrix) (isCopyTo : Bool) (orig scratch : Buffer IndexT)
    (scratchStorage n : ℕ) : Option Outcome :=
  match boundsLoop orig r.dims.length 0 0 0 with
  | .error f => some ⟨[], some f⟩
  | .ok (begins, ends) =>
      if isRegionInOnePart r.dims (newBegin r begins) ends ∧ r.partAt begins = none then
        some ⟨[], some .noPart⟩
      else
        match r.sharedPart begins ends with
        | some storage =>
            if isCopyTo then some (.single (share r orig scratch begins))
            else if storage = scratchStorage then some ⟨[], none⟩
            else copyParts r isCopyTo orig scratch begins ends n
        | none => copyParts r isCopyTo orig scratch begins ends n

/-! ## Its callers -/

/-- `localCopy()`: the scratch region is a new one of the view's size.  A view that was copied
    before comes from the cache, and has no records. -/
def localCopy (r : SplitMatrix) (v : RegionMatrix) (n : ℕ) : Option Outcome :=
  let scratch := whole v.size
  match (do
    let orig ← computeRegionMatrixMetadata v (allocate (regionMatrixMetadataLen v))
    let metadata ← computeRegionMatrixMetadata scratch
      (allocate (regionMatrixMetadataLen scratch))
    .ok (orig, metadata) : Except Fault (Buffer IndexT × Buffer IndexT)) with
  | .error f => some ⟨[], some f⟩
  | .ok (orig, metadata) => copyHelper r true orig metadata 0 n

/-- `fromScratchRegion(scratch)`, with the storage of the scratch region. -/
def fromScratchRegion (r : SplitMatrix) (v scratch : RegionMatrix) (storage n : ℕ) :
    Option Outcome :=
  let storageCount := (PbLocalRegion.seenSize scratch).prod.toNat
  match (do
    let orig ← computeRegionMatrixMetadata v
      (allocate (regionMatrixMetadataLen v + storageCount * sizeofElementT))
    let metadata ← computeRegionMatrixMetadata scratch
      (allocate (regionMatrixMetadataLen scratch))
    .ok (orig, metadata) : Except Fault (Buffer IndexT × Buffer IndexT)) with
  | .error f => some ⟨[], some f⟩
  | .ok (orig, metadata) => copyHelper r false orig metadata storage n

end PbScratchMetadata
