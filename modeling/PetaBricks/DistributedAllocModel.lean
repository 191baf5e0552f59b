import PetaBricks.RegionDataSplitProofs

/-! # `RegionHandler::allocDataNBySlice` and `allocDataNByBlock`

    A matrix is cut into a `RegionDataSplit` and its parts are created one after the other, each
    on the host that a counter says.  Sizes are not negative; a division by zero, a second
    creation of a part and an `int` that overflows end the run (`none`). -/

namespace PbDistributedAlloc

open PbRegionSplit

/-- `_hosts` is known by its length, and a host by its index there; the local host, `NULL`, is
    `none`. -/
structure RemoteHostDB where
  size : ℕ
  allocHostNumber : ℕ
  allocHostNumber_le : allocHostNumber ≤ size

namespace RemoteHostDB

variable (db : RemoteHostDB)

def numHosts : ℕ := db.size + 1

def allocHost (i : ℕ) : Option ℕ :=
  if i < db.allocHostNumber then some i
  else if i = db.allocHostNumber then none
  else some (i - 1)

/-- The local host, or one that is in `_hosts`. -/
def IsHost (host : Option ℕ) : Prop := ∀ k ∈ host, k < db.size

end RemoteHostDB

/-! ## The split -/

def splitDim (size splitSize : ℕ) : Option SplitDim :=
  if h : splitSize = 0 then none
  else some ⟨size, splitSize, Int.natCast_nonneg _, by omega⟩

def splitDims : List ℕ → List ℕ → Option (List SplitDim)
  | size :: sizes, splitSize :: splitSizes => do
      let d ← splitDim size splitSize
      let ds ← splitDims sizes splitSizes
      pure (d :: ds)
  | _, _ => some []

/-- `_numParts *= _partsSize[i]`. -/
def mulParts : ℤ → List ℤ → Option ℤ
  | numParts, [] => some numParts
  | numParts, p :: ps => if numParts * p < 2 ^ 31 then mulParts (numParts * p) ps else none

/-- A `RegionDataSplit` whose parts are not all created yet: `_parts` has the host of each. -/
structure Split where
  dims : List SplitDim
  parts : List (Option (Option ℕ))

def init (sizes splitSize : List ℕ) : Option Split := do
  let dims ← splitDims sizes splitSize
  let numParts ← mulParts 1 (partsSize dims)
  pure ⟨dims, List.replicate numParts.toNat none⟩

def createPart (s : Split) (partIndex : ℕ) (host : Option ℕ) : Option Split :=
  -- `tmp % _partsSize[i]`
  if (0 : ℤ) ∈ partsSize s.dims then none
  else match s.parts[partIndex]? with
    | some none => some { s with parts := s.parts.set partIndex (some host) }
    | _ => none

/-! ## The loops -/

structure Dealing where
  split : Split
  r : ℕ
  /-- `lastColBegin` or `lastRowBegin`. -/
  lastBegin : ℕ

/-- `if (r >= numHosts) r = 0`. -/
def wrap (db : RemoteHostDB) (r : ℕ) : ℕ := if r ≥ db.numHosts then 0 else r

/-- The loop over all parts, which leaves `r` as it is. -/
def dealParts (db : RemoteHostDB) (s : Dealing) : Option Dealing :=
  (List.range s.split.parts.length).foldlM (fun s i => do
    let split ← createPart s.split i (db.allocHost s.r)
    pure { s with split := split, r := wrap db s.r }) s

/-- One row, or one column of a transposed matrix. -/
def dealLine (db : RemoteHostDB) (num : ℕ) (hasExtra : Bool) (index : ℕ → ℕ) (s : Dealing) :
    Option Dealing :=
  (List.range num).foldlM (fun s j => do
    let split ← createPart s.split (index j) (db.allocHost s.r)
    let r := if !hasExtra || j + 2 != num then s.r + 1 else s.r
    pure { s with split := split, r := wrap db r }) s

/-- All rows: the last one stays with the one before it if it is extra. -/
def dealLines (num : ℕ) (hasExtra : Bool) (line : ℕ → Dealing → Option Dealing) (s : Dealing) :
    Option Dealing :=
  (List.range num).foldlM (fun s i =>
    let r := if hasExtra && i + 1 == num then s.lastBegin else s.r
    line i { s with r := r, lastBegin := r }) s

/-- How many pieces of a size a dimension has. -/
def numOf (size splitSize : ℕ) : ℕ :=
  if size % splitSize ≠ 0 then size / splitSize + 1 else size / splitSize

def clamp (db : RemoteHostDB) (distributionSize : ℕ) : ℕ :=
  if distributionSize > db.numHosts then db.numHosts else distributionSize

/-- `splitSize` of a dimension that is cut. -/
def sliceSize (distributionSize size : ℕ) : ℕ :=
  if size / distributionSize = 0 then 1 else size / distributionSize

def allocDataNBySlice (db : RemoteHostDB) (size : List ℕ) (distributionSize sliceDimension : ℕ) :
    Option Split := do
  let distributionSize := clamp db distributionSize
  -- the sizes are divided by it
  if distributionSize = 0 then none
  let split ← init size (size.modify sliceDimension (sliceSize distributionSize))
  let s ← dealParts db ⟨split, 0, 0⟩
  pure s.split

/-- `splitSize[i]` of a block; two dimensions leave the rest to an extra part. -/
def blockSize (twoDim : Bool) (distributionSize size : ℕ) : ℕ :=
  let splitSize := size / distributionSize
  let splitSize :=
    if size % distributionSize ≠ 0 ∧ twoDim = false then splitSize + 1 else splitSize
  if splitSize = 0 then 1 else splitSize

def allocDataNByBlock (db : RemoteHostDB) (size : List ℕ) (distributionSize : ℕ)
    (transposed : Bool) : Option Split := do
  let distributionSize := clamp db distributionSize
  if distributionSize = 0 then none
  let split ← init size (size.map (blockSize (size.length == 2) distributionSize))
  let s ← match size with
    | [size0, size1] =>
        let hasExtra0 := size0 % distributionSize != 0
        let hasExtra1 := size1 % distributionSize != 0
        let numCols := numOf size0 (blockSize true distributionSize size0)
        let numRows := numOf size1 (blockSize true distributionSize size1)
        if transposed then
          dealLines numCols hasExtra0
            (fun i => dealLine db numRows hasExtra1 fun j => j * numCols + i) ⟨split, 0, 0⟩
        else
          dealLines numRows hasExtra1
            (fun j => dealLine db numCols hasExtra0 fun i => j * numCols + i) ⟨split, 0, 0⟩
    | _ => dealParts db ⟨split, 0, 0⟩
  pure s.split

/-- The two ways to distribute. -/
inductive Distribution
  | slice (sliceDimension : ℕ)
  | block (transposed : Bool)

def allocDataN (db : RemoteHostDB) (size : List ℕ) (distributionSize : ℕ) :
    Distribution → Option Split
  | .slice sliceDimension => allocDataNBySlice db size distributionSize sliceDimension
  | .block transposed => allocDataNByBlock db size distributionSize transposed

/-- The test of `allocData` before it distributes. -/
def largerThanCutoff (size : List ℕ) (distributedCutoff : ℤ) : Distribution → Bool
  | .slice sliceDimension => size[sliceDimension]?.any fun s => distributedCutoff ≤ s
  | .block _ => size.any fun s => distributedCutoff ≤ s

example : (allocDataN ⟨2, 0, by decide⟩ [5, 4] 2 (.block false)).map Split.parts =
    some [some none, some (some 0), some (some 0), some (some 1), some none, some none] := by
  decide +kernel

end PbDistributedAlloc
