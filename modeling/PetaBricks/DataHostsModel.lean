import PetaBricks.LocalRegionProofs
import PetaBricks.MatrixRegionModel
import PetaBricks.ScatterProofs

/-! # Data hosts — `RegionMatrix::dataHosts`

    `RegionDataRaw::hosts` and `RegionDataSplit::hosts`, and how a view asks for them.  Of a part
    only its host is kept.  Coordinates and weights are unbounded. -/

namespace PbDataHosts

open PbRegionMatrix PbRegionSplit PbLocalRegion
open PbMatrixRegion (doWhile)

variable {H : Type}

structure DataHostPidListItem (H : Type) where
  hostPid : H
  weight : ℤ
  deriving DecidableEq, Repr

/-- `RegionDataSplit`, with the host of each part; its constructor is given dimensions. -/
structure RegionDataSplit (H : Type) where
  dims : List SplitDim
  parts : List H
  dims_ne : dims ≠ []
  length_parts : (parts.length : ℤ) = numParts dims

inductive RegionData (H : Type) where
  | raw (size : List IndexT)
  | split (d : RegionDataSplit H)

def RegionData.size : RegionData H → List IndexT
  | .raw size => size
  | .split d => PbRegionSplit.sizeOf d.dims

/-! ## Raw data -/

def rawHosts (self : H) (size begins ends : List IndexT) :
    Option (List (DataHostPidListItem H)) :=
  if begins.length < size.length ∨ ends.length < size.length then none
  else some [⟨self, ((List.zipWith (· - ·) ends begins).take size.length).prod⟩]

/-! ## Split data -/

/-- `incPartCoord`, from dimension `i` on. -/
def incPartFrom (i : ℤ) :
    List SplitDim → List IndexT → List IndexT → List IndexT → List IndexT × ℤ
  | [d], [_], [hi], [x] =>
      if x + d.splitSize < hi then ([x + d.splitSize], i) else ([x + d.splitSize], -1)
  | d :: dims, lo :: begins, hi :: ends, x :: coord =>
      if x + d.splitSize ≥ hi then
        let rest := incPartFrom (i + 1) dims begins ends coord
        (lo :: rest.1, rest.2)
      else ((x + d.splitSize) :: coord, i)
  | _, _, _, _ => ([], -1)

def dataBegin (begin x : IndexT) : IndexT := if x < begin then begin else x

def dataEnd (d : SplitDim) (e x : IndexT) : IndexT :=
  if x + d.splitSize > e then e else x + d.splitSize

/-- `count`, over what is left of the dimensions. -/
def partCount : List SplitDim → List IndexT → List IndexT → List IndexT → ℤ
  | d :: dims, b :: begins, e :: ends, x :: coord =>
      (dataEnd d e x - dataBegin b x) * partCount dims begins ends coord
  | _, _, _, _ => 1

/-- `coordToPart(coord, junk)->dataHost()`. -/
def partHost (d : RegionDataSplit H) (coord : List IndexT) : Option H :=
  PbScatter.get d.parts (coordToPart d.dims coord).1

/-- The items that are pushed at some coordinates. -/
def items (d : RegionDataSplit H) (begins ends : List IndexT) :
    List (List IndexT) → Option (List (DataHostPidListItem H))
  | [] => some []
  | coord :: coords => do
      let host ← partHost d coord
      let rest ← items d begins ends coords
      pure (⟨host, partCount d.dims begins ends coord⟩ :: rest)

def newBegin (d : RegionDataSplit H) (begins : List IndexT) : List IndexT :=
  List.zipWith (fun d b => b - b.tmod d.splitSize) d.dims begins

def splitHosts (d : RegionDataSplit H) (begins ends : List IndexT) (n : ℕ) :
    Option (List (DataHostPidListItem H)) :=
  if begins.length < d.dims.length ∨ ends.length < d.dims.length then none
  else
    (doWhile (incPartFrom 0 d.dims (newBegin d begins) ends) n (newBegin d begins)).bind
      (items d begins ends)

/-! ## Views -/

def RegionData.hosts (self : H) (data : RegionData H) (begins ends : List IndexT) (n : ℕ) :
    Option (List (DataHostPidListItem H)) :=
  match data with
  | .raw size => rawHosts self size begins ends
  | .split d => splitHosts d begins ends n

/-- `dataHosts(list)`; `ignored` is `shouldIgnoreDuringScheduling()`. -/
def dataHosts (ignored : Bool) (self : H) (data : RegionData H) (v : RegionMatrix) (n : ℕ) :
    Option (List (DataHostPidListItem H)) :=
  if ignored then some []
  else if v.D = 0 then data.hosts self [] [] n
  else do
    let begins ← regionDataCoord v (List.replicate v.D 0)
    let ends ← regionDataCoord v (seenSize v)
    data.hosts self begins ends n

end PbDataHosts
