import PetaBricks.LocalRegionProofs

/-! # `MatrixRegion` — views of an allocated matrix

    A region is a base pointer, here an index of the storage, with a size and a multiplier for
    each dimension.  `IndexT` is `int`: a sum or a product that is none is undefined (`none`).
    Elements are mutable ones, in the default row order. -/

namespace PbMatrixRegion

open PbRegionMatrix PbRemoteCache PbLocalRegion

/-- The values of an `int`. -/
def IsInt (x : ℤ) : Prop := -2 ^ 31 ≤ x ∧ x < 2 ^ 31

instance (x : ℤ) : Decidable (IsInt x) := inferInstanceAs (Decidable (_ ∧ _))

/-! ## Pointers -/

/-- `setStockLayout(LAYOUT_ASCENDING)`. -/
def setStockLayout : ℤ → List IndexT → Option (List IndexT)
  | _, [] => some []
  | mult, s :: size =>
      if IsInt (mult * s) then (setStockLayout (mult * s) size).map (mult :: ·) else none

/-- `allocate`; the storage has as many elements as the product of the sizes. -/
def allocate (sizes : List IndexT) : Option MatrixRegion :=
  (setStockLayout 1 sizes).map fun multipliers => ⟨0, sizes, multipliers⟩

/-- The loop of `coordToPtr`. -/
def offsetLoop : ℤ → List IndexT → List IndexT → Option ℤ
  | rv, m :: multipliers, x :: coord =>
      if IsInt (m * x) ∧ IsInt (rv + m * x) then offsetLoop (rv + m * x) multipliers coord
      else none
  | rv, _, _ => some rv

def coordToPtr (m : MatrixRegion) (coord : List IndexT) : Option ℤ :=
  (offsetLoop 0 m.multipliers coord).map (m.base + ·)

def region (m : MatrixRegion) (c1 c2 : List IndexT) : Option MatrixRegion :=
  (coordToPtr m c1).map fun base => ⟨base, List.zipWith (· - ·) c2 c1, m.multipliers⟩

def slice (m : MatrixRegion) (d : ℕ) (pos : IndexT) : Option MatrixRegion :=
  (coordToPtr m ((List.replicate m.sizes.length 0).set d pos)).map fun base =>
    ⟨base, m.sizes.eraseIdx d, m.multipliers.eraseIdx d⟩

/-- An operation; `row` and `column` are slices. -/
def apply (m : MatrixRegion) : LocalOp → Option MatrixRegion
  | .region c1 c2 => region m c1 c2
  | .slice d pos => slice m d pos
  | .transposed => some m.transposed

/-- A chain of operations. -/
def build : MatrixRegion → List LocalOp → Option MatrixRegion
  | m, [] => some m
  | m, op :: ops => (apply m op).bind fun m => build m ops

def count (m : MatrixRegion) : ℤ := m.sizes.prod

/-! ## Traversals -/

/-- The coordinate after this one in a box, with the dimension that was incremented last, or -1
    at the end. -/
def incFrom (i : ℤ) : List IndexT → List IndexT → List IndexT → List IndexT × ℤ
  | [_], [hi], [x] => if x + 1 ≥ hi then ([x + 1], -1) else ([x + 1], i)
  | lo :: c1, hi :: c2, x :: coord =>
      if x + 1 ≥ hi then
        let rest := incFrom (i + 1) c1 c2 coord
        (lo :: rest.1, rest.2)
      else ((x + 1) :: coord, i)
  | _, _, _ => ([], -1)

def incCoordWithBound (c1 c2 coord : List IndexT) : List IndexT × ℤ := incFrom 0 c1 c2 coord

def zeros (m : MatrixRegion) : List IndexT := List.replicate m.sizes.length 0

def incCoord (m : MatrixRegion) (coord : List IndexT) : List IndexT × ℤ :=
  incFrom 0 (zeros m) m.sizes coord

/-- `do { ... } while(inc(coord) >= 0)`: the coordinates of at most so many turns. -/
def doWhile (inc : List IndexT → List IndexT × ℤ) : ℕ → List IndexT → Option (List (List IndexT))
  | 0, _ => none
  | n + 1, coord =>
      if (inc coord).2 ≥ 0 then (doWhile inc n (inc coord).1).map (coord :: ·) else some [coord]

/-- The cells of a region and of another one at some coordinates. -/
def cellsAt (m dst : MatrixRegion) : List (List IndexT) → Option (List (ℤ × ℤ))
  | [] => some []
  | coord :: coords => do
      let p ← coordToPtr m coord
      let q ← coordToPtr dst coord
      let rest ← cellsAt m dst coords
      pure ((p, q) :: rest)

/-- `copyTo(dst)`: which cell is copied to which. -/
def copyTo (m dst : MatrixRegion) (sameStorage : Bool) (n : ℕ) : Option (List (ℤ × ℤ)) :=
  if sameStorage then some []
  else (doWhile (incCoord m) n (zeros m)).bind (cellsAt m dst)

/-- `copyTo(dst, c1, c2)`. -/
def copyToBox (m dst : MatrixRegion) (sameStorage : Bool) (c1 c2 : List IndexT) (n : ℕ) :
    Option (List (ℤ × ℤ)) :=
  if sameStorage then some []
  else if (List.zipWith (fun lo hi => decide (lo ≥ hi)) c1 c2).any id then some []
  else (doWhile (incCoordWithBound c1 c2) n c1).bind (cellsAt m dst)

/-- The cells that `hash` reads. -/
def hashed (m : MatrixRegion) (n : ℕ) : Option (List ℤ) :=
  if count m > 0 then
    ((doWhile (incCoord m) n (zeros m)).bind (cellsAt m m)).map (List.map Prod.fst)
  else some []

end PbMatrixRegion
