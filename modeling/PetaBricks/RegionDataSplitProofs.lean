import PetaBricks.MixedRadixProofs
import PetaBricks.RemoteCacheProofs
import Mathlib.Data.Set.Function
import Mathlib.Tactic.Ring

/-! # Split matrices — parts that are one store

    `RegionDataSplit` cuts a matrix into boxes of one size, those at the end cut
    short, and keeps each of them as a region of its own, here or on another host.
    A coordinate goes to the part its quotients by the split size number, and to
    the remainders in that part.

    In one dimension the quotient and the remainder of a coordinate are any number
    of a part and any coordinate in it; the numbers of the parts in all dimensions
    are the digits of the part's index (`PbMixedRadix`).  `IndexT` is unbounded. -/

namespace PbRegionSplit

open PbMixedRadix PbRemoteCache

variable {α : Type}

/-! ## One dimension -/

/-- `_size[i]` and `_splitSize[i]`. -/
structure SplitDim where
  size : Int
  splitSize : Int
  size_nonneg : 0 ≤ size
  splitSize_pos : 1 ≤ splitSize

namespace SplitDim

variable (d : SplitDim)

/-- `_partsSize[i]`: how many parts there are in the dimension. -/
def partsSize : Int :=
  if d.size.tmod d.splitSize ≠ 0 then d.size.tdiv d.splitSize + 1 else d.size.tdiv d.splitSize

/-- `size[i]` of the part with this `partsCoord[i]`. -/
def sizeOfPart (partsCoord : Int) : Int :=
  let partOffset := d.splitSize * partsCoord
  if partOffset + d.splitSize > d.size then d.size - partOffset else d.splitSize

/-- A part begins inside the matrix. -/
theorem lt_partsSize_iff (q : Int) : q < d.partsSize ↔ d.splitSize * q < d.size := by
  have hdiv := Int.mul_ediv_add_emod d.size d.splitSize
  have hmod := Int.emod_nonneg d.size (by have := d.splitSize_pos; omega : d.splitSize ≠ 0)
  have hlt := Int.emod_lt_of_pos d.size (by have := d.splitSize_pos; omega : 0 < d.splitSize)
  rw [partsSize, Int.tmod_eq_emod_of_nonneg d.size_nonneg,
    Int.tdiv_eq_ediv_of_nonneg d.size_nonneg]
  have hle : ∀ p : Int, q ≤ p → d.splitSize * q ≤ d.splitSize * p := fun p hp =>
    Int.mul_le_mul_of_nonneg_left hp (by have := d.splitSize_pos; omega)
  have hge : ∀ p : Int, p ≤ q → d.splitSize * p ≤ d.splitSize * q := fun p hp =>
    Int.mul_le_mul_of_nonneg_left hp (by have := d.splitSize_pos; omega)
  have hsucc : d.splitSize * (d.size / d.splitSize + 1) =
      d.splitSize * (d.size / d.splitSize) + d.splitSize := by
    rw [Int.mul_add, Int.mul_one]
  split
  · constructor
    · intro h
      have := hle _ (Int.le_of_lt_add_one h)
      omega
    · intro h
      by_contra hn
      have := hge _ (Int.not_lt.mp hn)
      omega
  · constructor
    · intro h
      have := hle (d.size / d.splitSize - 1) (by omega)
      rw [Int.mul_sub, Int.mul_one] at this
      have := d.splitSize_pos
      omega
    · intro h
      by_contra hn
      have := hge _ (Int.not_lt.mp hn)
      omega

theorem partsSize_nonneg : 0 ≤ d.partsSize := by
  have hdiv := Int.tdiv_nonneg d.size_nonneg (by have := d.splitSize_pos; omega : 0 ≤ d.splitSize)
  rw [partsSize]
  split <;> omega

/-- A coordinate has its place in the part it falls into. -/
theorem place {x : Int} (h : 0 ≤ x ∧ x < d.size) :
    (0 ≤ x.tdiv d.splitSize ∧ x.tdiv d.splitSize < d.partsSize) ∧
      0 ≤ x.tmod d.splitSize ∧ x.tmod d.splitSize < d.sizeOfPart (x.tdiv d.splitSize) := by
  obtain ⟨hx, hsize⟩ := h
  have hpos : 0 < d.splitSize := by have := d.splitSize_pos; omega
  have hq : 0 ≤ x.tdiv d.splitSize := Int.tdiv_nonneg hx (by omega)
  have hr : 0 ≤ x.tmod d.splitSize := Int.tmod_nonneg _ hx
  have hsum := Int.tmod_add_mul_tdiv x d.splitSize
  refine ⟨⟨hq, (d.lt_partsSize_iff _).mpr (by omega)⟩, hr, ?_⟩
  rw [sizeOfPart]
  have := Int.tmod_lt_of_pos x hpos
  split <;> omega

/-- The coordinate at a place of a part. -/
def coordAt (q r : Int) : Int := r + d.splitSize * q

/-- A place of a part is the place of its coordinate. -/
theorem place_coordAt {q r : Int} (hq : 0 ≤ q ∧ q < d.partsSize)
    (hr : 0 ≤ r ∧ r < d.sizeOfPart q) :
    (0 ≤ d.coordAt q r ∧ d.coordAt q r < d.size) ∧
      (d.coordAt q r).tdiv d.splitSize = q ∧ (d.coordAt q r).tmod d.splitSize = r := by
  obtain ⟨hr0, hr⟩ := hr
  have hpos : 0 < d.splitSize := by have := d.splitSize_pos; omega
  have hin := (d.lt_partsSize_iff q).mp hq.2
  have hmul : 0 ≤ d.splitSize * q := Int.mul_nonneg (by omega) hq.1
  rw [sizeOfPart] at hr
  have hsplit : r < d.splitSize ∧ r + d.splitSize * q < d.size := by
    split at hr <;> omega
  refine ⟨⟨by rw [coordAt]; omega, hsplit.2⟩, ?_, ?_⟩
  · rw [coordAt, Int.tdiv_eq_ediv_of_nonneg (by omega),
      Int.add_mul_ediv_left _ _ (by omega : d.splitSize ≠ 0),
      Int.ediv_eq_zero_of_lt hr0 hsplit.1, Int.zero_add]
  · rw [coordAt, Int.tmod_eq_emod_of_nonneg (by omega), Int.add_mul_emod_self_left,
      Int.emod_eq_of_lt hr0 hsplit.1]

end SplitDim

/-! ## All dimensions -/

/-- `_size`. -/
def sizeOf (dims : List SplitDim) : List Int := dims.map SplitDim.size

/-- `_partsSize`. -/
def partsSize (dims : List SplitDim) : List Int := dims.map SplitDim.partsSize

def numParts (dims : List SplitDim) : Int := (partsSize dims).prod

def partsMultipliers (dims : List SplitDim) : List Int := multipliersOf (partsSize dims)

/-- `partsCoord` of `createPart`. -/
def partsCoord (dims : List SplitDim) (partIndex : Int) : List Int :=
  digits (partsSize dims) partIndex

/-- The size `createPart` gives the part, and `setPart` too. -/
def sizeOfPart (dims : List SplitDim) (partIndex : Int) : List Int :=
  List.zipWith SplitDim.sizeOfPart dims (partsCoord dims partIndex)

/-- `coord[i] / _splitSize[i]`. -/
def quotients (dims : List SplitDim) (coord : List Int) : List Int :=
  List.zipWith (fun d x => x.tdiv d.splitSize) dims coord

/-- `coord[i] % _splitSize[i]`. -/
def remainders (dims : List SplitDim) (coord : List Int) : List Int :=
  List.zipWith (fun d x => x.tmod d.splitSize) dims coord

/-- The index of the part, and `coordPart`. -/
def coordToPart (dims : List SplitDim) (coord : List Int) : Int × List Int :=
  (offset (partsMultipliers dims) (quotients dims coord), remainders dims coord)

theorem offset_multipliersFrom (m : Int) (size coord : List Int) :
    offset (multipliersFrom m size) coord = m * encode size coord := by
  induction size generalizing m coord with
  | nil => simp [offset, multipliersFrom, encode]
  | cons s size ih =>
      cases coord with
      | nil => simp [offset, multipliersFrom, encode]
      | cons x coord =>
          have hrest := ih (m * s) coord
          rw [offset] at hrest ⊢
          rw [multipliersFrom, List.zipWith_cons_cons, List.sum_cons, hrest, encode]
          ring

/-- Offsets by multipliers number the coordinates of a region. -/
theorem offset_multipliersOf (size coord : List Int) :
    offset (multipliersOf size) coord = encode size coord := by
  rw [multipliersOf, offset_multipliersFrom, Int.one_mul]

section Dims

variable {dims : List SplitDim}

theorem partsSize_nonneg : ∀ p ∈ partsSize dims, 0 ≤ p := by
  intro p hp
  obtain ⟨d, _, rfl⟩ := List.mem_map.mp hp
  exact d.partsSize_nonneg

/-- The quotients of a coordinate number a part. -/
theorem within_quotients {coord : List Int} (h : InBounds (sizeOf dims) coord) :
    Within (partsSize dims) (quotients dims coord) := by
  induction dims generalizing coord with
  | nil => exact .nil
  | cons d dims ih =>
      cases h with
      | cons hx hrest => exact .cons (d.place hx).1 (ih hrest)

theorem inBounds_remainders {coord : List Int} (h : InBounds (sizeOf dims) coord) :
    InBounds
      (List.zipWith SplitDim.sizeOfPart dims
        (quotients dims coord))
      (remainders dims coord) := by
  induction dims generalizing coord with
  | nil => exact .nil
  | cons d dims ih =>
      cases h with
      | cons hx hrest => exact .cons (d.place hx).2 (ih hrest)

theorem fst_coordToPart (coord : List Int) :
    (coordToPart dims coord).1 =
      encode (partsSize dims) (quotients dims coord) :=
  offset_multipliersOf _ _

/-- The part of a coordinate has its quotients as `partsCoord`. -/
theorem partsCoord_coordToPart {coord : List Int} (h : InBounds (sizeOf dims) coord) :
    partsCoord dims (coordToPart dims coord).1 =
      quotients dims coord := by
  rw [partsCoord, fst_coordToPart, digits_encode (within_quotients h)]

/-- The coordinates a part has, one dimension after the other. -/
def coordOfPart (dims : List SplitDim) (q r : List Int) : List Int :=
  List.zipWith (fun d (p : Int × Int) => d.coordAt p.1 p.2) dims (q.zip r)

theorem coordOfPart_spec {q r : List Int} (hq : Within (partsSize dims) q)
    (hr : InBounds (List.zipWith SplitDim.sizeOfPart dims q) r) :
    InBounds (sizeOf dims) (coordOfPart dims q r) ∧
      quotients dims (coordOfPart dims q r) = q ∧
      remainders dims (coordOfPart dims q r) = r := by
  induction dims generalizing q r with
  | nil =>
      cases hq
      cases hr
      exact ⟨.nil, rfl, rfl⟩
  | cons d dims ih =>
      cases hq with
      | cons hq hqs =>
          cases hr with
          | cons hr hrs =>
              obtain ⟨hin, hdiv, hmod⟩ := d.place_coordAt hq hr
              obtain ⟨hins, hdivs, hmods⟩ := ih hqs hrs
              refine ⟨.cons hin hins, ?_, ?_⟩
              · exact congrArg₂ List.cons hdiv hdivs
              · exact congrArg₂ List.cons hmod hmods

theorem coordOfPart_coord {coord : List Int} (h : InBounds (sizeOf dims) coord) :
    coordOfPart dims (quotients dims coord)
      (remainders dims coord) = coord := by
  induction dims generalizing coord with
  | nil =>
      cases h
      rfl
  | cons d dims ih =>
      cases h with
      | @cons _ x _ coord hx hrest =>
          exact congrArg₂ List.cons (Int.tmod_add_mul_tdiv x d.splitSize) (ih hrest)

/-- **EVERY COORDINATE HAS ONE PLACE**: `coordToPart` is a bijection between the coordinates
    of the matrix and the coordinates of its parts. -/
theorem coordToPart_bijOn (dims : List SplitDim) :
    Set.BijOn (coordToPart dims) {c | InBounds (sizeOf dims) c}
      {p | (0 ≤ p.1 ∧ p.1 < numParts dims) ∧ InBounds (sizeOfPart dims p.1) p.2} := by
  refine ⟨?_, ?_, ?_⟩
  · intro c hc
    refine ⟨?_, ?_⟩
    · rw [fst_coordToPart]
      exact encode_bounds (within_quotients hc)
    · rw [sizeOfPart, partsCoord_coordToPart hc]
      exact inBounds_remainders hc
  · intro c hc c' hc' heq
    -- the index gives the quotients back, and the place in the part is the remainders
    have hquot : quotients dims c =
        quotients dims c' := by
      rw [← partsCoord_coordToPart hc, ← partsCoord_coordToPart hc', heq]
    rw [← coordOfPart_coord hc, ← coordOfPart_coord hc', hquot]
    exact congrArg (coordOfPart dims _) (congrArg Prod.snd heq)
  · rintro ⟨n, r⟩ ⟨⟨h0, hn⟩, hr⟩
    -- a place in a part is reached from the coordinate put together from its digits
    obtain ⟨hin, hdiv, hmod⟩ := coordOfPart_spec (digits_within partsSize_nonneg h0 hn) hr
    refine ⟨_, hin, ?_⟩
    refine Prod.ext ?_ hmod
    rw [fst_coordToPart, hdiv]
    exact encode_digits partsSize_nonneg h0 hn

end Dims

/-! ## The store -/

/-- A split matrix whose parts were all created.  What is on another host is read and written
    there. -/
structure RegionDataSplit (α : Type) where
  dims : List SplitDim
  parts : List (RegionDataRaw α)
  length_parts : (parts.length : Int) = numParts dims
  size_part : ∀ (i : Nat) (part : RegionDataRaw α), parts[i]? = some part →
    part.size = sizeOfPart dims i

namespace RegionDataSplit

variable (r : RegionDataSplit α)

/-- `_parts[index]`. -/
def part (index : Int) : Option (RegionDataRaw α) :=
  if index < 0 then none else r.parts[index.toNat]?

def readCell (coord : List Int) : Option α := do
  let part ← r.part (coordToPart r.dims coord).1
  part.readCell (coordToPart r.dims coord).2

/-- The matrix with this part instead of another one of its size. -/
def withPart (index : Nat) (part : RegionDataRaw α) (h : part.size = sizeOfPart r.dims index) :
    RegionDataSplit α where
  dims := r.dims
  parts := r.parts.set index part
  length_parts := by rw [List.length_set]; exact r.length_parts
  size_part := by
    intro i p hp
    rw [List.getElem?_set] at hp
    split at hp
    · rename_i heq
      split at hp
      · cases hp
        rw [← heq]
        exact h
      · cases hp
    · exact r.size_part i p hp

def writeCell (coord : List Int) (value : α) : Option (RegionDataSplit α) :=
  let index := (coordToPart r.dims coord).1
  match h : r.part index with
  | none => none
  | some part =>
      some (r.withPart index.toNat (part.writeCell (coordToPart r.dims coord).2 value) (by
        rw [RegionDataSplit.part] at h
        split at h
        · cases h
        · exact r.size_part _ part h))

end RegionDataSplit

/-- An access to a cell. -/
inductive Access (α : Type)
  | readCell (coord : List Int)
  | writeCell (coord : List Int) (value : α)

/-- The coordinate of an access. -/
def Access.coord : Access α → List Int
  | .readCell coord => coord
  | .writeCell coord _ => coord

/-- The values that a sequence of accesses to a split matrix reads. -/
def RegionDataSplit.run : RegionDataSplit α → List (Access α) → Option (List α)
  | _, [] => some []
  | r, .readCell coord :: ops => do
      let v ← r.readCell coord
      let vs ← r.run ops
      pure (v :: vs)
  | r, .writeCell coord value :: ops => do
      let r ← r.writeCell coord value
      r.run ops

/-- What a store reads: the last value written to the cell, or what was there. -/
def readsOf : (List Int → Option α) → List (Access α) → Option (List α)
  | _, [] => some []
  | store, .readCell coord :: ops => do
      let v ← store coord
      let vs ← readsOf store ops
      pure (v :: vs)
  | store, .writeCell coord value :: ops =>
      readsOf (Function.update store coord (some value)) ops

theorem coordOffset_inj (p : RegionDataRaw α) {c c' : List Int} (h : InBounds p.size c)
    (h' : InBounds p.size c') (heq : p.coordOffset c = p.coordOffset c') : c = c' := by
  rw [RegionDataRaw.coordOffset, RegionDataRaw.coordOffset, offset_multipliersOf,
    offset_multipliersOf] at heq
  exact encode_inj h h' heq

theorem raw_readCell (p : RegionDataRaw α) {c : List Int} (h : InBounds p.size c) :
    ∃ v, p.readCell c = some v := by
  obtain ⟨n, hn, hlt⟩ := p.coordOffset_bounds h
  refine ⟨p.storage[n], ?_⟩
  rw [RegionDataRaw.readCell, hn, Int.toNat_natCast, List.getElem?_eq_getElem hlt]

/-- Reading after writing in one part. -/
theorem raw_readCell_writeCell (p : RegionDataRaw α) {c c' : List Int} (value : α)
    (h : InBounds p.size c) (h' : InBounds p.size c') :
    (p.writeCell c value).readCell c' = if c = c' then some value else p.readCell c' := by
  obtain ⟨n, hn, hlt⟩ := p.coordOffset_bounds h
  obtain ⟨n', hn', _⟩ := p.coordOffset_bounds h'
  rw [RegionDataRaw.readCell, RegionDataRaw.readCell]
  show (p.storage.set (p.coordOffset c).toNat value)[(p.coordOffset c').toNat]? = _
  rw [hn, hn', Int.toNat_natCast, Int.toNat_natCast, List.getElem?_set]
  by_cases hc : c = c'
  · subst hc
    have hnn : n = n' := by
      rw [hn] at hn'
      exact Int.ofNat.inj hn'
    rw [if_pos hnn, if_pos hlt, if_pos rfl]
  · have hnn : ¬ n = n' := by
      intro hnn
      rw [← hnn, ← hn] at hn'
      exact hc (coordOffset_inj p h h' hn'.symm)
    rw [if_neg hnn, if_neg hc]

namespace RegionDataSplit

variable {r : RegionDataSplit α}

/-- A coordinate of the matrix has a part, and its place is in the part. -/
theorem exists_part {c : List Int} (h : InBounds (sizeOf r.dims) c) :
    ∃ (n : Nat) (p : RegionDataRaw α), (coordToPart r.dims c).1 = n ∧ n < r.parts.length ∧
      r.parts[n]? = some p ∧ InBounds p.size (coordToPart r.dims c).2 := by
  obtain ⟨⟨h0, hlt⟩, hin⟩ := (coordToPart_bijOn r.dims).mapsTo h
  obtain ⟨n, hn⟩ := Int.eq_ofNat_of_zero_le h0
  have hlen := r.length_parts
  have hn' : n < r.parts.length := by omega
  refine ⟨n, r.parts[n], hn, hn', List.getElem?_eq_getElem hn', ?_⟩
  rw [r.size_part n _ (List.getElem?_eq_getElem hn'), ← hn]
  exact hin

theorem part_natCast (n : Nat) : r.part n = r.parts[n]? := by
  rw [part, if_neg (by omega), Int.toNat_natCast]

theorem readCell_eq {c : List Int} {n : Nat} {p : RegionDataRaw α}
    (hn : (coordToPart r.dims c).1 = n) (hp : r.parts[n]? = some p) :
    r.readCell c = p.readCell (coordToPart r.dims c).2 := by
  rw [readCell, hn, part_natCast, hp]
  rfl

theorem exists_readCell {c : List Int} (h : InBounds (sizeOf r.dims) c) :
    ∃ v, r.readCell c = some v := by
  obtain ⟨n, p, hn, _, hp, hin⟩ := exists_part h
  rw [readCell_eq hn hp]
  exact raw_readCell p hin

/-- Reading after writing: one cell is changed. -/
theorem writeCell_spec {c : List Int} (value : α) (h : InBounds (sizeOf r.dims) c) :
    ∃ r', r.writeCell c value = some r' ∧ r'.dims = r.dims ∧
      ∀ c', InBounds (sizeOf r.dims) c' →
        r'.readCell c' = Function.update r.readCell c (some value) c' := by
  obtain ⟨n, p, hn, hlt, hp, hin⟩ := exists_part h
  have hsize : (p.writeCell (coordToPart r.dims c).2 value).size = sizeOfPart r.dims n :=
    r.size_part n p hp
  refine ⟨r.withPart n (p.writeCell (coordToPart r.dims c).2 value) hsize, ?_, rfl, ?_⟩
  · rw [writeCell]
    split
    · rename_i hnone
      rw [hn, part_natCast, hp] at hnone
      cases hnone
    · rename_i q hq
      rw [hn, part_natCast, hp] at hq
      cases hq
      simp only [hn, Int.toNat_natCast]
  · -- the other cells of the part keep their values, and the other parts are not touched
    intro c' h'
    obtain ⟨n', p', hn', _, hp', hin'⟩ := exists_part h'
    by_cases hnn : n = n'
    · subst hnn
      have hpp : p = p' := Option.some.inj (hp.symm.trans hp')
      subst hpp
      have hget : (r.withPart n (p.writeCell (coordToPart r.dims c).2 value) hsize).parts[n]? =
          some (p.writeCell (coordToPart r.dims c).2 value) := by
        show (r.parts.set n _)[n]? = _
        rw [List.getElem?_set, if_pos rfl, if_pos hlt]
      rw [readCell_eq (r := r.withPart n _ hsize) hn' hget]
      show (p.writeCell _ value).readCell (coordToPart r.dims c').2 = _
      rw [raw_readCell_writeCell p value hin hin', Function.update_apply, readCell_eq hn' hp']
      by_cases hc : c' = c
      · rw [if_pos (by rw [hc]), if_pos hc]
      -- two coordinates of one part differ in their places in it
      · have hplace : ¬ (coordToPart r.dims c).2 = (coordToPart r.dims c').2 := by
          intro heq
          exact hc ((coordToPart_bijOn r.dims).injOn h' h
            (Prod.ext (hn'.trans hn.symm) heq.symm))
        rw [if_neg hplace, if_neg hc]
    · have hc : c' ≠ c := by
        rintro rfl
        rw [hn] at hn'
        exact hnn (Int.ofNat.inj hn')
      have hget : (r.withPart n (p.writeCell (coordToPart r.dims c).2 value) hsize).parts[n']? =
          some p' := by
        show (r.parts.set n _)[n']? = _
        rw [List.getElem?_set, if_neg hnn, hp']
      rw [readCell_eq (r := r.withPart n _ hsize) hn' hget, Function.update_of_ne hc, readCell_eq hn' hp']
      rfl

/-- A split matrix that holds what a store does reads what it does. -/
theorem run_eq {ops : List (Access α)} : ∀ {r : RegionDataSplit α} {store : List Int → Option α},
    (∀ c, InBounds (sizeOf r.dims) c → r.readCell c = store c) →
    (∀ op ∈ ops, InBounds (sizeOf r.dims) op.coord) →
    ∃ vs, r.run ops = some vs ∧ readsOf store ops = some vs := by
  induction ops with
  | nil => exact fun _ _ => ⟨[], rfl, rfl⟩
  | cons op ops ih =>
      intro r store hstore hin
      have hop := hin op List.mem_cons_self
      have hrest : ∀ op ∈ ops, InBounds (sizeOf r.dims) op.coord :=
        fun op h => hin op (List.mem_cons_of_mem _ h)
      cases op with
      | readCell c =>
          obtain ⟨v, hv⟩ := exists_readCell hop
          obtain ⟨vs, hrun, hreads⟩ := ih hstore hrest
          refine ⟨v :: vs, ?_, ?_⟩
          · rw [run, show r.readCell c = some v from hv, hrun]
            rfl
          · rw [readsOf, ← hstore c hop, show r.readCell c = some v from hv, hreads]
            rfl
      | writeCell c value =>
          obtain ⟨r', hwrite, hdims, hread⟩ := writeCell_spec value hop
          -- the matrix and the store agree after the write as well
          have hstore' : ∀ c', InBounds (sizeOf r'.dims) c' →
              r'.readCell c' = Function.update store c (some value) c' := by
            intro c' h'
            rw [hdims] at h'
            rw [hread c' h', Function.update_apply, Function.update_apply, hstore c' h']
            rfl
          obtain ⟨vs, hrun, hreads⟩ := ih hstore' (by rw [hdims]; exact hrest)
          refine ⟨vs, ?_, hreads⟩
          rw [run, show r.writeCell c value = some r' from hwrite]
          exact hrun

end RegionDataSplit

/-- Five cells in parts of two. -/
def fiveCells : RegionDataSplit Nat where
  dims := [⟨5, 2, by decide, by decide⟩]
  parts := [⟨[2], [10, 11], rfl⟩, ⟨[2], [12, 13], rfl⟩, ⟨[1], [14], rfl⟩]
  length_parts := rfl
  size_part := by
    intro i part h
    match i with
    | 0 => cases h; decide
    | 1 => cases h; decide
    | 2 => cases h; decide
    | _ + 3 => cases h

example : fiveCells.run [.writeCell [4] 7, .readCell [4], .readCell [3]] = some [7, 13] := by
  decide

end PbRegionSplit
