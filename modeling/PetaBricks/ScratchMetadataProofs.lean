import PetaBricks.DataHostsProofs
import PetaBricks.OutcomeProofs
import PetaBricks.ScratchMetadataModel

/-! # Scratch metadata — when the records fit

    A record with `d` dimensions and `s` slices is the first words of its buffer, header first
    (`Record`).  Writes to its arrays keep it one, and stay inside as long as the buffer has room
    for what the header says (`Record.set`).

    The loops of `copyHelper` follow the axes of the view (`Walk`).  The two records it makes
    itself always fit.  In the special case it changes the record of the scratch region, whose
    buffer has no room for slices. -/

namespace PbScratchMetadata

open PbAxes PbRegionMatrix PbRegionSplit PbLocalRegion PbDataHosts PbWordBuffer PbOutcome
open PbMatrixRegion (doWhile InBox boxList doWhile_box mem_boxList)

/-! ## Claims about records -/

/-- `len` of the dimensions and slices in the header. -/
def recordLen (m : Buffer IndexT) : Except Fault ℕ := do
  let d ← dimensions m
  let n ← numSliceDimensions m
  .ok (len d n)

def bytesWritten (m : Buffer IndexT) : ℕ := sizeofInt * written m

/-- **RECORDS FIT**: nothing is written outside a buffer, and each record is as long as its
    header says.  A view without elements may be beyond all parts. -/
structure RecordsFit (o : Outcome) : Prop where
  inside : o.fault = none ∨ o.fault = some .noPart
  exact : ∀ m ∈ o.records, recordLen m = .ok (bytesWritten m)

/-- A scratch region as `fromScratchRegion` takes it: one of the view's size. -/
structure Scratch (v : RegionMatrix) where
  view : RegionMatrix
  storage : ℕ
  sliced : Sliced view
  size_eq : seenSize view = seenSize v

/-- What calls `copyHelper`. -/
inductive Caller (v : RegionMatrix)
  | localCopy
  | fromScratchRegion (scratch : Scratch v)

def Caller.run (r : SplitMatrix) {v : RegionMatrix} (n : ℕ) : Caller v → Option Outcome
  | localCopy => PbScratchMetadata.localCopy r v n
  | fromScratchRegion scratch =>
      PbScratchMetadata.fromScratchRegion r v scratch.view scratch.storage n

/-- The view is in one part, which is raw. -/
def SharesPart (r : SplitMatrix) (v : RegionMatrix) : Prop :=
  ∃ begins ends storage, regionDataCoord v (List.replicate v.D 0) = some begins ∧
    regionDataCoord v (seenSize v) = some ends ∧ r.sharedPart begins ends = some storage

/-! ## Records -/

/-- The first word of an array. -/
def Field.base (d s : ℕ) : Field → ℕ
  | splitOffset => 2
  | size => 2 + d
  | sliceDimensions => 2 + 2 * d
  | slicePositions => 2 + 2 * d + s

/-- How many words an array has. -/
def Field.count (d s : ℕ) : Field → ℕ
  | splitOffset => d
  | size => d
  | sliceDimensions => s
  | slicePositions => s

/-- A record of `d` dimensions and `s` slices, as far as it is written. -/
structure Record (m : Buffer IndexT) (d s : ℕ) (ws : List IndexT) : Prop where
  holds : Holds m ws
  dims : ws[0]? = some (d : ℤ)
  slices : ws[1]? = some (s : ℤ)

theorem address_div (k : ℕ) : sizeofInt * k / sizeofInt = k := Nat.mul_div_cancel_left k (by decide)

theorem loadAt_eq {m : Buffer IndexT} {ws : List IndexT} {x : IndexT} {k : ℕ} (h : Holds m ws)
    (hx : ws[k]? = some x) : loadAt m (sizeofInt * k) = .ok x := by
  rw [loadAt, address_div, h.load, hx]

theorem writeAt_ends {m : Buffer IndexT} {ws : List IndexT} (xs : List IndexT) {k : ℕ}
    (h : Holds m ws) (hk : k ≤ ws.length) (hroom : k + xs.length ≤ m.length) :
    Ends (writeAt m (sizeofInt * k) (xs.map some)) (fun _ => False) fun m' =>
      Holds m' (overwrite ws k xs) ∧ m'.length = m.length := by
  obtain ⟨m', hcopy, hm'⟩ := h.copyTo hk hroom
  rw [writeAt, address_div, hcopy]
  exact hm'

theorem writeAt_overrun {m : Buffer IndexT} {xs : Buffer IndexT} {k : ℕ}
    (h : m.length < k + xs.length) : writeAt m (sizeofInt * k) xs = .error .overrun := by
  rw [writeAt, address_div, copyTo_eq_none h]

namespace Record

variable {m : Buffer IndexT} {d s : ℕ} {ws : List IndexT} {f : Field} {i : ℕ} {x : IndexT}

theorem two_le (h : Record m d s ws) : 2 ≤ ws.length := by
  by_contra hlt
  have hnone := h.slices
  rw [List.getElem?_eq_none (by omega)] at hnone
  cases hnone

theorem dimensions (h : Record m d s ws) : dimensions m = .ok d := by
  have hload : loadAt m 0 = .ok (d : ℤ) := loadAt_eq (k := 0) h.holds h.dims
  rw [PbScratchMetadata.dimensions, hload]
  rfl

theorem numSliceDimensions (h : Record m d s ws) : numSliceDimensions m = .ok s := by
  have hload : loadAt m sizeofInt = .ok (s : ℤ) := loadAt_eq (k := 1) h.holds h.slices
  rw [PbScratchMetadata.numSliceDimensions, hload]
  rfl

theorem sizeAddress (h : Record m d s ws) : sizeAddress m = .ok (sizeofInt * (2 + d)) := by
  rw [PbScratchMetadata.sizeAddress, h.dimensions, Nat.mul_add]
  rfl

theorem sliceDimensionsAddress (h : Record m d s ws) :
    sliceDimensionsAddress m = .ok (sizeofInt * (2 + 2 * d)) := by
  rw [PbScratchMetadata.sliceDimensionsAddress, h.sizeAddress, h.dimensions, Nat.two_mul,
    ← Nat.add_assoc, Nat.mul_add sizeofInt (2 + d)]
  rfl

theorem slicePositionsAddress (h : Record m d s ws) :
    slicePositionsAddress m = .ok (sizeofInt * (2 + 2 * d + s)) := by
  rw [PbScratchMetadata.slicePositionsAddress, h.sliceDimensionsAddress, h.numSliceDimensions,
    Nat.mul_add sizeofInt (2 + 2 * d)]
  rfl

theorem address (h : Record m d s ws) (f : Field) : f.address m = .ok (sizeofInt * f.base d s) := by
  cases f with
  | splitOffset => rfl
  | size => exact h.sizeAddress
  | sliceDimensions => exact h.sliceDimensionsAddress
  | slicePositions => exact h.slicePositionsAddress

theorem get (h : Record m d s ws) (hx : ws[f.base d s + i]? = some x) : f.get m i = .ok x := by
  have hload : loadAt m (sizeofInt * f.base d s + sizeofIndexT * i) = .ok x := by
    have hword := loadAt_eq h.holds hx
    rwa [Nat.mul_add] at hword
  rw [Field.get, h.address]
  exact hload

/-- What is written after the header keeps it. -/
theorem overwrite (h : Record m d s ws) {m' : Buffer IndexT} {xs : List IndexT} {k : ℕ}
    (hm' : Holds m' (overwrite ws k xs)) (h2 : 2 ≤ k) (hk : k ≤ ws.length) :
    Record m' d s (PbWordBuffer.overwrite ws k xs) where
  holds := hm'
  dims := by rw [getElem?_overwrite hk (by omega), h.dims]
  slices := by rw [getElem?_overwrite hk (by omega), h.slices]

theorem two_le_base (f : Field) (d s : ℕ) : 2 ≤ f.base d s := by
  cases f <;> rw [Field.base] <;> omega

/-- **WRITES** to an array, where the record is written or ends. -/
theorem set (h : Record m d s ws) (hi : f.base d s + i ≤ ws.length)
    (hroom : f.base d s + i < m.length) :
    Ends (f.set m i x) (fun _ => False) fun m' =>
      Record m' d s (PbWordBuffer.overwrite ws (f.base d s + i) [x]) ∧ m'.length = m.length := by
  have hstore := writeAt_ends [x] h.holds hi hroom
  rw [Nat.mul_add] at hstore
  rw [Field.set, h.address]
  refine hstore.mono (fun _ hfalse => hfalse) fun m' hm' => ⟨?_, hm'.2⟩
  exact h.overwrite hm'.1 ((two_le_base f d s).trans (Nat.le_add_right _ _)) hi

theorem set_overrun (h : Record m d s ws) (hroom : m.length ≤ f.base d s + i) :
    f.set m i x = .error .overrun := by
  have hstore : writeAt m (sizeofInt * (f.base d s + i)) [some x] = .error .overrun :=
    writeAt_overrun (Nat.lt_succ_of_le hroom)
  rw [Nat.mul_add] at hstore
  rw [Field.set, h.address]
  exact hstore

/-- The next array. -/
theorem fill (h : Record m d s ws) {n : ℕ} {a : List IndexT} (ha : a.length = n)
    (hbase : f.base d s = ws.length) (hroom : ws.length + n ≤ m.length) :
    Ends (f.fill m n a) (fun _ => False) fun m' =>
      Record m' d s (ws ++ a) ∧ m'.length = m.length := by
  have hcopy : copy n a = some a := by rw [← ha, copy_length]
  have hwrite := writeAt_ends a h.holds hbase.le (by rw [hbase, ha]; exact hroom)
  have hfill : f.fill m n a = writeAt m (sizeofInt * f.base d s) (a.map some) := by
    simp only [Field.fill, hcopy]
    exact bind_eq (h.address f)
  rw [hfill]
  refine hwrite.mono (fun _ hfalse => hfalse) fun m' hm' => ⟨?_, hm'.2⟩
  have hrecord := h.overwrite hm'.1 (two_le_base f d s) hbase.le
  rwa [hbase, overwrite_length] at hrecord

theorem recordLen (h : Record m d s ws) (hlen : ws.length = 2 + 2 * d + 2 * s) :
    recordLen m = .ok (bytesWritten m) := by
  rw [PbScratchMetadata.recordLen, h.dimensions, h.numSliceDimensions, bytesWritten,
    h.holds.written, hlen]
  refine congrArg Except.ok ?_
  rw [len, sizeofInt, sizeofIndexT]
  omega

end Record

/-! ## The record of a view -/

def Field.array (v : RegionMatrix) : Field → List IndexT
  | splitOffset => v.splitOffset
  | size => v.size
  | sliceDimensions => v.sliceInfo.sliceDimensions
  | slicePositions => v.sliceInfo.slicePositions

def recordOf (v : RegionMatrix) : List IndexT :=
  [(v.D : ℤ), (v.sliceInfo.numSliceDimensions : ℤ)] ++ v.splitOffset ++ v.size ++
    v.sliceInfo.sliceDimensions ++ v.sliceInfo.slicePositions

section View

variable {v : RegionMatrix} {m : Buffer IndexT}

theorem length_recordOf (h : Sliced v) :
    (recordOf v).length = 2 + 2 * v.D + 2 * v.sliceInfo.numSliceDimensions := by
  have hoffset := h.splitOffset
  have hpositions := h.slicePositions
  simp only [recordOf, List.length_append, List.length_cons, List.length_nil, hoffset, hpositions]
  rw [RegionMatrix.D, SliceInfo.numSliceDimensions]
  omega

theorem getElem?_middle {α : Type} {a b c : List α} {k i : ℕ} (hk : a.length = k)
    (hi : i < b.length) : (a ++ b ++ c)[k + i]? = b[i]? := by
  rw [List.append_assoc, ← hk, List.getElem?_append_right (Nat.le_add_right _ _),
    Nat.add_sub_cancel_left, List.getElem?_append_left hi]

theorem recordOf_array (h : Sliced v) (f : Field) {i : ℕ} (hi : i < (f.array v).length) :
    (recordOf v)[f.base v.D v.sliceInfo.numSliceDimensions + i]? = (f.array v)[i]? := by
  have hoffset := h.splitOffset
  have hsize : v.size.length = v.D := rfl
  have hslices : v.sliceInfo.sliceDimensions.length = v.sliceInfo.numSliceDimensions := rfl
  cases f with
  | splitOffset =>
      rw [recordOf, List.append_assoc _ v.size, List.append_assoc _ (v.size ++ _)]
      exact getElem?_middle rfl hi
  | size =>
      rw [recordOf, List.append_assoc _ v.sliceInfo.sliceDimensions]
      refine getElem?_middle ?_ hi
      rw [List.length_append, hoffset]
      rfl
  | sliceDimensions =>
      rw [recordOf]
      refine getElem?_middle ?_ hi
      rw [List.length_append, List.length_append, hoffset, hsize, Field.base, Nat.two_mul,
        ← Nat.add_assoc]
      rfl
  | slicePositions =>
      rw [recordOf, ← List.append_nil (_ ++ v.sliceInfo.slicePositions)]
      refine getElem?_middle ?_ hi
      rw [List.length_append, List.length_append, List.length_append, hoffset, hsize, hslices,
        Field.base, Nat.two_mul, ← Nat.add_assoc]
      rfl

/-- **THE RECORD OF A VIEW** is written by `computeRegionMatrixMetadata`. -/
theorem computeRegionMatrixMetadata_ends (h : Sliced v) (hm : Holds m [])
    (hroom : 2 + 2 * v.D + 2 * v.sliceInfo.numSliceDimensions ≤ m.length) :
    Ends (computeRegionMatrixMetadata v m) (fun _ => False) fun m' =>
      Record m' v.D v.sliceInfo.numSliceDimensions (recordOf v) ∧ m'.length = m.length := by
  have hoffset := h.splitOffset
  have hsize : v.size.length = v.D := rfl
  have hslices : v.sliceInfo.sliceDimensions.length = v.sliceInfo.numSliceDimensions := rfl
  have hpositions := h.slicePositions
  rw [computeRegionMatrixMetadata]
  -- the header
  refine Ends.bind (writeAt_ends [(v.D : ℤ)] (k := 0) hm (Nat.zero_le _) ?_) ?_
  · rw [List.length_singleton]
    omega
  rintro m₁ ⟨hm₁, hlen₁⟩
  refine Ends.bind (writeAt_ends [(v.sliceInfo.numSliceDimensions : ℤ)] (k := 1) hm₁
    (Nat.le_refl 1) ?_) ?_
  · rw [List.length_singleton]
    omega
  rintro m₂ ⟨hm₂, hlen₂⟩
  have hheader : Record m₂ v.D v.sliceInfo.numSliceDimensions
      [(v.D : ℤ), (v.sliceInfo.numSliceDimensions : ℤ)] := ⟨hm₂, rfl, rfl⟩
  -- the arrays, each after the one before
  refine Ends.bind (hheader.fill hoffset rfl ?_) ?_
  · simp only [List.length_cons, List.length_nil]
    omega
  rintro m₃ ⟨hm₃, hlen₃⟩
  refine Ends.bind (hm₃.fill hsize ?_ ?_) ?_
  · rw [List.length_append, hoffset]
    rfl
  · simp only [List.length_append, List.length_cons, List.length_nil, hoffset]
    omega
  rintro m₄ ⟨hm₄, hlen₄⟩
  refine Ends.bind (hm₄.fill hslices ?_ ?_) ?_
  · rw [List.length_append, List.length_append, hoffset, hsize, Field.base, Nat.two_mul,
      ← Nat.add_assoc]
    rfl
  · simp only [List.length_append, List.length_cons, List.length_nil, hoffset, hsize]
    omega
  rintro m₅ ⟨hm₅, hlen₅⟩
  refine (hm₅.fill hpositions ?_ ?_).mono (fun _ hfalse => hfalse) fun m' hm' => ⟨hm'.1, ?_⟩
  · rw [List.length_append, List.length_append, List.length_append, hoffset, hsize, hslices,
      Field.base, Nat.two_mul, ← Nat.add_assoc]
    rfl
  · simp only [List.length_append, List.length_cons, List.length_nil, hoffset, hsize, hslices]
    omega
  · rw [hm'.2, hlen₅, hlen₄, hlen₃, hlen₂, hlen₁]

end View

/-! ## The loops follow the axes -/

/-- Dimension by dimension, what the loops find in the record of a view of `d` dimensions and `s`
    slices, from a dimension and the indices of a slice and of an own dimension on. -/
inductive Walk (orig : Buffer IndexT) (d s : ℕ) : List Axis → ℕ → ℕ → ℕ → Prop
  | nil (i : ℕ) : Walk orig d s [] i s d
  | fixed {as : List Axis} {i sliceIndex splitIndex : ℕ} {p : ℤ} (hlt : sliceIndex < s)
      (hat : isSlice orig sliceIndex i = .ok true)
      (he : Field.sliceDimensions.get orig sliceIndex = .ok i)
      (hp : Field.slicePositions.get orig sliceIndex = .ok p)
      (h : Walk orig d s as (i + 1) (sliceIndex + 1) splitIndex) :
      Walk orig d s (.fixed p :: as) i sliceIndex splitIndex
  | free {as : List Axis} {i sliceIndex splitIndex : ℕ} {o n : ℤ} (hlt : splitIndex < d)
      (hat : isSlice orig sliceIndex i = .ok false)
      (ho : Field.splitOffset.get orig splitIndex = .ok o)
      (hn : Field.size.get orig splitIndex = .ok n)
      (h : Walk orig d s as (i + 1) sliceIndex (splitIndex + 1)) :
      Walk orig d s (.free o n :: as) i sliceIndex splitIndex

section Walk

variable {v : RegionMatrix} {t : Track} {orig scratch : Buffer IndexT} {d s i sliceIndex splitIndex : ℕ}
  {as : List Axis}

theorem get_array (h : Sliced v)
    (hm : Record orig v.D v.sliceInfo.numSliceDimensions (recordOf v)) (f : Field)
    {k : ℕ} {x : ℤ} (hx : read (f.array v) k = some x) : f.get orig k = .ok x := by
  rw [read_nat] at hx
  obtain ⟨hk, -⟩ := List.getElem?_eq_some_iff.mp hx
  exact hm.get ((recordOf_array h f hk).trans hx)

theorem isSlice_eq (h : Sliced v)
    (hm : Record orig v.D v.sliceInfo.numSliceDimensions (recordOf v)) {b : Bool}
    (hb : isSliceAt v.sliceInfo sliceIndex i = some b) : isSlice orig sliceIndex i = .ok b := by
  rw [isSliceAt] at hb
  rw [isSlice, hm.numSliceDimensions]
  show (if sliceIndex < v.sliceInfo.numSliceDimensions then _ else _) = _
  by_cases hlt : sliceIndex < v.sliceInfo.numSliceDimensions
  · rw [if_pos hlt] at hb ⊢
    obtain ⟨e, he, rfl⟩ := Option.map_eq_some_iff.mp hb
    rw [get_array h hm .sliceDimensions he]
    rfl
  · rw [if_neg hlt] at hb ⊢
    obtain rfl := Option.some.inj hb
    rfl

theorem walk_from (h : Sliced v) (hst : Stores v t)
    (hm : Record orig v.D v.sliceInfo.numSliceDimensions (recordOf v))
    (hf : t.fixedAxes.drop sliceIndex = fixed i as)
    (ho : (offsets t.axes).drop splitIndex = offsets as)
    (hs : (sizes t.axes).drop splitIndex = sizes as)
    (hslice : sliceIndex + (fixed i as).length = v.sliceInfo.numSliceDimensions)
    (hsplit : splitIndex + (sizes as).length = v.D) :
    Walk orig v.D v.sliceInfo.numSliceDimensions as i sliceIndex splitIndex := by
  induction as generalizing i sliceIndex splitIndex with
  | nil =>
      obtain rfl : sliceIndex = v.sliceInfo.numSliceDimensions := hslice
      obtain rfl : splitIndex = v.D := hsplit
      exact .nil i
  | cons a as ih =>
      cases a with
      | fixed p =>
          obtain ⟨hat, hp, hrest⟩ := hst.isSliceAt_fixed hf
          have he := (read_dimensions hf).1
          rw [← hst.sliceInfo] at he
          rw [fixed, List.length_cons] at hslice
          exact .fixed (by omega) (isSlice_eq h hm hat) (get_array h hm .sliceDimensions he)
            (get_array h hm .slicePositions hp) (ih hrest ho hs (by omega) hsplit)
      | free o n =>
          obtain ⟨hat, hread, hrest⟩ := hst.isSliceAt_free hf ho
          have hn : read v.size splitIndex = some n := by
            rw [read_nat, hst.size, ← List.head?_drop, hs]
            rfl
          have hrests : (sizes t.axes).drop (splitIndex + 1) = sizes as := by
            rw [← List.drop_drop, hs]
            rfl
          rw [sizes, List.length_cons] at hsplit
          exact .free (by omega) (isSlice_eq h hm hat) (get_array h hm .splitOffset hread)
            (get_array h hm .size hn) (ih hf hrest hrests hslice (by omega))

theorem walk_of (h : Sliced v) (hst : Stores v t)
    (hm : Record orig v.D v.sliceInfo.numSliceDimensions (recordOf v)) :
    Walk orig v.D v.sliceInfo.numSliceDimensions t.axes 0 0 0 := by
  refine walk_from h hst hm rfl rfl rfl ?_ ?_
  · rw [Nat.zero_add, hst.numSlices, Track.fixedAxes]
  · rw [Nat.zero_add, RegionMatrix.D, hst.size]

/-- The corners are those of the axes. -/
theorem boundsLoop_eq (h : Walk orig d s as i sliceIndex splitIndex) :
    boundsLoop orig as.length i sliceIndex splitIndex = .ok (axisBegins as, axisEnds as) := by
  induction h with
  | nil i => rfl
  | @fixed as i sliceIndex splitIndex p hlt hat he hp h ih =>
      rw [List.length_cons, boundsLoop, bind_eq hat, if_pos rfl, bind_eq hp, bind_eq ih]
      rfl
  | @free as i sliceIndex splitIndex o n hlt hat ho hn h ih =>
      have hbegin : axisBegins (.free o n :: as) = (0 + o) :: axisBegins as := rfl
      have hend : axisEnds (.free o n :: as) = (n + o) :: axisEnds as := rfl
      rw [List.length_cons, boundsLoop, bind_eq hat, if_neg Bool.false_ne_true, bind_eq ho,
        bind_eq hn, bind_eq ih, hbegin, hend, Int.zero_add, Int.add_comm n]

end Walk

/-! ## The special case -/

section Share

variable {orig scratch : Buffer IndexT} {d s i sliceIndex splitIndex : ℕ} {as : List Axis}
  {ws : List IndexT} {l : List (IndexT × IndexT)}

/-- The new number of slices in the header. -/
theorem setSlices_ends {n : ℕ} (h : Record scratch d n ws) (s : ℕ) :
    Ends (storeAt scratch sizeofInt (s : ℤ)) (fun _ => False) fun m' =>
      (∃ ws', Record m' d s ws' ∧ ws'.length = ws.length) ∧ m'.length = scratch.length := by
  have htwo := h.two_le
  have hle := h.holds.le
  have hstore := writeAt_ends [(s : ℤ)] (k := 1) h.holds (by omega)
    (by rw [List.length_singleton]; omega)
  refine Ends.mono hstore (fun _ hfalse => hfalse) fun m' hm' => ⟨⟨_, ⟨hm'.1, ?_, ?_⟩, ?_⟩, hm'.2⟩
  · rw [getElem?_overwrite (by omega) (by omega), h.dims]
  · exact getElem?_overwrite_at (j := 0) (by omega) (Nat.lt_succ_self 0)
  · exact length_overwrite_of_le (by rw [List.length_singleton]; omega)

/-- Without slices, offsets are all that is written. -/
theorem shareLoop_ends (h : Walk orig d 0 as i sliceIndex splitIndex) (hl : l.length = as.length)
    (hm : Record scratch d 0 ws) (hws : ws.length = 2 + 2 * d) :
    Ends (shareLoop orig l i sliceIndex splitIndex scratch) (fun _ => False) fun m' =>
      ∃ ws', Record m' d 0 ws' ∧ ws'.length = 2 + 2 * d := by
  induction h generalizing l scratch ws with
  | nil i =>
      obtain rfl := List.length_eq_zero_iff.mp hl
      exact ⟨ws, hm, hws⟩
  | fixed hlt _ _ _ _ _ => exact absurd hlt (Nat.not_lt_zero _)
  | @free as i sliceIndex splitIndex o n hlt hat ho hn h ih =>
      cases l with
      | nil => cases hl
      | cons q l =>
          have hle := hm.holds.le
          have hbase : Field.splitOffset.base d 0 + splitIndex + 1 ≤ ws.length := by
            rw [hws, Field.base]
            omega
          rw [shareLoop]
          refine Ends.bind_ok hat ?_
          rw [if_neg Bool.false_ne_true]
          refine Ends.bind (hm.set (f := .splitOffset) (Nat.le_of_succ_le hbase)
            (Nat.lt_of_lt_of_le hbase hle)) ?_
          rintro m' ⟨hm', hlen'⟩
          exact ih (Nat.succ.inj hl) hm' ((length_overwrite_of_le hbase).trans hws)

/-- **THE FIRST SLICE** is written past the end of a buffer for a record without slices. -/
theorem shareLoop_overrun (h : Walk orig d s as i sliceIndex splitIndex)
    (hl : l.length = as.length) (hm : Record scratch d s ws) (hws : ws.length = 2 + 2 * d)
    (hlen : scratch.length = 2 + 2 * d) {k : ℕ} (hfixed : fixed k as ≠ []) :
    shareLoop orig l i sliceIndex splitIndex scratch = .error .overrun := by
  induction h generalizing l scratch ws k with
  | nil i => exact absurd rfl hfixed
  | @fixed as i sliceIndex splitIndex p hlt hat he hp h ih =>
      cases l with
      | nil => cases hl
      | cons q l =>
          have hset : Field.sliceDimensions.set scratch sliceIndex i = .error .overrun := by
            refine hm.set_overrun ?_
            rw [hlen, Field.base]
            exact Nat.le_add_right _ _
          rw [shareLoop, bind_eq hat, if_pos rfl, bind_eq he, hset]
          rfl
  | @free as i sliceIndex splitIndex o n hlt hat ho hn h ih =>
      cases l with
      | nil => cases hl
      | cons q l =>
          have hbase : Field.splitOffset.base d s + splitIndex + 1 ≤ ws.length := by
            rw [hws, Field.base]
            omega
          have hset := hm.set (f := .splitOffset) (x := q.1) (Nat.le_of_succ_le hbase)
            (Nat.lt_of_lt_of_le hbase hm.holds.le)
          rw [shareLoop, bind_eq hat, if_neg Bool.false_ne_true]
          cases hresult : Field.splitOffset.set scratch splitIndex q.1 with
          | error f => exact (hset.of_error hresult).elim
          | ok m' =>
              obtain ⟨hm', hlen'⟩ := hset.of_ok hresult
              exact ih (Nat.succ.inj hl) hm' ((length_overwrite_of_le hbase).trans hws)
                (hlen'.trans hlen) hfixed

end Share

/-! ## The parts -/

section Parts

variable {orig scratch newOrig newScratch : Buffer IndexT} {d s i sliceIndex splitIndex : ℕ}
  {as : List Axis} {ws nws sws : List IndexT} {l : List PartDim}

/-- **THE LOOP OVER THE DIMENSIONS** keeps the record of the part, and sets the offsets of the
    record of the scratch region. -/
theorem partLoop_ends (h : Walk orig d s as i sliceIndex splitIndex) (hl : l.length = as.length)
    {k : ℕ} (hscratch : Record scratch d k ws) (hws : 2 + d ≤ ws.length)
    (horig : Record newOrig d s nws) (hnws : nws.length = 2 + 2 * d + 2 * s)
    (hnew : Record newScratch d 0 sws) (hsws : 2 + splitIndex ≤ sws.length)
    (hlen : newScratch.length = 2 + 2 * d) :
    Ends (partLoop orig scratch l i sliceIndex splitIndex newOrig newScratch) (fun _ => False)
      fun out => (∃ nws', Record out.1 d s nws' ∧ nws'.length = 2 + 2 * d + 2 * s) ∧
        (∃ sws', Record out.2 d 0 sws' ∧ 2 + d ≤ sws'.length) ∧ out.2.length = 2 + 2 * d := by
  induction h generalizing l newOrig newScratch nws sws with
  | nil i =>
      obtain rfl := List.length_eq_zero_iff.mp hl
      exact ⟨⟨nws, horig, hnws⟩, ⟨sws, hnew, hsws⟩, hlen⟩
  | @fixed as i sliceIndex splitIndex p hlt hat he hp h ih =>
      cases l with
      | nil => cases hl
      | cons q l =>
          have hbase : Field.slicePositions.base d s + sliceIndex + 1 ≤ nws.length := by
            rw [hnws, Field.base]
            omega
          rw [partLoop]
          refine Ends.bind_ok hat ?_
          rw [if_pos rfl]
          refine Ends.bind_ok hp ?_
          refine Ends.bind (horig.set (f := .slicePositions) (Nat.le_of_succ_le hbase)
            (Nat.lt_of_lt_of_le hbase horig.holds.le)) ?_
          rintro m' ⟨hm', hlen'⟩
          exact ih (Nat.succ.inj hl) hm' ((length_overwrite_of_le hbase).trans hnws) hnew hsws hlen
  | @free as i sliceIndex splitIndex o n hlt hat ho hn h ih =>
      cases l with
      | nil => cases hl
      | cons q l =>
          have hsize : Field.size.base d s + splitIndex + 1 ≤ nws.length := by
            rw [hnws, Field.base]
            omega
          have hoffset : Field.splitOffset.base d s + splitIndex + 1 ≤ nws.length := by
            rw [hnws, Field.base]
            omega
          have hread : 2 + splitIndex < ws.length := by omega
          have hx : ws[Field.splitOffset.base d k + splitIndex]? = some ws[2 + splitIndex] :=
            List.getElem?_eq_getElem hread
          rw [partLoop]
          refine Ends.bind_ok hat ?_
          rw [if_neg Bool.false_ne_true]
          refine Ends.bind (horig.set (f := .size) (Nat.le_of_succ_le hsize)
            (Nat.lt_of_lt_of_le hsize horig.holds.le)) ?_
          rintro m₁ ⟨hm₁, hlen₁⟩
          refine Ends.bind_ok (hscratch.get hx) ?_
          refine Ends.bind (hnew.set (f := .splitOffset) hsws (by rw [hlen, Field.base]; omega)) ?_
          rintro m₂ ⟨hm₂, hlen₂⟩
          have hnws₁ : (overwrite nws (Field.size.base d s + splitIndex) [q.size]).length =
              2 + 2 * d + 2 * s := (length_overwrite_of_le hsize).trans hnws
          refine Ends.bind (hm₁.set (f := .splitOffset) (i := splitIndex)
            (x := q.newOrigSplitOffset) (by rw [hnws₁, ← hnws]; exact Nat.le_of_succ_le hoffset)
            (Nat.lt_of_lt_of_le (by rw [hnws₁, ← hnws]; exact hoffset) hm₁.holds.le)) ?_
          rintro m₃ ⟨hm₃, hlen₃⟩
          refine ih (Nat.succ.inj hl) hm₃ ?_ hm₂ ?_ (hlen₂.trans hlen)
          · rw [length_overwrite_of_le (by rw [hnws₁, ← hnws]; exact hoffset), hnws₁]
          · show 2 + (splitIndex + 1) ≤ (overwrite sws (2 + splitIndex) [_]).length
            rw [length_overwrite hsws]
            exact le_max_of_le_right (Nat.le_refl _)

/-- The sizes complete the record of the scratch region. -/
theorem copySizes_ends (horig : Record newOrig d s nws) (hnws : nws.length = 2 + 2 * d + 2 * s)
    (hnew : Record newScratch d 0 sws) (hsws : 2 + d ≤ sws.length)
    (hlen : newScratch.length = 2 + 2 * d) :
    Ends (copySizes newOrig newScratch) (fun _ => False) fun m' =>
      ∃ sws', Record m' d 0 sws' ∧ sws'.length = 2 + 2 * d ∧ m'.length = 2 + 2 * d := by
  have hsource : readAt newOrig (sizeofInt * (2 + d)) (sizeofIndexT * d) =
      .ok (((nws.drop (2 + d)).take d).map some) := by
    have hbytes : sizeofIndexT * d / sizeofInt = d := address_div d
    rw [readAt, address_div, hbytes, horig.holds.copyFrom (by omega)]
  have htake : ((nws.drop (2 + d)).take d).length = d := by
    rw [List.length_take, List.length_drop]
    omega
  have hle := hnew.holds.le
  have hwrite := writeAt_ends ((nws.drop (2 + d)).take d) hnew.holds hsws (by omega)
  have hrun : copySizes newOrig newScratch =
      writeAt newScratch (sizeofInt * (2 + d)) (((nws.drop (2 + d)).take d).map some) := by
    have hd : (dimensions newOrig : Except Fault ℕ) = .ok d := horig.dimensions
    rw [copySizes, bind_eq (hnew.address .size), bind_eq (horig.address .size), bind_eq hd]
    exact bind_eq hsource
  rw [hrun]
  refine hwrite.mono (fun _ hfalse => hfalse) fun m' hm' =>
    ⟨_, hnew.overwrite hm'.1 (Nat.le_add_right 2 d) hsws, ?_, hm'.2.trans hlen⟩
  rw [length_overwrite hsws, htake]
  omega

theorem length_partDims {dims : List SplitDim} {begins ends newBegin coord offsets : List ℤ}
    (hb : begins.length = dims.length) (he : ends.length = dims.length)
    (hn : newBegin.length = dims.length) (hc : coord.length = dims.length)
    (ho : offsets.length = dims.length) :
    (partDims dims begins ends newBegin coord offsets).length = dims.length := by
  induction dims generalizing begins ends newBegin coord offsets with
  | nil => rfl
  | cons d dims ih =>
      obtain ⟨b, begins, rfl⟩ := List.exists_cons_of_length_eq_add_one hb
      obtain ⟨e, ends, rfl⟩ := List.exists_cons_of_length_eq_add_one he
      obtain ⟨x, newBegin, rfl⟩ := List.exists_cons_of_length_eq_add_one hn
      obtain ⟨c, coord, rfl⟩ := List.exists_cons_of_length_eq_add_one hc
      obtain ⟨o, offsets, rfl⟩ := List.exists_cons_of_length_eq_add_one ho
      exact congrArg Nat.succ (ih (Nat.succ.inj hb) (Nat.succ.inj he) (Nat.succ.inj hn)
        (Nat.succ.inj hc) (Nat.succ.inj ho))

theorem length_newBegin (r : SplitMatrix) {begins : List ℤ}
    (h : begins.length = r.dims.length) : (newBegin r begins).length = r.dims.length := by
  rw [newBegin, List.length_zipWith, h, Nat.min_self]

theorem length_remainders {dims : List SplitDim} {coord : List ℤ}
    (h : coord.length = dims.length) : (coordToPart dims coord).2.length = dims.length := by
  rw [coordToPart, remainders, List.length_zipWith, h, Nat.min_self]

/-- **ALL PARTS**: the records are complete when they are handed on. -/
theorem eachPart_fits (r : SplitMatrix) {begins ends : List ℤ} (h : Walk orig d s as 0 0 0)
    (has : as.length = r.dims.length) (hb : begins.length = r.dims.length)
    (he : ends.length = r.dims.length) {k : ℕ} (hscratch : Record scratch d k ws)
    (hws : 2 + d ≤ ws.length) {coords : List (List ℤ)}
    (hcoords : ∀ c ∈ coords, c.length = r.dims.length)
    (horig : Record newOrig d s nws) (hnws : nws.length = 2 + 2 * d + 2 * s)
    (hnew : Record newScratch d 0 sws) (hlen : newScratch.length = 2 + 2 * d) :
    RecordsFit (eachPart r orig scratch begins ends coords newOrig newScratch) := by
  induction coords generalizing newOrig newScratch nws sws with
  | nil => exact ⟨Or.inl rfl, fun m hm => absurd hm List.not_mem_nil⟩
  | cons coord coords ih =>
      have hcoord := hcoords coord List.mem_cons_self
      have hbegin : (List.zipWith dataBegin begins coord).length = r.dims.length := by
        rw [List.length_zipWith, hb, hcoord, Nat.min_self]
      rw [eachPart]
      cases hpart : r.partAt (List.zipWith dataBegin begins coord) with
      | none => exact ⟨Or.inr rfl, fun m hm => absurd hm List.not_mem_nil⟩
      | some part =>
          have hl := length_partDims hb he (length_newBegin r hb) hcoord (length_remainders hbegin)
          have hturn : Ends (partLoop orig scratch (partDims r.dims begins ends
              (newBegin r begins) coord (coordToPart r.dims
                (List.zipWith dataBegin begins coord)).2) 0 0 0 newOrig newScratch >>= fun out =>
              copySizes out.1 out.2 >>= fun newScratch => .ok (out.1, newScratch))
              (fun _ => False) fun out =>
                (∃ nws', Record out.1 d s nws' ∧ nws'.length = 2 + 2 * d + 2 * s) ∧
                  ∃ sws', Record out.2 d 0 sws' ∧ sws'.length = 2 + 2 * d ∧
                    out.2.length = 2 + 2 * d := by
            refine Ends.bind (partLoop_ends h (hl.trans has.symm) hscratch hws horig hnws hnew
              hnew.two_le hlen) ?_
            rintro ⟨m₁, m₂⟩ ⟨⟨nws', hm₁, hnws'⟩, ⟨sws', hm₂, hsws'⟩, hlen'⟩
            refine Ends.bind (copySizes_ends hm₁ hnws' hm₂ hsws' hlen') ?_
            intro m₃ hm₃
            exact ⟨⟨nws', hm₁, hnws'⟩, hm₃⟩
          dsimp only
          split
          next f heq => exact (hturn.of_error heq).elim
          next m₁ m₂ heq =>
              obtain ⟨⟨nws', hm₁, hnws'⟩, sws', hm₂, hsws', hlen'⟩ := hturn.of_ok heq
              have hrest := ih (fun c hc => hcoords c (List.mem_cons_of_mem coord hc)) hm₁ hnws'
                hm₂ hlen'
              refine ⟨hrest.inside, fun m hm => ?_⟩
              rcases List.mem_cons.mp hm with rfl | hm
              · exact hm₁.recordLen hnws'
              · rcases List.mem_cons.mp hm with rfl | hm
                · exact hm₂.recordLen hsws'
                · exact hrest.exact m hm

end Parts

/-! ## The new records -/

section New

variable {v : RegionMatrix} {r : SplitMatrix} {orig : Buffer IndexT} {d s : ℕ}
  {ws : List IndexT}

theorem isSlice_ends (sliceIndex i : ℕ) (h : Record orig d s ws) (hws : ws.length = 2 + 2 * d + 2 * s) :
    ∃ b, isSlice orig sliceIndex i = .ok b := by
  rw [isSlice, bind_eq h.numSliceDimensions]
  by_cases hlt : sliceIndex < s
  · have hbound : 2 + 2 * d + sliceIndex < ws.length := by omega
    have hget : Field.sliceDimensions.get orig sliceIndex = .ok ws[2 + 2 * d + sliceIndex] :=
      h.get (List.getElem?_eq_getElem hbound)
    rw [if_pos hlt, bind_eq hget]
    exact ⟨_, rfl⟩
  · exact ⟨false, if_neg hlt⟩

theorem elementCount_eq (h : Sliced v)
    (hm : Record orig v.D v.sliceInfo.numSliceDimensions (recordOf v)) :
    elementCount orig = .ok v.size.prod := by
  have hloop : ∀ k ≤ v.D, (List.range k).foldlM (fun count i => do
      let s ← Field.size.get orig i
      (.ok (count * s) : Except Fault ℤ)) 1 = .ok (v.size.take k).prod := by
    intro k hk
    induction k with
    | zero => rfl
    | succ k ih =>
        have hlt : k < v.size.length := hk
        have hget : Field.size.get orig k = .ok v.size[k] := by
          refine get_array h hm .size ?_
          rw [read_nat]
          exact List.getElem?_eq_getElem hlt
        have hstep : (do
            let s ← Field.size.get orig k
            (.ok ((v.size.take k).prod * s) : Except Fault ℤ)) =
              .ok ((v.size.take k).prod * v.size[k]) := bind_eq hget
        rw [List.range_succ, List.foldlM_append, bind_eq (ih (Nat.le_of_succ_le hk)),
          List.foldlM_cons, bind_eq hstep, List.take_succ_eq_append_getElem hlt,
          List.prod_append, List.prod_singleton]
        rfl
  rw [elementCount, bind_eq hm.dimensions, hloop v.D le_rfl, RegionMatrix.D, List.take_length]

theorem partElementCount_ends (h : Record orig d s ws) (hws : ws.length = 2 + 2 * d + 2 * s)
    (dims : List SplitDim) (i : ℕ) (partCount : ℤ) :
    ∃ count, partElementCount orig dims i partCount = .ok count := by
  induction dims generalizing i partCount with
  | nil => exact ⟨partCount, rfl⟩
  | cons q dims ih =>
      obtain ⟨b, hb⟩ := isSlice_ends 0 i h hws
      rw [partElementCount, bind_eq hb]
      cases b with
      | true => exact ih (i + 1) partCount
      | false => exact ih (i + 1) (partCount * q.splitSize)

/-- The buffer has room for the record, and for no more elements than the view has. -/
theorem messageLen_eq (h : Sliced v)
    (hm : Record orig v.D v.sliceInfo.numSliceDimensions (recordOf v)) (isCopyTo : Bool) :
    ∃ k, messageLen r isCopyTo orig =
        .ok (len v.D v.sliceInfo.numSliceDimensions + k * sizeofElementT) ∧
      k ≤ if isCopyTo then 0 else v.size.prod.toNat := by
  rw [messageLen, bind_eq hm.dimensions, bind_eq hm.numSliceDimensions]
  cases isCopyTo with
  | true =>
      refine ⟨0, ?_, le_rfl⟩
      rw [if_pos rfl, Nat.zero_mul, Nat.add_zero]
  | false =>
      obtain ⟨partCount, hpart⟩ := partElementCount_ends hm (length_recordOf h) r.dims 0 1
      rw [if_neg Bool.false_ne_true, bind_eq (elementCount_eq h hm), bind_eq hpart]
      refine ⟨_, rfl, ?_⟩
      rw [if_neg Bool.false_ne_true]
      refine Int.toNat_le_toNat ?_
      split <;> omega

/-- **THE NEW RECORDS**: a copy of the view's, and the header of the scratch region's. -/
theorem newRecords_ends (h : Sliced v)
    (hm : Record orig v.D v.sliceInfo.numSliceDimensions (recordOf v)) {isCopyTo : Bool}
    (hroom : 2 + 2 * v.D + 2 * v.sliceInfo.numSliceDimensions +
      2 * (if isCopyTo then 0 else v.size.prod.toNat) ≤ orig.length) :
    Ends (newRecords r isCopyTo orig) (fun _ => False) fun out =>
      Record out.1 v.D v.sliceInfo.numSliceDimensions (recordOf v) ∧
        (∃ sws, Record out.2 v.D 0 sws) ∧ out.2.length = 2 + 2 * v.D := by
  obtain ⟨k, hbytes, hk⟩ := messageLen_eq (r := r) h hm isCopyTo
  have hlen := length_recordOf h
  have hwords : (len v.D v.sliceInfo.numSliceDimensions + k * sizeofElementT) / sizeofInt =
      2 + 2 * v.D + 2 * v.sliceInfo.numSliceDimensions + 2 * k := by
    rw [len, sizeofInt, sizeofIndexT, sizeofElementT]
    omega
  have hwords₀ : len v.D 0 / sizeofInt = 2 + 2 * v.D := by
    rw [len, sizeofInt, sizeofIndexT]
    omega
  generalize len v.D v.sliceInfo.numSliceDimensions + k * sizeofElementT = bytes at hbytes hwords
  have hbytes_le : bytes / sizeofInt ≤ orig.length := by omega
  have htake : (orig.take (bytes / sizeofInt)).length = bytes / sizeofInt := by
    rw [List.length_take, Nat.min_eq_left hbytes_le]
  have hsource : readAt orig 0 bytes = .ok (orig.take (bytes / sizeofInt)) := by
    rw [readAt, Nat.zero_div, copyFrom, if_pos (by omega)]
    rfl
  have hcopy : writeAt (allocate bytes) 0 (orig.take (bytes / sizeofInt)) =
      .ok (orig.take (bytes / sizeofInt)) := by
    rw [writeAt, Nat.zero_div, copyTo, allocate, length_fresh, htake, Nat.zero_add,
      if_pos (Nat.le_refl _), fresh, List.drop_replicate, Nat.sub_self, List.replicate_zero,
      List.append_nil]
    rfl
  rw [newRecords, bind_eq hbytes, bind_eq hsource, bind_eq hcopy, bind_eq hm.dimensions]
  have hroom₀ : (allocate (len v.D 0)).length = 2 + 2 * v.D := by
    rw [allocate, length_fresh, hwords₀]
  refine Ends.bind (writeAt_ends [(v.D : ℤ)] (k := 0) (holds_fresh _) (Nat.le_refl 0) ?_) ?_
  · show 0 + 1 ≤ (allocate (len v.D 0)).length
    rw [hroom₀]
    omega
  rintro m₁ ⟨hm₁, hlen₁⟩
  refine Ends.bind (writeAt_ends [0] (k := 1) hm₁ (Nat.le_refl 1) ?_) ?_
  · show 1 + 1 ≤ m₁.length
    rw [hlen₁.trans hroom₀]
    omega
  rintro m₂ ⟨hm₂, hlen₂⟩
  refine ⟨⟨hm.holds.take (by omega) hbytes_le, hm.dims, hm.slices⟩, ⟨_, hm₂, rfl, rfl⟩, ?_⟩
  rw [hlen₂, hlen₁]
  exact hroom₀

end New

/-! ## Copies -/

section Copy

variable {r : SplitMatrix} {v : RegionMatrix} {t : Track} {orig scratch : Buffer IndexT}
  {begins ends : List ℤ} {ws : List IndexT} {isCopyTo : Bool} {storage k : ℕ}

/-- The loop over the parts ends. -/
theorem exists_traversal (h : Corners r.dims begins ends) :
    ∃ n coords, doWhile (incPartFrom 0 r.dims (newBegin r begins) ends) n (newBegin r begins) =
        some coords ∧ ∀ c ∈ coords, c.length = r.dims.length := by
  obtain ⟨n, hn⟩ := doWhile_box h.proper
  refine ⟨n, (boxList (firstParts r.dims begins) (stopParts r.dims begins ends)).map
    (scale r.dims), ?_, fun c hc => ?_⟩
  · rw [newBegin_eq h, doWhile_parts h r.dims_ne h.proper.inBox.1, hn]
    rfl
  · obtain ⟨qs, hqs, rfl⟩ := List.mem_map.mp hc
    rw [scale, List.length_zipWith, h.length_parts ((mem_boxList h.proper).mp hqs), Nat.min_self]

theorem copyParts_fits (h : Sliced v) (hst : Stores v t)
    (hm : Record orig v.D v.sliceInfo.numSliceDimensions (recordOf v))
    (hhandler : v.handlerDimensions = r.dims.length)
    (hroom : 2 + 2 * v.D + 2 * v.sliceInfo.numSliceDimensions +
      2 * (if isCopyTo then 0 else v.size.prod.toNat) ≤ orig.length)
    (hscratch : Record scratch v.D k ws) (hws : 2 + v.D ≤ ws.length)
    (hcorners : Corners r.dims begins ends) (hb : begins.length = r.dims.length)
    (he : ends.length = r.dims.length) :
    ∃ n o, copyParts r isCopyTo orig scratch begins ends n = some o ∧ RecordsFit o := by
  have hnew := newRecords_ends (r := r) h hm hroom
  obtain ⟨n, coords, hcoords, hlength⟩ := exists_traversal hcorners
  cases hrecords : newRecords r isCopyTo orig with
  | error f => exact (hnew.of_error hrecords).elim
  | ok out =>
      obtain ⟨horig, ⟨sws, hnewScratch⟩, hlen⟩ := hnew.of_ok hrecords
      refine ⟨n, eachPart r orig scratch begins ends coords out.1 out.2, ?_, ?_⟩
      · rw [copyParts, hrecords, hcoords]
        rfl
      · exact eachPart_fits r (walk_of h hst hm) (hst.handler.symm.trans hhandler) hb he hscratch
          hws hlength horig (length_recordOf h) hnewScratch hlen

theorem axes_length (hst : Stores v t) (hhandler : v.handlerDimensions = r.dims.length) :
    t.axes.length = r.dims.length := hst.handler.symm.trans hhandler

theorem length_shares (hst : Stores v t) (hhandler : v.handlerDimensions = r.dims.length)
    (hb : begins.length = r.dims.length) :
    (List.zip (coordToPart r.dims begins).2 (newBegin r begins)).length = t.axes.length := by
  rw [List.length_zip, length_remainders hb, length_newBegin r hb, Nat.min_self,
    axes_length hst hhandler]

theorem length_corners (hst : Stores v t) (hhandler : v.handlerDimensions = r.dims.length) :
    (axisBegins t.axes).length = r.dims.length ∧ (axisEnds t.axes).length = r.dims.length := by
  rw [axisBegins, axisEnds, length_cell, length_cell]
  exact ⟨axes_length hst hhandler, axes_length hst hhandler⟩

variable (isCopyTo scratch storage) in
theorem copyHelper_eq (h : Sliced v) (hst : Stores v t)
    (hm : Record orig v.D v.sliceInfo.numSliceDimensions (recordOf v))
    (hhandler : v.handlerDimensions = r.dims.length) (n : ℕ) :
    copyHelper r isCopyTo orig scratch storage n =
      if isRegionInOnePart r.dims (newBegin r (axisBegins t.axes)) (axisEnds t.axes) ∧
          r.partAt (axisBegins t.axes) = none then some ⟨[], some .noPart⟩
      else
        (r.sharedPart (axisBegins t.axes) (axisEnds t.axes)).elim
          (copyParts r isCopyTo orig scratch (axisBegins t.axes) (axisEnds t.axes) n)
          fun shared =>
            if isCopyTo then some (.single (share r orig scratch (axisBegins t.axes)))
            else if shared = storage then some ⟨[], none⟩
            else copyParts r isCopyTo orig scratch (axisBegins t.axes) (axisEnds t.axes) n := by
  have hbounds := boundsLoop_eq (walk_of h hst hm)
  rw [axes_length hst hhandler] at hbounds
  rw [copyHelper, hbounds]
  dsimp only
  cases r.sharedPart (axisBegins t.axes) (axisEnds t.axes) with
  | none => rfl
  | some shared => rfl

theorem recordsFit_nil {f : Option Fault} (h : f = none ∨ f = some .noPart) :
    RecordsFit ⟨[], f⟩ := ⟨h, fun _ hm => absurd hm List.not_mem_nil⟩

/-- A part that is shared is there. -/
theorem not_noPart (h : r.sharedPart begins ends = some storage) :
    ¬ (isRegionInOnePart r.dims (newBegin r begins) ends ∧ r.partAt begins = none) := by
  rintro ⟨hone, hnone⟩
  rw [SplitMatrix.sharedPart, if_pos hone, hnone] at h
  cases h

/-- The record of the scratch region has room for offsets. -/
theorem share_fits (h : Sliced v) (hst : Stores v t)
    (hm : Record orig v.D v.sliceInfo.numSliceDimensions (recordOf v))
    (hhandler : v.handlerDimensions = r.dims.length) (hb : begins.length = r.dims.length)
    (hslices : v.sliceInfo.numSliceDimensions = 0) (hscratch : Record scratch v.D k ws)
    (hws : ws.length = 2 + 2 * v.D) :
    RecordsFit (.single (share r orig scratch begins)) := by
  have hwalk := walk_of h hst hm
  rw [hslices] at hwalk
  have hshare : Ends (share r orig scratch begins) (fun _ => False) fun m' =>
      ∃ ws', Record m' v.D 0 ws' ∧ ws'.length = 2 + 2 * v.D := by
    rw [share, bind_eq hm.numSliceDimensions, hslices]
    refine Ends.bind (setSlices_ends hscratch 0) ?_
    rintro m' ⟨⟨ws', hm', hws'⟩, -⟩
    exact shareLoop_ends hwalk (length_shares hst hhandler hb) hm' (hws'.trans hws)
  cases hresult : share r orig scratch begins with
  | error f => exact (hshare.of_error hresult).elim
  | ok m' =>
      obtain ⟨ws', hm', hws'⟩ := hshare.of_ok hresult
      refine ⟨Or.inl rfl, fun m hmem => ?_⟩
      obtain rfl := List.mem_singleton.mp hmem
      exact hm'.recordLen hws'

/-- It has none for slices. -/
theorem share_overrun (h : Sliced v) (hst : Stores v t)
    (hm : Record orig v.D v.sliceInfo.numSliceDimensions (recordOf v))
    (hhandler : v.handlerDimensions = r.dims.length) (hb : begins.length = r.dims.length)
    (hslices : v.sliceInfo.numSliceDimensions ≠ 0) (hscratch : Record scratch v.D k ws)
    (hws : ws.length = 2 + 2 * v.D) (hlen : scratch.length = 2 + 2 * v.D) :
    share r orig scratch begins = .error .overrun := by
  have hfixed : fixed 0 t.axes ≠ [] := by
    intro hnil
    refine hslices ?_
    rw [hst.numSlices, Track.fixedAxes, hnil]
    rfl
  have hset := setSlices_ends hscratch v.sliceInfo.numSliceDimensions
  rw [share, bind_eq hm.numSliceDimensions]
  cases hresult : storeAt scratch sizeofInt (v.sliceInfo.numSliceDimensions : ℤ) with
  | error f => exact (hset.of_error hresult).elim
  | ok m' =>
      obtain ⟨⟨ws', hm', hws'⟩, hlen'⟩ := hset.of_ok hresult
      exact shareLoop_overrun (walk_of h hst hm) (length_shares hst hhandler hb) hm'
        (hws'.trans hws) (hlen'.trans hlen) hfixed

theorem corners_of_view (h : ViewIn (PbRegionSplit.sizeOf r.dims) v) (hst : Stores v t) :
    Corners r.dims (axisBegins t.axes) (axisEnds t.axes) :=
  corners_of_ordered (h.ordered hst) ((h.length_axes hst).1.trans (List.length_map _))

theorem handler_eq (h : ViewIn (PbRegionSplit.sizeOf r.dims) v) :
    v.handlerDimensions = r.dims.length := h.handler.trans (List.length_map _)

variable (isCopyTo storage) in
/-- Copies fit where the record of the scratch region is left alone, or has no slices to get. -/
theorem copyHelper_fits (h : ViewIn (PbRegionSplit.sizeOf r.dims) v) (hsliced : Sliced v)
    (hst : Stores v t) (hm : Record orig v.D v.sliceInfo.numSliceDimensions (recordOf v))
    (hroom : 2 + 2 * v.D + 2 * v.sliceInfo.numSliceDimensions +
      2 * (if isCopyTo then 0 else v.size.prod.toNat) ≤ orig.length)
    (hscratch : Record scratch v.D k ws) (hws : 2 + v.D ≤ ws.length)
    (hshare : isCopyTo = true →
      (∃ shared, r.sharedPart (axisBegins t.axes) (axisEnds t.axes) = some shared) →
        v.sliceInfo.numSliceDimensions = 0 ∧ ws.length = 2 + 2 * v.D) :
    ∃ n o, copyHelper r isCopyTo orig scratch storage n = some o ∧ RecordsFit o := by
  have hhandler := handler_eq h
  obtain ⟨hb, he⟩ := length_corners hst hhandler
  have heq := copyHelper_eq scratch isCopyTo storage hsliced hst hm hhandler
  obtain ⟨n, o, hparts, hfit⟩ :=
    copyParts_fits hsliced hst hm hhandler hroom hscratch hws (corners_of_view h hst) hb he
  by_cases hpart : isRegionInOnePart r.dims (newBegin r (axisBegins t.axes)) (axisEnds t.axes) ∧
      r.partAt (axisBegins t.axes) = none
  · exact ⟨0, _, (heq 0).trans (if_pos hpart), recordsFit_nil (Or.inr rfl)⟩
  · have hrun := fun n => (heq n).trans (if_neg hpart)
    cases hshared : r.sharedPart (axisBegins t.axes) (axisEnds t.axes) with
    | none =>
        rw [hshared] at hrun
        exact ⟨n, o, (hrun n).trans hparts, hfit⟩
    | some shared =>
        rw [hshared] at hrun
        cases isCopyTo with
        | true =>
            obtain ⟨hslices, hws⟩ := hshare rfl ⟨shared, hshared⟩
            exact ⟨0, _, hrun 0, share_fits hsliced hst hm hhandler hb hslices hscratch hws⟩
        | false =>
            by_cases hsame : shared = storage
            · exact ⟨0, _, (hrun 0).trans (if_pos hsame), recordsFit_nil (Or.inl rfl)⟩
            · exact ⟨n, o, ((hrun n).trans (if_neg hsame)).trans hparts, hfit⟩

/-- A copy of a view with slices that is to use a part has no room for them. -/
theorem copyHelper_overrun (h : ViewIn (PbRegionSplit.sizeOf r.dims) v) (hsliced : Sliced v)
    (hst : Stores v t) (hm : Record orig v.D v.sliceInfo.numSliceDimensions (recordOf v))
    (hscratch : Record scratch v.D k ws) (hws : ws.length = 2 + 2 * v.D)
    (hlen : scratch.length = 2 + 2 * v.D) (hslices : v.sliceInfo.numSliceDimensions ≠ 0)
    {shared : ℕ} (hshared : r.sharedPart (axisBegins t.axes) (axisEnds t.axes) = some shared)
    (n : ℕ) : copyHelper r true orig scratch storage n = some ⟨[], some .overrun⟩ := by
  have hhandler := handler_eq h
  obtain ⟨hb, -⟩ := length_corners hst hhandler
  rw [copyHelper_eq scratch true storage hsliced hst hm hhandler, if_neg (not_noPart hshared), hshared]
  show some (Outcome.single (share r orig scratch (axisBegins t.axes))) = _
  rw [share_overrun hsliced hst hm hhandler hb hslices hscratch hws hlen]
  rfl

end Copy

/-! ## Its callers -/

section Callers

variable {r : SplitMatrix} {v : RegionMatrix} {t : Track}

theorem sliced_whole (size : List ℤ) : Sliced (whole size) where
  splitOffset := List.length_replicate
  slicePositions := rfl
  sorted := .nil
  inside := fun _ hd => absurd hd List.not_mem_nil
  count := rfl

theorem length_allocate (bytes : ℕ) : (allocate bytes).length = bytes / sizeofInt :=
  length_fresh _

/-- The record of a view, in the buffer its caller allocates. -/
theorem allocated_ends (h : Sliced v) (k : ℕ) :
    Ends (computeRegionMatrixMetadata v
        (allocate (regionMatrixMetadataLen v + k * sizeofElementT))) (fun _ => False) fun m' =>
      Record m' v.D v.sliceInfo.numSliceDimensions (recordOf v) ∧
        m'.length = 2 + 2 * v.D + 2 * v.sliceInfo.numSliceDimensions + 2 * k := by
  have hlen : (allocate (regionMatrixMetadataLen v + k * sizeofElementT)).length =
      2 + 2 * v.D + 2 * v.sliceInfo.numSliceDimensions + 2 * k := by
    rw [length_allocate, regionMatrixMetadataLen, len, sizeofInt, sizeofIndexT, sizeofElementT]
    omega
  refine (computeRegionMatrixMetadata_ends h (holds_fresh _) ?_).mono (fun _ hfalse => hfalse)
    fun m' hm' => ⟨hm'.1, hm'.2.trans hlen⟩
  exact hlen.ge.trans' (Nat.le_add_right _ _)

/-- Both records of a caller. -/
theorem both_records {scratch : RegionMatrix} (h : Sliced v) (hscratch : Sliced scratch) (k : ℕ) :
    ∃ orig metadata,
      (do
        let orig ← computeRegionMatrixMetadata v
          (allocate (regionMatrixMetadataLen v + k * sizeofElementT))
        let metadata ← computeRegionMatrixMetadata scratch
          (allocate (regionMatrixMetadataLen scratch))
        .ok (orig, metadata) : Except Fault (Buffer IndexT × Buffer IndexT)) =
          .ok (orig, metadata) ∧
      Record orig v.D v.sliceInfo.numSliceDimensions (recordOf v) ∧
      orig.length = 2 + 2 * v.D + 2 * v.sliceInfo.numSliceDimensions + 2 * k ∧
      Record metadata scratch.D scratch.sliceInfo.numSliceDimensions (recordOf scratch) ∧
      metadata.length = 2 + 2 * scratch.D + 2 * scratch.sliceInfo.numSliceDimensions := by
  have hview := allocated_ends h k
  have hmetadata := allocated_ends hscratch 0
  rw [Nat.zero_mul, Nat.add_zero, Nat.mul_zero, Nat.add_zero] at hmetadata
  cases horig : computeRegionMatrixMetadata v
      (allocate (regionMatrixMetadataLen v + k * sizeofElementT)) with
  | error f => exact (hview.of_error horig).elim
  | ok orig =>
      cases hmeta : computeRegionMatrixMetadata scratch
          (allocate (regionMatrixMetadataLen scratch)) with
      | error f => exact (hmetadata.of_error hmeta).elim
      | ok metadata =>
          obtain ⟨hrecord, hlen⟩ := hview.of_ok horig
          obtain ⟨hrecord', hlen'⟩ := hmetadata.of_ok hmeta
          exact ⟨orig, metadata, rfl, hrecord, hlen, hrecord', hlen'⟩

theorem sharesPart_iff (hst : Stores v t) (hplain : v.sourceInfo = none) :
    SharesPart r v ↔
      ∃ storage, r.sharedPart (axisBegins t.axes) (axisEnds t.axes) = some storage := by
  obtain ⟨hbegins, hends⟩ := corners_eq hst hplain
  constructor
  · rintro ⟨begins, ends, storage, hb, he, hshared⟩
    obtain rfl := Option.some.inj (hb.symm.trans hbegins)
    obtain rfl := Option.some.inj (he.symm.trans hends)
    exact ⟨storage, hshared⟩
  · rintro ⟨storage, hshared⟩
    exact ⟨_, _, storage, hbegins, hends, hshared⟩

theorem localCopy_iff (h : ViewIn (PbRegionSplit.sizeOf r.dims) v) (hplain : v.sourceInfo = none) :
    (∃ n o, localCopy r v n = some o ∧ RecordsFit o) ↔
      (SharesPart r v → v.sliceInfo.numSliceDimensions = 0) := by
  have hsliced := h.wellFormed.sliced hplain
  obtain ⟨as, hst⟩ := hsliced.stores hplain
  obtain ⟨orig, metadata, hrun, hm, hlen, hm', hlen'⟩ := both_records hsliced (sliced_whole v.size) 0
  rw [Nat.zero_mul, Nat.add_zero] at hrun
  have hws : (recordOf (whole v.size)).length = 2 + 2 * v.D := length_recordOf (sliced_whole v.size)
  have hcopy : ∀ n, localCopy r v n = copyHelper r true orig metadata 0 n := by
    intro n
    rw [localCopy, hrun]
  rw [sharesPart_iff hst hplain]
  constructor
  · rintro ⟨n, o, ho, hfit⟩ ⟨shared, hshared⟩
    by_contra hslices
    have hoverrun : copyHelper r true orig metadata 0 n = some ⟨[], some .overrun⟩ :=
      copyHelper_overrun h hsliced hst hm hm' hws hlen' hslices hshared n
    obtain rfl := Option.some.inj ((ho.symm.trans (hcopy n)).trans hoverrun)
    rcases hfit.inside with hnone | hnone
    · cases hnone
    · cases hnone
  · intro hslices
    obtain ⟨n, o, ho, hfit⟩ := copyHelper_fits true 0 h hsliced hst hm hlen.ge hm' (by omega)
      fun _ hshared => ⟨hslices hshared, hws⟩
    exact ⟨n, o, (hcopy n).trans ho, hfit⟩

theorem fromScratchRegion_fits (h : ViewIn (PbRegionSplit.sizeOf r.dims) v)
    (hplain : v.sourceInfo = none) (scratch : Scratch v) :
    ∃ n o, fromScratchRegion r v scratch.view scratch.storage n = some o ∧ RecordsFit o := by
  have hsliced := h.wellFormed.sliced hplain
  obtain ⟨as, hst⟩ := hsliced.stores hplain
  obtain ⟨orig, metadata, hrun, hm, hlen, hm', hlen'⟩ :=
    both_records hsliced scratch.sliced (seenSize scratch.view).prod.toNat
  have hD : scratch.view.D = v.D := by
    rw [← length_seenSize scratch.view, scratch.size_eq, length_seenSize]
  have hprod : (seenSize scratch.view).prod = v.size.prod := by
    rw [scratch.size_eq, seenSize]
    split
    · exact List.prod_reverse v.size
    · rfl
  have hws : 2 + v.D ≤ (recordOf scratch.view).length := by
    rw [length_recordOf scratch.sliced, hD]
    omega
  rw [hD] at hm'
  rw [hprod] at hlen
  obtain ⟨n, o, ho, hfit⟩ := copyHelper_fits false scratch.storage h hsliced hst hm hlen.ge hm' hws
    fun hfalse => absurd hfalse Bool.false_ne_true
  refine ⟨n, o, ?_, hfit⟩
  rw [fromScratchRegion, hrun]
  exact ho

/-- **SCRATCH METADATA** stays in its buffers, except where the copy of a view with slices is to
    use the one part the view is in. -/
theorem recordsFit_iff (h : ViewIn (PbRegionSplit.sizeOf r.dims) v) (hplain : v.sourceInfo = none)
    (caller : Caller v) :
    (∃ n o, caller.run r n = some o ∧ RecordsFit o) ↔
      (caller = .localCopy → SharesPart r v → v.sliceInfo.numSliceDimensions = 0) := by
  cases caller with
  | localCopy =>
      refine (localCopy_iff h hplain).trans ⟨fun hcond _ => hcond, fun hcond => hcond rfl⟩
  | fromScratchRegion scratch =>
      refine iff_of_true (fromScratchRegion_fits h hplain scratch) fun heq => ?_
      cases heq

end Callers

/-! ## A matrix of four parts -/

/-- Sixteen by sixteen, two of the four parts on another host. -/
def fourParts : SplitMatrix where
  dims := [⟨16, 8, by decide, by decide⟩, ⟨16, 8, by decide, by decide⟩]
  parts := [.remote, .raw 1, .raw 2, .remote]
  dims_ne := List.cons_ne_nil _ _
  length_parts := by decide

/-- Some cells of one column. -/
def column (first count : ℤ) : RegionMatrix where
  handlerDimensions := 2
  size := [count]
  splitOffset := [first]
  isTransposed := false
  sliceInfo := ⟨[0], [9]⟩
  sourceInfo := none

theorem viewIn_column {first count : ℤ} (hfirst : 0 ≤ first) (hcount : 0 ≤ count)
    (hlast : first + count ≤ 16) : ViewIn [16, 16] (column first count) := by
  refine ⟨⟨fun _ => ⟨rfl, rfl, List.pairwise_singleton _ _, ?_, rfl⟩, fun s hs => by cases hs⟩,
    rfl, ?_, ?_, ?_, fun c hc => ?_⟩
  · intro e he
    obtain rfl := List.mem_singleton.mp he
    exact ⟨le_rfl, Int.natCast_pos.mpr (Nat.succ_pos 1)⟩
  · intro n hn
    rwa [List.mem_singleton.mp hn]
  · intro o ho
    rwa [List.mem_singleton.mp ho]
  · intro p hp
    rw [List.mem_singleton.mp hp]
    decide
  · have hc' := PbMatrixRegion.contains_iff_inBounds.mp hc
    rcases hc' with _ | ⟨hx, _ | _⟩
    rename_i x
    refine ⟨[9, x + first], rfl, PbMatrixRegion.contains_iff_inBounds.mpr (.cons ?_ (.cons ?_ .nil))⟩
    · omega
    · omega

/-- A column across two parts is copied part by part. -/
theorem recordsFit_column :
    ∃ n o, (Caller.localCopy : Caller (column 4 8)).run fourParts n = some o ∧ RecordsFit o := by
  have hview : ViewIn (PbRegionSplit.sizeOf fourParts.dims) (column 4 8) :=
    viewIn_column (by decide) (by decide) (by decide)
  refine (recordsFit_iff hview rfl .localCopy).mpr fun _ hshares => ?_
  obtain ⟨begins, ends, storage, hb, he, hshared⟩ := hshares
  obtain rfl := Option.some.inj hb
  obtain rfl := Option.some.inj he
  cases hshared

/-- A column in one part that is here is not. -/
theorem not_recordsFit_column : ViewIn [16, 16] (column 0 4) ∧
    (∀ n, (Caller.localCopy : Caller (column 0 4)).run fourParts n =
      some ⟨[], some .overrun⟩) ∧
    ¬ ∃ n o, (Caller.localCopy : Caller (column 0 4)).run fourParts n = some o ∧
      RecordsFit o := by
  have hrun : ∀ n, (Caller.localCopy : Caller (column 0 4)).run fourParts n =
      some ⟨[], some .overrun⟩ := fun n => rfl
  refine ⟨viewIn_column (by decide) (by decide) (by decide), hrun, ?_⟩
  rintro ⟨n, o, ho, hfit⟩
  obtain rfl := Option.some.inj (ho.symm.trans (hrun n))
  rcases hfit.inside with hnone | hnone
  · cases hnone
  · cases hnone

end PbScratchMetadata
