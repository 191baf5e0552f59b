import Mathlib.Data.List.GetD
import PetaBricks.AxesProofs
import PetaBricks.RegionMatrixModel

/-! # Region geometry — what a chain of view operations means

    `Geometry` is the meaning of `region`, `slice` and `transposed`: a size and a
    function from the view's coordinates to the matrix's, composed step by step.
    `Track` is the same view with its axes listed, and `Designates.build` says
    that the two agree along every chain.  With arguments in range a chain
    designates cells of the matrix (`designated_inside`). -/

namespace PbRegionMatrix

open PbAxes

/-! ## The geometry -/

/-- A view as a function: the array's cell for each coordinate. -/
structure Geometry where
  size : List Int
  cell : List Int → List Int

/-- All of the matrix. -/
def Geometry.whole (size : List Int) : Geometry := ⟨size, id⟩

/-- The geometric meaning of an operation. -/
def Geometry.apply (g : Geometry) : Op → Geometry
  | .splitRegion offset size =>
      ⟨size, fun c => g.cell (List.zipWith (· + ·) c offset)⟩
  | .region c1 c2 =>
      ⟨List.zipWith (· - ·) c2 c1, fun c => g.cell (List.zipWith (· + ·) c c1)⟩
  | .sliceRegion d pos | .slice d pos =>
      ⟨g.size.eraseIdx d, fun c => g.cell (c.insertIdx d pos)⟩
  | .transposed => ⟨g.size.reverse, fun c => g.cell c.reverse⟩

/-- The geometric meaning of a chain. -/
def Geometry.build (g : Geometry) (ops : List Op) : Geometry :=
  ops.foldl Geometry.apply g

/-- The coordinate is in range. -/
def Contains (size c : List Int) : Prop :=
  c.length = size.length ∧
    ∀ i, i < size.length → 0 ≤ c.getD i 0 ∧ c.getD i 0 < size.getD i 0

/-- The box lies in the range. -/
def ContainsBox (size offset box : List Int) : Prop :=
  offset.length = size.length ∧ box.length = size.length ∧
    ∀ i, i < size.length → 0 ≤ offset.getD i 0 ∧ 0 ≤ box.getD i 0 ∧
      offset.getD i 0 + box.getD i 0 ≤ size.getD i 0

/-- The arguments of an operation are in range. -/
def ArgsInRange (size : List Int) : Op → Prop
  | .splitRegion offset box => ContainsBox size offset box
  | .region c1 c2 =>
      c2.length = size.length ∧
        ContainsBox size c1 (List.zipWith (· - ·) c2 c1)
  | .sliceRegion d pos | .slice d pos =>
      d < size.length ∧ 0 ≤ pos ∧ pos < size.getD d 0
  | .transposed => True

/-- The arguments of all operations of a chain are in range. -/
def InRange (g : Geometry) : List Op → Prop
  | [] => True
  | op :: ops => ArgsInRange g.size op ∧ InRange (g.apply op) ops

/-! ## Views by their axes -/

/-- A view by its axes, in the array's order, or in reverse. -/
structure Track where
  axes : List Axis
  isTransposed : Bool

/-- Coordinates of the view in the order of its axes, and back. -/
def Track.order (t : Track) (c : List Int) : List Int :=
  if t.isTransposed then c.reverse else c

/-- Which of the own axes dimension `d` of the view is. -/
def Track.storage (t : Track) (d : Nat) : Nat :=
  if t.isTransposed then (sizes t.axes).length - d - 1 else d

def Track.size (t : Track) : List Int := t.order (sizes t.axes)

def Track.cell (t : Track) (c : List Int) : List Int :=
  PbAxes.cell t.axes (t.order c)

/-- All of the matrix. -/
def Track.whole (size : List Int) : Track :=
  ⟨size.map (Axis.free 0), false⟩

/-- The position that fixing the `k`-th own axis at `pos` means. -/
def Track.position (t : Track) (k : Nat) (pos : Int) : Int :=
  pos + (offsets t.axes).getD k 0

/-- A box of the view. -/
def Track.box (t : Track) (offset size : List Int) : Track :=
  ⟨restrict t.axes (t.order offset) (t.order size), t.isTransposed⟩

/-- The view with the `k`-th own axis fixed at `q`. -/
def Track.fix (t : Track) (k : Nat) (q : Int) : Track :=
  ⟨PbAxes.fix t.axes k q, t.isTransposed⟩

/-- An operation on axes, with `position` deciding where a slice is. -/
def Track.applyWith (position : Track → Nat → Int → Int) (t : Track) :
    Op → Track
  | .splitRegion offset size => t.box offset size
  | .region c1 c2 => t.box c1 (List.zipWith (· - ·) c2 c1)
  | .sliceRegion d pos | .slice d pos =>
      t.fix (t.storage d) (position t (t.storage d) pos)
  | .transposed => ⟨t.axes, !t.isTransposed⟩

/-- The operation on axes. -/
def Track.apply (t : Track) (op : Op) : Track :=
  t.applyWith Track.position op

/-- The chain on axes. -/
def Track.build (t : Track) (ops : List Op) : Track :=
  ops.foldl Track.apply t

/-- The axes of the array that the view fixes. -/
def Track.fixedAxes (t : Track) : List (Nat × Int) := fixed 0 t.axes

/-- The view has no dimension left, the array has some. -/
def Track.Point (t : Track) : Prop := t.axes ≠ [] ∧ sizes t.axes = []

/-! ## Axes and geometry -/

section Geometry

variable {g : Geometry} {t : Track}

theorem length_order (t : Track) (c : List Int) :
    (t.order c).length = c.length := by
  unfold Track.order
  split <;> simp

theorem length_size (t : Track) : t.size.length = (sizes t.axes).length :=
  length_order t _

theorem order_order (t : Track) (c : List Int) : t.order (t.order c) = c := by
  unfold Track.order
  split <;> simp

/-- The order of a sum. -/
theorem order_zipWith (t : Track) (f : Int → Int → Int) {c d : List Int}
    (h : c.length = d.length) :
    t.order (List.zipWith f c d) = List.zipWith f (t.order c) (t.order d) := by
  unfold Track.order
  split
  · exact List.reverse_zipWith h
  · rfl

private theorem eraseIdx_middle (a b : List Int) (x : Int) :
    (a ++ x :: b).eraseIdx a.length = a ++ b := by
  rw [List.eraseIdx_append_of_length_le (Nat.le_refl _), Nat.sub_self]
  rfl

private theorem insertIdx_middle (a b : List Int) (x : Int) :
    (a ++ b).insertIdx a.length x = a ++ x :: b := by
  induction a with
  | nil => rfl
  | cons y a ih =>
      rw [List.cons_append, List.length_cons, List.insertIdx_succ_cons, ih]
      rfl

/-- Erasing counts from the other end in a reversed list. -/
theorem eraseIdx_reverse {l : List Int} {d : Nat} (h : d < l.length) :
    l.reverse.eraseIdx d = (l.eraseIdx (l.length - d - 1)).reverse := by
  have hk : l.length - d - 1 < l.length := by omega
  have hc : l = l.take (l.length - d - 1) ++
      l[l.length - d - 1] :: l.drop (l.length - d - 1 + 1) := by
    rw [← List.drop_eq_getElem_cons hk, List.take_append_drop]
  generalize ha : l.take (l.length - d - 1) = a at hc
  generalize hb : l.drop (l.length - d - 1 + 1) = b at hc
  generalize l[l.length - d - 1] = x at hc
  have hla : a.length = l.length - d - 1 := by
    rw [← ha, List.length_take]; omega
  have hlb : b.reverse.length = d := by
    rw [← hb, List.length_reverse, List.length_drop]; omega
  rw [← hla, ← hlb, hc, eraseIdx_middle, List.reverse_append,
    List.reverse_append, List.reverse_cons, List.append_assoc]
  exact eraseIdx_middle b.reverse a.reverse x

/-- Inserting counts from the other end in a reversed list. -/
theorem insertIdx_reverse {c : List Int} {d : Nat} (h : d ≤ c.length) (p : Int) :
    (c.insertIdx d p).reverse = c.reverse.insertIdx (c.length - d) p := by
  have hc : c = c.take d ++ c.drop d := (List.take_append_drop d c).symm
  generalize ha : c.take d = a at hc
  generalize hb : c.drop d = b at hc
  have hla : a.length = d := by rw [← ha, List.length_take]; omega
  have hlb : b.reverse.length = c.length - d := by
    rw [← hb, List.length_reverse, List.length_drop]
  rw [← hlb, ← hla, hc, insertIdx_middle, List.reverse_append,
    List.reverse_append, List.reverse_cons, List.append_assoc]
  exact (insertIdx_middle b.reverse a.reverse p).symm

/-! A view of the geometry and a view by its axes are the same view. -/

/-- The axes designate what the geometry says. -/
structure Designates (t : Track) (g : Geometry) : Prop where
  size : t.size = g.size
  cell : ∀ c, c.length = g.size.length → t.cell c = g.cell c

theorem storage_lt {d : Nat} (hd : d < t.size.length) :
    t.storage d < (sizes t.axes).length := by
  rw [length_size] at hd
  unfold Track.storage
  split <;> omega

/-- The size of a view with one axis less. -/
theorem size_fix {d : Nat} (hd : d < t.size.length) (q : Int) :
    (t.fix (t.storage d) q).size = t.size.eraseIdx d := by
  rw [length_size] at hd
  unfold Track.fix Track.size Track.storage Track.order
  simp only [sizes_fix]
  split
  · rw [eraseIdx_reverse hd]
  · rfl

/-- A slice on axes inserts the coordinate of the view's dimension. -/
theorem cell_fix_position {d : Nat} {pos : Int} {c : List Int}
    (hd : d < t.size.length) (hc : c.length + 1 = t.size.length) :
    (t.fix (t.storage d) (t.position (t.storage d) pos)).cell c
      = t.cell (c.insertIdx d pos) := by
  have hk := storage_lt hd
  have hlen := length_offsets t.axes
  have hget : (offsets t.axes)[t.storage d]?
      = some ((offsets t.axes).getD (t.storage d) 0) := by
    rw [List.getD_eq_getElem _ _ (by omega)]
    exact List.getElem?_eq_getElem _
  have hx : (t.order c).length + 1 = (sizes t.axes).length := by
    rw [length_order, ← length_size]; exact hc
  have hcell := cell_fix (x := t.order c) pos hx hget
  show PbAxes.cell (PbAxes.fix t.axes (t.storage d) _) (t.order c) = _
  rw [Track.position, hcell]
  rw [length_size] at hd hc
  unfold Track.cell Track.storage Track.order
  split
  · rw [insertIdx_reverse (by omega), show (sizes t.axes).length - d - 1
      = c.length - d by omega]
  · rfl

theorem cell_box {offset size c : List Int} (ho : offset.length = t.size.length)
    (hs : size.length = t.size.length) (hc : c.length = t.size.length) :
    (t.box offset size).cell c = t.cell (List.zipWith (· + ·) c offset) := by
  rw [length_size] at ho hs hc
  unfold Track.cell
  rw [order_zipWith t _ (by omega)]
  exact cell_restrict (by rw [length_order]; exact hc)
    (by rw [length_order]; exact ho) (by rw [length_order]; exact hs)

theorem size_box {offset size : List Int} (ho : offset.length = t.size.length)
    (hs : size.length = t.size.length) : (t.box offset size).size = size := by
  rw [length_size] at ho hs
  show t.order (sizes (restrict t.axes _ _)) = size
  rw [sizes_restrict (by rw [length_order]; exact ho)
    (by rw [length_order]; exact hs), order_order]

theorem Designates.box (h : Designates t g) {offset size : List Int}
    (ho : offset.length = g.size.length) (hs : size.length = g.size.length) :
    Designates (t.box offset size)
      ⟨size, fun c => g.cell (List.zipWith (· + ·) c offset)⟩ := by
  rw [← h.size] at ho hs
  refine ⟨size_box ho hs, fun c hc => ?_⟩
  rw [cell_box ho hs (hc.trans hs)]
  refine h.cell _ ?_
  rw [List.length_zipWith, ← h.size, ho, hc.trans hs, Nat.min_self]

theorem Designates.fix (h : Designates t g) {d : Nat} (pos : Int)
    (hd : d < g.size.length) :
    Designates (t.fix (t.storage d) (t.position (t.storage d) pos))
      ⟨g.size.eraseIdx d, fun c => g.cell (c.insertIdx d pos)⟩ := by
  rw [← h.size] at hd
  refine ⟨(size_fix hd _).trans (by rw [h.size]), fun c hc => ?_⟩
  have hc' : c.length + 1 = t.size.length := by
    rw [hc, ← h.size]
    show (t.size.eraseIdx d).length + 1 = t.size.length
    rw [List.length_eraseIdx_of_lt hd]
    omega
  rw [cell_fix_position hd hc']
  refine h.cell _ ?_
  rw [List.length_insertIdx_of_le_length (by omega), ← h.size]
  exact hc'

/-- **AXES ARE GEOMETRY**: one operation. -/
theorem Designates.apply (h : Designates t g) {op : Op}
    (hin : ArgsInRange g.size op) : Designates (t.apply op) (g.apply op) := by
  cases op with
  | splitRegion offset size => exact h.box hin.1 hin.2.1
  | region c1 c2 => exact h.box hin.2.1 hin.2.2.1
  | sliceRegion d pos => exact h.fix pos hin.1
  | slice d pos => exact h.fix pos hin.1
  | transposed =>
      have horder : ∀ c, Track.order ⟨t.axes, !t.isTransposed⟩ c
          = t.order c.reverse := fun c => by
        unfold Track.order
        cases t.isTransposed <;> simp
      refine ⟨?_, fun c hc => ?_⟩
      · show Track.order ⟨t.axes, !t.isTransposed⟩ (sizes t.axes)
          = g.size.reverse
        rw [horder, ← h.size, Track.size]
        unfold Track.order
        split <;> simp
      · show PbAxes.cell t.axes (Track.order ⟨t.axes, !t.isTransposed⟩ c)
          = g.cell c.reverse
        rw [horder]
        refine h.cell c.reverse ?_
        rw [List.length_reverse]
        exact hc.trans (List.length_reverse)

/-- **AXES ARE GEOMETRY**: a chain. -/
theorem Designates.build {ops : List Op} (h : Designates t g)
    (hin : InRange g ops) : Designates (t.build ops) (g.build ops) := by
  induction ops generalizing t g with
  | nil => exact h
  | cons op ops ih => exact ih (h.apply hin.1) hin.2

theorem designates_whole (size : List Int) :
    Designates (Track.whole size) (Geometry.whole size) := by
  have hsizes : ∀ l : List Int, sizes (l.map (Axis.free 0)) = l := by
    intro l
    induction l with
    | nil => rfl
    | cons s l ih => rw [List.map_cons, sizes, ih]
  have hcell : ∀ l c : List Int, c.length = l.length →
      PbAxes.cell (l.map (Axis.free 0)) c = c := by
    intro l
    induction l with
    | nil =>
        intro c hc
        exact (List.length_eq_zero_iff.mp hc).symm
    | cons s l ih =>
        intro c hc
        cases c with
        | nil => cases hc
        | cons x c =>
            rw [List.map_cons, PbAxes.cell, ih c (Nat.succ.inj hc), Int.add_zero]
  exact ⟨hsizes size, hcell size⟩

end Geometry

/-! ## The cells are cells of the matrix -/

/-- The view designates cells of the matrix. -/
def Inside (size : List Int) (g : Geometry) : Prop :=
  ∀ c, Contains g.size c → Contains size (g.cell c)

theorem getD_eraseIdx (l : List Int) (d i : Nat) :
    (l.eraseIdx d).getD i 0 = if i < d then l.getD i 0 else l.getD (i + 1) 0 := by
  rw [List.getD_eq_getElem?_getD, List.getElem?_eraseIdx]
  split <;> rw [List.getD_eq_getElem?_getD]

theorem getD_insertIdx {l : List Int} {d : Nat} (hd : d ≤ l.length) (i : Nat)
    (x : Int) : (l.insertIdx d x).getD i 0 =
      if i < d then l.getD i 0 else if i = d then x else l.getD (i - 1) 0 := by
  rw [List.getD_eq_getElem?_getD, List.getElem?_insertIdx]
  split
  · rw [List.getD_eq_getElem?_getD]
  · split
    · rw [if_pos (by omega)]
      rfl
    · rw [List.getD_eq_getElem?_getD]

theorem getD_zipWith_add {l m : List Int} (h : l.length = m.length) (i : Nat) :
    (List.zipWith (· + ·) l m).getD i 0 = l.getD i 0 + m.getD i 0 := by
  simp only [List.getD_eq_getElem?_getD, List.getElem?_zipWith]
  by_cases hi : i < l.length
  · rw [List.getElem?_eq_getElem hi, List.getElem?_eq_getElem (h ▸ hi)]
    rfl
  · rw [List.getElem?_eq_none (by omega), List.getElem?_eq_none (by omega)]
    rfl

/-- A box that lies in the view designates cells of the view. -/
theorem Contains.box {size offset box c : List Int}
    (hb : ContainsBox size offset box) (hc : Contains box c) :
    Contains size (List.zipWith (· + ·) c offset) := by
  obtain ⟨ho, hs, hle⟩ := hb
  obtain ⟨hlen, hrange⟩ := hc
  refine ⟨by rw [List.length_zipWith, hlen, hs, ho, Nat.min_self],
    fun i hi => ?_⟩
  rw [getD_zipWith_add (hlen.trans (hs.trans ho.symm))]
  have h1 := hle i hi
  have h2 := hrange i (by rw [hs]; exact hi)
  omega

/-- A coordinate of a slice is one of the view. -/
theorem Contains.insertIdx {size c : List Int} {d : Nat} {pos : Int}
    (hd : d < size.length) (hpos : 0 ≤ pos ∧ pos < size.getD d 0)
    (hc : Contains (size.eraseIdx d) c) : Contains size (c.insertIdx d pos) := by
  obtain ⟨hlen, hrange⟩ := hc
  rw [List.length_eraseIdx_of_lt hd] at hlen hrange
  refine ⟨?_, fun i hi => ?_⟩
  · rw [List.length_insertIdx_of_le_length (by omega)]
    omega
  · rw [getD_insertIdx (by omega)]
    split
    · have h1 := hrange i (by omega)
      rwa [getD_eraseIdx, if_pos (by omega)] at h1
    · split
      · rename_i heq
        rw [heq]; exact hpos
      · have h1 := hrange (i - 1) (by omega)
        rwa [getD_eraseIdx, if_neg (by omega), show i - 1 + 1 = i by omega] at h1

theorem Contains.reverse {size c : List Int} (hc : Contains size.reverse c) :
    Contains size c.reverse := by
  obtain ⟨hlen, hrange⟩ := hc
  rw [List.length_reverse] at hlen hrange
  refine ⟨by rw [List.length_reverse, hlen], fun i hi => ?_⟩
  have h1 := hrange (size.length - 1 - i) (by omega)
  rw [List.getD_reverse _ (by omega)] at h1
  rw [List.getD_reverse _ (by omega), hlen]
  rwa [show size.length - 1 - (size.length - 1 - i) = i by omega] at h1

theorem Inside.apply {size : List Int} {g : Geometry} {op : Op}
    (h : Inside size g) (hin : ArgsInRange g.size op) :
    Inside size (g.apply op) := by
  intro c hc
  cases op with
  | splitRegion offset box => exact h _ (hc.box hin)
  | region c1 c2 => exact h _ (hc.box hin.2)
  | sliceRegion d pos | slice d pos => exact h _ (hc.insertIdx hin.1 hin.2)
  | transposed => exact h _ hc.reverse

/-- **IN THE MATRIX**: what a chain with arguments in range designates are cells
    of the matrix. -/
theorem designated_inside (size : List Int) (ops : List Op)
    (hin : InRange (Geometry.whole size) ops) :
    Inside size ((Geometry.whole size).build ops) := by
  have hbuild : ∀ (ops : List Op) (g : Geometry), Inside size g →
      InRange g ops → Inside size (g.build ops) := by
    intro ops
    induction ops with
    | nil => intro g h _; exact h
    | cons op ops ih => intro g h hin; exact ih _ (h.apply hin.1) hin.2
  exact hbuild ops _ (fun _ hc => hc) hin

end PbRegionMatrix
