import Mathlib.Algebra.BigOperators.Ring.List
import Mathlib.Algebra.Order.BigOperators.GroupWithZero.List
import PetaBricks.MatrixRegionProofs
import PetaBricks.PartTraversalProofs

/-! # Data hosts — weights count elements

    Of a view without slices, each part weighs as much as the view has elements in it.

    The corners of a view are given in the handler's dimensions, where a slice has the same place
    in both.  Each product of lengths then has a factor of zero, so a view with a slice weighs
    nothing on any host. -/

namespace PbDataHosts

open PbMixedRadix PbAxes PbRegionMatrix PbRegionSplit PbRemoteCache PbLocalRegion
open PbMatrixRegion (doWhile InBox Proper boxList boxSize boxSize_cons boxSize_zeros mem_boxList
  nodup_boxList length_boxList doWhile_box doWhile_unique Positive inBox_zeros proper_zeros
  contains_zeros positive_of_contains contains_iff_inBounds multipliersFrom_nonneg)

variable {H : Type}

/-! ## Claims about data hosts -/

/-- A view of data of this size. -/
structure ViewIn (size : List ℤ) (v : RegionMatrix) : Prop where
  wellFormed : WellFormed v
  handler : v.handlerDimensions = size.length
  sizes_nonneg : ∀ s ∈ v.size, 0 ≤ s
  offsets_nonneg : ∀ o ∈ v.splitOffset, 0 ≤ o
  positions_nonneg : ∀ p ∈ v.sliceInfo.slicePositions, 0 ≤ p
  inside : ∀ c, Contains (seenSize v) c → ∃ cell, accessed v c = some cell ∧ Contains size cell

/-- The coordinates of a view. -/
def coords (v : RegionMatrix) : List (List ℤ) :=
  boxList (List.replicate (seenSize v).length 0) (seenSize v)

/-- The host that holds a cell of the data. -/
def RegionData.hostOf (self : H) : RegionData H → List ℤ → Option H
  | .raw _, _ => some self
  | .split d, cell => partHost d cell

/-- The host that holds an element of a view. -/
def elementHost (self : H) (data : RegionData H) (v : RegionMatrix) (c : List ℤ) : Option H :=
  (accessed v c).bind (data.hostOf self)

/-- What the items of a host weigh. -/
def hostWeight [DecidableEq H] (list : List (DataHostPidListItem H)) (h : H) : ℤ :=
  (list.map fun item => if item.hostPid = h then item.weight else 0).sum

/-- **WEIGHTS AND ELEMENTS** of a view. -/
structure Accounts [DecidableEq H] (here : H) (data : RegionData H) (v : RegionMatrix)
    (list : List (DataHostPidListItem H)) : Prop where
  total : (list.map DataHostPidListItem.weight).sum = (coords v).length
  host : ∀ h, hostWeight list h =
    (coords v).countP fun c => decide (elementHost here data v c = some h)
  positive : ∀ h, ∀ c ∈ coords v, elementHost here data v c = some h → 0 < hostWeight list h
  nonneg : ∀ item ∈ list, 0 ≤ item.weight

/-- The part that the traversal of an empty view comes to last exists. -/
def PartExists (v : RegionMatrix) : RegionData H → Prop
  | .raw _ => True
  | .split d => ∀ begins ends, regionDataCoord v (List.replicate v.D 0) = some begins →
      regionDataCoord v (seenSize v) = some ends →
        (coordToPart d.dims (lastCorner begins ends)).1 < numParts d.dims

/-- A view with elements has no slices, and the traversal of one without stays among the parts. -/
def Counted (v : RegionMatrix) (data : RegionData H) : Prop :=
  (Positive v.size → v.D = v.handlerDimensions) ∧ (¬ Positive v.size → PartExists v data)

/-! ## Corners of axes -/

def axisBegins (as : List Axis) : List ℤ := PbAxes.cell as (List.replicate (sizes as).length 0)

def axisEnds (as : List Axis) : List ℤ := PbAxes.cell as (sizes as)

/-- Some dimension has no length. -/
inductive Flat : List ℤ → List ℤ → Prop
  | here (b : ℤ) (bs es : List ℤ) : Flat (b :: bs) (b :: es)
  | there (b e : ℤ) {bs es : List ℤ} (h : Flat bs es) : Flat (b :: bs) (e :: es)

section Axes

variable {as : List Axis}

theorem flat_of_fixed {k : ℕ} (h : fixed k as ≠ []) : Flat (axisBegins as) (axisEnds as) := by
  induction as generalizing k with
  | nil => exact absurd rfl h
  | cons a as ih =>
      cases a with
      | fixed p => exact .here p _ _
      | free o n => exact .there (0 + o) (n + o) (ih h)

theorem flat_of_empty (hs : ∀ s ∈ sizes as, 0 ≤ s) (h : ¬ Positive (sizes as)) :
    Flat (axisBegins as) (axisEnds as) := by
  induction as with
  | nil => exact absurd (fun s hs => absurd hs List.not_mem_nil) h
  | cons a as ih =>
      cases a with
      | fixed p => exact .here p _ _
      | free o n =>
          rcases eq_or_lt_of_le (hs n List.mem_cons_self) with rfl | hn
          · exact .here (0 + o) _ _
          · refine .there (0 + o) (n + o) (ih (fun s hs' => hs s (List.mem_cons_of_mem n hs')) ?_)
            exact fun hpos => h (List.forall_mem_cons.mpr ⟨hn, hpos⟩)

theorem ordered_axes (hs : ∀ s ∈ sizes as, 0 ≤ s) (ho : ∀ o ∈ offsets as, 0 ≤ o) {k : ℕ}
    (hp : ∀ p ∈ fixed k as, 0 ≤ p.2) :
    List.Forall₂ (fun b e => 0 ≤ b ∧ b ≤ e) (axisBegins as) (axisEnds as) := by
  induction as generalizing k with
  | nil => exact .nil
  | cons a as ih =>
      cases a with
      | fixed p =>
          exact .cons ⟨hp _ List.mem_cons_self, le_rfl⟩
            (ih hs ho fun q hq => hp q (List.mem_cons_of_mem _ hq))
      | free o n =>
          have hn := hs n List.mem_cons_self
          have ho' := ho o List.mem_cons_self
          exact .cons ⟨by omega, by omega⟩ (ih (fun s h => hs s (List.mem_cons_of_mem _ h))
            (fun s h => ho s (List.mem_cons_of_mem _ h)) hp)

/-- Without fixed axes, the cells are a box. -/
theorem inBox_axes {k : ℕ} (h : fixed k as = []) {y : List ℤ} :
    InBox (axisBegins as) (axisEnds as) y ↔
      ∃ x, InBox (List.replicate (sizes as).length 0) (sizes as) x ∧ PbAxes.cell as x = y := by
  induction as generalizing k y with
  | nil =>
      constructor
      · intro hy
        cases hy
        exact ⟨[], .nil, rfl⟩
      · rintro ⟨x, hx, rfl⟩
        cases hx
        exact .nil
  | cons a as ih =>
      cases a with
      | fixed p => cases h
      | free o n =>
          constructor
          · intro hy
            cases hy with
            | @cons _ _ y _ _ ys hy hys =>
                obtain ⟨x, hx, rfl⟩ := (ih h).mp hys
                refine ⟨(y - o) :: x, .cons ⟨by omega, by omega⟩ hx, ?_⟩
                exact congrArg (· :: PbAxes.cell as x) (Int.sub_add_cancel y o)
          · rintro ⟨x, hx, rfl⟩
            cases hx with
            | cons hx hxs => exact .cons ⟨by omega, by omega⟩ ((ih h).mpr ⟨_, hxs, rfl⟩)

theorem cell_inj {x x' : List ℤ} (hx : x.length = (sizes as).length)
    (hx' : x'.length = (sizes as).length) (h : PbAxes.cell as x = PbAxes.cell as x') : x = x' := by
  induction as generalizing x x' with
  | nil => rw [List.length_eq_zero_iff.mp hx, List.length_eq_zero_iff.mp hx']
  | cons a as ih =>
      cases a with
      | fixed p => exact ih hx hx' (List.cons.inj h).2
      | free o n =>
          cases x with
          | nil => cases hx
          | cons y x =>
              cases x' with
              | nil => cases hx'
              | cons y' x' =>
                  obtain ⟨hy, hrest⟩ := List.cons.inj h
                  rw [add_right_cancel hy, ih (Nat.succ.inj hx) (Nat.succ.inj hx') hrest]

end Axes

/-! ## Coordinates of a view -/

section View

variable {size : List ℤ} {v : RegionMatrix} {t : Track}

theorem positive_reverse {size : List ℤ} : Positive size.reverse ↔ Positive size := by
  simp only [Positive, List.mem_reverse]

theorem positive_seenSize : Positive (seenSize v) ↔ Positive v.size := by
  rw [seenSize]
  split
  · exact positive_reverse
  · rfl

theorem length_seenSize (v : RegionMatrix) : (seenSize v).length = v.D := by
  rw [seenSize, RegionMatrix.D]
  split
  · exact List.length_reverse
  · rfl

theorem mem_coords (h : Positive v.size) {c : List ℤ} : c ∈ coords v ↔ Contains (seenSize v) c := by
  rw [coords, mem_boxList (proper_zeros.mpr (positive_seenSize.mpr h)), inBox_zeros]

theorem nodup_coords (h : Positive v.size) : (coords v).Nodup :=
  nodup_boxList (proper_zeros.mpr (positive_seenSize.mpr h))

theorem coords_ne_nil (h : Positive v.size) : coords v ≠ [] := by
  have hzeros := contains_zeros.mpr (positive_seenSize.mpr h)
  exact List.ne_nil_of_mem ((mem_coords h).mpr hzeros)

theorem coords_nil (hs : ∀ s ∈ v.size, 0 ≤ s) (h : ¬ Positive v.size) : coords v = [] := by
  have hmem : (0 : ℤ) ∈ seenSize v := by
    by_contra hzero
    refine h (positive_seenSize.mp fun s hs' => ?_)
    have hs₀ : 0 ≤ s := by
      refine hs s ?_
      rw [seenSize] at hs'
      split at hs'
      · exact List.mem_reverse.mp hs'
      · exact hs'
    exact lt_of_le_of_ne hs₀ fun heq => hzero (heq ▸ hs')
  rw [coords, boxList, boxSize_zeros, List.prod_eq_zero hmem]
  rfl

theorem order_eq (h : Stores v t) : t.order (seenSize v) = sizes t.axes := by
  by_cases hnil : t.axes = []
  · have hempty : seenSize v = [] := by
      have hsize := h.size
      rw [hnil] at hsize
      rw [seenSize, hsize]
      split <;> rfl
    rw [hempty, hnil, Track.order]
    split <;> rfl
  · rw [seenSize, (h.flags hnil).1, h.size, Track.order]
    split
    · exact List.reverse_reverse _
    · rfl

/-- The corners of a view are those of its axes. -/
theorem corners_eq (h : Stores v t) (hnone : v.sourceInfo = none) :
    regionDataCoord v (List.replicate v.D 0) = some (axisBegins t.axes) ∧
      regionDataCoord v (seenSize v) = some (axisEnds t.axes) := by
  have hcoord : ∀ c : List ℤ, c.length = v.D → regionDataCoord v c = some (t.cell c) := by
    intro c hc
    have hacc := h.accessed hc
    rwa [PbRegionMatrix.accessed, hnone] at hacc
  have hD : v.D = (sizes t.axes).length := by rw [RegionMatrix.D, h.size]
  refine ⟨?_, ?_⟩
  · rw [hcoord _ List.length_replicate, Track.cell, Track.order, List.reverse_replicate, ite_self,
      hD]
    rfl
  · rw [hcoord _ (length_seenSize v), Track.cell, axisEnds, order_eq h]

theorem contains_order (h : Stores v t) {c : List ℤ} :
    Contains (seenSize v) c ↔ Contains (sizes t.axes) (t.order c) := by
  have horder := order_eq h
  rw [Track.order] at horder ⊢
  split at horder
  · rename_i htr
    rw [if_pos htr, ← horder]
    constructor
    · intro hc
      exact Contains.reverse (by rwa [List.reverse_reverse])
    · intro hc
      have hrev := hc.reverse
      rwa [List.reverse_reverse] at hrev
  · rename_i htr
    rw [if_neg htr, horder]

/-- **THE CELLS OF A VIEW** without slices are a box of the data. -/
theorem perm_cells (h : Stores v t) (hfixed : fixed 0 t.axes = []) (hpos : Positive v.size) :
    Proper (axisBegins t.axes) (axisEnds t.axes) ∧
      ((coords v).map t.cell).Perm (boxList (axisBegins t.axes) (axisEnds t.axes)) := by
  have hmem : ∀ y, InBox (axisBegins t.axes) (axisEnds t.axes) y ↔
      ∃ c, Contains (seenSize v) c ∧ t.cell c = y := by
    intro y
    rw [inBox_axes hfixed]
    constructor
    · rintro ⟨x, hx, rfl⟩
      refine ⟨t.order x, (contains_order h).mpr ?_, ?_⟩
      · rw [order_order]
        exact inBox_zeros.mp hx
      · rw [Track.cell, order_order]
    · rintro ⟨c, hc, rfl⟩
      exact ⟨t.order c, inBox_zeros.mpr ((contains_order h).mp hc), rfl⟩
  have hproper : Proper (axisBegins t.axes) (axisEnds t.axes) := by
    have hzeros := contains_zeros.mpr (positive_seenSize.mpr hpos)
    exact ((hmem _).mpr ⟨_, hzeros, rfl⟩).proper
  refine ⟨hproper, (List.perm_ext_iff_of_nodup ?_ (nodup_boxList hproper)).mpr fun y => ?_⟩
  · refine List.Nodup.map_on (fun c hc c' hc' heq => ?_) (nodup_coords hpos)
    have hlen := ((contains_order h).mp ((mem_coords hpos).mp hc)).1
    have hlen' := ((contains_order h).mp ((mem_coords hpos).mp hc')).1
    have hcell := cell_inj hlen hlen' heq
    rw [← order_order t c, hcell, order_order]
  · rw [mem_boxList hproper, hmem, List.mem_map]
    simp only [mem_coords hpos]

end View

/-! ## What is pushed -/

theorem exists_of_forall₂ {α β : Type} {R : α → β → Prop} {as : List α} {bs : List β}
    (h : List.Forall₂ R as bs) {a : α} (ha : a ∈ as) : ∃ b ∈ bs, R a b := by
  induction h with
  | nil => exact absurd ha List.not_mem_nil
  | @cons a' b as bs hb _ ih =>
      rcases List.mem_cons.mp ha with rfl | ha
      · exact ⟨b, List.mem_cons_self, hb⟩
      · obtain ⟨b', hmem, hb'⟩ := ih ha
        exact ⟨b', List.mem_cons_of_mem b hmem, hb'⟩

section Items

variable {d : RegionDataSplit H} {bs es : List ℤ}

theorem items_some {cs : List (List ℤ)} {list : List (DataHostPidListItem H)}
    (h : items d bs es cs = some list) :
    List.Forall₂ (fun c item => partHost d c = some item.hostPid ∧
      item.weight = partCount d.dims bs es c) cs list := by
  induction cs generalizing list with
  | nil =>
      obtain rfl := Option.some.inj h
      exact .nil
  | cons c cs ih =>
      obtain ⟨host, hhost, h⟩ := Option.bind_eq_some_iff.mp h
      obtain ⟨rest, hrest, h⟩ := Option.bind_eq_some_iff.mp h
      obtain rfl := Option.some.inj h
      exact .cons ⟨hhost, rfl⟩ (ih hrest)

theorem items_exists {cs : List (List ℤ)} :
    (∃ list, items d bs es cs = some list) ↔ ∀ c ∈ cs, ∃ host, partHost d c = some host := by
  constructor
  · rintro ⟨list, hlist⟩ c hc
    obtain ⟨item, _, hitem⟩ := exists_of_forall₂ (items_some hlist) hc
    exact ⟨item.hostPid, hitem.1⟩
  · intro h
    induction cs with
    | nil => exact ⟨[], rfl⟩
    | cons c cs ih =>
        obtain ⟨host, hhost⟩ := h c List.mem_cons_self
        obtain ⟨rest, hrest⟩ := ih fun c' hc' => h c' (List.mem_cons_of_mem c hc')
        exact ⟨⟨host, partCount d.dims bs es c⟩ :: rest, by rw [items, hhost, hrest]; rfl⟩

/-- Nothing of a flat box is in a part. -/
theorem partCount_flat {dims : List SplitDim} {qs : List ℤ} (h : Corners dims bs es)
    (hflat : Flat bs es) (hq : InBox (firstParts dims bs) (stopParts dims bs es) qs) :
    partCount dims bs es (scale dims qs) = 0 := by
  induction h generalizing qs with
  | nil => cases hflat
  | @cons d b e dims bs es hb h ih =>
      rw [firstParts_cons, stopParts_cons] at hq
      cases hq with
      | cons hx hq =>
          rw [scale_cons, partCount]
          cases hflat with
          | here => rw [dim_piece_empty d hb.1 hx, zero_mul]
          | there _ _ hflat => rw [ih hflat hq, mul_zero]

/-- The host of a cell is that of its part. -/
theorem partHost_eq {c c' : List ℤ} (h : quotients d.dims c = quotients d.dims c') :
    partHost d c = partHost d c' := by
  rw [partHost, partHost, coordToPart, coordToPart, h]

theorem hostWeight_cons [DecidableEq H] (item : DataHostPidListItem H) (list : List (DataHostPidListItem H))
    (h : H) : hostWeight (item :: list) h =
      (if item.hostPid = h then item.weight else 0) + hostWeight list h := by
  rw [hostWeight, List.map_cons, List.sum_cons, hostWeight]

theorem countP_const [DecidableEq H] {α : Type} {l : List α} {f : α → Option H} {x : H}
    (h : ∀ a ∈ l, f a = some x) (y : H) :
    ((l.countP fun a => decide (f a = some y) : ℕ) : ℤ) = if x = y then (l.length : ℤ) else 0 := by
  split
  · rename_i heq
    rw [List.countP_eq_length.mpr fun a ha => by rw [h a ha, heq, decide_eq_true rfl]]
  · rename_i hne
    rw [List.countP_eq_zero.mpr fun a ha => by
      rw [h a ha]
      exact fun htrue => hne (Option.some.inj (of_decide_eq_true htrue))]
    rfl

/-- **THE PIECES WEIGH** what they have, each on the host of its part. -/
theorem weigh_pieces [DecidableEq H] (h : Corners d.dims bs es) (hproper : Proper bs es) {qss : List (List ℤ)}
    (hq : ∀ qs ∈ qss, InBox (firstParts d.dims bs) (stopParts d.dims bs es) qs)
    {list : List (DataHostPidListItem H)}
    (hlist : List.Forall₂ (fun c item => partHost d c = some item.hostPid ∧
      item.weight = partCount d.dims bs es c) (qss.map (scale d.dims)) list) :
    (list.map DataHostPidListItem.weight).sum =
        (qss.flatMap fun qs => boxList (pieceBegins d.dims bs qs) (pieceEnds d.dims es qs)).length ∧
      (∀ host, hostWeight list host =
        (qss.flatMap fun qs =>
          boxList (pieceBegins d.dims bs qs) (pieceEnds d.dims es qs)).countP fun c =>
            decide (partHost d c = some host)) ∧
      ∀ item ∈ list, 0 ≤ item.weight := by
  induction qss generalizing list with
  | nil =>
      cases hlist
      exact ⟨rfl, fun _ => rfl, fun item hitem => absurd hitem List.not_mem_nil⟩
  | cons qs qss ih =>
      cases hlist with
      | @cons _ item _ list hitem hlist =>
          have hqs := hq qs List.mem_cons_self
          obtain ⟨htotal, hhost, hnonneg⟩ :=
            ih (fun qs' h => hq qs' (List.mem_cons_of_mem qs h)) hlist
          have hpiece := piece_proper h hproper hqs
          have hweight : item.weight =
              (boxList (pieceBegins d.dims bs qs) (pieceEnds d.dims es qs)).length := by
            rw [hitem.2, partCount_eq h hqs, length_boxList hpiece]
          -- all cells of the piece are on the host of the part
          have hcells : ∀ c ∈ boxList (pieceBegins d.dims bs qs) (pieceEnds d.dims es qs),
              partHost d c = some item.hostPid := by
            intro c hc
            have hquotients := (of_mem_piece h hqs ((mem_boxList hpiece).mp hc)).2
            rw [← hitem.1]
            exact partHost_eq (hquotients.trans (quotients_scale (h.length_parts hqs)).symm)
          refine ⟨?_, fun host => ?_, fun i hi => ?_⟩
          · rw [List.map_cons, List.sum_cons, htotal, hweight, List.flatMap_cons,
              List.length_append, Nat.cast_add]
          · rw [hostWeight_cons, hhost, List.flatMap_cons, List.countP_append, Nat.cast_add]
            rw [countP_const hcells, hweight]
          · rcases List.mem_cons.mp hi with rfl | hi
            · rw [hweight]
              exact Int.natCast_nonneg _
            · exact hnonneg i hi

/-- The items of a flat box weigh nothing. -/
theorem weigh_flat (h : Corners d.dims bs es) (hflat : Flat bs es)
    {list : List (DataHostPidListItem H)}
    (hlist : List.Forall₂ (fun c item => partHost d c = some item.hostPid ∧
      item.weight = partCount d.dims bs es c)
      ((boxList (firstParts d.dims bs) (stopParts d.dims bs es)).map (scale d.dims)) list) :
    ∀ item ∈ list, item.weight = 0 := by
  intro item hitem
  obtain ⟨c, hc, hweight⟩ := exists_of_forall₂ hlist.flip hitem
  obtain ⟨qs, hqs, rfl⟩ := List.mem_map.mp hc
  rw [hweight.2, partCount_flat h hflat ((mem_boxList h.proper).mp hqs)]

theorem corners_of_ordered {dims : List SplitDim}
    (h : List.Forall₂ (fun b e => 0 ≤ b ∧ b ≤ e) bs es) (hlen : bs.length = dims.length) :
    Corners dims bs es := by
  induction h generalizing dims with
  | nil =>
      rw [List.length_eq_zero_iff.mp hlen.symm]
      exact .nil
  | cons hb _ ih =>
      cases dims with
      | nil => cases hlen
      | cons d dims => exact .cons hb (ih (Nat.succ.inj hlen))

theorem newBegin_eq (h : Corners d.dims bs es) :
    newBegin d bs = scale d.dims (firstParts d.dims bs) := by
  rw [newBegin]
  generalize d.dims = dims at h
  induction h with
  | nil => rfl
  | @cons d b e dims bs es hb h ih =>
      rw [firstParts_cons, scale_cons, List.zipWith_cons_cons, ih]
      have hsum := Int.tmod_add_mul_tdiv b d.splitSize
      exact congrArg (· :: scale dims (firstParts dims bs)) (by omega)

/-- The items of a box are those of its parts. -/
theorem splitHosts_some (h : Corners d.dims bs es) {list : List (DataHostPidListItem H)} :
    (∃ n, splitHosts d bs es n = some list) ↔
      items d bs es ((boxList (firstParts d.dims bs) (stopParts d.dims bs es)).map
        (scale d.dims)) = some list := by
  have hlen : ¬ (bs.length < d.dims.length ∨ es.length < d.dims.length) := by
    generalize d.dims = dims at h
    induction h with
    | nil => exact fun hlt => hlt.elim (Nat.not_lt_zero _) (Nat.not_lt_zero _)
    | cons _ _ ih =>
        rw [List.length_cons, List.length_cons, List.length_cons, Nat.succ_lt_succ_iff,
          Nat.succ_lt_succ_iff]
        exact ih
  have hrun : ∀ n, splitHosts d bs es n =
      ((doWhile (PbMatrixRegion.incCoordWithBound (firstParts d.dims bs)
        (stopParts d.dims bs es)) n (firstParts d.dims bs)).map
          (List.map (scale d.dims))).bind (items d bs es) := by
    intro n
    rw [splitHosts, if_neg hlen, newBegin_eq h, doWhile_parts h d.dims_ne h.proper.inBox.1]
  obtain ⟨k, hk⟩ := doWhile_box h.proper
  constructor
  · rintro ⟨n, hn⟩
    rw [hrun] at hn
    obtain ⟨cs, hcs, hitems⟩ := Option.bind_eq_some_iff.mp hn
    obtain ⟨qss, hqss, rfl⟩ := Option.map_eq_some_iff.mp hcs
    rwa [doWhile_unique hqss hk] at hitems
  · intro hitems
    exact ⟨k, by rw [hrun, hk, Option.map_some, Option.bind_some, hitems]⟩

/-- The index of a part is no larger than that of the last one. -/
theorem encode_parts {dims : List SplitDim} {qs : List ℤ} (h : Corners dims bs es)
    (hq : InBox (firstParts dims bs) (stopParts dims bs es) qs) :
    0 ≤ encode (partsSize dims) qs ∧
      encode (partsSize dims) qs ≤
        encode (partsSize dims) (quotients dims (lastCorner bs es)) := by
  induction h generalizing qs with
  | nil =>
      cases hq
      exact ⟨le_rfl, le_rfl⟩
  | @cons d b e dims bs es hb h ih =>
      rw [firstParts_cons, stopParts_cons] at hq
      cases hq with
      | @cons _ _ q _ _ qs hx hq =>
          obtain ⟨hlo, hhi⟩ := ih hq
          have hsize := d.partsSize_nonneg
          have hfirst : 0 ≤ b.tdiv d.splitSize :=
            Int.tdiv_nonneg hb.1 (d.splitSize_pos.trans' Int.one_nonneg)
          have hmul := Int.mul_le_mul_of_nonneg_left hhi hsize
          have hmul₀ := mul_nonneg hsize hlo
          show 0 ≤ q + d.partsSize * encode (partsSize dims) qs ∧
            q + d.partsSize * encode (partsSize dims) qs ≤
              (max b (e - 1)).tdiv d.splitSize +
                d.partsSize * encode (partsSize dims) (quotients dims (lastCorner bs es))
          constructor <;> omega

/-- All parts of a box exist when the last one does. -/
theorem parts_exist_iff (h : Corners d.dims bs es) :
    (∀ c ∈ (boxList (firstParts d.dims bs) (stopParts d.dims bs es)).map (scale d.dims),
        ∃ host, partHost d c = some host) ↔
      (coordToPart d.dims (lastCorner bs es)).1 < numParts d.dims := by
  have hlast : InBox (firstParts d.dims bs) (stopParts d.dims bs es)
      (quotients d.dims (lastCorner bs es)) := by
    generalize d.dims = dims at h
    induction h with
    | nil => exact .nil
    | @cons d b e dims bs es hb h ih =>
        have hproper := (Corners.cons (d := d) hb h).proper
        rw [firstParts_cons, stopParts_cons] at hproper
        cases hproper with
        | cons hlt _ => exact .cons ⟨Int.le_of_lt_add_one hlt, Int.lt_succ _⟩ ih
  have hhost : ∀ qs, InBox (firstParts d.dims bs) (stopParts d.dims bs es) qs →
      ((∃ host, partHost d (scale d.dims qs) = some host) ↔
        encode (partsSize d.dims) qs < numParts d.dims) := by
    intro qs hqs
    have hindex : (coordToPart d.dims (scale d.dims qs)).1 = encode (partsSize d.dims) qs := by
      rw [fst_coordToPart, quotients_scale (h.length_parts hqs)]
    rw [partHost, hindex]
    constructor
    · rintro ⟨host, hget⟩
      by_contra hout
      rw [PbScatter.get_eq_none (by rw [d.length_parts]; exact fun hin => hout hin.2)] at hget
      cases hget
    · intro hlt
      exact PbScatter.get_eq_some ⟨(encode_parts h hqs).1, by rw [d.length_parts]; exact hlt⟩
  rw [fst_coordToPart]
  constructor
  · intro hall
    exact (hhost _ hlast).mp (hall _ (List.mem_map_of_mem ((mem_boxList h.proper).mpr hlast)))
  · intro hlt c hc
    obtain ⟨qs, hqs, rfl⟩ := List.mem_map.mp hc
    have hin := (mem_boxList h.proper).mp hqs
    exact (hhost qs hin).mpr ((encode_parts h hin).2.trans_lt hlt)

end Items

/-! ## When weights are right -/

section Main

variable {self : H} {data : RegionData H} {v : RegionMatrix} {t : Track}
  {list : List (DataHostPidListItem H)}

theorem accounts_of [DecidableEq H] (htotal : (list.map DataHostPidListItem.weight).sum = (coords v).length)
    (hhost : ∀ h, hostWeight list h =
      (coords v).countP fun c => decide (elementHost self data v c = some h))
    (hnonneg : ∀ item ∈ list, 0 ≤ item.weight) : Accounts self data v list := by
  refine ⟨htotal, hhost, fun h c hc hheld => ?_, hnonneg⟩
  rw [hhost h]
  exact Int.natCast_pos.mpr (List.countP_pos_iff.mpr ⟨c, hc, decide_eq_true hheld⟩)

/-- Weights of nothing are right for a view without elements. -/
theorem accounts_zero [DecidableEq H] (hzero : ∀ item ∈ list, item.weight = 0) :
    Accounts self data v list ↔ coords v = [] := by
  have hsum : (list.map DataHostPidListItem.weight).sum = 0 := by
    refine List.sum_eq_zero fun w hw => ?_
    obtain ⟨item, hitem, rfl⟩ := List.mem_map.mp hw
    exact hzero item hitem
  constructor
  · intro h
    have htotal := h.total
    rw [hsum] at htotal
    exact List.length_eq_zero_iff.mp (by omega)
  · intro hnil
    refine accounts_of (by rw [hsum, hnil]; rfl) (fun h => ?_) fun item hitem =>
      (hzero item hitem).ge
    rw [hnil]
    refine List.sum_eq_zero fun w hw => ?_
    obtain ⟨item, hitem, rfl⟩ := List.mem_map.mp hw
    rw [hzero item hitem, ite_self]

theorem ViewIn.axes {size : List ℤ} (h : ViewIn size v) (hD : v.D ≠ 0) :
    ∃ t, Stores v t ∧ v.sourceInfo = none := by
  cases hsrc : v.sourceInfo with
  | none =>
      obtain ⟨as, hst⟩ := (h.wellFormed.sliced hsrc).stores hsrc
      exact ⟨_, hst, rfl⟩
  | some s =>
      refine absurd ?_ hD
      rw [RegionMatrix.D, (h.wellFormed.source s hsrc).1]
      rfl

theorem ViewIn.ordered {size : List ℤ} (h : ViewIn size v) (hst : Stores v t) :
    List.Forall₂ (fun b e => 0 ≤ b ∧ b ≤ e) (axisBegins t.axes) (axisEnds t.axes) := by
  refine ordered_axes (hst.size ▸ h.sizes_nonneg) (hst.splitOffset ▸ h.offsets_nonneg)
    (k := 0) fun q hq => h.positions_nonneg q.2 ?_
  rw [hst.sliceInfo]
  exact List.mem_map_of_mem hq

theorem length_cell (as : List Axis) (x : List ℤ) : (PbAxes.cell as x).length = as.length := by
  induction as generalizing x with
  | nil => rfl
  | cons a as ih =>
      cases a with
      | fixed p => exact congrArg Nat.succ (ih x)
      | free o n =>
          cases x with
          | nil => exact congrArg Nat.succ (ih [])
          | cons y x => exact congrArg Nat.succ (ih x)

theorem ViewIn.length_axes {size : List ℤ} (h : ViewIn size v) (hst : Stores v t) :
    (axisBegins t.axes).length = size.length ∧ (axisEnds t.axes).length = size.length := by
  rw [axisBegins, axisEnds, length_cell, length_cell, ← hst.handler, h.handler]
  exact ⟨rfl, rfl⟩

/-- What a view with dimensions pushes. -/
theorem dataHosts_eq (hst : Stores v t) (hnone : v.sourceInfo = none) (hD : v.D ≠ 0) (n : ℕ) :
    dataHosts false self data v n =
      data.hosts self (axisBegins t.axes) (axisEnds t.axes) n := by
  obtain ⟨hbegins, hends⟩ := corners_eq hst hnone
  rw [dataHosts, if_neg Bool.false_ne_true, if_neg hD, hbegins, hends]
  rfl

theorem rawHosts_eq (self : H) {size bs es : List ℤ} (hb : bs.length = size.length)
    (he : es.length = size.length) : rawHosts self size bs es = some [⟨self, boxSize bs es⟩] := by
  have hlen : (List.zipWith (· - ·) es bs).length ≤ size.length := by
    rw [List.length_zipWith]
    omega
  rw [rawHosts, if_neg (by omega), List.take_of_length_le hlen]
  rfl

theorem boxSize_flat {bs es : List ℤ} (h : Flat bs es) : boxSize bs es = 0 := by
  induction h with
  | here b bs es => rw [boxSize_cons, sub_self, zero_mul]
  | there b e _ ih => rw [boxSize_cons, ih, mul_zero]

/-- A view with a slice, or without an element, weighs nothing. -/
theorem weighs_nothing (h : ViewIn data.size v) (hst : Stores v t) (hnone : v.sourceInfo = none)
    (hD : v.D ≠ 0) (hflat : Flat (axisBegins t.axes) (axisEnds t.axes)) {n : ℕ}
    (hlist : dataHosts false self data v n = some list) : ∀ item ∈ list, item.weight = 0 := by
  rw [dataHosts_eq hst hnone hD] at hlist
  obtain ⟨hb, he⟩ := h.length_axes hst
  cases data with
  | raw size =>
      have hraw : rawHosts self size (axisBegins t.axes) (axisEnds t.axes) = some list := hlist
      have heq : rawHosts self size (axisBegins t.axes) (axisEnds t.axes) = _ :=
        rawHosts_eq self hb he
      rw [heq, boxSize_flat hflat] at hraw
      obtain rfl := Option.some.inj hraw
      intro item hitem
      rw [List.mem_singleton.mp hitem]
  | split d =>
      have hcorners : Corners d.dims (axisBegins t.axes) (axisEnds t.axes) :=
        corners_of_ordered (h.ordered hst) (hb.trans (List.length_map SplitDim.size))
      exact weigh_flat hcorners hflat
        (items_some ((splitHosts_some hcorners).mp ⟨n, hlist⟩))

/-- **RAW DATA**: the weight is the number of elements. -/
theorem accounts_raw [DecidableEq H] {size : List ℤ} (h : ViewIn size v) (hst : Stores v t)
    (hfixed : fixed 0 t.axes = []) (hpos : Positive v.size) :
    Accounts self (.raw size) v [⟨self, boxSize (axisBegins t.axes) (axisEnds t.axes)⟩] := by
  obtain ⟨hproper, hperm⟩ := perm_cells hst hfixed hpos
  have hlen : ((coords v).length : ℤ) = boxSize (axisBegins t.axes) (axisEnds t.axes) := by
    rw [← length_boxList hproper, ← hperm.length_eq, List.length_map]
  have hheld : ∀ c ∈ coords v, elementHost self (.raw size) v c = some self := by
    intro c hc
    obtain ⟨cell, hcell, _⟩ := h.inside c ((mem_coords hpos).mp hc)
    rw [elementHost, hcell]
    rfl
  refine accounts_of ?_ (fun host => ?_) fun item hitem => ?_
  · rw [hlen]
    exact List.sum_singleton
  · rw [countP_const hheld, hlen, hostWeight]
    exact List.sum_singleton
  · rw [List.mem_singleton.mp hitem]
    exact hproper.boxSize_pos.le

/-- Every part of a box of the data exists. -/
theorem parts_exist {d : RegionDataSplit H} {bs es : List ℤ} (h : Corners d.dims bs es)
    (hproper : Proper bs es)
    (hin : ∀ c, InBox bs es c → InBounds (PbRegionSplit.sizeOf d.dims) c) :
    ∀ c ∈ (boxList (firstParts d.dims bs) (stopParts d.dims bs es)).map (scale d.dims),
      ∃ host, partHost d c = some host := by
  intro c hc
  obtain ⟨qs, hqs, rfl⟩ := List.mem_map.mp hc
  have hq := (mem_boxList h.proper).mp hqs
  -- the first cell of the piece is one of the part
  have hpiece := (piece_proper h hproper hq).inBox.1
  obtain ⟨hbox, hquotients⟩ := of_mem_piece h hq hpiece
  have hbounds := encode_bounds (within_quotients (hin _ hbox))
  rw [hquotients] at hbounds
  rw [partHost, fst_coordToPart, quotients_scale (h.length_parts hq)]
  exact PbScatter.get_eq_some (by rw [d.length_parts]; exact hbounds)

/-- **SPLIT DATA**: the weight of a part is the number of elements in it. -/
theorem accounts_split [DecidableEq H] {d : RegionDataSplit H} (h : ViewIn (PbRegionSplit.sizeOf d.dims) v)
    (hst : Stores v t) (hfixed : fixed 0 t.axes = []) (hpos : Positive v.size) :
    ∃ n list, splitHosts d (axisBegins t.axes) (axisEnds t.axes) n = some list ∧
      Accounts self (.split d) v list := by
  obtain ⟨hproper, hperm⟩ := perm_cells hst hfixed hpos
  have hcorners : Corners d.dims (axisBegins t.axes) (axisEnds t.axes) :=
    corners_of_ordered (h.ordered hst) ((h.length_axes hst).1.trans (List.length_map _))
  have hcell : ∀ c ∈ coords v, accessed v c = some (t.cell c) := by
    intro c hc
    refine hst.accessed ?_
    rw [((mem_coords hpos).mp hc).1, length_seenSize]
  have hin : ∀ y, InBox (axisBegins t.axes) (axisEnds t.axes) y →
      InBounds (PbRegionSplit.sizeOf d.dims) y := by
    intro y hy
    obtain ⟨c, hc, rfl⟩ := List.mem_map.mp (hperm.mem_iff.mpr ((mem_boxList hproper).mpr hy))
    obtain ⟨cell, hacc, hcontains⟩ := h.inside c ((mem_coords hpos).mp hc)
    rw [hcell c hc, Option.some_inj] at hacc
    rw [hacc]
    exact contains_iff_inBounds.mp hcontains
  obtain ⟨list, hlist⟩ := items_exists.mpr (parts_exist hcorners hproper hin)
  obtain ⟨n, hn⟩ := (splitHosts_some hcorners).mpr hlist
  obtain ⟨htotal, hhost, hnonneg⟩ := weigh_pieces hcorners hproper
    (fun qs hqs => (mem_boxList hcorners.proper).mp hqs) (items_some hlist)
  have hparts := hperm.trans (perm_parts hcorners hproper)
  refine ⟨n, list, hn, accounts_of ?_ (fun host => ?_) hnonneg⟩
  · rw [htotal, ← hparts.length_eq, List.length_map]
  · rw [hhost, ← hparts.countP_eq, List.countP_map]
    refine congrArg Nat.cast (List.countP_congr fun c hc => ?_)
    rw [Function.comp_apply, elementHost, hcell c hc]
    rfl

theorem fixed_nil_iff (hst : Stores v t) : fixed 0 t.axes = [] ↔ v.D = v.handlerDimensions := by
  have hcount : v.D + (fixed 0 t.axes).length = v.handlerDimensions := hst.count
  rw [← List.length_eq_zero_iff]
  omega

/-- A view without dimensions asks with empty arrays. -/
theorem accounts_point [DecidableEq H] (h : ViewIn data.size v) (hD : v.D = 0) :
    (∃ n list, dataHosts false self data v n = some list ∧ Accounts self data v list) ↔
      v.D = v.handlerDimensions := by
  have hseen : seenSize v = [] := List.length_eq_zero_iff.mp ((length_seenSize v).trans hD)
  have hcoords : coords v = [[]] := by
    rw [coords, hseen]
    rfl
  have hrun : ∀ n, dataHosts false self data v n = data.hosts self [] [] n := by
    intro n
    rw [dataHosts, if_neg Bool.false_ne_true, if_pos hD]
  have hhandler := h.handler
  cases data with
  | raw size =>
      have hraw : ∀ n, dataHosts false self (.raw size) v n = rawHosts self size [] [] := hrun
      have hdims : v.D = v.handlerDimensions ↔ size = [] := by
        rw [hD, hhandler, eq_comm]
        exact List.length_eq_zero_iff
      rw [hdims]
      constructor
      · rintro ⟨n, list, hlist, _⟩
        rw [hraw, rawHosts] at hlist
        split at hlist
        · cases hlist
        · rename_i hlt
          exact List.length_eq_zero_iff.mp (by rw [List.length_nil] at hlt; omega)
      · rintro rfl
        refine ⟨0, [⟨self, 1⟩], hraw 0, accounts_of ?_ (fun host => ?_) fun item hitem => ?_⟩
        · rw [hcoords]
          rfl
        · have hzeros : Contains (seenSize v) [] := by
            rw [hseen]
            exact ⟨rfl, fun i hi => absurd hi (Nat.not_lt_zero i)⟩
          obtain ⟨cell, hcell, _⟩ := h.inside [] hzeros
          have hheld : ∀ c ∈ coords v, elementHost self (.raw []) v c = some self := by
            intro c hc
            rw [hcoords] at hc
            rw [List.mem_singleton.mp hc, elementHost, hcell]
            rfl
          rw [countP_const hheld, hcoords]
          exact List.sum_singleton
        · rw [List.mem_singleton.mp hitem]
          exact Int.one_nonneg
  | split d =>
      have hdims : (0 : ℕ) < d.dims.length := List.length_pos_of_ne_nil d.dims_ne
      refine iff_of_false ?_ ?_
      · rintro ⟨n, list, hlist, _⟩
        have hsplit : splitHosts d [] [] n = some list := (hrun n).symm.trans hlist
        rw [splitHosts, List.length_nil, if_pos (Or.inl hdims)] at hsplit
        cases hsplit
      · have hsize : v.handlerDimensions = d.dims.length :=
          hhandler.trans (List.length_map SplitDim.size)
        omega

variable (self) in
/-- The parts are found exactly if the last corner is in one of them. -/
theorem exists_dataHosts_iff (h : ViewIn data.size v) (hst : Stores v t)
    (hnone : v.sourceInfo = none) (hD : v.D ≠ 0) :
    (∃ n list, dataHosts false self data v n = some list) ↔ PartExists v data := by
  obtain ⟨hb, he⟩ := h.length_axes hst
  cases data with
  | raw size =>
      exact iff_of_true
        ⟨0, _, (dataHosts_eq hst hnone hD 0).trans (rawHosts_eq self hb he)⟩ trivial
  | split d =>
      have hcorners : Corners d.dims (axisBegins t.axes) (axisEnds t.axes) :=
        corners_of_ordered (h.ordered hst) (hb.trans (List.length_map SplitDim.size))
      obtain ⟨hbegins, hends⟩ := corners_eq hst hnone
      have hexists : (∃ n list, dataHosts false self (.split d) v n = some list) ↔
          ∃ list, items d (axisBegins t.axes) (axisEnds t.axes)
            ((boxList (firstParts d.dims (axisBegins t.axes))
              (stopParts d.dims (axisBegins t.axes) (axisEnds t.axes))).map
                (scale d.dims)) = some list := by
        rw [exists_comm]
        refine exists_congr fun list => ?_
        rw [← splitHosts_some hcorners]
        refine exists_congr fun n => ?_
        rw [dataHosts_eq hst hnone hD]
        rfl
      rw [hexists, items_exists, parts_exist_iff hcorners, PartExists]
      constructor
      · intro hlast begins ends hb' he'
        rw [hbegins, Option.some_inj] at hb'
        rw [hends, Option.some_inj] at he'
        rwa [← hb', ← he']
      · intro hall
        exact hall _ _ hbegins hends

/-- A view with elements. -/
theorem accounts_positive [DecidableEq H] (h : ViewIn data.size v) (hst : Stores v t)
    (hnone : v.sourceInfo = none) (hD : v.D ≠ 0) (hpos : Positive v.size) :
    (∃ n list, dataHosts false self data v n = some list ∧ Accounts self data v list) ↔
      v.D = v.handlerDimensions := by
  obtain ⟨hb, he⟩ := h.length_axes hst
  constructor
  · rintro ⟨n, list, hlist, haccounts⟩
    by_contra hslices
    have hflat := flat_of_fixed (mt (fixed_nil_iff hst).mp hslices)
    exact coords_ne_nil hpos
      ((accounts_zero (weighs_nothing h hst hnone hD hflat hlist)).mp haccounts)
  · intro hall
    have hfixed := (fixed_nil_iff hst).mpr hall
    cases data with
    | raw size =>
        exact ⟨0, _, (dataHosts_eq hst hnone hD 0).trans (rawHosts_eq self hb he),
          accounts_raw h hst hfixed hpos⟩
    | split d =>
        obtain ⟨n, list, hlist, haccounts⟩ := accounts_split h hst hfixed hpos
        exact ⟨n, list, (dataHosts_eq hst hnone hD n).trans hlist, haccounts⟩

/-- A view without elements weighs nothing, so only the traversal counts. -/
theorem accounts_empty [DecidableEq H] (h : ViewIn data.size v) (hst : Stores v t)
    (hnone : v.sourceInfo = none) (hD : v.D ≠ 0) (hpos : ¬ Positive v.size) :
    (∃ n list, dataHosts false self data v n = some list ∧ Accounts self data v list) ↔
      PartExists v data := by
  have hflat : Flat (axisBegins t.axes) (axisEnds t.axes) :=
    flat_of_empty (hst.size ▸ h.sizes_nonneg) (hst.size ▸ hpos)
  have hnil := coords_nil h.sizes_nonneg hpos
  rw [← exists_dataHosts_iff self h hst hnone hD]
  refine exists_congr fun n => exists_congr fun list => and_iff_left_of_imp fun hlist => ?_
  exact (accounts_zero (weighs_nothing h hst hnone hD hflat hlist)).mpr hnil

end Main

/-- A matrix in four parts, two of which are elsewhere. -/
def fourParts : RegionDataSplit ℕ where
  dims := [⟨4, 3, by decide, by decide⟩, ⟨6, 3, by decide, by decide⟩]
  parts := [0, 7, 7, 0]
  dims_ne := List.cons_ne_nil _ _
  length_parts := by decide

/-- A box of it, the other way round. -/
def transposedBox : RegionMatrix where
  handlerDimensions := 2
  size := [2, 3]
  splitOffset := [2, 1]
  isTransposed := true
  sliceInfo := ⟨[], []⟩
  sourceInfo := none

theorem viewIn_transposedBox : ViewIn [4, 6] transposedBox := by
  refine ⟨⟨fun _ => ⟨rfl, rfl, .nil, by decide, rfl⟩, fun s hs => by cases hs⟩, rfl, by decide,
    by decide, by decide, fun c hc => ?_⟩
  have hc' := contains_iff_inBounds.mp hc
  rcases hc' with _ | ⟨hy, _ | ⟨hx, _ | _⟩⟩
  rename_i y x
  refine ⟨[x + 2, y + 1], rfl, contains_iff_inBounds.mpr (.cons ?_ (.cons ?_ .nil))⟩
  · omega
  · omega

-- its six cells by parts
example : (dataHosts false 0 (.split fourParts) transposedBox 4).map
    (List.map fun item => (item.hostPid, item.weight)) =
      some [(0, 2), (7, 2), (7, 1), (0, 1)] := by decide +kernel

/-- A row of a matrix of two by three. -/
def sliced : RegionMatrix where
  handlerDimensions := 2
  size := [3]
  splitOffset := [0]
  isTransposed := false
  sliceInfo := ⟨[0], [1]⟩
  sourceInfo := none

end PbDataHosts
