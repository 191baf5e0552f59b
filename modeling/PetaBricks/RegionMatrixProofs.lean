import PetaBricks.RegionGeometryProofs

/-! # RegionMatrix — when views are the geometric composition

    A `RegionMatrix` stores a view by its axes (`Stores`).  Each operation of the
    code is compared with the operation on axes: it stays inside its arrays
    exactly if `InBounds` holds, and records the right position exactly if `Exact`
    does.

    The result is `views_exact_iff`: for every chain with arguments in range the
    code meets the geometry if and only if every step stays in bounds and records
    the right position (or the view that comes out has no cell). -/

namespace PbRegionMatrix

open PbAxes

/-! ## What can go wrong -/

/-- The position that the code records for it. -/
def Track.recorded (t : Track) (k : Nat) (pos : Int) : Int :=
  pos + (offsets t.axes).getD (place t.axes k) 0

/-- The step stays inside the arrays it uses, and so do all accesses later. -/
def InBounds (t : Track) : Op → Prop
  | .splitRegion _ _ => t.isTransposed = true → t.fixedAxes = []
  | .region _ _ => (t.isTransposed = true → t.fixedAxes = []) ∧ ¬t.Point
  | .sliceRegion d _ =>
      t.fixedAxes = [] ∨
        Behind 0 t.axes (t.storage d) ∧
          place t.axes (t.storage d) < (offsets t.axes).length
  | .slice d _ =>
      (t.fixedAxes = [] ∨
        Behind 0 t.axes (t.storage d) ∧
          place t.axes (t.storage d) < (offsets t.axes).length) ∧
      (sizes t.axes).length ≠ 1
  | .transposed => ¬t.Point

/-- The step records the position that is meant: the own axis that the code takes
    the offset of has the offset of the axis it fixes. -/
def Exact (t : Track) : Op → Prop
  | .sliceRegion d _ | .slice d _ =>
      (offsets t.axes).getD (place t.axes (t.storage d)) 0
        = (offsets t.axes).getD (t.storage d) 0
  | _ => True

/-- Every step of the chain stays in bounds. -/
def AllInBounds (t : Track) : List Op → Prop
  | [] => True
  | op :: ops => InBounds t op ∧ AllInBounds (t.apply op) ops

/-- Every step of the chain records the position that is meant. -/
def AllExact (t : Track) : List Op → Prop
  | [] => True
  | op :: ops => Exact t op ∧ AllExact (t.apply op) ops

/-! ## Array accesses -/

section Arrays

theorem read_nat (a : List IndexT) (i : Nat) : read a i = a[i]? := by
  rw [read, if_neg (by omega)]
  rfl

theorem read_neg {a : List IndexT} {i : Int} (h : i < 0) : read a i = none :=
  if_pos h

/-- Reading from the other end. -/
theorem read_reverse {a : List IndexT} {i : Nat} (h : i < a.length) :
    read a (a.length - 1 - i) = a.reverse[i]? := by
  rw [List.getElem?_reverse h, show ((a.length : Int) - 1 - i)
    = ((a.length - 1 - i : Nat) : Int) by omega, read_nat]

theorem mapM_some {β : Type} {f : β → Option IndexT} {g : β → IndexT} {l : List β}
    (h : ∀ x ∈ l, f x = some (g x)) : l.mapM f = some (l.map g) := by
  induction l with
  | nil => rfl
  | cons x l ih =>
      rw [List.mapM_cons, h x List.mem_cons_self,
        ih fun y hy => h y (List.mem_cons_of_mem _ hy)]
      rfl

theorem mapM_none {β : Type} {f : β → Option IndexT} {l : List β} {x : β}
    (hx : x ∈ l) (h : f x = none) : l.mapM f = none := by
  induction l with
  | nil => exact nomatch hx
  | cons y l ih =>
      rw [List.mapM_cons]
      rcases List.mem_cons.mp hx with rfl | hin
      · rw [h]; rfl
      · rw [ih hin]
        cases f y <;> rfl

/-- An array filled with what another one holds. -/
theorem fill_eq {cap : Nat} {f : Int → Option IndexT} {a : List IndexT}
    (hcap : a.length ≤ cap) (h : ∀ i : Nat, i < a.length → f i = a[i]?) :
    fill cap a.length f = some a := by
  rw [fill, if_pos hcap,
    mapM_some (g := fun i => a.getD i 0) fun i hi => by
      have hlt := List.mem_range.mp hi
      rw [h i hlt, List.getD_eq_getElem _ _ hlt, List.getElem?_eq_getElem hlt]]
  refine congrArg some (List.ext_getElem (by simp) fun i h1 h2 => ?_)
  rw [List.getElem_map, List.getElem_range, List.getD_eq_getElem _ _ h2]

theorem fill_none {cap n i : Nat} {f : Int → Option IndexT} (hi : i < n)
    (h : f i = none) : fill cap n f = none := by
  rw [fill]
  split
  · exact mapM_none (x := i) (List.mem_range.mpr hi) h
  · rfl

theorem copy_length (a : List IndexT) : copy a.length a = some a := by
  rw [copy, if_neg (Nat.lt_irrefl _), List.take_length]

end Arrays

/-! ## What the code stores -/

/-- The slice info that lists the fixed axes. -/
def SliceInfo.ofFixed (l : List (Nat × Int)) : SliceInfo :=
  ⟨l.map fun e => (e.1 : Int), l.map Prod.snd⟩

/-- The view stores the axes.  An array without axes has one view, which the
    wrapper may have reset. -/
structure Stores (v : RegionMatrix) (t : Track) : Prop where
  handler : v.handlerDimensions = t.axes.length
  size : v.size = sizes t.axes
  splitOffset : v.splitOffset = offsets t.axes
  sliceInfo : v.sliceInfo = .ofFixed t.fixedAxes
  flags : t.axes ≠ [] → v.isTransposed = t.isTransposed ∧ v.sourceInfo = none
  source : v.sourceInfo = none ∨ v.sourceInfo = some [] ∧ t.axes = []

/-- A point of a matrix whose place was dropped. -/
structure Lost (v : RegionMatrix) : Prop where
  handler : v.handlerDimensions ≠ 0
  size : v.size = []
  splitOffset : v.splitOffset = []
  sliceInfo : v.sliceInfo = ⟨[], []⟩
  source : v.sourceInfo = none ∨ v.sourceInfo = some []

section Stores

variable {v w : RegionMatrix} {t : Track}

theorem Stores.length (h : Stores v t) : v.D = t.size.length := by
  rw [length_size, RegionMatrix.D, h.size]

theorem Stores.numSlices (h : Stores v t) :
    v.sliceInfo.numSliceDimensions = t.fixedAxes.length := by
  rw [h.sliceInfo, SliceInfo.numSliceDimensions, SliceInfo.ofFixed,
    List.length_map]

theorem Stores.count (h : Stores v t) :
    v.D + t.fixedAxes.length = v.handlerDimensions := by
  rw [RegionMatrix.D, h.size, h.handler]
  exact length_sizes_add_fixed t.axes 0

theorem stores_whole (size : List Int) :
    Stores (whole size) (Track.whole size) := by
  have hs : sizes (size.map (Axis.free 0)) = size :=
    (designates_whole size).size
  have ho : ∀ l : List Int,
      offsets (l.map (Axis.free 0)) = List.replicate l.length 0 := by
    intro l
    induction l with
    | nil => rfl
    | cons s l ih => rw [List.map_cons, offsets, ih]; rfl
  have hf : ∀ (l : List Int) (b : Nat), fixed b (l.map (Axis.free 0)) = [] := by
    intro l
    induction l with
    | nil => intro b; rfl
    | cons s l ih => intro b; rw [List.map_cons, fixed, ih]
  refine ⟨(List.length_map ..).symm, hs.symm, (ho size).symm, ?_,
    fun _ => ⟨rfl, rfl⟩, Or.inl rfl⟩
  rw [Track.fixedAxes, Track.whole, hf]
  rfl

/-- What `splitRegion` and `regionDataCoord` read of a coordinate. -/
theorem Stores.read_order (h : Stores v t) {c : List Int} {i : Nat}
    (hc : c.length = v.D) (hi : i < v.D) :
    read c (if v.isTransposed then (v.D : Int) - 1 - i else i)
      = (t.order c)[i]? := by
  have hne : t.axes ≠ [] := by
    intro hnil
    rw [RegionMatrix.D, h.size, hnil] at hi
    exact absurd hi (Nat.not_lt_zero i)
  rw [(h.flags hne).1, Track.order]
  split
  · rw [← hc]; exact read_reverse (by omega)
  · exact read_nat c i

/-! ### Boxes -/

/-- The array of new offsets. -/
theorem Stores.offsetNew (h : Stores v t) {offset : List Int}
    (ho : offset.length = v.D) :
    offsetNew v offset
      = some (List.zipWith (· + ·) (offsets t.axes) (t.order offset)) := by
  have hoff : (offsets t.axes).length = v.D := by
    rw [length_offsets, RegionMatrix.D, h.size]
  have hlen : (List.zipWith (· + ·) (offsets t.axes) (t.order offset)).length
      = v.D := by
    rw [List.length_zipWith, length_order, hoff, ho, Nat.min_self]
  have hcount := h.count
  unfold PbRegionMatrix.offsetNew
  rw [← hlen]
  refine fill_eq (by omega) fun i hi => ?_
  rw [hlen] at hi ⊢
  have hio : i < (t.order offset).length := by rw [length_order, ho]; exact hi
  have hi' : i < (offsets t.axes).length := by rw [hoff]; exact hi
  have h1 : read v.splitOffset i
      = some ((offsets t.axes).get ⟨i, hi'⟩) := by
    rw [read_nat, h.splitOffset]; exact List.getElem?_eq_getElem hi'
  have h2 : read offset (if v.isTransposed then (v.D : Int) - 1 - i else i)
      = some ((t.order offset).get ⟨i, hio⟩) := by
    rw [h.read_order ho hi]; exact List.getElem?_eq_getElem hio
  rw [List.getElem?_eq_getElem (by rw [hlen]; exact hi), List.getElem_zipWith]
  show (read v.splitOffset i).bind _ = _
  rw [h1]
  show (read offset (if v.isTransposed then (v.D : Int) - 1 - i else i)).bind _
    = _
  rw [h2]
  rfl

/-- The order that the view stores. -/
theorem Stores.order (h : Stores v t) {c : List Int} (hc : c.length = v.D) :
    t.order c = if v.isTransposed then c.reverse else c := by
  by_cases hnil : t.axes = []
  · have hz : v.D = 0 := by rw [RegionMatrix.D, h.size, hnil]; rfl
    rw [show c = [] from List.length_eq_zero_iff.mp (hc.trans hz)]
    unfold Track.order
    split <;> split <;> rfl
  · rw [(h.flags hnil).1]
    rfl

/-- The array of new sizes. -/
theorem Stores.sizeNew (h : Stores v t) {size : List Int}
    (hs : size.length = v.D) (hok : t.isTransposed = true → t.fixedAxes = []) :
    sizeNew v size = some (t.order size) := by
  rw [h.order hs, PbRegionMatrix.sizeNew]
  by_cases htr : v.isTransposed = true
  · have hall : v.handlerDimensions = v.D := by
      have hcount := h.count
      by_cases hnil : t.axes = []
      · rw [RegionMatrix.D, h.handler, h.size, hnil]; rfl
      · rw [hok ((h.flags hnil).1 ▸ htr)] at hcount
        exact hcount.symm
    rw [if_pos htr, if_pos htr, hall,
      show v.D = size.reverse.length by rw [List.length_reverse, hs]]
    refine fill_eq (Nat.le_refl _) fun i hi => ?_
    rw [List.length_reverse] at hi ⊢
    exact read_reverse hi
  · rw [if_neg htr, if_neg htr]

/-- **BOXES**: in bounds `splitRegion` stores the box. -/
theorem Stores.splitRegion (h : Stores v t) {offset size : List Int}
    (ho : offset.length = v.D) (hs : size.length = v.D)
    (hok : t.isTransposed = true → t.fixedAxes = []) :
    ∃ w, splitRegion v offset size = some w ∧ Stores w (t.box offset size) ∧
      w.sourceInfo = none := by
  have hlen : (t.order size).length = v.D := by rw [length_order, hs]
  have hD : v.D = (sizes t.axes).length := by rw [RegionMatrix.D, h.size]
  refine ⟨{ v with
    size := t.order size
    splitOffset := List.zipWith (· + ·) (offsets t.axes) (t.order offset)
    sourceInfo := none }, ?_, ?_, rfl⟩
  · unfold PbRegionMatrix.splitRegion
    rw [h.offsetNew ho, h.sizeNew hs hok]
    show (copy v.D (t.order size)).bind _ = _
    rw [← hlen, copy_length]
    rfl
  · have ho' : (t.order offset).length = (sizes t.axes).length := by
      rw [length_order, ho, hD]
    have hs' : (t.order size).length = (sizes t.axes).length := by
      rw [hlen, hD]
    refine ⟨?_, (sizes_restrict ho' hs').symm, (offsets_restrict ho' hs').symm,
      ?_, fun hne => ⟨?_, rfl⟩, Or.inl rfl⟩
    · exact h.handler.trans (length_restrict ..).symm
    · rw [h.sliceInfo]
      exact congrArg _ (fixed_restrict ..).symm
    · refine (h.flags fun hnil => hne ?_).1
      show restrict t.axes _ _ = []
      rw [hnil]
      rfl

/-- **BOXES**: out of bounds `splitRegion` reads before its argument. -/
theorem Stores.splitRegion_none (h : Stores v t) {offset size : List Int}
    (htr : t.isTransposed = true) (hf : t.fixedAxes ≠ []) :
    PbRegionMatrix.splitRegion v offset size = none := by
  have hne : t.axes ≠ [] := by
    rintro hnil
    exact hf (by rw [Track.fixedAxes, hnil]; rfl)
  have hlt : v.D < v.handlerDimensions := by
    have hpos := List.length_pos_iff.mpr hf
    have hcount := h.count
    omega
  have hfill : (fill v.handlerDimensions v.handlerDimensions fun i =>
      read size (v.D - 1 - i)) = none := by
    refine fill_none hlt ?_
    exact read_neg (by omega)
  unfold PbRegionMatrix.splitRegion PbRegionMatrix.sizeNew
  rw [if_pos ((h.flags hne).1.trans htr), hfill]
  cases PbRegionMatrix.offsetNew v offset <;> rfl

/-! ### Slices -/

theorem push_ofFixed (l : List (Nat × Int)) (d : Nat) (p : Int) :
    (SliceInfo.ofFixed l).push d p = .ofFixed (l ++ [(d, p)]) := by
  simp [SliceInfo.push, SliceInfo.ofFixed]

theorem read_dimensions {l rest : List (Nat × Int)} {e : Nat × Int} {i : Nat}
    (h : l.drop i = e :: rest) :
    read (SliceInfo.ofFixed l).sliceDimensions i = some (e.1 : Int) ∧
      read (SliceInfo.ofFixed l).slicePositions i = some e.2 ∧
      l.drop (i + 1) = rest := by
  have hget : l[i]? = some e := by
    rw [← List.head?_drop, h]
    rfl
  refine ⟨?_, ?_, ?_⟩
  · rw [read_nat, SliceInfo.ofFixed, List.getElem?_map, hget]; rfl
  · rw [read_nat, SliceInfo.ofFixed, List.getElem?_map, hget]; rfl
  · rw [← List.drop_drop, h]
    rfl

/-- After the new entry the loop copies what is left. -/
theorem sliceLoop_true {l rest : List (Nat × Int)} (splitOffset : List Int)
    (pos : Int) {d : Int} {j : Nat} (m : List (Nat × Int)) (h : l.drop j = rest) :
    sliceLoop (.ofFixed l) splitOffset pos rest.length (j + 1) d true (.ofFixed m)
      = some (.ofFixed (m ++ rest)) := by
  induction rest generalizing j m with
  | nil => rw [List.append_nil]; rfl
  | cons e rest ih =>
      obtain ⟨h1, h2, h3⟩ := read_dimensions h
      rw [List.length_cons, sliceLoop,
        show ((j + 1 : Nat) : Int) - 1 = (j : Int) by omega, h1, h2]
      show sliceLoop _ _ _ _ _ _ _ ((SliceInfo.ofFixed m).push e.1 e.2) = _
      rw [push_ofFixed, ih (m ++ [(e.1, e.2)]) h3, List.append_assoc]
      rfl

/-- Up to the new entry the loop walks along the old ones. -/
theorem sliceLoop_false {l rest : List (Nat × Int)} (splitOffset : List Int)
    (pos : Int) {i : Nat} (d : Nat) (m : List (Nat × Int))
    (h : l.drop i = rest) :
    sliceLoop (.ofFixed l) splitOffset pos (rest.length + 1) i d false (.ofFixed m)
      = (insertBefore (fun d => (splitOffset[d]?).map (pos + ·)) rest d).map
          fun r => .ofFixed (m ++ r) := by
  induction rest generalizing i d m with
  | nil =>
      have hnone : read (SliceInfo.ofFixed l).sliceDimensions i = none := by
        rw [read_nat, SliceInfo.ofFixed, List.getElem?_map,
          List.getElem?_eq_none (List.drop_eq_nil_iff.mp h)]
        rfl
      rw [sliceLoop, hnone]
      rfl
  | cons e rest ih =>
      obtain ⟨h1, h2, h3⟩ := read_dimensions h
      rw [List.length_cons, sliceLoop, h1]
      show (if (e.1 : Int) ≤ d then _ else _) = _
      by_cases hle : e.1 ≤ d
      · rw [if_pos (by omega), h2, insertBefore, if_pos hle]
        show sliceLoop _ _ _ _ _ ((d : Int) + 1) _
          ((SliceInfo.ofFixed m).push e.1 e.2) = _
        rw [push_ofFixed, show (d : Int) + 1 = ((d + 1 : Nat) : Int) by omega,
          ih (d + 1) (m ++ [(e.1, e.2)]) h3, Option.map_map]
        refine congrArg (Option.map · _) (funext fun r => ?_)
        show SliceInfo.ofFixed (m ++ [e] ++ r) = .ofFixed (m ++ e :: r)
        rw [List.append_assoc]
        rfl
      · rw [if_neg (by omega), insertBefore, if_neg hle, read_nat]
        cases splitOffset[d]? with
        | none => rfl
        | some o =>
            show sliceLoop _ _ _ _ _ _ _ ((SliceInfo.ofFixed m).push d (pos + o))
              = _
            rw [push_ofFixed]
            have hcopy := sliceLoop_true splitOffset pos
              (d := d) (m ++ [(d, pos + o)]) h
            rw [List.length_cons] at hcopy
            rw [hcopy]
            show some (SliceInfo.ofFixed (m ++ [(d, pos + o)] ++ e :: rest)) = _
            rw [List.append_assoc]
            rfl

/-- **SLICES**: the new slice info, where it exists. -/
theorem Stores.newSliceInfo (h : Stores v t) {k : Nat} (pos : Int)
    (hk : k < (sizes t.axes).length) :
    (t.fixedAxes = [] ∨ Behind 0 t.axes k ∧
        place t.axes k < (offsets t.axes).length →
      newSliceInfo v k pos
        = some (.ofFixed (t.fix k (t.recorded k pos)).fixedAxes)) ∧
    (¬(t.fixedAxes = [] ∨ Behind 0 t.axes k ∧
        place t.axes k < (offsets t.axes).length) →
      newSliceInfo v k pos = none) := by
  have hgetD : ∀ j, j < (offsets t.axes).length →
      (offsets t.axes)[j]? = some ((offsets t.axes).getD j 0) := fun j hj => by
    rw [List.getD_eq_getElem _ _ hj, List.getElem?_eq_getElem hj]
  unfold PbRegionMatrix.newSliceInfo
  by_cases hf : t.fixedAxes = []
  · have hko : k < (offsets t.axes).length := by rw [length_offsets]; exact hk
    refine ⟨fun _ => ?_, fun hno => absurd (Or.inl hf) hno⟩
    rw [if_pos (by rw [h.numSlices, hf]; rfl), read_nat, h.splitOffset,
      hgetD k hko]
    show some _ = some (SliceInfo.ofFixed (fixed 0 (PbAxes.fix t.axes k _)))
    rw [fixed_fix_of_nil hf hk, Track.recorded, place_of_fixed_nil hf]
    simp [SliceInfo.ofFixed]
  · have hn : t.fixedAxes.length ≠ 0 := by
      rw [Ne, List.length_eq_zero_iff]; exact hf
    have hloop := sliceLoop_false v.splitOffset pos k []
      (List.drop_zero (l := t.fixedAxes))
    obtain ⟨hyes, hno⟩ := insertBefore_fixed
      (fun d => (v.splitOffset[d]?).map (pos + ·)) 0 hk
    rw [Nat.zero_add] at hyes hno
    rw [h.numSlices, if_neg hn, h.sliceInfo,
      show (⟨[], []⟩ : SliceInfo) = .ofFixed [] from rfl, hloop]
    refine ⟨fun hok => ?_, fun hbad => ?_⟩
    · obtain ⟨hb, hlt⟩ := hok.resolve_left hf
      rw [Nat.zero_add] at hyes
      rw [show t.fixedAxes = fixed 0 t.axes from rfl, hyes hb, h.splitOffset,
        hgetD _ hlt]
      rfl
    · rw [Nat.zero_add] at hyes
      by_cases hb : Behind 0 t.axes k
      · have hlt : (offsets t.axes).length ≤ place t.axes k := by
          by_contra hlt
          exact hbad (Or.inr ⟨hb, by omega⟩)
        rw [show t.fixedAxes = fixed 0 t.axes from rfl, hyes hb, h.splitOffset,
          List.getElem?_eq_none hlt]
        rfl
      · rw [show t.fixedAxes = fixed 0 t.axes from rfl, hno hb]
        rfl

/-- A view with a dimension has an axis. -/
theorem Stores.axes_ne_nil (h : Stores v t) {d : Nat} (hd : d < v.D) :
    t.axes ≠ [] := by
  intro hnil
  rw [RegionMatrix.D, h.size, hnil] at hd
  exact absurd hd (Nat.not_lt_zero d)

theorem Stores.storage (h : Stores v t) {d : Nat} (hd : d < v.D) :
    (if v.isTransposed then v.D - d - 1 else d) = t.storage d := by
  rw [(h.flags (h.axes_ne_nil hd)).1, Track.storage, RegionMatrix.D, h.size]

/-- **SLICES**: in bounds `sliceRegion` fixes the axis, at the position it
    records. -/
theorem Stores.sliceRegion (h : Stores v t) {d : Nat} (pos : Int) (hd : d < v.D)
    (hok : t.fixedAxes = [] ∨ Behind 0 t.axes (t.storage d) ∧
      place t.axes (t.storage d) < (offsets t.axes).length) :
    ∃ w, sliceRegion v d pos = some w ∧
      Stores w (t.fix (t.storage d) (t.recorded (t.storage d) pos)) := by
  have hk : t.storage d < (sizes t.axes).length :=
    storage_lt (by rw [← h.length]; exact hd)
  refine ⟨{ v with
    size := v.size.eraseIdx (t.storage d)
    splitOffset := v.splitOffset.eraseIdx (t.storage d)
    sliceInfo := .ofFixed
      (t.fix (t.storage d) (t.recorded (t.storage d) pos)).fixedAxes
    sourceInfo := none }, ?_, ?_⟩
  · unfold PbRegionMatrix.sliceRegion
    rw [h.storage hd]
    show (PbRegionMatrix.newSliceInfo v (t.storage d) pos).map _ = _
    rw [(h.newSliceInfo pos hk).1 hok]
    rfl
  · refine ⟨?_, ?_, ?_, rfl, fun _ => ⟨?_, rfl⟩, Or.inl rfl⟩
    · exact h.handler.trans (length_fix ..).symm
    · rw [h.size]; exact (sizes_fix ..).symm
    · rw [h.splitOffset]; exact (offsets_fix ..).symm
    · exact (h.flags (h.axes_ne_nil hd)).1

/-- **SLICES**: otherwise it reads outside an array. -/
theorem Stores.sliceRegion_none (h : Stores v t) {d : Nat} (pos : Int)
    (hd : d < v.D)
    (hbad : ¬(t.fixedAxes = [] ∨ Behind 0 t.axes (t.storage d) ∧
      place t.axes (t.storage d) < (offsets t.axes).length)) :
    PbRegionMatrix.sliceRegion v d pos = none := by
  have hk : t.storage d < (sizes t.axes).length :=
    storage_lt (by rw [← h.length]; exact hd)
  unfold PbRegionMatrix.sliceRegion
  rw [h.storage hd]
  show (PbRegionMatrix.newSliceInfo v (t.storage d) pos).map _ = _
  rw [(h.newSliceInfo pos hk).2 hbad]
  rfl

/-! ### Wrappers -/

theorem wrap_of_ne {v : RegionMatrix} (h : v.D ≠ 0) : wrap v = v := if_neg h

/-- A wrapper keeps every view but a point. -/
theorem Stores.wrap (h : Stores v t) (hp : ¬t.Point) : Stores (wrap v) t := by
  by_cases hD : v.D = 0
  · have hs : sizes t.axes = [] := by
      rw [← h.size]; exact List.length_eq_zero_iff.mp hD
    have hnil : t.axes = [] := by
      by_contra hne
      exact hp ⟨hne, hs⟩
    rw [PbRegionMatrix.wrap, if_pos hD]
    refine ⟨h.handler, h.size, ?_, ?_, fun hne => absurd hnil hne,
      Or.inr ⟨rfl, hnil⟩⟩
    · rw [hnil]; rfl
    · rw [Track.fixedAxes, hnil]; rfl
  · rw [wrap_of_ne hD]
    exact h

/-- A wrapper drops the place of a point. -/
theorem Stores.lost (h : Stores v t) (hp : t.Point) :
    Lost (PbRegionMatrix.wrap v) := by
  have hD : v.D = 0 := by rw [RegionMatrix.D, h.size, hp.2]; rfl
  rw [PbRegionMatrix.wrap, if_pos hD]
  refine ⟨?_, List.length_eq_zero_iff.mp hD, rfl, rfl, Or.inr rfl⟩
  show v.handlerDimensions ≠ 0
  rw [h.handler, Ne, List.length_eq_zero_iff]
  exact hp.1

theorem Stores.flip (h : Stores v t) :
    Stores { v with isTransposed := !v.isTransposed, sourceInfo := none }
      ⟨t.axes, !t.isTransposed⟩ :=
  ⟨h.handler, h.size, h.splitOffset, h.sliceInfo,
    fun hne => ⟨congrArg not (h.flags hne).1, rfl⟩, Or.inl rfl⟩

/-! ### Accesses -/

/-- At a fixed axis the next slice is there. -/
theorem Stores.isSliceAt_fixed (h : Stores v t) {as : List Axis} {p : Int}
    {d sliceIndex : Nat}
    (hf : t.fixedAxes.drop sliceIndex = fixed d (.fixed p :: as)) :
    isSliceAt v.sliceInfo sliceIndex d = some true ∧
      read v.sliceInfo.slicePositions sliceIndex = some p ∧
      t.fixedAxes.drop (sliceIndex + 1) = fixed (d + 1) as := by
  obtain ⟨h1, h2, h3⟩ := read_dimensions hf
  have hlt : sliceIndex < v.sliceInfo.numSliceDimensions := by
    rw [h.numSlices]
    by_contra hge
    rw [List.drop_eq_nil_of_le (by omega)] at hf
    exact nomatch hf
  refine ⟨?_, by rw [h.sliceInfo, h2], h3⟩
  rw [isSliceAt, if_pos hlt, h.sliceInfo, h1]
  simp

/-- At an axis of the view's own it is not, and the next offset is. -/
theorem Stores.isSliceAt_free (h : Stores v t) {as : List Axis} {o s : Int}
    {d sliceIndex splitIndex : Nat}
    (hf : t.fixedAxes.drop sliceIndex = fixed d (.free o s :: as))
    (ho : (offsets t.axes).drop splitIndex = offsets (.free o s :: as)) :
    isSliceAt v.sliceInfo sliceIndex d = some false ∧
      read v.splitOffset splitIndex = some o ∧
      (offsets t.axes).drop (splitIndex + 1) = offsets as := by
  have hget : (offsets t.axes)[splitIndex]? = some o := by
    rw [← List.head?_drop, ho]; rfl
  refine ⟨?_, by rw [h.splitOffset, read_nat, hget], ?_⟩
  · rw [isSliceAt]
    split
    · rename_i hlt
      rw [h.numSlices] at hlt
      cases hrest : fixed (d + 1) as with
      | nil =>
          rw [fixed, hrest, List.drop_eq_nil_iff] at hf
          omega
      | cons e rest =>
          rw [fixed, hrest] at hf
          have he : e ∈ fixed (d + 1) as := by
            rw [hrest]; exact List.mem_cons_self
          have hle : d + 1 ≤ e.1 := le_of_mem_fixed he
          rw [h.sliceInfo, (read_dimensions hf).1]
          simp
          omega
    · rfl
  · rw [← List.drop_drop, ho]; rfl

/-- `regionDataCoord` from an axis on. -/
theorem Stores.coordLoop (h : Stores v t) {c : List Int} (hc : c.length = v.D)
    (as : List Axis) {d sliceIndex splitIndex : Nat}
    (hf : t.fixedAxes.drop sliceIndex = fixed d as)
    (ho : (offsets t.axes).drop splitIndex = offsets as) :
    coordLoop v c as.length d sliceIndex splitIndex
      = some (PbAxes.cell as ((t.order c).drop splitIndex)) := by
  induction as generalizing d sliceIndex splitIndex with
  | nil => rfl
  | cons a as ih =>
      rw [List.length_cons, PbRegionMatrix.coordLoop]
      cases a with
      | fixed p =>
          obtain ⟨hat, hpos, hrest⟩ := h.isSliceAt_fixed hf
          rw [hat, hpos, PbAxes.cell]
          show (PbRegionMatrix.coordLoop v c as.length (d + 1) (sliceIndex + 1)
            splitIndex).bind _ = _
          rw [ih hrest ho]
          rfl
      | free o s =>
          obtain ⟨hat, hread, hnext⟩ := h.isSliceAt_free hf ho
          have hsplit : splitIndex < v.D := by
            rw [RegionMatrix.D, h.size, ← length_offsets]
            by_contra hge
            rw [List.drop_eq_nil_of_le (by omega)] at ho
            cases ho
          have hx : splitIndex < (t.order c).length := by
            rw [length_order, hc]; exact hsplit
          rw [hat, hread, List.drop_eq_getElem_cons hx, PbAxes.cell]
          show (read c (if v.isTransposed then (v.D : Int) - 1 - splitIndex
            else splitIndex)).bind _ = _
          rw [h.read_order hc hsplit, List.getElem?_eq_getElem hx]
          show (PbRegionMatrix.coordLoop v c as.length (d + 1) sliceIndex
            (splitIndex + 1)).bind _ = _
          rw [ih hf hnext]
          rfl

/-- **ACCESS**: `readCell` and `writeCell` reach the cell that the axes
    designate. -/
theorem Stores.accessed (h : Stores v t) {c : List Int} (hc : c.length = v.D) :
    accessed v c = some (t.cell c) := by
  rcases h.source with hnone | ⟨hsome, hnil⟩
  · rw [PbRegionMatrix.accessed, hnone]
    show PbRegionMatrix.coordLoop v c v.handlerDimensions 0 0 0 = _
    rw [h.handler]
    exact h.coordLoop hc t.axes rfl rfl
  · have hz : v.handlerDimensions = 0 := by rw [h.handler, hnil]; rfl
    rw [PbRegionMatrix.accessed, hsome, Track.cell, hnil]
    show (if [].length < v.handlerDimensions then none else _) = _
    rw [hz]
    rfl

/-! ### What is lost stays lost -/

theorem Lost.accessed (h : Lost v) (c : List Int) :
    PbRegionMatrix.accessed v c = none := by
  obtain ⟨k, hk⟩ := Nat.exists_eq_succ_of_ne_zero h.handler
  rcases h.source with hnone | hsome
  · rw [PbRegionMatrix.accessed, hnone]
    show PbRegionMatrix.coordLoop v c v.handlerDimensions 0 0 0 = none
    have hat : isSliceAt v.sliceInfo 0 0 = some false := by
      rw [h.sliceInfo]; rfl
    rw [hk, PbRegionMatrix.coordLoop, hat, h.splitOffset]
    rfl
  · rw [PbRegionMatrix.accessed, hsome]
    exact if_pos (by rw [hk]; exact Nat.succ_pos k)

theorem Lost.wrap (h : Lost v) : Lost (PbRegionMatrix.wrap v) := by
  rw [PbRegionMatrix.wrap, if_pos (by rw [RegionMatrix.D, h.size]; rfl)]
  exact ⟨h.handler, h.size, rfl, rfl, Or.inr rfl⟩

theorem Lost.splitRegion (h : Lost v) {offset size : List Int}
    (hs : PbRegionMatrix.splitRegion v offset size = some w) : Lost w := by
  have hD : v.D = 0 := by rw [RegionMatrix.D, h.size]; rfl
  unfold PbRegionMatrix.splitRegion at hs
  cases ho : PbRegionMatrix.offsetNew v offset with
  | none => rw [ho] at hs; exact nomatch hs
  | some splitOffset =>
      cases hn : PbRegionMatrix.sizeNew v size with
      | none => rw [ho, hn] at hs; exact nomatch hs
      | some sizeN =>
          have hoff : splitOffset = [] := by
            unfold PbRegionMatrix.offsetNew fill at ho
            rw [hD, if_pos (Nat.zero_le _)] at ho
            exact (Option.some.inj ho).symm
          rw [ho, hn, hoff, hD] at hs
          have hw := Option.some.inj hs
          subst hw
          exact ⟨h.handler, rfl, rfl, h.sliceInfo, Or.inl rfl⟩

theorem Lost.apply (h : Lost v) {op : Op} (hin : ArgsInRange [] op)
    (hs : apply v op = some w) : Lost w := by
  cases op with
  | splitRegion offset size => exact h.splitRegion hs
  | region c1 c2 =>
      have hs' : region v c1 c2 = some w := hs
      unfold region at hs'
      split at hs'
      · exact Option.some.inj hs' ▸ h
      · obtain ⟨u, hu, rfl⟩ := Option.map_eq_some_iff.mp hs'
        exact (h.splitRegion hu).wrap
  | sliceRegion d pos | slice d pos => exact absurd hin.1 (Nat.not_lt_zero d)
  | transposed =>
      have hw : PbRegionMatrix.transposed v = w := Option.some.inj hs
      subst hw
      exact Lost.wrap ⟨h.handler, h.size, h.splitOffset, h.sliceInfo, Or.inl rfl⟩

end Stores

/-! ## One operation -/

/-- Two views that may only differ in the positions they fix. -/
structure SameShape (t t' : Track) : Prop where
  shape : shape t.axes = shape t'.axes
  isTransposed : t.isTransposed = t'.isTransposed

section Apply

variable {v w : RegionMatrix} {t t' : Track}

theorem SameShape.sizes (h : SameShape t' t) : sizes t'.axes = sizes t.axes := by
  rw [← sizes_shape, h.shape, sizes_shape]

theorem SameShape.offsets (h : SameShape t' t) :
    offsets t'.axes = offsets t.axes := by
  rw [← offsets_shape, h.shape, offsets_shape]

theorem SameShape.place (h : SameShape t' t) (k : Nat) :
    place t'.axes k = place t.axes k := by
  rw [← place_shape, h.shape, place_shape]

theorem SameShape.fixedPlaces (h : SameShape t' t) :
    t'.fixedAxes.map Prod.fst = t.fixedAxes.map Prod.fst := by
  rw [Track.fixedAxes, ← fixed_shape, h.shape, fixed_shape, Track.fixedAxes]

theorem SameShape.fixed_nil (h : SameShape t' t) :
    t'.fixedAxes = [] ↔ t.fixedAxes = [] := by
  rw [← List.map_eq_nil_iff (f := Prod.fst), h.fixedPlaces, List.map_eq_nil_iff]

theorem SameShape.behind (h : SameShape t' t) (k : Nat) :
    Behind 0 t'.axes k ↔ Behind 0 t.axes k := by
  have hiff : ∀ u : Track, Behind 0 u.axes k ↔
      ∃ e ∈ u.fixedAxes.map Prod.fst, 0 + PbAxes.place u.axes k < e := fun u => by
    constructor
    · rintro ⟨e, he, hlt⟩
      exact ⟨e.1, List.mem_map_of_mem he, hlt⟩
    · rintro ⟨e, he, hlt⟩
      obtain ⟨e', he', rfl⟩ := List.mem_map.mp he
      exact ⟨e', he', hlt⟩
  rw [hiff t', hiff t, h.fixedPlaces, h.place]

theorem SameShape.point (h : SameShape t' t) : t'.Point ↔ t.Point := by
  have hlen : t'.axes.length = t.axes.length := by
    rw [← length_shape, h.shape, length_shape]
  rw [Track.Point, Track.Point, h.sizes, Ne, Ne, ← List.length_eq_zero_iff, hlen,
    List.length_eq_zero_iff]

theorem SameShape.storage (h : SameShape t' t) (d : Nat) :
    t'.storage d = t.storage d := by
  rw [Track.storage, Track.storage, h.isTransposed, h.sizes]

theorem SameShape.order (h : SameShape t' t) (c : List Int) :
    t'.order c = t.order c := by
  rw [Track.order, Track.order, h.isTransposed]

theorem SameShape.inBounds (h : SameShape t' t) (op : Op) :
    InBounds t' op ↔ InBounds t op := by
  cases op with
  | splitRegion offset size =>
      simp only [InBounds, h.isTransposed, h.fixed_nil]
  | region c1 c2 => simp only [InBounds, h.isTransposed, h.fixed_nil, h.point]
  | sliceRegion d pos | slice d pos =>
      simp only [InBounds, h.fixed_nil, h.storage, h.behind, h.place, h.offsets,
        h.sizes]
  | transposed => simp only [InBounds, h.point]

/-- What the code records has the shape of what is meant. -/
theorem SameShape.apply (h : SameShape t' t) (op : Op) :
    SameShape (t'.applyWith Track.recorded op) (t.apply op) := by
  cases op with
  | splitRegion offset size | region c1 c2 =>
      refine ⟨?_, h.isTransposed⟩
      show PbAxes.shape (restrict t'.axes _ _) = PbAxes.shape (restrict t.axes _ _)
      rw [shape_restrict, shape_restrict, h.shape, h.order, h.order]
  | sliceRegion d pos | slice d pos =>
      refine ⟨?_, h.isTransposed⟩
      show PbAxes.shape (fix t'.axes _ _) = PbAxes.shape (fix t.axes _ _)
      rw [shape_fix, shape_fix, h.shape, h.storage]
  | transposed => exact ⟨h.shape, congrArg not h.isTransposed⟩

/-- **POSITIONS**: the code fixes what is meant exactly if it did before and the
    step is exact. -/
theorem SameShape.fixed_apply (h : SameShape t' t) {op : Op}
    (hin : ArgsInRange t.size op) :
    (t'.applyWith Track.recorded op).fixedAxes = (t.apply op).fixedAxes ↔
      t'.fixedAxes = t.fixedAxes ∧ Exact t op := by
  have hfix : ∀ (d : Nat) (pos : Int), d < t.size.length →
      ((t'.fix (t'.storage d) (t'.recorded (t'.storage d) pos)).fixedAxes
        = (t.fix (t.storage d) (t.position (t.storage d) pos)).fixedAxes ↔
      t'.fixedAxes = t.fixedAxes ∧
        (PbAxes.offsets t.axes).getD (PbAxes.place t.axes (t.storage d)) 0
          = (PbAxes.offsets t.axes).getD (t.storage d) 0) := by
    intro d pos hd
    rw [h.storage]
    have hk : t.storage d < (PbAxes.sizes t'.axes).length := by
      rw [h.sizes]; exact storage_lt hd
    refine (fixed_fix_inj h.shape hk _ _ 0).trans (and_congr_right fun _ => ?_)
    rw [Track.recorded, Track.position, h.offsets, h.place]
    omega
  cases op with
  | splitRegion offset size | region c1 c2 =>
      show fixed 0 (restrict t'.axes _ _) = fixed 0 (restrict t.axes _ _) ↔ _
      rw [fixed_restrict, fixed_restrict]
      exact ⟨fun hf => ⟨hf, trivial⟩, fun hf => hf.1⟩
  | sliceRegion d pos => exact hfix d pos hin.1
  | slice d pos => exact hfix d pos hin.1
  | transposed => exact ⟨fun hf => ⟨hf, trivial⟩, fun hf => hf.1⟩

/-- A view with one dimension is a point after a slice. -/
theorem point_fix_iff {k : Nat} {q : Int} (hk : k < (sizes t.axes).length) :
    (t.fix k q).Point ↔ (sizes t.axes).length = 1 := by
  have hpos := length_sizes_add_fixed t.axes 0
  have hlen : (t.fix k q).axes.length = t.axes.length := length_fix ..
  have hsizes : (sizes (t.fix k q).axes).length + 1 = (sizes t.axes).length := by
    show (sizes (fix t.axes k q)).length + 1 = _
    rw [sizes_fix, List.length_eraseIdx_of_lt hk]
    omega
  rw [Track.Point, Ne, ← List.length_eq_zero_iff, ← List.length_eq_zero_iff, hlen]
  omega

/-- A box has the dimensions of the view. -/
theorem point_box_iff {offset size : List Int}
    (ho : offset.length = t.size.length) (hs : size.length = t.size.length) :
    (t.box offset size).Point ↔ t.Point := by
  have hlen : (t.box offset size).axes.length = t.axes.length :=
    length_restrict ..
  have hsizes : (sizes (t.box offset size).axes).length
      = (sizes t.axes).length := by
    rw [← length_size, size_box ho hs, hs, length_size]
  rw [Track.Point, Track.Point, Ne, Ne, ← List.length_eq_zero_iff,
    ← List.length_eq_zero_iff, hlen, hsizes, List.length_eq_zero_iff,
    List.length_eq_zero_iff]

/-- **THE CODE**, where it stays in bounds. -/
theorem Stores.apply (h : Stores v t) {op : Op} (hin : ArgsInRange t.size op)
    (hb : InBounds t op) :
    ∃ w, apply v op = some w ∧ Stores w (t.applyWith Track.recorded op) := by
  have hD := h.length
  cases op with
  | splitRegion offset size =>
      obtain ⟨w, hw, hs, -⟩ :=
        h.splitRegion (hin.1.trans hD.symm) (hin.2.1.trans hD.symm) hb
      exact ⟨w, hw, hs⟩
  | region c1 c2 =>
      obtain ⟨hok, hp⟩ := hb
      by_cases hsrc : v.sourceInfo.isSome = true
      · -- a wrapper of a matrix without dimensions gives itself
        have hnil : t.axes = [] := by
          rcases h.source with hnone | ⟨-, hnil⟩
          · rw [hnone] at hsrc; exact nomatch hsrc
          · exact hnil
        refine ⟨v, if_pos hsrc, ?_⟩
        have hbox : t.applyWith Track.recorded (.region c1 c2) = t := by
          show Track.mk (restrict t.axes _ _) t.isTransposed = t
          rw [hnil, restrict, ← hnil]
        rw [hbox]
        exact h
      · have hpoint := (point_box_iff hin.2.1 hin.2.2.1).not.mpr hp
        obtain ⟨w, hw, hs, -⟩ :=
          h.splitRegion (hin.2.1.trans hD.symm) (hin.2.2.1.trans hD.symm) hok
        refine ⟨PbRegionMatrix.wrap w, ?_, hs.wrap hpoint⟩
        show region v c1 c2 = _
        rw [region, if_neg hsrc, hw]
        rfl
  | sliceRegion d pos => exact h.sliceRegion pos (by rw [hD]; exact hin.1) hb
  | slice d pos =>
      have hd : d < v.D := by rw [hD]; exact hin.1
      obtain ⟨w, hw, hs⟩ := h.sliceRegion pos hd hb.1
      refine ⟨PbRegionMatrix.wrap w, ?_, hs.wrap fun hp => ?_⟩
      · show (PbRegionMatrix.sliceRegion v d pos).map _ = _
        rw [hw]
        rfl
      · exact hb.2 ((point_fix_iff (storage_lt hin.1)).mp hp)
  | transposed => exact ⟨_, rfl, h.flip.wrap hb⟩

/-- **THE CODE**, where it does not: an array is read outside its length, or the
    place of the view is dropped and every access will be. -/
theorem Stores.apply_bad (h : Stores v t) {op : Op} (hin : ArgsInRange t.size op)
    (hb : ¬InBounds t op) :
    PbRegionMatrix.apply v op = none ∨
      ∃ w, PbRegionMatrix.apply v op = some w ∧ Lost w ∧
        (t.applyWith Track.recorded op).Point := by
  have hD := h.length
  cases op with
  | splitRegion offset size =>
      obtain ⟨htr, hf⟩ := Classical.not_imp.mp hb
      exact Or.inl (h.splitRegion_none htr hf)
  | region c1 c2 =>
      have hsrc : ¬v.sourceInfo.isSome = true := by
        rcases h.source with hnone | ⟨-, hnil⟩
        · rw [hnone]; exact Bool.false_ne_true
        · refine absurd ⟨fun _ => ?_, fun hp => hp.1 hnil⟩ hb
          rw [Track.fixedAxes, hnil]
          rfl
      have hregion : PbRegionMatrix.apply v (.region c1 c2)
          = (PbRegionMatrix.splitRegion v c1 (List.zipWith (· - ·) c2 c1)).map
              PbRegionMatrix.wrap := if_neg hsrc
      by_cases hok : t.isTransposed = true → t.fixedAxes = []
      · have hp : t.Point := by
          by_contra hp
          exact hb ⟨hok, hp⟩
        obtain ⟨w, hw, hs, -⟩ :=
          h.splitRegion (hin.2.1.trans hD.symm) (hin.2.2.1.trans hD.symm) hok
        have hpoint := (point_box_iff hin.2.1 hin.2.2.1).mpr hp
        refine Or.inr ⟨PbRegionMatrix.wrap w, ?_, hs.lost hpoint, hpoint⟩
        rw [hregion, hw]
        rfl
      · obtain ⟨htr, hf⟩ := Classical.not_imp.mp hok
        refine Or.inl ?_
        rw [hregion, h.splitRegion_none htr hf]
        rfl
  | sliceRegion d pos =>
      exact Or.inl (h.sliceRegion_none pos (by rw [hD]; exact hin.1) hb)
  | slice d pos =>
      have hd : d < v.D := by rw [hD]; exact hin.1
      by_cases hok : t.fixedAxes = [] ∨ Behind 0 t.axes (t.storage d) ∧
          place t.axes (t.storage d) < (offsets t.axes).length
      · have hone : (sizes t.axes).length = 1 := by
          by_contra hne
          exact hb ⟨hok, hne⟩
        obtain ⟨w, hw, hs⟩ := h.sliceRegion pos hd hok
        have hpoint : (t.fix (t.storage d)
            (t.recorded (t.storage d) pos)).Point :=
          (point_fix_iff (storage_lt hin.1)).mpr hone
        refine Or.inr ⟨PbRegionMatrix.wrap w, ?_, hs.lost hpoint, hpoint⟩
        show (PbRegionMatrix.sliceRegion v d pos).map _ = _
        rw [hw]
        rfl
      · refine Or.inl ?_
        show (PbRegionMatrix.sliceRegion v d pos).map _ = _
        rw [h.sliceRegion_none pos hd hok]
        rfl
  | transposed =>
      exact Or.inr ⟨_, rfl, h.flip.lost (not_not.mp hb), not_not.mp hb⟩

end Apply

/-! ## A chain -/

/-- The chain can be built, and in every coordinate of the view that comes out
    the cell is accessed that `cell` says. -/
def Meets (v : RegionMatrix) (ops : List Op) (size : List Int)
    (cell : List Int → List Int) : Prop :=
  ∃ w, build v ops = some w ∧
    ∀ c, Contains size c → accessed w c = some (cell c)

theorem size_apply_nil {g : Geometry} {op : Op} (hg : g.size = [])
    (hin : ArgsInRange g.size op) : (g.apply op).size = [] := by
  have hlen : g.size.length = 0 := by rw [hg]; rfl
  cases op with
  | splitRegion offset size =>
      exact List.length_eq_zero_iff.mp (hin.2.1.trans hlen)
  | region c1 c2 => exact List.length_eq_zero_iff.mp (hin.2.2.1.trans hlen)
  | sliceRegion d pos | slice d pos =>
      have hd := hin.1
      omega
  | transposed =>
      show g.size.reverse = []
      rw [hg]
      rfl

/-- Nothing can be made of a view that is lost. -/
theorem Lost.not_meets {v : RegionMatrix} {g : Geometry} {ops : List Op}
    {cell : List Int → List Int} (h : Lost v) (hg : g.size = [])
    (hin : InRange g ops) : ¬Meets v ops (g.build ops).size cell := by
  induction ops generalizing v g with
  | nil =>
      rintro ⟨w, hw, hcell⟩
      have hvw : v = w := Option.some.inj hw
      have hnil : Contains (g.build []).size [] := by
        rw [show (g.build []).size = [] from hg]
        exact ⟨rfl, fun i hi => absurd hi (Nat.not_lt_zero i)⟩
      have hsome := hcell [] hnil
      rw [← hvw, h.accessed] at hsome
      exact nomatch hsome
  | cons op ops ih =>
      rintro ⟨w, hw, hcell⟩
      obtain ⟨u, hu, hrest⟩ := Option.bind_eq_some_iff.mp hw
      have hargs : ArgsInRange [] op := by rw [← hg]; exact hin.1
      exact ih (h.apply hargs hu) (size_apply_nil hg hin.1) hin.2
        ⟨w, hrest, hcell⟩

/-- **CHAINS**: a view whose code fixes other positions than are meant, or the
    same, meets the geometry at the end of a chain exactly if all steps stay in
    bounds, and the positions are right and stay so or no coordinate is left. -/
theorem Stores.meets_iff {v : RegionMatrix} {t t' : Track} {g : Geometry}
    {ops : List Op} (h : Stores v t') (hs : SameShape t' t)
    (hg : Designates t g) (hin : InRange g ops) :
    Meets v ops (g.build ops).size (g.build ops).cell ↔
      AllInBounds t ops ∧ (t'.fixedAxes = t.fixedAxes ∧ AllExact t ops ∨
        ∀ c, ¬Contains (g.build ops).size c) := by
  induction ops generalizing v t t' g with
  | nil =>
      have haccess : ∀ c, Contains g.size c →
          (PbRegionMatrix.accessed v c = some (g.cell c) ↔ t'.fixedAxes = t.fixedAxes) := by
        intro c hc
        have hlen : c.length = v.D := by
          rw [h.length, length_size, hs.sizes, ← length_size, hg.size]
          exact hc.1
        rw [h.accessed hlen, ← hg.cell c hc.1, Option.some.injEq, Track.cell,
          Track.cell, hs.order]
        exact cell_eq_iff hs.shape _ 0
      constructor
      · rintro ⟨w, hw, hcell⟩
        have hvw : v = w := Option.some.inj hw
        subst hvw
        refine ⟨trivial, ?_⟩
        by_cases hempty : ∀ c, ¬Contains g.size c
        · exact Or.inr hempty
        · obtain ⟨c, hc⟩ := not_forall_not.mp hempty
          exact Or.inl ⟨(haccess c hc).mp (hcell c hc), trivial⟩
      · rintro ⟨-, ⟨hfixed, -⟩ | hempty⟩
        · exact ⟨v, rfl, fun c hc => (haccess c hc).mpr hfixed⟩
        · exact ⟨v, rfl, fun c hc => absurd hc (hempty c)⟩
  | cons op ops ih =>
      have hargs : ArgsInRange t.size op := by rw [hg.size]; exact hin.1
      have hargs' : ArgsInRange t'.size op := by
        rw [show t'.size = t.size by rw [Track.size, Track.size, hs.order,
          hs.sizes]]
        exact hargs
      by_cases hb : InBounds t op
      · obtain ⟨w, hw, hstores⟩ := h.apply hargs' ((hs.inBounds op).mpr hb)
        have hmeets : Meets v (op :: ops) = Meets w ops := by
          funext size cell
          show (∃ u, (PbRegionMatrix.apply v op).bind _ = some u ∧ _) = _
          rw [hw]
          rfl
        rw [hmeets]
        refine (ih hstores (hs.apply op) (hg.apply hin.1) hin.2).trans ?_
        rw [hs.fixed_apply hargs]
        show _ ↔ (InBounds t op ∧ AllInBounds (t.apply op) ops) ∧
          (t'.fixedAxes = t.fixedAxes ∧ Exact t op ∧ AllExact (t.apply op) ops ∨
            _)
        rw [and_assoc]
        exact and_congr_left fun _ => ⟨fun hall => ⟨hb, hall⟩, fun hall => hall.2⟩
      · have hnot : ¬AllInBounds t (op :: ops) := fun hall => hb hall.1
        refine iff_of_false ?_ fun hall => hnot hall.1
        rcases h.apply_bad hargs' (fun hb' => hb ((hs.inBounds op).mp hb')) with
          hnone | ⟨w, hw, hlost, hpoint⟩
        · rintro ⟨u, hu, -⟩
          have hu' : (PbRegionMatrix.apply v op).bind (fun w => build w ops) = some u := hu
          rw [hnone] at hu'
          cases hu'
        · rintro ⟨u, hu, hcell⟩
          have hu' : (PbRegionMatrix.apply v op).bind (fun w => build w ops) = some u := hu
          rw [hw] at hu'
          refine hlost.not_meets ?_ hin.2 ⟨u, hu', hcell⟩
          rw [← (hg.apply hin.1).size, Track.size,
            (((hs.apply op).point).mp hpoint).2]
          unfold Track.order
          split <;> rfl

/-- **VIEWS**: for every matrix and every chain of operations with arguments in
    range, the view can be built and accesses at each of its coordinates the cell
    that the geometry designates if and only if every step stays in bounds and,
    unless the view has no coordinate, records the position that is meant. -/
theorem views_exact_iff (size : List Int) (ops : List Op)
    (hin : InRange (Geometry.whole size) ops) :
    Meets (whole size) ops ((Geometry.whole size).build ops).size
        ((Geometry.whole size).build ops).cell ↔
      AllInBounds (Track.whole size) ops ∧ (AllExact (Track.whole size) ops ∨
        ∀ c, ¬Contains ((Geometry.whole size).build ops).size c) := by
  rw [(stores_whole size).meets_iff ⟨rfl, rfl⟩ (designates_whole size) hin]
  simp only [true_and]

/-- A box of a matrix, transposed and sliced. -/
def boxTransposedSlice : List Op :=
  [.region [1, 2] [4, 5], .transposed, .slice 0 1]

theorem views_exact_iff_box :
    InRange (Geometry.whole [4, 5]) boxTransposedSlice ∧
    (Meets (whole [4, 5]) boxTransposedSlice
        ((Geometry.whole [4, 5]).build boxTransposedSlice).size
        ((Geometry.whole [4, 5]).build boxTransposedSlice).cell ↔
      AllInBounds (Track.whole [4, 5]) boxTransposedSlice ∧
        (AllExact (Track.whole [4, 5]) boxTransposedSlice ∨
          ∀ c, ¬Contains
            ((Geometry.whole [4, 5]).build boxTransposedSlice).size c)) ∧
    AllInBounds (Track.whole [4, 5]) boxTransposedSlice ∧
    AllExact (Track.whole [4, 5]) boxTransposedSlice := by
  have hin : InRange (Geometry.whole [4, 5]) boxTransposedSlice := by
    refine ⟨⟨rfl, rfl, rfl, ?_⟩, trivial, ⟨by decide, by decide, by decide⟩,
      trivial⟩
    decide
  refine ⟨hin, views_exact_iff [4, 5] boxTransposedSlice hin, ?_, ?_⟩
  · refine ⟨⟨?_, ?_⟩, ?_, ⟨Or.inl rfl, by decide⟩, trivial⟩
    · intro htr; exact nomatch htr
    · intro hp; exact nomatch hp.2
    · intro hp; exact nomatch hp.2
  · exact ⟨trivial, trivial, rfl, trivial⟩

/-- Two slices, the later one of a later axis: the loop runs off the old slice
    info. -/
def twoSlices : List Op := [.slice 0 1, .slice 0 1]

theorem two_slices_unbuilt :
    ¬ ∀ (size : List Int) (ops : List Op), InRange (Geometry.whole size) ops →
      Meets (whole size) ops ((Geometry.whole size).build ops).size
        ((Geometry.whole size).build ops).cell := by
  intro hclaim
  obtain ⟨w, hw, -⟩ := hclaim [3, 3, 3] twoSlices
    ⟨⟨by decide, by decide, by decide⟩, ⟨by decide, by decide, by decide⟩,
      trivial⟩
  exact nomatch hw

-- the third slice takes the offset of its neighbour
example : (build (whole [4, 4, 4, 4])
    [.region [0, 1, 2, 0] [4, 4, 4, 4], .slice 3 0, .slice 0 0, .slice 0 0]).bind
      (accessed · [0]) = some [0, 2, 2, 0] := by decide

end PbRegionMatrix
