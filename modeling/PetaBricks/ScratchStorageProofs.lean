import PetaBricks.ScratchPieceProofs

/-! # Scratch storages — one box between two storages

    Cell by cell, or packed into a message and unpacked, a copy leaves each cell of the target box
    what the source has there, and no other cell changed (`Copied`).  A message that is as long as
    the whole scratch storage is its storage as it is: the box is then all of it, in order
    (`whole_of_prod`). -/

namespace PbScratchCopy

open PbAxes PbMixedRadix PbRegionMatrix PbRegionSplit PbRemoteCache PbDataHosts
open PbMatrixRegion (Positive boxList boxSize boxSize_zeros doWhile_from coordAt_numberOf
  numberOf InBox inBox_zeros proper_zeros mem_boxList nodup_boxList contains_iff_inBounds
  contains_zeros contains_cons coordAt)

variable {α : Type}

/-! ## Elements -/

/-- The element of a storage at a coordinate. -/
def element (size : List ℤ) (storage : List α) (c : List ℤ) : Option α :=
  PbScatter.get storage (offset (multipliersOf size) c)

/-- All coordinates of a box, in order. -/
def coordsOf (size : List ℤ) : List (List ℤ) := boxList (List.replicate size.length 0) size

/-- The cells of the axes are there. -/
def InView (size : List ℤ) (as : List Axis) : Prop :=
  ∀ x, Contains (sizes as) x → Contains size (cell as x)

/-- **COPIED**: the cells of a box are what they should be, and the others what they were. -/
structure Copied (size : List ℤ) (as : List Axis) (value : List ℤ → Option α)
    (storage storage' : List α) : Prop where
  length : storage'.length = storage.length
  inside : ∀ x, Contains (sizes as) x → element size storage' (cell as x) = value x
  outside : ∀ y, Contains size y → (∀ x, Contains (sizes as) x → cell as x ≠ y) →
    element size storage' y = element size storage y

section Elements

variable {size : List ℤ} {as : List Axis} {storage : List α} {x y : List ℤ}

theorem offset_inside (h : Contains size x) :
    0 ≤ offset (multipliersOf size) x ∧ offset (multipliersOf size) x < size.prod := by
  have hin := contains_iff_inBounds.mp h
  obtain ⟨hlo, hhi⟩ := offset_bounds hin (m := 1) Int.one_nonneg
  rw [one_mul] at hhi
  exact ⟨hlo, Int.lt_of_add_one_le hhi⟩

theorem offset_inj (hx : Contains size x) (hy : Contains size y)
    (h : offset (multipliersOf size) x = offset (multipliersOf size) y) : x = y := by
  rw [offset_multipliersOf, offset_multipliersOf] at h
  exact encode_inj (contains_iff_inBounds.mp hx) (contains_iff_inBounds.mp hy) h

theorem element_exists (hlen : (storage.length : ℤ) = size.prod) (h : Contains size x) :
    ∃ a, element size storage x = some a := by
  obtain ⟨hlo, hhi⟩ := offset_inside h
  exact PbScatter.get_eq_some ⟨hlo, by rw [hlen]; exact hhi⟩

theorem readCell_eq_element (r : RegionDataRaw α) (h : Contains r.size x) :
    r.readCell x = element r.size r.storage x := by
  rw [element, PbScatter.get, if_pos (offset_inside h).1]
  rfl

theorem mem_coordsOf (h : Positive size) : x ∈ coordsOf size ↔ Contains size x := by
  rw [coordsOf, mem_boxList (proper_zeros.mpr h), inBox_zeros]

theorem nodup_coordsOf (h : Positive size) : (coordsOf size).Nodup :=
  nodup_boxList (proper_zeros.mpr h)

theorem length_coordsOf (h : Positive size) : ((coordsOf size).length : ℤ) = size.prod := by
  rw [coordsOf, PbMatrixRegion.length_boxList (proper_zeros.mpr h), boxSize_zeros]

/-- **THE LOOP OVER A BOX** visits all of it. -/
theorem turns_eq (h : Positive size) {n : ℕ} (hn : size.prod ≤ n) :
    turns size n = some (coordsOf size) := by
  have hpos : 0 < size.prod := PbMatrixRegion.Positive.prod_pos h
  obtain ⟨k, hk⟩ : ∃ k : ℕ, size.prod.toNat = k + 1 :=
    Nat.exists_eq_succ_of_ne_zero (by omega)
  obtain ⟨hin, hzero⟩ := (proper_zeros.mpr h).inBox
  have hsize := boxSize_zeros size
  have hrun := doWhile_from hin k (by omega) (by omega : k < n)
  rw [hzero] at hrun
  rw [coordsOf, boxList, hsize, hk]
  refine hrun.trans (congrArg some (List.map_congr_left fun j _ => ?_))
  rw [zero_add]

theorem exists_values {f : List ℤ → Option α} {cs : List (List ℤ)} (hne : cs ≠ [])
    (h : ∀ c ∈ cs, ∃ a, f c = some a) : ∃ value : List ℤ → α, ∀ c ∈ cs, f c = some (value c) := by
  obtain ⟨c, hc⟩ := List.exists_mem_of_ne_nil cs hne
  obtain ⟨a, -⟩ := h c hc
  refine ⟨fun c => (f c).getD a, fun c hc => ?_⟩
  obtain ⟨b, hb⟩ := h c hc
  show f c = some ((f c).getD a)
  rw [hb]
  rfl

/-! ## The loops -/

theorem copyCells_eq {source target : List ℤ → Option ℤ} {f g : List ℤ → ℤ} {value : List ℤ → α}
    {src : List α} {cs : List (List ℤ)} (hf : ∀ c ∈ cs, source c = some (f c))
    (hg : ∀ c ∈ cs, target c = some (g c))
    (hvalue : ∀ c ∈ cs, PbScatter.get src (f c) = some (value c)) (dst : List α) :
    copyCells source target src cs dst =
      PbScatter.putAll (cs.map fun c => (g c, value c)) dst := by
  induction cs generalizing dst with
  | nil => rfl
  | cons c cs ih =>
      rw [List.forall_mem_cons] at hf hg hvalue
      rw [copyCells, hf.1, hg.1, List.map_cons, PbScatter.putAll]
      show (PbScatter.get src (f c)).bind _ = _
      rw [hvalue.1]
      exact congrArg (Option.bind (PbScatter.put dst (g c) (value c)))
        (funext fun dst => ih hf.2 hg.2 hvalue.2 dst)

theorem pack_eq {source : List ℤ → Option ℤ} {f : List ℤ → ℤ} {value : List ℤ → α}
    {src : List α} {cs : List (List ℤ)} (hf : ∀ c ∈ cs, source c = some (f c))
    (hvalue : ∀ c ∈ cs, PbScatter.get src (f c) = some (value c)) :
    pack source src cs = some (cs.map value) := by
  induction cs with
  | nil => rfl
  | cons c cs ih =>
      rw [List.forall_mem_cons] at hf hvalue
      rw [pack, hf.1]
      show (PbScatter.get src (f c)).bind _ = _
      rw [hvalue.1, ih hf.2 hvalue.2]
      rfl

theorem unpack_eq {target : List ℤ → Option ℤ} {g : List ℤ → ℤ} {value : List ℤ → α}
    {cs : List (List ℤ)} (hg : ∀ c ∈ cs, target c = some (g c)) (dst : List α) :
    unpack target cs (cs.map value) dst =
      PbScatter.putAll (cs.map fun c => (g c, value c)) dst := by
  induction cs generalizing dst with
  | nil => rfl
  | cons c cs ih =>
      rw [List.forall_mem_cons] at hg
      rw [List.map_cons, unpack, hg.1, List.map_cons, PbScatter.putAll]
      exact congrArg (Option.bind (PbScatter.put dst (g c) (value c)))
        (funext fun dst => ih hg.2 dst)

/-- The index of a coordinate of the axes. -/
def indexOf (size : List ℤ) (as : List Axis) (x : List ℤ) : ℤ :=
  offset (multipliersOf size) (cell as x)

theorem toRegionDataIndex_eq (size : List ℤ) (hpos : Positive (sizes as)) :
    ∀ c ∈ coordsOf (sizes as),
      toRegionDataIndex (ofAxes as) (multipliersOf size) c = some (indexOf size as c) := by
  intro c hc
  rw [toRegionDataIndex, toRegionDataCoord_ofAxes ((mem_coordsOf hpos).mp hc).1, Option.map_some,
    indexOf]

/-- **ALL WRITES OF A BOX.** -/
theorem putAll_box (hpos : Positive (sizes as)) (hin : InView size as)
    (hlen : (storage.length : ℤ) = size.prod) (value : List ℤ → α) :
    ∃ storage', PbScatter.putAll
        ((coordsOf (sizes as)).map fun c => (indexOf size as c, value c)) storage = some storage' ∧
      Copied size as (fun x => some (value x)) storage storage' := by
  have hmap : ((coordsOf (sizes as)).map fun c => (indexOf size as c, value c)).map Prod.fst =
      (coordsOf (sizes as)).map (indexOf size as) := by
    rw [List.map_map]
    rfl
  have hmem : ∀ c ∈ coordsOf (sizes as), Contains (sizes as) c := fun c hc =>
    (mem_coordsOf hpos).mp hc
  have hplaces : ∀ w ∈ (coordsOf (sizes as)).map fun c => (indexOf size as c, value c),
      0 ≤ w.1 ∧ w.1 < storage.length := by
    intro w hw
    obtain ⟨c, hc, rfl⟩ := List.mem_map.mp hw
    rw [hlen]
    exact offset_inside (hin c (hmem c hc))
  have hnodup : ((coordsOf (sizes as)).map (indexOf size as)).Nodup := by
    refine List.Nodup.map_on (fun c hc c' hc' heq => ?_) (nodup_coordsOf hpos)
    have hcell := offset_inj (hin c (hmem c hc)) (hin c' (hmem c' hc')) heq
    exact cell_inj (hmem c hc).1 (hmem c' hc').1 hcell
  obtain ⟨storage', hput, hlength, hself, hother⟩ :=
    PbScatter.putAll_spec _ storage hplaces (hmap ▸ hnodup)
  refine ⟨storage', hput, hlength, fun x hx => ?_, fun y hy hne => hother _ fun hmem' => ?_⟩
  · exact hself _ (List.mem_map.mpr ⟨x, (mem_coordsOf hpos).mpr hx, rfl⟩)
  · rw [hmap] at hmem'
    obtain ⟨x, hx, heq⟩ := List.mem_map.mp hmem'
    exact hne x (hmem x hx) (offset_inj (hin x (hmem x hx)) hy heq)

/-- The values of a box that is there. -/
theorem exists_elements (hpos : Positive (sizes as)) (hin : InView size as)
    (hlen : (storage.length : ℤ) = size.prod) :
    ∃ value : List ℤ → α, ∀ c ∈ coordsOf (sizes as),
      PbScatter.get storage (indexOf size as c) = some (value c) := by
  refine exists_values (List.ne_nil_of_mem ((mem_coordsOf hpos).mpr (contains_zeros.mpr hpos))) ?_
  intro c hc
  exact element_exists hlen (hin c ((mem_coordsOf hpos).mp hc))

theorem Copied.congr {value value' : List ℤ → Option α} {storage' : List α}
    (h : Copied size as value storage storage')
    (heq : ∀ x, Contains (sizes as) x → value x = value' x) :
    Copied size as value' storage storage' :=
  ⟨h.length, fun x hx => (h.inside x hx).trans (heq x hx), h.outside⟩

/-! ## A box that is all of a storage -/

theorem le_of_shifted {os ns : List ℤ} (hlen : os.length = ns.length) (ho : ∀ o ∈ os, 0 ≤ o)
    (hin : List.Forall₂ (· ≤ ·) (shifted ns os) size) : List.Forall₂ (· ≤ ·) ns size := by
  induction os generalizing ns size with
  | nil =>
      cases ns with
      | nil => exact hin
      | cons n ns => cases hlen
  | cons o os ih =>
      cases ns with
      | nil => cases hlen
      | cons n ns =>
          obtain ⟨ho₀, ho⟩ := List.forall_mem_cons.mp ho
          cases hin with
          | cons hle hin =>
              exact .cons ((Int.le_add_of_nonneg_right ho₀).trans hle)
                (ih (Nat.succ.inj hlen) ho hin)

/-- Sizes with one product, each at most the other, are the same. -/
theorem eq_of_prod {ns : List ℤ} (hpos : Positive ns) (hle : List.Forall₂ (· ≤ ·) ns size)
    (hprod : ns.prod = size.prod) : ns = size := by
  induction hle with
  | nil => rfl
  | @cons n s ns size hns hle ih =>
      obtain ⟨hn, hpos⟩ := List.forall_mem_cons.mp hpos
      have hrest := prod_le_prod hpos hle
      have hprod₀ := PbMatrixRegion.Positive.prod_pos hpos
      rw [List.prod_cons, List.prod_cons] at hprod
      have heq : n = s := by
        by_contra hne
        have hlt : n < s := lt_of_le_of_ne hns hne
        nlinarith
      subst heq
      exact congrArg (n :: ·) (ih hpos (mul_left_cancel₀ hn.ne' hprod))

theorem zero_of_shifted {os ns : List ℤ} (hlen : os.length = ns.length) (ho : ∀ o ∈ os, 0 ≤ o)
    (hin : List.Forall₂ (· ≤ ·) (shifted ns os) ns) : os = List.replicate os.length 0 := by
  induction os generalizing ns with
  | nil => rfl
  | cons o os ih =>
      cases ns with
      | nil => cases hlen
      | cons n ns =>
          obtain ⟨ho₀, ho⟩ := List.forall_mem_cons.mp ho
          cases hin with
          | cons hle hin =>
              have hle' : n + o ≤ n := hle
              exact congrArg₂ List.cons (by omega) (ih (Nat.succ.inj hlen) ho hin)

theorem shifted_zeros (x : List ℤ) : shifted x (List.replicate x.length 0) = x := by
  induction x with
  | nil => rfl
  | cons y x ih =>
      rw [List.length_cons, List.replicate_succ]
      exact congrArg₂ List.cons (Int.add_zero y) ih

theorem offset_eq_numberOf (h : Contains size x) :
    offset (multipliersOf size) x = numberOf (List.replicate size.length 0) size x := by
  rw [offset_multipliersOf]
  induction size generalizing x with
  | nil =>
      rw [List.length_eq_zero_iff.mp h.1]
      rfl
  | cons s size ih =>
      cases x with
      | nil => cases h.1
      | cons y x =>
          rw [List.length_cons, List.replicate_succ, encode, numberOf,
            ih (contains_cons.mp h).2, sub_zero, sub_zero]

/-- The coordinate with a number. -/
theorem getElem?_coordsOf {p : ℤ} (hp : 0 ≤ p) (hlt : p < size.prod) :
    (coordsOf size)[p.toNat]? = some (coordAt (List.replicate size.length 0) size p) := by
  rw [coordsOf, boxList, List.getElem?_map, List.getElem?_range (by rw [boxSize_zeros]; omega),
    Option.map_some, Int.toNat_of_nonneg hp]

/-- What is packed from all of a box has its elements in order. -/
theorem element_map (value : List ℤ → α) (h : Contains size x) :
    element size ((coordsOf size).map value) x = some (value x) := by
  have hbox := inBox_zeros.mpr h
  obtain ⟨h0, hlt⟩ := hbox.bounds
  rw [boxSize_zeros] at hlt
  rw [element, offset_eq_numberOf h, PbScatter.get, if_pos h0, List.getElem?_map,
    getElem?_coordsOf h0 hlt, coordAt_numberOf hbox]
  rfl

/-- The storage of all of a box is what would be packed. -/
theorem storage_eq_map (hpos : Positive size) (hlen : (storage.length : ℤ) = size.prod)
    {value : List ℤ → α} (h : ∀ x, Contains size x → element size storage x = some (value x)) :
    storage = (coordsOf size).map value := by
  have hcount := length_coordsOf hpos
  refine PbScatter.ext_get (by rw [List.length_map]; omega) fun p hp hlt => ?_
  rw [hlen] at hlt
  obtain ⟨hbox, hnumber⟩ := PbMatrixRegion.coordAt_inBox (proper_zeros.mpr hpos) hp
    (by rwa [boxSize_zeros])
  have hx := inBox_zeros.mp hbox
  have hval := (h _ hx).trans (element_map value hx).symm
  rwa [element, element, offset_eq_numberOf hx, hnumber] at hval

end Elements

/-! ## The parts -/

section Parts

variable {size : List ℤ} {storage : List α} {as bs : List Axis} {n : ℕ}

/-- A box of raw data and one of a scratch storage that are to be copied. -/
structure Boxes (r : RegionDataRaw α) (as : List Axis) (size : List ℤ) (storage : List α)
    (bs : List Axis) : Prop where
  sizes_eq : sizes bs = sizes as
  positive : Positive (sizes as)
  source : InView r.size as
  target : InView size bs
  count : (storage.length : ℤ) = size.prod
  whole : (sizes as).prod = size.prod → sizes as = size ∧ ∀ x, Contains size x → cell bs x = x

theorem withStorage_eq {r : RegionDataRaw α} {storage : List α}
    (h : storage.length = r.storage.length) :
    ∃ r', withStorage r.size storage = some r' ∧ r'.size = r.size ∧ r'.storage = storage := by
  have hcount : (storage.length : ℤ) = r.size.prod := by rw [h, r.count_eq]
  exact ⟨⟨r.size, storage, hcount⟩, dif_pos hcount, rfl, rfl⟩

theorem rawCopyTo_spec {r : RegionDataRaw α} (h : Boxes r as size storage bs)
    (hn : (sizes as).prod ≤ n) :
    ∃ storage', rawCopyToScratchMatrixStorage r (ofAxes as) (ofAxes bs) size storage n =
        some storage' ∧
      Copied size bs (fun x => element r.size r.storage (cell as x)) storage storage' := by
  obtain ⟨value, hvalue⟩ := exists_elements h.positive h.source r.count_eq
  have hpos : Positive (sizes bs) := h.sizes_eq ▸ h.positive
  have htarget := toRegionDataIndex_eq size hpos
  obtain ⟨storage', hput, hcopied⟩ := putAll_box hpos h.target h.count value
  rw [h.sizes_eq] at htarget hput
  refine ⟨storage', ?_, hcopied.congr fun x hx => ?_⟩
  · rw [rawCopyToScratchMatrixStorage]
    show (turns (sizes as) n).bind _ = _
    rw [turns_eq h.positive hn, Option.bind_some,
      copyCells_eq (toRegionDataIndex_eq _ h.positive) htarget hvalue, hput]
  · rw [h.sizes_eq] at hx
    exact (hvalue x ((mem_coordsOf h.positive).mpr hx)).symm

theorem rawCopyFrom_spec {r : RegionDataRaw α} (h : Boxes r as size storage bs)
    (hn : (sizes as).prod ≤ n) :
    ∃ r', rawCopyFromScratchMatrixStorage r (ofAxes as) (ofAxes bs) size storage n = some r' ∧
      r'.size = r.size ∧
      Copied r.size as (fun x => element size storage (cell bs x)) r.storage r'.storage := by
  have hpos : Positive (sizes bs) := h.sizes_eq ▸ h.positive
  obtain ⟨value, hvalue⟩ := exists_elements hpos h.target h.count
  have hsource := toRegionDataIndex_eq size hpos
  rw [h.sizes_eq] at hsource hvalue
  obtain ⟨storage', hput, hcopied⟩ := putAll_box h.positive h.source r.count_eq value
  obtain ⟨r', hr', hsize, hstorage⟩ := withStorage_eq hcopied.length
  refine ⟨r', ?_, hsize, ?_⟩
  · rw [rawCopyFromScratchMatrixStorage]
    show (turns (sizes as) n).bind _ = _
    rw [turns_eq h.positive hn, Option.bind_some,
      copyCells_eq hsource (toRegionDataIndex_eq _ h.positive) hvalue]
    show (PbScatter.putAll _ r.storage).bind _ = _
    rw [hput, Option.bind_some, hr']
  · rw [hstorage]
    exact hcopied.congr fun x hx => (hvalue x ((mem_coordsOf h.positive).mpr hx)).symm

theorem processCopyTo_spec {r : RegionDataRaw α} (hpos : Positive (sizes as))
    (hn : (sizes as).prod ≤ n) {value : List ℤ → α}
    (hvalue : ∀ c ∈ coordsOf (sizes as),
      PbScatter.get r.storage (indexOf r.size as c) = some (value c)) :
    processCopyToMatrixStorageMsg r (ofAxes as) n =
      some ⟨(sizes as).prod, (coordsOf (sizes as)).map value⟩ := by
  rw [processCopyToMatrixStorageMsg]
  show (turns (sizes as) n).bind _ = _
  rw [turns_eq hpos hn, Option.bind_some, pack_eq (toRegionDataIndex_eq _ hpos) hvalue]
  exact if_pos (by rw [List.length_map, length_coordsOf hpos]; rfl)

theorem processCopyFrom_spec {r : RegionDataRaw α} (hpos : Positive (sizes as))
    (hin : InView r.size as) (hn : (sizes as).prod ≤ n) (value : List ℤ → α) :
    ∃ r', processCopyFromMatrixStorageMsg r (ofAxes as) ((coordsOf (sizes as)).map value) n =
        some r' ∧ r'.size = r.size ∧
      Copied r.size as (fun x => some (value x)) r.storage r'.storage := by
  obtain ⟨storage', hput, hcopied⟩ := putAll_box hpos hin r.count_eq value
  obtain ⟨r', hr', hsize, hstorage⟩ := withStorage_eq hcopied.length
  refine ⟨r', ?_, hsize, hstorage ▸ hcopied⟩
  rw [processCopyFromMatrixStorageMsg]
  show (turns (sizes as) n).bind _ = _
  rw [turns_eq hpos hn, Option.bind_some, unpack_eq (toRegionDataIndex_eq _ hpos)]
  show (PbScatter.putAll _ r.storage).bind _ = _
  rw [hput, Option.bind_some, hr']

theorem remoteCopyTo_spec {r : RegionDataRaw α} (h : Boxes r as size storage bs)
    (hn : (sizes as).prod ≤ n) :
    ∃ storage', remoteCopyToScratchMatrixStorage r (ofAxes as) (ofAxes bs) size storage n =
        some storage' ∧
      Copied size bs (fun x => element r.size r.storage (cell as x)) storage storage' := by
  obtain ⟨value, hvalue⟩ := exists_elements h.positive h.source r.count_eq
  have hpos : Positive (sizes bs) := h.sizes_eq ▸ h.positive
  have hread : ∀ x, Contains (sizes as) x →
      element r.size r.storage (cell as x) = some (value x) := fun x hx =>
    hvalue x ((mem_coordsOf h.positive).mpr hx)
  rw [remoteCopyToScratchMatrixStorage, processCopyTo_spec h.positive hn hvalue]
  show ∃ storage', (if (sizes as).prod = (storage.length : ℤ) then _ else _) = _ ∧ _
  by_cases hall : (sizes as).prod = (storage.length : ℤ)
  · -- the reply is the storage
    obtain ⟨hsizes, hcell⟩ := h.whole (hall.trans h.count)
    have hlen : ((coordsOf (sizes as)).map value).length = storage.length := by
      have hcount := length_coordsOf h.positive
      rw [List.length_map]
      omega
    refine ⟨(coordsOf (sizes as)).map value, ?_, hlen, fun x hx => ?_, fun y hy hne => ?_⟩
    · rw [if_pos hall]
      show (if ((coordsOf (sizes as)).map value).length < storage.length then _ else _) = _
      rw [if_neg hlen.not_lt, ← hlen, List.take_length]
      rfl
    · rw [h.sizes_eq] at hx
      rw [hread x hx]
      rw [hsizes] at hx ⊢
      rw [hcell x hx]
      exact element_map value hx
    · refine absurd (hcell y hy) (hne y ?_)
      rwa [h.sizes_eq, hsizes]
  · have htarget := toRegionDataIndex_eq size hpos
    obtain ⟨storage', hput, hcopied⟩ := putAll_box hpos h.target h.count value
    rw [h.sizes_eq] at htarget hput
    refine ⟨storage', ?_, hcopied.congr fun x hx => ?_⟩
    · rw [if_neg hall]
      show (turns (sizes as) n).bind _ = _
      rw [turns_eq h.positive hn, Option.bind_some]
      exact (unpack_eq htarget storage).trans hput
    · rw [h.sizes_eq] at hx
      exact (hread x hx).symm

theorem remoteCopyFrom_spec {r : RegionDataRaw α} (h : Boxes r as size storage bs)
    (hn : (sizes as).prod ≤ n) {room : ℤ} (hroom : (sizes as).prod ≤ room) :
    ∃ r', remoteCopyFromScratchMatrixStorage r (ofAxes as) (ofAxes bs) size storage room n =
        some r' ∧ r'.size = r.size ∧
      Copied r.size as (fun x => element size storage (cell bs x)) r.storage r'.storage := by
  have hpos : Positive (sizes bs) := h.sizes_eq ▸ h.positive
  obtain ⟨value, hvalue⟩ := exists_elements hpos h.target h.count
  have hsource := toRegionDataIndex_eq size hpos
  rw [h.sizes_eq] at hsource hvalue
  obtain ⟨r', hr', hsize, hcopied⟩ := processCopyFrom_spec h.positive h.source hn value
  have hlen : (((coordsOf (sizes as)).map value).length : ℤ) ≤ room := by
    rwa [List.length_map, length_coordsOf h.positive]
  refine ⟨r', ?_, hsize, hcopied.congr fun x hx =>
    (hvalue x ((mem_coordsOf h.positive).mpr hx)).symm⟩
  rw [remoteCopyFromScratchMatrixStorage]
  show (if (sizes as).prod = (storage.length : ℤ) then _ else _) = _
  by_cases hall : (sizes as).prod = (storage.length : ℤ)
  · -- the message is the storage
    obtain ⟨hsizes, hcell⟩ := h.whole (hall.trans h.count)
    have hstorage : storage = (coordsOf (sizes as)).map value := by
      have hpos' := h.positive
      rw [hsizes] at hvalue hpos' ⊢
      refine storage_eq_map hpos' h.count fun x hx => ?_
      have hx' := hvalue x ((mem_coordsOf hpos').mpr hx)
      rwa [indexOf, hcell x hx] at hx'
    rw [if_pos hall, ← hr', ← hstorage]
    exact if_pos ⟨hstorage ▸ hlen, hroom⟩
  · rw [if_neg hall]
    show (turns (sizes as) n).bind _ = _
    rw [turns_eq h.positive hn, Option.bind_some, pack_eq hsource hvalue, ← hr']
    exact if_pos ⟨hlen, hroom⟩

end Parts

end PbScratchCopy
