import Mathlib.Algebra.BigOperators.Ring.List
import Mathlib.Algebra.Order.BigOperators.GroupWithZero.List
import PetaBricks.MatrixRegionProofs
import PetaBricks.NormalizedRegionModel

/-! # Normalised buffers — when the layout is canonical

    A copy has the elements in ascending order (`copyToArray_spec`), and writing it back stores
    each of them at its coordinate (`copyFromArray_spec`).

    The fast exit looks at element counts alone, so it gives out a transposed view of a whole
    storage as it is.  The copying loops have their condition at the end, so an empty box of a
    larger matrix has its corner read, and written outside the array. -/

namespace PbMatrixRegion

open PbMixedRadix PbRegionMatrix PbRemoteCache PbLocalRegion PbScatter

/-! ## Claims about buffers -/

/-- A region of a storage of so many elements. -/
structure Placed (total : ℕ) (m : MatrixRegion) : Prop where
  sizes_nonneg : ∀ s ∈ m.sizes, 0 ≤ s
  multipliers : m.multipliers.length = m.sizes.length
  pointer : ∀ c, Contains m.sizes c → ∃ p, coordToPtr m c = some p ∧ 0 ≤ p ∧ p < total
  distinct : ∀ c c', Contains m.sizes c → Contains m.sizes c' →
    coordToPtr m c = coordToPtr m c' → c = c'

/-- From this place on, each element stands at its position in ascending order. -/
def Ascending {E : Type} (m : MatrixRegion) (storage data : List E) (base : ℤ) : Prop :=
  ∀ c, Contains m.sizes c → get data (base + encode m.sizes c) = cell m storage c

/-- **NORMALISATION** of a region, whatever the elements are. -/
structure Normalizes (total : ℕ) (m : MatrixRegion) : Prop where
  normalized : ∀ (E : Type) (storage fresh : List E), storage.length = total →
    (fresh.length : ℤ) = count m →
      (∃ n r, asNormalizedRegion m storage fresh n = some r) ∧
        ∀ n t data, asNormalizedRegion m storage fresh n = some (t, data) →
          t.sizes = m.sizes ∧ (m.sizes ≠ [] → (data.length : ℤ) = count m) ∧
            Ascending m storage data t.base
  toArray : ∀ (E : Type) (storage fresh : List E), storage.length = total →
    (fresh.length : ℤ) = count m →
      (∃ n ar, toCArray m storage fresh n = some ar) ∧
        ∀ n ar, toCArray m storage fresh n = some ar →
          (ar.data.length : ℤ) = count m ∧ Ascending m storage ar.data 0
  fromArray : ∀ (E : Type) (storage fresh : List E) (n : ℕ) (ar : CArray E),
    storage.length = total → (fresh.length : ℤ) = count m →
      toCArray m storage fresh n = some ar → ∀ written : List E, (written.length : ℤ) = count m →
        (∃ k after, fromCArray m storage ⟨ar.shared, written⟩ k = some after) ∧
          ∀ k after, fromCArray m storage ⟨ar.shared, written⟩ k = some after →
            after.length = storage.length ∧
              (∀ c, Contains m.sizes c → cell m after c = get written (encode m.sizes c)) ∧
                ∀ p, (∀ c, Contains m.sizes c → coordToPtr m c ≠ some p) →
                  get after p = get storage p

/-- The elements of a buffer. -/
def bufferOf {E : Type} (r : MatrixRegion × List E) : List (Option E) :=
  (List.range (count r.1).toNat).map fun j : ℕ => get r.2 (r.1.base + j)

/-- Equal contents have equal buffers. -/
def SameBuffers (total total' : ℕ) (m m' : MatrixRegion) : Prop :=
  ∀ (E : Type) (storage storage' fresh fresh' : List E), storage.length = total →
    storage'.length = total' → (fresh.length : ℤ) = count m → (fresh'.length : ℤ) = count m' →
      (∀ c, Contains m.sizes c → cell m storage c = cell m' storage' c) →
        (∀ n n' r r', asNormalizedRegion m storage fresh n = some r →
          asNormalizedRegion m' storage' fresh' n' = some r' → bufferOf r = bufferOf r') ∧
        ∀ n n' ar ar', toCArray m storage fresh n = some ar →
          toCArray m' storage' fresh' n' = some ar' → ar.data = ar'.data

/-- The multipliers of the ascending stock layout, where a dimension has more than one place. -/
def Stock : ℤ → List ℤ → List ℤ → Prop
  | mult, s :: size, m :: multipliers => (1 < s → m = mult) ∧ Stock (mult * s) size multipliers
  | _, _, _ => True

/-- The layout is the stock one where the buffer is given out as it is, and there is something to
    copy where it is not. -/
def Copyable (total : ℕ) (m : MatrixRegion) : Prop :=
  m.sizes = [] ∨
    (if (total : ℤ) = count m then Positive m.sizes → Stock 1 m.sizes m.multipliers
      else Positive m.sizes ∧ count m < 2 ^ 31)

/-! ## Positions -/

theorem numberOf_zeros {size c : List ℤ} (h : Contains size c) :
    numberOf (List.replicate size.length 0) size c = encode size c := by
  rw [contains_iff_inBounds] at h
  induction h with
  | nil => rfl
  | @cons x s c size hx hrest ih =>
      rw [List.length_cons, List.replicate_succ, numberOf, encode, ih, sub_zero, sub_zero]

theorem exists_position {size : List ℤ} (hs : ∀ s ∈ size, 0 ≤ s) {p : ℤ} (h0 : 0 ≤ p)
    (hp : p < size.prod) : ∃ c, Contains size c ∧ encode size c = p :=
  ⟨digits size p, contains_iff_inBounds.mpr (digits_within hs h0 hp), encode_digits hs h0 hp⟩

theorem position_bounds {size c : List ℤ} (h : Contains size c) :
    0 ≤ encode size c ∧ encode size c < size.prod :=
  encode_bounds (contains_iff_inBounds.mp h)

theorem position_inj {size c c' : List ℤ} (h : Contains size c) (h' : Contains size c')
    (heq : encode size c = encode size c') : c = c' :=
  encode_inj (contains_iff_inBounds.mp h) (contains_iff_inBounds.mp h') heq

/-- The coordinates of a region in ascending order. -/
def coords (m : MatrixRegion) : List (List ℤ) := boxList (zeros m) m.sizes

section Coords

variable {m : MatrixRegion}

theorem Positive.proper (h : Positive m.sizes) : Proper (zeros m) m.sizes := proper_zeros.mpr h

theorem mem_coords (h : Positive m.sizes) {c : List ℤ} : c ∈ coords m ↔ Contains m.sizes c := by
  rw [coords, mem_boxList h.proper, zeros, inBox_zeros]

theorem length_coords (h : Positive m.sizes) : ((coords m).length : ℤ) = count m := by
  rw [coords, length_boxList h.proper, zeros, boxSize_zeros, count]

theorem position_coords (h : Positive m.sizes) (j : ℕ) (hj : j < (coords m).length) :
    encode m.sizes (coords m)[j] = j := by
  have hsize : (j : ℤ) < boxSize (zeros m) m.sizes := by
    rw [zeros, boxSize_zeros, ← count, ← length_coords h]
    omega
  obtain ⟨hin, hnumber⟩ := coordAt_inBox h.proper (Int.natCast_nonneg j) hsize
  have hget : (coords m)[j] = coordAt (zeros m) m.sizes j := by
    simp only [coords, boxList, List.getElem_map, List.getElem_range]
  rw [hget, ← numberOf_zeros (inBox_zeros.mp hin)]
  exact hnumber

theorem doWhile_coords (h : Positive m.sizes) :
    (∃ n, doWhile (incCoord m) n (zeros m) = some (coords m)) ∧
      ∀ n cs, doWhile (incCoord m) n (zeros m) = some cs → cs = coords m := by
  obtain ⟨n, hn⟩ := doWhile_box h.proper
  exact ⟨⟨n, hn⟩, fun k cs hk => doWhile_unique hk hn⟩

end Coords

/-! ## Loops are writes -/

section Loops

variable {E : Type} {m : MatrixRegion} {s : List E} {cs : List (List ℤ)} {val : List ℤ → E}
  {ptr : List ℤ → ℤ}

theorem setCell_eq {t : MatrixRegion} {c : List ℤ} {p : ℤ} (h : coordToPtr t c = some p)
    (data : List E) (x : E) : setCell t data c x = put data p x := by
  rw [setCell, h, Option.bind_some]

theorem copyCells_eq {t : MatrixRegion} (hval : ∀ c ∈ cs, cell m s c = some (val c))
    (hptr : ∀ c ∈ cs, coordToPtr t c = some (ptr c)) (data : List E) :
    copyCells m s t cs data = putAll (cs.map fun c => (ptr c, val c)) data := by
  induction cs generalizing data with
  | nil => rfl
  | cons c cs ih =>
      have hrest := ih (fun c' h => hval c' (List.mem_cons_of_mem c h))
        fun c' h => hptr c' (List.mem_cons_of_mem c h)
      rw [copyCells, hval c List.mem_cons_self, List.map_cons, putAll,
        ← setCell_eq (hptr c List.mem_cons_self)]
      exact congrArg (Option.bind _) (funext hrest)

/-- The counter of an array loop is the position. -/
theorem copyToArray_eq {n : ℤ} (hval : ∀ c ∈ cs, cell m s c = some (val c))
    (hnum : ∀ (j : ℕ) (hj : j < cs.length), encode m.sizes cs[j] = n + j) (h0 : 0 ≤ n)
    (hint : n + cs.length < 2 ^ 31) (out : List E) :
    copyToArray m s cs n out = putAll (cs.map fun c => (encode m.sizes c, val c)) out := by
  induction cs generalizing n out with
  | nil => rfl
  | cons c cs ih =>
      have hfirst := hnum 0 (Nat.succ_pos _)
      rw [List.getElem_cons_zero, Nat.cast_zero, add_zero] at hfirst
      rw [List.length_cons] at hint
      have hrest := ih (fun c' h => hval c' (List.mem_cons_of_mem c h))
        (fun j hj => by
          have hnext := hnum (j + 1) (Nat.succ_lt_succ hj)
          rw [List.getElem_cons_succ] at hnext
          rw [hnext]
          push_cast
          ring) (by omega : 0 ≤ n + 1) (by push_cast at hint; omega)
      have hn : IsInt (n + 1) := ⟨by omega, by push_cast at hint; omega⟩
      rw [copyToArray, hval c List.mem_cons_self, List.map_cons, putAll, hfirst]
      show (put out n (val c)).bind _ = (put out n (val c)).bind _
      refine congrArg (Option.bind _) (funext fun data => ?_)
      rw [if_pos hn, hrest]

theorem copyFromArray_eq {array : List E} {n : ℤ}
    (hval : ∀ c ∈ cs, get array (encode m.sizes c) = some (val c))
    (hptr : ∀ c ∈ cs, coordToPtr m c = some (ptr c))
    (hnum : ∀ (j : ℕ) (hj : j < cs.length), encode m.sizes cs[j] = n + j) (h0 : 0 ≤ n)
    (hint : n + cs.length < 2 ^ 31) (storage : List E) :
    copyFromArray m array cs n storage = putAll (cs.map fun c => (ptr c, val c)) storage := by
  induction cs generalizing n storage with
  | nil => rfl
  | cons c cs ih =>
      have hfirst := hnum 0 (Nat.succ_pos _)
      rw [List.getElem_cons_zero, Nat.cast_zero, add_zero] at hfirst
      rw [List.length_cons] at hint
      have hrest := ih (fun c' h => hval c' (List.mem_cons_of_mem c h))
        (fun c' h => hptr c' (List.mem_cons_of_mem c h))
        (fun j hj => by
          have hnext := hnum (j + 1) (Nat.succ_lt_succ hj)
          rw [List.getElem_cons_succ] at hnext
          rw [hnext]
          push_cast
          ring) (by omega : 0 ≤ n + 1) (by push_cast at hint; omega)
      have hn : IsInt (n + 1) := ⟨by omega, by push_cast at hint; omega⟩
      rw [copyFromArray, ← hfirst, hval c List.mem_cons_self, List.map_cons, putAll,
        ← setCell_eq (hptr c List.mem_cons_self)]
      show (setCell m storage c (val c)).bind _ = (setCell m storage c (val c)).bind _
      refine congrArg (Option.bind _) (funext fun data => ?_)
      rw [hfirst, if_pos hn, hrest]

/-- The counter that is incremented is an int. -/
theorem copyToArray_fits {n : ℤ} {out data : List E} (h : copyToArray m s cs n out = some data)
    (hne : cs ≠ []) : (0 ≤ n ∧ n < out.length) ∧ n + cs.length < 2 ^ 31 := by
  induction cs generalizing n out with
  | nil => exact absurd rfl hne
  | cons c cs ih =>
      rw [copyToArray] at h
      obtain ⟨x, _, h⟩ := Option.bind_eq_some_iff.mp h
      obtain ⟨out', hput, h⟩ := Option.bind_eq_some_iff.mp h
      split at h
      · rename_i hn
        have hin : 0 ≤ n ∧ n < out.length := by
          rw [put] at hput
          split at hput
          · assumption
          · cases hput
        refine ⟨hin, ?_⟩
        by_cases hcs : cs = []
        · rw [hcs]
          exact hn.2
        · have hlast := (ih h hcs).2
          rw [List.length_cons]
          push_cast
          omega
      · cases h

end Loops

/-! ## Copies -/

section Copies

variable {E : Type} {total : ℕ} {m : MatrixRegion} {s fresh : List E}

theorem Placed.cell (h : Placed total m) (hs : s.length = total) {c : List ℤ}
    (hc : Contains m.sizes c) : ∃ x, cell m s c = some x := by
  obtain ⟨p, hp, hin⟩ := h.pointer c hc
  rw [PbMatrixRegion.cell, hp]
  exact get_eq_some (by rw [hs]; exact hin)

theorem nodup_positions {cs : List (List ℤ)} {size : List ℤ} (hin : ∀ c ∈ cs, Contains size c)
    (h : cs.Nodup) : (cs.map (encode size)).Nodup :=
  List.Nodup.map_on (fun c hc c' hc' heq => position_inj (hin c hc) (hin c' hc') heq) h

/-- Each element written at its position. -/
theorem putPositions_spec (hpos : Positive m.sizes) {val : List ℤ → E}
    (hval : ∀ c, Contains m.sizes c → PbMatrixRegion.cell m s c = some (val c))
    (hfresh : (fresh.length : ℤ) = count m) :
    ∃ data, putAll ((coords m).map fun c => (encode m.sizes c, val c)) fresh = some data ∧
      (data.length : ℤ) = count m ∧ Ascending m s data 0 := by
  have hin : ∀ c ∈ coords m, Contains m.sizes c := fun c hc => (mem_coords hpos).mp hc
  obtain ⟨data, hputs, hdata, hwritten, _⟩ :=
    putAll_spec ((coords m).map fun c => (encode m.sizes c, val c)) fresh
      (fun w hw => by
        obtain ⟨c, hc, rfl⟩ := List.mem_map.mp hw
        rw [hfresh]
        exact position_bounds (hin c hc))
      (by rw [List.map_map]; exact nodup_positions hin (nodup_boxList hpos.proper))
  refine ⟨data, hputs, by rw [hdata, hfresh], fun c hc => ?_⟩
  rw [zero_add, hval c hc]
  exact hwritten (_, val c) (List.mem_map_of_mem ((mem_coords hpos).mpr hc))

/-- **INTO AN ARRAY**: the elements in ascending order. -/
theorem copyToArray_spec (h : Placed total m) (hpos : Positive m.sizes) (hcount : count m < 2 ^ 31)
    (hs : s.length = total) (hfresh : (fresh.length : ℤ) = count m) :
    ∃ data, copyToArray m s (coords m) 0 fresh = some data ∧ (data.length : ℤ) = count m ∧
      Ascending m s data 0 := by
  have hin : ∀ c ∈ coords m, Contains m.sizes c := fun c hc => (mem_coords hpos).mp hc
  obtain ⟨x, _⟩ := h.cell hs (contains_zeros.mpr hpos)
  have : Nonempty E := ⟨x⟩
  choose! val hval using fun c (hc : Contains m.sizes c) => h.cell hs hc
  have hcoords := length_coords hpos
  have hloop := copyToArray_eq (fun c hc => hval c (hin c hc))
    (fun j hj => by rw [position_coords hpos j hj, zero_add]) le_rfl (by omega) fresh
  obtain ⟨data, hputs, hlen, hascending⟩ := putPositions_spec hpos hval hfresh
  exact ⟨data, hloop.trans hputs, hlen, hascending⟩

/-- **BACK FROM AN ARRAY**: each element at its coordinate, and nothing else. -/
theorem copyFromArray_spec (h : Placed total m) (hpos : Positive m.sizes)
    (hcount : count m < 2 ^ 31) (hs : s.length = total) {written : List E}
    (hwritten : (written.length : ℤ) = count m) :
    ∃ after, copyFromArray m written (coords m) 0 s = some after ∧ after.length = s.length ∧
      (∀ c, Contains m.sizes c → cell m after c = get written (encode m.sizes c)) ∧
        ∀ p, (∀ c, Contains m.sizes c → coordToPtr m c ≠ some p) → get after p = get s p := by
  have hin : ∀ c ∈ coords m, Contains m.sizes c := fun c hc => (mem_coords hpos).mp hc
  have hread : ∀ c, Contains m.sizes c → ∃ x, get written (encode m.sizes c) = some x :=
    fun c hc => get_eq_some (by rw [hwritten]; exact position_bounds hc)
  obtain ⟨x, _⟩ := hread _ (contains_zeros.mpr hpos)
  have : Nonempty E := ⟨x⟩
  choose! val hval using hread
  choose! ptr hptr using h.pointer
  have hlen := length_coords hpos
  have hloop := copyFromArray_eq (fun c hc => hval c (hin c hc))
    (fun c hc => (hptr c (hin c hc)).1)
    (fun j hj => by rw [position_coords hpos j hj, zero_add]) le_rfl (by omega) s
  have hnodup : ((coords m).map ptr).Nodup := by
    refine List.Nodup.map_on (fun c hc c' hc' heq => ?_) (nodup_boxList hpos.proper)
    refine h.distinct c c' (hin c hc) (hin c' hc') ?_
    rw [(hptr c (hin c hc)).1, (hptr c' (hin c' hc')).1, heq]
  obtain ⟨after, hputs, hafter, hcells, hkept⟩ :=
    putAll_spec ((coords m).map fun c => (ptr c, val c)) s
      (fun w hw => by
        obtain ⟨c, hc, rfl⟩ := List.mem_map.mp hw
        rw [hs]
        exact (hptr c (hin c hc)).2)
      (by rw [List.map_map]; exact hnodup)
  refine ⟨after, hloop.trans hputs, hafter, fun c hc => ?_, fun p hp => hkept p fun hmem => ?_⟩
  · rw [PbMatrixRegion.cell, (hptr c hc).1, hval c hc]
    exact hcells (_, val c) (List.mem_map_of_mem ((mem_coords hpos).mpr hc))
  · rw [List.map_map] at hmem
    obtain ⟨c, hc, rfl⟩ := List.mem_map.mp hmem
    exact hp c (hin c hc) (hptr c (hin c hc)).1

theorem sizesFit_of_positive {size : List ℤ} (h : Positive size) (hprod : size.prod < 2 ^ 31) :
    SizesFit size := by
  intro n _
  have hdrop : 0 < (size.drop (n + 1)).prod :=
    Positive.prod_pos fun s hs => h s (List.mem_of_mem_drop hs)
  have htake : 0 < (size.take (n + 1)).prod :=
    Positive.prod_pos fun s hs => h s (List.mem_of_mem_take hs)
  have hsplit : (size.take (n + 1)).prod * (size.drop (n + 1)).prod = size.prod := by
    rw [← List.prod_append, List.take_append_drop]
  nlinarith

/-- **INTO A NEW REGION**: the elements in ascending order. -/
theorem copyCells_spec (h : Placed total m) (hpos : Positive m.sizes) (hcount : count m < 2 ^ 31)
    (hs : s.length = total) (hfresh : (fresh.length : ℤ) = count m) :
    ∃ t data, allocate m.sizes = some t ∧ t.sizes = m.sizes ∧ t.base = 0 ∧
      copyCells m s t (coords m) fresh = some data ∧ (data.length : ℤ) = count m ∧
        Ascending m s data 0 := by
  have hin : ∀ c ∈ coords m, Contains m.sizes c := fun c hc => (mem_coords hpos).mp hc
  obtain ⟨x, _⟩ := h.cell hs (contains_zeros.mpr hpos)
  have : Nonempty E := ⟨x⟩
  choose! val hval using fun c (hc : Contains m.sizes c) => h.cell hs hc
  have hptr : ∀ c ∈ coords m,
      coordToPtr ⟨0, m.sizes, multipliersOf m.sizes⟩ c = some (encode m.sizes c) := by
    intro c hc
    rw [((viewOf_whole h.sizes_nonneg).pointer hcount (hin c hc)).1,
      PbRegionSplit.offset_multipliersOf]
    rfl
  have hloop := copyCells_eq (fun c hc => hval c (hin c hc)) hptr fresh
  obtain ⟨data, hputs, hlen, hascending⟩ := putPositions_spec hpos hval hfresh
  exact ⟨_, data, allocate_eq h.sizes_nonneg (sizesFit_of_positive hpos hcount), rfl, rfl,
    hloop.trans hputs, hlen, hascending⟩

end Copies

/-! ## Layouts -/

/-- The multipliers are the stock ones where they matter. -/
theorem stock_iff {size ms : List ℤ} (hpos : Positive size) (hlen : ms.length = size.length)
    (mult : ℤ) :
    Stock mult size ms ↔
      ∀ c, Contains size c → offset ms c = offset (multipliersFrom mult size) c := by
  induction size generalizing ms mult with
  | nil =>
      rw [List.length_eq_zero_iff.mp hlen]
      exact iff_of_true trivial fun c _ => rfl
  | cons s size ih =>
      cases ms with
      | nil => cases hlen
      | cons m ms =>
          have hs : 0 < s := hpos s List.mem_cons_self
          have hrest : Positive size := fun x hx => hpos x (List.mem_cons_of_mem s hx)
          have ih := ih hrest (Nat.succ.inj hlen) (mult * s)
          rw [Stock, ih]
          constructor
          · rintro ⟨hfirst, hstock⟩ c hc
            cases c with
            | nil => cases hc.1
            | cons x c =>
                obtain ⟨hx, hc⟩ := contains_cons.mp hc
                rw [multipliersFrom, offset_cons, offset_cons, hstock c hc]
                rcases lt_or_eq_of_le (by omega : (1 : ℤ) ≤ s) with hlt | rfl
                · rw [hfirst hlt]
                · obtain rfl : x = 0 := by omega
                  rw [mul_zero, mul_zero]
          · intro h
            have hzeros := contains_zeros.mpr hrest
            refine ⟨fun hlt => ?_, fun c hc => ?_⟩
            · -- one step along this dimension
              have hstep := h (1 :: List.replicate size.length 0)
                (contains_cons.mpr ⟨⟨Int.one_nonneg, hlt⟩, hzeros⟩)
              rwa [multipliersFrom, offset_cons, offset_cons, offset_replicate, offset_replicate,
                mul_one, mul_one, add_zero, add_zero] at hstep
            · have hcell := h (0 :: c) (contains_cons.mpr ⟨⟨le_rfl, hs⟩, hc⟩)
              rwa [multipliersFrom, offset_cons, offset_cons, mul_zero, mul_zero, zero_add,
                zero_add] at hcell

theorem offsetLoop_some {ms c : List ℤ} {rv r : ℤ} (h : offsetLoop rv ms c = some r) :
    r = rv + offset ms c := by
  induction ms generalizing c rv with
  | nil =>
      rw [offsetLoop] at h
      · rw [offset_nil, add_zero]
        exact (Option.some.inj h).symm
      · intro _ _ _ _ hcons
        cases hcons
  | cons m ms ih =>
      cases c with
      | nil =>
          rw [offsetLoop] at h
          · rw [offset_nil_right, add_zero]
            exact (Option.some.inj h).symm
          · intro _ _ _ _ _ hcons
            cases hcons
      | cons x c =>
          rw [offsetLoop] at h
          split at h
          · rw [ih h, offset_cons, add_assoc]
          · cases h

theorem pointer_eq {m : MatrixRegion} {c : List ℤ} {p : ℤ} (h : coordToPtr m c = some p) :
    p = m.base + offset m.multipliers c := by
  obtain ⟨r, hr, rfl⟩ := Option.map_eq_some_iff.mp h
  rw [offsetLoop_some hr, zero_add]

section Layout

variable {E : Type} {total : ℕ} {m : MatrixRegion} {s fresh : List E}

/-- With the stock layout, the cells come one after the other from the base on. -/
theorem Placed.pointer_base (h : Placed total m) (hstock : Stock 1 m.sizes m.multipliers)
    {c : List ℤ} (hc : Contains m.sizes c) :
    coordToPtr m c = some (m.base + encode m.sizes c) ∧
      0 ≤ (m.base + encode m.sizes c : ℤ) ∧ (m.base + encode m.sizes c : ℤ) < total := by
  obtain ⟨p, hp, hin⟩ := h.pointer c hc
  have heq : p = m.base + encode m.sizes c := by
    rw [pointer_eq hp, (stock_iff (positive_of_contains hc) h.multipliers 1).mp hstock c hc,
      ← PbRegionSplit.offset_multipliersOf]
    rfl
  exact ⟨by rw [hp, heq], heq ▸ hin⟩

/-- The base of a whole storage is its first element, because the last one is in the storage. -/
theorem Placed.base_eq (h : Placed total m) (htotal : (total : ℤ) = count m)
    (hpos : Positive m.sizes) (hstock : Stock 1 m.sizes m.multipliers) : m.base = 0 := by
  have hcount := hpos.prod_pos
  obtain ⟨first, hfirst, hzero⟩ := exists_position h.sizes_nonneg le_rfl hcount
  obtain ⟨last, hlast, hposition⟩ := exists_position h.sizes_nonneg
    (Int.le_sub_one_of_lt hcount) (sub_one_lt _)
  have hlo := (h.pointer_base hstock hfirst).2.1
  have hhi := (h.pointer_base hstock hlast).2.2
  rw [hzero] at hlo
  rw [hposition, htotal, count] at hhi
  have hbase : ∀ b n : ℤ, 0 ≤ b + 0 → b + (n - 1) < n → b = 0 := fun b n _ _ => by omega
  exact hbase m.base m.sizes.prod hlo hhi

/-- A region that is the whole storage, with the stock layout, is the storage as it is. -/
theorem Placed.pointer_stock (h : Placed total m) (htotal : (total : ℤ) = count m)
    (hpos : Positive m.sizes) (hstock : Stock 1 m.sizes m.multipliers) {c : List ℤ}
    (hc : Contains m.sizes c) : coordToPtr m c = some (encode m.sizes c) := by
  rw [(h.pointer_base hstock hc).1, h.base_eq htotal hpos hstock]
  exact congrArg some (zero_add _)

theorem isEntireBuffer_iff (hs : s.length = total) :
    isEntireBuffer m s = true ↔ m.sizes = [] ∨ (total : ℤ) = count m := by
  rw [isEntireBuffer, Bool.or_eq_true, List.isEmpty_iff, decide_eq_true_eq, hs]

theorem toCArray_shared (hs : s.length = total) (hne : m.sizes ≠ [])
    (htotal : (total : ℤ) = count m) (n : ℕ) : toCArray m s fresh n = some ⟨true, s⟩ := by
  have hentire := (isEntireBuffer_iff hs).mpr (Or.inr htotal)
  have hempty : m.sizes.isEmpty = false := by
    cases hsizes : m.sizes with
    | nil => exact absurd hsizes hne
    | cons x xs => rfl
  rw [toCArray, hentire, hempty]
  rfl

theorem toCArray_copied (hs : s.length = total)
    (hcopied : m.sizes = [] ∨ (total : ℤ) ≠ count m) (n : ℕ) :
    toCArray m s fresh n = (doWhile (incCoord m) n (zeros m)).bind fun cs =>
      (copyToArray m s cs 0 fresh).bind fun data => some ⟨false, data⟩ := by
  have hexit : (!m.sizes.isEmpty && isEntireBuffer m s) = false := by
    rcases hcopied with hnil | hne
    · rw [hnil]
      rfl
    · cases hsizes : m.sizes with
      | nil => rfl
      | cons x xs =>
          refine Bool.and_eq_false_iff.mpr (Or.inr (Bool.eq_false_iff.mpr fun hentire => ?_))
          rcases (isEntireBuffer_iff hs).mp hentire with hnil | htotal
          · rw [hsizes] at hnil
            cases hnil
          · exact hne htotal
  rw [toCArray, hexit]
  rfl

/-- **WHERE THE ARRAY IS COPIED**: to it, and back. -/
theorem copied_spec (h : Placed total m) (hpos : Positive m.sizes) (hcount : count m < 2 ^ 31)
    (hcopied : m.sizes = [] ∨ (total : ℤ) ≠ count m) (hs : s.length = total)
    (hfresh : (fresh.length : ℤ) = count m) :
    ∃ data, (data.length : ℤ) = count m ∧ Ascending m s data 0 ∧
      (∃ n, toCArray m s fresh n = some ⟨false, data⟩) ∧
        ∀ n ar, toCArray m s fresh n = some ar → ar = ⟨false, data⟩ := by
  obtain ⟨data, hloop, hlen, hascending⟩ := copyToArray_spec h hpos hcount hs hfresh
  obtain ⟨⟨n, hn⟩, hunique⟩ := doWhile_coords hpos
  refine ⟨data, hlen, hascending, ⟨n, ?_⟩, fun k ar hk => ?_⟩
  · rw [toCArray_copied hs hcopied, hn, Option.bind_some, hloop, Option.bind_some]
  · rw [toCArray_copied hs hcopied] at hk
    obtain ⟨cs, hcs, hk⟩ := Option.bind_eq_some_iff.mp hk
    rw [hunique k cs hcs, hloop, Option.bind_some] at hk
    exact (Option.some.inj hk).symm

theorem asNormalizedRegion_entire (hs : s.length = total)
    (hentire : m.sizes = [] ∨ (total : ℤ) = count m) (n : ℕ) :
    asNormalizedRegion m s fresh n = some (m, s) := by
  rw [asNormalizedRegion, if_pos ((isEntireBuffer_iff hs).mpr hentire)]

theorem asNormalizedRegion_copied (hs : s.length = total) (hne : m.sizes ≠ [])
    (htotal : (total : ℤ) ≠ count m) (n : ℕ) :
    asNormalizedRegion m s fresh n = (allocate m.sizes).bind fun t =>
      (doWhile (incCoord m) n (zeros m)).bind fun cs =>
        (copyCells m s t cs fresh).bind fun data => some (t, data) := by
  have hexit : ¬ isEntireBuffer m s = true := by
    rw [isEntireBuffer_iff hs, not_or]
    exact ⟨hne, htotal⟩
  rw [asNormalizedRegion, if_neg hexit]
  rfl

/-- **WHERE THE REGION IS COPIED.** -/
theorem normalized_copied (h : Placed total m) (hpos : Positive m.sizes)
    (hcount : count m < 2 ^ 31) (hne : m.sizes ≠ []) (htotal : (total : ℤ) ≠ count m)
    (hs : s.length = total) (hfresh : (fresh.length : ℤ) = count m) :
    ∃ t data, t.sizes = m.sizes ∧ (data.length : ℤ) = count m ∧ Ascending m s data t.base ∧
      (∃ n, asNormalizedRegion m s fresh n = some (t, data)) ∧
        ∀ n r, asNormalizedRegion m s fresh n = some r → r = (t, data) := by
  obtain ⟨t, data, ht, hsizes, hbase, hloop, hlen, hascending⟩ :=
    copyCells_spec h hpos hcount hs hfresh
  obtain ⟨⟨n, hn⟩, hunique⟩ := doWhile_coords hpos
  refine ⟨t, data, hsizes, hlen, by rw [hbase]; exact hascending, ⟨n, ?_⟩, fun k r hk => ?_⟩
  · rw [asNormalizedRegion_copied hs hne htotal, ht, Option.bind_some, hn, Option.bind_some, hloop,
      Option.bind_some]
  · rw [asNormalizedRegion_copied hs hne htotal, ht, Option.bind_some] at hk
    obtain ⟨cs, hcs, hk⟩ := Option.bind_eq_some_iff.mp hk
    rw [hunique k cs hcs, hloop, Option.bind_some] at hk
    exact (Option.some.inj hk).symm

theorem fromCArray_shared (hne : m.sizes ≠ []) (written : List E) (k : ℕ) :
    fromCArray m s ⟨true, written⟩ k = some written := by
  cases hsizes : m.sizes with
  | nil => exact absurd hsizes hne
  | cons x xs =>
      rw [fromCArray, hsizes]
      rfl

theorem fromCArray_copied (written : List E) (k : ℕ) :
    fromCArray m s ⟨false, written⟩ k =
      (doWhile (incCoord m) k (zeros m)).bind fun cs => copyFromArray m written cs 0 s := by
  rw [fromCArray, Bool.not_false, Bool.or_true]
  rfl

/-- **BACK TO WHERE IT WAS COPIED FROM.** -/
theorem written_back (h : Placed total m) (hpos : Positive m.sizes) (hcount : count m < 2 ^ 31)
    (hs : s.length = total) {written : List E} (hwritten : (written.length : ℤ) = count m) :
    (∃ k after, fromCArray m s ⟨false, written⟩ k = some after) ∧
      ∀ k after, fromCArray m s ⟨false, written⟩ k = some after →
        after.length = s.length ∧
          (∀ c, Contains m.sizes c → cell m after c = get written (encode m.sizes c)) ∧
            ∀ p, (∀ c, Contains m.sizes c → coordToPtr m c ≠ some p) → get after p = get s p := by
  obtain ⟨after, hloop, hspec⟩ := copyFromArray_spec h hpos hcount hs hwritten
  obtain ⟨⟨n, hn⟩, hunique⟩ := doWhile_coords hpos
  refine ⟨⟨n, after, ?_⟩, fun k after' hk => ?_⟩
  · rw [fromCArray_copied, hn, Option.bind_some, hloop]
  · rw [fromCArray_copied] at hk
    obtain ⟨cs, hcs, hk⟩ := Option.bind_eq_some_iff.mp hk
    rw [hunique k cs hcs, hloop] at hk
    obtain rfl := Option.some.inj hk
    exact hspec

end Layout

/-! ## When buffers are normalised -/

section Main

variable {total : ℕ} {m : MatrixRegion}

/-- Where something is copied, it is right. -/
theorem normalizes_copied (h : Placed total m) (hpos : Positive m.sizes) (hcount : count m < 2 ^ 31)
    (hne : m.sizes ≠ []) (htotal : (total : ℤ) ≠ count m) : Normalizes total m := by
  refine ⟨fun E s fresh hs hfresh => ?_, fun E s fresh hs hfresh => ?_,
    fun E s fresh n ar hs hfresh har written hwritten => ?_⟩
  · obtain ⟨t, data, hsizes, hlen, hascending, ⟨n, hn⟩, hunique⟩ :=
      normalized_copied h hpos hcount hne htotal hs hfresh
    refine ⟨⟨n, _, hn⟩, fun k t' data' hk => ?_⟩
    obtain ⟨rfl, rfl⟩ := Prod.mk.inj (hunique k _ hk)
    exact ⟨hsizes, fun _ => hlen, hascending⟩
  · obtain ⟨data, hlen, hascending, ⟨n, hn⟩, hunique⟩ :=
      copied_spec h hpos hcount (Or.inr htotal) hs hfresh
    refine ⟨⟨n, _, hn⟩, fun k ar hk => ?_⟩
    rw [hunique k ar hk]
    exact ⟨hlen, hascending⟩
  · obtain ⟨data, _, _, _, hunique⟩ := copied_spec h hpos hcount (Or.inr htotal) hs hfresh
    rw [hunique n ar har]
    exact written_back h hpos hcount hs hwritten

/-- A region without dimensions. -/
theorem normalizes_nil (h : Placed total m) (hnil : m.sizes = []) : Normalizes total m := by
  have hpos : Positive m.sizes := by
    rw [hnil]
    exact fun s hs => absurd hs List.not_mem_nil
  have hcount : count m < 2 ^ 31 := by
    rw [count, hnil]
    decide
  refine ⟨fun E s fresh hs hfresh => ?_, fun E s fresh hs hfresh => ?_,
    fun E s fresh n ar hs hfresh har written hwritten => ?_⟩
  · have hentire : ∀ n, asNormalizedRegion m s fresh n = some (m, s) := fun n =>
      asNormalizedRegion_entire hs (Or.inl hnil) n
    refine ⟨⟨0, _, hentire 0⟩, fun k t data hk => ?_⟩
    obtain ⟨rfl, rfl⟩ := Prod.mk.inj (Option.some.inj ((hentire k).symm.trans hk))
    refine ⟨rfl, fun hne => absurd hnil hne, fun c hc => ?_⟩
    obtain ⟨p, hp, _⟩ := h.pointer c hc
    have hc' : c = [] := List.length_eq_zero_iff.mp (by rw [hc.1, hnil]; rfl)
    rw [cell, hp, Option.bind_some, pointer_eq hp, hc', hnil, offset_nil_right]
    rfl
  · obtain ⟨data, hlen, hascending, ⟨n, hn⟩, hunique⟩ :=
      copied_spec h hpos hcount (Or.inl hnil) hs hfresh
    refine ⟨⟨n, _, hn⟩, fun k ar hk => ?_⟩
    rw [hunique k ar hk]
    exact ⟨hlen, hascending⟩
  · obtain ⟨data, _, _, _, hunique⟩ := copied_spec h hpos hcount (Or.inl hnil) hs hfresh
    rw [hunique n ar har]
    exact written_back h hpos hcount hs hwritten

/-- A region that is the whole storage. -/
theorem normalizes_entire (h : Placed total m) (hne : m.sizes ≠ []) (htotal : (total : ℤ) = count m)
    (hstock : Positive m.sizes → Stock 1 m.sizes m.multipliers) : Normalizes total m := by
  have hcell : ∀ {E : Type} (s : List E) (c : List ℤ), Contains m.sizes c →
      cell m s c = get s (encode m.sizes c) := by
    intro E s c hc
    have hpos := positive_of_contains hc
    rw [cell, h.pointer_stock htotal hpos (hstock hpos) hc, Option.bind_some]
  refine ⟨fun E s fresh hs hfresh => ?_, fun E s fresh hs hfresh => ?_,
    fun E s fresh n ar hs hfresh har written hwritten => ?_⟩
  · have hentire : ∀ n, asNormalizedRegion m s fresh n = some (m, s) := fun n =>
      asNormalizedRegion_entire hs (Or.inr htotal) n
    refine ⟨⟨0, _, hentire 0⟩, fun k t data hk => ?_⟩
    obtain ⟨rfl, rfl⟩ := Prod.mk.inj (Option.some.inj ((hentire k).symm.trans hk))
    refine ⟨rfl, fun _ => by rw [hs, htotal], fun c hc => ?_⟩
    have hpos := positive_of_contains hc
    rw [h.base_eq htotal hpos (hstock hpos), hcell s c hc]
    exact congrArg (get s) (zero_add _)
  · refine ⟨⟨0, _, toCArray_shared hs hne htotal 0⟩, fun k ar hk => ?_⟩
    obtain rfl := Option.some.inj ((toCArray_shared hs hne htotal k).symm.trans hk)
    refine ⟨by rw [hs, htotal], fun c hc => ?_⟩
    rw [zero_add, hcell s c hc]
  · obtain rfl := Option.some.inj ((toCArray_shared hs hne htotal n).symm.trans har)
    refine ⟨⟨0, _, fromCArray_shared hne written 0⟩, fun k after hk => ?_⟩
    obtain rfl := Option.some.inj ((fromCArray_shared hne written k).symm.trans hk)
    have hlen : (written.length : ℤ) = total := by rw [hwritten, htotal]
    refine ⟨by omega, hcell written, fun p hp => ?_⟩
    -- a place that is no cell is outside the storage
    have hout : ¬ (0 ≤ p ∧ p < (total : ℤ)) := by
      rintro ⟨h0, hlt⟩
      rw [htotal, count] at hlt
      obtain ⟨c, hc, rfl⟩ := exists_position h.sizes_nonneg h0 hlt
      have hpos := positive_of_contains hc
      exact hp c hc (h.pointer_stock htotal hpos (hstock hpos) hc)
    rw [get_eq_none (by rw [hlen]; exact hout), get_eq_none (by rw [hs]; exact hout)]

theorem positive_of_prod {size : List ℤ} (hs : ∀ s ∈ size, 0 ≤ s) (h : 0 < size.prod) :
    Positive size := by
  intro s hmem
  refine lt_of_le_of_ne (hs s hmem) fun hzero => ?_
  rw [List.prod_eq_zero (hzero ▸ hmem)] at h
  exact lt_irrefl 0 h

/-- The fast exit is right for the stock layout alone: the elements are their own places. -/
theorem Normalizes.stock (hn : Normalizes total m) (h : Placed total m) (hne : m.sizes ≠ [])
    (htotal : (total : ℤ) = count m) (hpos : Positive m.sizes) :
    Stock 1 m.sizes m.multipliers := by
  let s : List ℤ := (List.range total).map fun j : ℕ => (j : ℤ)
  have hs : s.length = total := by rw [List.length_map, List.length_range]
  have hget : ∀ p : ℤ, 0 ≤ p ∧ p < total → get s p = some p := by
    intro p hp
    have hlt : p.toNat < total := by omega
    rw [PbScatter.get, if_pos hp.1, List.getElem?_map, List.getElem?_range hlt, Option.map_some,
      Int.toNat_of_nonneg hp.1]
  have hascending := ((hn.toArray ℤ s s hs (by rw [hs, htotal])).2 0 _
    (toCArray_shared hs hne htotal 0)).2
  have hposition : ∀ c, Contains m.sizes c →
      (encode m.sizes c : ℤ) = m.base + offset m.multipliers c := by
    intro c hc
    have hcell := hascending c hc
    obtain ⟨p, hp, hin⟩ := h.pointer c hc
    have hbounds := position_bounds hc
    rw [zero_add, hget _ ⟨hbounds.1, by rw [htotal]; exact hbounds.2⟩, cell, hp, Option.bind_some,
      hget p hin, Option.some_inj] at hcell
    rw [hcell, pointer_eq hp]
  have hbase : (0 : ℤ) = m.base := by
    have hzeros := hposition _ (contains_zeros.mpr hpos)
    rwa [← PbRegionSplit.offset_multipliersOf, offset_replicate, offset_replicate, add_zero]
      at hzeros
  refine (stock_iff hpos h.multipliers 1).mpr fun c hc => ?_
  have hc' := hposition c hc
  rw [← hbase, ← PbRegionSplit.offset_multipliersOf] at hc'
  exact (hc'.trans (zero_add _)).symm

/-- A copy of nothing writes outside the array. -/
theorem Normalizes.copied (hn : Normalizes total m) (h : Placed total m)
    (htotal : (total : ℤ) ≠ count m) : Positive m.sizes ∧ count m < 2 ^ 31 := by
  have hcount : 0 ≤ count m := List.prod_nonneg h.sizes_nonneg
  have hfresh : ((List.replicate (count m).toNat ()).length : ℤ) = count m := by
    rw [List.length_replicate, Int.toNat_of_nonneg hcount]
  have hs : (List.replicate total ()).length = total := List.length_replicate
  obtain ⟨⟨n, ar, har⟩, _⟩ := hn.toArray Unit _ _ hs hfresh
  rw [toCArray_copied hs (Or.inr htotal)] at har
  obtain ⟨cs, hcs, har⟩ := Option.bind_eq_some_iff.mp har
  obtain ⟨data, hloop, _⟩ := Option.bind_eq_some_iff.mp har
  obtain ⟨⟨_, hfirst⟩, hlast⟩ :=
    copyToArray_fits hloop (List.ne_nil_of_mem (start_mem_doWhile hcs))
  have hpos : Positive m.sizes := by
    refine positive_of_prod h.sizes_nonneg ?_
    rwa [hfresh] at hfirst
  have hlen := length_coords hpos
  rw [(doWhile_coords hpos).2 n cs hcs, hlen, zero_add] at hlast
  exact ⟨hpos, hlast⟩

/-- Buffers of equal contents. -/
theorem sameBuffers (h : Placed total m) (hn : Normalizes total m) {total' : ℕ} {m' : MatrixRegion}
    (hsizes : m'.sizes = m.sizes) (hn' : Normalizes total' m') : SameBuffers total total' m m' := by
  intro E s s' fresh fresh' hs hs' hfresh hfresh' hcontents
  have hcount : count m' = count m := by rw [count, count, hsizes]
  refine ⟨fun n n' r r' hr hr' => ?_, fun n n' ar ar' har har' => ?_⟩
  · obtain ⟨hsize, _, hascending⟩ := (hn.normalized E s fresh hs hfresh).2 n r.1 r.2 hr
    obtain ⟨hsize', _, hascending'⟩ := (hn'.normalized E s' fresh' hs' hfresh').2 n' r'.1 r'.2 hr'
    have hcount₁ : count r.1 = count m := by rw [count, count, hsize]
    have hcount₂ : count r'.1 = count m := by rw [count, count, hsize', hsizes]
    rw [bufferOf, bufferOf, hcount₁, hcount₂]
    refine List.map_congr_left fun j hj => ?_
    rw [List.mem_range] at hj
    obtain ⟨c, hc, hposition⟩ := exists_position h.sizes_nonneg (Int.natCast_nonneg j)
      (by rw [← count]; omega)
    have hcell' := hascending' c (by rw [hsizes]; exact hc)
    rw [hsizes] at hcell'
    rw [← hposition, hascending c hc, hcell', hcontents c hc]
  · obtain ⟨hlen, hascending⟩ := (hn.toArray E s fresh hs hfresh).2 n ar har
    obtain ⟨hlen', hascending'⟩ := (hn'.toArray E s' fresh' hs' hfresh').2 n' ar' har'
    refine ext_get (by omega) fun p h0 hp => ?_
    rw [hlen] at hp
    obtain ⟨c, hc, rfl⟩ := exists_position h.sizes_nonneg h0 hp
    have hcell := hascending c hc
    have hcell' := hascending' c (by rw [hsizes]; exact hc)
    rw [zero_add] at hcell
    rw [zero_add, hsizes] at hcell'
    rw [hcell, hcell', hcontents c hc]

end Main

/-- A region made by operations on an allocated matrix is one of its storage. -/
theorem ViewOf.placed {sizes : List ℤ} {m : MatrixRegion} {g : Geometry} (h : ViewOf sizes m g)
    (hfit : sizes.prod < 2 ^ 31) (hsizes : ∀ s ∈ sizes, 0 ≤ s) (hg : ∀ s ∈ g.size, 0 ≤ s) :
    Placed sizes.prod.toNat m := by
  have hprod : 0 ≤ sizes.prod := List.prod_nonneg hsizes
  refine ⟨by rw [h.follows.sizes]; exact hg, by rw [h.follows.multipliers, h.follows.sizes],
    fun c hc => ?_, fun c c' hc hc' heq => ?_⟩
  · rw [h.follows.sizes] at hc
    obtain ⟨hptr, hlo, hhi⟩ := h.pointer hfit hc
    exact ⟨_, hptr, hlo, by rw [Int.toNat_of_nonneg hprod]; exact hhi⟩
  · rw [h.follows.sizes] at hc hc'
    exact h.distinct hfit hc hc' heq

/-- **NORMALISATION**: buffers are in ascending order, and arrays are written back, exactly when a
    whole storage has the stock layout and any other region has an element, and not too many.
    Regions that are normalised have the same buffers if they have the same contents. -/
theorem normalizes_iff (total : ℕ) (m : MatrixRegion) (h : Placed total m) :
    (Normalizes total m ↔ Copyable total m) ∧
      ∀ total' m', m'.sizes = m.sizes → Normalizes total m → Normalizes total' m' →
        SameBuffers total total' m m' := by
  refine ⟨⟨fun hn => ?_, fun hcopyable => ?_⟩, fun _ _ hsizes hn hn' => sameBuffers h hn hsizes hn'⟩
  · by_cases hnil : m.sizes = []
    · exact Or.inl hnil
    · refine Or.inr ?_
      split
      · rename_i htotal
        exact hn.stock h hnil htotal
      · rename_i htotal
        exact hn.copied h htotal
  · by_cases hnil : m.sizes = []
    · exact normalizes_nil h hnil
    · rcases hcopyable with habsurd | hcopyable
      · exact absurd habsurd hnil
      · split at hcopyable
        · rename_i htotal
          exact normalizes_entire h hnil htotal hcopyable
        · rename_i htotal
          exact normalizes_copied h hcopyable.1 hcopyable.2 hnil htotal

/-- A box of a matrix of three columns. -/
def box : MatrixRegion := ⟨1, [2, 2], [1, 3]⟩

theorem placed_box : Placed 12 box := by
  have hview := (@ViewOf.apply [3, 4] _ _ (viewOf_whole (by decide)) (by decide)
    (.region [1, 0] [3, 2]) ⟨rfl, rfl, rfl, by decide⟩ (by unfold Positive; decide)).2
  exact hview.placed (by decide) (by decide) (by decide)

theorem normalizes_box : Normalizes 12 box := by
  refine (normalizes_iff 12 box placed_box).1.mpr (Or.inr ?_)
  rw [if_neg (by decide)]
  exact ⟨by unfold Positive; decide, by decide⟩

/-- A whole matrix of two columns and three rows, the other way round. -/
def columns : MatrixRegion := ⟨0, [3, 2], [2, 1]⟩

/-- Its storage is given out as it is, row by row. -/
theorem not_normalizes_columns : Placed 6 columns ∧ ¬ Normalizes 6 columns := by
  have hview := (@ViewOf.apply [2, 3] _ _ (viewOf_whole (by decide)) (by decide)
    .transposed trivial (by unfold Positive; decide)).2
  have hplaced : Placed 6 columns := hview.placed (by decide) (by decide) (by decide)
  refine ⟨hplaced, fun hn => ?_⟩
  have hstock := hn.stock hplaced (by decide) (by decide) (by unfold Positive; decide)
  exact absurd (hstock.1 (by decide)) (by decide)

end PbMatrixRegion
