import PetaBricks.BoxTraversalProofs

/-! # Matrix regions — every view is its cells

    A region made by a chain of operations points where the geometry says (`PbLocalRegion.Follows`),
    inside the storage, and no two coordinates to one cell.  The multipliers are not negative, so a
    sum that is an `int` has partial sums that are.

    Traversals visit each cell once, if there is one: the loop of `copyTo` has its condition at the
    end, and no test before it. -/

namespace PbMatrixRegion

open PbMixedRadix PbRegionMatrix PbRemoteCache PbLocalRegion

/-! ## Claims about regions -/

/-- The list is the set, without repetition. -/
def Covers {α : Type} (l : List α) (p : α → Prop) : Prop := l.Nodup ∧ ∀ x, x ∈ l ↔ p x

/-- A box of a region: its corners are in range, and no dimension is negative. -/
def SubBox (size c1 c2 : List ℤ) : Prop :=
  ContainsBox size c1 (List.zipWith (· - ·) c2 c1) ∧ c2.length = size.length

/-- **A REGION AND ITS CELLS**: the region `m`, which the geometry `g` describes, of the matrix
    `m0`. -/
structure Exact (sizes : List ℤ) (m0 m : MatrixRegion) (g : Geometry) : Prop where
  sizes_eq : m.sizes = g.size
  pointer : ∀ c, Contains g.size c → ∃ p, coordToPtr m c = some p ∧
    coordToPtr m0 (g.cell c) = some p ∧ 0 ≤ p ∧ p < sizes.prod
  distinct : ∀ c c', Contains g.size c → Contains g.size c' → coordToPtr m c = coordToPtr m c' →
    c = c'
  incCoord : ∃ n cs, doWhile (incCoord m) n (zeros m) = some cs ∧ Covers cs (Contains g.size)
  incCoordWithBound : ∀ c1 c2, SubBox g.size c1 c2 → Proper c1 c2 →
    ∃ n cs, doWhile (incCoordWithBound c1 c2) n c1 = some cs ∧ Covers cs (InBox c1 c2)
  copyTo : ∀ dst, (∀ c, Contains g.size c → ∃ q, coordToPtr dst c = some q) →
    ∃ n ps, copyTo m dst false n = some ps ∧ (ps.map Prod.fst).Nodup ∧
      ∀ p q, (p, q) ∈ ps ↔
        ∃ c, Contains g.size c ∧ coordToPtr m c = some p ∧ coordToPtr dst c = some q
  copyToBox : ∀ dst c1 c2, SubBox g.size c1 c2 →
    (∀ c, Contains g.size c → ∃ q, coordToPtr dst c = some q) →
    ∃ n ps, copyToBox m dst false c1 c2 n = some ps ∧ (ps.map Prod.fst).Nodup ∧
      ∀ p q, (p, q) ∈ ps ↔ ∃ c, InBox c1 c2 c ∧ coordToPtr m c = some p ∧ coordToPtr dst c = some q
  hashed : ∃ n ps, hashed m n = some ps ∧
    Covers ps fun p => ∃ c, Contains g.size c ∧ coordToPtr m c = some p

/-! ## Coordinates in range -/

/-- No dimension is empty. -/
def Positive (size : List ℤ) : Prop := ∀ s ∈ size, 0 < s

theorem contains_cons {s x : ℤ} {size c : List ℤ} :
    Contains (s :: size) (x :: c) ↔ (0 ≤ x ∧ x < s) ∧ Contains size c := by
  constructor
  · rintro ⟨hlen, h⟩
    exact ⟨h 0 (Nat.succ_pos _), Nat.succ.inj hlen, fun i hi => h (i + 1) (Nat.succ_lt_succ hi)⟩
  · rintro ⟨hx, hlen, h⟩
    refine ⟨congrArg Nat.succ hlen, fun i hi => ?_⟩
    cases i with
    | zero => exact hx
    | succ i => exact h i (Nat.lt_of_succ_lt_succ hi)

theorem contains_iff_inBounds {size c : List ℤ} : Contains size c ↔ PbRemoteCache.InBounds size c := by
  induction size generalizing c with
  | nil =>
      cases c with
      | nil => exact iff_of_true ⟨rfl, fun i hi => absurd hi (Nat.not_lt_zero i)⟩ .nil
      | cons x c =>
          refine iff_of_false (fun h => ?_) (fun h => ?_)
          · cases h.1
          · cases h
  | cons s size ih =>
      cases c with
      | nil =>
          refine iff_of_false (fun h => ?_) (fun h => ?_)
          · cases h.1
          · cases h
      | cons x c =>
          rw [contains_cons, ih, PbRemoteCache.InBounds, PbRemoteCache.InBounds, List.forall₂_cons]

theorem contains_zeros {size : List ℤ} :
    Contains size (List.replicate size.length 0) ↔ Positive size := by
  induction size with
  | nil => exact iff_of_true ⟨rfl, fun i hi => absurd hi (Nat.not_lt_zero i)⟩ fun s hs => absurd hs List.not_mem_nil
  | cons s size ih =>
      rw [List.length_cons, List.replicate_succ, contains_cons, ih, Positive, Positive,
        List.forall_mem_cons, and_iff_right le_rfl]

theorem positive_of_contains {size c : List ℤ} (h : Contains size c) : Positive size := by
  intro s hs
  obtain ⟨i, hi, rfl⟩ := List.getElem_of_mem hs
  have hrange := h.2 i hi
  rw [List.getD_eq_getElem _ _ hi] at hrange
  omega

theorem Positive.prod_pos {size : List ℤ} (h : Positive size) : 0 < size.prod := by
  induction size with
  | nil => exact Int.one_pos
  | cons s size ih =>
      rw [List.prod_cons]
      exact mul_pos (h s List.mem_cons_self) (ih fun x hx => h x (List.mem_cons_of_mem s hx))

/-- The box of a whole region. -/
theorem inBox_zeros {size c : List ℤ} :
    InBox (List.replicate size.length 0) size c ↔ Contains size c := by
  rw [contains_iff_inBounds]
  induction size generalizing c with
  | nil =>
      constructor
      · intro h
        cases h
        exact .nil
      · intro h
        cases h
        exact .nil
  | cons s size ih =>
      constructor
      · intro h
        cases h with
        | cons hx h => exact .cons hx (ih.mp h)
      · intro h
        cases h with
        | cons hx h => exact .cons hx (ih.mpr h)

theorem proper_zeros {size : List ℤ} :
    Proper (List.replicate size.length 0) size ↔ Positive size := by
  constructor
  · intro h
    exact positive_of_contains (inBox_zeros.mp h.inBox.1)
  · intro h
    exact (inBox_zeros.mpr (contains_zeros.mpr h)).proper

/-- A coordinate of a box of a region is one of the region. -/
theorem contains_of_inBox {size c1 c2 c : List ℤ} (hbox : SubBox size c1 c2) (h : InBox c1 c2 c) :
    Contains size c := by
  obtain ⟨⟨hlen, -, hrange⟩, -⟩ := hbox
  induction h generalizing size with
  | nil =>
      rw [List.length_eq_zero_iff.mp hlen.symm]
      exact ⟨rfl, fun i hi => absurd hi (Nat.not_lt_zero i)⟩
  | cons hx h ih =>
      cases size with
      | nil => cases hlen
      | cons s size =>
          have hfirst := hrange 0 (Nat.succ_pos _)
          rw [List.zipWith_cons_cons, List.getD_cons_zero, List.getD_cons_zero,
            List.getD_cons_zero] at hfirst
          refine contains_cons.mpr ⟨by omega, ih (Nat.succ.inj hlen) fun i hi => ?_⟩
          exact hrange (i + 1) (Nat.succ_lt_succ hi)

/-! ## Offsets that are ints -/

theorem offset_nonneg {ms c : List ℤ} (hm : ∀ m ∈ ms, 0 ≤ m) (hc : ∀ x ∈ c, 0 ≤ x) :
    0 ≤ offset ms c := by
  induction ms generalizing c with
  | nil => exact le_rfl
  | cons m ms ih =>
      cases c with
      | nil => exact le_of_eq (offset_nil_right _).symm
      | cons x c =>
          rw [offset_cons]
          exact add_nonneg (mul_nonneg (hm m List.mem_cons_self) (hc x List.mem_cons_self))
            (ih (fun m' h => hm m' (List.mem_cons_of_mem _ h))
              fun x' h => hc x' (List.mem_cons_of_mem _ h))

theorem offsetLoop_eq {ms c : List ℤ} (hm : ∀ m ∈ ms, 0 ≤ m) (hc : ∀ x ∈ c, 0 ≤ x) {rv : ℤ}
    (h0 : 0 ≤ rv) (h : rv + offset ms c < 2 ^ 31) :
    offsetLoop rv ms c = some (rv + offset ms c) := by
  induction ms generalizing c rv with
  | nil => rw [offsetLoop, offset_nil, add_zero]; exact fun _ _ _ _ h => by cases h
  | cons m ms ih =>
      cases c with
      | nil => rw [offsetLoop, offset_nil_right, add_zero]; exact fun _ _ _ _ _ h => by cases h
      | cons x c =>
          have hmx : 0 ≤ m * x := mul_nonneg (hm m List.mem_cons_self) (hc x List.mem_cons_self)
          have hms : ∀ m' ∈ ms, 0 ≤ m' := fun m' h => hm m' (List.mem_cons_of_mem _ h)
          have hcs : ∀ x' ∈ c, 0 ≤ x' := fun x' h => hc x' (List.mem_cons_of_mem _ h)
          have hrest := offset_nonneg hms hcs
          rw [offset_cons] at h ⊢
          have hint : IsInt (m * x) ∧ IsInt (rv + m * x) := by
            refine ⟨⟨?_, ?_⟩, ?_, ?_⟩ <;> omega
          rw [offsetLoop, if_pos hint, ih hms hcs (by omega) (by omega), add_assoc]

/-! ## Allocation -/

/-- No product of sizes is too large. -/
def SizesFit (sizes : List ℤ) : Prop := ∀ n < sizes.length, (sizes.take (n + 1)).prod < 2 ^ 31

theorem setStockLayout_eq {sizes : List ℤ} (hs : ∀ s ∈ sizes, 0 ≤ s) {m : ℤ} (hm : 0 ≤ m)
    (h : ∀ n < sizes.length, m * (sizes.take (n + 1)).prod < 2 ^ 31) :
    setStockLayout m sizes = some (multipliersFrom m sizes) := by
  induction sizes generalizing m with
  | nil => rfl
  | cons s sizes ih =>
      have hms : 0 ≤ m * s := mul_nonneg hm (hs s List.mem_cons_self)
      have hfirst := h 0 (Nat.succ_pos _)
      rw [List.take_succ_cons, List.take_zero, List.prod_singleton] at hfirst
      have hrest := ih (fun x hx => hs x (List.mem_cons_of_mem s hx)) hms fun n hn => by
        have := h (n + 1) (Nat.succ_lt_succ hn)
        rwa [List.take_succ_cons, List.prod_cons, ← mul_assoc] at this
      rw [setStockLayout, if_pos ⟨by omega, hfirst⟩, hrest]
      rfl

theorem fits_of_setStockLayout {sizes : List ℤ} {m : ℤ} {ms : List ℤ}
    (h : setStockLayout m sizes = some ms) :
    ∀ n < sizes.length, m * (sizes.take (n + 1)).prod < 2 ^ 31 := by
  induction sizes generalizing m ms with
  | nil => exact fun n hn => absurd hn (Nat.not_lt_zero n)
  | cons s sizes ih =>
      rw [setStockLayout] at h
      split at h
      · rename_i hint
        obtain ⟨rest, hrest, _⟩ := Option.map_eq_some_iff.mp h
        intro n hn
        rw [List.take_succ_cons, List.prod_cons, ← mul_assoc]
        cases n with
        | zero => rw [List.take_zero, List.prod_nil, mul_one]; exact hint.2
        | succ n => exact ih hrest n (Nat.lt_of_succ_lt_succ hn)
      · cases h

theorem multipliersFrom_nonneg {sizes : List ℤ} (hs : ∀ s ∈ sizes, 0 ≤ s) {m : ℤ} (hm : 0 ≤ m) :
    ∀ x ∈ multipliersFrom m sizes, 0 ≤ x := by
  induction sizes generalizing m with
  | nil => exact fun x hx => absurd hx List.not_mem_nil
  | cons s sizes ih =>
      intro x hx
      rcases List.mem_cons.mp hx with rfl | hx
      · exact hm
      · exact ih (fun x hx => hs x (List.mem_cons_of_mem s hx))
          (mul_nonneg hm (hs s List.mem_cons_self)) x hx

theorem length_multipliersFrom (sizes : List ℤ) (m : ℤ) :
    (multipliersFrom m sizes).length = sizes.length := by
  induction sizes generalizing m with
  | nil => rfl
  | cons s sizes ih => exact congrArg Nat.succ (ih _)

theorem SizesFit.prod_lt {sizes : List ℤ} (h : SizesFit sizes) : sizes.prod < 2 ^ 31 := by
  cases hlen : sizes.length with
  | zero =>
      rw [List.length_eq_zero_iff.mp hlen]
      decide
  | succ n =>
      have hlast := h n (by omega)
      rwa [← hlen, List.take_length] at hlast

/-! ## Views -/

/-- A region of a matrix of these sizes, as the geometry describes it. -/
structure ViewOf (sizes : List ℤ) (m : MatrixRegion) (g : Geometry) : Prop where
  follows : Follows m g (offset (multipliersOf sizes))
  multipliers_nonneg : ∀ x ∈ m.multipliers, 0 ≤ x
  inside : Inside sizes g
  injective : ∀ c c', Contains g.size c → Contains g.size c' → g.cell c = g.cell c' → c = c'

theorem viewOf_whole {sizes : List ℤ} (hs : ∀ s ∈ sizes, 0 ≤ s) :
    ViewOf sizes ⟨0, sizes, multipliersOf sizes⟩ (Geometry.whole sizes) := by
  refine ⟨⟨rfl, length_multipliersFrom sizes 1, fun c _ => zero_add _⟩,
    multipliersFrom_nonneg hs Int.one_nonneg, fun c hc => hc, fun c c' _ _ h => h⟩

section View

variable {sizes : List ℤ} {m : MatrixRegion} {g : Geometry}

theorem nonneg_of_contains {size c : List ℤ} (h : Contains size c) : ∀ x ∈ c, 0 ≤ x := by
  intro x hx
  obtain ⟨i, hi, rfl⟩ := List.getElem_of_mem hx
  have hrange := h.2 i (h.1 ▸ hi)
  rw [List.getD_eq_getElem _ _ hi] at hrange
  exact hrange.1

/-- The pointer to a cell is a sum of ints, and in the storage. -/
theorem ViewOf.pointer (h : ViewOf sizes m g) (hfit : sizes.prod < 2 ^ 31) {c : List ℤ}
    (hc : Contains g.size c) :
    coordToPtr m c = some (offset (multipliersOf sizes) (g.cell c)) ∧
      0 ≤ offset (multipliersOf sizes) (g.cell c) ∧
      offset (multipliersOf sizes) (g.cell c) < sizes.prod := by
  have hbounds : ∀ c, Contains g.size c → 0 ≤ offset (multipliersOf sizes) (g.cell c) ∧
      offset (multipliersOf sizes) (g.cell c) < sizes.prod := by
    intro c hc
    obtain ⟨hlo, hhi⟩ := offset_bounds (contains_iff_inBounds.mp (h.inside c hc)) Int.one_nonneg
    rw [one_mul] at hhi
    exact ⟨hlo, by rw [multipliersOf]; omega⟩
  -- the base is the cell of the first coordinate
  have hzeros := contains_zeros.mpr (positive_of_contains hc)
  have hbase : m.base =
      offset (multipliersOf sizes) (g.cell (List.replicate g.size.length 0)) := by
    rw [← h.follows.coordToPtr _ hzeros.1, MatrixRegion.coordToPtr, offset_replicate, add_zero]
  have hptr : m.base + offset m.multipliers c = offset (multipliersOf sizes) (g.cell c) :=
    h.follows.coordToPtr c hc.1
  have hsum : offset (multipliersOf sizes) (g.cell (List.replicate g.size.length 0)) +
      offset m.multipliers c = offset (multipliersOf sizes) (g.cell c) :=
    (congrArg (· + offset m.multipliers c) hbase).symm.trans hptr
  have hfits : 0 + offset m.multipliers c < 2 ^ 31 := by
    have hzero := (hbounds _ hzeros).1
    have hlt := (hbounds c hc).2
    omega
  refine ⟨?_, hbounds c hc⟩
  rw [coordToPtr, offsetLoop_eq h.multipliers_nonneg (nonneg_of_contains hc) le_rfl hfits, zero_add]
  exact congrArg some hptr

theorem zipWith_add_injective {c c' os : List ℤ} (hc : c.length = os.length)
    (hc' : c'.length = os.length) (h : List.zipWith (· + ·) c os = List.zipWith (· + ·) c' os) :
    c = c' := by
  induction os generalizing c c' with
  | nil => rw [List.length_eq_zero_iff.mp hc, List.length_eq_zero_iff.mp hc']
  | cons o os ih =>
      cases c with
      | nil => cases hc
      | cons x c =>
          cases c' with
          | nil => cases hc'
          | cons x' c' =>
              obtain ⟨hx, hrest⟩ := List.cons.inj h
              rw [add_right_cancel hx, ih (Nat.succ.inj hc) (Nat.succ.inj hc') hrest]

theorem zipWith_zeros_add (c : List ℤ) :
    List.zipWith (· + ·) (List.replicate c.length 0) c = c := by
  induction c with
  | nil => rfl
  | cons x c ih => exact congrArg₂ List.cons (zero_add x) ih

theorem set_zeros {n d : ℕ} (hd : d < n + 1) (p : ℤ) :
    (List.replicate (n + 1) 0).set d p = (List.replicate n 0).insertIdx d p := by
  induction n generalizing d with
  | zero =>
      obtain rfl : d = 0 := by omega
      rfl
  | succ n ih =>
      cases d with
      | zero => rfl
      | succ d => exact congrArg (List.cons 0) (ih (by omega))

/-- A dimension that an operation leaves is not empty if none after it is. -/
theorem positive_of_apply {op : LocalOp} (hin : ArgsInRange g.size op.toOp)
    (h : Positive (g.apply op.toOp).size) : Positive g.size := by
  have hzeros := contains_zeros.mpr h
  cases op with
  | region c1 c2 => exact positive_of_contains (hzeros.box hin.2)
  | slice d pos => exact positive_of_contains (hzeros.insertIdx hin.1 hin.2)
  | transposed => exact positive_of_contains hzeros.reverse

theorem ViewOf.apply (h : ViewOf sizes m g) (hfit : sizes.prod < 2 ^ 31) {op : LocalOp}
    (hin : ArgsInRange g.size op.toOp) (hpos : Positive (g.apply op.toOp).size) :
    apply m op = some (m.apply op) ∧ ViewOf sizes (m.apply op) (g.apply op.toOp) := by
  have hzeros := contains_zeros.mpr hpos
  have hfollows := h.follows.apply hin
  have hinside := h.inside.apply hin
  cases op with
  | region c1 c2 =>
      have hlen1 := hin.2.1
      have hlenBox := hin.2.2.1
      have hlen : (List.zipWith (· - ·) c2 c1).length = c1.length := hlenBox.trans hlen1.symm
      have hc1 : Contains g.size c1 := by
        have hbox := hzeros.box hin.2
        rwa [show (g.apply (LocalOp.region c1 c2).toOp).size.length = c1.length from hlen,
          zipWith_zeros_add] at hbox
      refine ⟨?_, hfollows, h.multipliers_nonneg, hinside, fun c c' hc hc' heq => ?_⟩
      · show (coordToPtr m c1).map _ = _
        rw [(h.pointer hfit hc1).1, Option.map_some, ← h.follows.coordToPtr c1 hc1.1]
        rfl
      · exact zipWith_add_injective (hc.1.trans hlen) (hc'.1.trans hlen)
          (h.injective _ _ (hc.box hin.2) (hc'.box hin.2) heq)
  | slice d pos =>
      obtain ⟨n, hn⟩ : ∃ n, g.size.length = n + 1 := Nat.exists_eq_succ_of_ne_zero (by
        have := hin.1
        omega)
      have hc1 : Contains g.size ((List.replicate m.sizes.length 0).set d pos) := by
        have hslice := hzeros.insertIdx hin.1 hin.2
        rw [h.follows.sizes, hn, set_zeros (hn ▸ hin.1) pos]
        rwa [show (g.apply (LocalOp.slice d pos).toOp).size.length = n by
          show (g.size.eraseIdx d).length = n
          rw [List.length_eraseIdx_of_lt hin.1, hn, Nat.add_sub_cancel]] at hslice
      refine ⟨?_, hfollows, fun x hx => h.multipliers_nonneg x (List.mem_of_mem_eraseIdx hx), hinside,
        fun c c' hc hc' heq => ?_⟩
      · show (coordToPtr m _).map _ = _
        rw [(h.pointer hfit hc1).1, Option.map_some, ← h.follows.coordToPtr _ hc1.1]
        rfl
      · exact List.insertIdx_injective d pos (h.injective _ _ (hc.insertIdx hin.1 hin.2)
          (hc'.insertIdx hin.1 hin.2) heq)
  | transposed =>
      refine ⟨rfl, hfollows, fun x hx => h.multipliers_nonneg x (List.mem_reverse.mp hx), hinside,
        fun c c' hc hc' heq => ?_⟩
      exact List.reverse_injective (h.injective _ _ hc.reverse hc'.reverse heq)

theorem positive_of_build {ops : List LocalOp} (hin : InRange g (ops.map LocalOp.toOp))
    (h : Positive (g.build (ops.map LocalOp.toOp)).size) : Positive g.size := by
  induction ops generalizing g with
  | nil => exact h
  | cons op ops ih => exact positive_of_apply hin.1 (ih hin.2 h)

theorem ViewOf.build (h : ViewOf sizes m g) (hfit : sizes.prod < 2 ^ 31) {ops : List LocalOp}
    (hin : InRange g (ops.map LocalOp.toOp))
    (hpos : Positive (g.build (ops.map LocalOp.toOp)).size) :
    ∃ m', build m ops = some m' ∧ ViewOf sizes m' (g.build (ops.map LocalOp.toOp)) := by
  induction ops generalizing m g with
  | nil => exact ⟨m, rfl, h⟩
  | cons op ops ih =>
      obtain ⟨happly, hview⟩ := h.apply hfit hin.1 (positive_of_build hin.2 hpos)
      obtain ⟨m', hbuild, hview'⟩ := ih hview hin.2 hpos
      refine ⟨m', ?_, hview'⟩
      rw [PbMatrixRegion.build, happly]
      exact hbuild

theorem ViewOf.distinct (h : ViewOf sizes m g) (hfit : sizes.prod < 2 ^ 31) {c c' : List ℤ}
    (hc : Contains g.size c) (hc' : Contains g.size c')
    (heq : coordToPtr m c = coordToPtr m c') : c = c' := by
  rw [(h.pointer hfit hc).1, (h.pointer hfit hc').1, Option.some_inj,
    PbRegionSplit.offset_multipliersOf, PbRegionSplit.offset_multipliersOf] at heq
  exact h.injective c c' hc hc' (encode_inj (contains_iff_inBounds.mp (h.inside c hc))
    (contains_iff_inBounds.mp (h.inside c' hc')) heq)

/-! ## What is touched -/

/-- The cells at some coordinates, all in range. -/
theorem cellsAt_eq {m dst : MatrixRegion} {cs : List (List ℤ)} {ptr ptr' : List ℤ → ℤ}
    (hm : ∀ c ∈ cs, coordToPtr m c = some (ptr c))
    (hdst : ∀ c ∈ cs, coordToPtr dst c = some (ptr' c)) :
    cellsAt m dst cs = some (cs.map fun c => (ptr c, ptr' c)) := by
  induction cs with
  | nil => rfl
  | cons c cs ih =>
      rw [cellsAt, hm c List.mem_cons_self, hdst c List.mem_cons_self,
        ih (fun c' h => hm c' (List.mem_cons_of_mem c h))
          fun c' h => hdst c' (List.mem_cons_of_mem c h)]
      rfl

/-- The cells of a set of coordinates of a view, each once. -/
theorem ViewOf.cellsAt (h : ViewOf sizes m g) (hfit : sizes.prod < 2 ^ 31) {dst : MatrixRegion}
    {cs : List (List ℤ)} {p : List ℤ → Prop} (hcs : Covers cs p)
    (hin : ∀ c, p c → Contains g.size c) (hdst : ∀ c, p c → ∃ q, coordToPtr dst c = some q) :
    ∃ ps, PbMatrixRegion.cellsAt m dst cs = some ps ∧ (ps.map Prod.fst).Nodup ∧
      ∀ x y, (x, y) ∈ ps ↔ ∃ c, p c ∧ coordToPtr m c = some x ∧ coordToPtr dst c = some y := by
  obtain ⟨hnodup, hmem⟩ := hcs
  have hm : ∀ c ∈ cs, coordToPtr m c = some (offset (multipliersOf sizes) (g.cell c)) :=
    fun c hc => (h.pointer hfit (hin c ((hmem c).mp hc))).1
  have hd : ∀ c ∈ cs, coordToPtr dst c = some ((coordToPtr dst c).getD 0) := by
    intro c hc
    obtain ⟨q, hq⟩ := hdst c ((hmem c).mp hc)
    rw [hq]
    rfl
  refine ⟨_, cellsAt_eq hm hd, ?_, fun x y => ?_⟩
  · rw [List.map_map]
    refine List.Nodup.map_on (fun c hc c' hc' heq => ?_) hnodup
    refine h.distinct hfit (hin c ((hmem c).mp hc)) (hin c' ((hmem c').mp hc')) ?_
    rw [hm c hc, hm c' hc']
    exact congrArg some heq
  · rw [List.mem_map]
    constructor
    · rintro ⟨c, hc, heq⟩
      obtain ⟨rfl, rfl⟩ := Prod.mk.inj heq
      exact ⟨c, (hmem c).mp hc, hm c hc, hd c hc⟩
    · rintro ⟨c, hc, hx, hy⟩
      have hc' := (hmem c).mpr hc
      rw [hm c hc', Option.some_inj] at hx
      rw [hd c hc', Option.some_inj] at hy
      exact ⟨c, hc', Prod.ext hx hy⟩

/-- The traversal of a region that is not empty. -/
theorem covers_incCoord (hsizes : m.sizes = g.size) (hpos : Positive g.size) :
    ∃ n cs, doWhile (incCoord m) n (zeros m) = some cs ∧ Covers cs (Contains g.size) := by
  have hproper : Proper (zeros m) m.sizes := by
    rw [zeros]
    exact proper_zeros.mpr (hsizes ▸ hpos)
  obtain ⟨n, hn⟩ := doWhile_box hproper
  refine ⟨n, _, hn, nodup_boxList hproper, fun c => ?_⟩
  rw [mem_boxList hproper, zeros, inBox_zeros, hsizes]

theorem covers_box {c1 c2 : List ℤ} (hproper : Proper c1 c2) :
    ∃ n cs, doWhile (incCoordWithBound c1 c2) n c1 = some cs ∧ Covers cs (InBox c1 c2) := by
  obtain ⟨n, hn⟩ := doWhile_box hproper
  exact ⟨n, _, hn, nodup_boxList hproper, fun c => mem_boxList hproper⟩

/-- The test of a box before it is copied. -/
theorem any_empty_iff {c1 c2 : List ℤ} (hlen : c1.length = c2.length) :
    (List.zipWith (fun lo hi => decide (lo ≥ hi)) c1 c2).any id = false ↔ Proper c1 c2 := by
  induction c1 generalizing c2 with
  | nil =>
      rw [List.length_eq_zero_iff.mp hlen.symm]
      exact iff_of_true rfl .nil
  | cons lo c1 ih =>
      cases c2 with
      | nil => cases hlen
      | cons hi c2 =>
          rw [List.zipWith_cons_cons, List.any_cons, Bool.or_eq_false_iff, ih (Nat.succ.inj hlen),
            Proper, Proper, List.forall₂_cons]
          refine and_congr_left' ?_
          show decide (lo ≥ hi) = false ↔ lo < hi
          rw [decide_eq_false_iff_not, not_le]

theorem exact_of_view {m0 : MatrixRegion} (h0 : ViewOf sizes m0 (Geometry.whole sizes))
    (h : ViewOf sizes m g) (hfit : sizes.prod < 2 ^ 31) (hpos : Positive g.size) :
    Exact sizes m0 m g := by
  have hcovers := covers_incCoord h.follows.sizes hpos
  have hself : ∀ c, Contains g.size c → ∃ q, coordToPtr m c = some q := fun c hc =>
    ⟨_, (h.pointer hfit hc).1⟩
  have hcopy : ∀ dst, (∀ c, Contains g.size c → ∃ q, coordToPtr dst c = some q) →
      ∃ n ps, (doWhile (incCoord m) n (zeros m)).bind (PbMatrixRegion.cellsAt m dst) = some ps ∧
        (ps.map Prod.fst).Nodup ∧ ∀ p q, (p, q) ∈ ps ↔
          ∃ c, Contains g.size c ∧ coordToPtr m c = some p ∧ coordToPtr dst c = some q := by
    intro dst hdst
    obtain ⟨n, cs, hrun, hcs⟩ := hcovers
    obtain ⟨ps, hps, hnodup, hmem⟩ := h.cellsAt hfit hcs (fun _ hc => hc) hdst
    exact ⟨n, ps, by rw [hrun, Option.bind_some, hps], hnodup, hmem⟩
  refine ⟨h.follows.sizes, fun c hc => ?_, fun c c' hc hc' heq => h.distinct hfit hc hc' heq, hcovers,
    fun c1 c2 _ hproper => covers_box hproper, hcopy, fun dst c1 c2 hbox hdst => ?_, ?_⟩
  · obtain ⟨hptr, hlo, hhi⟩ := h.pointer hfit hc
    exact ⟨_, hptr, (h0.pointer hfit (h.inside c hc)).1, hlo, hhi⟩
  · by_cases hproper : Proper c1 c2
    · obtain ⟨n, cs, hrun, hcs⟩ := covers_box hproper
      obtain ⟨ps, hps, hnodup, hmem⟩ := h.cellsAt hfit hcs
        (fun c hc => contains_of_inBox hbox hc) fun c hc => hdst c (contains_of_inBox hbox hc)
      have hlen : c1.length = c2.length := hbox.1.1.trans hbox.2.symm
      refine ⟨n, ps, ?_, hnodup, hmem⟩
      rw [PbMatrixRegion.copyToBox, if_neg Bool.false_ne_true,
        if_neg (by rw [(any_empty_iff hlen).mpr hproper]; exact Bool.false_ne_true), hrun,
        Option.bind_some, hps]
    · refine ⟨0, [], ?_, List.nodup_nil, fun p q => ?_⟩
      · have hlen : c1.length = c2.length := hbox.1.1.trans hbox.2.symm
        rw [PbMatrixRegion.copyToBox, if_neg Bool.false_ne_true, if_pos]
        exact Bool.of_not_eq_false (mt (any_empty_iff hlen).mp hproper)
      · refine iff_of_false List.not_mem_nil ?_
        rintro ⟨c, hc, _⟩
        exact hproper hc.proper
  · obtain ⟨n, ps, hrun, hnodup, hmem⟩ := hcopy m hself
    refine ⟨n, ps.map Prod.fst, ?_, hnodup, fun p => ?_⟩
    · have hcount : count m > 0 := by
        rw [count, h.follows.sizes]
        exact hpos.prod_pos
      rw [PbMatrixRegion.hashed, if_pos hcount, hrun, Option.map_some]
    · rw [List.mem_map]
      constructor
      · rintro ⟨⟨p', q⟩, hpq, rfl⟩
        obtain ⟨c, hc, hp, _⟩ := (hmem _ _).mp hpq
        exact ⟨c, hc, hp⟩
      · rintro ⟨c, hc, hp⟩
        exact ⟨(p, p), (hmem p p).mpr ⟨c, hc, hp, hp⟩, rfl⟩

end View

/-- A traversal of an empty region visits its lower corner. -/
theorem Exact.positive {sizes : List ℤ} {m0 m : MatrixRegion} {g : Geometry}
    (h : Exact sizes m0 m g) : Positive g.size := by
  obtain ⟨n, cs, hrun, _, hmem⟩ := h.incCoord
  have hzeros := (hmem _).mp (start_mem_doWhile hrun)
  rw [zeros, h.sizes_eq] at hzeros
  exact contains_zeros.mp hzeros

theorem sizesFit_of_allocate {sizes : List ℤ} {m0 : MatrixRegion} (h : allocate sizes = some m0) :
    SizesFit sizes := by
  obtain ⟨multipliers, hlayout, _⟩ := Option.map_eq_some_iff.mp h
  intro n hn
  have hfits := fits_of_setStockLayout hlayout n hn
  rwa [one_mul] at hfits

theorem allocate_eq {sizes : List ℤ} (hs : ∀ s ∈ sizes, 0 ≤ s) (hfit : SizesFit sizes) :
    allocate sizes = some ⟨0, sizes, multipliersOf sizes⟩ := by
  rw [allocate, setStockLayout_eq hs Int.one_nonneg fun n hn => by rw [one_mul]; exact hfit n hn]
  rfl

/-- **EXACTNESS OF VIEWS**: a chain of operations on an allocated matrix makes the region that the
    geometry describes, and traversals visit its cells, each once, exactly when the multipliers of
    the matrix are ints and the region is not empty. -/
theorem exact_iff (sizes : List ℤ) (hs : ∀ s ∈ sizes, 0 ≤ s) (ops : List LocalOp)
    (hin : InRange (Geometry.whole sizes) (ops.map LocalOp.toOp)) :
    (∃ m0 m, allocate sizes = some m0 ∧ build m0 ops = some m ∧
        Exact sizes m0 m ((Geometry.whole sizes).build (ops.map LocalOp.toOp))) ↔
      SizesFit sizes ∧ Positive ((Geometry.whole sizes).build (ops.map LocalOp.toOp)).size := by
  constructor
  · rintro ⟨m0, m, hallocate, _, hexact⟩
    exact ⟨sizesFit_of_allocate hallocate, hexact.positive⟩
  · rintro ⟨hfit, hpos⟩
    have hwhole := viewOf_whole hs
    obtain ⟨m, hbuild, hview⟩ := hwhole.build hfit.prod_lt hin hpos
    exact ⟨_, m, allocate_eq hs hfit, hbuild, exact_of_view hwhole hview hfit.prod_lt hpos⟩

/-- A box of a layer, the other way round. -/
def layerBox : List LocalOp := [.slice 2 1, .region [0, 1] [2, 3], .transposed]

theorem exact_layerBox :
    ∃ m0 m, allocate [2, 3, 4] = some m0 ∧ build m0 layerBox = some m ∧
      Exact [2, 3, 4] m0 m ((Geometry.whole [2, 3, 4]).build (layerBox.map LocalOp.toOp)) := by
  refine (exact_iff [2, 3, 4] (by decide) layerBox ?_).mpr ⟨?_, ?_⟩
  · refine ⟨⟨by decide, by decide, by decide⟩, ⟨rfl, rfl, rfl, ?_⟩, trivial, trivial⟩
    decide
  · unfold SizesFit
    decide
  · unfold Positive
    decide

/-- A matrix of three columns without a cell: its traversal visits the corner. -/
theorem not_exact_columns :
    ¬ ∃ m0 m, allocate [0, 3] = some m0 ∧ build m0 [] = some m ∧
      Exact [0, 3] m0 m ((Geometry.whole [0, 3]).build (([] : List LocalOp).map LocalOp.toOp)) := by
  rintro ⟨m0, m, _, _, hexact⟩
  exact absurd (hexact.positive 0 List.mem_cons_self) (lt_irrefl 0)

end PbMatrixRegion
