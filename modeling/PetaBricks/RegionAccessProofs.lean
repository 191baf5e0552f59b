import PetaBricks.IterationBoundsModel

/-!
# Accesses — what an argument of a rule designates

Each kind of region says of its coordinates what its access does not mention: a column reaches
from the first row to the last (`Shape`).  So the cells that the access designates in the matrix
are those of the region (`cells_iff`), and the access relative to the origin of a part of the
matrix designates the same cells there, where the part has all of what the access does not
mention (`view_scratch`).
-/

namespace PbIterationBounds

open PbRegionMatrix (Geometry Contains)

/-! ## Lists of coordinates -/

/-- The cells between two corners, the second one excluded. -/
def InBox (lo hi cell : List ℤ) : Prop :=
  cell.length = lo.length ∧
    ∀ k, k < lo.length → lo.getD k 0 ≤ cell.getD k 0 ∧ cell.getD k 0 < hi.getD k 0

/-- One box in another one. -/
def BoxWithin (lo hi lo' hi' : List ℤ) : Prop :=
  ∀ k, k < lo.length → lo'.getD k 0 ≤ lo.getD k 0 ∧ hi.getD k 0 ≤ hi'.getD k 0

theorem ext_getD {a b : List ℤ} (hl : a.length = b.length)
    (h : ∀ k, k < a.length → a.getD k 0 = b.getD k 0) : a = b := by
  refine List.ext_getElem hl fun k hk hk' => ?_
  have hd := h k hk
  rw [List.getD_eq_getElem _ _ hk, List.getD_eq_getElem _ _ hk'] at hd
  exact hd

theorem getD_zipWith {f : ℤ → ℤ → ℤ} {a b : List ℤ} {k : Nat} (ha : k < a.length)
    (hb : k < b.length) : (List.zipWith f a b).getD k 0 = f (a.getD k 0) (b.getD k 0) := by
  rw [List.getD_eq_getElem _ _ (by rw [List.length_zipWith]; omega), List.getElem_zipWith,
    List.getD_eq_getElem _ _ ha, List.getD_eq_getElem _ _ hb]

theorem getD_zeros (a : List ℤ) (k : Nat) : (a.map fun _ => (0 : ℤ)).getD k 0 = 0 := by
  induction a generalizing k with
  | nil => rfl
  | cons x a ih =>
      cases k with
      | zero => rfl
      | succ k => exact ih k

theorem eq_zeros {a b : List ℤ} (hl : a.length = b.length)
    (h : ∀ k, k < a.length → a.getD k 0 = 0) : a = b.map fun _ => 0 := by
  refine ext_getD (by rw [hl, List.length_map]) fun k hk => ?_
  rw [h k hk, getD_zeros]

theorem getD_take {a : List ℤ} {k n : Nat} (hk : k < n) : (a.take n).getD k 0 = a.getD k 0 := by
  rw [List.getD_eq_getElem?_getD, List.getElem?_take_of_lt hk, List.getD_eq_getElem?_getD]

/-- A list that is not empty ends with something. -/
theorem exists_concat {a : List ℤ} {n : Nat} (h : a.length = n + 1) : ∃ b x, a = b ++ [x] :=
  ⟨_, _, (List.dropLast_append_getLast (List.ne_nil_of_length_eq_add_one h)).symm⟩

/-- A difference and what was subtracted. -/
theorem zipWith_sub_add {a b : List ℤ} (h : a.length = b.length) :
    List.zipWith (· + ·) (List.zipWith (· - ·) a b) b = a := by
  refine ext_getD (by simp [h]) fun k hk => ?_
  rw [List.length_zipWith, List.length_zipWith] at hk
  rw [getD_zipWith (by rw [List.length_zipWith]; omega) (by omega),
    getD_zipWith (by omega) (by omega)]
  exact sub_add_cancel _ _

/-- What is subtracted from both goes. -/
theorem zipWith_sub_sub {a b c : List ℤ} (ha : a.length = c.length) (hb : b.length = c.length) :
    List.zipWith (· - ·) (List.zipWith (· - ·) a c) (List.zipWith (· - ·) b c)
      = List.zipWith (· - ·) a b := by
  refine ext_getD (by simp [ha, hb]) fun k hk => ?_
  simp only [List.length_zipWith] at hk
  rw [getD_zipWith (by rw [List.length_zipWith]; omega) (by rw [List.length_zipWith]; omega),
    getD_zipWith (by omega) (by omega), getD_zipWith (by omega) (by omega),
    getD_zipWith (by omega) (by omega)]
  exact sub_sub_sub_cancel_right _ _ _

theorem zipWith_sub_zeros (a : List ℤ) :
    List.zipWith (· - ·) a (a.map fun _ => 0) = a := by
  induction a with
  | nil => rfl
  | cons x a ih => rw [List.map_cons, List.zipWith_cons_cons, ih, sub_zero]

theorem zipWith_add_zeros {a b : List ℤ} (h : a.length = b.length) :
    List.zipWith (· + ·) a (b.map fun _ => 0) = a := by
  induction a generalizing b with
  | nil => rfl
  | cons x a ih =>
      cases b with
      | nil => cases h
      | cons y b => rw [List.map_cons, List.zipWith_cons_cons, ih (Nat.succ.inj h), add_zero]

theorem zipWith_append_one {f : ℤ → ℤ → ℤ} {a b : List ℤ} (h : a.length = b.length) (x y : ℤ) :
    List.zipWith f (a ++ [x]) (b ++ [y]) = List.zipWith f a b ++ [f x y] :=
  List.zipWith_append h

theorem eraseIdx_length_append (a : List ℤ) (x : ℤ) : (a ++ [x]).eraseIdx a.length = a := by
  rw [List.eraseIdx_append_of_length_le le_rfl, Nat.sub_self]
  exact List.append_nil a

/-! ## Kinds of regions -/

/-- What the kind of a region says about its coordinates. -/
def Shape (size lo hi : List ℤ) : RegionType → Prop
  | .cell => hi = lo.map (· + 1)
  | .col => ∃ x w h, size = [w, h] ∧ lo = [x, 0] ∧ hi = [x + 1, h]
  | .row => ∃ y w h, size = [w, h] ∧ lo = [0, y] ∧ hi = [w, y + 1]
  | .box => True
  | .slice => ∃ zeros rest w v, size = rest ++ [w] ∧ zeros = rest.map (fun _ => 0) ∧
      lo = zeros ++ [v] ∧ hi = rest ++ [v + 1]
  | .all => lo = size.map (fun _ => 0) ∧ hi = size

/-- Without the last dimension, a region of one of these kinds has the coordinates of its kind;
    what is a slice of the last dimension was all of the others. -/
theorem Shape.take {type fixed : RegionType} {size lo hi : List ℤ} {d : Nat}
    (h : Shape size lo hi fixed) (hkind : type = .cell ∨ type = .box ∨ type = .all)
    (hfixed : fixed = type ∨ fixed = .slice ∧ type = .all) (hd : size.length = d + 1) :
    Shape (size.take d) (lo.take d) (hi.take d) type := by
  rcases hfixed with rfl | ⟨rfl, rfl⟩
  · rcases hkind with rfl | rfl | rfl
    · show hi.take d = (lo.take d).map (· + 1)
      rw [show hi = lo.map (· + 1) from h, List.map_take]
    · trivial
    · obtain ⟨rfl, rfl⟩ := h
      exact ⟨List.map_take.symm, rfl⟩
  · obtain ⟨zeros, rest, w, v, rfl, rfl, rfl, rfl⟩ := h
    obtain rfl : rest.length = d := by simpa using hd
    rw [List.take_left' rfl, List.take_left' (List.length_map _), List.take_left' rfl]
    exact ⟨rfl, rfl⟩

/-- The cells that an access designates. -/
def Designates (g : Geometry) (cell : List ℤ) : Prop := ∃ c, Contains g.size c ∧ g.cell c = cell

theorem contains_iff {size c : List ℤ} :
    Contains size c ↔ InBox (size.map fun _ => 0) size c := by
  unfold Contains InBox
  rw [List.length_map]
  refine and_congr_right fun _ => forall_congr' fun k => forall_congr' fun hk => ?_
  rw [getD_zeros]

theorem contains_one {h : ℤ} {c : List ℤ} :
    Contains [h] c ↔ ∃ y, c = [y] ∧ 0 ≤ y ∧ y < h := by
  constructor
  · rintro ⟨hl, hc⟩
    obtain ⟨y, rfl⟩ := List.length_eq_one_iff.mp hl
    exact ⟨y, rfl, hc 0 Nat.one_pos⟩
  · rintro ⟨y, rfl, hy⟩
    refine ⟨rfl, fun k hk => ?_⟩
    rw [Nat.lt_one_iff.mp hk]
    exact hy

theorem inBox_two {a b c d : ℤ} {cell : List ℤ} :
    InBox [a, b] [c, d] cell ↔ ∃ x y, cell = [x, y] ∧ (a ≤ x ∧ x < c) ∧ b ≤ y ∧ y < d := by
  constructor
  · rintro ⟨hl, hc⟩
    obtain ⟨x, y, rfl⟩ := List.length_eq_two.mp hl
    exact ⟨x, y, rfl, hc 0 Nat.two_pos, hc 1 Nat.one_lt_two⟩
  · rintro ⟨x, y, rfl, hx, hy⟩
    refine ⟨rfl, fun k hk => ?_⟩
    rcases Nat.lt_succ_iff_lt_or_eq.mp hk with hk | rfl
    · rw [Nat.lt_one_iff.mp hk]
      exact hx
    · exact hy

/-- One cell. -/
theorem inBox_cell {lo cell : List ℤ} : InBox lo (lo.map (· + 1)) cell ↔ cell = lo := by
  have hget : ∀ k, k < lo.length → (lo.map (· + 1)).getD k 0 = lo.getD k 0 + 1 := by
    intro k hk
    rw [List.getD_eq_getElem _ _ (by rw [List.length_map]; exact hk), List.getElem_map,
      List.getD_eq_getElem _ _ hk]
  constructor
  · rintro ⟨hl, hc⟩
    refine ext_getD hl fun k hk => ?_
    have h := hc k (hl ▸ hk)
    rw [hget k (hl ▸ hk)] at h
    omega
  · rintro rfl
    refine ⟨rfl, fun k hk => ?_⟩
    rw [hget k hk]
    omega

/-- A box, by the coordinates in it. -/
theorem inBox_iff_add {lo hi cell : List ℤ} (h : lo.length = hi.length) :
    InBox lo hi cell ↔
      ∃ c, Contains (List.zipWith (· - ·) hi lo) c ∧ List.zipWith (· + ·) c lo = cell := by
  have hl : (List.zipWith (· - ·) hi lo).length = lo.length := by
    rw [List.length_zipWith, h, Nat.min_self]
  constructor
  · rintro ⟨hcell, hc⟩
    refine ⟨List.zipWith (· - ·) cell lo, ⟨?_, ?_⟩, zipWith_sub_add hcell⟩
    · rw [List.length_zipWith, hl, hcell, Nat.min_self]
    · intro k hk
      rw [hl] at hk
      have hb := hc k hk
      rw [getD_zipWith (by omega) (by omega), getD_zipWith (by omega) (by omega)]
      omega
  · rintro ⟨c, ⟨hcl, hc⟩, rfl⟩
    rw [hl] at hcl hc
    refine ⟨by rw [List.length_zipWith, hcl, Nat.min_self], fun k hk => ?_⟩
    have hb := hc k hk
    rw [getD_zipWith (by omega) (by omega)] at hb ⊢
    omega

/-- All of the other dimensions and one place in the last. -/
theorem inBox_slice {rest cell : List ℤ} {v : ℤ} :
    InBox (rest.map (fun _ => 0) ++ [v]) (rest ++ [v + 1]) cell ↔
      ∃ c, Contains rest c ∧ c ++ [v] = cell := by
  have hzeros : (rest.map fun _ => (0 : ℤ)).length = rest.length := List.length_map _
  have hlen : ((rest.map fun _ => (0 : ℤ)) ++ [v]).length = rest.length + 1 := by
    rw [List.length_append, hzeros, List.length_singleton]
  have hlt : ∀ {k : Nat} {l : List ℤ} {a : ℤ}, k < l.length → (l ++ [a]).getD k 0 = l.getD k 0 := by
    intro k l a hk
    rw [List.getD_append _ _ _ _ hk]
  have hlast : ∀ {l : List ℤ} {a : ℤ}, (l ++ [a]).getD l.length 0 = a := by
    intro l a
    rw [List.getD_append_right _ _ _ _ le_rfl, Nat.sub_self]
    rfl
  constructor
  · rintro ⟨hl, hc⟩
    rw [hlen] at hl hc
    obtain ⟨c, y, rfl⟩ := exists_concat hl
    rw [List.length_append, List.length_singleton, Nat.add_right_cancel_iff] at hl
    have hy := hc rest.length (Nat.lt_succ_self _)
    rw [hlast, show rest.length = c.length from hl.symm, hlast] at hy
    have hv : ((rest.map fun _ => (0 : ℤ)) ++ [v]).getD c.length 0 = v := by
      rw [hl, ← hzeros, hlast]
    rw [hv] at hy
    refine ⟨c, contains_iff.mpr ⟨by rw [hzeros]; exact hl, fun k hk => ?_⟩, ?_⟩
    · rw [List.length_map] at hk
      have h := hc k (Nat.lt_succ_of_lt hk)
      rw [hlt (hzeros.symm ▸ hk), hlt (hl ▸ hk), hlt hk] at h
      exact h
    · rw [show y = v by omega]
  · rintro ⟨c, hc, rfl⟩
    obtain ⟨hl, hc⟩ := contains_iff.mp hc
    rw [List.length_map] at hl hc
    refine ⟨by rw [hlen, List.length_append, hl]; rfl, fun k hk => ?_⟩
    rw [hlen] at hk
    rcases Nat.lt_succ_iff_lt_or_eq.mp hk with hk | rfl
    · rw [hlt (hzeros.symm ▸ hk), hlt (hl ▸ hk), hlt hk]
      exact hc k hk
    · have hv : ((rest.map fun _ => (0 : ℤ)) ++ [v]).getD rest.length 0 = v := by
        rw [← hzeros, hlast]
      rw [hv, hlast, ← hl, hlast]
      omega

/-! ## Accesses to a matrix and to a part of it -/

/-- What the access of a region designates are the cells of the region. -/
theorem cells_iff {type : RegionType} {size lo hi : List ℤ} (hlo : lo.length = size.length)
    (hhi : hi.length = size.length) (h : Shape size lo hi type) :
    ∃ acc, Region.accessor size.length lo hi type = some acc ∧
      ∀ cell, Designates (acc.view (Geometry.whole size)) cell ↔ InBox lo hi cell := by
  cases type with
  | cell =>
      refine ⟨.cell lo, rfl, fun cell => ?_⟩
      rw [show hi = lo.map (· + 1) from h, inBox_cell]
      constructor
      · rintro ⟨c, -, rfl⟩
        rfl
      · rintro rfl
        exact ⟨[], ⟨rfl, fun k hk => absurd hk (Nat.not_lt_zero k)⟩, rfl⟩
  | col =>
      obtain ⟨x, w, h, rfl, rfl, rfl⟩ := h
      refine ⟨.col x, rfl, fun cell => ?_⟩
      rw [inBox_two]
      constructor
      · rintro ⟨c, hc, rfl⟩
        obtain ⟨y, rfl, hy⟩ := contains_one.mp hc
        exact ⟨x, y, rfl, ⟨le_rfl, lt_add_one x⟩, hy⟩
      · rintro ⟨x', y, rfl, ⟨hx, hx'⟩, hy⟩
        obtain rfl : x' = x := le_antisymm (Int.lt_add_one_iff.mp hx') hx
        exact ⟨[y], contains_one.mpr ⟨y, rfl, hy⟩, rfl⟩
  | row =>
      obtain ⟨y, w, h, rfl, rfl, rfl⟩ := h
      refine ⟨.row y, rfl, fun cell => ?_⟩
      rw [inBox_two]
      constructor
      · rintro ⟨c, hc, rfl⟩
        obtain ⟨x, rfl, hx⟩ := contains_one.mp hc
        exact ⟨x, y, rfl, hx, le_rfl, lt_add_one y⟩
      · rintro ⟨x, y', rfl, hx, hy, hy'⟩
        obtain rfl : y' = y := le_antisymm (Int.lt_add_one_iff.mp hy') hy
        exact ⟨[x], contains_one.mpr ⟨x, rfl, hx⟩, rfl⟩
  | box =>
      refine ⟨.region lo hi, rfl, fun cell => ?_⟩
      exact (inBox_iff_add (hlo.trans hhi.symm)).symm
  | slice =>
      obtain ⟨zeros, rest, w, v, rfl, rfl, rfl, rfl⟩ := h
      refine ⟨.slice rest.length v, ?_, fun cell => ?_⟩
      · rw [Region.accessor, List.getLast?_concat, List.length_append]
        rfl
      · rw [inBox_slice]
        have hsize : (Accessor.view (.slice rest.length v) (Geometry.whole (rest ++ [w]))).size
            = rest := eraseIdx_length_append rest w
        refine exists_congr fun c => ?_
        rw [hsize]
        refine and_congr_right fun hc => ?_
        show c.insertIdx rest.length v = cell ↔ _
        rw [← hc.1, List.insertIdx_length_self]
  | all =>
      obtain ⟨rfl, rfl⟩ := h
      refine ⟨.all, rfl, fun cell => ?_⟩
      rw [← contains_iff]
      constructor
      · rintro ⟨c, hc, rfl⟩
        exact hc
      · intro hc
        exact ⟨cell, hc, rfl⟩

/-- The part of a matrix between two corners, by its own coordinates. -/
def scratch (size lower upper : List ℤ) : Geometry :=
  (Geometry.whole size).apply (.region lower upper)

/-- The two accesses designate the same cells, by the same coordinates. -/
def SameView (g g' : Geometry) : Prop :=
  g'.size = g.size ∧ ∀ c, Contains g.size c → g'.cell c = g.cell c

/-- A dimension that an access does not mention is in the part as a whole. -/
theorem whole_dimension {size lo hi lower upper : List ℤ} (hlo : lo.length = size.length)
    (hl : lower.length = size.length) (hin : BoxWithin lo hi lower upper)
    (hout : BoxWithin lower upper (size.map fun _ => 0) size) {k : Nat} (hk : k < size.length)
    (hzero : lo.getD k 0 = 0) (hall : hi.getD k 0 = size.getD k 0) :
    lower.getD k 0 = 0 ∧ upper.getD k 0 = size.getD k 0 := by
  obtain ⟨h1, h2⟩ := hin k (hlo ▸ hk)
  obtain ⟨h3, h4⟩ := hout k (hl ▸ hk)
  have h0 := getD_zeros size k
  omega

/-- The corners of a part that has all of the other dimensions. -/
theorem slice_corners {rest lower upper : List ℤ} {v w : ℤ}
    (hlo : (rest.map (fun _ => (0 : ℤ)) ++ [v]).length = (rest ++ [w]).length)
    (hl : lower.length = (rest ++ [w]).length) (hu : upper.length = (rest ++ [w]).length)
    (hin : BoxWithin (rest.map (fun _ => (0 : ℤ)) ++ [v]) (rest ++ [v + 1]) lower upper)
    (hout : BoxWithin lower upper ((rest ++ [w]).map fun _ => 0) (rest ++ [w])) :
    ∃ l u, lower = rest.map (fun _ => 0) ++ [l] ∧ upper = rest ++ [u] := by
  obtain ⟨zeros, l, rfl⟩ := exists_concat (hl.trans List.length_append)
  obtain ⟨rest', u, rfl⟩ := exists_concat (hu.trans List.length_append)
  have hlz : zeros.length = rest.length := by simpa using hl
  have hur : rest'.length = rest.length := by simpa using hu
  have hall : ∀ k, k < rest.length → zeros.getD k 0 = 0 ∧ rest'.getD k 0 = rest.getD k 0 := by
    intro k hk
    have h0 : k < (rest.map fun _ => (0 : ℤ)).length := by rw [List.length_map]; exact hk
    have h := whole_dimension (k := k) hlo hl hin hout
      (by rw [List.length_append]; exact Nat.lt_add_right 1 hk)
      (by rw [List.getD_append _ _ _ _ h0, getD_zeros])
      (by rw [List.getD_append _ _ _ _ hk, List.getD_append _ _ _ _ hk])
    rw [List.getD_append _ _ _ _ (hlz.symm ▸ hk), List.getD_append _ _ _ _ (hur.symm ▸ hk),
      List.getD_append _ _ _ _ hk] at h
    exact h
  refine ⟨l, u, ?_, ?_⟩
  · rw [eq_zeros hlz fun k hk => (hall k (hlz ▸ hk)).1]
  · rw [ext_getD hur fun k hk => (hall k (hur ▸ hk)).2]

/-- A slice of such a part. -/
theorem slice_scratch {rest : List ℤ} {l u v w : ℤ} :
    SameView ((Accessor.slice rest.length v).view (Geometry.whole (rest ++ [w])))
      ((Accessor.slice rest.length (v - l)).view
        (scratch (rest ++ [w]) (rest.map (fun _ => 0) ++ [l]) (rest ++ [u]))) := by
  constructor
  · show (List.zipWith (· - ·) (rest ++ [u]) (_ ++ [l])).eraseIdx rest.length
      = (rest ++ [w]).eraseIdx rest.length
    rw [zipWith_append_one (List.length_map _).symm, zipWith_sub_zeros, eraseIdx_length_append,
      eraseIdx_length_append]
  · intro c hc
    have hcl : c.length = rest.length := by
      rw [hc.1]
      exact congrArg List.length (eraseIdx_length_append rest w)
    show List.zipWith (· + ·) (c.insertIdx rest.length (v - l)) (_ ++ [l])
      = c.insertIdx rest.length v
    rw [← hcl, List.insertIdx_length_self, List.insertIdx_length_self,
      zipWith_append_one (by rw [List.length_map]; exact hcl), zipWith_add_zeros hcl,
      sub_add_cancel]

/-- A box relative to the origin of a part. -/
theorem region_scratch {size lo hi lower upper : List ℤ} (hlo : lo.length = size.length)
    (hhi : hi.length = size.length) (hl : lower.length = size.length) :
    SameView ((Accessor.region lo hi).view (Geometry.whole size))
      ((Accessor.region (List.zipWith (· - ·) lo lower) (List.zipWith (· - ·) hi lower)).view
        (scratch size lower upper)) := by
  refine ⟨zipWith_sub_sub (hhi.trans hl.symm) (hlo.trans hl.symm), ?_⟩
  intro c hc
  have hcl : c.length = size.length := by
    rw [hc.1]
    show (List.zipWith (· - ·) hi lo).length = _
    rw [List.length_zipWith, hlo, hhi, Nat.min_self]
  show List.zipWith (· + ·) (List.zipWith (· + ·) c (List.zipWith (· - ·) lo lower)) lower
    = List.zipWith (· + ·) c lo
  refine ext_getD (by simp [hcl, hlo, hl]) fun k hk => ?_
  simp only [List.length_zipWith] at hk
  rw [getD_zipWith (by simp only [List.length_zipWith]; omega) (by omega),
    getD_zipWith (by omega) (by rw [List.length_zipWith]; omega),
    getD_zipWith (by omega) (by omega), getD_zipWith (by omega) (by omega)]
  omega

/-- **ACCESSES**: relative to the origin of a part of the matrix that has all its cells, an access
    designates what it designates in the matrix. -/
theorem view_scratch {type : RegionType} {size lo hi lower upper : List ℤ}
    (hlo : lo.length = size.length) (hhi : hi.length = size.length)
    (hl : lower.length = size.length) (hu : upper.length = size.length)
    (h : Shape size lo hi type) (hin : BoxWithin lo hi lower upper)
    (hout : BoxWithin lower upper (size.map fun _ => 0) size) {acc : Accessor ℤ}
    (hacc : Region.accessor size.length lo hi type = some acc) :
    ∃ acc', Region.accessor size.length (List.zipWith (· - ·) lo lower)
        (List.zipWith (· - ·) hi lower) type = some acc' ∧
      SameView (acc.view (Geometry.whole size)) (acc'.view (scratch size lower upper)) := by
  cases type with
  | cell =>
      cases hacc
      refine ⟨.cell _, rfl, rfl, fun c _ => ?_⟩
      exact zipWith_sub_add (hlo.trans hl.symm)
  | col =>
      obtain ⟨x, w, h, rfl, rfl, rfl⟩ := h
      cases hacc
      obtain ⟨l0, l1, rfl⟩ := List.length_eq_two.mp hl
      obtain ⟨u0, u1, rfl⟩ := List.length_eq_two.mp hu
      obtain ⟨h1, h2⟩ := whole_dimension hlo hl hin hout Nat.one_lt_two rfl rfl
      obtain rfl : l1 = 0 := h1
      obtain rfl : u1 = h := h2
      refine ⟨.col (x - l0), rfl, ?_, ?_⟩
      · exact congrArg (fun s => [s]) (sub_zero u1)
      · intro c hc
        obtain ⟨y, rfl, -⟩ := contains_one.mp hc
        show [x - l0 + l0, y + 0] = [x, y]
        rw [sub_add_cancel, add_zero]
  | row =>
      obtain ⟨y, w, h, rfl, rfl, rfl⟩ := h
      cases hacc
      obtain ⟨l0, l1, rfl⟩ := List.length_eq_two.mp hl
      obtain ⟨u0, u1, rfl⟩ := List.length_eq_two.mp hu
      obtain ⟨h1, h2⟩ := whole_dimension hlo hl hin hout Nat.two_pos rfl rfl
      obtain rfl : l0 = 0 := h1
      obtain rfl : u0 = w := h2
      refine ⟨.row (y - l1), rfl, ?_, ?_⟩
      · exact congrArg (fun s => [s]) (sub_zero u0)
      · intro c hc
        obtain ⟨x, rfl, -⟩ := contains_one.mp hc
        show [x + 0, y - l1 + l1] = [x, y]
        rw [sub_add_cancel, add_zero]
  | box =>
      cases hacc
      exact ⟨.region _ _, rfl, region_scratch hlo hhi hl⟩
  | slice =>
      obtain ⟨zeros, rest, w, v, rfl, rfl, rfl, rfl⟩ := h
      rw [Region.accessor, List.getLast?_concat, List.length_append] at hacc
      cases hacc
      obtain ⟨l, u, rfl, rfl⟩ := slice_corners hlo hl hu hin hout
      refine ⟨.slice rest.length (v - l), ?_, slice_scratch⟩
      rw [zipWith_append_one rfl, Region.accessor, List.getLast?_concat, List.length_append]
      rfl
  | all =>
      obtain ⟨rfl, rfl⟩ := h
      cases hacc
      have hall : ∀ k, k < hi.length → lower.getD k 0 = 0 ∧ upper.getD k 0 = hi.getD k 0 := by
        intro k hk
        exact whole_dimension hlo hl hin hout hk (getD_zeros hi k) rfl
      obtain rfl : upper = hi := ext_getD hu fun k hk => (hall k (hu ▸ hk)).2
      obtain rfl : lower = upper.map fun _ => 0 :=
        eq_zeros hl fun k hk => (hall k (hl ▸ hk)).1
      exact ⟨.all, rfl, zipWith_sub_zeros upper, fun c hc => zipWith_add_zeros hc.1⟩

end PbIterationBounds
