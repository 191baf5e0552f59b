import PetaBricks.BoundingBoxProofs
import PetaBricks.RegionAccessProofs

/-!
# The arguments of a rule — regions with the coordinates of their kind

What `Region::initialize` makes of the arguments of an accessor agrees with the kind of region,
and stays so when the coordinates are made relative to the offset variables and versioned
regions become slices (`initializeRegion_shaped`), also after the last dimension of the matrix
is removed (`Shaped.removeDimension`).  The cells that the generated access designates are then
those of the region (`accesses_iff`).
-/

namespace PbIterationBounds

open PbRegionMatrix (Geometry Contains)

section Shapes

variable {F Z : Type} {A : Formulas F Z}

/-! ## Values of coordinates -/

theorem length_evals (fs : List F) (s : State Z) : (A.evals fs s).length = fs.length :=
  List.length_map _

theorem getD_evals {fs : List F} {k : Nat} {f : F} (h : fs[k]? = some f) (s : State Z) :
    (A.evals fs s).getD k 0 = A.eval f s := by
  rw [List.getD_eq_getElem?_getD, Formulas.evals, List.getElem?_map, h]
  rfl

/-- The value of a coordinate with one added to each formula. -/
theorem evals_plusOne (fs : List F) (s : State Z) :
    A.evals (fs.map A.plusOne) s = (A.evals fs s).map (· + 1) := by
  unfold Formulas.evals
  rw [List.map_map, List.map_map]
  refine List.map_congr_left fun f _ => ?_
  show A.eval (A.normalize (A.add f A.one)) s = A.eval f s + 1
  rw [A.eval_normalize, A.eval_add, Formulas.one, A.eval_integer]

theorem evals_append (fs gs : List F) (s : State Z) :
    A.evals (fs ++ gs) s = A.evals fs s ++ A.evals gs s := List.map_append

theorem eval_zero (s : State Z) : A.eval A.zero s = 0 := A.eval_integer 0 s

theorem eval_one (s : State Z) : A.eval A.one s = 1 := A.eval_integer 1 s

theorem evals_zeros (fs : List F) (s : State Z) :
    A.evals (List.replicate fs.length A.zero) s = (A.evals fs s).map fun _ => 0 := by
  induction fs with
  | nil => rfl
  | cons f fs ih =>
      rw [List.length_cons, List.replicate_succ, Formulas.evals, List.map_cons, eval_zero]
      exact congrArg (0 :: ·) ih

/-! ## Regions as they are initialized -/

variable (A) in
/-- A region of a matrix, with the coordinates that its kind says. -/
structure Region.Shaped (size : List F) (r : Region F) : Prop where
  full : r.Full size.length
  shape : ∀ s, Shape (A.evals size s) (A.evals r.minCoord s) (A.evals r.maxCoord s) r.type

/-- The coordinates of a region before they are made relative, by its kind, with the version
    behind them. -/
theorem coordinates_shape {size : List F} {version : Option F} {type : RegionType}
    {bounds : List F} {c : RegionType × List F × List F}
    (h : Region.coordinates A size version type bounds = some c)
    (hlen : (c.2.1 ++ version.toList).length = size.length) :
    (c.2.2 ++ version.toList.map A.plusOne).length = size.length ∧
      ∀ s, Shape (A.evals size s) (A.evals (c.2.1 ++ version.toList) s)
        (A.evals (c.2.2 ++ version.toList.map A.plusOne) s)
        (if version.isSome && c.1 = .all then .slice else c.1) := by
  cases type with
  | cell =>
      simp only [Region.coordinates] at h
      split at h
      · rename_i hn
        cases h
        refine ⟨by simpa using hn.symm, fun s => ?_⟩
        rw [if_neg (by simp), ← List.map_append, evals_plusOne]
        rfl
      · cases h
  | col =>
      rcases bounds with _ | ⟨x, _ | ⟨_, _⟩⟩
      · cases h
      · simp only [Region.coordinates] at h
        split at h
        · cases h
          cases version with
          | none =>
              refine ⟨rfl, fun s => ⟨A.eval x s, _, _, rfl, ?_, ?_⟩⟩
              · show [A.eval x s, A.eval A.zero s] = _
                rw [eval_zero]
              · show [A.eval (A.add x A.one) s, _] = _
                rw [A.eval_add, eval_one]
          | some v => cases hlen
        · cases h
      · cases h
  | row =>
      rcases bounds with _ | ⟨y, _ | ⟨_, _⟩⟩
      · cases h
      · simp only [Region.coordinates] at h
        split at h
        · cases h
          cases version with
          | none =>
              refine ⟨rfl, fun s => ⟨A.eval y s, _, _, rfl, ?_, ?_⟩⟩
              · show [A.eval A.zero s, A.eval y s] = _
                rw [eval_zero]
              · show [_, A.eval (A.add y A.one) s] = _
                rw [A.eval_add, eval_one]
          | some v => cases hlen
        · cases h
      · cases h
  | box =>
      simp only [Region.coordinates] at h
      split at h
      · rename_i hn
        cases h
        refine ⟨?_, fun s => ?_⟩
        · simp only [List.length_append, List.length_drop, List.length_map]
          omega
        · rw [if_neg (by simp)]
          exact trivial
      · cases h
  | slice =>
      cases bounds with
      | nil => cases h
      | cons _ _ => cases h
  | all =>
      cases bounds with
      | cons _ _ => cases h
      | nil =>
          simp only [Region.coordinates] at h
          split at h
          · cases h
            refine ⟨by simpa using hlen, fun s => ?_⟩
            rw [if_neg (by simp), List.nil_append, List.nil_append, evals_plusOne]
            rfl
          · rename_i hn
            cases h
            cases version with
            | none =>
                simp only [Option.toList_none, List.length_nil, Nat.sub_zero, List.take_length,
                  List.map_nil, List.append_nil]
                exact ⟨trivial, fun s => ⟨evals_zeros size s, rfl⟩⟩
            | some v =>
                simp only [Option.toList_some, List.length_singleton] at hn hlen ⊢
                obtain ⟨rest, w, rfl⟩ : ∃ rest w, size = rest ++ [w] :=
                  ⟨_, _, (List.dropLast_append_getLast (fun h => hn (by rw [h]; rfl))).symm⟩
                simp only [List.length_append, List.length_singleton, Nat.add_sub_cancel,
                  List.take_left']
                refine ⟨by simp, fun s => ?_⟩
                refine ⟨_, A.evals rest s, A.eval w s, A.eval v s, evals_append _ _ s,
                  evals_zeros rest s, evals_append _ _ s, ?_⟩
                rw [evals_append, evals_plusOne]
                rfl

theorem Region.fixTypeIfVersioned_toSimpleRegion (r : Region F) :
    r.fixTypeIfVersioned.toSimpleRegion = r.toSimpleRegion := by
  unfold Region.fixTypeIfVersioned
  split
  · rfl
  · rfl

theorem Region.fixTypeIfVersioned_eq {r : Region F} (h : r.removedMinCoord = []) :
    r.fixTypeIfVersioned
      = { r with type := if r.version.isSome && r.type = .all then .slice else r.type } := by
  unfold Region.fixTypeIfVersioned
  rw [h, List.length_nil]
  by_cases hv : (r.version.isSome && r.type = .all) = true
  · rw [if_pos hv, if_pos (by rw [hv]; rfl)]
  · rw [if_neg hv, if_neg (by simpa using hv)]

/-- With a dimension removed, the type stays. -/
theorem Region.fixTypeIfVersioned_removed {r : Region F} (h : r.removedMinCoord ≠ []) :
    r.fixTypeIfVersioned = r := by
  unfold Region.fixTypeIfVersioned
  rw [if_neg]
  intro hfix
  rw [Bool.and_eq_true, decide_eq_true_iff] at hfix
  exact h (List.eq_nil_of_length_eq_zero hfix.2)

theorem Region.type_fixTypeIfVersioned (r : Region F) :
    r.fixTypeIfVersioned.type = r.type ∨ r.fixTypeIfVersioned.type = .slice ∧ r.type = .all := by
  unfold Region.fixTypeIfVersioned
  split
  · rename_i hfix
    simp only [Bool.and_eq_true, decide_eq_true_iff] at hfix
    exact Or.inr ⟨rfl, hfix.1.2⟩
  · exact Or.inl rfl

/-- A region has the coordinates of its kind: as it is initialized, with one coordinate for each
    dimension, made relative by a substitution, and with the type fixed.  No dimension of it is
    removed. -/
theorem initializeRegion_shaped {matrix : Matrix} {size : List F} {version : Option F}
    {isOptional : Bool} {type : RegionType} {bounds : List F} {r : Region F}
    (h : Region.initializeRegion A matrix size version isOptional type bounds = some r)
    (hlen : r.minCoord.length = size.length) {relative : F → F} {subst : State Z → State Z}
    (hrel : ∀ f s, A.eval (relative f) s = A.eval f (subst s))
    (hsize : ∀ f ∈ size, ∀ s, A.eval f (subst s) = A.eval f s) :
    (r.makeRelativeTo relative).Whole ∧
      ((r.makeRelativeTo relative).fixTypeIfVersioned).Shaped A size := by
  have hmap : ∀ (fs : List F) s, A.evals (fs.map relative) s = A.evals fs (subst s) := by
    intro fs s
    unfold Formulas.evals
    rw [List.map_map]
    exact List.map_congr_left fun f _ => hrel f s
  have hsizes : ∀ s, A.evals size (subst s) = A.evals size s :=
    fun s => List.map_congr_left fun f hf => hsize f hf s
  unfold Region.initializeRegion at h
  split at h
  · cases h
  · obtain ⟨c, hc, rfl⟩ := Option.map_eq_some_iff.mp h
    obtain ⟨hmax, hshape⟩ := coordinates_shape hc hlen
    rw [Region.fixTypeIfVersioned_eq rfl]
    refine ⟨⟨rfl, rfl⟩, ⟨?_⟩, fun s => ?_⟩
    · intro op
      cases op with
      | le => exact (List.length_map _).trans hlen
      | ge => exact (List.length_map _).trans hmax
    · have hs := hshape (subst s)
      rw [hsizes] at hs
      show Shape _ (A.evals (List.map relative _) s) (A.evals (List.map relative _) s) _
      rw [hmap, hmap]
      exact hs

/-! ## Regions without their last dimension -/

theorem eraseIdx_last {α : Type} {l : List α} {d : Nat} (h : l.length = d + 1) :
    l.eraseIdx d = l.take d := by
  rw [List.eraseIdx_eq_take_drop_succ, List.drop_of_length_le h.le, List.append_nil]

theorem take_append_last {α : Type} {l : List α} {d : Nat} {x : α} (h : l.length = d + 1)
    (hx : l[d]? = some x) : l.take d ++ [x] = l := by
  have hall := List.take_add_one (l := l) (i := d)
  rw [hx, ← h, List.take_length] at hall
  exact hall.symm

/-- What is left of a region, and what is kept of its bounds. -/
theorem SimpleRegion.removeDimension_last {r q : SimpleRegion F} {d : Nat} (h : r.Full (d + 1))
    (hw : r.Whole) (hq : r.removeDimension d = some q) :
    (∀ op, q.coord op = (r.coord op).take d) ∧ q.removedMinCoord ≠ [] ∧
      q.minCoord ++ q.removedMinCoord = r.minCoord ∧
      q.maxCoord ++ q.removedMaxCoord = r.maxCoord := by
  obtain ⟨lo, hlo, hq⟩ := Option.bind_eq_some_iff.mp hq
  obtain ⟨hi, hhi, hq⟩ := Option.bind_eq_some_iff.mp hq
  cases hq
  have hmin := eraseIdx_last (h.length .le)
  have hmax := eraseIdx_last (h.length .ge)
  refine ⟨?_, List.append_ne_nil_of_right_ne_nil _ (List.cons_ne_nil lo []), ?_, ?_⟩
  · intro op
    cases op with
    | le => exact hmin
    | ge => exact hmax
  · show r.minCoord.eraseIdx d ++ (r.removedMinCoord ++ [lo]) = r.minCoord
    rw [hw.1, List.nil_append]
    exact (congrArg (· ++ [lo]) hmin).trans (take_append_last (h.length .le) hlo)
  · show r.maxCoord.eraseIdx d ++ (r.removedMaxCoord ++ [hi]) = r.maxCoord
    rw [hw.2, List.nil_append]
    exact (congrArg (· ++ [hi]) hmax).trans (take_append_last (h.length .ge) hhi)

theorem mem_of_mapM {α β : Type} {f : α → Option β} {xs : List α} {ys : List β}
    (h : xs.mapM f = some ys) :
    (∀ x ∈ xs, ∃ y ∈ ys, f x = some y) ∧ ∀ y ∈ ys, ∃ x ∈ xs, f x = some y := by
  induction xs generalizing ys with
  | nil =>
      cases h
      exact ⟨fun x hx => absurd hx List.not_mem_nil, fun y hy => absurd hy List.not_mem_nil⟩
  | cons x xs ih =>
      rw [List.mapM_cons] at h
      obtain ⟨y, hy, h⟩ := Option.bind_eq_some_iff.mp h
      obtain ⟨rest, hrest, h⟩ := Option.bind_eq_some_iff.mp h
      cases h
      obtain ⟨hleft, hright⟩ := ih hrest
      refine ⟨List.forall_mem_cons.mpr ⟨⟨y, List.mem_cons_self, hy⟩, fun z hz => ?_⟩,
        List.forall_mem_cons.mpr ⟨⟨x, List.mem_cons_self, hy⟩, fun z hz => ?_⟩⟩
      · obtain ⟨w, hw, hz⟩ := hleft z hz
        exact ⟨w, List.mem_cons_of_mem y hw, hz⟩
      · obtain ⟨w, hw, hz⟩ := hright z hz
        exact ⟨w, List.mem_cons_of_mem x hw, hz⟩

/-- A region of one of these kinds has the coordinates of its kind without the last dimension of
    its matrix, too. -/
theorem Region.Shaped.removeDimension {size : List F} {r q : Region F} {d : Nat}
    (h : r.fixTypeIfVersioned.Shaped A size) (hw : r.Whole) (hd : size.length = d + 1)
    (hkind : r.type = .cell ∨ r.type = .box ∨ r.type = .all)
    (hq : r.removeDimension d = some q) :
    (∀ op, q.coord op = (r.coord op).take d) ∧
      q.fixTypeIfVersioned.Shaped A (size.eraseIdx d) := by
  obtain ⟨q₀, hq₀, rfl⟩ := Option.map_eq_some_iff.mp hq
  have hfull : r.Full (d + 1) := by
    rw [← hd, ← r.fixTypeIfVersioned_toSimpleRegion]
    exact h.full
  obtain ⟨hcoord, hremoved, -⟩ := SimpleRegion.removeDimension_last hfull hw hq₀
  refine ⟨hcoord, ?_⟩
  rw [Region.fixTypeIfVersioned_removed hremoved, eraseIdx_last hd]
  refine ⟨⟨fun op => ?_⟩, fun s => ?_⟩
  · rw [hcoord, List.length_take, List.length_take, hfull.length, hd]
  · have hshape := h.shape s
    rw [r.fixTypeIfVersioned_toSimpleRegion] at hshape
    have htake := hshape.take hkind r.type_fixTypeIfVersioned ((length_evals size s).trans hd)
    have hevals : ∀ fs : List F, (A.evals fs s).take d = A.evals (fs.take d) s :=
      fun fs => List.map_take.symm
    have hmin : q₀.minCoord = r.minCoord.take d := hcoord .le
    have hmax : q₀.maxCoord = r.maxCoord.take d := hcoord .ge
    rw [hevals, hevals, hevals, ← hmin, ← hmax] at htake
    exact htake

/-! ## Accesses by their corners -/

theorem Region.accessor_map {α β : Type} (g : α → β) (n : Nat) (lo hi : List α)
    (type : RegionType) :
    (Region.accessor n lo hi type).map (Accessor.map g)
      = Region.accessor n (lo.map g) (hi.map g) type := by
  cases type with
  | cell => rfl
  | box => rfl
  | all => rfl
  | col => simp only [Region.accessor, List.getElem?_map, Option.map_map]; rfl
  | row => simp only [Region.accessor, List.getElem?_map, Option.map_map]; rfl
  | slice => simp only [Region.accessor, List.getLast?_map, Option.map_map]; rfl

variable (A) in
/-- The corners of a region at an offset. -/
def SimpleRegion.corner (r : SimpleRegion F) (op : Op) (s : State Z) (x : Nat → ℤ) : List ℤ :=
  A.evals (r.coord op) (s.atPoint x)

variable (A) in
/-- The cells of a matrix that an argument designates at an offset. -/
def Region.Accesses (size : List F) (r : Region F) (s : State Z) (x : Nat → ℤ)
    (cell : List ℤ) : Prop :=
  ∃ acc, r.generateAccessorCode size.length = some acc ∧
    Designates ((acc.map (A.eval · (s.atPoint x))).view (Geometry.whole (A.evals size s))) cell

variable (A) in
/-- The corners do not leave the matrix at an offset. -/
def Region.Inside (size : List F) (r : Region F) (s : State Z) (x : Nat → ℤ) : Prop :=
  BoxWithin (r.corner A .le s x) (r.corner A .ge s x) ((A.evals size s).map fun _ => 0)
    (A.evals size s)

variable {size : List F} {r : Region F} {s : State Z}

theorem SimpleRegion.Full.length_corner {r : SimpleRegion F} {n : Nat} (h : r.Full n) (op : Op)
    (x : Nat → ℤ) : (r.corner A op s x).length = n :=
  (length_evals _ _).trans (h.length op)

/-- A generated access, and its value. -/
theorem Region.exists_accessor {g : F → ℤ} {n : Nat} {lo hi : List F} {type : RegionType}
    {acc : Accessor ℤ} (h : Region.accessor n (lo.map g) (hi.map g) type = some acc) :
    ∃ code, Region.accessor n lo hi type = some code ∧ code.map g = acc := by
  rw [← Region.accessor_map] at h
  exact Option.map_eq_some_iff.mp h

/-- An argument accesses the cells of its region. -/
theorem Region.Shaped.accesses_iff (h : r.Shaped A size)
    (hsize : ∀ f ∈ size, ∀ s x, A.eval f (s.atPoint x) = A.eval f s) (x : Nat → ℤ)
    (cell : List ℤ) :
    r.Accesses A size s x cell ↔ InBox (r.corner A .le s x) (r.corner A .ge s x) cell := by
  have hsizes : A.evals size (s.atPoint x) = A.evals size s :=
    List.map_congr_left fun f hf => hsize f hf s x
  have hlen : (A.evals size s).length = size.length := length_evals size s
  have hshape := h.shape (s.atPoint x)
  rw [hsizes] at hshape
  obtain ⟨acc, hacc, hcells⟩ := cells_iff ((h.full.length_corner .le x).trans hlen.symm)
    ((h.full.length_corner .ge x).trans hlen.symm) hshape
  rw [hlen] at hacc
  obtain ⟨code, hcode, rfl⟩ := Region.exists_accessor hacc
  rw [← hcells cell]
  constructor
  · rintro ⟨code', hcode', hd⟩
    rw [Option.some.inj (hcode.symm.trans hcode')]
    exact hd
  · intro hd
    exact ⟨code, hcode, hd⟩

end Shapes

end PbIterationBounds
