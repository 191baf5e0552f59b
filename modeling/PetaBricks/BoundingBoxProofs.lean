import PetaBricks.IterationBoundsProofs
import Mathlib.Data.Set.Lattice

/-!
# Bounding boxes — one region for all accesses to a matrix

`SimpleRegion::regionUnion` takes the smaller of two lower coordinates and the larger of two upper
ones, as far as the solver can tell.  A box `Covers` some regions in so many dimensions if each
of its coordinates there is one of theirs and extreme among them, at all offsets of a block.  The
loops of `buildToBoundingBox`, `buildFromBoundingBox` and `buildScratchBoundingBox` keep that
(`Covered.foldlM`), for every matrix that they are walked for.
-/

namespace PbIterationBounds

open PbOrderedMap (OrderedMap)

section Boxes

variable {F Z : Type} {A : Formulas F Z}

/-! ## Bounding boxes -/

/-- The coordinate that a comparison is about. -/
def SimpleRegion.coord (r : SimpleRegion F) : Op → List F
  | .le => r.minCoord
  | .ge => r.maxCoord

/-- A region of a matrix with so many dimensions. -/
structure SimpleRegion.Full (n : Nat) (r : SimpleRegion F) : Prop where
  length : ∀ op, (r.coord op).length = n

/-- No dimension is removed. -/
def SimpleRegion.Whole (r : SimpleRegion F) : Prop :=
  r.removedMinCoord = [] ∧ r.removedMaxCoord = []

variable (A) in
/-- Each coordinate of a box for one of so many dimensions is one of the regions' and extreme
    among them, at all offsets. -/
structure Covers (s : State Z) (n : Nat) (rs : Set (SimpleRegion F)) (box : SimpleRegion F) :
    Prop where
  whole : box.Whole
  length : ∀ op, n ≤ (box.coord op).length
  mem : ∀ op (k : Nat) (f : F), k < n → (box.coord op)[k]? = some f →
    ∃ r ∈ rs, (r.coord op)[k]? = some f
  holds : ∀ op, ∀ r ∈ rs, ∀ (k : Nat) (f g : F), k < n → (box.coord op)[k]? = some f →
    (r.coord op)[k]? = some g → ∀ x, A.Offsets s x →
      op.Holds (A.eval f (s.atPoint x)) (A.eval g (s.atPoint x))

theorem Covers.singleton {s : State Z} {n : Nat} {r : SimpleRegion F} (h : r.Full n)
    (hw : r.Whole) : Covers A s n {r} r where
  whole := hw
  length := fun op => (h.length op).ge
  mem := fun _ _ _ _ hf => ⟨r, rfl, hf⟩
  holds := by
    rintro op r' rfl k f g - hf hg x -
    rw [Option.some.inj (hf.symm.trans hg)]
    exact Op.Holds.refl op _

/-- A box covers regions in the first dimensions, too. -/
theorem Covers.take {s : State Z} {n d : Nat} {rs rs' : Set (SimpleRegion F)}
    {box : SimpleRegion F} (h : Covers A s n rs box) (hd : d ≤ n)
    (hsub : ∀ q ∈ rs', ∃ r ∈ rs, ∀ op, q.coord op = (r.coord op).take d)
    (hsup : ∀ r ∈ rs, ∃ q ∈ rs', ∀ op, q.coord op = (r.coord op).take d) :
    Covers A s d rs' box where
  whole := h.whole
  length := fun op => hd.trans (h.length op)
  mem := by
    intro op k f hk hf
    obtain ⟨r, hr, hrf⟩ := h.mem op k f (hk.trans_le hd) hf
    obtain ⟨q, hq, hqr⟩ := hsup r hr
    refine ⟨q, hq, ?_⟩
    rw [hqr, List.getElem?_take_of_lt hk]
    exact hrf
  holds := by
    intro op q hq k f g hk hf hg
    obtain ⟨r, hr, hqr⟩ := hsub q hq
    rw [hqr, List.getElem?_take_of_lt hk] at hg
    exact h.holds op r hr k f g (hk.trans_le hd) hf hg

variable [DecidableEq F] (M : Maxima A) (facts : List (F × F))

/-- The minimum and the maximum of any two coordinates are exact, at all offsets. -/
def ExactOn (s : State Z) (rs : Set (SimpleRegion F)) : Prop :=
  ∀ op, ∀ r ∈ rs, ∀ r' ∈ rs, ∀ (k : Nat) (f g : F),
    (r.coord op)[k]? = some f → (r'.coord op)[k]? = some g → ∀ x, A.Offsets s x →
      op.Holds (A.eval (M.choose facts op f g) (s.atPoint x)) (A.eval f (s.atPoint x)) ∧
      op.Holds (A.eval (M.choose facts op f g) (s.atPoint x)) (A.eval g (s.atPoint x))

theorem Maxima.choose_cases (op : Op) (f g : F) :
    M.choose facts op f g = f ∨ M.choose facts op f g = g :=
  ite_eq_or_eq _ f g

theorem coord_regionUnion {r that u : SimpleRegion F}
    (h : r.regionUnion M that facts = some u) (op : Op) :
    u.coord op = List.zipWith (M.choose facts op) (r.coord op) (that.coord op) ∧
      u.removedMinCoord = [] ∧ u.removedMaxCoord = [] := by
  unfold SimpleRegion.regionUnion at h
  split at h
  · cases h
    cases op with
    | le => exact ⟨rfl, rfl, rfl⟩
    | ge => exact ⟨rfl, rfl, rfl⟩
  · cases h

theorem Op.Holds.trans {op : Op} {p q r : ℤ} (h : op.Holds p q) (h' : op.Holds q r) :
    op.Holds p r :=
  Op.holds_iff.mpr ((Op.holds_iff.mp h).trans (Op.holds_iff.mp h'))

/-- The union of two boxes covers what each covers. -/
theorem Covers.union {s : State Z} {n : Nat} {rs rs' all : Set (SimpleRegion F)}
    {box box' u : SimpleRegion F} (h : Covers A s n rs box) (h' : Covers A s n rs' box')
    (hall : ExactOn M facts s all) (hrs : rs ⊆ all) (hrs' : rs' ⊆ all)
    (hu : box.regionUnion M box' facts = some u) : Covers A s n (rs ∪ rs') u := by
  have hcoord := coord_regionUnion M facts hu
  have hget : ∀ op (k : Nat) (e : F), (u.coord op)[k]? = some e → ∃ f g,
      (box.coord op)[k]? = some f ∧ (box'.coord op)[k]? = some g ∧
      M.choose facts op f g = e := by
    intro op k e he
    rw [(hcoord op).1, List.getElem?_zipWith_eq_some] at he
    exact he
  refine ⟨(hcoord .le).2, ?_, ?_, ?_⟩
  · intro op
    rw [(hcoord op).1, List.length_zipWith]
    exact le_min (h.length op) (h'.length op)
  · intro op k e hk he
    obtain ⟨f, g, hf, hg, rfl⟩ := hget op k e he
    rcases M.choose_cases facts op f g with hc | hc
    · obtain ⟨r, hr, hrf⟩ := h.mem op k f hk hf
      exact ⟨r, Or.inl hr, by rw [hc]; exact hrf⟩
    · obtain ⟨r, hr, hrg⟩ := h'.mem op k g hk hg
      exact ⟨r, Or.inr hr, by rw [hc]; exact hrg⟩
  · intro op r hr k e b hk he hb x hx
    obtain ⟨f, g, hf, hg, rfl⟩ := hget op k e he
    obtain ⟨q, hq, hqf⟩ := h.mem op k f hk hf
    obtain ⟨q', hq', hqg⟩ := h'.mem op k g hk hg
    obtain ⟨hleft, hright⟩ := hall op q (hrs hq) q' (hrs' hq') k f g hqf hqg x hx
    rcases hr with hr | hr
    · exact hleft.trans (h.holds op r hr k f b hk hf hb x hx)
    · exact hright.trans (h'.holds op r hr k g b hk hg hb x hx)

/-! ## The loops that build them -/

variable (A) in
/-- The box of a matrix covers some regions, and there is none if there are no regions. -/
def Covered (s : State Z) (n : Nat) (m : Matrix) (rs : Set (SimpleRegion F))
    (boxes : MatrixToRegionMap F) : Prop :=
  (boxes.find m = none → rs = ∅) ∧ ∀ box, boxes.find m = some box → Covers A s n rs box

omit [DecidableEq F] in
theorem Covered.empty (s : State Z) (n : Nat) (m : Matrix) :
    Covered A s n m ∅ (∅ : MatrixToRegionMap F) :=
  ⟨fun _ => rfl, fun box hbox => by rw [OrderedMap.find_empty] at hbox; cases hbox⟩

theorem find_addRegion {boxes boxes' : MatrixToRegionMap F} {k : Matrix} {r : SimpleRegion F}
    (h : addRegion M facts boxes k r = some boxes') :
    ∃ box, (∀ b, boxes.find k = some b → b.regionUnion M r facts = some box) ∧
      (boxes.find k = none → box = r) ∧
      ∀ m, boxes'.find m = if m = k then some box else boxes.find m := by
  unfold addRegion at h
  cases hb : boxes.find k with
  | none =>
      rw [hb] at h
      cases h
      refine ⟨r, ?_, fun _ => rfl, fun m => OrderedMap.find_insert boxes k m r⟩
      intro b hb'
      cases hb'
  | some b =>
      rw [hb] at h
      obtain ⟨u, hu, rfl⟩ := Option.map_eq_some_iff.mp h
      refine ⟨u, ?_, ?_, fun m => OrderedMap.find_insert boxes k m u⟩
      · intro b' hb'
        rw [← Option.some.inj hb']
        exact hu
      · intro hb'
        cases hb'

variable {M facts} {s : State Z} {n : Nat} {m : Matrix} {all : Set (SimpleRegion F)}

theorem Covered.addRegion (hall : ExactOn M facts s all) {rs rs' : Set (SimpleRegion F)}
    {boxes boxes' : MatrixToRegionMap F} {k : Matrix} {r : SimpleRegion F}
    (h : Covered A s n m rs boxes) (hrs : rs ⊆ all)
    (hr : k = m → Covers A s n rs' r ∧ rs' ⊆ all) (hother : k ≠ m → rs' = ∅)
    (hadd : addRegion M facts boxes k r = some boxes') :
    Covered A s n m (rs ∪ rs') boxes' := by
  obtain ⟨box, hsome, hnone, hfind⟩ := find_addRegion M facts hadd
  have hm := hfind m
  by_cases hk : m = k
  · obtain ⟨hcov, hrs'⟩ := hr hk.symm
    rw [if_pos hk] at hm
    refine ⟨?_, ?_⟩
    · intro hn
      rw [hm] at hn
      cases hn
    · intro b hb
      rw [hm] at hb
      cases hb
      cases hold : boxes.find m with
      | none =>
          rw [h.1 hold, Set.empty_union, hnone (hk ▸ hold)]
          exact hcov
      | some old =>
          exact (h.2 old hold).union M facts hcov hall hrs hrs' (hsome old (hk ▸ hold))
  · rw [if_neg hk] at hm
    rw [hother (Ne.symm hk), Set.union_empty]
    exact ⟨fun hn => h.1 (hm ▸ hn), fun b hb => h.2 b (hm ▸ hb)⟩

/-- **THE LOOP**: what each item covers of the matrix, `part` of it, is covered in the end. -/
theorem Covered.foldlM {ι : Type} (hall : ExactOn M facts s all) (key : ι → Matrix)
    (region : ι → SimpleRegion F) (part : ι → Set (SimpleRegion F)) {items : List ι}
    (hitems : ∀ i ∈ items, (key i = m → Covers A s n (part i) (region i) ∧ part i ⊆ all) ∧
      (key i ≠ m → part i = ∅))
    {rs : Set (SimpleRegion F)} {boxes boxes' : MatrixToRegionMap F}
    (h : Covered A s n m rs boxes) (hrs : rs ⊆ all)
    (hfold : items.foldlM (fun boxes i =>
      PbIterationBounds.addRegion M facts boxes (key i) (region i)) boxes = some boxes') :
    Covered A s n m (rs ∪ {r | ∃ i ∈ items, r ∈ part i}) boxes' := by
  induction items generalizing rs boxes with
  | nil =>
      cases hfold
      have hempty : {r | ∃ i ∈ ([] : List ι), r ∈ part i} = ∅ := by
        refine Set.eq_empty_of_forall_notMem ?_
        rintro r ⟨i, hi, -⟩
        exact List.not_mem_nil hi
      rw [hempty, Set.union_empty]
      exact h
  | cons i items ih =>
      rw [List.foldlM_cons] at hfold
      obtain ⟨next, hnext, hfold⟩ := Option.bind_eq_some_iff.mp hfold
      obtain ⟨hkey, hother⟩ := hitems i List.mem_cons_self
      have hsub : part i ⊆ all := by
        by_cases hk : key i = m
        · exact (hkey hk).2
        · rw [hother hk]
          exact Set.empty_subset all
      have hstep := h.addRegion hall hrs hkey hother hnext
      have hrest := ih (fun j hj => hitems j (List.mem_cons_of_mem i hj)) hstep
        (Set.union_subset hrs hsub) hfold
      have hset : {r | ∃ j ∈ i :: items, r ∈ part j} = part i ∪ {r | ∃ j ∈ items, r ∈ part j} := by
        ext r
        exact List.exists_mem_cons_iff ..
      rw [hset, ← Set.union_assoc]
      exact hrest

/-- The regions of a matrix. -/
def regionsOf (m : Matrix) (rs : List (Region F)) : Set (SimpleRegion F) :=
  {q | ∃ r ∈ rs, r.matrix = m ∧ r.toSimpleRegion = q}

/-- A bounding box covers the regions of its list. -/
theorem Covered.regions (hall : ExactOn M facts s all) {rs : List (Region F)}
    (hfull : ∀ r ∈ rs, r.matrix = m → r.Full n ∧ r.Whole) (hsub : regionsOf m rs ⊆ all)
    {boxes : MatrixToRegionMap F}
    (hfold : rs.foldlM (fun boxes r =>
      PbIterationBounds.addRegion M facts boxes r.matrix r.toSimpleRegion) ∅ = some boxes) :
    Covered A s n m (regionsOf m rs) boxes := by
  have h := (Covered.empty (A := A) s n m).foldlM hall Region.matrix Region.toSimpleRegion
    (fun r => {q | r.matrix = m ∧ r.toSimpleRegion = q}) ?_
    (Set.empty_subset all) hfold
  · rw [Set.empty_union] at h
    exact h
  · intro r hr
    refine ⟨?_, ?_⟩
    · intro hm
      have hone : {q | r.matrix = m ∧ r.toSimpleRegion = q} = {r.toSimpleRegion} := by
        ext q
        exact ⟨fun hq => hq.2.symm, fun hq => ⟨hm, hq.symm⟩⟩
      rw [hone]
      obtain ⟨hlength, hwhole⟩ := hfull r hr hm
      exact ⟨Covers.singleton hlength hwhole,
        Set.singleton_subset_iff.mpr (hsub ⟨r, hr, hm, rfl⟩)⟩
    · intro hm
      exact Set.eq_empty_of_forall_notMem fun q hq => hm hq.1

/-- No input is optional, and the box covers what it would without the test. -/
theorem buildFromBoundingBoxNoOptional_eq {rs : List (Region F)} {boxes : MatrixToRegionMap F}
    (h : buildFromBoundingBoxNoOptional M facts rs = some boxes) :
    rs.foldlM (fun boxes r =>
      PbIterationBounds.addRegion M facts boxes r.matrix r.toSimpleRegion) ∅ = some boxes := by
  unfold buildFromBoundingBoxNoOptional at h
  generalize (∅ : MatrixToRegionMap F) = start at h ⊢
  induction rs generalizing start with
  | nil => exact h
  | cons r rs ih =>
      rw [List.foldlM_cons] at h ⊢
      cases hopt : r.isOptional with
      | true =>
          rw [hopt] at h
          cases h
      | false =>
          simp only [hopt, Bool.false_eq_true, if_false] at h
          obtain ⟨next, hnext, h⟩ := Option.bind_eq_some_iff.mp h
          exact Option.bind_eq_some_iff.mpr ⟨next, hnext, ih next h⟩

/-- **THE BOX**: the scratch bounding box of a matrix covers all regions of it. -/
theorem scratchBoundingBox_covered {toRegions fromRegions : List (Region F)}
    (hfull : ∀ r ∈ toRegions ++ fromRegions, r.matrix = m → r.Full n ∧ r.Whole)
    (hall : ExactOn M facts s (regionsOf m (toRegions ++ fromRegions)))
    {boxes : MatrixToRegionMap F}
    (h : scratchBoundingBox M facts toRegions fromRegions = some boxes) :
    Covered A s n m (regionsOf m (toRegions ++ fromRegions)) boxes := by
  obtain ⟨toBox, hto, h⟩ := Option.bind_eq_some_iff.mp h
  obtain ⟨fromBox, hfrom, h⟩ := Option.bind_eq_some_iff.mp h
  have hunion : regionsOf m (toRegions ++ fromRegions)
      = regionsOf m toRegions ∪ regionsOf m fromRegions := by
    ext q
    constructor
    · rintro ⟨r, hr, hq⟩
      exact (List.mem_append.mp hr).imp (fun hr => ⟨r, hr, hq⟩) fun hr => ⟨r, hr, hq⟩
    · rintro (⟨r, hr, hq⟩ | ⟨r, hr, hq⟩)
      · exact ⟨r, List.mem_append_left _ hr, hq⟩
      · exact ⟨r, List.mem_append_right _ hr, hq⟩
  rw [hunion] at hall ⊢
  have hcovTo := Covered.regions hall (fun r hr => hfull r (List.mem_append_left _ hr))
    Set.subset_union_left hto
  have hcovFrom := Covered.regions hall (fun r hr => hfull r (List.mem_append_right _ hr))
    Set.subset_union_right (buildFromBoundingBoxNoOptional_eq hfrom)
  have hres := hcovTo.foldlM hall Prod.fst Prod.snd
    (fun e : Matrix × SimpleRegion F => {q | e.1 = m ∧ q ∈ regionsOf m fromRegions})
    ?_ Set.subset_union_left h
  · have hentries : {q | ∃ e ∈ fromBox.entries, q ∈
        {q | e.1 = m ∧ q ∈ regionsOf m fromRegions}} = regionsOf m fromRegions := by
      ext q
      refine ⟨fun ⟨_, _, _, hq⟩ => hq, fun hq => ?_⟩
      cases hfind : fromBox.find m with
      | none =>
          rw [hcovFrom.1 hfind] at hq
          exact absurd hq (Set.notMem_empty q)
      | some box => exact ⟨(m, box), OrderedMap.mem_entries.mpr hfind, rfl, hq⟩
    rw [hentries] at hres
    exact hres
  · rintro ⟨k, box⟩ he
    refine ⟨?_, ?_⟩
    · rintro rfl
      have hset : {q | k = k ∧ q ∈ regionsOf k fromRegions} = regionsOf k fromRegions := by
        ext q
        exact ⟨fun hq => hq.2, fun hq => ⟨rfl, hq⟩⟩
      show Covers A s n {q | k = k ∧ q ∈ regionsOf k fromRegions} box ∧ _
      rw [hset]
      exact ⟨hcovFrom.2 box (OrderedMap.mem_entries.mp he), Set.subset_union_right⟩
    · intro hk
      exact Set.eq_empty_of_forall_notMem fun q hq => hk hq.1

end Boxes

end PbIterationBounds
