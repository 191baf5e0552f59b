import PetaBricks.IterationLoopProofs

/-! # The order of the iteration loops — self-dependent rules

    A rule that depends on its own output is run by nested loops whose nesting is that of the
    dimensions.  A dimension runs the way its mask allows, and forward if it allows neither.

    The first dimension in which two cells differ decides which is visited first.  If its mask
    has one direction, that is the right one.  So the order fails exactly where the first such
    dimension has both: the dimensions before it must allow equal coordinates, and the ones
    behind it some pair of coordinates. -/

namespace PbIterationLoop

open PbScheduler PbIterationSplit PbOdometer PbTiling

/-! ## What is asked -/

/-- A cell may depend on another one, in a space of as many dimensions as the order has. -/
def Depends (order : DependencyDirection) (x y : List Int) : Prop :=
  x.length = order.size ∧ y.length = order.size ∧ x ≠ y ∧ MayDependOn order x y

/-- No cell depends on itself through other cells. -/
def Acyclic (order : DependencyDirection) : Prop :=
  ∀ x, ¬ Relation.TransGen (Depends order) x x

/-- The loops end, run the rule once at each of their coordinates (every cell of the space, if
    the steps are one), and nowhere before a coordinate it may depend on. -/
def IterationDefinition.Legal (it : IterationDefinition) : Prop :=
  ∃ n coords, it.loopCells n = some coords ∧ coords.Nodup ∧
    ((∀ s ∈ it.step, s = 1) → ∀ x, x ∈ coords ↔ x ∈ box it.bounds) ∧
    coords.Pairwise fun x y => ¬ MayDependOn it.order x y

/-- The loop takes more than one value. -/
def Dimension.Several (d : Dimension) : Prop := d.b + d.s < d.e

/-- Some two values of the loop are in a direction of the mask. -/
def Dimension.Free (d : Dimension) (m : DirectionT) : Prop :=
  m &&& D_EQ ≠ 0 ∨ d.Several ∧ (m &&& D_LT ≠ 0 ∨ m &&& D_GT ≠ 0)

/-- Dimension `j` of `ds`, the first of which has the number `i`, is needed both ways by cells
    that agree in the dimensions before it. -/
structure Torn (order : DependencyDirection) (i : Nat) (ds : List Dimension) (j : Nat) : Prop where
  less : order.mask (i + j) &&& D_LT ≠ 0
  greater : order.mask (i + j) &&& D_GT ≠ 0
  several : ∃ d, ds[j]? = some d ∧ d.Several
  before : ∀ k < j, order.mask (i + k) &&& D_EQ ≠ 0
  after : ∀ k d, j < k → ds[k]? = some d → d.Free (order.mask (i + k))

theorem Torn.succ_iff {order : DependencyDirection} {i j : Nat} {d : Dimension}
    {ds : List Dimension} : Torn order i (d :: ds) (j + 1) ↔
      order.mask i &&& D_EQ ≠ 0 ∧ Torn order (i + 1) ds j := by
  have hadd : ∀ k, i + (k + 1) = i + 1 + k := fun k => by omega
  constructor
  · rintro ⟨hless, hgreater, hseveral, hbefore, hafter⟩
    refine ⟨hbefore 0 (Nat.succ_pos j), ?_, ?_, hseveral, ?_, ?_⟩
    · rwa [hadd] at hless
    · rwa [hadd] at hgreater
    · intro k hk
      rw [← hadd]
      exact hbefore (k + 1) (Nat.succ_lt_succ hk)
    · intro k d' hk hd'
      rw [← hadd]
      exact hafter (k + 1) d' (Nat.succ_lt_succ hk) hd'
  · rintro ⟨heq, hless, hgreater, hseveral, hbefore, hafter⟩
    refine ⟨?_, ?_, hseveral, ?_, ?_⟩
    · rwa [hadd]
    · rwa [hadd]
    · intro k hk
      cases k with
      | zero => exact heq
      | succ k =>
          rw [hadd]
          exact hbefore k (Nat.lt_of_succ_lt_succ hk)
    · intro k d' hk hd'
      cases k with
      | zero => exact absurd hk (Nat.not_lt_zero _)
      | succ k =>
          rw [hadd]
          exact hafter k d' (Nat.lt_of_succ_lt_succ hk) hd'

/-! ## One dimension -/

theorem mayDependFrom_cons {order : DependencyDirection} {i : Nat} {a b : Int} {x y : List Int} :
    MayDependFrom order i (a :: x) (b :: y) ↔
      order.mask i &&& directionTo a b ≠ 0 ∧ MayDependFrom order (i + 1) x y := by
  constructor
  · intro h
    exact ⟨h.head, h.tail⟩
  · rintro ⟨hhead, htail⟩ d a' b' ha hb
    cases d with
    | zero =>
        cases ha
        cases hb
        exact hhead
    | succ d =>
        have h := htail d a' b' ha hb
        rwa [Nat.add_assoc, Nat.add_comm 1 d] at h

@[simp] theorem directionTo_self (a : Int) : directionTo a a = D_EQ := by
  rw [directionTo, if_neg (lt_irrefl a), if_pos rfl]

theorem directionTo_of_lt {a b : Int} (h : a < b) : directionTo a b = D_GT := by
  rw [directionTo, if_neg (by omega), if_neg (by omega)]

theorem directionTo_of_gt {a b : Int} (h : b < a) : directionTo a b = D_LT := by
  rw [directionTo, if_pos h]

namespace Dimension

variable {d : Dimension}

theorem several_iff (h : d.Proper) : d.Several ↔ 1 ≤ d.turns := by
  obtain ⟨hle, hlt⟩ := turns_spec h
  constructor
  · intro hs
    by_contra hzero
    have hturns : d.turns = 0 := by omega
    rw [hturns] at hlt
    rw [Several] at hs
    omega
  · intro hone
    have hmul := mul_le h (k := 1) (by omega)
    rw [Several]
    omega

theorem mem_loopValues {v : Int} : v ∈ d.loopValues ↔ ∃ k < d.turns + 1,
    v = if d.forward then d.b + d.s * k else d.e - 1 - d.s * k := by
  rw [loopValues]
  cases d.forward <;>
    simp only [progression, List.mem_map, List.mem_range, if_true, if_false, Bool.false_eq_true] <;>
    refine exists_congr fun k => and_congr_right fun _ => ⟨fun h => ?_, fun h => ?_⟩ <;> linarith

/-- A forward loop takes its values in ascending order, a backward one in descending order. -/
theorem loopValues_pairwise (h : d.Proper) : d.loopValues.Pairwise fun a b =>
    if d.forward then a < b else b < a := by
  have hs : 1 ≤ d.s := h.2
  have hmul : ∀ {j k : Nat}, j < k → d.s * j < d.s * k := fun hjk =>
    Int.mul_lt_mul_of_pos_left (by exact_mod_cast hjk) (by omega)
  rw [loopValues]
  cases d.forward with
  | true =>
      refine List.pairwise_map.mpr (List.pairwise_lt_range.imp fun hjk => ?_)
      have := hmul hjk
      simp only [if_true]
      omega
  | false =>
      refine List.pairwise_map.mpr (List.pairwise_lt_range.imp fun hjk => ?_)
      have := hmul hjk
      simp only [Bool.false_eq_true, if_false, Int.neg_mul]
      omega

/-- Two values of the loop in either order. -/
theorem exists_lt (h : d.Proper) (hs : d.Several) :
    ∃ a ∈ d.loopValues, ∃ b ∈ d.loopValues, a < b := by
  have hturns := (several_iff h).mp hs
  have hpos : 1 ≤ d.s := h.2
  have hmem := fun k (hk : k < d.turns + 1) => mem_loopValues.mpr ⟨k, hk, rfl⟩
  cases hf : d.forward with
  | true =>
      refine ⟨_, hmem 0 (by omega), _, hmem 1 (by omega), ?_⟩
      simp only [hf, if_true]
      omega
  | false =>
      refine ⟨_, hmem 1 (by omega), _, hmem 0 (by omega), ?_⟩
      simp only [hf, Bool.false_eq_true, if_false]
      omega

theorem several_of_ne (h : d.Proper) {a b : Int} (ha : a ∈ d.loopValues) (hb : b ∈ d.loopValues)
    (hne : a ≠ b) : d.Several := by
  rw [several_iff h]
  by_contra hzero
  obtain ⟨j, hj, rfl⟩ := mem_loopValues.mp ha
  obtain ⟨k, hk, rfl⟩ := mem_loopValues.mp hb
  have hj0 : j = 0 := by omega
  have hk0 : k = 0 := by omega
  exact hne (by rw [hj0, hk0])

theorem free_iff (h : d.Proper) (m : DirectionT) : d.Free m ↔
    ∃ a ∈ d.loopValues, ∃ b ∈ d.loopValues, m &&& directionTo a b ≠ 0 := by
  constructor
  · rintro (heq | ⟨hs, hless | hgreater⟩)
    · have hmem : _ ∈ d.loopValues := mem_loopValues.mpr ⟨0, by omega, rfl⟩
      exact ⟨_, hmem, _, hmem, by rwa [directionTo_self]⟩
    · obtain ⟨a, ha, b, hb, hab⟩ := exists_lt h hs
      exact ⟨b, hb, a, ha, by rwa [directionTo_of_gt hab]⟩
    · obtain ⟨a, ha, b, hb, hab⟩ := exists_lt h hs
      exact ⟨a, ha, b, hb, by rwa [directionTo_of_lt hab]⟩
  · rintro ⟨a, ha, b, hb, hdir⟩
    rcases lt_trichotomy a b with hlt | heq | hgt
    · rw [directionTo_of_lt hlt] at hdir
      exact .inr ⟨several_of_ne h ha hb hlt.ne, .inr hdir⟩
    · rw [heq, directionTo_self] at hdir
      exact .inl hdir
    · rw [directionTo_of_gt hgt] at hdir
      exact .inr ⟨several_of_ne h ha hb hgt.ne', .inl hdir⟩

end Dimension

/-! ## All dimensions -/

/-- The coordinates of the loops of `ds`, in the order of the visits. -/
def visits (ds : List Dimension) : List (List Int) := tuples (ds.map Dimension.loopValues)

theorem mem_visits_cons {d : Dimension} {ds : List Dimension} {x : List Int} :
    x ∈ visits (d :: ds) ↔ ∃ a ∈ d.loopValues, ∃ y ∈ visits ds, x = a :: y := by
  simp only [visits, List.map_cons, tuples, List.mem_flatMap, List.mem_map, eq_comm]

/-- Some coordinate may depend on some coordinate, itself included. -/
theorem free_all_iff (order : DependencyDirection) {ds : List Dimension}
    (h : ∀ d ∈ ds, d.Proper) (i : Nat) :
    (∃ x ∈ visits ds, ∃ y ∈ visits ds, MayDependFrom order i x y) ↔
      ∀ (j : Nat) (d : Dimension), ds[j]? = some d → d.Free (order.mask (i + j)) := by
  induction ds generalizing i with
  | nil =>
      refine ⟨fun _ j d hd => (nomatch hd), fun _ => ?_⟩
      exact ⟨[], List.mem_singleton_self _, [], List.mem_singleton_self _, fun d a b ha => nomatch ha⟩
  | cons d ds ih =>
      obtain ⟨hd, hds⟩ := List.forall_mem_cons.mp h
      constructor
      · rintro ⟨x, hx, y, hy, hdep⟩ j d' hj
        obtain ⟨a, ha, x', hx', rfl⟩ := mem_visits_cons.mp hx
        obtain ⟨b, hb, y', hy', rfl⟩ := mem_visits_cons.mp hy
        obtain ⟨hhead, htail⟩ := mayDependFrom_cons.mp hdep
        cases j with
        | zero =>
            cases hj
            exact (Dimension.free_iff hd _).mpr ⟨a, ha, b, hb, hhead⟩
        | succ j =>
            have hfree := (ih hds (i + 1)).mp ⟨x', hx', y', hy', htail⟩ j d' hj
            rwa [Nat.add_assoc, Nat.add_comm 1 j] at hfree
      · intro hfree
        obtain ⟨a, ha, b, hb, hhead⟩ := (Dimension.free_iff hd _).mp (hfree 0 d rfl)
        obtain ⟨x, hx, y, hy, htail⟩ := (ih hds (i + 1)).mpr fun j d' hj => by
          have := hfree (j + 1) d' hj
          rwa [Nat.add_assoc, Nat.add_comm 1 j]
        exact ⟨a :: x, mem_visits_cons.mpr ⟨a, ha, x, hx, rfl⟩, b :: y,
          mem_visits_cons.mpr ⟨b, hb, y, hy, rfl⟩, mayDependFrom_cons.mpr ⟨hhead, htail⟩⟩

/-- Where the first dimension differs: a later value is needed only if the mask has both
    directions. -/
theorem head_iff {order : DependencyDirection} {i : Nat} {d : Dimension} {ds : List Dimension}
    (hd : d.Proper) (hds : ∀ d ∈ ds, d.Proper) (hforward : d.forward = iterateForward order i) :
    (d.loopValues.Pairwise fun a b => ∀ x ∈ visits ds, ∀ y ∈ visits ds,
        ¬ MayDependFrom order i (a :: x) (b :: y)) ↔ ¬ Torn order i (d :: ds) 0 := by
  have hrest := free_all_iff order hds (i + 1)
  constructor
  · rintro hpair ⟨hless, hgreater, ⟨d', hd', hseveral⟩, -, hafter⟩
    cases hd'
    obtain ⟨x, hx, y, hy, htail⟩ := hrest.mpr fun j d' hj => by
      have := hafter (j + 1) d' (Nat.succ_pos j) hj
      rwa [Nat.add_assoc, Nat.add_comm 1 j]
    have hlen := d.length_loopValues
    have hturns := (Dimension.several_iff hd).mp hseveral
    have h01 := List.pairwise_iff_getElem.mp hpair 0 1 (by omega) (by omega) Nat.zero_lt_one
    have hlt := List.pairwise_iff_getElem.mp (Dimension.loopValues_pairwise hd) 0 1 (by omega)
      (by omega) Nat.zero_lt_one
    refine h01 x hx y hy (mayDependFrom_cons.mpr ⟨?_, htail⟩)
    cases hf : d.forward with
    | true =>
        rw [hf, if_pos rfl] at hlt
        rwa [directionTo_of_lt hlt]
    | false =>
        rw [hf, if_neg Bool.false_ne_true] at hlt
        rwa [directionTo_of_gt hlt]
  · intro htorn
    refine (Dimension.loopValues_pairwise hd).imp_of_mem fun {a b} ha hb hlt x hx y hy hdep => ?_
    obtain ⟨hhead, htail⟩ := mayDependFrom_cons.mp hdep
    have hafter := hrest.mp ⟨x, hx, y, hy, htail⟩
    rw [hforward, iterateForward, canIterateForward, canIterateBackward] at hlt
    have hboth : order.mask i &&& D_LT ≠ 0 ∧ order.mask i &&& D_GT ≠ 0 ∧ a ≠ b := by
      by_cases hg : order.mask i &&& D_GT = 0 <;> by_cases hl : order.mask i &&& D_LT = 0 <;>
        simp only [hg, hl, decide_true, decide_false, Bool.not_true, Bool.not_false, Bool.or_true,
          Bool.or_false, if_true, Bool.false_eq_true, if_false] at hlt
      -- the direction in which the later value lies is not in the mask
      · rw [directionTo_of_lt hlt] at hhead
        exact absurd hg hhead
      · rw [directionTo_of_lt hlt] at hhead
        exact absurd hg hhead
      · rw [directionTo_of_gt hlt] at hhead
        exact absurd hl hhead
      · exact ⟨hl, hg, hlt.ne⟩
    obtain ⟨hless, hgreater, hne⟩ := hboth
    refine htorn ⟨hless, hgreater, ⟨d, rfl, Dimension.several_of_ne hd ha hb hne⟩,
      fun j hj => absurd hj (Nat.not_lt_zero j), ?_⟩
    intro k d' hk hd'
    cases k with
    | zero => exact absurd hk (Nat.lt_irrefl 0)
    | succ k =>
        have := hafter k d' hd'
        rwa [Nat.add_assoc, Nat.add_comm 1 k] at this

/-- No coordinate may depend on a later one exactly if no dimension is torn. -/
theorem visits_pairwise_iff (order : DependencyDirection) {ds : List Dimension}
    (h : ∀ d ∈ ds, d.Proper) (i : Nat)
    (hforward : ∀ (j : Nat) (d : Dimension), ds[j]? = some d → d.forward = iterateForward order (i + j)) :
    (visits ds).Pairwise (fun x y => ¬ MayDependFrom order i x y) ↔
      ∀ j, ¬ Torn order i ds j := by
  induction ds generalizing i with
  | nil =>
      refine ⟨fun _ j htorn => ?_, fun _ => List.pairwise_singleton _ _⟩
      obtain ⟨d, hd, -⟩ := htorn.several
      cases hd
  | cons d ds ih =>
      obtain ⟨hd, hds⟩ := List.forall_mem_cons.mp h
      have hrest := ih hds (i + 1) fun j d' hj => by
        have := hforward (j + 1) d' hj
        rwa [Nat.add_assoc, Nat.add_comm 1 j]
      have hhead := head_iff (i := i) hd hds (hforward 0 d rfl)
      have hsplit : (∀ j, ¬ Torn order i (d :: ds) j) ↔ ¬ Torn order i (d :: ds) 0 ∧
          (order.mask i &&& D_EQ ≠ 0 → ∀ j, ¬ Torn order (i + 1) ds j) := by
        constructor
        · intro hall
          exact ⟨hall 0, fun heq j htorn => hall (j + 1) (Torn.succ_iff.mpr ⟨heq, htorn⟩)⟩
        · rintro ⟨hzero, hsucc⟩ j htorn
          cases j with
          | zero => exact hzero htorn
          | succ j =>
              obtain ⟨heq, htorn⟩ := Torn.succ_iff.mp htorn
              exact hsucc heq j htorn
      rw [hsplit, ← hhead, ← hrest, visits, List.map_cons, tuples, List.pairwise_flatMap, and_comm]
      refine and_congr ?_ ?_
      · simp only [List.mem_map, forall_exists_index, and_imp, forall_apply_eq_imp_iff₂]
        rfl
      · have hne : d.loopValues ≠ [] := by
          intro hnil
          have hlen := d.length_loopValues
          rw [hnil] at hlen
          cases hlen
        obtain ⟨v, hv⟩ := List.exists_mem_of_ne_nil _ hne
        have hmap : ∀ a, ((tuples (ds.map Dimension.loopValues)).map (a :: ·)).Pairwise
            (fun x y => ¬ MayDependFrom order i x y) ↔ (order.mask i &&& D_EQ ≠ 0 →
              (visits ds).Pairwise fun x y => ¬ MayDependFrom order (i + 1) x y) := by
          intro a
          rw [List.pairwise_map]
          simp only [mayDependFrom_cons, directionTo_self, not_and]
          constructor
          · intro hp heq
            exact hp.imp fun himp => himp heq
          · intro hp
            by_cases heq : order.mask i &&& D_EQ ≠ 0
            · exact (hp heq).imp fun hdep _ => hdep
            · exact List.pairwise_of_forall fun _ _ heq' => absurd heq' heq
        exact ⟨fun hall => (hmap v).mp (hall v hv), fun himp a _ => (hmap a).mpr himp⟩

namespace IterationDefinition

variable {it : IterationDefinition}

theorem dims_getElem? {j : Nat} {d : Dimension} (h : it.dims[j]? = some d) :
    d.forward = iterateForward it.order j := by
  rw [dims, List.getElem?_map, List.getElem?_zipIdx] at h
  obtain ⟨p, hp, rfl⟩ := Option.map_eq_some_iff.mp h
  obtain ⟨q, -, rfl⟩ := Option.map_eq_some_iff.mp hp
  show iterateForward it.order (0 + j) = _
  rw [Nat.zero_add]

/-- With a large enough budget the nest runs through `visits`. -/
theorem loopCells_eq (h : ∀ d ∈ it.dims, d.Proper) :
    ∃ n, ∀ n' ≥ n, it.loopCells n' = some (visits it.dims) := by
  let n := (it.dims.map fun d => d.loopValues.length).sum + 1
  refine ⟨n, fun n' hn' => nest_eq (forall₂_loops fun d hd => ⟨Dimension.takes_genLoop (h d hd), ?_⟩)⟩
  have hle : d.loopValues.length ≤ (it.dims.map fun d => d.loopValues.length).sum :=
    List.single_le_sum (fun _ _ => Nat.zero_le _) _
      (List.mem_map_of_mem (f := fun d : Dimension => d.loopValues.length) hd)
  exact Nat.lt_of_lt_of_le (Nat.lt_succ_of_le hle) hn'

theorem visits_nodup {ds : List Dimension} (h : ∀ d ∈ ds, d.Proper) : (visits ds).Nodup := by
  induction ds with
  | nil => exact List.nodup_singleton _
  | cons d ds ih =>
      obtain ⟨hd, hds⟩ := List.forall_mem_cons.mp h
      refine List.nodup_flatMap.mpr ⟨fun a _ => (ih hds).map fun _ _ heq => List.tail_eq_of_cons_eq heq, ?_⟩
      refine (Dimension.loopValues_pairwise hd).imp fun {a b} hlt => ?_
      have hne : a ≠ b := by
        rintro rfl
        split at hlt <;> exact lt_irrefl _ hlt
      intro x hx hy
      obtain ⟨y, -, rfl⟩ := List.mem_map.mp hx
      obtain ⟨z, -, heq⟩ := List.mem_map.mp hy
      exact hne (List.head_eq_of_cons_eq heq).symm

theorem mem_loopValues_one {d : Dimension} (h : d.Proper) (hs : d.s = 1) {v : Int} :
    v ∈ d.loopValues ↔ v ∈ Set.Ico d.b d.e := by
  obtain ⟨hle, hlt⟩ := Dimension.turns_spec h
  rw [hs] at hle hlt
  rw [Dimension.mem_loopValues, hs, Set.mem_Ico]
  cases d.forward with
  | true =>
      simp only [if_true]
      constructor
      · rintro ⟨k, hk, rfl⟩
        omega
      · rintro ⟨hb, he⟩
        exact ⟨(v - d.b).toNat, by omega, by omega⟩
  | false =>
      simp only [Bool.false_eq_true, if_false]
      constructor
      · rintro ⟨k, hk, rfl⟩
        omega
      · rintro ⟨hb, he⟩
        exact ⟨(d.e - 1 - v).toNat, by omega, by omega⟩

/-- With steps of one the loops visit the space. -/
theorem mem_visits_iff {ds : List Dimension} (h : ∀ d ∈ ds, d.Proper ∧ d.s = 1) {x : List Int} :
    x ∈ visits ds ↔ x ∈ box (ds.map fun d => (d.b, d.e)) := by
  induction ds generalizing x with
  | nil => simp [visits, tuples, box]
  | cons d ds ih =>
      obtain ⟨⟨hd, hs⟩, hds⟩ := List.forall_mem_cons.mp h
      rw [mem_visits_cons, List.map_cons, box, Set.mem_image2]
      simp only [mem_loopValues_one hd hs, ih hds, eq_comm]

theorem dims_bounds : it.dims.map (fun d => (d.b, d.e)) = it.bounds := by
  rw [dims, List.map_map]
  have hfst : (it.bounds.zip it.step).map Prod.fst = it.bounds :=
    List.map_fst_zip (le_of_eq it.step_length.symm)
  have hzip : ((it.bounds.zip it.step).zipIdx.map Prod.fst).map Prod.fst = it.bounds := by
    rw [List.zipIdx_map_fst, hfst]
  refine Eq.trans ?_ hzip
  rw [List.map_map]
  rfl

theorem mem_dims {d : Dimension} (h : d ∈ it.dims) : d.s ∈ it.step := by
  obtain ⟨⟨p, i⟩, hp, rfl⟩ := List.mem_map.mp h
  have hmem : p ∈ it.bounds.zip it.step := by
    rw [← List.zipIdx_map_fst (l := it.bounds.zip it.step) (i := 0)]
    exact List.mem_map_of_mem (f := Prod.fst) hp
  exact (List.of_mem_zip hmem).2

/-- **THE LOOPS RUN IN A LEGAL ORDER** exactly if no dimension is torn. -/
theorem legal_iff (it : IterationDefinition) (h : ∀ d ∈ it.dims, d.Proper) :
    it.Legal ↔ ∀ j, ¬ Torn it.order 0 it.dims j := by
  have hpair := visits_pairwise_iff it.order h 0 fun j d hj => by
    rw [Nat.zero_add]
    exact dims_getElem? hj
  rw [← hpair]
  obtain ⟨n, hn⟩ := loopCells_eq h
  constructor
  · rintro ⟨n', coords, hrun, -, -, hlegal⟩
    -- what a smaller budget was enough for is what a larger one gives
    have hmax := nest_mono (Nat.le_max_right n n') hrun
    have heq := (hn _ (Nat.le_max_left n n')).symm.trans hmax
    cases heq
    exact hlegal
  · intro hlegal
    refine ⟨n, visits it.dims, hn n le_rfl, visits_nodup h, fun hstep x => ?_, hlegal⟩
    rw [← dims_bounds]
    exact mem_visits_iff fun d hd => ⟨h d hd, hstep d.s (mem_dims hd)⟩

/-- A rule that reads the row below it to the left and to the right, on two columns and rows. -/
def diagonals : IterationDefinition :=
  ⟨⟨⟨[D_LT ||| D_GT, D_LT]⟩, [(0, 2), (1, 3)], rfl⟩, [1, 1], rfl⟩

/-- The same dependencies with the dimensions exchanged. -/
def diagonalsTurned : IterationDefinition :=
  ⟨⟨⟨[D_LT, D_LT ||| D_GT]⟩, [(1, 3), (0, 2)], rfl⟩, [1, 1], rfl⟩

theorem legal_iff_diagonalsTurned : diagonalsTurned.Legal := by
  have hdims : ∀ d ∈ diagonalsTurned.dims, d.Proper := by
    unfold Dimension.Proper
    decide
  refine (diagonalsTurned.legal_iff hdims).mpr fun j htorn => ?_
  match j with
  | 0 => exact htorn.greater (by decide)
  | 1 => exact htorn.before 0 Nat.zero_lt_one (by decide)
  | j + 2 =>
      obtain ⟨d, hd, -⟩ := htorn.several
      cases hd

/-- Every dependency goes down a row. -/
theorem depends_diagonals {x y : List Int} (h : Depends diagonals.order x y) :
    ∃ a b c d, x = [a, b] ∧ y = [c, d] ∧ d < b := by
  obtain ⟨hx, hy, -, hdep⟩ := h
  obtain ⟨a, b, rfl⟩ := List.length_eq_two.mp hx
  obtain ⟨c, d, rfl⟩ := List.length_eq_two.mp hy
  refine ⟨a, b, c, d, rfl, rfl, ?_⟩
  have hdir := (mayDependFrom_cons.mp hdep).2.head
  rcases lt_trichotomy b d with hlt | heq | hgt
  · rw [directionTo_of_lt hlt] at hdir
    exact absurd (by decide) hdir
  · rw [heq, directionTo_self] at hdir
    exact absurd (by decide) hdir
  · exact hgt

theorem acyclic_diagonals : Acyclic diagonals.order := by
  intro x hcycle
  have hdown : ∀ y, Relation.TransGen (Depends diagonals.order) x y →
      ∃ a b c d, x = [a, b] ∧ y = [c, d] ∧ d < b := by
    intro y h
    induction h with
    | single h => exact depends_diagonals h
    | tail _ h ih =>
        obtain ⟨a, b, c, d, rfl, rfl, hlt⟩ := ih
        obtain ⟨c', d', e, f, hy, rfl, hlt'⟩ := depends_diagonals h
        cases hy
        exact ⟨a, b, e, f, rfl, rfl, hlt'.trans hlt⟩
  obtain ⟨a, b, c, d, hx, hx', hlt⟩ := hdown x hcycle
  rw [hx] at hx'
  cases hx'
  exact lt_irrefl _ hlt

/-- Column by column, cell `(0, 2)` is run before `(1, 1)`, which it reads; row by row it would
    not be. -/
theorem diagonals_not_legal :
    ¬ ∀ it : IterationDefinition, (∀ d ∈ it.dims, d.Proper) → Acyclic it.order → it.Legal := by
  intro hall
  have hdims : ∀ d ∈ diagonals.dims, d.Proper := by
    unfold Dimension.Proper
    decide
  obtain ⟨n, coords, hrun, -, -, hlegal⟩ := hall diagonals hdims acyclic_diagonals
  have hrun' : diagonals.loopCells 5 = some [[0, 1], [0, 2], [1, 1], [1, 2]] := by decide
  have heq : coords = [[0, 1], [0, 2], [1, 1], [1, 2]] := by
    have hl := nest_mono (Nat.le_max_left n 5) hrun
    have hr := nest_mono (Nat.le_max_right n 5) hrun'
    exact Option.some.inj (hl.symm.trans hr)
  subst heq
  have hpair : ¬ MayDependOn diagonals.order [0, 2] [1, 1] :=
    List.pairwise_iff_getElem.mp hlegal 1 2 (by decide) (by decide) (by decide)
  refine hpair (mayDependFrom_cons.mpr ⟨by decide, mayDependFrom_cons.mpr ⟨by decide, ?_⟩⟩)
  intro d a b ha
  cases ha

end IterationDefinition

end PbIterationLoop
