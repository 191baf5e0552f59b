import PetaBricks.SchedulerModel
import PetaBricks.TilingProofs
import Mathlib.Data.List.Sort
import Mathlib.Data.List.Lex
import Mathlib.Logic.Relation

/-!
# Iteration splitting — the blocks of a rule and the order between them

`IterationDefinition::genSplitCode` cuts an iteration space into `blockNumber` parts in each
dimension, sorts the blocks by the order of the rule, and makes a block depend on the earlier
blocks that `canDependOn` allows.

  * the parts of one dimension lie end to end, so the blocks partition the space
    (`PbTiling`);
  * where two blocks differ in a dimension, the cells of the one with the smaller part number
    lie below those of the other, so a cell that may depend on a cell of another block shows
    that the order has the direction `canDependOn` asks for, in every such dimension;
  * the comparator orders the first such dimension by that same direction, so the other block
    comes earlier.
-/

namespace PbIterationSplit

open PbScheduler PbTiling

/-- `RuleFlavor`. -/
inductive RuleFlavor
  | SEQUENTIAL
  | WORKSTEALING
  | DISTRIBUTED
  | OPENCL
  | SEQUENTIAL_OPENCL
  | WORKSTEALING_OPENCL
  | DISTRIBUTED_OPENCL
  | DISTRIBUTED_SCRATCH
  | WORKSTEALING_PARTIAL
  | INVALID
  deriving DecidableEq, Repr

/-- The bounds of a block in one dimension, and the number of the part it is. -/
structure SplitPart where
  minCoord : Int
  maxCoord : Int
  partNumber : Nat
  deriving DecidableEq, Repr

/-- `SplitRegion`, one part for each dimension. -/
structure SplitRegion where
  parts : List SplitPart
  deriving DecidableEq, Repr

def SplitRegion.push_back (r : SplitRegion) (b e : Int) (f : Nat) : SplitRegion :=
  ⟨r.parts ++ [⟨b, e, f⟩]⟩

/-- `canIterateForward`: no dependency on a later coordinate. -/
def canIterateForward (order : DependencyDirection) (d : Nat) : Bool :=
  order.mask d &&& D_GT = 0

/-- `canIterateBackward`: no dependency on an earlier coordinate. -/
def canIterateBackward (order : DependencyDirection) (d : Nat) : Bool :=
  order.mask d &&& D_LT = 0

/-- The loop of the comparator, from dimension `i`. -/
def cmpFrom (order : DependencyDirection) (i : Nat) : List SplitPart → List SplitPart → Bool
  | a :: as, b :: bs =>
      if a.partNumber ≠ b.partNumber then
        if canIterateForward order i || !canIterateBackward order i then
          decide (a.partNumber < b.partNumber)
        else
          decide (b.partNumber < a.partNumber)
      else
        cmpFrom order (i + 1) as bs
  | _, _ => false

/-- `SplitRegionCmp(order)(a, b)`: block `a` goes before block `b`. -/
def SplitRegionCmp (order : DependencyDirection) (a b : SplitRegion) : Bool :=
  cmpFrom order 0 a.parts b.parts

/-- The order of a rule and the bounds of its iteration space, `(_begin[d], _end[d])`. -/
structure IterationDefinition where
  order : DependencyDirection
  bounds : List (Int × Int)
  size_eq : order.size = bounds.length

/-- What `genSplitCode` emits: the blocks in the order of their calls, and the pairs `(a, b)`
    of `_split_task[a]->dependsOn(_split_task[b])`. -/
structure SplitCode where
  calls : List SplitRegion
  dependsOn : List (Nat × Nat)

/-- The blocks that extend `r` by a part for each remaining dimension.  The division is the
    truncating one of the generated code. -/
def fillSplitRegionList (blockNumber : Nat) : List (Int × Int) → SplitRegion → List SplitRegion
  | [], r => [r]
  | (globalBegin, globalEnd) :: rest, r =>
      let nthPart := (globalEnd - globalBegin).tdiv blockNumber
      fillSplitRegionList blockNumber rest
          (r.push_back globalBegin (globalBegin + nthPart) 0) ++
        (List.range' 1 (blockNumber - 1)).flatMap (fun i : Nat =>
          let b := globalBegin + nthPart * i
          let e := if i + 1 = blockNumber then globalEnd else globalBegin + nthPart * (i + 1)
          fillSplitRegionList blockNumber rest (r.push_back b e i))

/-- The loop of `canDependOn`, from dimension `d`. -/
def canDependFrom (order : DependencyDirection) (d : Nat) :
    List SplitPart → List SplitPart → Bool
  | a :: as, b :: bs =>
      if a.partNumber = b.partNumber then canDependFrom order (d + 1) as bs
      else
        let mask := if a.partNumber < b.partNumber then D_GT else D_LT
        if order.mask d &&& mask = 0 then false else canDependFrom order (d + 1) as bs
  | _, _ => true

namespace IterationDefinition

variable (it : IterationDefinition)

def canDependOn (a b : SplitRegion) : Bool :=
  canDependFrom it.order 0 a.parts b.parts

/-- The blocks in the order of their calls. -/
def regions (blockNumber : Nat) : List SplitRegion :=
  (fillSplitRegionList blockNumber it.bounds ⟨[]⟩).insertionSort
    (fun a b => SplitRegionCmp it.order b a = false)

def genSplitCode (rf : RuleFlavor) (blockNumber : Nat) : SplitCode where
  calls := it.regions blockNumber
  dependsOn :=
    if rf = .SEQUENTIAL then []
    else (it.regions blockNumber).zipIdx.flatMap (fun a =>
      (((it.regions blockNumber).zipIdx.take a.2).filter
        (fun b => it.canDependOn a.1 b.1)).map (fun b => (a.2, b.2)))

end IterationDefinition

/-! ## The parts of one dimension -/

/-- The parts a dimension is cut into. -/
def splitParts (globalBegin globalEnd : Int) (blockNumber : Nat) : List SplitPart :=
  let nthPart := (globalEnd - globalBegin).tdiv blockNumber
  ⟨globalBegin, globalBegin + nthPart, 0⟩ ::
    (List.range' 1 (blockNumber - 1)).map (fun i : Nat =>
      ⟨globalBegin + nthPart * i,
        if i + 1 = blockNumber then globalEnd else globalBegin + nthPart * (i + 1), i⟩)

/-- Cutting the first dimension cuts the block once for each of its parts. -/
theorem fillSplitRegionList_cons (n : Nat) (s : Int × Int) (rest : List (Int × Int))
    (r : SplitRegion) :
    fillSplitRegionList n (s :: rest) r =
      (splitParts s.1 s.2 n).flatMap (fun p =>
        fillSplitRegionList n rest (r.push_back p.minCoord p.maxCoord p.partNumber)) := by
  rw [splitParts, List.flatMap_cons, List.flatMap_map]
  rfl

/-- The blocks extend `r`; what they add does not depend on `r`. -/
theorem fillSplitRegionList_eq (n : Nat) (dims : List (Int × Int)) (r : SplitRegion) :
    fillSplitRegionList n dims r =
      (fillSplitRegionList n dims ⟨[]⟩).map (fun t => ⟨r.parts ++ t.parts⟩) := by
  induction dims generalizing r with
  | nil => simp [fillSplitRegionList]
  | cons s rest ih =>
      rw [fillSplitRegionList_cons, fillSplitRegionList_cons, List.map_flatMap]
      congr 1
      funext p
      rw [ih, ih (SplitRegion.push_back ⟨[]⟩ _ _ _), List.map_map]
      apply List.map_congr_left
      intro t _
      simp [SplitRegion.push_back]

/-- The parts from number `i` on lie end to end from the start of part `i`. -/
theorem laterParts_tiles {b e q : Int} {n : Nat} (hq : 0 ≤ q) (hqn : q * n ≤ e - b) :
    ∀ (k i : Nat), i + k = n → 1 ≤ k →
      Tiles SplitPart.minCoord SplitPart.maxCoord (b + q * i)
        ((List.range' i k).map (fun j : Nat =>
          ⟨b + q * j, if j + 1 = n then e else b + q * (j + 1), j⟩)) e := by
  intro k
  induction k with
  | zero => intro i _ hk; omega
  | succ k ih =>
      intro i hik _
      rw [List.range'_succ, List.map_cons]
      by_cases hlast : i + 1 = n
      · -- the last part ends where the dimension does
        have hk : k = 0 := by omega
        have hqi : q * i ≤ q * n := Int.mul_le_mul_of_nonneg_left (by omega) hq
        subst hk
        refine ⟨rfl, ?_, ?_⟩
        · simp only [if_pos hlast]
          omega
        · simp [Tiles, hlast]
      · refine ⟨rfl, ?_, ?_⟩
        · simp only [if_neg hlast]
          rw [Int.mul_add]
          omega
        · simp only [if_neg hlast]
          exact_mod_cast ih (i + 1) (by omega) (by omega)

/-- **THE PARTS LIE END TO END** from the begin of the dimension to its end. -/
theorem splitParts_tiles {b e : Int} {n : Nat} (hn : 1 ≤ n) (hbe : b ≤ e) :
    Tiles SplitPart.minCoord SplitPart.maxCoord b (splitParts b e n) e := by
  have hq : 0 ≤ (e - b).tdiv n := Int.tdiv_nonneg (by omega) (by omega)
  have hqn : (e - b).tdiv n * n ≤ e - b := by
    have h := Int.mul_tdiv_add_tmod (e - b) n
    have h' := Int.tmod_nonneg (n : Int) (show 0 ≤ e - b by omega)
    rw [Int.mul_comm] at h
    omega
  by_cases h1 : n = 1
  · subst h1
    have hq1 : (e - b).tdiv ((1 : Nat) : Int) = e - b := Int.tdiv_one _
    refine ⟨rfl, Int.le_add_of_nonneg_right hq, ?_⟩
    change b + (e - b).tdiv ((1 : Nat) : Int) = e
    omega
  · refine ⟨rfl, Int.le_add_of_nonneg_right hq, ?_⟩
    have ht := laterParts_tiles hq hqn (n - 1) 1 (by omega) (by omega)
    simpa using ht

/-- The parts are numbered in the order they lie in. -/
theorem splitParts_numbered (b e : Int) (n : Nat) :
    (splitParts b e n).Pairwise (fun p p' => p.partNumber < p'.partNumber) := by
  rw [splitParts, List.pairwise_cons, List.pairwise_map]
  constructor
  · intro p hp
    obtain ⟨i, hi, rfl⟩ := List.mem_map.mp hp
    exact (List.mem_range'_1.mp hi).1
  · exact List.pairwise_lt_range'

/-- A part with a smaller number ends before one with a larger number starts. -/
theorem splitParts_before {b e : Int} {n : Nat} (hn : 1 ≤ n) (hbe : b ≤ e) {p p' : SplitPart}
    (hp : p ∈ splitParts b e n) (hp' : p' ∈ splitParts b e n)
    (hlt : p.partNumber < p'.partNumber) : p.maxCoord ≤ p'.minCoord := by
  have hord := (splitParts_tiles hn hbe).ordered.and (splitParts_numbered b e n)
  obtain ⟨i, hi, rfl⟩ := List.mem_iff_getElem.mp hp
  obtain ⟨j, hj, rfl⟩ := List.mem_iff_getElem.mp hp'
  rcases Nat.lt_trichotomy i j with hij | rfl | hji
  · exact (List.pairwise_iff_getElem.mp hord i j hi hj hij).1
  · omega
  · have := (List.pairwise_iff_getElem.mp hord j i hj hi hji).2
    omega

/-! ## The blocks partition the space -/

/-- The cells of a block. -/
def SplitRegion.cells (r : SplitRegion) : Set (List Int) :=
  box (r.parts.map (fun p => (p.minCoord, p.maxCoord)))

/-- Every dimension of an iteration space begins no later than it ends. -/
def Ordered (bounds : List (Int × Int)) : Prop := ∀ s ∈ bounds, s.1 ≤ s.2

theorem fillSplitRegionList_partitions {n : Nat} (hn : 1 ≤ n) {dims : List (Int × Int)}
    (hdims : Ordered dims) :
    Partitions SplitRegion.cells (fillSplitRegionList n dims ⟨[]⟩) (box dims) := by
  induction dims with
  | nil =>
      constructor
      · exact List.pairwise_singleton _ _
      · intro x
        simp [fillSplitRegionList, SplitRegion.cells]
  | cons s rest ih =>
      obtain ⟨hs, hrest⟩ := List.forall_mem_cons.mp hdims
      rw [fillSplitRegionList_cons]
      have hglue : ∀ p, fillSplitRegionList n rest
          (SplitRegion.push_back ⟨[]⟩ p.minCoord p.maxCoord p.partNumber) =
            (fillSplitRegionList n rest ⟨[]⟩).map (fun t => ⟨p :: t.parts⟩) := by
        intro p
        rw [fillSplitRegionList_eq]
        rfl
      simp only [hglue]
      exact (splitParts_tiles hn hs).partitions.product (fun _ _ => ih hrest)
        (fun p t => rfl)

/-- A block is made of a part of each dimension. -/
theorem parts_of_mem {n : Nat} {dims : List (Int × Int)} {r : SplitRegion}
    (hr : r ∈ fillSplitRegionList n dims ⟨[]⟩) :
    List.Forall₂ (fun p s => p ∈ splitParts s.1 s.2 n) r.parts dims := by
  induction dims generalizing r with
  | nil =>
      obtain rfl := List.mem_singleton.mp hr
      exact List.Forall₂.nil
  | cons s rest ih =>
      rw [fillSplitRegionList_cons] at hr
      obtain ⟨p, hp, hr⟩ := List.mem_flatMap.mp hr
      rw [fillSplitRegionList_eq] at hr
      obtain ⟨t, ht, rfl⟩ := List.mem_map.mp hr
      exact List.Forall₂.cons hp (ih ht)

/-! ## The comparator -/

/-- The part numbers of a block, negated in the dimensions that are ordered backward. -/
def sortKey (order : DependencyDirection) (i : Nat) : List SplitPart → List Int
  | [] => []
  | p :: ps =>
      (if canIterateForward order i || !canIterateBackward order i then (p.partNumber : Int)
        else -(p.partNumber : Int)) :: sortKey order (i + 1) ps

/-- The comparator compares the keys lexicographically. -/
theorem cmpFrom_iff (order : DependencyDirection) (i : Nat) {as bs : List SplitPart}
    (hlen : as.length = bs.length) :
    cmpFrom order i as bs = true ↔ sortKey order i as < sortKey order i bs := by
  induction as generalizing i bs with
  | nil =>
      obtain rfl := List.length_eq_zero_iff.mp hlen.symm
      simp [cmpFrom, sortKey]
  | cons a as ih =>
      cases bs with
      | nil => cases hlen
      | cons b bs =>
          have ih := ih (i + 1) (Nat.succ.inj hlen)
          rw [sortKey, sortKey, List.cons_lt_cons_iff, cmpFrom]
          by_cases heq : a.partNumber = b.partNumber
          · simp [heq, ih]
          · rw [if_pos heq]
            by_cases hfwd : (canIterateForward order i || !canIterateBackward order i) = true
            · simp [hfwd]
              omega
            · simp [hfwd]
              omega

/-- The blocks come out sorted: no later block goes before an earlier one. -/
theorem regions_sorted (it : IterationDefinition) (n : Nat) :
    (it.regions n).Pairwise (fun a b => SplitRegionCmp it.order b a = false) := by
  have hlen : ∀ r ∈ fillSplitRegionList n it.bounds ⟨[]⟩, r.parts.length = it.bounds.length :=
    fun r hr => (parts_of_mem hr).length_eq
  have hle : ∀ a ∈ fillSplitRegionList n it.bounds ⟨[]⟩,
      ∀ b ∈ fillSplitRegionList n it.bounds ⟨[]⟩,
      (SplitRegionCmp it.order b a = false ↔
        sortKey it.order 0 a.parts ≤ sortKey it.order 0 b.parts) := by
    intro a ha b hb
    rw [← not_lt, ← cmpFrom_iff it.order 0 ((hlen b hb).trans (hlen a ha).symm)]
    exact Bool.eq_false_iff
  have hsorted : ((it.regions n).map (fun r => sortKey it.order 0 r.parts)).Pairwise (· ≤ ·) := by
    rw [IterationDefinition.regions, List.map_insertionSort _ (· ≤ ·) _ _ hle]
    exact List.pairwise_insertionSort _ _
  refine (List.pairwise_map.mp hsorted).imp_of_mem ?_
  intro a b ha hb hab
  rw [IterationDefinition.regions, List.mem_insertionSort] at ha hb
  exact (hle a ha b hb).mpr hab

/-! ## The dependencies between the cells -/

/-- The direction in which `y` lies from `x`. -/
def directionTo (x y : Int) : DirectionT :=
  if y < x then D_LT else if y = x then D_EQ else D_GT

/-- The order, from dimension `i` on, lets cell `x` depend on cell `y`. -/
def MayDependFrom (order : DependencyDirection) (i : Nat) (x y : List Int) : Prop :=
  ∀ (d : Nat) (a b : Int), x[d]? = some a → y[d]? = some b →
    order.mask (i + d) &&& directionTo a b ≠ 0

/-- In every dimension the order has the direction in which `y` lies from `x`. -/
def MayDependOn (order : DependencyDirection) (x y : List Int) : Prop :=
  MayDependFrom order 0 x y

/-- No dimension is required to run both upward and downward. -/
def Orientable (order : DependencyDirection) : Prop :=
  ∀ d, canIterateForward order d = true ∨ canIterateBackward order d = true

theorem MayDependFrom.head {order : DependencyDirection} {i : Nat} {x y : Int}
    {xs ys : List Int} (h : MayDependFrom order i (x :: xs) (y :: ys)) :
    order.mask i &&& directionTo x y ≠ 0 :=
  h 0 x y rfl rfl

theorem MayDependFrom.tail {order : DependencyDirection} {i : Nat} {x y : Int}
    {xs ys : List Int} (h : MayDependFrom order i (x :: xs) (y :: ys)) :
    MayDependFrom order (i + 1) xs ys := by
  intro d a b ha hb
  rw [Nat.add_assoc, Nat.add_comm 1 d]
  exact h (d + 1) a b ha hb

section Dimension

variable {s : Int × Int} {n : Nat} {p p' : SplitPart} {x y : Int}

/-- A cell of a later part lies above a cell of an earlier one. -/
theorem lt_of_partNumber_lt (hn : 1 ≤ n) (hs : s.1 ≤ s.2)
    (hp : p ∈ splitParts s.1 s.2 n) (hp' : p' ∈ splitParts s.1 s.2 n)
    (hx : p.minCoord ≤ x ∧ x < p.maxCoord) (hy : p'.minCoord ≤ y ∧ y < p'.maxCoord)
    (hlt : p.partNumber < p'.partNumber) : x < y := by
  have := splitParts_before hn hs hp hp' hlt
  omega

/-- A dependency between two parts goes in the direction their numbers say. -/
theorem mask_of_partNumber_ne {m : DirectionT} (hn : 1 ≤ n) (hs : s.1 ≤ s.2)
    (hp : p ∈ splitParts s.1 s.2 n) (hp' : p' ∈ splitParts s.1 s.2 n)
    (hx : p.minCoord ≤ x ∧ x < p.maxCoord) (hy : p'.minCoord ≤ y ∧ y < p'.maxCoord)
    (hm : m &&& directionTo x y ≠ 0) (hne : p.partNumber ≠ p'.partNumber) :
    m &&& (if p.partNumber < p'.partNumber then D_GT else D_LT) ≠ 0 := by
  rcases Nat.lt_or_gt_of_ne hne with hlt | hgt
  · have hxy := lt_of_partNumber_lt hn hs hp hp' hx hy hlt
    rw [directionTo, if_neg (by omega), if_neg (by omega)] at hm
    rw [if_pos hlt]
    exact hm
  · have hxy := lt_of_partNumber_lt hn hs hp' hp hy hx hgt
    rw [directionTo, if_pos hxy] at hm
    rw [if_neg (by omega)]
    exact hm

end Dimension

/-- A cell that may depend on a cell of another block satisfies `canDependOn`. -/
theorem canDependFrom_of_cells {order : DependencyDirection} {n : Nat} (hn : 1 ≤ n)
    {dims : List (Int × Int)} (hdims : Ordered dims) {as bs : List SplitPart}
    (has : List.Forall₂ (fun p s => p ∈ splitParts s.1 s.2 n) as dims)
    (hbs : List.Forall₂ (fun p s => p ∈ splitParts s.1 s.2 n) bs dims) :
    ∀ {i : Nat} {x y : List Int},
      x ∈ box (as.map (fun p => (p.minCoord, p.maxCoord))) →
      y ∈ box (bs.map (fun p => (p.minCoord, p.maxCoord))) →
      MayDependFrom order i x y → canDependFrom order i as bs = true := by
  induction has generalizing bs with
  | nil =>
      cases hbs
      intro i x y _ _ _
      rfl
  | cons hp _ ih =>
      cases hbs with
      | cons hp' hbs =>
          obtain ⟨hs, hrest⟩ := List.forall_mem_cons.mp hdims
          intro i x y hx hy hdep
          obtain ⟨x, hx0, xs, hxs, rfl⟩ := hx
          obtain ⟨y, hy0, ys, hys, rfl⟩ := hy
          have htail := ih hrest hbs hxs hys hdep.tail
          rw [canDependFrom]
          split
          · exact htail
          · rename_i hne
            have hm := mask_of_partNumber_ne hn hs hp hp' hx0 hy0 hdep.head hne
            simp only [if_neg hm]
            exact htail

/-- The comparator puts the block that is depended on first. -/
theorem cmpFrom_of_cells {order : DependencyDirection} (horder : Orientable order)
    {n : Nat} (hn : 1 ≤ n) {dims : List (Int × Int)} (hdims : Ordered dims)
    {as bs : List SplitPart}
    (has : List.Forall₂ (fun p s => p ∈ splitParts s.1 s.2 n) as dims)
    (hbs : List.Forall₂ (fun p s => p ∈ splitParts s.1 s.2 n) bs dims) :
    ∀ {i : Nat} {x y : List Int},
      x ∈ box (as.map (fun p => (p.minCoord, p.maxCoord))) →
      y ∈ box (bs.map (fun p => (p.minCoord, p.maxCoord))) →
      MayDependFrom order i x y →
      as.map SplitPart.partNumber ≠ bs.map SplitPart.partNumber →
      cmpFrom order i bs as = true := by
  induction has generalizing bs with
  | nil =>
      cases hbs
      intro i x y _ _ _ hne
      exact absurd rfl hne
  | @cons p s _ _ hp _ ih =>
      cases hbs with
      | @cons p' _ _ _ hp' hbs =>
          obtain ⟨hs, hrest⟩ := List.forall_mem_cons.mp hdims
          intro i x y hx hy hdep hne
          obtain ⟨x, hx0, xs, hxs, rfl⟩ := hx
          obtain ⟨y, hy0, ys, hys, rfl⟩ := hy
          rw [cmpFrom]
          by_cases heq : p'.partNumber = p.partNumber
          · rw [if_neg (not_not.mpr heq)]
            refine ih hrest hbs hxs hys hdep.tail ?_
            intro htail
            exact hne (by rw [List.map_cons, List.map_cons, heq, htail])
          · rw [if_pos heq]
            have hm := mask_of_partNumber_ne hn hs hp hp' hx0 hy0 hdep.head (Ne.symm heq)
            rcases Nat.lt_or_gt_of_ne heq with hlt | hgt
            · -- the order has `D_LT` here, so it runs forward
              rw [if_neg (by omega)] at hm
              have hback : canIterateBackward order i = false := decide_eq_false hm
              rw [hback]
              simpa using hlt
            · -- the order has `D_GT` here, so it runs backward
              rw [if_pos hgt] at hm
              have hfwd : canIterateForward order i = false := decide_eq_false hm
              have hback : canIterateBackward order i = true :=
                (horder i).resolve_left (by rw [hfwd]; decide)
              rw [hfwd, hback]
              simpa using hgt

/-- The number of a part determines the part. -/
theorem eq_of_partNumber_eq {b e : Int} {n : Nat} {p p' : SplitPart}
    (hp : p ∈ splitParts b e n) (hp' : p' ∈ splitParts b e n)
    (h : p.partNumber = p'.partNumber) : p = p' := by
  obtain ⟨i, hi, rfl⟩ := List.mem_iff_getElem.mp hp
  obtain ⟨j, hj, rfl⟩ := List.mem_iff_getElem.mp hp'
  have hnum := List.pairwise_iff_getElem.mp (splitParts_numbered b e n)
  rcases Nat.lt_trichotomy i j with hij | rfl | hji
  · exact absurd h (Nat.ne_of_lt (hnum i j hi hj hij))
  · rfl
  · exact absurd h.symm (Nat.ne_of_lt (hnum j i hj hi hji))

/-- The part numbers of a block determine the block. -/
theorem parts_eq_of_partNumbers {n : Nat} {dims : List (Int × Int)} {as bs : List SplitPart}
    (has : List.Forall₂ (fun p s => p ∈ splitParts s.1 s.2 n) as dims)
    (hbs : List.Forall₂ (fun p s => p ∈ splitParts s.1 s.2 n) bs dims)
    (h : as.map SplitPart.partNumber = bs.map SplitPart.partNumber) : as = bs := by
  induction has generalizing bs with
  | nil =>
      cases hbs
      rfl
  | cons hp _ ih =>
      cases hbs with
      | cons hp' hbs =>
          obtain ⟨hhead, htail⟩ := List.cons.inj h
          rw [eq_of_partNumber_eq hp hp' hhead, ih hbs htail]

/-! ## The code -/

namespace IterationDefinition

variable (it : IterationDefinition) {n : Nat}

theorem regions_perm : (it.regions n).Perm (fillSplitRegionList n it.bounds ⟨[]⟩) :=
  List.perm_insertionSort _ _

theorem regions_partitions (hn : 1 ≤ n) (hspace : Ordered it.bounds) :
    Partitions SplitRegion.cells (it.regions n) (box it.bounds) :=
  (fillSplitRegionList_partitions hn hspace).perm it.regions_perm

/-- The dependencies go from a block to an earlier block that `canDependOn` allows. -/
theorem mem_dependsOn {rf : RuleFlavor} {a b : Nat} :
    (a, b) ∈ (it.genSplitCode rf n).dependsOn ↔
      rf ≠ .SEQUENTIAL ∧ b < a ∧ ∃ ra rb, (it.regions n)[a]? = some ra ∧
        (it.regions n)[b]? = some rb ∧ it.canDependOn ra rb = true := by
  rw [genSplitCode]
  by_cases hrf : rf = .SEQUENTIAL
  · simp [hrf]
  · rw [if_neg hrf]
    simp only [List.mem_flatMap, List.mem_map, List.mem_filter]
    constructor
    · rintro ⟨⟨ra, i⟩, ha, ⟨rb, j⟩, ⟨hb, hcan⟩, he⟩
      obtain ⟨rfl, rfl⟩ := Prod.mk.inj he
      rw [List.mk_mem_zipIdx_iff_getElem?] at ha
      obtain ⟨k, hk, hget⟩ := List.mem_take_iff_getElem.mp hb
      rw [List.getElem_zipIdx] at hget
      obtain ⟨rfl, rfl⟩ := Prod.mk.inj hget
      rw [List.length_zipIdx] at hk
      have hklen : k < (it.regions n).length := by omega
      rw [Nat.zero_add] at *
      exact ⟨hrf, by omega, ra, (it.regions n)[k], ha, List.getElem?_eq_getElem _, hcan⟩
    · rintro ⟨-, hlt, ra, rb, ha, hb, hcan⟩
      refine ⟨(ra, a), List.mk_mem_zipIdx_iff_getElem?.mpr ha, (rb, b), ⟨?_, hcan⟩, rfl⟩
      obtain ⟨hblen, rfl⟩ := List.getElem?_eq_some_iff.mp hb
      refine List.mem_take_iff_getElem.mpr ⟨b, ?_, ?_⟩
      · rw [List.length_zipIdx]
        omega
      · rw [List.getElem_zipIdx, Nat.zero_add]

/-- **A DEPENDENCY BETWEEN CELLS IS AN EDGE BETWEEN BLOCKS**, from the later block to the
    earlier one. -/
theorem dependsOn_of_cells (hn : 1 ≤ n) (hspace : Ordered it.bounds)
    (horder : Orientable it.order) {a b : Nat} {ra rb : SplitRegion} {x y : List Int}
    (ha : (it.regions n)[a]? = some ra) (hb : (it.regions n)[b]? = some rb) (hne : a ≠ b)
    (hx : x ∈ ra.cells) (hy : y ∈ rb.cells) (hdep : MayDependOn it.order x y) :
    b < a ∧ it.canDependOn ra rb = true := by
  obtain ⟨hai, rfl⟩ := List.getElem?_eq_some_iff.mp ha
  obtain ⟨hbi, rfl⟩ := List.getElem?_eq_some_iff.mp hb
  have hparts : ∀ (i : Nat) (hi : i < (it.regions n).length),
      List.Forall₂ (fun p s => p ∈ splitParts s.1 s.2 n) (it.regions n)[i].parts it.bounds :=
    fun i hi => parts_of_mem (it.regions_perm.mem_iff.mp (List.getElem_mem hi))
  refine ⟨?_, canDependFrom_of_cells hn hspace (hparts a hai) (hparts b hbi) hx hy hdep⟩
  by_contra hge
  have hab : a < b := by omega
  have hdisj := List.pairwise_iff_getElem.mp (it.regions_partitions hn hspace).disjoint
    a b hai hbi hab
  have hcmp := cmpFrom_of_cells horder hn hspace (hparts a hai) (hparts b hbi) hx hy hdep
  by_cases hnum : (it.regions n)[a].parts.map SplitPart.partNumber =
      (it.regions n)[b].parts.map SplitPart.partNumber
  · -- blocks with the same numbers are one block, which does not lie at two places
    have heq := parts_eq_of_partNumbers (hparts a hai) (hparts b hbi) hnum
    rw [SplitRegion.cells, heq] at hx
    exact Set.disjoint_left.mp hdisj (by rw [SplitRegion.cells, heq]; exact hx) hx
  · have hsorted := List.pairwise_iff_getElem.mp (regions_sorted it n) a b hai hbi hab
    rw [SplitRegionCmp, hcmp hnum] at hsorted
    cases hsorted

/-- **ITERATION SPLITTING COVERS AND ORDERS**: the blocks are pairwise disjoint and their union
    is the iteration space; and for an order that no dimension pulls both ways, the
    dependencies are acyclic and a block with a cell that may depend on a cell of another
    block depends on that block, which is called earlier. -/
theorem genSplitCode_covers_and_orders (rf : RuleFlavor) (hn : 1 ≤ n)
    (hspace : Ordered it.bounds) :
    (it.genSplitCode rf n).calls.Pairwise (fun r s => Disjoint r.cells s.cells) ∧
    (∀ x, (∃ r ∈ (it.genSplitCode rf n).calls, x ∈ r.cells) ↔ x ∈ box it.bounds) ∧
    (Orientable it.order →
      (∀ a, ¬ Relation.TransGen (fun a b => (a, b) ∈ (it.genSplitCode rf n).dependsOn) a a) ∧
      (∀ a b ra rb x y, (it.genSplitCode rf n).calls[a]? = some ra →
        (it.genSplitCode rf n).calls[b]? = some rb → a ≠ b →
        x ∈ ra.cells → y ∈ rb.cells → MayDependOn it.order x y →
          b < a ∧ (rf ≠ .SEQUENTIAL →
            Relation.TransGen (fun a b => (a, b) ∈ (it.genSplitCode rf n).dependsOn) a b))) := by
  obtain ⟨hdisjoint, hcover⟩ := it.regions_partitions hn hspace
  refine ⟨hdisjoint, hcover, ?_⟩
  intro horder
  constructor
  · -- every edge goes down in the order of the calls, so a path does
    have hdown : ∀ a b, Relation.TransGen
        (fun a b => (a, b) ∈ (it.genSplitCode rf n).dependsOn) a b → b < a := by
      intro a b hpath
      induction hpath with
      | single h => exact (it.mem_dependsOn.mp h).2.1
      | tail _ h ih => exact Nat.lt_trans (it.mem_dependsOn.mp h).2.1 ih
    intro a hcycle
    exact Nat.lt_irrefl a (hdown a a hcycle)
  · intro a b ra rb x y ha hb hne hx hy hdep
    obtain ⟨hlt, hcan⟩ := it.dependsOn_of_cells hn hspace horder ha hb hne hx hy hdep
    refine ⟨hlt, ?_⟩
    intro hrf
    exact Relation.TransGen.single (it.mem_dependsOn.mpr ⟨hrf, hlt, ra, rb, ha, hb, hcan⟩)

/-- A space of two dimensions, cut in two, run upward in one and downward in the other. -/
def upDown : IterationDefinition :=
  ⟨⟨[D_LT, D_EQ ||| D_GT]⟩, [(0, 7), (2, 9)], rfl⟩

/-- Cell `(3, 2)` may depend on cell `(1, 6)`, so the last block depends on the first. -/
theorem genSplitCode_covers_and_orders_upDown :
    (upDown.genSplitCode .WORKSTEALING 2).calls.Pairwise
      (fun r s => Disjoint r.cells s.cells) ∧
    (∀ x, (∃ r ∈ (upDown.genSplitCode .WORKSTEALING 2).calls, x ∈ r.cells) ↔
      x ∈ box [(0, 7), (2, 9)]) ∧
    Relation.TransGen
      (fun a b => (a, b) ∈ (upDown.genSplitCode .WORKSTEALING 2).dependsOn) 3 0 := by
  obtain ⟨hdisjoint, hcover, horder⟩ := upDown.genSplitCode_covers_and_orders .WORKSTEALING
    (n := 2) (by decide) (by unfold Ordered; decide)
  have hup : Orientable upDown.order := by
    intro d
    match d with
    | 0 => exact .inl (by decide)
    | 1 => exact .inr (by decide)
    | _ + 2 => exact .inl (by simp [canIterateForward, upDown, DependencyDirection.mask, D_NONE])
  refine ⟨hdisjoint, hcover, ?_⟩
  refine ((horder hup).2 3 0 ⟨[⟨3, 7, 1⟩, ⟨2, 5, 0⟩]⟩ ⟨[⟨0, 3, 0⟩, ⟨5, 9, 1⟩]⟩ [3, 2] [1, 6]
    (by decide) (by decide) (by decide) ?_ ?_ ?_).2 (by decide)
  · simp [SplitRegion.cells, box]
  · simp [SplitRegion.cells, box]
  · intro d a b ha hb
    match d with
    | 0 =>
        cases ha
        cases hb
        decide
    | 1 =>
        cases ha
        cases hb
        decide
    | _ + 2 => cases ha

example : (upDown.genSplitCode .WORKSTEALING 2).dependsOn =
    [(1, 0), (2, 0), (3, 0), (3, 1), (3, 2)] := by
  decide

end IterationDefinition

end PbIterationSplit
