import Mathlib.Data.List.Nodup
import Mathlib.Data.List.Pairwise
import PetaBricks.DimensionRemovalProofs

/-!
# Soundness of the removal — the cells that are read, and the regions that lose a dimension

Storage of the last dimension can be shared if each rule that computes the matrix from itself
reads, of the cell it writes, only the one before in that dimension, and all other rules touch
the matrix only where it ends.  The removals of a run are right when the matrices that lost
their last dimension are of this kind, and each lost it together with all of its regions.
-/

namespace PbUselessDimension

open PbOrderedMap PbMaxima PbDataDependency PbOutcome
open PbScheduler (Node Rule)

/-! ## Cells of regions -/

section Cells

variable {F S : Type} (M : MaximaWrapper F S)

def Region.Contains (q : Region F) (s : S) (cell : Cell) : Prop :=
  (SimpleRegion.mk q.coords).Contains M s cell

/-- The region has at most one cell. -/
def Region.SingleCell (q : Region F) (s : S) : Prop :=
  ∀ a b, q.Contains M s a → q.Contains M s b → ∀ i < q.coords.length, a i = b i

/-- The cell of the lower coordinates. -/
def Region.lowest (q : Region F) (s : S) : Cell :=
  fun i => match q.coords[i]? with
    | some c => M.eval c.1 s
    | none => 0

variable {M} {q : Region F} {s : S}

theorem Region.contains_lowest {cell : Cell} (h : q.Contains M s cell) :
    q.Contains M s (q.lowest M s) := by
  intro d c hc
  obtain ⟨hlo, hhi⟩ := h d c hc
  have heq : q.lowest M s d = M.eval c.1 s := by
    simp only [Region.lowest]
    rw [hc]
  rw [heq]
  exact ⟨Int.le_refl _, Int.lt_of_le_of_lt hlo hhi⟩

theorem Region.SingleCell.eq_lowest (h : q.SingleCell M s) {cell : Cell}
    (hcell : q.Contains M s cell) {i : Nat} (hi : i < q.coords.length) :
    cell i = q.lowest M s i :=
  h cell _ hcell (contains_lowest hcell) i hi

end Cells

namespace Transform

variable {F S : Type} [DecidableEq F] {M : MaximaWrapper F S} {fm : Formulas M}

/-! ## What a sound removal is -/

/-- A rule that reads a matrix and also writes it. -/
def ComputesFromItself (tx : Transform M fm) (r : Rule) (m : Matrix) : Prop :=
  (∃ q ∈ tx.initial.fromRegions r, q.matrix = m) ∧ ∃ q ∈ tx.initial.toRegions r, q.matrix = m

/-- Every read of the matrix, in every rule that also writes it, lies at distance -1 of the cell
    written in the last dimension, and at distance 0 in all others. -/
def ReadsBehind (tx : Transform M fm) (m : Matrix) : Prop :=
  ∀ r, ∀ inp ∈ tx.initial.fromRegions r, inp.matrix = m →
    ∀ out ∈ tx.initial.toRegions r, out.matrix = m →
      ∀ s read written, inp.Contains M s read → out.Contains M s written →
        ∀ i < (tx.initial.size m).length,
          read i - written i = if i + 1 = (tx.initial.size m).length then -1 else 0

/-- The region ends at the size of the last dimension. -/
def ReachesEnd (tx : Transform M fm) (q : Region F) : Prop :=
  ∀ c dimSize, q.coords.getLast? = some c →
    (tx.initial.size q.matrix).getLast? = some dimSize →
      ∀ s, M.eval c.2 s = M.eval dimSize s

/-- Every access of the matrix by any other rule ends at the size of the dimension. -/
def OthersReachEnd (tx : Transform M fm) (m : Matrix) : Prop :=
  ∀ r, ¬ tx.ComputesFromItself r m →
    ∀ q ∈ tx.initial.toRegions r ++ tx.initial.fromRegions r, q.matrix = m → tx.ReachesEnd q

/-- Some matrices have lost their last dimension, together with the regions of all nodes and
    all rules, and nothing else has lost anything. -/
structure LosesOnce (tx : Transform M fm) (removed : Matrix → Bool) (st : StaticScheduler F) :
    Prop where
  size : ∀ m, st.size m =
    if removed m then (tx.initial.size m).dropLast else tx.initial.size m
  region : ∀ n ∈ tx.allNodes, st.region n = (tx.initial.region n).reduce removed
  toRegions : ∀ r, st.toRegions r = (tx.initial.toRegions r).map (Region.reduce removed)
  fromRegions : ∀ r, st.fromRegions r = (tx.initial.fromRegions r).map (Region.reduce removed)

/-- A run through `n` choice assignments is done, and what it removed was right to be. -/
def RemovesOnce (tx : Transform M fm) (n : Nat) : Prop :=
  ∃ st removed, tx.generateSchedule n tx.initial = .ok st ∧ tx.LosesOnce removed st ∧
    ∀ m, removed m = true → tx.isThrough m = true ∧ tx.initial.size m ≠ [] ∧
      tx.ReadsBehind m ∧ tx.OthersReachEnd m

/-! ## When the code does it -/

/-- The regions of a matrix in a rule that computes it from itself are single cells, where there
    are cells at all. -/
def SingleCells (tx : Transform M fm) (m : Matrix) : Prop :=
  ∀ r, ∀ inp ∈ tx.initial.fromRegions r, inp.matrix = m →
    ∀ out ∈ tx.initial.toRegions r, out.matrix = m →
      ∀ s read written, inp.Contains M s read → out.Contains M s written →
        inp.SingleCell M s ∧ out.SingleCell M s

/-- What is needed beyond what the code looks at, to remove the last dimension of a matrix in a
    run through `n` choice assignments. -/
structure SafeToRemove (tx : Transform M fm) (n : Nat) (m : Matrix) : Prop where
  cells : tx.SingleCells m
  unlisted : ∀ r, ¬ tx.ComputesFromItself r m →
    ∀ q ∈ tx.initial.toRegions r ++ tx.initial.fromRegions r, q.matrix = m →
      q ∉ getNonSelfDependentRegions tx.initial r → tx.ReachesEnd q
  chosen : ∀ r, tx.Uses r m → ∃! k, k ∈ tx.allNodes ∧ r ∈ tx.choices k
  guarded : n = 1 ∨ tx.listedRegions tx.initial m ≠ []

variable {tx : Transform M fm} {m : Matrix} {n : Nat}

omit [DecidableEq F] in
theorem atMostOnce_iff : tx.AtMostOnce m tx.allNodes ↔
    ∀ r, tx.Uses r m → ∀ a ∈ tx.allNodes, r ∈ tx.choices a →
      ∀ b ∈ tx.allNodes, r ∈ tx.choices b → a = b := by
  constructor
  · intro h r hr a ha hra b hb hrb
    by_contra hab
    have hsymm : Std.Symm (fun a b => ∀ r, tx.Uses r m → r ∈ tx.choices a → r ∉ tx.choices b) :=
      ⟨fun a b hab r hr hrb hra => hab r hr hra hrb⟩
    exact h.forall ha hb hab r hr hra hrb
  · intro h
    refine tx.nodup.pairwise_of_forall_ne ?_
    intro a ha b hb hab r hr hra hrb
    exact hab (h r hr a ha hra b hb hrb)

/-! ## From a sound run to the condition -/

omit [DecidableEq F] in
/-- A region of a rule that lost its dimension belongs to a rule chosen somewhere. -/
theorem mem_rules_of_loses {R removed : Matrix → Bool} {st : StaticScheduler F}
    (hlose : tx.LosesOnce removed st) (hR : tx.IsRemoved R st) (hne : tx.initial.size m ≠ [])
    (hm : removed m = true) {r : Rule} (huses : tx.Uses r m) : r ∈ tx.rules := by
  by_contra hr
  have hsame : ∀ q : Region F, q.matrix = m → q.coords.length = (tx.initial.size m).length →
      q.reduce removed ≠ q.reduce (fun m => decide (r ∈ tx.rules) && R m) := by
    intro q hq hlen heq
    have hpos := List.length_pos_of_ne_nil hne
    rw [Region.reduce, hq, hm, if_pos rfl, Region.reduce, if_neg (by simp [hr])] at heq
    have hcoords := congrArg (fun q => q.coords.length) heq
    simp only [Region.lose, List.length_dropLast] at hcoords
    omega
  obtain ⟨q, hq, hqm⟩ := huses
  rcases List.mem_append.mp hq with hq | hq
  · have hlists := (hlose.toRegions r).symm.trans (hR.toRegions r)
    refine hsame q hqm ?_ (List.map_inj_left.mp hlists q hq)
    rw [tx.to_dimensions r q hq, hqm]
  · have hlists := (hlose.fromRegions r).symm.trans (hR.fromRegions r)
    refine hsame q hqm ?_ (List.map_inj_left.mp hlists q hq)
    rw [tx.from_dimensions r q hq, hqm]

omit [DecidableEq F] in
theorem singleCells_of_readsBehind (h : tx.ReadsBehind m) : tx.SingleCells m := by
  intro r inp hinp him out hout hom s read written hread hwritten
  constructor
  · intro a b ha hb i hi
    rw [tx.from_dimensions r inp hinp, him] at hi
    have hda := h r inp hinp him out hout hom s a written ha hwritten i hi
    have hdb := h r inp hinp him out hout hom s b written hb hwritten i hi
    omega
  · intro a b ha hb i hi
    rw [tx.to_dimensions r out hout, hom] at hi
    have hda := h r inp hinp him out hout hom s read a hread ha i hi
    have hdb := h r inp hinp him out hout hom s read b hread hb i hi
    omega

omit [DecidableEq F] in
/-- The removed matrices are those whose size has changed. -/
theorem removed_eq {R removed : Matrix → Bool} {st : StaticScheduler F}
    (hlose : tx.LosesOnce removed st) (hR : tx.IsRemoved R st) (hne : tx.initial.size m ≠ []) :
    removed m = R m := by
  have hpos := List.length_pos_of_ne_nil hne
  have hsize := congrArg List.length ((hlose.size m).symm.trans (hR.size m))
  cases hremoved : removed m with
  | true =>
      cases hRm : R m with
      | true => rfl
      | false =>
          simp only [hremoved, hRm, if_true, Bool.false_eq_true, if_false,
            List.length_dropLast] at hsize
          omega
  | false =>
      cases hRm : R m with
      | false => rfl
      | true =>
          simp only [hremoved, hRm, if_true, Bool.false_eq_true, if_false,
            List.length_dropLast] at hsize
          omega

theorem safeToRemove_of_removesOnce [Inhabited S] (hn : 0 < n) (h : tx.RemovesOnce n)
    (hself : tx.SelfDependent m) :
    tx.initial.size m ≠ [] ∧ (tx.HasRemovable m → tx.SafeToRemove n m) := by
  obtain ⟨st, removed, hrun, hlose, hsound⟩ := h
  obtain ⟨⟨R, hsettled⟩, hguarded⟩ := (generateSchedule_ends hn).of_ok hrun
  obtain ⟨hne, honce⟩ := hsettled.inRange m hself
  refine ⟨hne, ?_⟩
  intro hremovable
  have hm : removed m = true := by
    rw [removed_eq hlose hsettled.removed hne]
    exact (hsettled.which m).mpr ⟨hself, hremovable⟩
  obtain ⟨_, _, hreads, hothers⟩ := hsound m hm
  refine ⟨singleCells_of_readsBehind hreads, ?_, ?_, ?_⟩
  · intro r hr q hq hqm _
    exact hothers r hr q hq hqm
  · intro r huses
    obtain ⟨k, hk, hrk⟩ := List.mem_flatMap.mp
      (mem_rules_of_loses hlose hsettled.removed hne hm huses)
    refine ⟨k, ⟨hk, hrk⟩, ?_⟩
    rintro k' ⟨hk', hrk'⟩
    exact atMostOnce_iff.mp (honce hremovable) r huses k' hk' hrk' k hk hrk
  · exact hguarded.imp_right (fun hg => hg m hself hremovable)

/-! ## From the condition to a sound run -/

/-- A rule chosen somewhere, reading and writing single cells, reads one behind. -/
theorem readsBehind_of_safe (hremovable : tx.HasRemovable m) (h : tx.SafeToRemove n m) :
    tx.ReadsBehind m := by
  obtain ⟨d, hm, hbehind, _⟩ := hremovable
  intro r inp hinp him out hout hom s read written hread hwritten i hi
  obtain ⟨k, ⟨hk, hrk⟩, _⟩ := h.chosen r ⟨inp, List.mem_append_right _ hinp, him⟩
  have hvector : (m, computeDDVAsDifference fm inp out) ∈ tx.dataDependencyVectors := by
    refine List.mem_flatMap.mpr ⟨r, List.mem_flatMap.mpr ⟨k, hk, hrk⟩, ?_⟩
    refine List.mem_flatMap.mpr ⟨out, hout, List.mem_map.mpr ⟨inp, ?_, by rw [him]⟩⟩
    exact List.mem_filter.mpr ⟨hinp, decide_eq_true (him.trans hom.symm)⟩
  obtain ⟨hcellin, hcellout⟩ := h.cells r inp hinp him out hout hom s read written hread hwritten
  have hi_in : i < inp.coords.length := by rwa [tx.from_dimensions r inp hinp, him]
  have hi_out : i < out.coords.length := by rwa [tx.to_dimensions r out hout, hom]
  rw [hcellin.eq_lowest hread hi_in, hcellout.eq_lowest hwritten hi_out]
  have hvalue : (values M (computeDDVAsDifference fm inp out) s)[i]? =
      some (inp.lowest M s i - out.lowest M s i) := by
    simp only [Region.lowest, List.getElem?_eq_getElem hi_in, List.getElem?_eq_getElem hi_out]
    rw [values, List.getElem?_map, computeDDVAsDifference, List.getElem?_zipWith,
      List.getElem?_eq_getElem hi_in, List.getElem?_eq_getElem hi_out]
    simp only [Option.map_some, fm.eval_normalize, fm.eval_subtract]
  rw [hbehind _ hvector s] at hvalue
  rw [hm] at hi ⊢
  by_cases hid : i = d
  · subst hid
    rw [if_pos rfl]
    simpa using hvalue.symm
  · rw [if_neg (fun hh => hid (Nat.succ.inj hh))]
    have hlt : i < d := by omega
    rw [List.getElem?_append_left (by simpa using hlt), List.getElem?_replicate_of_lt hlt,
      Option.some.injEq] at hvalue
    exact hvalue.symm

/-- A listed region of a rule chosen somewhere ends at the size, as the code has checked. -/
theorem othersReachEnd_of_safe (hremovable : tx.HasRemovable m) (h : tx.SafeToRemove n m) :
    tx.OthersReachEnd m := by
  obtain ⟨d, hm, _, hlisted⟩ := hremovable
  intro r hr q hq hqm
  by_cases hmem : q ∈ getNonSelfDependentRegions tx.initial r
  · obtain ⟨k, ⟨hk, hrk⟩, _⟩ := h.chosen r ⟨q, hq, hqm⟩
    have hends := hlisted q (List.mem_flatMap.mpr ⟨r, List.mem_flatMap.mpr ⟨k, hk, hrk⟩,
      List.mem_filter.mpr ⟨hmem, decide_eq_true hqm⟩⟩)
    obtain ⟨c, dimSize, hc, hdim, hequal⟩ := hends
    have hlen : q.coords.length = d + 1 := by
      rcases List.mem_append.mp hq with hq | hq
      · rw [tx.to_dimensions r q hq, hqm, hm]
      · rw [tx.from_dimensions r q hq, hqm, hm]
    intro c' dimSize' hc' hdim' s
    rw [List.getLast?_eq_getElem?, hlen, Nat.add_sub_cancel, hc] at hc'
    rw [hqm, List.getLast?_eq_getElem?, hm, Nat.add_sub_cancel, ← hqm, hdim] at hdim'
    cases hc'
    cases hdim'
    exact MaximaWrapper.holds_of_pessimistic hequal s
  · exact h.unlisted r hr q hq hqm hmem

/-- **A DIMENSION IS REMOVED ONCE, AND SOUNDLY, EXACTLY WHEN** every matrix with a useless last
    dimension is safe to remove it from: on every run through any number of choice assignments
    that no unknown comparison stops. -/
theorem removesOnce_iff [Inhabited S] (hn : 0 < n)
    (hrun : tx.generateSchedule n tx.initial ≠ .error .assertion) :
    tx.RemovesOnce n ↔ ∀ m, tx.SelfDependent m →
      tx.initial.size m ≠ [] ∧ (tx.HasRemovable m → tx.SafeToRemove n m) := by
  constructor
  · intro h m hself
    exact safeToRemove_of_removesOnce hn h hself
  · intro h
    have honce : ∀ m, tx.SelfDependent m → tx.InRange m := by
      intro m hself
      refine ⟨(h m hself).1, fun hremovable => atMostOnce_iff.mpr ?_⟩
      intro r huses a ha hra b hb hrb
      exact (((h m hself).2 hremovable).chosen r huses).unique ⟨ha, hra⟩ ⟨hb, hrb⟩
    have hguarded : n = 1 ∨ tx.Guarded := by
      by_cases h1 : n = 1
      · exact Or.inl h1
      · refine Or.inr (fun m hself hremovable => ?_)
        exact (((h m hself).2 hremovable).guarded).resolve_left h1
    cases hresult : tx.generateSchedule n tx.initial with
    | error e =>
        cases e with
        | assertion => exact absurd hresult hrun
        | outOfRange => exact absurd ⟨honce, hguarded⟩ ((generateSchedule_ends hn).of_error hresult rfl)
    | ok st =>
        obtain ⟨⟨R, hsettled⟩, _⟩ := (generateSchedule_ends hn).of_ok hresult
        have hsafe : ∀ m, R m = true →
            tx.SelfDependent m ∧ tx.HasRemovable m ∧ tx.SafeToRemove n m := by
          intro m hm
          obtain ⟨hself, hremovable⟩ := (hsettled.which m).mp hm
          exact ⟨hself, hremovable, (h m hself).2 hremovable⟩
        -- a rule with a region of a removed matrix is chosen somewhere, so it lost the region
        have hreduce : ∀ r, ∀ q ∈ tx.initial.toRegions r ++ tx.initial.fromRegions r,
            q.reduce (fun m => decide (r ∈ tx.rules) && R m) = q.reduce R := by
          intro r q hq
          refine Region.reduce_congr ?_
          cases hR : R q.matrix with
          | false => rw [Bool.and_false]
          | true =>
              obtain ⟨k, ⟨hk, hrk⟩, _⟩ := (hsafe q.matrix hR).2.2.chosen r ⟨q, hq, rfl⟩
              rw [Bool.and_true]
              exact decide_eq_true (List.mem_flatMap.mpr ⟨k, hk, hrk⟩)
        refine ⟨st, R, hresult, ⟨hsettled.removed.size, ?_, ?_, ?_⟩, ?_⟩
        · intro k hk
          rw [hsettled.removed.region k]
          refine Region.reduce_congr ?_
          rw [decide_eq_true hk, Bool.true_and]
        · intro r
          rw [hsettled.removed.toRegions r]
          exact List.map_congr_left (fun q hq => hreduce r q (List.mem_append_left _ hq))
        · intro r
          rw [hsettled.removed.fromRegions r]
          exact List.map_congr_left (fun q hq => hreduce r q (List.mem_append_right _ hq))
        · intro m hm
          obtain ⟨hself, hremovable, hs⟩ := hsafe m hm
          exact ⟨hself.1, (h m hself).1, readsBehind_of_safe hremovable hs,
            othersReachEnd_of_safe hremovable hs⟩

end Transform

/-! ## A matrix of versions -/

/-- Formulas over the sizes `n` and `k` and the offset variables `x` and `y` of a rule, and the
    equations that define the variables of a rule by these. -/
inductive Formula
  | linear (n k x y const : Int)
  | definition (dimension : Nat)
  deriving DecidableEq

structure Environment where
  n : Int
  k : Int
  x : Int
  y : Int
  deriving Inhabited

def Formula.eval : Formula → Environment → Int
  | .linear n k x y const, s => n * s.n + k * s.k + x * s.x + y * s.y + const
  | .definition _, _ => 0

def Formula.subtract : Formula → Formula → Formula
  | .linear n k x y const, .linear n' k' x' y' const' =>
      .linear (n - n') (k - k') (x - x') (y - y') (const - const')
  | .linear n k x y const, .definition _ => .linear n k x y const
  | .definition _, .linear n k x y const => .linear (-n) (-k) (-x) (-y) (-const)
  | .definition _, .definition _ => .linear 0 0 0 0 0

def offsetVariable (dimension : Nat) : Formula :=
  .linear 0 0 (if dimension = 0 then 1 else 0) (if dimension = 1 then 1 else 0) 0

def Formula.rhs : Formula → Formula
  | .definition d => offsetVariable d
  | f => f

/-- What is known of formulas that differ by a constant. -/
def knownLinear : Formula → Op → Formula → TryCompareResult
  | .linear n k x y a, op, .linear n' k' x' y' b =>
      if (n, k, x, y) = (n', k', x', y') then
        match op with
        | .eq => if a = b then .YES else .NO
        | .lt => if a < b then .YES else .NO
        | .le => if a ≤ b then .YES else .NO
        | .ge => if b ≤ a then .YES else .NO
      else .UNKNOWN
  | _, _, _ => .UNKNOWN

theorem knownLinear_sound {a b : Formula} {op : Op} (s : Environment) :
    (knownLinear a op b = .YES → op.Holds (a.eval s) (b.eval s)) ∧
      (knownLinear a op b = .NO → ¬ op.Holds (a.eval s) (b.eval s)) := by
  have hunknown : ∀ {p q : Prop}, (TryCompareResult.UNKNOWN = .YES → p) ∧
      (TryCompareResult.UNKNOWN = .NO → q) := by
    intro p q
    constructor
    · rintro ⟨⟩
    · rintro ⟨⟩
  cases a with
  | definition d => exact hunknown
  | linear n k x y i =>
      cases b with
      | definition d => exact hunknown
      | linear n' k' x' y' j =>
          simp only [knownLinear]
          by_cases hsame : (n, k, x, y) = (n', k', x', y')
          · cases hsame
            rw [if_pos rfl]
            cases op with
            | eq =>
                by_cases h : i = j <;> simp [h, Op.Holds, Formula.eval]
            | lt =>
                by_cases h : i < j <;> simp [h, Op.Holds, Formula.eval]
            | le =>
                by_cases h : i ≤ j <;> simp [h, Op.Holds, Formula.eval]
            | ge =>
                by_cases h : j ≤ i <;> simp [h, Op.Holds, Formula.eval]
          · rw [if_neg hsame]
            exact hunknown

def linearWrapper : MaximaWrapper Formula Environment where
  eval := Formula.eval
  is := knownLinear
  yes := fun _ _ _ h s => (knownLinear_sound s).1 h
  no := fun _ _ _ h s => (knownLinear_sound s).2 h

def linearFormulas : Formulas linearWrapper where
  literal := fun i => .linear 0 0 0 0 i
  subtract := Formula.subtract
  normalize := id
  rhs := Formula.rhs
  offsetVar := fun _ d => offsetVariable d
  eval_literal := by
    intro i s
    simp [linearWrapper, Formula.eval]
  eval_subtract := by
    intro a b s
    cases a with
    | definition d =>
        cases b with
        | definition d' => simp [linearWrapper, Formula.subtract, Formula.eval]
        | linear n' k' x' y' j =>
            simp only [linearWrapper, Formula.subtract, Formula.eval, Int.neg_mul]
            omega
    | linear n k x y i =>
        cases b with
        | definition d' => simp [linearWrapper, Formula.subtract, Formula.eval]
        | linear n' k' x' y' j =>
            simp only [linearWrapper, Formula.subtract, Formula.eval, Int.sub_mul]
            omega
  eval_normalize := fun _ _ => rfl

/-- A constant, the sizes, and the offset variables plus a constant. -/
abbrev lit (i : Int) : Formula := .linear 0 0 0 0 i

abbrev sizeN : Formula := .linear 1 0 0 0 0

abbrev sizeK (i : Int) : Formula := .linear 0 1 0 0 i

abbrev varX (i : Int) : Formula := .linear 0 0 1 0 i

abbrev varY (i : Int) : Formula := .linear 0 0 0 1 i

/-- `through A[n, k]`, with the rules `to (A.region(x, 0, x+1, k)) from (In.cell(x))`,
    `to (A.cell(x, y)) from (A.cell(x, y-1))` and `to (Out.cell(x)) from (A.cell(x, k-1))`.
    The matrices `In`, `A` and `Out` are 0, 1 and 2; nodes 1 and 2 are the first version in `A`
    and the others. -/
def versions (others : List Rule) (h : others.Nodup) : Transform linearWrapper linearFormulas where
  isThrough := fun m => m = 1
  allNodes := [0, 1, 2, 3]
  choices
    | 1 => [0]
    | 2 => others
    | 3 => [2]
    | _ => []
  isUserRule := fun r => r ≤ 2
  initial :=
    { size := fun m => if m = 1 then [sizeN, sizeK 0] else [sizeN]
      region
        | 1 => ⟨1, [(lit 0, sizeN), (lit 0, lit 1)], []⟩
        | 2 => ⟨1, [(lit 0, sizeN), (lit 1, sizeK 0)], []⟩
        | 3 => ⟨2, [(lit 0, sizeN)], []⟩
        | _ => ⟨0, [(lit 0, sizeN)], []⟩
      toRegions
        | 0 => [⟨1, [(varX 0, varX 1), (lit 0, sizeK 0)], []⟩]
        | 1 => [⟨1, [(varX 0, varX 1), (varY 0, varY 1)], []⟩]
        | 2 => [⟨2, [(varX 0, varX 1)], []⟩]
        | _ => []
      fromRegions
        | 0 => [⟨0, [(varX 0, varX 1)], []⟩]
        | 1 => [⟨1, [(varX 0, varX 1), (varY (-1), varY 0)], []⟩]
        | 2 => [⟨1, [(varX 0, varX 1), (sizeK (-1), sizeK 0)], []⟩]
        | _ => []
      definitions := fun r => if r = 1 then [.definition 0, .definition 1] else [.definition 0] }
  nodup := by decide
  choices_nodup := by
    rintro (_ | _ | _ | _ | n) _
    · exact List.nodup_nil
    · exact List.nodup_singleton 0
    · exact h
    · exact List.nodup_singleton 2
    · exact List.nodup_nil
  synthetic := by
    rintro (_ | _ | _ | r) hr
    · cases hr
    · cases hr
    · cases hr
    · exact ⟨rfl, rfl⟩
  region_dimensions := by
    rintro (_ | _ | _ | _ | n) _ <;> rfl
  to_dimensions := by
    rintro (_ | _ | _ | r) q hq
    · rw [List.mem_singleton.mp hq]
      rfl
    · rw [List.mem_singleton.mp hq]
      rfl
    · rw [List.mem_singleton.mp hq]
      rfl
    · exact absurd hq List.not_mem_nil
  from_dimensions := by
    rintro (_ | _ | _ | r) q hq
    · rw [List.mem_singleton.mp hq]
      rfl
    · rw [List.mem_singleton.mp hq]
      rfl
    · rw [List.mem_singleton.mp hq]
      rfl
    · exact absurd hq List.not_mem_nil

/-- The first rule has a lower priority than the second, so it is a choice for the first version
    alone. -/
def prioritized := versions [1] (by decide)

/-- Both rules are choices for the other versions. -/
def shared := versions [0, 1] (by decide)

/-- Two rounds leave one version, and the definitions of the second rule without `y`. -/
theorem removesOnce_iff_prioritized :
    (prioritized.generateSchedule 2 prioritized.initial).map
        (fun st => (st.size 1, st.definitions 1)) = .ok ([sizeN], [.definition 0]) ∧
      (prioritized.RemovesOnce 2 ↔ ∀ m, prioritized.SelfDependent m →
        prioritized.initial.size m ≠ [] ∧
          (prioritized.HasRemovable m → prioritized.SafeToRemove 2 m)) := by
  have hrun : (prioritized.generateSchedule 2 prioritized.initial).map
      (fun st => (st.size 1, st.definitions 1)) = .ok ([sizeN], [.definition 0]) := by
    rfl
  refine ⟨hrun, Transform.removesOnce_iff (by decide) ?_⟩
  intro hstop
  rw [hstop] at hrun
  cases hrun

/-- **A SHARED RULE IS OUT OF RANGE**: the rule that fills all versions is a choice of two nodes,
    so its region is visited twice, and the second time the dimension is gone. -/
theorem shared_rule_out_of_range :
    shared.generateSchedule 2 shared.initial = .error .outOfRange ∧ ¬ shared.RemovesOnce 2 := by
  have hrun : shared.generateSchedule 2 shared.initial = .error .outOfRange := by
    rfl
  refine ⟨hrun, ?_⟩
  rintro ⟨st, removed, hok, _⟩
  rw [hrun] at hok
  cases hok

end PbUselessDimension
