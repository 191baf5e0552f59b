import Mathlib.Data.Int.ConditionallyCompleteOrder
import PetaBricks.IterationSplitProofs
import PetaBricks.OdometerProofs
import Mathlib.Tactic.Ring
import Mathlib.Tactic.Linarith
import Mathlib.Algebra.Order.BigOperators.Group.List

/-! # Iteration loops — the nested loops of a rule and its trampoline

    A rule is run on its iteration space in one of two ways: by nested loops
    (`genLoopBegin`), or by a trampoline, a chain of tasks each of which runs the
    rule at one coordinate and computes the next.  Formulas stand for their values,
    which `MaximaWrapper::normalize` keeps.

    Both visit the same coordinates.  A dimension that is run backwards starts at
    the last cell of the space in both: it visits what a forward loop visits only
    where a forward loop gets to that cell. -/

namespace PbIterationLoop

open PbScheduler PbIterationSplit PbOdometer

/-- `iterateForward`. -/
def iterateForward (order : DependencyDirection) (i : Nat) : Bool :=
  canIterateForward order i || !canIterateBackward order i

/-- One dimension: its direction, `_begin[i]`, `_end[i]` and `_step[i]`. -/
structure Dimension where
  forward : Bool
  b : Int
  e : Int
  s : Int
  deriving DecidableEq, Repr

/-- The bounds are in order and the loop advances. -/
def Dimension.Proper (d : Dimension) : Prop := d.b < d.e ∧ 1 ≤ d.s

/-- An iteration definition that is not a single call, with its steps. -/
structure IterationDefinition extends PbIterationSplit.IterationDefinition where
  step : List Int
  step_length : step.length = bounds.length

/-! ## Nested loops -/

/-- `for(int v = b; v < e; v += s)`. -/
def beginFor (b e s : Int) : Loop Int where
  start := b
  goesOn v := v < e
  advance v := v + s

/-- `for(int v = e - 1; v >= b; v -= s)`. -/
def beginReverseFor (b e s : Int) : Loop Int where
  start := e - 1
  goesOn v := b ≤ v
  advance v := v - s

def Dimension.genLoop (d : Dimension) : Loop Int :=
  if d.forward then beginFor d.b d.e d.s else beginReverseFor d.b d.e d.s

/-! ## The trampoline -/

def Dimension.startCoord (d : Dimension) : Int :=
  if d.forward then d.b else d.e - 1

/-- The statements for one dimension that compute the next coordinate; with `true` the ones
    for the dimension before it are run. -/
def Dimension.turn (d : Dimension) (v : Int) : Int × Bool :=
  if d.forward then
    let v := v + d.s
    if v ≥ d.e then (d.b, true) else (v, false)
  else
    let v := v - d.s
    if v < d.b then (d.e - 1, true) else (v, false)

namespace IterationDefinition

variable (it : IterationDefinition)

def dims : List Dimension :=
  (it.bounds.zip it.step).zipIdx.map fun d =>
    ⟨iterateForward it.order d.2, d.1.1.1, d.1.1.2, d.1.2⟩

def genLoopBegin : List (Loop Int) := it.dims.map Dimension.genLoop

/-- The coordinates the nested loops run the rule at. -/
def loopCells (n : Nat) : Option (List (List Int)) := nest it.genLoopBegin n

/-- The coordinates the trampoline runs the rule at: it is not started in an empty space. -/
def trampCells (n : Nat) : Option (List (List Int)) :=
  if it.dims.all (fun d => d.b < d.e) then
    count (it.dims.map Dimension.turn) n (it.dims.map Dimension.startCoord)
  else some []

/-- The loops and the trampoline end, and run the rule at the same coordinates in the same
    order. -/
def SameCells : Prop := ∃ n coords, it.loopCells n = some coords ∧ it.trampCells n = some coords

end IterationDefinition

/-- The backward loop takes the values of the forward one in the opposite order. -/
def Dimension.Reversed (d : Dimension) : Prop :=
  ∃ n vs, (beginFor d.b d.e d.s).values n = some vs ∧
    (beginReverseFor d.b d.e d.s).values n = some vs.reverse

/-! ## The values of one loop -/

/-- `n` values, each `s` after the one before. -/
def progression (v s : Int) (n : Nat) : List Int :=
  (List.range n).map (fun k : Nat => v + s * k)

@[simp] theorem length_progression (v s : Int) (n : Nat) : (progression v s n).length = n := by
  simp [progression]

theorem progression_succ (v s : Int) (n : Nat) :
    progression v s (n + 1) = v :: progression (v + s) s n := by
  simp only [progression, List.range_succ_eq_map, List.map_cons, List.map_map]
  congr 1
  · simp
  · refine List.map_congr_left (fun k _ => ?_)
    simp only [Function.comp_apply, Nat.cast_succ]
    ring

theorem reverse_progression (v s : Int) (n : Nat) :
    (progression v s (n + 1)).reverse = progression (v + s * n) (-s) (n + 1) := by
  apply List.ext_getElem
  · simp
  · intro k hk _
    rw [List.length_reverse, length_progression] at hk
    simp only [List.getElem_reverse, length_progression]
    simp only [progression, List.getElem_map, List.getElem_range]
    have hcast : ((n + 1 - 1 - k : Nat) : Int) = n - k := by omega
    rw [hcast]
    ring

theorem takes_beginFor {b e s : Int} {n : Nat} : ∀ {v : Int}, (∀ k < n, v + s * k < e) →
    e ≤ v + s * n → (beginFor b e s).Takes v (progression v s n) := by
  induction n with
  | zero =>
      intro v _ hend
      exact .done (by simpa [beginFor] using hend)
  | succ n ih =>
      intro v hgo hend
      rw [progression_succ]
      refine .turn ?_ (ih ?_ ?_)
      · simpa [beginFor] using hgo 0 (Nat.succ_pos n)
      · intro k hk
        have h := hgo (k + 1) (by omega)
        show v + s + s * k < e
        push_cast at h
        linarith
      · show e ≤ v + s + s * n
        push_cast at hend
        linarith

theorem takes_beginReverseFor {b e s : Int} {n : Nat} :
    ∀ {v : Int}, (∀ k < n, b ≤ v - s * k) → v - s * n < b →
      (beginReverseFor b e s).Takes v (progression v (-s) n) := by
  induction n with
  | zero =>
      intro v _ hend
      exact .done (by simpa [beginReverseFor] using hend)
  | succ n ih =>
      intro v hgo hend
      rw [progression_succ]
      refine .turn ?_ (ih ?_ ?_)
      · simpa [beginReverseFor] using hgo 0 (Nat.succ_pos n)
      · intro k hk
        have h := hgo (k + 1) (by omega)
        show b ≤ v - s - s * k
        push_cast at h
        linarith
      · show v - s - s * n < b
        push_cast at hend
        linarith

namespace Dimension

variable (d : Dimension)

/-- How often a loop advances. -/
def turns : Nat := ((d.e - 1 - d.b) / d.s).toNat

variable {d}

theorem turns_spec (h : d.Proper) :
    d.s * d.turns ≤ d.e - 1 - d.b ∧ d.e - 1 - d.b < d.s * d.turns + d.s := by
  obtain ⟨hbe, hs⟩ := h
  have hdiv := Int.mul_ediv_add_emod (d.e - 1 - d.b) d.s
  have hpos := Int.emod_nonneg (d.e - 1 - d.b) (by omega : d.s ≠ 0)
  have hlt := Int.emod_lt_of_pos (d.e - 1 - d.b) (by omega : 0 < d.s)
  have hnonneg : 0 ≤ (d.e - 1 - d.b) / d.s := Int.ediv_nonneg (by omega) (by omega)
  rw [turns, Int.toNat_of_nonneg hnonneg]
  constructor <;> linarith

/-- Nothing the variable is added to by then is more than the space is long. -/
theorem mul_le (h : d.Proper) {k : Nat} (hk : k < d.turns + 1) :
    d.s * k ≤ d.e - 1 - d.b := by
  have hmul : d.s * k ≤ d.s * d.turns :=
    Int.mul_le_mul_of_nonneg_left (by omega) (by have := h.2; omega)
  exact Int.le_trans hmul (turns_spec h).1

theorem takes_forward (h : d.Proper) :
    (beginFor d.b d.e d.s).Takes d.b (progression d.b d.s (d.turns + 1)) := by
  apply takes_beginFor
  · intro k hk
    have := mul_le h hk
    omega
  · have hend := (turns_spec h).2
    push_cast
    rw [Int.mul_add, Int.mul_one]
    omega

theorem takes_backward (h : d.Proper) :
    (beginReverseFor d.b d.e d.s).Takes (d.e - 1)
      (progression (d.e - 1) (-d.s) (d.turns + 1)) := by
  apply takes_beginReverseFor
  · intro k hk
    have := mul_le h hk
    omega
  · have hend := (turns_spec h).2
    push_cast
    rw [Int.mul_add, Int.mul_one]
    omega

/-- The values of the loop of a dimension. -/
def loopValues (d : Dimension) : List Int :=
  if d.forward then progression d.b d.s (d.turns + 1)
  else progression (d.e - 1) (-d.s) (d.turns + 1)

theorem takes_genLoop (h : d.Proper) : d.genLoop.Takes d.genLoop.start d.loopValues := by
  rw [genLoop, loopValues]
  split
  · exact takes_forward h
  · exact takes_backward h

theorem length_loopValues (d : Dimension) : d.loopValues.length = d.turns + 1 := by
  rw [loopValues]
  split <;> exact length_progression ..

/-- **BACKWARD IS FORWARD REVERSED** exactly where a forward loop ends at the last cell. -/
theorem reversed_iff (h : d.Proper) : d.Reversed ↔ d.s ∣ d.e - 1 - d.b := by
  have hs : d.s ≠ 0 := by have := h.2; omega
  constructor
  · rintro ⟨n, vs, hf, hr⟩
    have hvs := (takes_forward h).unique (Loop.takes_of_exec hf)
    have hrev := (takes_backward h).unique (Loop.takes_of_exec hr)
    rw [← hvs, reverse_progression, progression_succ, progression_succ] at hrev
    -- both runs have as many values, so that comparing the first ones is enough
    have hhead : d.e - 1 = d.b + d.s * d.turns := List.head_eq_of_cons_eq hrev
    exact ⟨d.turns, by omega⟩
  · rintro ⟨q, hq⟩
    -- the forward loop ends at the last cell
    have hturns : d.e - 1 = d.b + d.s * d.turns := by
      have hqpos : 0 ≤ q := by
        by_contra hneg
        have hlt : d.s * q < 0 := Int.mul_neg_of_pos_of_neg (by have := h.2; omega) (by omega)
        have := h.1
        omega
      rw [turns, hq, Int.mul_ediv_cancel_left q hs, Int.toNat_of_nonneg hqpos]
      omega
    refine ⟨d.turns + 2, progression d.b d.s (d.turns + 1), ?_, ?_⟩
    · exact Loop.Takes.values (takes_forward h) (by simp)
    · rw [reverse_progression, ← hturns]
      exact Loop.Takes.values (takes_backward h) (by simp)

/-! ## The same cells -/

theorem startCoord_eq (d : Dimension) : d.startCoord = d.genLoop.start := by
  rw [startCoord, genLoop]
  split <;> rfl

/-- The trampoline tests for the end as the loop tests for going on. -/
theorem turn_eq (d : Dimension) : d.turn = d.genLoop.turn := by
  funext v
  rw [turn, genLoop]
  split
  · show _ = if decide (v + d.s < d.e) then _ else _
    by_cases hv : v + d.s < d.e
    · simp only [ge_iff_le, hv, decide_true, if_true]
      rw [if_neg (by omega)]
      rfl
    · simp only [ge_iff_le, hv, decide_false]
      rw [if_pos (by omega)]
      rfl
  · show _ = if decide (d.b ≤ v - d.s) then _ else _
    by_cases hv : d.b ≤ v - d.s
    · simp only [hv, decide_true, if_true]
      rw [if_neg (by omega)]
      rfl
    · simp only [hv, decide_false]
      rw [if_pos (by omega)]
      rfl

end Dimension

namespace IterationDefinition

variable {it : IterationDefinition}

theorem forall₂_loops {P : Loop Int → List Int → Prop}
    (h : ∀ d ∈ it.dims, P d.genLoop d.loopValues) :
    List.Forall₂ P it.genLoopBegin (it.dims.map Dimension.loopValues) := by
  rw [genLoopBegin, List.forall₂_map_left_iff, List.forall₂_map_right_iff, List.forall₂_same]
  exact h

/-- **ONE ITERATION, TWO PROGRAMS**: the trampoline runs the rule where the loops do. -/
theorem sameCells (h : ∀ d ∈ it.dims, d.Proper) : it.SameCells := by
  have hpos : ∀ d ∈ it.dims, d.loopValues ≠ [] := by
    intro d _ hnil
    have hlen := d.length_loopValues
    rw [hnil] at hlen
    cases hlen
  -- a budget for every loop and for the trampoline
  let cells := tuples (it.dims.map Dimension.loopValues)
  let n := (it.dims.map (fun d => d.loopValues.length)).sum + 1 + cells.length
  have hbudget : ∀ d ∈ it.dims, d.loopValues.length < n := by
    intro d hd
    have hle : d.loopValues.length ≤ (it.dims.map (fun d => d.loopValues.length)).sum :=
      List.single_le_sum (fun _ _ => Nat.zero_le _) _
        (List.mem_map_of_mem (f := fun d : Dimension => d.loopValues.length) hd)
    show _ < _ + 1 + _
    omega
  refine ⟨n, cells, ?_, ?_⟩
  · exact nest_eq (forall₂_loops fun d hd =>
      ⟨Dimension.takes_genLoop (h d hd), hbudget d hd⟩)
  · have hvisits : Visits (it.genLoopBegin.map Loop.turn) (it.genLoopBegin.map Loop.start) cells :=
      visits_tuples (forall₂_loops fun d hd =>
        ⟨Dimension.takes_genLoop (h d hd), hpos d hd⟩)
    have hturns : it.genLoopBegin.map Loop.turn = it.dims.map Dimension.turn := by
      rw [genLoopBegin, List.map_map]
      exact List.map_congr_left (fun d _ => d.turn_eq.symm)
    have hstarts : it.genLoopBegin.map Loop.start = it.dims.map Dimension.startCoord := by
      rw [genLoopBegin, List.map_map]
      exact List.map_congr_left (fun d _ => d.startCoord_eq.symm)
    -- the trampoline returns at once from an empty space
    have hne : it.dims.all (fun d => d.b < d.e) = true := by
      rw [List.all_eq_true]
      exact fun d hd => decide_eq_true (h d hd).1
    rw [trampCells, if_pos hne, ← hturns, ← hstarts]
    exact hvisits.count (Nat.le_add_left ..)

/-- **THE ITERATION CODE VISITS THE RIGHT CELLS** exactly where every dimension that is run
    backward has a length that its step divides but for the last cell. -/
theorem loops_right_iff (it : IterationDefinition) (h : ∀ d ∈ it.dims, d.Proper) :
    (it.SameCells ∧ ∀ d ∈ it.dims, d.forward = false → d.Reversed) ↔
      ∀ d ∈ it.dims, d.forward = false → d.s ∣ d.e - 1 - d.b := by
  constructor
  · rintro ⟨_, hrev⟩ d hd hback
    exact (Dimension.reversed_iff (h d hd)).mp (hrev d hd hback)
  · intro hdvd
    exact ⟨sameCells h, fun d hd hback =>
      (Dimension.reversed_iff (h d hd)).mpr (hdvd d hd hback)⟩

/-- A rule that writes two cells and reads the two behind them. -/
def pairs (e : Int) : IterationDefinition :=
  ⟨⟨⟨[D_GT]⟩, [(0, e)], rfl⟩, [2], rfl⟩

theorem dims_pairs (e : Int) : (pairs e).dims = [⟨false, 0, e, 2⟩] := by
  have hback : iterateForward ⟨[D_GT]⟩ 0 = false := by decide
  simp [dims, pairs, hback]

/-- Five cells are run backward at 4, 2 and 0. -/
theorem loops_right_iff_pairs :
    (pairs 5).SameCells ∧ ∀ d ∈ (pairs 5).dims, d.forward = false → d.Reversed := by
  refine ((pairs 5).loops_right_iff ?_).mpr ?_
  · intro d hd
    rw [dims_pairs, List.mem_singleton] at hd
    subst hd
    exact ⟨by decide, by decide⟩
  · intro d hd _
    rw [dims_pairs, List.mem_singleton] at hd
    subst hd
    exact ⟨2, rfl⟩

/-- Four cells are run backward at 3 and 1, forward at 0 and 2. -/
theorem pairs_of_four_not_right :
    ¬ ((pairs 4).SameCells ∧ ∀ d ∈ (pairs 4).dims, d.forward = false → d.Reversed) := by
  rintro ⟨_, hrev⟩
  -- the budget is not known, so that the two loops are run by their relation
  obtain ⟨n, vs, hf, hr⟩ := hrev ⟨false, 0, 4, 2⟩ (by decide) rfl
  have hfour : (beginFor 0 4 2).Takes 0 [0, 2] :=
    .turn rfl (.turn rfl (.done rfl))
  have hback : (beginReverseFor 0 4 2).Takes 3 [3, 1] :=
    .turn rfl (.turn rfl (.done rfl))
  have hvs := hfour.unique (Loop.takes_of_exec hf)
  have hrev := hback.unique (Loop.takes_of_exec hr)
  rw [← hvs] at hrev
  exact absurd hrev (by decide)

example : (pairs 4).loopCells 9 = some [[3], [1]] := by decide

end IterationDefinition

end PbIterationLoop
