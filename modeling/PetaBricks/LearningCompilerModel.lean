import Mathlib.Data.List.Sort
import Mathlib.Data.Prod.Lex
import Mathlib.Order.WithBot
import Mathlib.Data.Rat.Defs
import Mathlib.Algebra.Order.Ring.Rat

/-! # The learning compiler — `compileLearningHeuristics`

    The variants are compiled in the directories `0`, `1`, ..., and autotuned one after the
    other, which adds to one list of candidates.  `autotuneInner` adds the best candidate of
    its population in a `finally` clause, so also when `AlwaysCrashes` is raised, and the
    learning compiler adds `None` when it is.  The candidates are numbered, sorted, credited
    in the data base by their number, and the files of the first are installed. -/

namespace PbLearningCompiler

/-- A candidate, by the `ResultsDB` of its timing metric: the mean for each input size, or
    none where no test has a result. -/
structure Candidate where
  times : List (ℕ × Option ℚ)
  sizes_nodup : (times.map Prod.fst).Nodup

/-- What the autotuner comes to on a variant: `pop.best`, and whether it raises
    `AlwaysCrashes`. -/
structure Outcome where
  best : Option Candidate
  crashed : Bool

/-- A candidate with its attribute `originalIndex`. -/
structure Indexed where
  candidate : Candidate
  originalIndex : ℕ

/-- The exceptions of `compileLearningHeuristics`. -/
inductive Error
  | assertion | index | attribute | alwaysCrashes
  deriving DecidableEq

/-! ## The list of candidates -/

/-- `autotune(binary, candidates)`: the list, and whether `AlwaysCrashes` is raised. -/
def autotune (o : Outcome) (candidates : List (Option Candidate)) :
    List (Option Candidate) × Bool :=
  (candidates ++ o.best.toList.map some, o.crashed)

/-- The `try` statement around it. -/
def tryVariant (candidates : List (Option Candidate)) (o : Outcome) : List (Option Candidate) :=
  let r := autotune o candidates
  if r.2 then r.1 ++ [none] else r.1

def allCandidates (os : List Outcome) : List (Option Candidate) := os.foldl tryVariant []

/-- `addOriginalIndex`, from a count on. -/
def addOriginalIndex (count : ℕ) : List (Option Candidate) → List (Option Indexed)
  | [] => []
  | none :: cs => none :: addOriginalIndex count cs
  | some c :: cs => some ⟨c, count⟩ :: addOriginalIndex (count + 1) cs

/-! ## Sorting -/

/-- The key of a candidate; the largest is `(inf, inf)`. -/
abbrev Key := WithTop (ℕ ×ₗ ℚ)

/-- `candidateKey`; `mean` asserts that there is a result.  `1/numDimensions` is a division of
    integers. -/
def candidateKey : Option Candidate → Option Key
  | none => some ⊤
  | some c =>
      let numDimensions := c.times.length
      let executionTime := (c.times.lookup (2 ^ (numDimensions - 1))).join
      executionTime.map fun t => ((toLex (1 / numDimensions, t) : ℕ ×ₗ ℚ) : Key)

/-- `sortBySpeed`: all keys are computed first, and the sort is stable. -/
def sortBySpeed (cs : List (Option Indexed)) : Option (List (Option Indexed)) := do
  let keyed ← cs.mapM fun c => (candidateKey (c.map Indexed.candidate)).map fun k => (k, c)
  pure ((keyed.insertionSort fun a b => a.1 ≤ b.1).map Prod.snd)

/-! ## Credits and installation -/

/-- `storeCandidatesDataInDB`, from a count on: which directory's heuristics get which score,
    and whether it comes to the end; `None` has no attribute `originalIndex`. -/
def storeCandidatesDataInDB (numCandidates count : ℕ) : List (Option Indexed) → List (ℕ × ℚ) × Bool
  | [] => ([], true)
  | none :: _ => ([], false)
  | some c :: cs =>
      let score : ℚ := (numCandidates - count) / numCandidates
      let r := storeCandidatesDataInDB numCandidates (count + 1) cs
      ((c.originalIndex, score) :: r.1, r.2)

/-- The credits, and the directory whose files are installed. -/
structure Result where
  credits : List (ℕ × ℚ)
  installed : Except Error ℕ
  deriving DecidableEq

/-- `compileLearningHeuristics` from the outcomes of the variants on. -/
def compileLearningHeuristics (os : List Outcome) : Result :=
  match sortBySpeed (addOriginalIndex 0 (allCandidates os)) with
  | none => ⟨[], .error .assertion⟩
  | some [] => ⟨[], .error .index⟩
  | some (none :: _) => ⟨[], .error .alwaysCrashes⟩
  | some (some best :: rest) =>
      let cs := some best :: rest
      let r := storeCandidatesDataInDB cs.length 0 cs
      ⟨r.1, if r.2 then .ok best.originalIndex else .error .attribute⟩

end PbLearningCompiler
