import Mathlib.Data.List.Basic
import Mathlib.Tactic.Common

/-!
# Comparing formulas — answers that are true, or unknown

The compiler compares symbolic formulas by asking a computer algebra system, which may not
know.  Formulas are known by their texts, which is what is compared first; `eval` is what a
formula stands for in an environment, a choice of matrix sizes and an iteration point.  What the
computer algebra system answers is a parameter, and a `MaximaWrapper` carries the promise that
it answers truly, so that no later proof has to assume it.
-/

namespace PbMaxima

inductive TryCompareResult
  | NO
  | YES
  | UNKNOWN
  deriving DecidableEq, Repr

/-- The comparisons the scheduler makes. -/
inductive Op
  | le
  | ge
  | lt
  | eq
  deriving DecidableEq, Repr

def Op.Holds : Op → Int → Int → Prop
  | .le, a, b => a ≤ b
  | .ge, a, b => b ≤ a
  | .lt, a, b => a < b
  | .eq, a, b => a = b

/-- The answer for identical texts. -/
def Op.identical : Op → TryCompareResult
  | .le | .ge | .eq => .YES
  | .lt => .NO

/-- The computer algebra system: `is` decides a comparison for every environment, or does not
    know. -/
structure MaximaWrapper (F S : Type) where
  eval : F → S → Int
  is : F → Op → F → TryCompareResult
  yes : ∀ a op b, is a op b = .YES → ∀ s, op.Holds (eval a s) (eval b s)
  no : ∀ a op b, is a op b = .NO → ∀ s, ¬ op.Holds (eval a s) (eval b s)

namespace MaximaWrapper

variable {F S : Type} [DecidableEq F] (M : MaximaWrapper F S)

/-- Identical texts are not sent to the computer algebra system. -/
def tryCompare (a : F) (op : Op) (b : F) : TryCompareResult :=
  if a = b then op.identical else M.is a op b

/-- No value where the code stops: it asserts that the answer is known. -/
def compare (a : F) (op : Op) (b : F) : Option Bool :=
  match M.tryCompare a op b with
  | .YES => some true
  | .NO => some false
  | .UNKNOWN => none

def comparePessimistically (a : F) (op : Op) (b : F) : Bool := M.tryCompare a op b = .YES

variable {M} {a b : F} {op : Op}

theorem holds_of_yes (h : M.tryCompare a op b = .YES) (s : S) :
    op.Holds (M.eval a s) (M.eval b s) := by
  rw [tryCompare] at h
  by_cases hab : a = b
  · subst hab
    rw [if_pos rfl] at h
    cases op with
    | le => exact Int.le_refl _
    | ge => exact Int.le_refl _
    | lt => cases h
    | eq => rfl
  · rw [if_neg hab] at h
    exact M.yes a op b h s

theorem not_holds_of_no (h : M.tryCompare a op b = .NO) (s : S) :
    ¬ op.Holds (M.eval a s) (M.eval b s) := by
  rw [tryCompare] at h
  by_cases hab : a = b
  · subst hab
    rw [if_pos rfl] at h
    cases op with
    | le => cases h
    | ge => cases h
    | lt => exact Int.lt_irrefl _
    | eq => cases h
  · rw [if_neg hab] at h
    exact M.no a op b h s

/-- **A COMPARISON THAT RETURNS TELLS THE TRUTH**, in every environment. -/
theorem holds_of_compare {answer : Bool} (h : M.compare a op b = some answer) (s : S) :
    op.Holds (M.eval a s) (M.eval b s) ↔ answer = true := by
  rw [compare] at h
  cases ht : M.tryCompare a op b with
  | YES =>
      rw [ht] at h
      cases h
      exact ⟨fun _ => rfl, fun _ => holds_of_yes ht s⟩
  | NO =>
      rw [ht] at h
      cases h
      exact ⟨fun hh => absurd hh (not_holds_of_no ht s), fun hh => Bool.noConfusion hh⟩
  | UNKNOWN =>
      rw [ht] at h
      cases h

theorem holds_of_pessimistic (h : M.comparePessimistically a op b = true) (s : S) :
    op.Holds (M.eval a s) (M.eval b s) :=
  holds_of_yes (of_decide_eq_true h) s

end MaximaWrapper

end PbMaxima
