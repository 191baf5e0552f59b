import Mathlib.Data.List.Basic
import Mathlib.Tactic.Common

/-! # Objects with operations, and the ideal double-ended queue

    A partial object is refined from a total one by a relation that every operation keeps: then
    no operation of a run goes wrong, and the answers are the same (`run_refines`).

    The ideal deque is a list, its bottom first.  Over a run nothing is popped but what was
    pushed, and nothing twice: what was popped and what is left is what was pushed
    (`perm_pushed`). -/

namespace PbDeque

variable {S A I O : Type}

/-! ## Objects -/

/-- A run of a partial object, with all its answers. -/
def run (step : I → S → Option (O × S)) : List I → S → Option (List O × S)
  | [], s => some ([], s)
  | i :: is, s => (step i s).bind fun r => (run step is r.2).map fun q => (r.1 :: q.1, q.2)

/-- A run of a total object. -/
def runAll (step : I → A → O × A) : List I → A → List O × A
  | [], a => ([], a)
  | i :: is, a =>
      let r := step i a
      let q := runAll step is r.2
      (r.1 :: q.1, q.2)

/-- **REFINEMENT OVER RUNS**: one step that keeps the relation is enough. -/
theorem run_refines {P : Type} {step : I → S → Option (O × S)} {ideal : I → A → P × A}
    (shown : P → O) {R : S → A → Prop}
    (hstep : ∀ i s a, R s a → ∃ s', step i s = some (shown (ideal i a).1, s') ∧ R s' (ideal i a).2)
    (is : List I) {s : S} {a : A} (h : R s a) :
    ∃ s', run step is s = some ((runAll ideal is a).1.map shown, s') ∧
      R s' (runAll ideal is a).2 := by
  induction is generalizing s a with
  | nil => exact ⟨s, rfl, h⟩
  | cons i is ih =>
      obtain ⟨s₁, hs₁, hR₁⟩ := hstep i s a h
      obtain ⟨s₂, hs₂, hR₂⟩ := ih hR₁
      refine ⟨s₂, ?_, hR₂⟩
      rw [run, hs₁, Option.bind_some, hs₂]
      rfl

/-! ## The ideal deque -/

inductive Op (T : Type)
  | pushTop (x : T)
  | popTop
  | popBottom

inductive Answer (T : Type)
  | done
  | empty
  | popped (x : T)

variable {T : Type}

/-- Last in, first out at the top, and first in, first out from the top to the bottom. -/
def ideal : Op T → List T → Answer T × List T
  | .pushTop x, q => (.done, q ++ [x])
  | .popTop, q =>
      match q.getLast? with
      | none => (.empty, q)
      | some x => (.popped x, q.dropLast)
  | .popBottom, [] => (.empty, [])
  | .popBottom, x :: q => (.popped x, q)

def Op.pushed? : Op T → Option T
  | .pushTop x => some x
  | _ => none

def Answer.popped? : Answer T → Option T
  | .popped x => some x
  | _ => none

@[simp] theorem ideal_popTop_nil : ideal (.popTop : Op T) [] = (.empty, []) := rfl

@[simp] theorem ideal_popTop_concat (q : List T) (x : T) :
    ideal .popTop (q ++ [x]) = (.popped x, q) := by
  rw [ideal, List.getLast?_concat, List.dropLast_concat]

/-- What goes in and what comes out, and what is left. -/
theorem ideal_perm (op : Op T) (q : List T) :
    ((ideal op q).1.popped?.toList ++ (ideal op q).2).Perm (op.pushed?.toList ++ q) := by
  cases op with
  | pushTop x => exact List.perm_append_singleton x q
  | popTop =>
      rcases List.eq_nil_or_concat q with rfl | ⟨q, x, rfl⟩
      · exact .refl _
      · rw [List.concat_eq_append, ideal_popTop_concat]
        exact List.perm_append_comm
  | popBottom =>
      cases q with
      | nil => exact .refl _
      | cons x q => exact .refl _

/-- **NOTHING IS LOST OR POPPED TWICE.** -/
theorem perm_pushed (ops : List (Op T)) (q : List T) :
    ((runAll ideal ops q).1.filterMap Answer.popped? ++ (runAll ideal ops q).2).Perm
      (q ++ ops.filterMap Op.pushed?) := by
  induction ops generalizing q with
  | nil =>
      show List.Perm q (q ++ [])
      rw [List.append_nil]
  | cons op ops ih =>
      have hpopped : (runAll ideal (op :: ops) q).1.filterMap Answer.popped? =
          (ideal op q).1.popped?.toList ++
            (runAll ideal ops (ideal op q).2).1.filterMap Answer.popped? := by
        show List.filterMap Answer.popped? (_ :: _) = _
        rw [List.filterMap_cons]
        cases (ideal op q).1.popped? <;> rfl
      have hpushed : (op :: ops).filterMap Op.pushed? =
          op.pushed?.toList ++ ops.filterMap Op.pushed? := by
        rw [List.filterMap_cons]
        cases op.pushed? <;> rfl
      rw [hpopped, hpushed, List.append_assoc, ← List.append_assoc q]
      calc ((ideal op q).1.popped?.toList ++ ((runAll ideal ops (ideal op q).2).1.filterMap
              Answer.popped? ++ (runAll ideal ops (ideal op q).2).2)).Perm
            ((ideal op q).1.popped?.toList ++ ((ideal op q).2 ++ ops.filterMap Op.pushed?)) :=
          (ih _).append_left _
        List.Perm _ ((op.pushed?.toList ++ q) ++ ops.filterMap Op.pushed?) := by
          rw [← List.append_assoc]
          exact (ideal_perm op q).append_right _
        List.Perm _ ((q ++ op.pushed?.toList) ++ ops.filterMap Op.pushed?) :=
          List.perm_append_comm.append_right _

end PbDeque
