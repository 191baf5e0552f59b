import PetaBricks.DequeProofs
import Mathlib.Algebra.Order.Ring.Int

/-! # `THEDeque`

    The elements are the cells of an array from the head to the tail.  The owner pushes and pops
    at the tail, a thief pops at the head, and both indices go back to zero when a push finds the
    deque empty.  Here the operations are atomic, and memory does not run out.

    A cell is `none` until it is written.  An access outside of the allocation, a read of such a
    cell and a lock that is taken twice have no result. -/

namespace PbTHEDeque

open PbDeque

variable {T : Type}

/-! ## Memory -/

abbrev Cells (T : Type) := List (Option T)

def malloc (n : ℤ) : Cells T := List.replicate n.toNat none

def realloc (array : Cells T) (n : ℤ) : Cells T :=
  array.take n.toNat ++ List.replicate (n.toNat - array.length) none

def read (array : Cells T) (i : ℤ) : Option T := if 0 ≤ i then array[i.toNat]?.join else none

def write (array : Cells T) (i : ℤ) (x : T) : Option (Cells T) :=
  if 0 ≤ i ∧ i < array.length then some (array.set i.toNat (some x)) else none

/-! ## The deque -/

structure THEDeque (T : Type) where
  size : ℤ
  array : Cells T
  h : ℤ
  t : ℤ
  locked : Bool

namespace THEDeque

def new : THEDeque T := ⟨1000, malloc 1000, 0, 0, false⟩

def empty (s : THEDeque T) : Bool := s.h ≥ s.t

/-- `JLOCKSCOPE(_lock)`. -/
def lockScope {α : Type} (s : THEDeque T) (body : Option α) : Option α :=
  if s.locked then none else body

/-- The head and tail pointers are reset. -/
def reset (s : THEDeque T) : Option (THEDeque T) :=
  if s.empty ∧ s.h > 0 then
    s.lockScope (if s.empty then some { s with h := 0, t := 0 } else some s)
  else some s

/-- The array is resized. -/
def resize (s : THEDeque T) : Option (THEDeque T) :=
  if s.t ≥ s.size - 1 then
    s.lockScope (some { s with size := s.size * 3, array := realloc s.array (s.size * 3) })
  else some s

def push_top (task : T) (s : THEDeque T) : Option (THEDeque T) :=
  s.reset.bind fun s => (write s.array s.t task).bind fun array =>
    resize { s with array := array, t := s.t + 1 }

def pop_top (null : T) (s : THEDeque T) : Option (T × THEDeque T) :=
  if s.empty then some (null, s)
  else
    let s := { s with t := s.t - 1 }
    if s.h > s.t then
      let s := { s with t := s.t + 1 }
      s.lockScope (if s.empty then some (null, s)
        else
          let s := { s with t := s.t - 1 }
          (read s.array s.t).map fun x => (x, s))
    else (read s.array s.t).map fun x => (x, s)

def pop_bottom (null : T) (s : THEDeque T) : Option (T × THEDeque T) :=
  if s.empty || s.locked then some (null, s)
  else
    let s := { s with locked := true, h := s.h + 1 }
    if s.h > s.t then some (null, { s with h := s.h - 1, locked := false })
    else (read s.array (s.h - 1)).map fun task => (task, { s with locked := false })

/-- An operation, with what it returns. -/
def step (null : T) : Op T → THEDeque T → Option (Option T × THEDeque T)
  | .pushTop x, s => (s.push_top x).map fun s => (none, s)
  | .popTop, s => (s.pop_top null).map fun r => (some r.1, r.2)
  | .popBottom, s => (s.pop_bottom null).map fun r => (some r.1, r.2)

/-- What an answer of the ideal deque is returned as. -/
def returned (null : T) : Answer T → Option T
  | .done => none
  | .empty => some null
  | .popped x => some x

/-! ## Representation -/

/-- The elements are in the cells from the head to the tail, and one more cell is free. -/
structure Represents (s : THEDeque T) (q : List T) : Prop where
  head : 0 ≤ s.h
  tail : s.h + q.length = s.t
  cells : ∀ (i : ℕ) (x : T), q[i]? = some x → s.array[s.h.toNat + i]? = some (some x)
  allocated : (s.array.length : ℤ) = s.size
  room : s.t < s.size - 1
  unlocked : s.locked = false

theorem represents_new : Represents (new : THEDeque T) [] where
  head := le_rfl
  tail := rfl
  cells i x hx := by cases hx
  allocated := by
    show ((List.replicate 1000 (none : Option T)).length : ℤ) = 1000
    rw [List.length_replicate]
    rfl
  room := by
    show (0 : ℤ) < 1000 - 1
    decide
  unlocked := rfl

section Operations

variable {s : THEDeque T} {q : List T} {x : T}

theorem Represents.empty_iff (hs : s.Represents q) : s.empty = true ↔ q = [] := by
  have htail := hs.tail
  rw [empty, decide_eq_true_eq, ← List.length_eq_zero_iff]
  omega

/-- The element at a place of the queue is read at its cell. -/
theorem Represents.read (hs : s.Represents q) {i : ℕ} (hi : q[i]? = some x) :
    read s.array (s.h + i) = some x := by
  have hhead := hs.head
  have hcell : (s.h + i).toNat = s.h.toNat + i := by omega
  rw [PbTHEDeque.read, if_pos (by omega), hcell, hs.cells i x hi]
  rfl

theorem Represents.reset (hs : s.Represents q) :
    ∃ s', s.reset = some s' ∧ s'.Represents q := by
  by_cases hempty : s.empty = true ∧ s.h > 0
  · have hq := hs.empty_iff.mp hempty.1
    have htail := hs.tail
    have hroom := hs.room
    refine ⟨{ s with h := 0, t := 0 }, ?_, ?_⟩
    · rw [THEDeque.reset, if_pos hempty, lockScope, hs.unlocked, if_pos hempty.1]
      rfl
    · subst hq
      refine ⟨le_rfl, rfl, fun i x hx => (by cases hx), hs.allocated, ?_, hs.unlocked⟩
      rw [List.length_nil] at htail
      show (0 : ℤ) < s.size - 1
      omega
  · exact ⟨s, if_neg hempty, hs⟩

/-- A push before the array is resized. -/
theorem Represents.write (hs : s.Represents q) (x : T) :
    ∃ array, write s.array s.t x = some array ∧ array.length = s.array.length ∧
      ∀ (i : ℕ) (y : T), (q ++ [x])[i]? = some y → array[s.h.toNat + i]? = some (some y) := by
  have hhead := hs.head
  have htail := hs.tail
  have hroom := hs.room
  have halloc := hs.allocated
  refine ⟨_, if_pos ⟨by omega, by omega⟩, List.length_set, fun i y hy => ?_⟩
  have hlt : i < (q ++ [x]).length := (List.getElem?_eq_some_iff.mp hy).1
  rw [List.length_append, List.length_singleton] at hlt
  by_cases hi : i = q.length
  · rw [hi, List.getElem?_concat_length] at hy
    rw [← Option.some.inj hy, show s.h.toNat + i = s.t.toNat by omega,
      List.getElem?_set_self (by omega)]
  · rw [List.getElem?_append_left (by omega)] at hy
    rw [List.getElem?_set_ne (by omega)]
    exact hs.cells i y hy

/-- What is allocated stays where it is. -/
theorem getElem?_realloc {array : Cells T} {n : ℤ} {i : ℕ} (hn : (array.length : ℤ) ≤ n)
    (hi : i < array.length) : (realloc array n)[i]? = array[i]? := by
  rw [realloc, List.take_of_length_le (by omega), List.getElem?_append_left hi]

theorem length_realloc {array : Cells T} {n : ℤ} (hn : (array.length : ℤ) ≤ n) :
    ((realloc array n).length : ℤ) = n := by
  rw [realloc, List.length_append, List.take_of_length_le (by omega), List.length_replicate]
  omega

theorem Represents.push_top (hs : s.Represents q) (x : T) :
    ∃ s', s.push_top x = some s' ∧ s'.Represents (q ++ [x]) := by
  obtain ⟨s, hreset, hs⟩ := hs.reset
  obtain ⟨array, hwrite, hlength, hcells⟩ := hs.write x
  have hhead := hs.head
  have htail := hs.tail
  have hroom := hs.room
  have halloc := hs.allocated
  rw [← hlength] at halloc
  have htail' : s.h + ((q ++ [x]).length : ℕ) = s.t + 1 := by
    rw [List.length_append, List.length_singleton]
    omega
  rw [THEDeque.push_top, hreset, Option.bind_some, hwrite, Option.bind_some, resize]
  by_cases hfull : s.t + 1 ≥ s.size - 1
  · rw [if_pos hfull, lockScope, hs.unlocked]
    have hgrown : (array.length : ℤ) ≤ s.size * 3 := by omega
    refine ⟨_, rfl, hhead, htail', fun i y hy => ?_, length_realloc hgrown, ?_, rfl⟩
    · have hcell := hcells i y hy
      show (realloc array (s.size * 3))[s.h.toNat + i]? = _
      rw [getElem?_realloc hgrown (List.getElem?_eq_some_iff.mp hcell).1, hcell]
    · show s.t + 1 < s.size * 3 - 1
      omega
  · rw [if_neg hfull]
    exact ⟨_, rfl, hhead, htail', hcells, halloc, not_le.mp hfull, hs.unlocked⟩

/-- With an element the head is not beyond the tail that is taken back, so no lock is needed. -/
theorem Represents.pop_top (hs : s.Represents (q ++ [x])) (null : T) :
    ∃ s', s.pop_top null = some (x, s') ∧ s'.Represents q := by
  have htail := hs.tail
  rw [List.length_append, List.length_singleton] at htail
  have hempty : ¬ s.empty = true := by
    rw [hs.empty_iff]
    exact List.append_ne_nil_of_right_ne_nil q (List.cons_ne_nil x [])
  have hread : PbTHEDeque.read s.array (s.t - 1) = some x := by
    rw [show s.t - 1 = s.h + q.length by omega]
    exact hs.read List.getElem?_concat_length
  rw [THEDeque.pop_top, if_neg hempty]
  show ∃ s', (if s.h > s.t - 1 then _ else
    (PbTHEDeque.read s.array (s.t - 1)).map fun y => (y, _)) = some (x, s') ∧ _
  rw [if_neg (by omega), hread]
  refine ⟨{ s with t := s.t - 1 }, rfl, hs.head, ?_, fun i y hy => ?_, hs.allocated, ?_,
    hs.unlocked⟩
  · show s.h + q.length = s.t - 1
    omega
  · refine hs.cells i y ?_
    rw [List.getElem?_append_left (List.getElem?_eq_some_iff.mp hy).1]
    exact hy
  · have hroom := hs.room
    show s.t - 1 < s.size - 1
    omega

theorem Represents.pop_bottom (hs : s.Represents (x :: q)) (null : T) :
    ∃ s', s.pop_bottom null = some (x, s') ∧ s'.Represents q := by
  have hhead := hs.head
  have htail := hs.tail
  rw [List.length_cons] at htail
  have hempty : s.empty = false := by
    rw [Bool.eq_false_iff]
    exact fun he => List.cons_ne_nil x q (hs.empty_iff.mp he)
  have hread : PbTHEDeque.read s.array (s.h + 1 - 1) = some x := by
    rw [show s.h + 1 - 1 = s.h + (0 : ℕ) by omega]
    exact hs.read rfl
  rw [THEDeque.pop_bottom, hempty, hs.unlocked, if_neg (by decide)]
  show ∃ s', (if s.h + 1 > s.t then _ else
    (PbTHEDeque.read s.array (s.h + 1 - 1)).map fun y => (y, _)) = some (x, s') ∧ _
  rw [if_neg (by omega), hread]
  refine ⟨_, rfl, ?_, ?_, fun i y hy => ?_, hs.allocated, hs.room, rfl⟩
  · show (0 : ℤ) ≤ s.h + 1
    omega
  · show s.h + 1 + q.length = s.t
    omega
  · have hcell := hs.cells (i + 1) y hy
    show s.array[(s.h + 1).toNat + i]? = _
    rwa [show (s.h + 1).toNat + i = s.h.toNat + (i + 1) by omega]

end Operations

/-- **ONE OPERATION** does what the ideal deque does. -/
theorem step_spec (null : T) (op : Op T) {s : THEDeque T} {q : List T} (hs : s.Represents q) :
    ∃ s', step null op s = some (returned null (ideal op q).1, s') ∧
      s'.Represents (ideal op q).2 := by
  cases op with
  | pushTop x =>
      obtain ⟨s', hpush, hs'⟩ := hs.push_top x
      refine ⟨s', ?_, hs'⟩
      rw [step, hpush]
      rfl
  | popTop =>
      rcases List.eq_nil_or_concat q with rfl | ⟨q, x, rfl⟩
      · refine ⟨s, ?_, hs⟩
        rw [step, pop_top, if_pos (hs.empty_iff.mpr rfl)]
        rfl
      · rw [List.concat_eq_append] at hs ⊢
        obtain ⟨s', hpop, hs'⟩ := hs.pop_top null
        rw [ideal_popTop_concat]
        refine ⟨s', ?_, hs'⟩
        rw [step, hpop]
        rfl
  | popBottom =>
      cases q with
      | nil =>
          refine ⟨s, ?_, hs⟩
          rw [step, pop_bottom, hs.empty_iff.mpr rfl]
          rfl
      | cons x q =>
          obtain ⟨s', hpop, hs'⟩ := hs.pop_bottom null
          refine ⟨s', ?_, hs'⟩
          rw [step, hpop]
          rfl

/-- **THE DEQUE**: no operation of a run leaves the array, the answers are those of the ideal
    deque, and what was pushed is what was popped and what is left. -/
theorem refines_deque (null : T) (ops : List (Op T)) :
    (∃ s, run (step null) ops new =
        some ((runAll ideal ops []).1.map (returned null), s) ∧
      s.Represents (runAll ideal ops []).2) ∧
    ((runAll ideal ops []).1.filterMap Answer.popped? ++ (runAll ideal ops []).2).Perm
      (ops.filterMap Op.pushed?) :=
  ⟨run_refines (returned null) (fun op _ _ hs => step_spec null op hs) ops represents_new,
    perm_pushed ops []⟩

example : (run (step 0) [.pushTop 1, .pushTop 2, .pushTop 3, .popBottom, .popTop, .popTop, .popTop]
    (⟨2, malloc 2, 0, 0, false⟩ : THEDeque ℕ)).map Prod.fst =
      some [none, none, none, some 1, some 3, some 2, some 0] := by decide

end THEDeque

end PbTHEDeque
