import Mathlib.Logic.Function.Basic
import Mathlib.Data.Fintype.Basic
import PetaBricks.TransitionProofs

/-! # AbortTask — the rendezvous as a transition system

    `WorkerThread::popAndRunOneTask`, `AbortTask::run` and
    `DynamicScheduler::abort` for `n` worker threads.  A local push, a local pop, a
    steal and each update or test of a counter is one step.

    An ordinary task is known by its number.  Running it is logged; what it spawns
    is the `spawn` steps of its thread.  Cancelling one spawns nothing
    (`decrementPredecessors(true)` does not enqueue).  A thread that left the
    rendezvous goes back to `popAndRunOneTask`. -/

namespace PbAbortTask

open PbTransition

/-- What a deque holds: an ordinary task, or the `AbortTask`. -/
inductive Item where
  | task (id : Nat)
  | abort
  deriving DecidableEq, Repr

/-- Where a thread is. -/
inductive Phase (n : Nat) where
  /-- In `mainLoop`, or running an ordinary task. -/
  | live
  /-- Called `AbortTask::run`, before it decrements `_numLive`. -/
  | entering
  /-- Cancels its own pending tasks. -/
  | clearing
  /-- At the test `_numLive>0`. -/
  | loopHead
  /-- Pushes itself `k` more times. -/
  | pushing (k : Nat)
  /-- Steals up to `c` more tasks from `v`. -/
  | stealFrom (v : Fin n) (c : Nat)
  /-- Drains off its abort tasks. -/
  | draining
  /-- Before it decrements `_numAborting`. -/
  | drained
  /-- Waits for `_numAborting` to reach zero. -/
  | waiting
  /-- Threw the exception that ends `AbortTask::run`. -/
  | left
  deriving DecidableEq, Repr

/-- A worker: its phase, `_ondeck` and `_deque` (top first). -/
structure Thread (n : Nat) where
  phase : Phase n
  ondeck : Option Item
  deque : List Item

/-- What happened so far, newest first. -/
inductive Event (n : Nat) where
  | entered (i : Fin n)
  | ran (id : Nat)
  | cancelled (id : Nat)
  deriving DecidableEq, Repr

/-- The pool and the `AbortTask`'s counters.  `violated` is a failed `JASSERT`,
    or a call of `cancel()` on the `AbortTask`. -/
structure State (n : Nat) where
  thread : Fin n → Thread n
  started : Bool
  numLive : Int
  numAborting : Int
  nextId : Nat
  log : List (Event n)
  violated : Bool

/-- The steps. -/
inductive Act (n : Nat) where
  | abort
  | spawn
  | runLocal
  | cancelLocal
  | steal (v : Fin n)
  | decrementLive
  | clear
  | checkLive
  | push
  | pickVictim (v : Fin n)
  | stealOne (fails : Bool)
  | drain
  | decrementAborting
  | leave
  deriving DecidableEq, Repr

variable {n : Nat}

/-- `popLocal()`. -/
def popLocal (t : Thread n) : Option (Item × Thread n) :=
  match t.ondeck with
  | some x => some (x, { t with ondeck := none })
  | none =>
      match t.deque with
      | [] => none
      | x :: rest => some (x, { t with deque := rest })

/-- `pushLocal()`. -/
def pushLocal (t : Thread n) (x : Item) : Thread n :=
  match t.ondeck with
  | none => { t with ondeck := some x }
  | some _ => { t with deque := x :: t.deque }

/-- `steal()`: what `_ondeck` holds cannot be stolen. -/
def popBottom (t : Thread n) : Option (Item × Thread n) :=
  match t.deque.getLast? with
  | none => none
  | some x => some (x, { t with deque := t.deque.dropLast })

/-- `workCount()`. -/
def workCount (t : Thread n) : Nat := t.deque.length

/-- Store a thread. -/
def State.setThread (s : State n) (i : Fin n) (t : Thread n) : State n :=
  { s with thread := Function.update s.thread i t }

/-- Move a thread on. -/
def State.setPhase (s : State n) (i : Fin n) (p : Phase n) : State n :=
  s.setThread i { s.thread i with phase := p }

/-- Record an event. -/
def State.note (s : State n) (e : Event n) : State n :=
  { s with log := e :: s.log }

/-- `task->runWrapper()` on what `popAndRunOneTask` got. -/
def State.run (s : State n) (i : Fin n) : Item → State n
  | .task id => s.note (.ran id)
  | .abort => (s.setPhase i .entering).note (.entered i)

/-- `t->cancel()`. -/
def State.cancel (s : State n) : Item → State n
  | .task id => s.note (.cancelled id)
  | .abort => { s with violated := true }

/-- `popAndRunOneTask` runs on this thread. -/
def Phase.popsAndRuns : Phase n → Bool
  | .live | .left => true
  | _ => false

/-- One step of thread `i`. -/
def step (s : State n) : Fin n × Act n → Option (State n)
  -- DynamicScheduler::abort, the first thread
  | (i, .abort) =>
      if s.started = false ∧ (s.thread i).phase = .live then
        some { (s.setPhase i .entering).note (.entered i) with
          started := true, numLive := n, numAborting := n }
      else none
  | (i, .spawn) =>
      if (s.thread i).phase = .live then
        some { s.setThread i (pushLocal (s.thread i) (.task s.nextId)) with
          nextId := s.nextId + 1 }
      else none
  | (i, .runLocal) =>
      if (s.thread i).phase.popsAndRuns then
        match popLocal (s.thread i) with
        | none => none
        | some (x, t) => some ((s.setThread i t).run i x)
      else none
  -- DynamicScheduler::abort, another thread
  | (i, .cancelLocal) =>
      if (s.thread i).phase = .live then
        match popLocal (s.thread i) with
        | none => none
        | some (x, t) => some ((s.setThread i t).cancel x)
      else none
  | (i, .steal v) =>
      if (s.thread i).phase.popsAndRuns ∧ (popLocal (s.thread i)).isNone ∧
          v ≠ i then
        match popBottom (s.thread v) with
        | none => none
        | some (x, t) => some ((s.setThread v t).run i x)
      else none
  | (i, .decrementLive) =>
      if (s.thread i).phase = .entering then
        some { s.setPhase i .clearing with numLive := s.numLive - 1 }
      else none
  | (i, .clear) =>
      if (s.thread i).phase = .clearing then
        match popLocal (s.thread i) with
        | none => some (s.setPhase i .loopHead)
        | some (x, t) => some ((s.setThread i t).cancel x)
      else none
  | (i, .checkLive) =>
      if (s.thread i).phase = .loopHead then
        if 0 < s.numLive then
          some (s.setPhase i
            (.pushing (if workCount (s.thread i) < 5 then 15 else 0)))
        else some (s.setPhase i .draining)
      else none
  | (i, .push) =>
      match (s.thread i).phase with
      | .pushing (k + 1) =>
          some (s.setThread i
            { pushLocal (s.thread i) .abort with phase := .pushing k })
      | _ => none
  | (i, .pickVictim v) =>
      if (s.thread i).phase = .pushing 0 ∧ v ≠ i then
        some (s.setPhase i (.stealFrom v (workCount (s.thread v))))
      else none
  | (i, .stealOne fails) =>
      match (s.thread i).phase with
      | .stealFrom _ 0 => some (s.setPhase i .loopHead)
      | .stealFrom v (c + 1) =>
          match if fails then none else popBottom (s.thread v) with
          | some (.task id, t) =>
              some (((s.setThread v t).setPhase i (.stealFrom v c)).cancel
                (.task id))
          | some (.abort, t) => some ((s.setThread v t).setPhase i .loopHead)
          | none => some (s.setPhase i .loopHead)
      | _ => none
  | (i, .drain) =>
      if (s.thread i).phase = .draining then
        match popLocal (s.thread i) with
        | none => some (s.setPhase i .drained)
        | some (.abort, t) => some (s.setThread i t)
        | some (.task _, _) => some { s with violated := true }
      else none
  | (i, .decrementAborting) =>
      if (s.thread i).phase = .drained then
        some { s.setPhase i .waiting with numAborting := s.numAborting - 1 }
      else none
  | (i, .leave) =>
      if (s.thread i).phase = .waiting ∧ s.numAborting ≤ 0 then
        some (s.setPhase i .left)
      else none

/-- All threads live with empty deques, no abort under way. -/
def Initial (s : State n) : Prop :=
  (∀ i, s.thread i = ⟨.live, none, []⟩) ∧ s.started = false ∧ s.nextId = 0 ∧
    s.log = [] ∧ s.violated = false

/-- The pool. -/
def system (n : Nat) : System (State n) (Fin n × Act n) where
  init := Initial
  next := step

end PbAbortTask
