import Mathlib.Data.Fintype.Basic
import PetaBricks.DynamicTaskOrderProofs
import PetaBricks.DynamicTaskPlaceProofs

/-! # DynamicTask safety — what any interleaving guarantees

    The invariants read off as properties of single tasks, in every reachable
    state of any number of threads and tasks: order, at most one start, exactly
    one hand-over, and a predecessor counter that is never wrong. -/

namespace PbDynamicTask

open PbTransition PbCallStack

variable {ι : Type} [DecidableEq ι] {cls : ι → TaskClass}

/-- What the task system promises, as a property of one state. -/
structure Safe (cls : ι → TaskClass) (s : State ι) : Prop where
  /-- A task is not dispatched, let alone started, before every task it depends
      on has completed, continuations included. -/
  order : ∀ a b, .dependsOn a b ∈ s.log →
    0 < s.dispatched a ∨ 0 < s.started a → s.Completed b
  /-- `run()` is called at most once, and never besides a cancellation. -/
  once : ∀ a, s.log.count (.ran a) ≤ s.started a ∧ s.started a ≤ 1
  /-- An enqueued task whose predecessors have completed, and their signals
      been delivered, is handed over exactly once. -/
  handed : ∀ a, s.phase a ≠ .new →
    (∀ b, .dependsOn a b ∈ s.log → s.Completed b) →
    total (Frame.signalling a) s.threads = 0 →
      s.dispatched a + total (Frame.dispatching a) s.threads = 1
  /-- No task is handed over twice. -/
  handedOnce : ∀ a, s.dispatched a ≤ 1
  /-- Where it is handed to: a null task is run in place, others go to a worker
      queue, or where `remoteScheduleTask` sends them, or were cancelled. -/
  target : ∀ a t, .dispatched a t ∈ s.log → t ∈ (cls a).targets
  /-- The counter is the number of registered, not yet signalled
      predecessors. -/
  counter : ∀ a, (s.task a).numPredecessors
    = s.log.count (.registered a) - s.log.count (.signalled a)

theorem reached01_le (p : Phase) : p.reached01 ≤ 1 := by
  cases p <;> decide

theorem count_ran_le (log : List (Event ι)) (a : ι) :
    log.count (.ran a) ≤ log.countP (Event.isStart a) := by
  rw [List.count]
  refine List.countP_mono_left fun e _ he => ?_
  rw [beq_iff_eq.mp he]
  simp [Event.isStart]

section Reach

variable [Fintype ι] {s : State ι}

/-- **TASK SAFETY**: every reachable state is safe, whatever the tasks, the
    threads and the interleaving. -/
theorem dynamicTask_safe (h : Reachable (system cls) s) : Safe cls s := by
  have hinv := inv_of_reachable h
  have horder := order_of_reachable h
  have hplaces := places_of_reachable h
  constructor
  case order =>
      intro a b hab hstart
      refine completed_of_reached hinv horder ?_ hab
      have h1 := hinv.started a
      have h2 := hinv.dispatched a
      have h3 := reached01_le (s.phase a)
      omega
  case once =>
      intro a
      refine ⟨count_ran_le s.log a, ?_⟩
      have h1 := hinv.started a
      have h3 := reached01_le (s.phase a)
      omega
  case handed =>
      exact fun a ha hdeps hsig =>
        dispatched_of_completed hinv horder ha hdeps hsig
  case handedOnce =>
      intro a
      have h2 := hinv.dispatched a
      have h3 := reached01_le (s.phase a)
      omega
  case target => exact hplaces.targets
  case counter => exact hinv.account

end Reach

/-! ## Runs -/

/-- Fresh tasks and two idle threads. -/
def idle (cls : ι → TaskClass) : State ι where
  task := fun a => ⟨(cls a).initialState, 0, [], none⟩
  threads := [[], []]
  queue := []
  remoteOut := []
  gpuQueue := []
  sealed := fun _ => false
  log := []
  violated := none

omit [DecidableEq ι] in
theorem idle_initial (cls : ι → TaskClass) : Initial cls (idle cls) :=
  ⟨fun _ => rfl, by simp [idle], rfl, rfl, rfl, fun _ => rfl, rfl, rfl⟩

/-- A thread's own steps, `n` times. -/
def steps (i n : Nat) : List (Nat × Act ι) :=
  List.replicate n (i, .advance false)

/-- Task `b` depends on task `a`, whose continuation is task `c`; thread 1 registers
    the dependency while thread 0 already runs task `a`. -/
def continuedRun (a b c : ι) : List (Nat × Act ι) :=
  [(0, .callEnqueue a)] ++ steps 0 2 ++ [(0, .pop a false)] ++ steps 0 1 ++
    [(1, .callDependsOn b a), (0, .ret (some c))] ++ steps 0 1 ++ steps 1 2 ++
    [(1, .callEnqueue b)] ++ steps 1 1 ++ steps 0 3 ++
    [(1, .pop c false)] ++ steps 1 1 ++ [(1, .ret none)] ++ steps 1 4 ++
    [(0, .pop b false)] ++ steps 0 1

/-- In that run task 1 starts, after the whole chain of task 0 completed. -/
theorem dynamicTask_safe_continued :
    ∃ s, Reachable (system fun _ => .dynamicTask) s ∧
      Safe (fun _ => .dynamicTask) s ∧ s.started (1 : Fin 3) = 1 ∧
      (s.task 0).state = .continued ∧ (s.task 2).state = .complete := by
  obtain ⟨s, hs, hv⟩ := exists_of_exec_map
    (system fun _ => TaskClass.dynamicTask)
    (fun s : State (Fin 3) =>
      (s.started 1, (s.task 0).state, (s.task 2).state))
    (1, .continued, .complete) (continuedRun 0 1 2) (idle_initial _) rfl
  rw [Prod.mk.injEq, Prod.mk.injEq] at hv
  exact ⟨s, hs, dynamicTask_safe hs, hv⟩

/-- A null task is enqueued. -/
def nullRun : List (Nat × Act Unit) :=
  [(0, .callEnqueue ())] ++ steps 0 3 ++ [(0, .ret none)] ++ steps 0 2

/-- A null task without predecessors has run to completion and no thread has
    anything left to do, yet it was never in a worker queue. -/
theorem nullTask_never_queued :
    ¬ ∀ s : State Unit, Reachable (system fun _ => .nullDynamicTask) s →
      s.threads = [[], []] → ∀ a, s.phase a ≠ .new →
      (∀ b, .dependsOn a b ∈ s.log → s.Completed b) →
      s.log.count (.dispatched a .workerQueue) = 1 := by
  intro hclaim
  obtain ⟨s, hs, hv⟩ := exists_of_exec_map
    (system fun _ => TaskClass.nullDynamicTask)
    (fun s : State Unit => (s.threads, s.phase (), s.log))
    ([[], []], .done, [.ran (), .dispatched () .inlined]) nullRun
    (idle_initial _) rfl
  rw [Prod.mk.injEq, Prod.mk.injEq] at hv
  obtain ⟨hth, hph, hlog⟩ := hv
  have hone := hclaim s hs hth () (by rw [hph]; decide)
    (fun b hb => by rw [hlog] at hb; simp at hb)
  rw [hlog] at hone
  exact absurd hone (by decide)

end PbDynamicTask
